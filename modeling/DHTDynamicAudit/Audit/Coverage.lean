import DHTDynamicAudit.Audit.Drawing
import DHTDynamicAudit.Audit.Tagging
import DHTDynamicAudit.Store.Density

/-!
# What a challenge can draw

`generateChallenges` draws from `1..getBlockCount`, but `getBlockCount` counts
entries. The draws cover the registered blocks exactly when these have no gap:
any index in range can be drawn, and no other.
-/

namespace DHTDynamic

open Core

variable {G1 G2 GT κ : Type} {lib : CoreLib G1 G2 GT}

namespace World

variable {w : World κ} {fileId : Bytes}

/-! ## Missing metadata -/

/-- Metadata of a registered block is not missing. -/
theorem attachMetadata_ne_blockNull {item : ChallengeItem} {r : Ref}
    (hr : w.getBlockMetadata fileId item.blockIndex = .ok r) (i : SizeT) :
    w.attachMetadata fileId item ≠ .error (.blockNull .getBlockMetadata i fileId) := by
  simp only [attachMetadata, copyMetadata, hr, bind, Except.bind]
  cases (w.heap r).asVersioned <;> simp

theorem mapM_attachMetadata_ne_blockNull {items : List ChallengeItem}
    (hr : ∀ item ∈ items, ∃ r, w.getBlockMetadata fileId item.blockIndex = .ok r) (i : SizeT) :
    items.mapM (w.attachMetadata fileId) ≠ .error (.blockNull .getBlockMetadata i fileId) := by
  intro h
  obtain ⟨item, hitem, he⟩ := mapM_error h
  obtain ⟨r, hr⟩ := hr item hitem
  exact attachMetadata_ne_blockNull hr i he

/-- If every picked block is registered, no metadata is missing. -/
theorem buildChallenges_ne_blockNull {fuel : Nat} {y : G2} {blockCount : SizeT}
    {picked : List SizeT} {random : Stream' Bytes}
    (hr : ∀ i ∈ picked, ∃ r, w.getBlockMetadata fileId i = .ok r) (i : SizeT) :
    w.buildChallenges lib fuel fileId y blockCount picked random ≠
      some (.error (.blockNull .getBlockMetadata i fileId)) := by
  intro h
  rcases buildChallenges_cases h with ⟨_, hok, _⟩ | (he | he | he) | ⟨items, e, hitems, hmap, he⟩
  · cases hok
  · cases he
  · cases he
  · cases he
  obtain rfl := Except.error.inj he
  refine mapM_attachMetadata_ne_blockNull (fun item hitem => hr _ ?_) i hmap
  rw [← hitems]
  exact List.mem_map_of_mem hitem

/-! ## Scripted draws -/

/-- A script of distinct indices in range is picked as far as needed. -/
theorem pickIndices_scripted (script : List SizeT) (count blockCount : SizeT)
    (l picked : List SizeT) {fuel : Nat} (hfuel : l.length ≤ fuel) (hnodup : l.Nodup)
    (hl : ∀ i ∈ l, (1 ≤ i ∧ i ≤ blockCount) ∧ i ∉ picked)
    (henough : count.toNat ≤ picked.length + l.length) :
    ∃ result, pickIndices (.scripted script) count blockCount fuel picked l = some result ∧
      ∀ i ∈ picked, i ∈ result := by
  induction l generalizing picked fuel with
  | nil =>
    have hdone : ¬ picked.length < count.toNat := Nat.not_lt.mpr henough
    refine ⟨picked, ?_, fun _ hi => hi⟩
    cases fuel with
    | zero => exact if_neg hdone
    | succ fuel => exact if_neg hdone
  | cons i rest ih =>
    obtain ⟨fuel, rfl⟩ : ∃ m, fuel = m + 1 := Nat.exists_eq_succ_of_ne_zero (by
      rw [List.length_cons] at hfuel
      omega)
    by_cases hmore : picked.length < count.toNat
    · obtain ⟨hrange, hnew⟩ := hl i List.mem_cons_self
      have hstep : pickIndices (.scripted script) count blockCount (fuel + 1) picked (i :: rest) =
          pickIndices (.scripted script) count blockCount fuel (i :: picked) rest := by
        refine (if_pos hmore).trans ?_
        simp only [IndexRng.scripted, hrange, and_self, if_true, hnew, if_false]
      obtain ⟨hi, hrest⟩ := List.nodup_cons.mp hnodup
      obtain ⟨result, hresult, hmem⟩ := ih (i :: picked)
        (Nat.le_of_succ_le_succ hfuel) hrest
        (fun j hj => ⟨(hl j (List.mem_cons_of_mem i hj)).1, fun hmem => by
          rcases List.mem_cons.mp hmem with rfl | hold
          · exact hi hj
          · exact (hl j (List.mem_cons_of_mem i hj)).2 hold⟩)
        (by rw [List.length_cons] at henough ⊢; omega)
      exact ⟨result, hstep.trans hresult, fun j hj => hmem j (List.mem_cons_of_mem i hj)⟩
    · exact ⟨picked, if_neg hmore, fun _ hj => hj⟩

/-- The indices `1..n`. -/
def indicesUpTo (n : SizeT) : List SizeT := (List.range n.toNat).map fun k => UInt64.ofNat (k + 1)

theorem toNat_ofNat_succ {n : SizeT} {k : Nat} (hk : k < n.toNat) :
    (UInt64.ofNat (k + 1)).toNat = k + 1 :=
  toNat_ofNat_lt (Nat.lt_of_le_of_lt (Nat.succ_le_of_lt hk) n.toNat_lt)

theorem mem_indicesUpTo {n i : SizeT} : i ∈ indicesUpTo n ↔ 1 ≤ i ∧ i ≤ n := by
  rw [indicesUpTo, List.mem_map, UInt64.le_iff_toNat_le, UInt64.le_iff_toNat_le,
    UInt64.toNat_one]
  constructor
  · rintro ⟨k, hk, rfl⟩
    have hk := List.mem_range.mp hk
    rw [toNat_ofNat_succ hk]
    exact ⟨Nat.succ_pos k, hk⟩
  · rintro ⟨hpos, hle⟩
    refine ⟨i.toNat - 1, List.mem_range.mpr (by omega), ?_⟩
    rw [Nat.sub_add_cancel hpos, UInt64.ofNat_toNat]

theorem nodup_indicesUpTo (n : SizeT) : (indicesUpTo n).Nodup := by
  refine List.nodup_range.map_on fun k hk l hl he => ?_
  have hvalue := congrArg UInt64.toNat he
  rw [toNat_ofNat_succ (List.mem_range.mp hk), toNat_ofNat_succ (List.mem_range.mp hl)] at hvalue
  exact Nat.succ.inj hvalue

@[simp] theorem length_indicesUpTo (n : SizeT) : (indicesUpTo n).length = n.toNat := by
  simp [indicesUpTo]

/-- A script that names an index and then the others picks it, however many it must pick. -/
theorem pickIndices_first (script : List SizeT) {count blockCount i : SizeT}
    (hi : 1 ≤ i ∧ i ≤ blockCount) (hcount : 1 ≤ count) (hle : count ≤ blockCount) :
    ∃ picked, pickIndices (.scripted script) count blockCount blockCount.toNat []
      (i :: (indicesUpTo blockCount).erase i) = some picked ∧ i ∈ picked := by
  have hmem := mem_indicesUpTo.mpr hi
  have hnodup := nodup_indicesUpTo blockCount
  have hlength : blockCount.toNat = ((indicesUpTo blockCount).erase i).length + 1 := by
    have hpos := List.length_pos_of_mem hmem
    rw [List.length_erase_of_mem hmem, Nat.sub_add_cancel hpos, length_indicesUpTo]
  have hmore : 0 < count.toNat := UInt64.le_iff_toNat_le.mp hcount
  have hle' := UInt64.le_iff_toNat_le.mp hle
  obtain ⟨picked, hpicked, hin⟩ := pickIndices_scripted script count blockCount
    ((indicesUpTo blockCount).erase i) [i] (Nat.le_refl _) (hnodup.erase i)
    (fun j hj => ⟨mem_indicesUpTo.mp (List.mem_of_mem_erase hj), fun he => by
      obtain rfl := List.mem_singleton.mp he
      exact hnodup.not_mem_erase hj⟩)
    (by simp only [List.length_singleton]; omega)
  refine ⟨picked, ?_, hin i (List.mem_singleton_self i)⟩
  rw [hlength]
  refine (if_pos hmore).trans ?_
  simp only [IndexRng.scripted, hi, and_self, if_true, List.not_mem_nil, if_false]
  exact hpicked

/-- Any index in range can be drawn, whatever number of blocks is asked for. -/
theorem exists_selectIndices (ext : DHTDynamicChallengeRequestExt G1 G2) {blockCount i : SizeT}
    (hi : 1 ≤ i ∧ i ≤ blockCount) : ∃ (runtime : ChallengeRuntime) (fuel : Nat) (picked : _),
      selectIndices runtime.rng fuel ext runtime.entropy blockCount = some picked ∧ i ∈ picked := by
  have hone : 1 ≤ blockCount := UInt64.le_trans hi.1 hi.2
  let draws := i :: (indicesUpTo blockCount).erase i
  by_cases hasked : ext.challengeCount = 0
  · -- the number of blocks is drawn first
    obtain ⟨picked, hpicked, hin⟩ :=
      pickIndices_first (blockCount :: draws) hi hone (UInt64.le_refl _)
    refine ⟨.scripted (blockCount :: draws), blockCount.toNat, picked, ?_, hin⟩
    rw [← hpicked]
    simp [selectIndices, resolveCount, hasked, ChallengeRuntime.scripted, IndexRng.scripted, hone,
      draws]
  · have hmin : 1 ≤ min ext.challengeCount blockCount ∧
        min ext.challengeCount blockCount ≤ blockCount := by
      show 1 ≤ (if ext.challengeCount ≤ blockCount then _ else _) ∧ ite _ _ _ ≤ blockCount
      split_ifs with hle
      · exact ⟨one_le_iff.mpr hasked, hle⟩
      · exact ⟨hone, UInt64.le_refl _⟩
    obtain ⟨picked, hpicked, hin⟩ := pickIndices_first draws hi hmin.1 hmin.2
    refine ⟨.scripted draws, blockCount.toNat, picked, ?_, hin⟩
    rw [← hpicked]
    simp [selectIndices, resolveCount, hasked, ChallengeRuntime.scripted, IndexRng.scripted, draws]

/-! ## Coverage of a store -/

/-- A challenge of the file without an explicit block count never throws because a selected block
has no metadata, and every registered block can be selected. -/
def ChallengesCover (lib : CoreLib G1 G2 GT) (w : World κ) (fileId : Bytes) : Prop :=
  (∀ runtime fuel algorithm_ (ext : DHTDynamicChallengeRequestExt G1 G2), ext.fileId = fileId →
    ext.blockCount = 0 → ∀ i, w.generateChallenges lib runtime fuel algorithm_ (.typed ext) ≠
      some (.error (.blockNull .getBlockMetadata i fileId))) ∧
  ∀ i, w.Registered fileId i →
    ∀ ext : DHTDynamicChallengeRequestExt G1 G2, ext.fileId = fileId → ext.blockCount = 0 →
      ∃ (runtime : ChallengeRuntime) (fuel : Nat) (blockCount : SizeT) (picked : List SizeT),
        w.resolveBlockCount ext = .ok blockCount ∧ blockCount ≠ 0 ∧
        selectIndices runtime.rng fuel ext runtime.entropy blockCount = some picked ∧ i ∈ picked

/-- The registered indices are `1..m` for some `m`. -/
def WithoutGap (w : World κ) (fileId : Bytes) : Prop :=
  ∃ m : SizeT, ∀ i, w.Registered fileId i ↔ i ≠ 0 ∧ i ≤ m

theorem Holds.withoutGap {objects : List Ref} (h : w.Holds fileId objects) :
    w.WithoutGap fileId := by
  obtain ⟨count, _, hregistered⟩ := h.registeredUpToCount
  exact ⟨count, hregistered⟩

/-- A registered file without a gap holds a list. -/
theorem WithoutGap.exists_holds (h : w.WithoutGap fileId) {collection : Collection}
    (hfile : w.files_[fileId]? = some collection) : ∃ objects, w.Holds fileId objects := by
  obtain ⟨m, hm⟩ := h
  obtain ⟨objects, hlists, _⟩ := exists_lists_of_isSome_iff (m := collection) m.toNat_lt
    fun k => by
      rw [← succ_ne_zero_and_le_iff, ← hm, registered_iff, add_sub_cancel_right,
        entry_of_collection hfile]
  exact ⟨objects, collection, hfile, hlists⟩

theorem resolveBlockCount_of_zero {ext : DHTDynamicChallengeRequestExt G1 G2}
    (h : ext.blockCount = 0) : w.resolveBlockCount ext = w.getBlockCount ext.fileId :=
  if_neg (not_not.mpr h)

/-- Without a gap no draw misses. -/
theorem RegisteredUpToCount.generateChallenges_ne (h : w.RegisteredUpToCount fileId)
    {runtime : ChallengeRuntime} {fuel : Nat} {algorithm_ : Option (SM9BLSAlgorithm G2)}
    {ext : DHTDynamicChallengeRequestExt G1 G2} (hext : ext.fileId = fileId)
    (hcount : ext.blockCount = 0) (i : SizeT) :
    w.generateChallenges lib runtime fuel algorithm_ (.typed ext) ≠
      some (.error (.blockNull .getBlockMetadata i fileId)) := by
  subst hext
  obtain ⟨count, hget, hregistered⟩ := h
  have hresolve := (resolveBlockCount_of_zero (w := w) hcount).trans hget
  intro hthrow
  rcases generateChallenges_cases hthrow with (hnone | he | ⟨e, hcounted, _⟩) | ⟨_, hok⟩ |
    ⟨publicParams, algorithm, blockCount, drawn, _, _, _, _, hok, _, hblocks, herror⟩
  · cases hnone
  · cases he
  · rw [hresolve] at hcounted
    cases hcounted
  · cases hok
  obtain rfl := Except.ok.inj (hresolve.symm.trans hok)
  cases drawn with
  | ok challenges => cases herror
  | error e =>
    obtain rfl := Except.error.inj herror
    rcases challengeBlocks_cases hblocks with ⟨_, hok⟩ | ⟨selected, hz, hselect, hbuild⟩
    · cases hok
    have hrange := (setOrder_selectIndices hz hselect).2
    exact buildChallenges_ne_blockNull (fun j hj => (hregistered j).mpr
      ⟨one_le_iff.mp (hrange j hj).1, (hrange j hj).2⟩) i hbuild

/-- The draws cover a file with a registered block exactly when its registered indices have no
gap: `getBlockCount` counts them, so only `1..n` can all be drawn. -/
theorem challengesCover_iff (hsome : ∃ i, w.Registered fileId i) :
    ChallengesCover lib w fileId ↔ w.WithoutGap fileId := by
  obtain ⟨i₀, hi₀⟩ := hsome
  obtain ⟨r₀, hr₀⟩ := hi₀
  obtain ⟨collection, hfile, _⟩ := exists_collection_of_entry (getBlockMetadata_eq_ok.mp hr₀)
  constructor
  · rintro ⟨_, hdrawn⟩
    let count := UInt64.ofNat collection.size
    have hget : w.getBlockCount fileId = .ok count := by simp only [getBlockCount, hfile, count]
    have hle : ∀ i, w.Registered fileId i → i ≠ 0 ∧ i ≤ count := by
      intro i hi
      obtain ⟨runtime, fuel, blockCount, picked, hresolve, hz, hpicked, hmem⟩ :=
        hdrawn i hi { fileId := fileId } rfl rfl
      obtain rfl := Except.ok.inj (hget.symm.trans hresolve)
      have hrange := selectIndices_mem hz hpicked i hmem
      exact ⟨one_le_iff.mp hrange.1, hrange.2⟩
    have hsize : count.toNat ≤ collection.size := by
      rw [UInt64.toNat_ofNat']
      exact Nat.mod_le _ _
    obtain ⟨objects, hlists, _⟩ := exists_lists_of_forall_lt count.toNat_lt hsize
      fun k hk => succ_ne_zero_and_le_iff.mp (hle (k + 1) (by
        rwa [registered_iff, add_sub_cancel_right, entry_of_collection hfile]))
    exact Holds.withoutGap ⟨collection, hfile, hlists⟩
  · intro h
    obtain ⟨objects, hholds⟩ := h.exists_holds hfile
    have hupto := hholds.registeredUpToCount
    refine ⟨fun _ _ _ ext hext hzero i => hupto.generateChallenges_ne hext hzero i,
      fun i hi ext hext hzero => ?_⟩
    obtain ⟨count, hget, hregistered⟩ := hupto
    obtain ⟨hz, hle⟩ := (hregistered i).mp hi
    have hone := one_le_iff.mpr hz
    obtain ⟨runtime, fuel, picked, hpicked, hmem⟩ := exists_selectIndices ext ⟨hone, hle⟩
    refine ⟨runtime, fuel, count, picked, ?_, one_le_iff.mp (UInt64.le_trans hone hle), hpicked,
      hmem⟩
    rw [resolveBlockCount_of_zero hzero, hext, hget]

end World

end DHTDynamic
