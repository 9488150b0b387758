import DHTDynamicAudit.Core.Run
import DHTDynamicAudit.Store.FileLists

/-!
# Indices that leave a gap

`modifyBlock` and `deleteBlock` check that their index is registered;
`insertBlock` checks nothing. A run keeps the registered indices of a file equal
to `1..getBlockCount` exactly when every insertion is at `1..getBlockCount + 1`.
-/

namespace DHTDynamic

open Core

/-- A maintenance call on one file. -/
inductive BlockCall where
  | modifyBlock (blockIndex : SizeT)
  | insertBlock (blockIndex : SizeT)
  | deleteBlock (blockIndex : SizeT)
  deriving DecidableEq, Repr

namespace World

variable {κ : Type} {w t : World κ} {fileId : Bytes} {objects : List Ref}

/-- One call on the file, with arbitrary index. -/
def blockCall [MetadataClass κ] (fileId : Bytes) (w : World κ) : BlockCall → Outcome κ Unit
  | .modifyBlock i => w.modifyBlock fileId i
  | .insertBlock i => w.insertBlock fileId i
  | .deleteBlock i => w.deleteBlock fileId i

/-- The registered 1-based indices of the file are exactly `1..getBlockCount(fileId)`. -/
def RegisteredUpToCount (w : World κ) (fileId : Bytes) : Prop :=
  ∃ count, w.getBlockCount fileId = .ok count ∧
    ∀ i, (∃ r, w.getBlockMetadata fileId i = .ok r) ↔ i ≠ 0 ∧ i ≤ count

/-- The count has grown by exactly one and every registered object is still in the file. -/
def AddsOneBlock (w : World κ) (fileId : Bytes) (t : World κ) : Prop :=
  (∀ n, w.getBlockCount fileId = .ok n →
    ∃ n', t.getBlockCount fileId = .ok n' ∧ n'.toNat = n.toNat + 1) ∧
  ∀ i r, w.getBlockMetadata fileId i = .ok r → ∃ j, t.getBlockMetadata fileId j = .ok r

/-- What is expected of every call: the next state has no gap, and an insertion that returns
normally adds one block. -/
def CallKeepsFile [MetadataClass κ] (fileId : Bytes) (w : World κ) (c : BlockCall) : Prop :=
  (blockCall fileId w c).2.RegisteredUpToCount fileId ∧
    ∀ i, c = .insertBlock i → (w.insertBlock fileId i).1 = .ok () →
      w.AddsOneBlock fileId (w.insertBlock fileId i).2

/-- An insertion names one of the positions `1..getBlockCount + 1`, in `size_t` arithmetic. -/
def InRange (fileId : Bytes) (w : World κ) : BlockCall → Prop
  | .insertBlock i => ∀ n ∈ (w.getBlockCount fileId).toOption, i ≠ 0 ∧ i ≤ n + 1
  | _ => True

instance (fileId : Bytes) (w : World κ) : ∀ c, Decidable (InRange fileId w c)
  | .insertBlock _ => Option.decidableForallMem _
  | .modifyBlock _ | .deleteBlock _ => isTrue trivial

theorem Holds.getBlockMetadata_iff (h : w.Holds fileId objects) (i : SizeT) :
    (∃ r, w.getBlockMetadata fileId i = .ok r) ↔ 1 ≤ i.toNat ∧ i.toNat ≤ objects.length := by
  simp only [getBlockMetadata_eq_ok]
  constructor
  · rintro ⟨r, hr⟩
    by_contra hi
    rw [h.entry_eq_none hi] at hr
    cases hr
  · intro hi
    obtain ⟨r, _, hr⟩ := h.entry_eq_some hi
    exact ⟨r, hr⟩

/-- A file that holds a list has no gap. -/
theorem Holds.registeredUpToCount (h : w.Holds fileId objects) :
    w.RegisteredUpToCount fileId := by
  refine ⟨_, h.getBlockCount, fun i => ?_⟩
  rw [h.getBlockMetadata_iff, UInt64.le_iff_toNat_le, toNat_ofNat_lt h.bounded,
    one_le_toNat_iff]

/-- An insertion in range adds its fresh object and keeps the others. -/
theorem Holds.addsOneBlock (h : w.Holds fileId objects) {i : SizeT} (hz : i ≠ 0)
    (hle : i.toNat ≤ objects.length + 1) (hroom : objects.length + 1 < 2 ^ 64) :
    w.AddsOneBlock fileId (w.insertBlock fileId i).2 := by
  have hafter := h.insertBlock hz hle hroom
  have hlength : (objects.insertIdx (i.toNat - 1) w.nextRef).length = objects.length + 1 := by
    rw [List.length_insertIdx_of_le_length (by omega)]
  constructor
  · intro n hn
    obtain rfl := Except.ok.inj (h.getBlockCount.symm.trans hn)
    refine ⟨_, hafter.getBlockCount, ?_⟩
    rw [hlength, toNat_ofNat_lt hroom, toNat_ofNat_lt h.bounded]
  · intro j r hr
    have hmem : r ∈ objects := h.mem_iff.mpr ⟨_, getBlockMetadata_eq_ok.mp hr⟩
    obtain ⟨key, hkey⟩ := hafter.mem_iff.mp (List.subset_insertIdx _ _ _ hmem)
    exact ⟨key + 1, getBlockMetadata_eq_ok.mpr (by rwa [add_sub_cancel_right])⟩

/-- An insertion that adds one block to a file without gaps was in range: past the end it
leaves a gap at the old end, and a full index space overflows the count. -/
theorem Holds.inRange_of_keeps [MetadataClass κ] (h : w.Holds fileId objects) {i : SizeT}
    (hkeeps : CallKeepsFile fileId w (.insertBlock i)) :
    i ≠ 0 ∧ i.toNat ≤ objects.length + 1 ∧ objects.length + 1 < 2 ^ 64 := by
  obtain ⟨hcount, hadds⟩ := hkeeps
  obtain ⟨collection, hfile, hlists⟩ := id h
  have hok := insertBlock_ok hfile i
  obtain ⟨n', hn', hsucc⟩ := (hadds i rfl (congrArg Prod.fst hok)).1 _ h.getBlockCount
  rw [toNat_ofNat_lt h.bounded] at hsucc
  have hroom : objects.length + 1 < 2 ^ 64 := hsucc ▸ n'.toNat_lt
  obtain ⟨n, hn, hregistered⟩ := hcount
  obtain rfl : n' = n := Except.ok.inj (hn'.symm.trans hn)
  -- the old end must be registered again, by the new object or by a shifted one
  have hend : n' ≠ 0 := one_le_toNat_iff.mp (by omega)
  obtain ⟨r, hr⟩ := (hregistered n').mpr ⟨hend, UInt64.le_refl n'⟩
  have hplace : (n' - 1).toNat = objects.length := by rw [toNat_pred hend, hsucc]; rfl
  have hentry : (insertAt collection (i - 1) w.nextRef)[n' - 1]? = some r := by
    have := getBlockMetadata_eq_ok.mp hr
    rwa [blockCall, hok, entry_putCollection, if_pos rfl] at this
  rw [getElem?_insertAt_of_last_free hlists.lookup_zero_pred] at hentry
  have hle : i - 1 ≤ n' - 1 := by
    by_contra hlt
    rw [if_pos (UInt64.not_le.mp hlt), hlists.lookup, hplace,
      List.getElem?_eq_none (Nat.le_refl _)] at hentry
    cases hentry
  have hle' := UInt64.le_iff_toNat_le.mp hle
  rw [hplace] at hle'
  have hz : i ≠ 0 := by
    rintro rfl
    rw [toNat_zero_pred] at hle'
    omega
  rw [toNat_pred hz] at hle'
  exact ⟨hz, by omega, hroom⟩

/-- `modifyBlock` changes no collection. -/
theorem Holds.modifyBlock [MetadataClass κ] (h : w.Holds fileId objects) (i : SizeT) :
    (w.modifyBlock fileId i).2.Holds fileId objects := by
  cases hi : w.entry fileId (i - 1) with
  | some r =>
    rw [modifyBlock_ok hi]
    exact h
  | none =>
    obtain ⟨e, he⟩ := modifyBlock_error hi
    rw [he]
    exact h

/-- Deleting at any index, registered or not, leaves no gap. -/
theorem Holds.exists_deleteBlock (h : w.Holds fileId objects) (i : SizeT) :
    ∃ objects', (w.deleteBlock fileId i).2.Holds fileId objects' := by
  by_cases hi : 1 ≤ i.toNat ∧ i.toNat ≤ objects.length
  · exact ⟨_, (h.deleteBlock hi).2⟩
  · obtain ⟨e, he⟩ := deleteBlock_error (h.entry_eq_none hi)
    rw [he]
    exact ⟨objects, h⟩

/-- On a file without gaps a call does what is expected exactly when it is in range, and then
there is no gap afterwards. -/
theorem Holds.callKeepsFile_iff [MetadataClass κ] (h : w.Holds fileId objects) (c : BlockCall) :
    (CallKeepsFile fileId w c ↔ InRange fileId w c) ∧
      (InRange fileId w c → ∃ objects', (blockCall fileId w c).2.Holds fileId objects') := by
  cases c with
  | modifyBlock i =>
    have hafter := h.modifyBlock i
    exact ⟨⟨fun _ => trivial, fun _ => ⟨hafter.registeredUpToCount, fun _ hc => nomatch hc⟩⟩,
      fun _ => ⟨_, hafter⟩⟩
  | deleteBlock i =>
    obtain ⟨objects', hafter⟩ := h.exists_deleteBlock i
    exact ⟨⟨fun _ => trivial, fun _ => ⟨hafter.registeredUpToCount, fun _ hc => nomatch hc⟩⟩,
      fun _ => ⟨_, hafter⟩⟩
  | insertBlock i =>
    have hrange : InRange fileId w (.insertBlock i) ↔
        i ≠ 0 ∧ i.toNat ≤ objects.length + 1 ∧ objects.length + 1 < 2 ^ 64 := by
      rw [← ne_zero_and_le_succ_iff h.bounded]
      simp [InRange, h.getBlockCount, Except.toOption]
    rw [hrange]
    refine ⟨⟨h.inRange_of_keeps, fun ⟨hz, hle, hroom⟩ => ⟨?_, fun j hj _ => ?_⟩⟩,
      fun ⟨hz, hle, hroom⟩ => ⟨_, h.insertBlock hz hle hroom⟩⟩
    · exact (h.insertBlock hz hle hroom).registeredUpToCount
    · obtain rfl := BlockCall.insertBlock.inj hj
      exact h.addsOneBlock hz hle hroom

/-- A file just added holds a list. -/
theorem exists_holds_of_added {s : World κ} (h : w.addFile fileId = (.ok (), s) ∨
    ∃ n, w.addFileWithBlocks fileId n = (.ok (), s)) : ∃ objects, s.Holds fileId objects := by
  cases hfile : w.files_[fileId]? with
  | some _ =>
    simp only [addFile, addFileWithBlocks, hfile] at h
    rcases h with h | ⟨_, h⟩ <;> cases congrArg Prod.fst h
  | none =>
    rcases h with h | ⟨n, h⟩
    · simp only [addFile, hfile] at h
      obtain rfl := congrArg Prod.snd h
      exact ⟨[], ∅, by simp, .empty⟩
    · have hz : n ≠ 0 := by
        rintro rfl
        simp only [addFileWithBlocks, hfile, if_pos] at h
        cases congrArg Prod.fst h
      have hholds := holds_addFileWithBlocks hfile hz
      rw [h] at hholds
      exact ⟨_, hholds⟩

/-- From a file just added, a run of calls with arbitrary indices keeps the file free of gaps
and loses no block if and only if every insertion is in range. -/
theorem run_keepsFile_iff [MetadataClass κ] (w s : World κ) (fileId : Bytes)
    (hadded : w.addFile fileId = (.ok (), s) ∨
      ∃ n, w.addFileWithBlocks fileId n = (.ok (), s)) (calls : List BlockCall) :
    (s.RegisteredUpToCount fileId ∧
        Along (blockCall fileId) (CallKeepsFile fileId) s calls) ↔
      Along (blockCall fileId) (InRange fileId) s calls := by
  obtain ⟨objects, hholds⟩ := exists_holds_of_added hadded
  have hsteps : Along (blockCall fileId) (CallKeepsFile fileId) s calls ↔
      Along (blockCall fileId) (InRange fileId) s calls := by
    refine along_iff (P := fun u => ∃ objects, u.Holds fileId objects) ?_ ?_ ⟨objects, hholds⟩
    · rintro u c ⟨_, hu⟩ hc
      exact (hu.callKeepsFile_iff c).2 ((hu.callKeepsFile_iff c).1.mp hc)
    · rintro u c ⟨_, hu⟩
      exact (hu.callKeepsFile_iff c).1
  rw [hsteps]
  exact ⟨fun h => h.2, fun h => ⟨hholds.registeredUpToCount, h⟩⟩

/-- A run whose insertions are in range; the rejected calls do not matter. -/
theorem run_keepsFile_in_range :
    let s : World Empty := ((empty defaultMetadataFactory (Stream'.const 0)).addFile [7]).2
    let calls : List BlockCall := [.insertBlock 1, .insertBlock 1, .deleteBlock 9,
      .modifyBlock 0, .insertBlock 3, .deleteBlock 1]
    s.RegisteredUpToCount [7] ∧ Along (blockCall [7]) (CallKeepsFile [7]) s calls :=
  (run_keepsFile_iff (empty defaultMetadataFactory (Stream'.const 0)) _ [7] (Or.inl rfl) _).mpr
    (by decide)

/-- `insertBlock` at index zero puts the first block at the greatest key; the next insertion at
index one shifts it to key zero, past the wrap-around, and overwrites it. -/
theorem insertBlock_loses_block :
    let s : World Empty := ((empty defaultMetadataFactory (Stream'.const 0)).addFile [7]).2
    let s₁ := (s.insertBlock [7] 0).2
    (s.insertBlock [7] 0).1 = .ok () ∧ ¬ s₁.RegisteredUpToCount [7] ∧
      (s₁.insertBlock [7] 1).1 = .ok () ∧ ¬ s₁.AddsOneBlock [7] (s₁.insertBlock [7] 1).2 := by
  refine ⟨by decide, ?_, by decide, ?_⟩
  · rintro ⟨count, hcount, hregistered⟩
    obtain rfl : count = 1 := (Except.ok.inj hcount).symm
    exact absurd ((hregistered 0).mp ⟨0, by decide⟩).1 (by decide)
  · rintro ⟨hcount, _⟩
    obtain ⟨n', hn', hsucc⟩ := hcount 1 (by decide)
    obtain rfl : n' = 1 := (Except.ok.inj hn').symm
    exact absurd hsucc (by decide)

end World

end DHTDynamic
