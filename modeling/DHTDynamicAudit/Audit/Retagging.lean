import DHTDynamicAudit.Audit.Repositioning
import DHTDynamicAudit.Audit.Runs
import DHTDynamicAudit.Audit.Windows
import DHTDynamicAudit.Store.Changes

/-!
# Tags that follow the file

After a change the owner regenerates the tags of the blocks it touched, drops
those of blocks that are gone, and keeps the rest. However many changes follow
each other, the container stays the one that tagging the whole file anew would
return.
-/

namespace DHTDynamic

open Core
open Std (ExtTreeMap)

variable {G1 G2 GT κ : Type}

/-! ## The owner's work -/

/-- The touched indices of a changed file of `n` blocks. -/
def Change.stale (c : Change) (n : Nat) : List SizeT :=
  ((List.range n).map fun k => UInt64.ofNat (k + 1)).filter c.touches

namespace AuditedFile

variable (lib : CoreLib G1 G2 GT) (fileId : Bytes) (publicParams : DHTDynamicPublicParams G1 G2)
  (privateParams : DHTDynamicPrivateParams)

/-- A file as it is first registered: all of it is tagged. -/
def register (w : World κ) (blocks : List Bytes) : Option (AuditedFile G1 κ) :=
  match w.generateTags lib (tagsRequest fileId publicParams privateParams (fullFile blocks)
      none) with
  | (.ok (some tags), w) => some ⟨w, tags, blocks⟩
  | _ => none

/-- The tags whose block is still there. -/
def keptTags (s : AuditedFile G1 κ) : InMemoryTags G1 :=
  s.tags.filter fun key _ => decide (key.toNat < s.blocks.length)

/-- New tags for the stale indices, over those that are kept; without stale indices nothing is
requested. -/
def retag (s : AuditedFile G1 κ) (stale : List SizeT) : Option (AuditedFile G1 κ) :=
  if stale = [] then
    some ⟨s.store, s.keptTags, s.blocks⟩
  else
    match s.store.generateTags lib (tagsRequest fileId publicParams privateParams
        (fullFile s.blocks) (some stale)) with
    | (.ok (some fresh), w) => some ⟨w, mergeAll [fresh, s.keptTags], s.blocks⟩
    | _ => none

/-- The maintenance request of a change, then new tags for what it touched. -/
def change [MetadataClass κ] (s : AuditedFile G1 κ) (c : Change) : Option (AuditedFile G1 κ) :=
  match s.store.maintenance ⟨.typed (c.maintainExt fileId)⟩ with
  | (.ok (), w) =>
    let blocks := c.applyTo s.blocks
    retag lib fileId publicParams privateParams ⟨w, s.tags, blocks⟩ (c.stale blocks.length)
  | (.error _, _) => none

/-- One change after another. -/
def changes [MetadataClass κ] (s : AuditedFile G1 κ) : List Change → Option (AuditedFile G1 κ)
  | [] => some s
  | c :: rest => (s.change lib fileId publicParams privateParams c).bind fun s' => s'.changes rest

/-- The store holds the file and tagging all of it anew returns the container and leaves the
store as it is. -/
structure Current (s : AuditedFile G1 κ) : Prop where
  wellFormed : s.store.WellFormed
  versioned : s.store.HoldsVersioned fileId s.blocks.length
  tags : s.store.generateTags lib (tagsRequest fileId publicParams privateParams
    (fullFile s.blocks) none) = (.ok (some s.tags), s.store)

end AuditedFile

/-! ## Tags of a whole file -/

variable {lib : CoreLib G1 G2 GT} {fileId : Bytes} {publicParams : DHTDynamicPublicParams G1 G2}
  {privateParams : DHTDynamicPrivateParams}

theorem World.HoldsVersioned.holdsFile {w : World κ} {blocks : List Bytes}
    (h : w.HoldsVersioned fileId blocks.length) : w.HoldsFile fileId blocks :=
  ⟨h.hasFile, fun _ hkey => h.metadataAt hkey⟩

/-- A container with the tag of every block and no others is that of the whole file. -/
theorem World.generateTags_eq_of_tagged (ht : lib.TotalPoints) {w : World κ} (hw : w.WellFormed)
    (hfile : fileId ≠ []) {blocks : List Bytes} (h : w.HoldsVersioned fileId blocks.length)
    {tags : InMemoryTags G1} (hkeys : ∀ key : SizeT, (tags[key]?).isSome ↔
      key.toNat < blocks.length)
    (htags : ∀ key tag, tags[key]? = some tag →
      TaggedAt lib privateParams.a publicParams.u fileId (fullFile blocks) w key tag) :
    w.generateTags lib (tagsRequest fileId publicParams privateParams (fullFile blocks) none) =
      (.ok (some tags), w) := by
  obtain ⟨fullTags, hrun, hselects, hfull⟩ := h.holdsFile.generateTags ht hw hfile h.bounded
    publicParams privateParams (fullFile_isWindow h.bounded) (⟨_, rfl⟩ : SelectorAccepted _ none)
  rw [hrun]
  have hsame : fullTags = tags := by
    apply ExtTreeMap.ext_getElem?
    intro key
    cases hkey : fullTags[key]? with
    | some fullTag =>
      obtain ⟨hlt, hfullTag⟩ := hfull key fullTag hkey
      obtain ⟨tag, htag⟩ := Option.isSome_iff_exists.mp ((hkeys key).mpr hlt)
      rw [htag, hfullTag.unique (htags key tag htag)]
    | none =>
      apply Eq.symm
      apply Option.not_isSome_iff_eq_none.mp
      intro hsome
      have hselected := (hselects key).mpr (selects_fullFile h.bounded ((hkeys key).mp hsome))
      rw [hkey] at hselected
      cases hselected
  rw [hsame]

namespace AuditedFile.Current

variable {s : AuditedFile G1 κ}

/-- A current container has the tag of every block and no others. -/
theorem tagged (h : s.Current lib fileId publicParams privateParams) (ht : lib.TotalPoints)
    (hfile : fileId ≠ []) (key : SizeT) :
    ((s.tags[key]?).isSome ↔ key.toNat < s.blocks.length) ∧ ∀ tag, s.tags[key]? = some tag →
      World.TaggedAt lib privateParams.a publicParams.u fileId (fullFile s.blocks) s.store key
        tag := by
  have hbound := h.versioned.bounded
  obtain ⟨fullTags, hrun, hselects, hfull⟩ := h.versioned.holdsFile.generateTags ht h.wellFormed
    hfile hbound publicParams privateParams (fullFile_isWindow hbound)
    (⟨_, rfl⟩ : SelectorAccepted _ none)
  obtain rfl := Option.some.inj (Except.ok.inj (congrArg Prod.fst (h.tags.symm.trans hrun)))
  refine ⟨⟨fun hsome => ?_, fun hlt => ?_⟩, fun tag htag => (hfull key tag htag).2⟩
  · obtain ⟨tag, htag⟩ := Option.isSome_iff_exists.mp hsome
    exact (hfull key tag htag).1
  · apply (hselects key).mpr
    exact selects_fullFile hbound hlt

end AuditedFile.Current

/-! ## One change -/

namespace Change

theorem mem_stale {c : Change} {n : Nat} (hn : n < 2 ^ 64) {i : SizeT} :
    i ∈ c.stale n ↔ (1 ≤ i.toNat ∧ i.toNat ≤ n) ∧ c.touches i = true := by
  simp only [stale, List.mem_filter, List.mem_map, List.mem_range]
  refine and_congr_left fun _ => ⟨?_, fun hi => ?_⟩
  · rintro ⟨k, hk, rfl⟩
    rw [toNat_ofNat_lt (by omega)]
    omega
  · refine ⟨i.toNat - 1, by omega, ?_⟩
    rw [Nat.sub_add_cancel hi.1, UInt64.ofNat_toNat]

theorem nodup_stale (c : Change) {n : Nat} (hn : n < 2 ^ 64) : (c.stale n).Nodup := by
  apply List.Nodup.filter
  refine List.nodup_range.map_on fun j hj k hk he => ?_
  rw [List.mem_range] at hj hk
  have hvalue := congrArg UInt64.toNat he
  rw [toNat_ofNat_lt (by omega), toNat_ofNat_lt (by omega)] at hvalue
  omega

end Change

namespace AuditedFile

variable {s : AuditedFile G1 κ}

theorem getElem?_keptTags (s : AuditedFile G1 κ) (key : SizeT) :
    s.keptTags[key]? = if key.toNat < s.blocks.length then s.tags[key]? else none := by
  rw [keptTags, ExtTreeMap.getElem?_filter']
  split_ifs with hlt
  · cases s.tags[key]? <;> simp [hlt]
  · simp [hlt]

/-- Every block that is not stale has its tag. -/
def CurrentExcept (lib : CoreLib G1 G2 GT) (fileId : Bytes)
    (publicParams : DHTDynamicPublicParams G1 G2) (privateParams : DHTDynamicPrivateParams)
    (s : AuditedFile G1 κ) (stale : List SizeT) : Prop :=
  ∀ key : SizeT, key.toNat < s.blocks.length → key + 1 ∉ stale →
    ∃ tag, s.tags[key]? = some tag ∧ World.TaggedAt lib privateParams.a publicParams.u fileId
      (fullFile s.blocks) s.store key tag

/-- The tags of the stale blocks, over the others, make the container current. -/
theorem current_of_fresh (ht : lib.TotalPoints) (hfile : fileId ≠ []) (hw : s.store.WellFormed)
    (h : s.store.HoldsVersioned fileId s.blocks.length) {stale : List SizeT}
    (hothers : s.CurrentExcept lib fileId publicParams privateParams stale)
    (fresh : InMemoryTags G1) {tags : InMemoryTags G1}
    (hstale : ∀ key : SizeT, key.toNat < s.blocks.length →
      ((fresh[key]?).isSome ↔ key + 1 ∈ stale))
    (hfresh : ∀ (key : SizeT) tag, fresh[key]? = some tag → key.toNat < s.blocks.length ∧
      World.TaggedAt lib privateParams.a publicParams.u fileId (fullFile s.blocks) s.store key tag)
    (htags : ∀ key : SizeT, tags[key]? = (fresh[key]?).or s.keptTags[key]?) :
    (⟨s.store, tags, s.blocks⟩ : AuditedFile G1 κ).Current lib fileId publicParams
      privateParams := by
  have hkept : ∀ key, fresh[key]? = none → key.toNat < s.blocks.length → ∃ tag,
      s.tags[key]? = some tag ∧ World.TaggedAt lib privateParams.a publicParams.u fileId
        (fullFile s.blocks) s.store key tag := by
    intro key hnone hlt
    apply hothers key hlt
    rw [← hstale key hlt, hnone]
    exact Bool.false_ne_true
  refine ⟨hw, h, World.generateTags_eq_of_tagged ht hw hfile h (fun key => ?_)
    fun key tag htag => ?_⟩
  · rw [htags, getElem?_keptTags]
    cases hkey : fresh[key]? with
    | some tag => exact iff_of_true rfl (hfresh key tag hkey).1
    | none =>
      split_ifs with hlt
      · obtain ⟨tag, htag, _⟩ := hkept key hkey hlt
        rw [htag]
        exact iff_of_true rfl hlt
      · exact iff_of_false Bool.false_ne_true hlt
  · rw [htags, getElem?_keptTags] at htag
    cases hkey : fresh[key]? with
    | some other =>
      rw [hkey] at htag
      obtain rfl := Option.some.inj htag
      exact (hfresh key _ hkey).2
    | none =>
      rw [hkey, Option.none_or] at htag
      split_ifs at htag with hlt
      obtain ⟨tag', htag', hat⟩ := hkept key hkey hlt
      obtain rfl := Option.some.inj (htag'.symm.trans htag)
      exact hat

/-- New tags for distinct blocks, where every other block has its tag, make the container
current. -/
theorem CurrentExcept.retag {stale : List SizeT}
    (hothers : s.CurrentExcept lib fileId publicParams privateParams stale) (ht : lib.TotalPoints)
    (hfile : fileId ≠ []) (hw : s.store.WellFormed)
    (h : s.store.HoldsVersioned fileId s.blocks.length) (hnodup : stale.Nodup)
    (hinside : ∀ i ∈ stale, 1 ≤ i.toNat ∧ i.toNat ≤ s.blocks.length) :
    ∃ s', s.retag lib fileId publicParams privateParams stale = some s' ∧
      s'.Current lib fileId publicParams privateParams ∧ s'.blocks = s.blocks := by
  have hbound := h.bounded
  unfold AuditedFile.retag
  split_ifs with hstale
  · subst hstale
    have hempty : ∀ key : SizeT, (∅ : InMemoryTags G1)[key]? = none :=
      fun key => ExtTreeMap.getElem?_empty
    refine ⟨_, rfl, current_of_fresh ht hfile hw h hothers ∅ (fun key _ => ?_)
      (fun key tag htag => ?_) (fun key => ?_), rfl⟩
    · rw [hempty]
      exact iff_of_false Bool.false_ne_true List.not_mem_nil
    · cases (hempty key).symm.trans htag
    · rw [hempty, Option.none_or]
  · have haccepted : SelectorAccepted (fullFile s.blocks) (some stale) := by
      have hfits : SelectorFits 0 (UInt64.ofNat s.blocks.length) stale := by
        refine ⟨fun i hi => ?_, hnodup⟩
        have hi := hinside i hi
        have hzero : (0 : SizeT).toNat = 0 := rfl
        rw [InWindow, toNat_ofNat_lt hbound]
        omega
      rcases resolveTargetBlockIndices_cases hstale 0 (UInt64.ofNat s.blocks.length) with
        ⟨_, hok⟩ | ⟨hunfit, _⟩
      · exact ⟨_, hok⟩
      · exact absurd hfits hunfit
    obtain ⟨fresh, hrun, hselects, hfresh⟩ := h.holdsFile.generateTags ht hw hfile hbound
      publicParams privateParams (fullFile_isWindow hbound) haccepted
    rw [hrun]
    refine ⟨_, rfl, current_of_fresh ht hfile hw h hothers _ (fun key _ => ?_) hfresh
      fun key => ?_, rfl⟩
    · rw [hselects]
      obtain ⟨first, rest, rfl⟩ := List.exists_cons_of_ne_nil hstale
      exact Iff.rfl
    · rw [mergeAll, getElem?_setAll_toList, mergeAll, getElem?_setAll_toList, mergeAll,
        ExtTreeMap.getElem?_empty, Option.or_none]

variable [MetadataClass κ]

/-- A change in range is served, and its new tags make the container current again. -/
theorem Current.change (h : s.Current lib fileId publicParams privateParams)
    (ht : lib.TotalPoints) (hfile : fileId ≠ []) {c : Change}
    (hrange : c.InRange s.blocks.length) :
    ∃ s', s.change lib fileId publicParams privateParams c = some s' ∧
      s'.Current lib fileId publicParams privateParams ∧ s'.blocks = c.applyTo s.blocks := by
  obtain ⟨w, hmaintenance, hleaves⟩ :=
    h.versioned.maintenance h.wellFormed hfile rfl hrange
  have hw : w.WellFormed := by
    have hafter := h.wellFormed.maintenance ⟨.typed (c.maintainExt fileId)⟩
    rwa [hmaintenance] at hafter
  have hbound := hleaves.bounded
  have hothers : (⟨w, s.tags, c.applyTo s.blocks⟩ : AuditedFile G1 κ).CurrentExcept lib fileId
      publicParams privateParams (c.stale (c.applyTo s.blocks).length) := by
    intro key hlt hstale
    simp only at hlt
    have hkey : (key + 1).toNat = key.toNat + 1 := toNat_succ (by omega)
    have hz : key + 1 ≠ 0 := one_le_toNat_iff.mp (by omega)
    have huntouched : c.touches (key + 1) = false := by
      apply Bool.eq_false_iff.mpr
      intro htouched
      apply hstale
      exact (Change.mem_stale hbound).mpr ⟨by omega, htouched⟩
    have hblock := Change.getElem?_applyTo s.blocks hz huntouched
    have hold : key.toNat < s.blocks.length := by
      rw [List.getElem?_eq_getElem hlt] at hblock
      exact (List.getElem?_eq_some_iff.mp hblock.symm).1
    obtain ⟨hkeys, htags⟩ := h.tagged ht hfile key
    obtain ⟨tag, htag⟩ := Option.isSome_iff_exists.mp (hkeys.mpr hold)
    obtain ⟨metadata, block, sigma, hm, hread, hsigma, htag'⟩ := htags tag htag
    refine ⟨tag, htag, metadata, block, sigma, ?_, ?_, hsigma, htag'⟩
    · rw [hleaves.kept key hz huntouched]
      exact hm
    · rw [fullFile_block] at hread ⊢
      rw [← hread]
      have hlocal : key - (fullFile (c.applyTo s.blocks)).globalBlockStartIndex = key :=
        sub_zero key
      have hlocal' : key - (fullFile s.blocks).globalBlockStartIndex = key := sub_zero key
      rw [hlocal, hlocal']
      exact hblock
  simp only [AuditedFile.change, hmaintenance]
  apply hothers.retag ht hfile hw hleaves.toHoldsVersioned (c.nodup_stale hbound)
  intro i hi
  exact ((Change.mem_stale hbound).mp hi).1

/-- The contents after one change after another. -/
def contentsAfter (blocks : List Bytes) (cs : List Change) : List Bytes :=
  cs.foldl (fun blocks c => c.applyTo blocks) blocks

/-- Every change is in range of the file it finds. -/
def ChangesInRange (blocks : List Bytes) : List Change → Prop
  | [] => True
  | c :: cs => c.InRange blocks.length ∧ ChangesInRange (c.applyTo blocks) cs

/-- A run of changes in range keeps the container current. -/
theorem Current.changes (h : s.Current lib fileId publicParams privateParams)
    (ht : lib.TotalPoints) (hfile : fileId ≠ []) {cs : List Change}
    (hrange : ChangesInRange s.blocks cs) :
    ∃ s', s.changes lib fileId publicParams privateParams cs = some s' ∧
      s'.Current lib fileId publicParams privateParams ∧
      s'.blocks = contentsAfter s.blocks cs := by
  induction cs generalizing s with
  | nil => exact ⟨s, rfl, h, rfl⟩
  | cons c cs ih =>
    obtain ⟨hc, hcs⟩ := hrange
    obtain ⟨s₁, hchange, hcurrent, hblocks⟩ := h.change ht hfile hc
    obtain ⟨s₂, hrest, hlast, hafter⟩ := ih hcurrent (hblocks ▸ hcs)
    refine ⟨s₂, ?_, hlast, ?_⟩
    · rw [AuditedFile.changes, hchange, Option.bind_some, hrest]
    · rw [hafter, hblocks]
      rfl

end AuditedFile

/-! ## Registration -/

namespace World

variable {w : World κ}

end World

/-! ## Audits of a current file -/

/-- The metadata of a versioned record. -/
def BlockMetadata.record : BlockMetadata κ → VersionedBlockMetadata
  | .versioned m => m
  | .custom _ => ⟨0, 0⟩

/-- Lawful point operators return no null. -/
theorem CoreLib.Lawful.totalPoints [AddCommGroup G1] [AddCommGroup G2] [CommGroup GT] {n : Nat}
    {e : G1 →+ G2 →+ Additive GT} (h : lib.Lawful n e) : lib.TotalPoints :=
  ⟨fun P Q => by rw [h.g1Add, Option.isSome_some], fun P k => by rw [h.g1Mul, Option.isSome_some]⟩

namespace AuditedFile.Current

variable [AddCommGroup G1] [AddCommGroup G2] [CommGroup GT] {n : Nat}
  {e : G1 →+ G2 →+ Additive GT} {s : AuditedFile G1 κ}

/-- A current file shows blocks that all stand at the index they were tagged under. -/
theorem shows (h : s.Current lib fileId publicParams privateParams) (hlib : lib.Lawful n e)
    (hfile : fileId ≠ []) : ∃ l : List TaggedBlock, l.length = s.blocks.length ∧
      s.Shows lib privateParams.a publicParams.u fileId l ∧ AllCurrent l := by
  obtain ⟨objects, hholds, hcount, hversioned⟩ := h.versioned.objects
  let block (k : Nat) : TaggedBlock := ⟨(s.blocks[k]?).getD [],
    (s.store.heap ((objects[k]?).getD 0)).record, UInt64.ofNat (k + 1)⟩
  have hlength : ((List.range s.blocks.length).map block).length = s.blocks.length := by
    rw [List.length_map, List.length_range]
  have hat : ∀ k, k < s.blocks.length →
      ((List.range s.blocks.length).map block)[k]? = some (block k) := by
    intro k hk
    rw [List.getElem?_map, List.getElem?_range hk, Option.map_some]
  have hend : ∀ k, ¬ k < s.blocks.length →
      ((List.range s.blocks.length).map block)[k]? = none := by
    intro k hk
    exact List.getElem?_eq_none (hlength.trans_le (Nat.not_lt.mp hk))
  have hrecord : ∀ k, k < s.blocks.length → ∃ r, objects[k]? = some r ∧
      s.store.heap r = .versioned (block k).metadata := by
    intro k hk
    rw [← hcount] at hk
    obtain ⟨m, hm⟩ := hversioned objects[k] (List.getElem_mem hk)
    refine ⟨objects[k], List.getElem?_eq_getElem hk, ?_⟩
    simp only [block, List.getElem?_eq_getElem hk, Option.getD_some, hm, BlockMetadata.record]
  refine ⟨_, hlength, ⟨⟨objects, hholds, ?_⟩, ⟨?_, fun key => ?_⟩, ?_⟩, fun k b hb => ?_⟩
  · apply List.ext_getElem?
    intro k
    rw [List.getElem?_map, List.getElem?_map]
    by_cases hk : k < s.blocks.length
    · obtain ⟨r, hr, hm⟩ := hrecord k hk
      rw [hr, hat k hk, Option.map_some, Option.map_some, hm]
    · rw [hend k hk, List.getElem?_eq_none (by omega)]
      rfl
  · rw [List.length_map, hlength]
    exact h.versioned.bounded
  · obtain ⟨hkeys, htags⟩ := h.tagged hlib.totalPoints hfile key
    rw [List.getElem?_map]
    by_cases hk : key.toNat < s.blocks.length
    · obtain ⟨tag, htag⟩ := Option.isSome_iff_exists.mp (hkeys.mpr hk)
      obtain ⟨metadata, content, sigma, hm, hread, hsigma, rfl⟩ := htags tag htag
      obtain ⟨r, hr, hheap⟩ := hrecord key.toNat hk
      -- the record and the content behind the tag are those of the block
      obtain ⟨r', hr', hheap'⟩ := World.metadataAt_eq_some.mp hm
      rw [hholds.entry, hr] at hr'
      obtain rfl := Option.some.inj hr'
      obtain rfl := BlockMetadata.versioned.inj (hheap.symm.trans hheap')
      have hcontent : (block key.toNat).content = content := by
        have hlocal : key - (fullFile s.blocks).globalBlockStartIndex = key := sub_zero key
        rw [fullFile_block, hlocal] at hread
        simp only [block, hread, Option.getD_some]
      have hindex : (block key.toNat).index = key + 1 := by
        rw [← UInt64.toNat_inj, toNat_succ (by have := h.versioned.bounded; omega),
          toNat_ofNat_lt (by have := h.versioned.bounded; omega)]
      rw [hlib.computeTag] at hsigma
      obtain rfl := Except.ok.inj hsigma
      rw [htag, hat _ hk, Option.map_some, TaggedBlock.sigma, hcontent, hindex]
    · rw [hend _ hk]
      apply Option.not_isSome_iff_eq_none.mp
      exact fun hsome => hk (hkeys.mp hsome)
  · apply List.ext_getElem?
    intro k
    rw [List.getElem?_map]
    by_cases hk : k < s.blocks.length
    · rw [hat k hk, Option.map_some, List.getElem?_eq_getElem hk]
      simp only [block, List.getElem?_eq_getElem hk, Option.getD_some]
    · rw [hend k hk, List.getElem?_eq_none (Nat.not_lt.mp hk)]
      rfl
  · have hk : k < s.blocks.length := hlength ▸ (List.getElem?_eq_some_iff.mp hb).1
    rw [hat k hk] at hb
    obtain rfl := Option.some.inj hb
    rfl

/-- A current file passes every challenge unless it is empty or a tag is at infinity. -/
theorem passesAll (h : s.Current lib fileId publicParams privateParams) (hlib : lib.Lawful n e)
    (hfile : fileId ≠ []) (hy : publicParams.y = privateParams.a.value • publicParams.g)
    (hpk : publicParams.pk ≠ 0) (hblocks : s.blocks ≠ [])
    (htags : ∀ key : SizeT, s.tags[key]? ≠ some (.dhtDynamic 0)) :
    s.PassesAll lib fileId publicParams := by
  obtain ⟨l, hlength, hshows, hcurrent⟩ := h.shows hlib hfile
  refine hshows.passesAll hlib hy hpk ⟨?_, fun k b hb => ⟨fun hzero => ?_, ?_⟩⟩
  · rw [← List.length_pos_iff, hlength]
    exact List.length_pos_iff.mpr hblocks
  · have hk : k < l.length := (List.getElem?_eq_some_iff.mp hb).1
    apply htags (UInt64.ofNat k)
    rw [hshows.tag, toNat_ofNat_lt (Nat.lt_trans hk hshows.bounded), hb, Option.map_some, hzero]
  · rw [hcurrent k b hb]

end AuditedFile.Current

variable [MetadataClass κ] [AddCommGroup G1] [AddCommGroup G2] [CommGroup GT] {n : Nat}
  {e : G1 →+ G2 →+ Additive GT}

end DHTDynamic
