import DHTDynamicAudit.Store.BatchInsert
import DHTDynamicAudit.Strategy.Requests

/-!
# What a change of a file touches

The owner of a file edits its blocks and sends one maintenance request for the
edit. An Update touches the blocks it names; an Insert or a Delete touches its
first index and everything behind it. What is not touched keeps its place, its
content and its metadata.
-/

namespace DHTDynamic

open Core

variable {κ : Type}

/-! ## Changes -/

/-- The blocks of a change, each with its 1-based index, in the order of the request. -/
abbrev IndexedBlocks := { entries : List (SizeT × Bytes) // entries.length < 2 ^ 64 }

/-- An edit of the contents that one maintenance request can follow. -/
inductive Change where
  | update (entries : IndexedBlocks)
  | insert (entries : IndexedBlocks)
  | delete (blockIndices : SizeTVector)

namespace Change

/-- The indices of its request. -/
def blockIndices : Change → SizeTVector
  | update entries | insert entries => ⟨entries.val.map Prod.fst, by
      rw [List.length_map]
      exact entries.property⟩
  | delete blockIndices => blockIndices

/-- The operation of its request. -/
def op : Change → Operation
  | update _ => .update
  | insert _ => .insert
  | delete _ => .delete

/-- The maintenance request of a change. -/
def maintainExt (fileId : Bytes) (c : Change) : DHTDynamicMaintainExt where
  fileId := fileId
  opType := c.op.enumerator
  blockIndices := c.blockIndices.val
  stateStore := true
  sized := c.blockIndices.property

/-- The 0-based places its indices name. -/
def places (c : Change) : List Nat :=
  World.places c.blockIndices.val

/-- The contents after the change. -/
def applyTo (blocks : List Bytes) : Change → List Bytes
  | update entries => entries.val.foldl (fun l entry => l.set (entry.1 - 1).toNat entry.2) blocks
  | insert entries =>
    insertEach blocks (entries.val.map fun entry => ((entry.1 - 1).toNat, entry.2))
  | delete blockIndices => (World.places blockIndices.val).foldl List.eraseIdx blocks

/-- There is an index; each index of an Update names a block, each index of an Insert a block or
the end of the file at its time, which stays countable, and each index of a Delete, read back
through the removals before it, a block. -/
def InRange (n : Nat) (c : Change) : Prop :=
  c.blockIndices.val ≠ [] ∧
    match c with
    | update _ => ∀ i ∈ c.blockIndices.val, 1 ≤ i.toNat ∧ i.toNat ≤ n
    | insert _ => (∀ i ∈ c.blockIndices.val, i ≠ 0) ∧ InsertsWithin n c.places ∧
        n + c.blockIndices.val.length < 2 ^ 64
    | delete _ => ∀ place ∈ origins c.places, place < n

/-- The block at this index of the changed file is not the block that was there. -/
def touches (c : Change) (blockIndex : SizeT) : Bool :=
  match c with
  | update _ => c.blockIndices.val.contains blockIndex
  | insert _ | delete _ => c.blockIndices.val.any (· ≤ blockIndex)

/-- An index that an Insert or a Delete does not touch lies below all of its places. -/
theorem lt_of_not_any {blockIndices : List SizeT} {key : SizeT} (hkey : key + 1 ≠ 0)
    (h : blockIndices.any (· ≤ key + 1) = false) :
    ∀ place ∈ World.places blockIndices, key.toNat < place := by
  intro place hplace
  obtain ⟨i, hi, rfl⟩ := List.mem_map.mp hplace
  have hnot := List.any_eq_false.mp h i hi
  rw [decide_eq_true_eq, UInt64.not_le, UInt64.lt_iff_toNat_lt, toNat_succ_of_ne_zero hkey] at hnot
  rw [toNat_pred (one_le_toNat_iff.mp (by omega))]
  omega

/-! ## The contents -/

variable {blocks : List Bytes}

/-- A loop of assignments keeps the length, and what it does not assign. -/
theorem foldl_set (entries : List (SizeT × Bytes)) (blocks : List Bytes) :
    (entries.foldl (fun l entry => l.set (entry.1 - 1).toNat entry.2) blocks).length =
        blocks.length ∧
      ∀ key : SizeT, key + 1 ∉ entries.map Prod.fst →
        (entries.foldl (fun l entry => l.set (entry.1 - 1).toNat entry.2) blocks)[key.toNat]? =
          blocks[key.toNat]? := by
  induction entries generalizing blocks with
  | nil => exact ⟨rfl, fun _ _ => rfl⟩
  | cons entry entries ih =>
    obtain ⟨hlength, hkept⟩ := ih (blocks.set (entry.1 - 1).toNat entry.2)
    refine ⟨hlength.trans List.length_set, fun key hkey => ?_⟩
    rw [List.map_cons, List.mem_cons, not_or] at hkey
    rw [List.foldl_cons, hkept key hkey.2, List.getElem?_set_ne]
    intro hplace
    apply hkey.1
    rw [← UInt64.toNat_inj.mp hplace, sub_add_cancel]

/-- The length of the changed file does not depend on the contents. -/
theorem length_applyTo_insert {entries : IndexedBlocks}
    (hwithin : InsertsWithin blocks.length (insert entries).places) :
    (applyTo blocks (insert entries)).length = blocks.length + entries.val.length := by
  have hplaces : ((entries.val.map fun entry => ((entry.1 - 1).toNat, entry.2)).map Prod.fst) =
      (insert entries).places := by
    rw [List.map_map, places, World.places, blockIndices, List.map_map]
    rfl
  rw [applyTo, length_insertEach (hplaces ▸ hwithin), List.length_map]

/-- A block that is not touched stays where it is. -/
theorem getElem?_applyTo {c : Change} (blocks : List Bytes) {key : SizeT} (hkey : key + 1 ≠ 0)
    (h : c.touches (key + 1) = false) :
    (c.applyTo blocks)[key.toNat]? = blocks[key.toNat]? := by
  cases c with
  | update entries =>
    apply (foldl_set entries.val blocks).2
    simpa [touches, blockIndices] using h
  | insert entries =>
    apply getElem?_insertEach_of_lt
    intro place hplace
    apply lt_of_not_any hkey h
    rw [List.map_map] at hplace
    rw [World.places, blockIndices, List.map_map]
    exact hplace
  | delete indices =>
    have hbelow : ∀ place ∈ World.places indices.val, key.toNat < place := lt_of_not_any hkey h
    rw [applyTo, getElem?_foldl_eraseIdx, restoreAll_of_lt hbelow]

end Change

/-! ## The store -/

/-- The file has so many blocks, each with metadata of the versioned class, which is also the
class of new ones. -/
structure World.HoldsVersioned (w : World κ) (fileId : Bytes) (count : Nat) : Prop where
  factory : ∀ second, ∃ m, w.metadataFactory_ second = .versioned m
  objects : ∃ objects, w.Holds fileId objects ∧ objects.length = count ∧
    ∀ r ∈ objects, ∃ m, w.heap r = .versioned m

namespace World.HoldsVersioned

variable {w : World κ} {fileId : Bytes} {count : Nat}

theorem bounded (h : w.HoldsVersioned fileId count) : count < 2 ^ 64 := by
  obtain ⟨objects, hholds, rfl, _⟩ := h.objects
  exact hholds.bounded

theorem hasFile (h : w.HoldsVersioned fileId count) : w.hasFile fileId = true := by
  obtain ⟨objects, hholds, _⟩ := h.objects
  exact hholds.hasFile

theorem getBlockCount (h : w.HoldsVersioned fileId count) :
    w.getBlockCount fileId = .ok (UInt64.ofNat count) := by
  obtain ⟨objects, hholds, rfl, _⟩ := h.objects
  exact hholds.getBlockCount

theorem metadataAt (h : w.HoldsVersioned fileId count) {key : SizeT} (hkey : key.toNat < count) :
    ∃ m, w.metadataAt fileId key = some (.versioned m) := by
  obtain ⟨objects, hholds, rfl, hversioned⟩ := h.objects
  obtain ⟨m, hm⟩ := hversioned objects[key.toNat] (List.getElem_mem hkey)
  refine ⟨m, metadataAt_eq_some.mpr ⟨objects[key.toNat], ?_, hm⟩⟩
  rw [hholds.entry, List.getElem?_eq_getElem hkey]

theorem now (h : w.HoldsVersioned fileId count) : w.now.2.HoldsVersioned fileId count :=
  ⟨h.factory, h.objects⟩

end World.HoldsVersioned

namespace World

open Change

variable [MetadataClass κ] {w t : World κ} {fileId : Bytes} {count : Nat}
  {blockIndices : List SizeT}

/-- What a loop leaves: versioned blocks, so many of them, and the metadata of every block that is
not touched. -/
structure Leaves (w : World κ) (fileId : Bytes) (touched : SizeT → Bool) (t : World κ)
    (count : Nat) : Prop extends t.HoldsVersioned fileId count where
  kept : ∀ key : SizeT, key + 1 ≠ 0 → touched (key + 1) = false →
    t.metadataAt fileId key = w.metadataAt fileId key

omit [MetadataClass κ] in
/-- Reading the clock touches nothing. -/
theorem Leaves.of_now {touched : SizeT → Bool} (h : w.now.2.Leaves fileId touched t count) :
    w.Leaves fileId touched t count :=
  ⟨h.toHoldsVersioned, h.kept⟩

/-- An object that no index names keeps its metadata. -/
theorem updateLoop_heap_of_not_named {r : Ref}
    (hnot : ∀ i ∈ blockIndices, w.entry fileId (i - 1) ≠ some r) :
    (forEach (updateOne fileId) w blockIndices).2.heap r = w.heap r := by
  induction blockIndices generalizing w with
  | nil => rfl
  | cons i is ih =>
    obtain ⟨hi, his⟩ := List.forall_mem_cons.mp hnot
    by_cases hup : w.Updatable fileId i
    · obtain ⟨q, m, hq, hm⟩ := hup
      have hrest := ih (w := w.bumpObject q) his
      rw [forEach_cons_ok (updateOne_ok hq hm), hrest, heap_bumpObject, Function.update_of_ne]
      rintro rfl
      exact hi hq
    · obtain ⟨e, he⟩ := updateOne_error hup
      rw [forEach_cons_error he]

theorem HoldsVersioned.updateLoop (h : w.HoldsVersioned fileId count) (hw : w.WellFormed)
    (hrange : ∀ i ∈ blockIndices, 1 ≤ i.toNat ∧ i.toNat ≤ count) :
    (forEach (updateOne fileId) w blockIndices).1 = .ok () ∧
      w.Leaves fileId blockIndices.contains (forEach (updateOne fileId) w blockIndices).2
        count := by
  obtain ⟨objects, hholds, rfl, hversioned⟩ := h.objects
  have hok : (forEach (updateOne fileId) w blockIndices).1 = .ok () := by
    apply updateLoop_ok_iff.mpr
    intro i hi
    obtain ⟨r, hr, hentry⟩ := hholds.entry_eq_some (hrange i hi)
    obtain ⟨m, hm⟩ := hversioned r (List.mem_of_getElem? hr)
    exact ⟨r, m, hentry, hm⟩
  refine ⟨hok, ?_⟩
  have hupdated := updateLoop_updated (Prod.ext hok rfl)
  have hentries : ∀ key, (forEach (updateOne fileId) w blockIndices).2.entry fileId key =
      w.entry fileId key := by
    intro key
    rw [World.entry, hupdated.files, World.entry]
  refine ⟨⟨?_, objects, hholds.of_files_eq (by rw [hupdated.files]), rfl, fun r hr => ?_⟩,
    fun key hkey htouched => ?_⟩
  · rw [hupdated.factory]
    exact h.factory
  · obtain ⟨m, hm⟩ := hversioned r hr
    obtain ⟨second, hs⟩ := hupdated.versioned r m hm
    exact ⟨_, hs⟩
  · rw [World.metadataAt, World.metadataAt, hentries]
    cases hr : w.entry fileId key with
    | none => rfl
    | some r =>
      rw [Option.map_some, Option.map_some, updateLoop_heap_of_not_named]
      -- no other index finds this object
      intro i hi hsame
      have hplace := (hw.unshared fileId fileId _ _ r hsame hr).2
      have hmem : key + 1 ∈ blockIndices := by
        rw [← hplace, sub_add_cancel]
        exact hi
      rw [List.contains_iff_mem.mpr hmem] at htouched
      cases htouched

omit [MetadataClass κ] in
/-- Insertions do not replace the factory. -/
theorem insertLoop_factory : (forEach (fun w i => w.insertBlock fileId i) w
    blockIndices).2.metadataFactory_ = w.metadataFactory_ := by
  refine forEach_preserves (P := fun t : World κ => t.metadataFactory_ = w.metadataFactory_)
    (fun t i _ ht => ?_) rfl
  rw [← ht, insertBlock]
  cases t.files_[fileId]? <;> rfl

omit [MetadataClass κ] in
/-- The fresh objects are the next to be allocated. -/
theorem mem_freshEntries {r : Ref} (h : r ∈ (w.freshEntries blockIndices).map Prod.snd) :
    ∃ j, j < blockIndices.length ∧ w.nextRef + j = r := by
  have hlength : (List.range' w.nextRef blockIndices.length).length ≤
      (places blockIndices).length := by
    rw [List.length_range', places, List.length_map]
  rw [freshEntries, List.map_snd_zip hlength, List.mem_range'_1] at h
  exact ⟨r - w.nextRef, Nat.sub_lt_left_of_lt_add h.1 h.2, Nat.add_sub_cancel' h.1⟩

omit [MetadataClass κ] in
theorem HoldsVersioned.insertLoop (h : w.HoldsVersioned fileId count) (hw : w.WellFormed)
    (hpositive : ∀ i ∈ blockIndices, i ≠ 0) (hwithin : InsertsWithin count (places blockIndices))
    (hroom : count + blockIndices.length < 2 ^ 64) :
    (forEach (fun w i => w.insertBlock fileId i) w blockIndices).1 = .ok () ∧
      w.Leaves fileId (fun i => blockIndices.any (· ≤ i))
        (forEach (fun w i => w.insertBlock fileId i) w blockIndices).2
        (count + blockIndices.length) := by
  obtain ⟨objects, hholds, rfl, hversioned⟩ := h.objects
  refine ⟨(insertLoop_ok hholds.hasFile).1, ?_⟩
  have hinserted := insertLoop_inserted hholds hpositive hwithin hroom
  have hplaces := map_fst_freshEntries w blockIndices
  refine ⟨⟨?_, _, hinserted.holds, ?_, fun r hr => ?_⟩, fun key hkey htouched => ?_⟩
  · rw [insertLoop_factory]
    exact h.factory
  · rw [length_insertEach (hplaces ▸ hwithin), length_freshEntries]
  · rcases mem_insertEach hr with hold | hfresh
    · obtain ⟨key, hkey⟩ := hholds.mem_iff.mp hold
      rw [hinserted.old r (hw.allocated _ _ _ hkey)]
      exact hversioned r hold
    · obtain ⟨j, hj, rfl⟩ := mem_freshEntries hfresh
      rw [hinserted.fresh j hj]
      exact h.factory _
  · rw [World.metadataAt, World.metadataAt, hinserted.holds.entry, hholds.entry,
      getElem?_insertEach_of_lt (hplaces ▸ lt_of_not_any hkey htouched)]
    cases hr : objects[key.toNat]? with
    | none => rfl
    | some r =>
      have hentry : w.entry fileId key = some r := by rw [hholds.entry, hr]
      rw [Option.map_some, Option.map_some, hinserted.old r (hw.allocated _ _ _ hentry)]

omit [MetadataClass κ] in
theorem HoldsVersioned.deleteLoop (h : w.HoldsVersioned fileId count)
    (hrange : ∀ place ∈ origins (places blockIndices), place < count) :
    (forEach (fun w i => w.deleteBlock fileId i) w blockIndices).1 = .ok () ∧
      ∀ blocks : List Bytes, blocks.length = count →
        w.Leaves fileId (fun i => blockIndices.any (· ≤ i))
          (forEach (fun w i => w.deleteBlock fileId i) w blockIndices).2
          ((places blockIndices).foldl List.eraseIdx blocks).length := by
  obtain ⟨objects, hholds, rfl, hversioned⟩ := h.objects
  have hok : (forEach (fun w i => w.deleteBlock fileId i) w blockIndices).1 = .ok () := by
    apply deleteLoop_ok_iff.mpr
    intro place hplace
    rw [hholds.entryNat, List.getElem?_eq_getElem (hrange place hplace), Option.isSome_some]
  refine ⟨hok, fun blocks hlength => ?_⟩
  have hdeleted := deleteLoop_deleted (Prod.ext hok rfl)
  refine ⟨⟨?_, _, hholds.deleted hdeleted, length_foldl_eraseIdx_congr hlength.symm _,
    fun r hr => ?_⟩, fun key hkey htouched => ?_⟩
  · rw [hdeleted.factory]
    exact h.factory
  · obtain ⟨place, hplace⟩ := List.mem_iff_getElem?.mp hr
    rw [getElem?_foldl_eraseIdx] at hplace
    rw [hdeleted.heap]
    exact hversioned r (List.mem_of_getElem? hplace)
  · rw [World.metadataAt, World.metadataAt, (hholds.deleted hdeleted).entry, hholds.entry,
      getElem?_foldl_eraseIdx, restoreAll_of_lt (lt_of_not_any hkey htouched), hdeleted.heap]

/-- The request of a change in range is served, and leaves what the change does not touch. -/
theorem HoldsVersioned.maintenance (h : w.HoldsVersioned fileId count) (hw : w.WellFormed)
    (hfile : fileId ≠ []) {blocks : List Bytes} (hlength : blocks.length = count) {c : Change}
    (hrange : c.InRange count) :
    ∃ t, w.maintenance ⟨.typed (c.maintainExt fileId)⟩ = (.ok (), t) ∧
      w.Leaves fileId c.touches t (c.applyTo blocks).length := by
  subst hlength
  have hdispatch : w.Dispatches (c.maintainExt fileId) := ⟨hfile, rfl, h.hasFile⟩
  obtain ⟨hne, hindices⟩ := hrange
  rw [maintenance_eq_loop c.op hdispatch rfl hne]
  cases c with
  | update entries =>
    obtain ⟨hok, hleaves⟩ := h.now.updateLoop hw.now hindices
    refine ⟨_, Prod.ext hok rfl, ?_⟩
    rw [applyTo, (foldl_set entries.val blocks).1]
    exact hleaves.of_now
  | insert entries =>
    obtain ⟨hpositive, hwithin, hroom⟩ := hindices
    obtain ⟨hok, hleaves⟩ := h.now.insertLoop hw.now hpositive hwithin hroom
    refine ⟨_, Prod.ext hok rfl, ?_⟩
    have hentries : (insert entries).blockIndices.val.length = entries.val.length :=
      List.length_map _
    rw [length_applyTo_insert hwithin, ← hentries]
    exact hleaves.of_now
  | delete indices =>
    obtain ⟨hok, hleaves⟩ := h.now.deleteLoop hindices
    exact ⟨_, Prod.ext hok rfl, (hleaves blocks rfl).of_now⟩

end World

end DHTDynamic
