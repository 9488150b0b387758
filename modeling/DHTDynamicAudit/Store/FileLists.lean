import Mathlib.Data.List.Range
import Mathlib.Data.Stream.Init
import DHTDynamicAudit.Core.Run
import DHTDynamicAudit.Store.Objects

/-!
# The store as a list of records per file

`FileLists` is the purpose of the store: every file is a list of metadata
records, edited by position. `Represents` relates it to the sparse collections,
the heap and the in-place bumps of the store; each method keeps the relation and
gives the same reply, so whole runs do.
-/

namespace DHTDynamic

open Core
open Std (ExtTreeMap)

variable {κ : Type}

/-! ## Collections without gaps -/

/-- The file's collection holds exactly these objects, block `i` at place `i - 1`. -/
def World.Holds (w : World κ) (fileId : Bytes) (objects : List Ref) : Prop :=
  ∃ collection, w.files_[fileId]? = some collection ∧ Lists collection objects

namespace World.Holds

variable {w : World κ} {fileId other : Bytes} {objects : List Ref}

theorem entry (h : w.Holds fileId objects) (key : SizeT) :
    w.entry fileId key = objects[key.toNat]? := by
  obtain ⟨collection, hfile, hlists⟩ := h
  rw [entry_of_collection hfile, hlists.lookup]

theorem entry_pred (h : w.Holds fileId objects) {blockIndex : SizeT} (hi : blockIndex ≠ 0) :
    w.entry fileId (blockIndex - 1) = objects[blockIndex.toNat - 1]? := by
  rw [h.entry, toNat_pred hi]

theorem hasFile (h : w.Holds fileId objects) : w.hasFile fileId = true := by
  obtain ⟨collection, hfile, _⟩ := h
  exact hasFile_of_collection hfile

theorem bounded (h : w.Holds fileId objects) : objects.length < 2 ^ 64 := by
  obtain ⟨_, _, hlists⟩ := h
  exact hlists.bounded

theorem unique {objects' : List Ref} (h : w.Holds fileId objects)
    (h' : w.Holds fileId objects') : objects = objects' := by
  obtain ⟨collection, hfile, hlists⟩ := h
  obtain ⟨collection', hfile', hlists'⟩ := h'
  obtain rfl := Option.some.inj (hfile.symm.trans hfile')
  exact hlists.unique hlists'

/-- Index zero wraps past every block, and an index past the end finds nothing. -/
theorem entry_eq_none (h : w.Holds fileId objects) {blockIndex : SizeT}
    (hi : ¬(1 ≤ blockIndex.toNat ∧ blockIndex.toNat ≤ objects.length)) :
    w.entry fileId (blockIndex - 1) = none := by
  by_cases hz : blockIndex = 0
  · obtain ⟨collection, hfile, hlists⟩ := h
    rw [hz, entry_of_collection hfile]
    exact hlists.lookup_zero_pred
  · have h1 := one_le_toNat_iff.mpr hz
    rw [h.entry_pred hz, List.getElem?_eq_none]
    omega

/-- A valid index finds the object of its position. -/
theorem entry_eq_some (h : w.Holds fileId objects) {blockIndex : SizeT}
    (hi : 1 ≤ blockIndex.toNat ∧ blockIndex.toNat ≤ objects.length) :
    ∃ r, objects[blockIndex.toNat - 1]? = some r ∧
      w.entry fileId (blockIndex - 1) = some r := by
  have hz := one_le_toNat_iff.mp hi.1
  have hlt : blockIndex.toNat - 1 < objects.length := by omega
  refine ⟨objects[blockIndex.toNat - 1], List.getElem?_eq_getElem hlt, ?_⟩
  rw [h.entry_pred hz, List.getElem?_eq_getElem hlt]

/-- In a store without sharing the objects of a file are distinct. -/
theorem nodup (h : w.Holds fileId objects) (hw : w.WellFormed) : objects.Nodup := by
  rw [List.nodup_iff_injective_getElem]
  intro i j hij
  have hij' : objects[i.val] = objects[j.val] := hij
  have hb := h.bounded
  have hi := toNat_ofNat_lt (Nat.lt_trans i.isLt hb)
  have hj := toNat_ofNat_lt (Nat.lt_trans j.isLt hb)
  have hkey := (hw.unshared fileId fileId (UInt64.ofNat i) (UInt64.ofNat j) objects[i.val]
    (by rw [h.entry, hi]; exact List.getElem?_eq_getElem i.isLt)
    (by rw [h.entry, hj, hij']; exact List.getElem?_eq_getElem j.isLt)).2
  exact Fin.ext (by rw [← hi, ← hj, hkey])

theorem mem_iff (h : w.Holds fileId objects) {r : Ref} :
    r ∈ objects ↔ ∃ key, w.entry fileId key = some r := by
  rw [List.mem_iff_getElem?]
  constructor
  · rintro ⟨i, hi⟩
    have hlt : i < objects.length := (List.getElem?_eq_some_iff.mp hi).1
    exact ⟨UInt64.ofNat i, by rw [h.entry, toNat_ofNat_lt (Nat.lt_trans hlt h.bounded), hi]⟩
  · rintro ⟨key, hkey⟩
    exact ⟨key.toNat, by rw [← h.entry, hkey]⟩

theorem of_files_eq {w' : World κ} (h : w.Holds fileId objects)
    (he : w'.files_[fileId]? = w.files_[fileId]?) : w'.Holds fileId objects := by
  obtain ⟨collection, hfile, hlists⟩ := h
  exact ⟨collection, he.trans hfile, hlists⟩

theorem getBlockCount (h : w.Holds fileId objects) :
    w.getBlockCount fileId = .ok (UInt64.ofNat objects.length) := by
  obtain ⟨collection, hfile, hlists⟩ := h
  simp only [World.getBlockCount, hfile, hlists.size_eq]

/-- An in-range `insertBlock` inserts the next fresh object into the list. -/
theorem insertBlock (h : w.Holds fileId objects) {blockIndex : SizeT} (hz : blockIndex ≠ 0)
    (hle : blockIndex.toNat ≤ objects.length + 1) (hroom : objects.length + 1 < 2 ^ 64) :
    (w.insertBlock fileId blockIndex).2.Holds fileId
      (objects.insertIdx (blockIndex.toNat - 1) w.nextRef) := by
  obtain ⟨collection, hfile, hlists⟩ := h
  rw [insertBlock_ok hfile]
  refine ⟨insertAt collection (blockIndex - 1) w.nextRef, by simp, ?_⟩
  rw [← toNat_pred hz]
  exact lists_insertAt hlists (by rw [toNat_pred hz]; omega) hroom w.nextRef

/-- A valid `deleteBlock` succeeds and removes one object of the list. -/
theorem deleteBlock (h : w.Holds fileId objects) {blockIndex : SizeT}
    (hi : 1 ≤ blockIndex.toNat ∧ blockIndex.toNat ≤ objects.length) :
    (w.deleteBlock fileId blockIndex).1 = .ok () ∧
      (w.deleteBlock fileId blockIndex).2.Holds fileId
        (objects.eraseIdx (blockIndex.toNat - 1)) := by
  obtain ⟨r, _, hr⟩ := h.entry_eq_some hi
  obtain ⟨collection, hfile, hentry⟩ := exists_collection_of_entry hr
  obtain ⟨collection', hfile', hlists⟩ := h
  obtain rfl := Option.some.inj (hfile.symm.trans hfile')
  have hz := one_le_toNat_iff.mp hi.1
  rw [deleteBlock_ok hfile hentry]
  refine ⟨rfl, deleteAt collection (blockIndex - 1), by simp, ?_⟩
  rw [← toNat_pred hz]
  exact lists_deleteAt hlists

end World.Holds

/-! ## Filling a new file -/

namespace World

/-- What the loop of `addFile(fileId, blockCount)` leaves. -/
structure Filled (w : World κ) (objects : List Ref) (remaining : Nat)
    (result : Collection × World κ) : Prop where
  lists : Lists result.1 (objects ++ List.range' w.nextRef remaining)
  files : result.2.files_ = w.files_
  factory : result.2.metadataFactory_ = w.metadataFactory_
  nextRef : result.2.nextRef = w.nextRef + remaining
  clock : result.2.clock = w.clock.drop remaining
  old : ∀ r, r < w.nextRef → result.2.heap r = w.heap r
  fresh : (List.range' w.nextRef remaining).map result.2.heap =
    (w.clock.take remaining).map w.metadataFactory_

@[simp] theorem fillBlocks_zero (w : World κ) (collection : Collection) (i : SizeT) :
    w.fillBlocks collection i 0 = (collection, w) := rfl

@[simp] theorem fillBlocks_succ (w : World κ) (collection : Collection) (i : SizeT)
    (remaining : Nat) : w.fillBlocks collection i (remaining + 1) =
      w.createMetadata.2.fillBlocks (collection.insert i w.nextRef) (i + 1) remaining := rfl

/-- The loop allocates one object per pass, from consecutive clock readings. -/
theorem fillBlocks_filled (w : World κ) {collection : Collection} {objects : List Ref}
    (h : Lists collection objects) {i : SizeT} (hi : i.toNat = objects.length) {remaining : Nat}
    (hroom : objects.length + remaining < 2 ^ 64) :
    w.Filled objects remaining (w.fillBlocks collection i remaining) := by
  induction remaining generalizing w collection objects i with
  | zero =>
    refine ⟨?_, rfl, rfl, rfl, rfl, fun _ _ => rfl, rfl⟩
    rw [fillBlocks_zero, List.range'_zero, List.append_nil]
    exact h
  | succ remaining ih =>
    have hlength : (objects ++ [w.nextRef]).length = objects.length + 1 := by simp
    have hnext : (i + 1).toNat = (objects ++ [w.nextRef]).length := by
      rw [toNat_succ (by omega), hi, hlength]
    have hfill := ih w.createMetadata.2 (h.insert_append hi (by omega) w.nextRef) hnext
      (by omega)
    rw [fillBlocks_succ]
    have hfirst := hfill.old w.nextRef (Nat.lt_succ_self _)
    rw [heap_createMetadata, Function.update_self] at hfirst
    constructor
    · rw [List.range'_succ, List.append_cons]
      exact hfill.lists
    · exact hfill.files
    · exact hfill.factory
    · exact hfill.nextRef.trans (Nat.succ_add_eq_add_succ _ _)
    · exact hfill.clock
    · intro r hr
      rw [hfill.old r (Nat.lt_succ_of_lt hr), heap_createMetadata,
        Function.update_of_ne (Nat.ne_of_lt hr)]
    · rw [List.range'_succ, List.map_cons, Stream'.take_succ, List.map_cons]
      exact congrArg₂ List.cons hfirst hfill.fresh

theorem fillBlocks_empty_filled (w : World κ) (blockCount : SizeT) :
    w.Filled [] blockCount.toNat (w.fillBlocks ∅ 0 blockCount.toNat) :=
  w.fillBlocks_filled .empty rfl (by simpa using blockCount.toNat_lt)

/-- A new file holds its fresh objects in allocation order. -/
theorem holds_addFileWithBlocks {w : World κ} {fileId : Bytes} (h : w.files_[fileId]? = none)
    {blockCount : SizeT} (hz : blockCount ≠ 0) :
    (w.addFileWithBlocks fileId blockCount).2.Holds fileId
      (List.range' w.nextRef blockCount.toNat) := by
  simp only [addFileWithBlocks, h, if_neg hz]
  exact ⟨_, by simp, (w.fillBlocks_empty_filled blockCount).lists⟩

/-- Each new key holds the object allocated for it. -/
theorem WellFormed.addFileWithBlocks {w : World κ} (h : w.WellFormed) (fileId : Bytes)
    (blockCount : SizeT) : (w.addFileWithBlocks fileId blockCount).2.WellFormed := by
  unfold World.addFileWithBlocks
  cases w.files_[fileId]? with
  | some _ => exact h
  | none =>
    simp only
    split_ifs
    · exact h
    have hfill := w.fillBlocks_empty_filled blockCount
    refine h.putCollection _ (hfill.nextRef ▸ Nat.le_add_right _ _)
      (fun f k => by rw [entry, hfill.files]; rfl) _ id
      (fun r => UInt64.ofNat (r - w.nextRef)) fun k r hr => Or.inl ?_
    rw [hfill.lists.lookup, List.nil_append] at hr
    obtain ⟨hlt, hr⟩ := List.getElem?_eq_some_iff.mp hr
    rw [List.getElem_range', Nat.one_mul] at hr
    rw [List.length_range'] at hlt
    subst hr
    rw [hfill.nextRef, Nat.add_sub_cancel_left]
    exact ⟨Nat.le_add_right _ _, Nat.add_lt_add_left hlt _, UInt64.ofNat_toNat.symm⟩

end World

/-! ## The abstract store -/

/-- The abstract state: a list of records for every registered file. -/
structure FileLists (κ : Type) where
  files : Bytes → Option (List (BlockMetadata κ))
  metadataFactory : BlockMetadataFactory κ
  clock : Stream' UInt64

/-- The calls a client makes on the store. -/
inductive StoreCall where
  | addFile (fileId : Bytes)
  | addFileWithBlocks (fileId : Bytes) (blockCount : SizeT)
  | removeFile (fileId : Bytes)
  | getBlockMetadata (fileId : Bytes) (blockIndex : SizeT)
  | getBlockCount (fileId : Bytes)
  | modifyBlock (fileId : Bytes) (blockIndex : SizeT)
  | insertBlock (fileId : Bytes) (blockIndex : SizeT)
  | deleteBlock (fileId : Bytes) (blockIndex : SizeT)
  deriving DecidableEq, Repr

/-- What a normal return hands back; a metadata object is observed by its value. -/
inductive StoreReply (κ : Type) where
  | done
  | metadata (m : BlockMetadata κ)
  | count (n : SizeT)
  deriving DecidableEq, Repr

/-- One client call on the store. -/
def World.call [MetadataClass κ] (w : World κ) :
    StoreCall → Except Exception (StoreReply κ) × World κ
  | .addFile f => ((w.addFile f).1.map fun _ => .done, (w.addFile f).2)
  | .addFileWithBlocks f n =>
    ((w.addFileWithBlocks f n).1.map fun _ => .done, (w.addFileWithBlocks f n).2)
  | .removeFile f => ((w.removeFile f).1.map fun _ => .done, (w.removeFile f).2)
  | .getBlockMetadata f i => ((w.getBlockMetadata f i).map fun r => .metadata (w.heap r), w)
  | .getBlockCount f => ((w.getBlockCount f).map .count, w)
  | .modifyBlock f i => ((w.modifyBlock f i).1.map fun _ => .done, (w.modifyBlock f i).2)
  | .insertBlock f i => ((w.insertBlock f i).1.map fun _ => .done, (w.insertBlock f i).2)
  | .deleteBlock f i => ((w.deleteBlock f i).1.map fun _ => .done, (w.deleteBlock f i).2)

namespace FileLists

/-- No file. -/
def empty (factory : BlockMetadataFactory κ) (clock : Stream' UInt64) : FileLists κ :=
  ⟨fun _ => none, factory, clock⟩

/-- The file becomes this list; `readings` clock readings have been used. -/
def put (a : FileLists κ) (fileId : Bytes) (l : Option (List (BlockMetadata κ)))
    (readings : Nat) : FileLists κ :=
  { a with files := Function.update a.files fileId l, clock := a.clock.drop readings }

/-- The positions of a list, as the 1-based index of a call. -/
def Valid (l : List (BlockMetadata κ)) (blockIndex : SizeT) : Prop :=
  1 ≤ blockIndex.toNat ∧ blockIndex.toNat ≤ l.length

instance (l : List (BlockMetadata κ)) (i : SizeT) : Decidable (Valid l i) :=
  inferInstanceAs (Decidable (_ ∧ _))

/-- What each call is for. Every rejected call leaves the lists as they are. -/
def call [MetadataClass κ] (a : FileLists κ) :
    StoreCall → Except Exception (StoreReply κ) × FileLists κ
  | .addFile f =>
    match a.files f with
    | some _ => (.error (.fileExists f), a)
    | none => (.ok .done, a.put f (some []) 0)
  | .addFileWithBlocks f n =>
    match a.files f with
    | some _ => (.error (.fileExists f), a)
    | none =>
      if n = 0 then (.error .zeroBlockCount, a)
      else
        (.ok .done, a.put f (some ((a.clock.take n.toNat).map a.metadataFactory)) n.toNat)
  | .removeFile f =>
    match a.files f with
    | none => (.error (.fileMissing .removeFile f), a)
    | some _ => (.ok .done, a.put f none 0)
  | .getBlockMetadata f i =>
    match a.files f with
    | none => (.error (.fileMissing .getBlockMetadata f), a)
    | some l =>
      if h : Valid l i then
        (.ok (.metadata (l.get ⟨i.toNat - 1, by have := h.1; have := h.2; omega⟩)), a)
      else (.error (.blockNull .getBlockMetadata i f), a)
  | .getBlockCount f =>
    match a.files f with
    | none => (.error (.fileMissing .getBlockCount f), a)
    | some l => (.ok (.count (UInt64.ofNat l.length)), a)
  | .modifyBlock f i =>
    match a.files f with
    | none => (.error (.fileMissing .modifyBlock f), a)
    | some l =>
      if Valid l i then
        (.ok .done, a.put f (some (l.modify (i.toNat - 1) fun m => m.bump a.clock.head)) 1)
      else (.error (.blockNull .modifyBlock i f), a)
  | .insertBlock f i =>
    match a.files f with
    | none => (.error (.fileMissing .insertBlock f), a)
    | some l =>
      (.ok .done,
        a.put f (some (l.insertIdx (i.toNat - 1) (a.metadataFactory a.clock.head))) 1)
  | .deleteBlock f i =>
    match a.files f with
    | none => (.error (.fileMissing .deleteBlock f), a)
    | some l =>
      if Valid l i then (.ok .done, a.put f (some (l.eraseIdx (i.toNat - 1))) 0)
      else (.error (.blockNull .deleteBlock i f), a)

/-- The calls a client may make: `insertBlock` only at `1..n + 1`, in `size_t` arithmetic. -/
def Admits (a : FileLists κ) : StoreCall → Prop
  | .insertBlock f i => ∀ l ∈ a.files f, i ≠ 0 ∧ i ≤ UInt64.ofNat l.length + 1
  | _ => True

instance (a : FileLists κ) : ∀ c, Decidable (a.Admits c)
  | .insertBlock _ _ => inferInstanceAs (Decidable (∀ l ∈ _, _))
  | .addFile _ | .addFileWithBlocks _ _ | .removeFile _ | .getBlockMetadata _ _
  | .getBlockCount _ | .modifyBlock _ _ | .deleteBlock _ _ => isTrue trivial

end FileLists

/-! ## The relation -/

/-- The lists are what the collections hold, read through the heap. -/
structure Represents (w : World κ) (a : FileLists κ) : Prop where
  wellFormed : w.WellFormed
  factory : a.metadataFactory = w.metadataFactory_
  clock : a.clock = w.clock
  files : ∀ f, (w.files_[f]? = none ∧ a.files f = none) ∨
    ∃ objects, w.Holds f objects ∧ a.files f = some (objects.map w.heap)

namespace Represents

variable {w w' : World κ} {a : FileLists κ} {fileId : Bytes} {objects : List Ref}
  {collection : Collection}

theorem empty (factory : BlockMetadataFactory κ) (clock : Stream' UInt64) :
    Represents (World.empty factory clock) (FileLists.empty factory clock) :=
  ⟨.empty factory clock, rfl, rfl, fun f => Or.inl ⟨by simp [World.empty], rfl⟩⟩

/-- A file and its list are registered together. -/
theorem cases (h : Represents w a) (fileId : Bytes) :
    (w.files_[fileId]? = none ∧ a.files fileId = none) ∨
      ∃ objects collection, w.files_[fileId]? = some collection ∧
        Lists collection objects ∧ a.files fileId = some (objects.map w.heap) := by
  rcases h.files fileId with hnone | ⟨objects, ⟨collection, hfile, hlists⟩, ha⟩
  · exact Or.inl hnone
  · exact Or.inr ⟨objects, collection, hfile, hlists, ha⟩

/-- A step on one file keeps the relation when it leaves the other files and their objects
alone and brings this file's list and collection together. -/
theorem put (h : Represents w a) (hwf : w'.WellFormed)
    (hfactory : w'.metadataFactory_ = w.metadataFactory_) {readings : Nat}
    (hclock : w'.clock = w.clock.drop readings)
    (hother : ∀ g, g ≠ fileId → w'.files_[g]? = w.files_[g]?)
    (hheap : ∀ g k r, g ≠ fileId → w.entry g k = some r → w'.heap r = w.heap r)
    {l : Option (List (BlockMetadata κ))}
    (hfile : (w'.files_[fileId]? = none ∧ l = none) ∨
      ∃ objects, w'.Holds fileId objects ∧ l = some (objects.map w'.heap)) :
    Represents w' (a.put fileId l readings) := by
  refine ⟨hwf, h.factory.trans hfactory.symm, ?_, ?_⟩
  · rw [hclock, ← h.clock]
    rfl
  intro g
  by_cases hg : g = fileId
  · subst hg
    simpa [FileLists.put] using hfile
  · simp only [FileLists.put, Function.update_of_ne hg]
    rcases h.files g with ⟨hnone, ha⟩ | ⟨objects, hholds, ha⟩
    · exact Or.inl ⟨(hother g hg).trans hnone, ha⟩
    · refine Or.inr ⟨objects, hholds.of_files_eq (hother g hg), ?_⟩
      rw [ha]
      refine congrArg some (List.map_congr_left fun r hr => ?_)
      obtain ⟨k, hk⟩ := hholds.mem_iff.mp hr
      exact (hheap g k r hg hk).symm

/-- The bump of one object of a file changes one position of its list. -/
theorem map_heap_bumpObject [MetadataClass κ] (hnodup : objects.Nodup) {place : Nat} {r : Ref}
    (hr : objects[place]? = some r) : objects.map (w.bumpObject r).heap =
      (objects.map w.heap).modify place fun m => m.bump w.clock.head := by
  apply List.ext_getElem?
  intro j
  rw [List.getElem?_modify, List.getElem?_map, List.getElem?_map, World.heap_bumpObject]
  by_cases hj : place = j
  · subst hj
    simp [hr]
  · simp only [if_neg hj, Option.map_eq_map, Option.map_id']
    refine Option.map_congr fun r' hr' => Function.update_of_ne ?_ _ _
    rintro rfl
    have hlt := (List.getElem?_eq_some_iff.mp hr).1
    exact hj ((List.getElem?_inj hlt hnodup).mp (hr.trans hr'.symm))

/-- Objects allocated before a step keep their value when the step writes to fresh ones only. -/
theorem map_heap_of_old (h : w.WellFormed) (w' : World κ) (hholds : w.Holds fileId objects)
    (hold : ∀ r, r < w.nextRef → w'.heap r = w.heap r) :
    objects.map w'.heap = objects.map w.heap := by
  refine List.map_congr_left fun r hr => hold r ?_
  obtain ⟨k, hk⟩ := hholds.mem_iff.mp hr
  exact h.allocated fileId k r hk

/-- One call on both sides: the reply is the same, and the relation holds again. -/
def SameCall [MetadataClass κ] (w : World κ) (a : FileLists κ) (c : StoreCall) : Prop :=
  (w.call c).1 = (a.call c).1 ∧ Represents (w.call c).2 (a.call c).2

theorem addFile [MetadataClass κ] (h : Represents w a) (fileId : Bytes) :
    SameCall w a (.addFile fileId) := by
  have hwf := h.wellFormed.addFile fileId
  rcases h.cases fileId with ⟨hfile, ha⟩ | ⟨objects, collection, hfile, _, ha⟩
  · simp only [SameCall, World.call, FileLists.call, World.addFile, hfile, ha] at hwf ⊢
    refine ⟨rfl, h.put hwf rfl rfl (fun g hg => ?_) (fun _ _ _ _ _ => rfl) (Or.inr ⟨[], ?_, rfl⟩)⟩
    · rw [World.files_putCollection, if_neg (Ne.symm hg)]
    · exact ⟨∅, by simp, .empty⟩
  · simp only [SameCall, World.call, FileLists.call, World.addFile, hfile, ha]
    exact ⟨rfl, h⟩

theorem removeFile [MetadataClass κ] (h : Represents w a) (fileId : Bytes) :
    SameCall w a (.removeFile fileId) := by
  have hwf := h.wellFormed.removeFile fileId
  rcases h.cases fileId with ⟨hfile, ha⟩ | ⟨objects, collection, hfile, _, ha⟩
  · simp only [SameCall, World.call, FileLists.call, World.removeFile, hfile, ha]
    exact ⟨rfl, h⟩
  · simp only [SameCall, World.call, FileLists.call, World.removeFile, hfile, ha] at hwf ⊢
    refine ⟨rfl, h.put hwf rfl rfl (fun g hg => ?_) (fun _ _ _ _ _ => rfl) (Or.inl ⟨?_, rfl⟩)⟩
    · rw [ExtTreeMap.getElem?_erase, if_neg]
      exact fun he => hg (Std.LawfulEqCmp.eq_of_compare he).symm
    · simp

theorem addFileWithBlocks [MetadataClass κ] (h : Represents w a) (fileId : Bytes)
    (blockCount : SizeT) : SameCall w a (.addFileWithBlocks fileId blockCount) := by
  have hwf := h.wellFormed.addFileWithBlocks fileId blockCount
  rcases h.cases fileId with ⟨hfile, ha⟩ | ⟨objects, collection, hfile, _, ha⟩
  · by_cases hz : blockCount = 0
    · simp only [SameCall, World.call, FileLists.call, World.addFileWithBlocks, hfile, ha,
        if_pos hz]
      exact ⟨rfl, h⟩
    · have hfill := w.fillBlocks_empty_filled blockCount
      have hholds := World.holds_addFileWithBlocks hfile hz
      simp only [SameCall, World.call, FileLists.call, World.addFileWithBlocks, hfile, ha,
        if_neg hz] at hwf hholds ⊢
      refine ⟨rfl, h.put hwf hfill.factory hfill.clock (fun g hg => ?_) (fun g k r _ hr => ?_)
        (Or.inr ⟨_, hholds, ?_⟩)⟩
      · rw [World.files_putCollection, if_neg (Ne.symm hg), hfill.files]
      · exact hfill.old r (h.wellFormed.allocated g k r hr)
      · rw [World.heap_putCollection, hfill.fresh, h.clock, h.factory]
  · simp only [SameCall, World.call, FileLists.call, World.addFileWithBlocks, hfile, ha]
    exact ⟨rfl, h⟩

theorem getBlockCount [MetadataClass κ] (h : Represents w a) (fileId : Bytes) :
    SameCall w a (.getBlockCount fileId) := by
  rcases h.cases fileId with ⟨hfile, ha⟩ | ⟨objects, collection, hfile, hlists, ha⟩
  · simp only [SameCall, World.call, FileLists.call, World.getBlockCount, hfile, ha]
    exact ⟨rfl, h⟩
  · simp only [SameCall, World.call, FileLists.call, World.getBlockCount, hfile, ha,
      hlists.size_eq, List.length_map]
    exact ⟨rfl, h⟩

/-- Whether a 1-based index is a position of the list decides what the collection finds. -/
theorem lookup_cases (hfile : w.files_[fileId]? = some collection)
    (hlists : Lists collection objects) (blockIndex : SizeT) :
    (FileLists.Valid (objects.map w.heap) blockIndex ∧ ∃ r,
        collection[blockIndex - 1]? = some r ∧ objects[blockIndex.toNat - 1]? = some r) ∨
      ¬ FileLists.Valid (objects.map w.heap) blockIndex ∧ collection[blockIndex - 1]? = none := by
  have hholds : w.Holds fileId objects := ⟨collection, hfile, hlists⟩
  rw [← World.entry_of_collection hfile, FileLists.Valid, List.length_map]
  by_cases hi : 1 ≤ blockIndex.toNat ∧ blockIndex.toNat ≤ objects.length
  · obtain ⟨r, hr, hentry⟩ := hholds.entry_eq_some hi
    exact Or.inl ⟨hi, r, hentry, hr⟩
  · exact Or.inr ⟨hi, hholds.entry_eq_none hi⟩

theorem getBlockMetadata [MetadataClass κ] (h : Represents w a) (fileId : Bytes)
    (blockIndex : SizeT) : SameCall w a (.getBlockMetadata fileId blockIndex) := by
  rcases h.cases fileId with ⟨hfile, ha⟩ | ⟨objects, collection, hfile, hlists, ha⟩
  · simp only [SameCall, World.call, FileLists.call, World.getBlockMetadata, hfile, ha]
    exact ⟨rfl, h⟩
  · rcases lookup_cases hfile hlists blockIndex with ⟨hi, r, hentry, hr⟩ | ⟨hi, hentry⟩
    · obtain ⟨hlt, rfl⟩ := List.getElem?_eq_some_iff.mp hr
      simp only [SameCall, World.call, FileLists.call, World.getBlockMetadata, hfile, ha, hentry,
        dif_pos hi]
      refine ⟨?_, h⟩
      simp [Except.map]
    · simp only [SameCall, World.call, FileLists.call, World.getBlockMetadata, hfile, ha, hentry,
        dif_neg hi]
      exact ⟨rfl, h⟩

theorem modifyBlock [MetadataClass κ] (h : Represents w a) (fileId : Bytes)
    (blockIndex : SizeT) : SameCall w a (.modifyBlock fileId blockIndex) := by
  have hwf := h.wellFormed.modifyBlock fileId blockIndex
  rcases h.cases fileId with ⟨hfile, ha⟩ | ⟨objects, collection, hfile, hlists, ha⟩
  · simp only [SameCall, World.call, FileLists.call, World.modifyBlock, hfile, ha]
    exact ⟨rfl, h⟩
  · rcases lookup_cases hfile hlists blockIndex with ⟨hi, r, hentry, hr⟩ | ⟨hi, hentry⟩
    · have hkey : w.entry fileId (blockIndex - 1) = some r := by
        rw [World.entry_of_collection hfile, hentry]
      have hholds : w.Holds fileId objects := ⟨collection, hfile, hlists⟩
      rw [World.modifyBlock_ok hkey] at hwf
      simp only [SameCall, World.call, FileLists.call, World.modifyBlock_ok hkey, ha, if_pos hi]
      refine ⟨rfl, h.put hwf rfl rfl (fun _ _ => rfl) (fun g k r' hg hr' => ?_)
        (Or.inr ⟨objects, hholds, ?_⟩)⟩
      · rw [World.heap_bumpObject, Function.update_of_ne]
        rintro rfl
        exact hg (h.wellFormed.unshared _ _ _ _ _ hr' hkey).1
      · rw [map_heap_bumpObject (hholds.nodup h.wellFormed) hr, h.clock]
    · simp only [SameCall, World.call, FileLists.call, World.modifyBlock, hfile, ha, hentry,
        if_neg hi]
      exact ⟨rfl, h⟩

theorem deleteBlock [MetadataClass κ] (h : Represents w a) (fileId : Bytes)
    (blockIndex : SizeT) : SameCall w a (.deleteBlock fileId blockIndex) := by
  have hwf := h.wellFormed.deleteBlock fileId blockIndex
  rcases h.cases fileId with ⟨hfile, ha⟩ | ⟨objects, collection, hfile, hlists, ha⟩
  · simp only [SameCall, World.call, FileLists.call, World.deleteBlock, hfile, ha]
    exact ⟨rfl, h⟩
  · rcases lookup_cases hfile hlists blockIndex with ⟨hi, r, hentry, hr⟩ | ⟨hi, hentry⟩
    · have hholds : w.Holds fileId objects := ⟨collection, hfile, hlists⟩
      have hdel := (hholds.deleteBlock (by simpa [FileLists.Valid] using hi)).2
      rw [World.deleteBlock_ok hfile hentry] at hwf hdel
      simp only [SameCall, World.call, FileLists.call, World.deleteBlock_ok hfile hentry, ha,
        if_pos hi]
      refine ⟨rfl, h.put hwf rfl rfl (fun g hg => ?_) (fun _ _ _ _ _ => rfl)
        (Or.inr ⟨_, hdel, ?_⟩)⟩
      · rw [World.files_putCollection, if_neg (Ne.symm hg)]
      · rw [World.heap_putCollection, List.eraseIdx_map]
    · simp only [SameCall, World.call, FileLists.call, World.deleteBlock, hfile, ha, hentry,
        if_neg hi]
      exact ⟨rfl, h⟩

theorem insertBlock [MetadataClass κ] (h : Represents w a) (fileId : Bytes)
    (blockIndex : SizeT) (hi : a.Admits (.insertBlock fileId blockIndex)) :
    SameCall w a (.insertBlock fileId blockIndex) := by
  have hwf := h.wellFormed.insertBlock fileId blockIndex
  rcases h.cases fileId with ⟨hfile, ha⟩ | ⟨objects, collection, hfile, hlists, ha⟩
  · simp only [SameCall, World.call, FileLists.call, World.insertBlock, hfile, ha]
    exact ⟨rfl, h⟩
  · have hholds : w.Holds fileId objects := ⟨collection, hfile, hlists⟩
    have hrange := hi _ ha
    rw [List.length_map, ne_zero_and_le_succ_iff hholds.bounded] at hrange
    have hins := hholds.insertBlock hrange.1 hrange.2.1 hrange.2.2
    rw [World.insertBlock_ok hfile] at hwf hins
    simp only [SameCall, World.call, FileLists.call, World.insertBlock_ok hfile, ha]
    refine ⟨rfl, h.put hwf rfl rfl (fun g hg => ?_) (fun g k r _ hr => ?_)
      (Or.inr ⟨_, hins, ?_⟩)⟩
    · rw [World.files_putCollection, if_neg (Ne.symm hg), World.files_createMetadata]
    · rw [World.heap_putCollection, World.heap_createMetadata,
        Function.update_of_ne (Nat.ne_of_lt (h.wellFormed.allocated g k r hr))]
    · rw [List.map_insertIdx, World.heap_putCollection,
        map_heap_of_old h.wellFormed w.createMetadata.2 hholds fun r hr => by
          rw [World.heap_createMetadata, Function.update_of_ne (Nat.ne_of_lt hr)],
        World.heap_createMetadata, Function.update_self, h.factory, h.clock]

/-- The step lemma: an admitted call replies the same on both sides and keeps the relation. -/
theorem call [MetadataClass κ] (h : Represents w a) (c : StoreCall) (hc : a.Admits c) :
    SameCall w a c := by
  cases c with
  | addFile f => exact h.addFile f
  | addFileWithBlocks f n => exact h.addFileWithBlocks f n
  | removeFile f => exact h.removeFile f
  | getBlockMetadata f i => exact h.getBlockMetadata f i
  | getBlockCount f => exact h.getBlockCount f
  | modifyBlock f i => exact h.modifyBlock f i
  | insertBlock f i => exact h.insertBlock f i hc
  | deleteBlock f i => exact h.deleteBlock f i

end Represents

/-- Along every run whose insertions are in range, the store replies as the lists do, throwing
where they reject, and still holds them at the end. -/
theorem store_refines_fileLists [MetadataClass κ] (factory : BlockMetadataFactory κ)
    (clock : Stream' UInt64) (calls : List StoreCall)
    (hcalls : Along FileLists.call FileLists.Admits (FileLists.empty factory clock) calls) :
    (replies World.call (World.empty factory clock) calls).1 =
        (replies FileLists.call (FileLists.empty factory clock) calls).1 ∧
      Represents (replies World.call (World.empty factory clock) calls).2
        (replies FileLists.call (FileLists.empty factory clock) calls).2 :=
  Along.simulates (fun _ _ c h hc => h.call c hc) (Represents.empty factory clock) hcalls

/-- A run with shifts, a bump, and calls at index zero and past the end. -/
theorem store_refines_fileLists_mixed_run :
    let calls : List StoreCall := [.addFileWithBlocks [7] 2, .insertBlock [7] 1, .modifyBlock [7] 2,
      .modifyBlock [7] 0, .deleteBlock [7] 3, .getBlockMetadata [7] 3, .getBlockCount [7]]
    let factory : BlockMetadataFactory Empty := defaultMetadataFactory
    let clock := Stream'.iterate (· + 1) 100
    Along FileLists.call FileLists.Admits (FileLists.empty factory clock) calls ∧
      (replies World.call (World.empty factory clock) calls).1 =
        (replies FileLists.call (FileLists.empty factory clock) calls).1 ∧
      Represents (replies World.call (World.empty factory clock) calls).2
        (replies FileLists.call (FileLists.empty factory clock) calls).2 :=
  ⟨by decide, store_refines_fileLists _ _ _ (by decide)⟩

end DHTDynamic
