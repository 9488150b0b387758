import DHTDynamicAudit.Core.Deletions
import DHTDynamicAudit.Store.FileLists
import DHTDynamicAudit.Strategy.Maintenance

/-!
# The loops of a maintenance request

The handlers validate and mutate index by index. For each operation this module
says when its loop runs to the end and what it leaves: an Update counts its
indices on every object, a Delete reads back through the removals before it.
-/

namespace DHTDynamic

open Core

namespace World

variable {κ : Type} {w t : World κ} {fileId : Bytes} {blockIndex : SizeT} {r : Ref}
  {blockIndices : List SizeT} {ext : DHTDynamicMaintainExt}

/-! ## Dispatch -/

/-- The guards `maintenance` checks before it dispatches on the operation. -/
def Dispatches (w : World κ) (ext : DHTDynamicMaintainExt) : Prop :=
  ext.fileId ≠ [] ∧ ext.stateStore = true ∧ w.hasFile ext.fileId = true

instance (w : World κ) (ext : DHTDynamicMaintainExt) : Decidable (w.Dispatches ext) :=
  inferInstanceAs (Decidable (_ ∧ _))

/-- A request that fails a guard is refused in the state it found. -/
theorem maintenance_of_not_dispatches [MetadataClass κ] (h : ¬ w.Dispatches ext) :
    ∃ e, w.maintenance ⟨.typed ext⟩ = (.error e, w) := by
  simp only [maintenance]
  split_ifs with h1 h2 h3
  · exact ⟨_, rfl⟩
  · exact ⟨_, rfl⟩
  · exact ⟨_, rfl⟩
  all_goals
    refine absurd ⟨?_, ?_, ?_⟩ h
    · simpa using h1
    · simpa using h2
    · simpa using h3

/-- A request that passes the guards reads the clock once and goes to its handler. -/
theorem maintenance_of_dispatches [MetadataClass κ] (h : w.Dispatches ext) :
    w.maintenance ⟨.typed ext⟩ =
      if ext.opType = MaintenanceOpType.Update then w.now.2.handleUpdate ext
      else if ext.opType = MaintenanceOpType.Insert then w.now.2.handleInsert ext
      else if ext.opType = MaintenanceOpType.Delete then w.now.2.handleDelete ext
      else (.error (.unsupportedOpType ext.opType.value), w.now.2) := by
  obtain ⟨hfile, hstore, hhas⟩ := h
  simp [maintenance, hfile, hstore, hhas]

/-! ## Update -/

/-- The block is registered and its metadata is of the versioned class. -/
def Updatable (w : World κ) (fileId : Bytes) (blockIndex : SizeT) : Prop :=
  ∃ r m, w.entry fileId (blockIndex - 1) = some r ∧ w.heap r = .versioned m

/-- How many of the indices name this object. -/
def occurrences (w : World κ) (fileId : Bytes) (blockIndices : List SizeT) (r : Ref) : Nat :=
  blockIndices.countP fun i => w.entry fileId (i - 1) = some r

section Update

variable [MetadataClass κ]

theorem updateOne_ok {m : VersionedBlockMetadata}
    (hr : w.entry fileId (blockIndex - 1) = some r) (hm : w.heap r = .versioned m) :
    updateOne fileId w blockIndex = (.ok (), w.bumpObject r) := by
  simp only [updateOne, getBlockMetadata_eq_ok.mpr hr, hm, BlockMetadata.asVersioned_versioned,
    modifyBlock_ok hr]

theorem updateOne_error (h : ¬ w.Updatable fileId blockIndex) :
    ∃ e, updateOne fileId w blockIndex = (.error e, w) := by
  unfold updateOne
  cases hget : w.getBlockMetadata fileId blockIndex with
  | error e => exact ⟨e, rfl⟩
  | ok r =>
    cases hm : w.heap r with
    | versioned m => exact absurd ⟨r, m, getBlockMetadata_eq_ok.mp hget, hm⟩ h
    | custom m =>
      simp only [hm, BlockMetadata.asVersioned_custom]
      exact ⟨_, rfl⟩

theorem updateOne_ok_iff :
    (updateOne fileId w blockIndex).1 = .ok () ↔ w.Updatable fileId blockIndex := by
  constructor
  · intro h
    by_contra hbad
    obtain ⟨e, he⟩ := updateOne_error hbad
    rw [he] at h
    cases h
  · rintro ⟨r, m, hr, hm⟩
    rw [updateOne_ok hr hm]

/-- A bump never changes the class of an object. -/
theorem updatable_bumpObject :
    (w.bumpObject r).Updatable fileId blockIndex ↔ w.Updatable fileId blockIndex := by
  have hclass : ∀ q, (∃ m, (w.bumpObject r).heap q = .versioned m) ↔
      ∃ m, w.heap q = .versioned m := by
    intro q
    rw [heap_bumpObject]
    by_cases hq : q = r
    · subst hq
      rw [Function.update_self]
      cases w.heap q <;> simp [BlockMetadata.bump]
    · rw [Function.update_of_ne hq]
  simp only [Updatable, entry_bumpObject, exists_and_left, hclass]

/-- The Update loop finishes exactly when every index could be updated at the start. -/
theorem updateLoop_ok_iff : (forEach (updateOne fileId) w blockIndices).1 = .ok () ↔
    ∀ i ∈ blockIndices, w.Updatable fileId i := by
  induction blockIndices generalizing w with
  | nil => simp
  | cons i is ih =>
    by_cases hi : w.Updatable fileId i
    · obtain ⟨r, m, hr, hm⟩ := hi
      rw [forEach_cons_ok (updateOne_ok hr hm), ih, List.forall_mem_cons]
      simp only [updatable_bumpObject]
      exact ⟨fun h => ⟨⟨r, m, hr, hm⟩, h⟩, fun h => h.2⟩
    · obtain ⟨e, he⟩ := updateOne_error hi
      rw [forEach_cons_error he]
      simp [hi]

/-- What a finished Update loop leaves: one bump for every index that names an object. -/
structure Updated (w : World κ) (fileId : Bytes) (blockIndices : List SizeT) (t : World κ) :
    Prop where
  files : t.files_ = w.files_
  factory : t.metadataFactory_ = w.metadataFactory_
  nextRef : t.nextRef = w.nextRef
  clock : t.clock = w.clock.drop blockIndices.length
  versioned : ∀ r m, w.heap r = .versioned m → ∃ second, t.heap r =
    .versioned ⟨m.version + UInt64.ofNat (w.occurrences fileId blockIndices r), second⟩
  custom : ∀ r m, w.heap r = .custom m → t.heap r = .custom m

theorem updateLoop_updated (h : forEach (updateOne fileId) w blockIndices = (.ok (), t)) :
    w.Updated fileId blockIndices t := by
  induction blockIndices generalizing w with
  | nil =>
    obtain rfl : w = t := congrArg Prod.snd h
    exact ⟨rfl, rfl, rfl, rfl, fun r m hm => ⟨m.timestamp, by simp [occurrences, hm]⟩,
      fun _ _ hm => hm⟩
  | cons i is ih =>
    by_cases hi : w.Updatable fileId i
    · obtain ⟨r, m, hr, hm⟩ := hi
      rw [forEach_cons_ok (updateOne_ok hr hm)] at h
      have hrest := ih h
      have hocc : ∀ q, w.occurrences fileId (i :: is) q =
          (w.bumpObject r).occurrences fileId is q + if r = q then 1 else 0 := by
        intro q
        simp [occurrences, List.countP_cons, hr]
        rfl
      refine ⟨hrest.files, hrest.factory, hrest.nextRef, hrest.clock, fun q mq hq => ?_,
        fun q mq hq => hrest.custom q mq ?_⟩
      · rw [hocc]
        by_cases hqr : r = q
        · subst hqr
          obtain ⟨second, hs⟩ := hrest.versioned r (mq.bump w.clock.head) (by simp [hq])
          refine ⟨second, hs.trans ?_⟩
          rw [if_pos rfl, UInt64.ofNat_add, VersionedBlockMetadata.bump, add_assoc,
            add_comm (UInt64.ofNat _)]
          rfl
        · rw [if_neg hqr]
          refine hrest.versioned q mq ?_
          rwa [heap_bumpObject, Function.update_of_ne (Ne.symm hqr)]
      · rw [heap_bumpObject, Function.update_of_ne]
        · exact hq
        · rintro rfl
          rw [hm] at hq
          cases hq
    · obtain ⟨e, he⟩ := updateOne_error hi
      rw [forEach_cons_error he] at h
      cases congrArg Prod.fst h

end Update

/-! ## Insert -/

/-- On a registered file the Insert loop always finishes, and the file stays registered. -/
theorem insertLoop_ok (h : w.hasFile fileId = true) :
    (forEach (fun w i => w.insertBlock fileId i) w blockIndices).1 = .ok () ∧
      (forEach (fun w i => w.insertBlock fileId i) w blockIndices).2.hasFile fileId = true := by
  have hstep : ∀ u : World κ, ∀ i ∈ blockIndices, u.hasFile fileId = true →
      (u.insertBlock fileId i).1 = .ok () ∧ (u.insertBlock fileId i).2.hasFile fileId = true := by
    intro u i _ hu
    obtain ⟨collection, hfile⟩ := Option.isSome_iff_exists.mp hu
    rw [insertBlock_ok hfile]
    exact ⟨rfl, by simp [hasFile]⟩
  exact forEach_ok hstep h

/-! ## Delete -/

/-- The object at a 0-based place of a file, as a natural number. -/
def entryNat (w : World κ) (fileId : Bytes) (place : Nat) : Option Ref :=
  (w.files_[fileId]?).bind fun collection => readNat collection place

@[simp] theorem entryNat_toNat (w : World κ) (fileId : Bytes) (key : SizeT) :
    w.entryNat fileId key.toNat = w.entry fileId key := by
  simp [entryNat, entry]

/-- The 0-based places the indices of a request name. -/
def places (blockIndices : List SizeT) : List Nat :=
  blockIndices.map fun i => (i - 1).toNat

/-- Positive indices name the places one below them. -/
theorem mem_places_iff (hpositive : ∀ i ∈ blockIndices, i ≠ 0) (place : Nat) :
    place ∈ places blockIndices ↔ place + 1 ∈ blockIndices.map UInt64.toNat := by
  simp only [places, List.mem_map]
  refine exists_congr fun i => and_congr_right fun hi => ?_
  have h1 := one_le_toNat_iff.mpr (hpositive i hi)
  rw [toNat_pred (hpositive i hi)]
  omega

/-- What a finished Delete loop leaves, in terms of the places removed. -/
structure Deleted (w : World κ) (fileId : Bytes) (removed : List Nat) (t : World κ) : Prop where
  entries : ∀ place, t.entryNat fileId place = w.entryNat fileId (restoreAll removed place)
  hasFile : t.hasFile fileId = w.hasFile fileId
  other : ∀ g, g ≠ fileId → t.files_[g]? = w.files_[g]?
  heap : t.heap = w.heap
  factory : t.metadataFactory_ = w.metadataFactory_
  nextRef : t.nextRef = w.nextRef
  clock : t.clock = w.clock

/-- One removal: what follows it has moved down by one. -/
theorem deleteBlock_deleted (h : w.entry fileId (blockIndex - 1) = some r) :
    (w.deleteBlock fileId blockIndex).1 = .ok () ∧
      w.Deleted fileId [(blockIndex - 1).toNat] (w.deleteBlock fileId blockIndex).2 := by
  obtain ⟨collection, hfile, hentry⟩ := exists_collection_of_entry h
  rw [deleteBlock_ok hfile hentry]
  refine ⟨rfl, fun place => ?_, ?_, fun g hg => ?_, rfl, rfl, rfl, rfl⟩
  · simp only [entryNat, files_putCollection, if_pos, Option.bind_some, readNat_deleteAt, hfile]
    rfl
  · rw [hasFile_of_collection hfile, World.hasFile, files_putCollection, if_pos rfl]
    rfl
  · rw [files_putCollection, if_neg (Ne.symm hg)]

theorem deleteBlock_ok_iff :
    (w.deleteBlock fileId blockIndex).1 = .ok () ↔ (w.entry fileId (blockIndex - 1)).isSome := by
  cases hi : w.entry fileId (blockIndex - 1) with
  | some r => simp [(deleteBlock_deleted hi).1]
  | none =>
    obtain ⟨e, he⟩ := deleteBlock_error hi
    simp [he]

theorem Deleted.trans {u : World κ} {ds es : List Nat} (h : w.Deleted fileId ds t)
    (h' : t.Deleted fileId es u) : w.Deleted fileId (ds ++ es) u := by
  refine ⟨fun place => ?_, h'.hasFile.trans h.hasFile, fun g hg => ?_, h'.heap.trans h.heap,
    h'.factory.trans h.factory, h'.nextRef.trans h.nextRef, h'.clock.trans h.clock⟩
  · rw [h'.entries, h.entries, restoreAll_append]
  · rw [h'.other g hg, h.other g hg]

/-- The Delete loop finishes exactly when every index, read back through the removals before
it, was registered at the start. -/
theorem deleteLoop_ok_iff :
    (forEach (fun w i => w.deleteBlock fileId i) w blockIndices).1 = .ok () ↔
      ∀ place ∈ origins (places blockIndices), (w.entryNat fileId place).isSome := by
  induction blockIndices generalizing w with
  | nil => simp [places]
  | cons i is ih =>
    rw [places, List.map_cons, origins_cons, List.forall_mem_cons, List.forall_mem_map,
      entryNat_toNat]
    cases hi : w.entry fileId (i - 1) with
    | none =>
      obtain ⟨e, he⟩ := deleteBlock_error hi
      rw [forEach_cons_error he]
      simp
    | some r =>
      obtain ⟨hok, hdel⟩ := deleteBlock_deleted hi
      rw [forEach_cons_of_ok hok, ih]
      simp only [hdel.entries, restoreAll_cons, restoreAll_nil, Option.isSome_some, true_and]
      rfl

theorem deleteLoop_deleted
    (h : forEach (fun w i => w.deleteBlock fileId i) w blockIndices = (.ok (), t)) :
    w.Deleted fileId (places blockIndices) t := by
  induction blockIndices generalizing w with
  | nil =>
    obtain rfl : w = t := congrArg Prod.snd h
    exact ⟨fun _ => rfl, rfl, fun _ _ => rfl, rfl, rfl, rfl, rfl⟩
  | cons i is ih =>
    cases hi : w.entry fileId (i - 1) with
    | none =>
      obtain ⟨e, he⟩ := deleteBlock_error hi
      rw [forEach_cons_error he] at h
      cases congrArg Prod.fst h
    | some r =>
      obtain ⟨hok, hdel⟩ := deleteBlock_deleted hi
      rw [forEach_cons_of_ok hok] at h
      exact hdel.trans (ih h)

/-- A file without gaps read place by place. -/
theorem Holds.entryNat {objects : List Ref} (h : w.Holds fileId objects) (place : Nat) :
    w.entryNat fileId place = objects[place]? := by
  obtain ⟨collection, hfile, hlists⟩ := h
  simp only [World.entryNat, hfile, Option.bind_some, readNat]
  split_ifs with hlt
  · rw [hlists.lookup, toNat_ofNat_lt hlt]
  · exact (List.getElem?_eq_none (by have := hlists.bounded; omega)).symm

/-- A finished Delete loop on a file without gaps erases its places one after another. -/
theorem Holds.deleted {objects : List Ref} {removed : List Nat} (h : w.Holds fileId objects)
    (hdel : w.Deleted fileId removed t) :
    t.Holds fileId (removed.foldl List.eraseIdx objects) := by
  have hfile : t.hasFile fileId = true := hdel.hasFile.trans h.hasFile
  obtain ⟨collection, hcollection⟩ := Option.isSome_iff_exists.mp hfile
  have hread : ∀ place, t.entryNat fileId place =
      (removed.foldl List.eraseIdx objects)[place]? := by
    intro place
    rw [hdel.entries, h.entryNat, getElem?_foldl_eraseIdx]
  refine ⟨collection, hcollection, ?_, fun k => ?_⟩
  · exact Nat.lt_of_le_of_lt (length_foldl_eraseIdx_le objects removed) h.bounded
  · rw [← hread, entryNat_toNat, entry_of_collection hcollection]

end World

/-! ## Operations -/

/-- The three maintenance operations. -/
inductive Operation where
  | update
  | insert
  | delete
  deriving DecidableEq, Repr

namespace Operation

/-- The enumerator of an operation. -/
def enumerator : Operation → MaintenanceOpType
  | update => .Update
  | insert => .Insert
  | delete => .Delete

/-- What an operation does for one index. -/
def apply {κ : Type} [MetadataClass κ] (op : Operation) (fileId : Bytes) (w : World κ)
    (blockIndex : SizeT) : Outcome κ Unit :=
  match op with
  | update => World.updateOne fileId w blockIndex
  | insert => w.insertBlock fileId blockIndex
  | delete => w.deleteBlock fileId blockIndex

/-- The state an operation needs to go through the whole list. -/
def Applicable {κ : Type} (op : Operation) (w : World κ) (fileId : Bytes)
    (blockIndices : List SizeT) : Prop :=
  match op with
  | update => ∀ i ∈ blockIndices, w.Updatable fileId i
  | insert => True
  | delete => ∀ place ∈ origins (World.places blockIndices), (w.entryNat fileId place).isSome

/-- Applicability does not depend on the clock. -/
theorem applicable_now {κ : Type} {w : World κ} {op : Operation} {fileId : Bytes}
    {blockIndices : List SizeT} :
    op.Applicable w.now.2 fileId blockIndices ↔ op.Applicable w fileId blockIndices := by
  cases op <;> rfl

end Operation

namespace World

variable {κ : Type} [MetadataClass κ] {w : World κ} {fileId : Bytes} {blockIndices : List SizeT}
  {ext : DHTDynamicMaintainExt}

/-- A request that passes the guards and lists an index is the loop of its operation. -/
theorem maintenance_eq_loop (op : Operation) (h : w.Dispatches ext)
    (hop : ext.opType = op.enumerator) (hne : ext.blockIndices ≠ []) :
    w.maintenance ⟨.typed ext⟩ = forEach (op.apply ext.fileId) w.now.2 ext.blockIndices := by
  rw [maintenance_of_dispatches h, hop]
  cases op with
  | update => exact (if_pos rfl).trans (if_neg (by simpa using hne))
  | insert =>
    rw [if_neg (by decide)]
    exact (if_pos rfl).trans (if_neg (by simpa using hne))
  | delete =>
    rw [if_neg (by decide), if_neg (by decide)]
    exact (if_pos rfl).trans (if_neg (by simpa using hne))

theorem maintenance_update (h : w.Dispatches ext) (hop : ext.opType = MaintenanceOpType.Update)
    (hne : ext.blockIndices ≠ []) : w.maintenance ⟨.typed ext⟩ =
      forEach (updateOne ext.fileId) w.now.2 ext.blockIndices :=
  maintenance_eq_loop .update h hop hne

theorem maintenance_insert (h : w.Dispatches ext) (hop : ext.opType = MaintenanceOpType.Insert)
    (hne : ext.blockIndices ≠ []) : w.maintenance ⟨.typed ext⟩ =
      forEach (fun w i => w.insertBlock ext.fileId i) w.now.2 ext.blockIndices :=
  maintenance_eq_loop .insert h hop hne

theorem maintenance_delete (h : w.Dispatches ext) (hop : ext.opType = MaintenanceOpType.Delete)
    (hne : ext.blockIndices ≠ []) : w.maintenance ⟨.typed ext⟩ =
      forEach (fun w i => w.deleteBlock ext.fileId i) w.now.2 ext.blockIndices :=
  maintenance_eq_loop .delete h hop hne

/-- The loop of an operation finishes exactly when the operation is applicable at the start. -/
theorem loop_ok_iff {op : Operation} (hfile : w.hasFile fileId = true) :
    (forEach (op.apply fileId) w blockIndices).1 = .ok () ↔
      op.Applicable w fileId blockIndices := by
  cases op with
  | update => exact updateLoop_ok_iff
  | insert => exact iff_of_true (insertLoop_ok hfile).1 trivial
  | delete => exact deleteLoop_ok_iff

/-- A request without indices is refused, whatever its operation. -/
theorem maintenance_of_no_indices (op : Operation) (h : w.Dispatches ext)
    (hop : ext.opType = op.enumerator) (hnil : ext.blockIndices = []) :
    ∃ e, w.maintenance ⟨.typed ext⟩ = (.error e, w.now.2) := by
  rw [maintenance_of_dispatches h, hop]
  cases op with
  | update => exact ⟨_, (if_pos rfl).trans (if_pos (by simpa using hnil))⟩
  | insert =>
    rw [if_neg (by decide)]
    exact ⟨_, (if_pos rfl).trans (if_pos (by simpa using hnil))⟩
  | delete =>
    rw [if_neg (by decide), if_neg (by decide)]
    exact ⟨_, (if_pos rfl).trans (if_pos (by simpa using hnil))⟩

/-- A request runs to the end exactly when it passes the guards, lists an index and names an
operation that is applicable. -/
theorem maintenance_ok_iff : (w.maintenance ⟨.typed ext⟩).1 = .ok () ↔
    w.Dispatches ext ∧ ext.blockIndices ≠ [] ∧
      ∃ op : Operation, ext.opType = op.enumerator ∧
        op.Applicable w ext.fileId ext.blockIndices := by
  by_cases hdispatch : w.Dispatches ext
  · have hfile : w.now.2.hasFile ext.fileId = true := hdispatch.2.2
    constructor
    · intro hok
      have hop : ∃ op : Operation, ext.opType = op.enumerator := by
        by_contra hnone
        have hupdate : ext.opType ≠ .Update := fun h => hnone ⟨.update, h⟩
        have hinsert : ext.opType ≠ .Insert := fun h => hnone ⟨.insert, h⟩
        have hdelete : ext.opType ≠ .Delete := fun h => hnone ⟨.delete, h⟩
        rw [maintenance_of_dispatches hdispatch, if_neg hupdate, if_neg hinsert,
          if_neg hdelete] at hok
        cases hok
      obtain ⟨op, hop⟩ := hop
      have hne : ext.blockIndices ≠ [] := by
        intro hnil
        obtain ⟨e, he⟩ := maintenance_of_no_indices op hdispatch hop hnil
        rw [he] at hok
        cases hok
      rw [maintenance_eq_loop op hdispatch hop hne, loop_ok_iff hfile,
        Operation.applicable_now] at hok
      exact ⟨hdispatch, hne, op, hop, hok⟩
    · rintro ⟨_, hne, op, hop, happlicable⟩
      rwa [maintenance_eq_loop op hdispatch hop hne, loop_ok_iff hfile,
        Operation.applicable_now]
  · obtain ⟨e, he⟩ := maintenance_of_not_dispatches hdispatch
    rw [he]
    constructor
    · intro hok
      cases hok
    · exact fun h => absurd h.1 hdispatch

/-! ## A small store -/

/-- One file of five blocks, created within one second. -/
def fiveBlocks : World Empty :=
  ((empty defaultMetadataFactory (Stream'.const 0)).addFileWithBlocks [7] 5).2

theorem fiveBlocks_holds : fiveBlocks.Holds [7] [0, 1, 2, 3, 4] :=
  holds_addFileWithBlocks (by simp [empty]) (by decide)

theorem fiveBlocks_heap : ∀ r ∈ [0, 1, 2, 3, 4], fiveBlocks.heap r = .versioned ⟨1, 0⟩ := by
  decide

theorem fiveBlocks_wellFormed : fiveBlocks.WellFormed :=
  (WellFormed.empty _ _).addFileWithBlocks _ _

end World

end DHTDynamic
