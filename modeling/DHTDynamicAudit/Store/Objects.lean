import DHTDynamicAudit.Store.Rebuild

/-!
# Metadata objects under the store's methods

One equation for each outcome of a method, then what every method keeps: live
references are allocated, and no object is registered at two places. In-place
bumps are only local because of the latter.
-/

namespace DHTDynamic

open Core
open Std (ExtTreeMap)

namespace World

variable {κ : Type} {w : World κ} {fileId other : Bytes} {collection : Collection}
  {blockIndex key : SizeT} {existing : Ref}

/-! ## Fields after an update -/

@[simp] theorem factory_now : w.now.2.metadataFactory_ = w.metadataFactory_ := rfl

@[simp] theorem files_createMetadata : w.createMetadata.2.files_ = w.files_ := rfl

@[simp] theorem heap_createMetadata : w.createMetadata.2.heap =
    Function.update w.heap w.nextRef (w.metadataFactory_ w.clock.head) := rfl

@[simp] theorem heap_putCollection : (w.putCollection fileId collection).heap = w.heap := rfl

@[simp] theorem files_putCollection : (w.putCollection fileId collection).files_[other]? =
    if fileId = other then some collection else w.files_[other]? := by
  simp [putCollection, ExtTreeMap.getElem?_insert]

@[simp] theorem entry_putCollection : (w.putCollection fileId collection).entry other key =
    if fileId = other then collection[key]? else w.entry other key := by
  rw [entry, files_putCollection]
  split_ifs <;> rfl

theorem entry_of_collection (h : w.files_[fileId]? = some collection) :
    w.entry fileId key = collection[key]? := by
  rw [entry, h]
  rfl

/-- A registered object belongs to a registered file. -/
theorem exists_collection_of_entry (h : w.entry fileId key = some existing) :
    ∃ collection, w.files_[fileId]? = some collection ∧ collection[key]? = some existing :=
  Option.bind_eq_some_iff.mp h

theorem hasFile_of_collection (h : w.files_[fileId]? = some collection) :
    w.hasFile fileId = true := by
  rw [hasFile, h, Option.isSome_some]

theorem hasFile_of_entry (h : w.entry fileId key = some existing) : w.hasFile fileId = true := by
  obtain ⟨collection, hcollection, _⟩ := exists_collection_of_entry h
  exact hasFile_of_collection hcollection

/-- Putting a file's own collection back changes nothing. -/
theorem putCollection_self (h : w.files_[fileId]? = some collection) :
    w.putCollection fileId collection = w := by
  have hfiles : w.files_.insert fileId collection = w.files_ := by
    apply ExtTreeMap.ext_getElem?
    intro other
    rw [ExtTreeMap.getElem?_insert]
    split_ifs with he
    · rw [← Std.LawfulEqCmp.eq_of_compare he, h]
    · rfl
  simp only [putCollection, hfiles]

section Bump

variable [MetadataClass κ]

@[simp] theorem files_bumpObject : (w.bumpObject existing).files_ = w.files_ := rfl

@[simp] theorem heap_bumpObject : (w.bumpObject existing).heap =
    Function.update w.heap existing ((w.heap existing).bump w.clock.head) := rfl

@[simp] theorem entry_bumpObject :
    (w.bumpObject existing).entry fileId key = w.entry fileId key := rfl

/-! ## Outcomes of `modifyBlock` -/

/-- Writing the bumped object back changes no entry: a successful call is the bump alone. -/
theorem modifyBlock_ok (h : w.entry fileId (blockIndex - 1) = some existing) :
    w.modifyBlock fileId blockIndex = (.ok (), w.bumpObject existing) := by
  obtain ⟨collection, hfile, hentry⟩ := exists_collection_of_entry h
  have hcollection : collection.insert (blockIndex - 1) existing = collection := by
    apply ExtTreeMap.ext_getElem?
    intro k
    rw [getElem?_insert_index]
    split_ifs with he
    · rw [← he, hentry]
    · rfl
  have hself : (w.bumpObject existing).putCollection fileId collection = w.bumpObject existing :=
    putCollection_self hfile
  simp only [modifyBlock, hfile, hentry, hcollection, hself]

/-- A call that finds no object throws and leaves the state alone. -/
theorem modifyBlock_error (h : w.entry fileId (blockIndex - 1) = none) :
    ∃ e, w.modifyBlock fileId blockIndex = (.error e, w) := by
  unfold modifyBlock
  cases hfile : w.files_[fileId]? with
  | none => exact ⟨_, rfl⟩
  | some collection =>
    rw [entry_of_collection hfile] at h
    simp only [h]
    exact ⟨_, rfl⟩

end Bump

/-! ## Outcomes of `insertBlock`, `deleteBlock` and `getBlockMetadata` -/

/-- On a registered file `insertBlock` never throws, whatever the index. -/
theorem insertBlock_ok (h : w.files_[fileId]? = some collection) (blockIndex : SizeT) :
    w.insertBlock fileId blockIndex = (.ok (), w.createMetadata.2.putCollection fileId
      (insertAt collection (blockIndex - 1) w.nextRef)) := by
  simp only [insertBlock, h]
  rfl

theorem insertBlock_error (h : w.files_[fileId]? = none) (blockIndex : SizeT) :
    w.insertBlock fileId blockIndex = (.error (.fileMissing .insertBlock fileId), w) := by
  simp only [insertBlock, h]

theorem deleteBlock_ok (h : w.files_[fileId]? = some collection)
    (hentry : collection[blockIndex - 1]? = some existing) :
    w.deleteBlock fileId blockIndex =
      (.ok (), w.putCollection fileId (deleteAt collection (blockIndex - 1))) := by
  simp only [deleteBlock, h, hentry]

/-- A call that finds no object throws and leaves the state alone. -/
theorem deleteBlock_error (h : w.entry fileId (blockIndex - 1) = none) :
    ∃ e, w.deleteBlock fileId blockIndex = (.error e, w) := by
  unfold deleteBlock
  cases hfile : w.files_[fileId]? with
  | none => exact ⟨_, rfl⟩
  | some collection =>
    rw [entry_of_collection hfile] at h
    simp only [h]
    exact ⟨_, rfl⟩

theorem getBlockMetadata_eq_ok {r : Ref} :
    w.getBlockMetadata fileId blockIndex = .ok r ↔ w.entry fileId (blockIndex - 1) = some r := by
  unfold getBlockMetadata entry
  cases w.files_[fileId]? with
  | none => simp
  | some collection =>
    simp only [Option.bind_some]
    cases collection[blockIndex - 1]? <;> simp

theorem getBlockMetadata_error (h : w.entry fileId (blockIndex - 1) = none) :
    ∃ e, w.getBlockMetadata fileId blockIndex = .error e := by
  cases hget : w.getBlockMetadata fileId blockIndex with
  | error e => exact ⟨e, rfl⟩
  | ok r =>
    rw [getBlockMetadata_eq_ok.mp hget] at h
    cases h

/-! ## No object at two places -/

/-- Registered references are allocated, and each is registered once in the whole store. -/
structure WellFormed (w : World κ) : Prop where
  allocated : ∀ fileId key r, w.entry fileId key = some r → r < w.nextRef
  unshared : ∀ fileId fileId' key key' r, w.entry fileId key = some r →
    w.entry fileId' key' = some r → fileId = fileId' ∧ key = key'

namespace WellFormed

theorem empty (factory : BlockMetadataFactory κ) (clock : Stream' UInt64) :
    (World.empty factory clock).WellFormed := by
  have hnone : ∀ f k, (World.empty factory clock).entry f k = none := by
    intro f k
    simp [World.empty, entry]
  constructor
  · intro f k r h
    rw [hnone] at h
    cases h
  · intro f f' k k' r h
    rw [hnone] at h
    cases h

/-- Losing entries and allocating more references is harmless. -/
theorem of_entry_imp (h : w.WellFormed) (w' : World κ) (hle : w.nextRef ≤ w'.nextRef)
    (he : ∀ f k r, w'.entry f k = some r → w.entry f k = some r) : w'.WellFormed := by
  constructor
  · intro f k r hr
    exact Nat.lt_of_lt_of_le (h.allocated f k r (he f k r hr)) hle
  · intro f f' k k' r hr hr'
    exact h.unshared f f' k k' r (he f k r hr) (he f' k' r hr')

/-- Replacing one collection is harmless if each of its objects is freshly allocated at a
single key, or comes from one key of the old collection. -/
theorem putCollection (h : w.WellFormed) (w' : World κ) (hle : w.nextRef ≤ w'.nextRef)
    (he : ∀ f k, w'.entry f k = w.entry f k) (collection : Collection)
    (move : SizeT → SizeT) (fresh : Ref → SizeT)
    (hnew : ∀ k r, collection[k]? = some r →
      (w.nextRef ≤ r ∧ r < w'.nextRef ∧ k = fresh r) ∨
        ∃ j, w.entry fileId j = some r ∧ k = move j) :
    (w'.putCollection fileId collection).WellFormed := by
  have hold : ∀ f k r, (w'.putCollection fileId collection).entry f k = some r →
      (w.nextRef ≤ r ∧ r < w'.nextRef ∧ f = fileId ∧ k = fresh r) ∨
        ∃ j, w.entry f j = some r ∧ k = if f = fileId then move j else j := by
    intro f k r hr
    rw [entry_putCollection] at hr
    split_ifs at hr with hf
    · subst hf
      rcases hnew k r hr with ⟨h1, h2, h3⟩ | ⟨j, hj, hk⟩
      · exact Or.inl ⟨h1, h2, rfl, h3⟩
      · exact Or.inr ⟨j, hj, by rw [if_pos rfl]; exact hk⟩
    · rw [he] at hr
      exact Or.inr ⟨k, hr, by rw [if_neg (fun h => hf h.symm)]⟩
  constructor
  · intro f k r hr
    rcases hold f k r hr with ⟨_, hlt, _⟩ | ⟨j, hj, _⟩
    · exact hlt
    · exact Nat.lt_of_lt_of_le (h.allocated f j r hj) hle
  · intro f f' k k' r hr hr'
    rcases hold f k r hr with ⟨hge, _, hf, hk⟩ | ⟨j, hj, hk⟩
    · rcases hold f' k' r hr' with ⟨_, _, hf', hk'⟩ | ⟨j', hj', _⟩
      · exact ⟨hf.trans hf'.symm, hk.trans hk'.symm⟩
      · exact absurd (h.allocated f' j' r hj') (Nat.not_lt.mpr hge)
    · rcases hold f' k' r hr' with ⟨hge, _, _, _⟩ | ⟨j', hj', hk'⟩
      · exact absurd (h.allocated f j r hj) (Nat.not_lt.mpr hge)
      · obtain ⟨rfl, rfl⟩ := h.unshared f f' j j' r hj hj'
        exact ⟨rfl, hk.trans hk'.symm⟩

variable (h : w.WellFormed)
include h

theorem now : w.now.2.WellFormed :=
  h.of_entry_imp _ le_rfl fun _ _ _ hr => hr

theorem bumpObject [MetadataClass κ] (existing : Ref) : (w.bumpObject existing).WellFormed :=
  h.of_entry_imp _ le_rfl fun _ _ _ hr => hr

theorem addFile (fileId : Bytes) : (w.addFile fileId).2.WellFormed := by
  unfold World.addFile
  cases hfile : w.files_[fileId]? with
  | some _ => exact h
  | none =>
    refine h.of_entry_imp (w.putCollection fileId ∅) le_rfl fun f k r hr => ?_
    rw [entry_putCollection] at hr
    split_ifs at hr
    · simp at hr
    · exact hr

theorem removeFile (fileId : Bytes) : (w.removeFile fileId).2.WellFormed := by
  unfold World.removeFile
  cases hfile : w.files_[fileId]? with
  | none => exact h
  | some _ =>
    refine h.of_entry_imp { w with files_ := w.files_.erase fileId } le_rfl
      fun f k r hr => ?_
    simp only [World.entry, ExtTreeMap.getElem?_erase] at hr
    split_ifs at hr
    · cases hr
    · exact hr

theorem modifyBlock [MetadataClass κ] (fileId : Bytes) (blockIndex : SizeT) :
    (w.modifyBlock fileId blockIndex).2.WellFormed := by
  cases he : w.entry fileId (blockIndex - 1) with
  | none =>
    obtain ⟨e, hmod⟩ := modifyBlock_error he
    rw [hmod]
    exact h
  | some existing =>
    rw [modifyBlock_ok he]
    exact h.bumpObject existing

theorem insertBlock (fileId : Bytes) (blockIndex : SizeT) :
    (w.insertBlock fileId blockIndex).2.WellFormed := by
  cases hfile : w.files_[fileId]? with
  | none =>
    rw [insertBlock_error hfile]
    exact h
  | some collection =>
    rw [insertBlock_ok hfile]
    refine h.putCollection w.createMetadata.2 (Nat.le_succ _) (fun _ _ => rfl) _
      (fun j => if j < blockIndex - 1 then j else j + 1) (fun _ => blockIndex - 1) ?_
    intro k r hr
    rcases insertAt_origin hr with ⟨hk, rfl⟩ | ⟨j, hj, hk⟩
    · exact Or.inl ⟨le_rfl, Nat.lt_succ_self _, hk⟩
    · exact Or.inr ⟨j, (entry_of_collection hfile).trans hj, hk⟩

theorem deleteBlock (fileId : Bytes) (blockIndex : SizeT) :
    (w.deleteBlock fileId blockIndex).2.WellFormed := by
  cases he : w.entry fileId (blockIndex - 1) with
  | none =>
    obtain ⟨e, hdel⟩ := deleteBlock_error he
    rw [hdel]
    exact h
  | some existing =>
    obtain ⟨collection, hfile, hentry⟩ := exists_collection_of_entry he
    rw [deleteBlock_ok hfile hentry]
    refine h.putCollection w le_rfl (fun _ _ => rfl) _
      (fun j => if j < blockIndex - 1 then j else j - 1) (fun _ => 0) ?_
    intro k r hr
    obtain ⟨j, _, hj, hk⟩ := deleteAt_origin hr
    exact Or.inr ⟨j, (entry_of_collection hfile).trans hj, hk⟩

end WellFormed

end World

end DHTDynamic
