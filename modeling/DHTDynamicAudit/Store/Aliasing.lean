import DHTDynamicAudit.Store.SharedStore

/-!
# Files that share a collection

The store acts as a table of contents exactly as long as no two files hold the
same collection and none holds a null pointer. Only `setBlockMetadataCollection`
can bring that about.
-/

namespace DHTDynamic

open Core
open Std (ExtTreeMap)

namespace SharedStore

variable {κ : Type} {s : SharedStore κ} {fileId other : Bytes} {collection : CollectionRef}
  {content : Collection}

/-! ## Pointers -/

/-- Every file has a collection of its own. -/
structure Unshared (s : SharedStore κ) : Prop where
  nonnull : ∀ f : Bytes, s.files_[f]? ≠ some none
  distinct : ∀ (f g : Bytes) (c : CollectionRef), s.files_[f]? = some (some c) →
    s.files_[g]? = some (some c) → f = g

/-- Pointers lead to collections that have been made, and these to objects that have been. -/
structure Allocated (s : SharedStore κ) : Prop where
  pointers : ∀ (f : Bytes) (c : CollectionRef), s.files_[f]? = some (some c) →
    c < s.nextCollection
  objects : ∀ (c : CollectionRef) (key : SizeT) (r : Ref), (s.collections c)[key]? = some r →
    r < s.nextRef

/-- The calls that know no pointers act as on a table of contents. -/
def Separate [MetadataClass κ] (s : SharedStore κ) : Prop :=
  ∀ call, (s.call call).1 = (s.view.call call).1 ∧ (s.call call).2.view = (s.view.call call).2

/-! ## The view after an update -/

@[simp] theorem files_view (f : Bytes) :
    s.view.files_[f]? = (s.files_[f]?).map s.contentOf := by
  rw [view, ExtTreeMap.getElem?_map]

@[simp] theorem files_putPointer {pointer : Option CollectionRef} :
    (s.putPointer fileId pointer).files_[other]? =
      if fileId = other then some pointer else s.files_[other]? := by
  simp [putPointer, ExtTreeMap.getElem?_insert]

@[simp] theorem collections_setContent : (s.setContent collection content).collections =
    Function.update s.collections collection content := rfl

@[simp] theorem collections_withProcess (w : World κ) :
    (s.withProcess w).collections = s.collections := rfl

@[simp] theorem collections_makeCollection : s.makeCollection.2.collections =
    Function.update s.collections s.nextCollection ∅ := rfl

/-- The objects in the collections stay allocated when one collection takes such objects. -/
theorem Allocated.objects_setContent (h : s.Allocated) {w : World κ} (hle : s.nextRef ≤ w.nextRef)
    (hcontent : ∀ (key : SizeT) (r : Ref), content[key]? = some r → r < w.nextRef)
    (c : CollectionRef) (key : SizeT) (r : Ref)
    (hr : (((s.withProcess w).setContent collection content).collections c)[key]? = some r) :
    r < w.nextRef := by
  by_cases hc : c = collection
  · subst hc
    rw [collections_setContent, Function.update_self] at hr
    exact hcontent key r hr
  · rw [collections_setContent, collections_withProcess, Function.update_of_ne hc] at hr
    exact Nat.lt_of_lt_of_le (h.objects c key r hr) hle

theorem Allocated.makeCollection (h : s.Allocated) : s.makeCollection.2.Allocated := by
  constructor
  · exact fun f c hf => Nat.lt_succ_of_lt (h.pointers f c hf)
  · intro c key r hr
    by_cases hc : c = s.nextCollection
    · subst hc
      rw [collections_makeCollection, Function.update_self] at hr
      simp at hr
    · rw [collections_makeCollection, Function.update_of_ne hc] at hr
      exact h.objects c key r hr

/-- Filled content holds objects the loop has allocated. -/
theorem fillBlocks_allocated (w : World κ) (blockCount : SizeT) (key : SizeT) (r : Ref)
    (hr : (w.fillBlocks ∅ 0 blockCount.toNat).1[key]? = some r) :
    r < (w.fillBlocks ∅ 0 blockCount.toNat).2.nextRef := by
  have hfill := w.fillBlocks_empty_filled blockCount
  rw [hfill.lists.lookup, List.nil_append] at hr
  obtain ⟨hlow, hhigh⟩ := List.mem_range'_1.mp (List.mem_of_getElem? hr)
  rwa [hfill.nextRef]

/-! ## Acting as a table of contents -/

variable [MetadataClass κ]

/-- Sharing shows: a null pointer in `getBlockCount`, a shared collection in `insertBlock`. -/
theorem Separate.unshared (h : s.Separate) (hs : s.Allocated) : s.Unshared := by
  constructor
  · intro f hnull
    have hcount := (h (.getBlockCount f)).1
    simp only [call, World.call, getBlockCount, World.getBlockCount, files_view, hnull,
      Option.map_some] at hcount
    cases hcount
  · intro f g c hf hg
    by_contra hne
    -- inserting at the front of `f` puts the new object at the front of `g`
    have hafter : (s.call (.insertBlock f 1)).2.view.files_[g]? =
        some (World.insertAt (s.collections c) (1 - 1) s.nextRef) := by
      rw [files_view]
      simp only [SharedStore.call, insertBlock, hf]
      show (s.files_[g]?).map _ = _
      rw [hg]
      exact congrArg some (Function.update_self _ _ _)
    have hbefore : (s.view.call (.insertBlock f 1)).2.files_[g]? = some (s.collections c) := by
      simp only [World.call, World.insertBlock, files_view, hf, Option.map_some,
        World.files_putCollection, if_neg hne]
      show s.view.files_[g]? = _
      rw [files_view, hg]
      rfl
    rw [(h (.insertBlock f 1)).2, hbefore, Option.some.injEq] at hafter
    have hfirst : (s.collections c)[(1 - 1 : SizeT)]? = some s.nextRef := by
      rw [hafter, World.getElem?_insertAt, if_pos rfl]
    exact Nat.lt_irrefl _ (hs.objects c _ _ hfirst)

/-! ## Runs -/

/-- The pointers a caller hands over lead to collections that have been made. -/
def Held (s : SharedStore κ) : SharedCall κ → Prop
  | .setBlockMetadataCollection _ (some collection) => collection < s.nextCollection
  | .setThrough collection _ _ => collection < s.nextCollection
  | _ => True

/-- What the calls without pointers do to the file table. -/
theorem call_files (s : SharedStore κ) (storeCall : StoreCall) :
    ((s.call storeCall).2.files_ = s.files_ ∧
        (s.call storeCall).2.nextCollection = s.nextCollection) ∨
      (∃ f : Bytes, s.files_[f]? = none ∧
        (s.call storeCall).2.files_ = s.files_.insert f (some s.nextCollection) ∧
        (s.call storeCall).2.nextCollection = s.nextCollection + 1) ∨
      ∃ f : Bytes, (s.call storeCall).2.files_ = s.files_.erase f ∧
        (s.call storeCall).2.nextCollection = s.nextCollection := by
  cases storeCall with
  | addFile f =>
    simp only [SharedStore.call, addFile]
    cases hf : s.files_[f]? with
    | some pointer => exact Or.inl ⟨rfl, rfl⟩
    | none => exact Or.inr (Or.inl ⟨f, hf, rfl, rfl⟩)
  | addFileWithBlocks f n =>
    simp only [SharedStore.call, addFileWithBlocks]
    cases hf : s.files_[f]? with
    | some pointer => exact Or.inl ⟨rfl, rfl⟩
    | none =>
      simp only
      split_ifs
      · exact Or.inl ⟨rfl, rfl⟩
      · exact Or.inr (Or.inl ⟨f, hf, rfl, rfl⟩)
  | removeFile f =>
    simp only [SharedStore.call, removeFile]
    cases s.files_[f]? with
    | none => exact Or.inl ⟨rfl, rfl⟩
    | some pointer => exact Or.inr (Or.inr ⟨f, rfl, rfl⟩)
  | getBlockMetadata f i => exact Or.inl ⟨rfl, rfl⟩
  | getBlockCount f => exact Or.inl ⟨rfl, rfl⟩
  | modifyBlock f i =>
    simp only [SharedStore.call, modifyBlock]
    rcases s.files_[f]? with _ | _ | collection
    · exact Or.inl ⟨rfl, rfl⟩
    · exact Or.inl ⟨rfl, rfl⟩
    · simp only
      cases (s.collections collection)[i - 1]? <;> exact Or.inl ⟨rfl, rfl⟩
  | insertBlock f i =>
    simp only [SharedStore.call, insertBlock]
    rcases s.files_[f]? with _ | _ | collection <;> exact Or.inl ⟨rfl, rfl⟩
  | deleteBlock f i =>
    simp only [SharedStore.call, deleteBlock]
    rcases s.files_[f]? with _ | _ | collection
    · exact Or.inl ⟨rfl, rfl⟩
    · exact Or.inl ⟨rfl, rfl⟩
    · simp only
      cases (s.collections collection)[i - 1]? <;> exact Or.inl ⟨rfl, rfl⟩

theorem Allocated.objects_call (h : s.Allocated) (storeCall : StoreCall) :
    ∀ (c : CollectionRef) (key : SizeT) (r : Ref),
      ((s.call storeCall).2.collections c)[key]? = some r →
        r < (s.call storeCall).2.nextRef := by
  cases storeCall with
  | addFile f =>
    simp only [SharedStore.call, addFile]
    cases s.files_[f]? with
    | some pointer => exact h.objects
    | none => exact h.makeCollection.objects
  | addFileWithBlocks f n =>
    simp only [SharedStore.call, addFileWithBlocks]
    cases s.files_[f]? with
    | some pointer => exact h.objects
    | none =>
      simp only
      split_ifs
      · exact h.objects
      · have hfill := s.makeCollection.2.process.fillBlocks_empty_filled n
        exact h.makeCollection.objects_setContent (hfill.nextRef ▸ Nat.le_add_right _ _)
          (fillBlocks_allocated _ n)
  | removeFile f =>
    simp only [SharedStore.call, removeFile]
    cases s.files_[f]? with
    | none => exact h.objects
    | some pointer => exact h.objects
  | getBlockMetadata f i => exact h.objects
  | getBlockCount f => exact h.objects
  | modifyBlock f i =>
    simp only [SharedStore.call, modifyBlock]
    rcases s.files_[f]? with _ | _ | collection
    · exact h.objects
    · exact h.objects
    · simp only
      cases hentry : (s.collections collection)[i - 1]? with
      | none => exact h.objects
      | some existing =>
        refine h.objects_setContent (Nat.le_refl _) fun key r hr => ?_
        rw [getElem?_insert_index] at hr
        split_ifs at hr
        · obtain rfl := Option.some.inj hr
          exact h.objects collection _ _ hentry
        · exact h.objects collection key r hr
  | insertBlock f i =>
    simp only [SharedStore.call, insertBlock]
    rcases s.files_[f]? with _ | _ | collection
    · exact h.objects
    · exact fun c key r hr => Nat.lt_succ_of_lt (h.objects c key r hr)
    · refine h.objects_setContent (Nat.le_succ _) fun key r hr => ?_
      rcases World.insertAt_origin hr with ⟨_, rfl⟩ | ⟨j, hj, _⟩
      · exact Nat.lt_succ_self _
      · exact Nat.lt_succ_of_lt (h.objects collection j r hj)
  | deleteBlock f i =>
    simp only [SharedStore.call, deleteBlock]
    rcases s.files_[f]? with _ | _ | collection
    · exact h.objects
    · exact h.objects
    · simp only
      cases (s.collections collection)[i - 1]? with
      | none => exact h.objects
      | some existing =>
        refine h.objects_setContent (w := s.process) (Nat.le_refl _) fun key r hr => ?_
        obtain ⟨j, _, hj, _⟩ := World.deleteAt_origin hr
        exact h.objects collection j r hj

theorem Allocated.call (h : s.Allocated) (storeCall : StoreCall) :
    (s.call storeCall).2.Allocated := by
  refine ⟨fun f c hf => ?_, h.objects_call storeCall⟩
  rcases s.call_files storeCall with ⟨hfiles, hnext⟩ | ⟨g, hg, hfiles, hnext⟩ | ⟨g, hfiles, hnext⟩
  · rw [hfiles] at hf
    rw [hnext]
    exact h.pointers f c hf
  · rw [hfiles, ExtTreeMap.getElem?_insert] at hf
    rw [hnext]
    split_ifs at hf
    · obtain rfl := Option.some.inj (Option.some.inj hf)
      exact Nat.lt_succ_self _
    · exact Nat.lt_succ_of_lt (h.pointers f c hf)
  · rw [hfiles, ExtTreeMap.getElem?_erase] at hf
    rw [hnext]
    split_ifs at hf
    exact h.pointers f c hf

theorem Allocated.step (h : s.Allocated) {sharedCall : SharedCall κ} (hheld : s.Held sharedCall) :
    (s.step sharedCall).2.Allocated := by
  cases sharedCall with
  | store storeCall => exact h.call storeCall
  | listFiles => exact h
  | getBlockMetadataCollection f => exact h
  | setBlockMetadataCollection f pointer =>
    simp only [SharedStore.step, setBlockMetadataCollection]
    cases s.files_[f]? with
    | none => exact h
    | some old =>
      refine ⟨fun g c hg => ?_, h.objects⟩
      rw [files_putPointer] at hg
      split_ifs at hg
      · obtain rfl := Option.some.inj hg
        exact hheld
      · exact h.pointers g c hg
  | makeCollection => exact h.makeCollection
  | setThrough c i m =>
    refine ⟨h.pointers, h.objects_setContent (Nat.le_succ _) fun key r hr => ?_⟩
    rw [getElem?_insert_index] at hr
    split_ifs at hr
    · obtain rfl := Option.some.inj hr
      exact Nat.lt_succ_self _
    · exact Nat.lt_succ_of_lt (h.objects c key r hr)

end SharedStore

end DHTDynamic
