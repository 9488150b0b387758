import DHTDynamicAudit.Core.Insertions
import DHTDynamicAudit.Store.Batches

/-!
# Inserting several blocks in one request

The indices of an Insert request name positions at the time each one is reached.
When they strictly increase, a position reached is final: no later insertion
moves it, so the new blocks end at the indices the request names.
-/

namespace DHTDynamic

open Core

namespace World

variable {κ : Type} {w t : World κ} {fileId : Bytes} {objects : List Ref}
  {blockIndices : List SizeT} {ext : DHTDynamicMaintainExt}

/-! ## The Insert loop -/

/-- The objects the loop allocates, each at the 0-based place its index names. -/
def freshEntries (w : World κ) (blockIndices : List SizeT) : List (Nat × Ref) :=
  (places blockIndices).zip (List.range' w.nextRef blockIndices.length)

theorem freshEntries_cons (w : World κ) (i : SizeT) (blockIndices : List SizeT) :
    w.freshEntries (i :: blockIndices) = ((i - 1).toNat, w.nextRef) ::
      (places blockIndices).zip (List.range' (w.nextRef + 1) blockIndices.length) := by
  rw [freshEntries, places, List.map_cons, List.length_cons, List.range'_succ,
    List.zip_cons_cons, places]

theorem map_fst_freshEntries (w : World κ) (blockIndices : List SizeT) :
    (w.freshEntries blockIndices).map Prod.fst = places blockIndices := by
  apply List.map_fst_zip
  rw [places, List.length_map, List.length_range']

theorem length_freshEntries (w : World κ) (blockIndices : List SizeT) :
    (w.freshEntries blockIndices).length = blockIndices.length := by
  rw [← List.length_map (f := Prod.fst), map_fst_freshEntries, places, List.length_map]

theorem getElem?_freshEntries (w : World κ) {j : Nat} {i : SizeT}
    (hj : blockIndices[j]? = some i) :
    (w.freshEntries blockIndices)[j]? = some ((i - 1).toNat, w.nextRef + j) := by
  have hlt : j < blockIndices.length := (List.getElem?_eq_some_iff.mp hj).1
  rw [freshEntries, List.getElem?_zip_eq_some, places, List.getElem?_map, hj,
    List.getElem?_range' hlt, Nat.one_mul]
  exact ⟨rfl, rfl⟩

/-- What the Insert loop leaves: every index inserted in turn, each with a fresh object. -/
structure Inserted (w : World κ) (fileId : Bytes) (objects : List Ref)
    (blockIndices : List SizeT) (t : World κ) : Prop where
  holds : t.Holds fileId (insertEach objects (w.freshEntries blockIndices))
  old : ∀ r, r < w.nextRef → t.heap r = w.heap r
  fresh : ∀ j, j < blockIndices.length →
    t.heap (w.nextRef + j) = w.metadataFactory_ (w.clock.get j)

theorem insertLoop_inserted (hholds : w.Holds fileId objects)
    (hpositive : ∀ i ∈ blockIndices, i ≠ 0)
    (hwithin : InsertsWithin objects.length (places blockIndices))
    (hroom : objects.length + blockIndices.length < 2 ^ 64) :
    w.Inserted fileId objects blockIndices
      (forEach (fun w i => w.insertBlock fileId i) w blockIndices).2 := by
  induction blockIndices generalizing w objects with
  | nil => exact ⟨hholds, fun _ _ => rfl, fun _ hj => absurd hj (Nat.not_lt_zero _)⟩
  | cons i is ih =>
    obtain ⟨hz, hpositive⟩ := List.forall_mem_cons.mp hpositive
    obtain ⟨hle, hwithin⟩ := insertsWithin_cons.mp hwithin
    have hp : i.toNat - 1 ≤ objects.length := (toNat_pred hz).symm.trans_le hle
    have hlength := List.length_insertIdx_of_le_length hp w.nextRef
    rw [List.length_cons] at hroom
    have hstep := hholds.insertBlock hz (by omega) (by omega)
    obtain ⟨collection, hfile, _⟩ := hholds
    rw [forEach_cons_of_ok (by rw [insertBlock_ok hfile])]
    have hrest := ih hstep hpositive (hlength ▸ hwithin) (by omega)
    rw [insertBlock_ok hfile] at hrest ⊢
    refine ⟨?_, fun r hr => ?_, fun j hj => ?_⟩
    · rw [freshEntries_cons, insertEach_cons, toNat_pred hz]
      exact hrest.holds
    · rw [hrest.old r (Nat.lt_succ_of_lt hr), heap_putCollection, heap_createMetadata,
        Function.update_of_ne (Nat.ne_of_lt hr)]
    · cases j with
      | zero =>
        have hfirst := hrest.old w.nextRef (Nat.lt_succ_self _)
        rw [heap_putCollection, heap_createMetadata, Function.update_self] at hfirst
        exact hfirst
      | succ j =>
        have hindex : w.nextRef + (j + 1) = w.nextRef + 1 + j :=
          (Nat.succ_add_eq_add_succ _ _).symm
        rw [hindex]
        exact hrest.fresh j (Nat.lt_of_succ_lt_succ hj)

/-! ## The request -/

/-- The file has one block more for every index; exactly the named places hold fresh objects, in
the order of the list and from the clock readings of its passes, and the other places hold the old
objects in their order, with their metadata. -/
structure PlacesNamed (w : World κ) (blockIndices : List SizeT) (objects : List Ref)
    (t : World κ) (objects' : List Ref) : Prop where
  length : objects'.length = objects.length + blockIndices.length
  fresh : ∀ place r, objects'[place]? = some r →
    (w.nextRef ≤ r ↔ place + 1 ∈ blockIndices.map UInt64.toNat)
  created : ∀ j i, blockIndices[j]? = some i → objects'[i.toNat - 1]? = some (w.nextRef + j) ∧
    t.heap (w.nextRef + j) = w.metadataFactory_ (w.clock.get (j + 1))
  kept : survivors objects' (fun place => place + 1 ∉ blockIndices.map UInt64.toNat) = objects
  unchanged : ∀ r, r < w.nextRef → t.heap r = w.heap r

theorem pairwise_places (hpositive : ∀ i ∈ blockIndices, i ≠ 0)
    (h : blockIndices.Pairwise (· < ·)) : (places blockIndices).Pairwise (· < ·) := by
  rw [places, List.pairwise_map]
  refine h.imp_of_mem fun {i j} hi hj hij => ?_
  exact (toNat_pred_lt_iff (hpositive i hi) (hpositive j hj)).mpr hij

/-- The loop on a strictly increasing list leaves every new block at the index it names. -/
theorem Inserted.placesNamed (hw : w.WellFormed) (hholds : w.Holds fileId objects)
    (hpositive : ∀ i ∈ blockIndices, i ≠ 0) (hincreasing : blockIndices.Pairwise (· < ·))
    (hwithin : InsertsWithin objects.length (places blockIndices))
    (h : w.now.2.Inserted fileId objects blockIndices t) :
    w.PlacesNamed blockIndices objects t
      (insertEach objects (w.now.2.freshEntries blockIndices)) := by
  have hfst := map_fst_freshEntries w.now.2 blockIndices
  have hplaces := pairwise_places hpositive hincreasing
  have hkept := survivors_insertEach (l := objects) (hfst ▸ hplaces)
  rw [← hfst] at hwithin hplaces
  have hcreated : ∀ j i, blockIndices[j]? = some i →
      (insertEach objects (w.now.2.freshEntries blockIndices))[i.toNat - 1]? =
        some (w.nextRef + j) := by
    intro j i hj
    rw [← toNat_pred (hpositive i (List.mem_of_getElem? hj))]
    exact getElem?_insertEach hplaces hwithin (getElem?_freshEntries w.now.2 hj)
  simp only [hfst, mem_places_iff hpositive] at hkept
  refine ⟨?_, fun place r hr => ⟨fun hle => ?_, fun hmem => ?_⟩, fun j i hj => ⟨?_, ?_⟩, hkept,
    h.old⟩
  · rw [length_insertEach hwithin, length_freshEntries]
  · -- an old object is registered, so it was allocated before
    by_contra hmem
    have hold : r ∈ objects := by
      rw [← hkept, mem_survivors]
      exact ⟨place, hr, decide_eq_true hmem⟩
    obtain ⟨key, hkey⟩ := hholds.mem_iff.mp hold
    exact absurd (hw.allocated fileId key r hkey) (Nat.not_lt.mpr hle)
  · obtain ⟨i, hi, he⟩ := List.mem_map.mp hmem
    obtain ⟨j, hj⟩ := List.mem_iff_getElem?.mp hi
    have hplace : i.toNat - 1 = place := by omega
    have hat := hcreated j i hj
    rw [hplace, hr] at hat
    rw [Option.some.inj hat]
    exact Nat.le_add_right _ _
  · exact hcreated j i hj
  · exact h.fresh j (List.getElem?_eq_some_iff.mp hj).1

/-- An Insert request with strictly increasing indices, each valid once it is reached, puts every
new block at the index it names exactly when it names a file and has an index. -/
theorem maintenance_insert_placesNamed_iff [MetadataClass κ] (w : World κ) (hw : w.WellFormed)
    (ext : DHTDynamicMaintainExt) (objects : List Ref) (hholds : w.Holds ext.fileId objects)
    (hop : ext.opType = MaintenanceOpType.Insert) (hstore : ext.stateStore = true)
    (hincreasing : ext.blockIndices.Pairwise (· < ·))
    (hrange : ∀ j i, ext.blockIndices[j]? = some i →
      1 ≤ i.toNat ∧ i.toNat ≤ objects.length + (j + 1))
    (hroom : objects.length + ext.blockIndices.length < 2 ^ 64) :
    ((w.maintenance ⟨.typed ext⟩).1 = .ok () ∧ ∃ objects',
      (w.maintenance ⟨.typed ext⟩).2.Holds ext.fileId objects' ∧
      w.PlacesNamed ext.blockIndices objects (w.maintenance ⟨.typed ext⟩).2 objects') ↔
    ext.fileId ≠ [] ∧ ext.blockIndices ≠ [] := by
  constructor
  · rintro ⟨hok, -⟩
    obtain ⟨hdispatch, hne, _⟩ := maintenance_ok_iff.mp hok
    exact ⟨hdispatch.1, hne⟩
  · rintro ⟨hfile, hne⟩
    have hpositive : ∀ i ∈ ext.blockIndices, i ≠ 0 := by
      intro i hi
      obtain ⟨j, hj⟩ := List.mem_iff_getElem?.mp hi
      exact one_le_toNat_iff.mp (hrange j i hj).1
    have hwithin : InsertsWithin objects.length (places ext.blockIndices) := by
      intro j p hp
      rw [places, List.getElem?_map] at hp
      obtain ⟨i, hj, rfl⟩ := Option.map_eq_some_iff.mp hp
      obtain ⟨h1, hle⟩ := hrange j i hj
      rw [toNat_pred (one_le_toNat_iff.mp h1)]
      omega
    have hholds' : w.now.2.Holds ext.fileId objects := hholds
    have hdispatch : w.Dispatches ext := ⟨hfile, hstore, hholds.hasFile⟩
    have hinserted := insertLoop_inserted hholds' hpositive hwithin hroom
    rw [maintenance_insert hdispatch hop hne]
    exact ⟨(insertLoop_ok hholds'.hasFile).1, _, hinserted.holds,
      hinserted.placesNamed hw hholds hpositive hincreasing hwithin⟩

/-- The five blocks of a file with a new first, third and last block. -/
theorem maintenance_insert_placesNamed_spread :
    let ext : DHTDynamicMaintainExt := ⟨[7], .Insert, [1, 3, 8], true, by decide⟩
    (fiveBlocks.maintenance ⟨.typed ext⟩).1 = .ok () ∧ ∃ objects',
      (fiveBlocks.maintenance ⟨.typed ext⟩).2.Holds [7] objects' ∧
      fiveBlocks.PlacesNamed [1, 3, 8] [0, 1, 2, 3, 4] (fiveBlocks.maintenance ⟨.typed ext⟩).2
        objects' := by
  refine (maintenance_insert_placesNamed_iff fiveBlocks fiveBlocks_wellFormed
    ⟨[7], .Insert, [1, 3, 8], true, by decide⟩ [0, 1, 2, 3, 4] fiveBlocks_holds rfl rfl
    (by decide) (fun j i hj => ?_) (by decide)).mpr (by decide)
  match j, hj with
  | 0, hj | 1, hj | 2, hj =>
    obtain rfl := Option.some.inj hj
    decide

/-- An empty list of indices is refused, and so is a file the store keeps under the empty name. -/
theorem maintenance_insert_refuses :
    let noIndex : DHTDynamicMaintainExt := ⟨[7], .Insert, [], true, by decide⟩
    let noName : DHTDynamicMaintainExt := ⟨[], .Insert, [2], true, by decide⟩
    let unnamed : World Empty :=
      ((empty defaultMetadataFactory (Stream'.const 0)).addFileWithBlocks [] 1).2
    fiveBlocks.Holds [7] [0, 1, 2, 3, 4] ∧ unnamed.Holds [] [0] ∧
      (fiveBlocks.maintenance ⟨.typed noIndex⟩).1 = .error (.blockIndicesRequired "Insert") ∧
      (unnamed.maintenance ⟨.typed noName⟩).1 = .error .maintenanceFileIdRequired :=
  ⟨fiveBlocks_holds, holds_addFileWithBlocks (by simp [empty]) (by decide), by decide, by decide⟩

end World

end DHTDynamic
