import DHTDynamicAudit.Store.Batches

/-!
# Deleting several blocks in one request

The indices of a Delete request name blocks at the time each one is reached. On
a file without gaps the request removes the blocks its list names before the
request exactly when the list strictly decreases.
-/

namespace DHTDynamic

open Core

namespace World

variable {κ : Type} {w : World κ} {objects : List Ref} {ext : DHTDynamicMaintainExt}

/-- The request succeeds, and the file holds exactly the objects at the indices it did not
name, in their order and with their metadata. -/
def RemovesNamed [MetadataClass κ] (w : World κ) (ext : DHTDynamicMaintainExt)
    (objects : List Ref) : Prop :=
  (w.maintenance ⟨.typed ext⟩).1 = .ok () ∧
    (w.maintenance ⟨.typed ext⟩).2.Holds ext.fileId
      (survivors objects fun place => place + 1 ∉ ext.blockIndices.map UInt64.toNat) ∧
    (w.maintenance ⟨.typed ext⟩).2.heap = w.heap

theorem pairwise_places_iff {blockIndices : List SizeT} (hpositive : ∀ i ∈ blockIndices, i ≠ 0) :
    (places blockIndices).Pairwise (· > ·) ↔ blockIndices.Pairwise (· > ·) := by
  rw [places, List.pairwise_map]
  exact List.Pairwise.iff_of_mem fun hi hj => toNat_pred_lt_iff (hpositive _ hj) (hpositive _ hi)

/-- From the back every index still names its block, so the named blocks are removed. -/
theorem removesNamed_of_pairwise [MetadataClass κ] (hholds : w.Holds ext.fileId objects)
    (hop : ext.opType = MaintenanceOpType.Delete) (hdispatch : w.Dispatches ext)
    (hrange : ∀ i ∈ ext.blockIndices, 1 ≤ i.toNat ∧ i.toNat ≤ objects.length)
    (hne : ext.blockIndices ≠ []) (hdecreasing : ext.blockIndices.Pairwise (· > ·)) :
    w.RemovesNamed ext objects := by
  have hpositive : ∀ i ∈ ext.blockIndices, i ≠ 0 :=
    fun i hi => one_le_toNat_iff.mp (hrange i hi).1
  have hself := origins_eq_self ((pairwise_places_iff hpositive).mpr hdecreasing)
  have hholds' : w.now.2.Holds ext.fileId objects := hholds
  rw [RemovesNamed, maintenance_delete hdispatch hop hne]
  have hok := deleteLoop_ok_iff.mpr fun place hplace => by
    rw [hself, mem_places_iff hpositive] at hplace
    obtain ⟨i, hi, he⟩ := List.mem_map.mp hplace
    obtain ⟨_, hle⟩ := hrange i hi
    have hlt : place < objects.length := by omega
    rw [hholds'.entryNat, List.getElem?_eq_getElem hlt, Option.isSome_some]
  obtain ⟨t, ht⟩ : ∃ t, forEach (fun w i => w.deleteBlock ext.fileId i) w.now.2
      ext.blockIndices = (.ok (), t) := ⟨_, Prod.ext hok rfl⟩
  have hdel := deleteLoop_deleted ht
  rw [ht]
  refine ⟨rfl, ?_, hdel.heap⟩
  have hlists := hholds'.deleted hdel
  rw [foldl_eraseIdx, hself] at hlists
  simpa only [mem_places_iff hpositive] using hlists

/-- Removing the named objects from a file without repetitions takes a decreasing list: any
other order names a block by a shifted index. -/
theorem pairwise_of_removesNamed [MetadataClass κ] (hholds : w.Holds ext.fileId objects)
    (hobjects : objects.Nodup) (hop : ext.opType = MaintenanceOpType.Delete)
    (hdispatch : w.Dispatches ext) (hdistinct : ext.blockIndices.Nodup)
    (hrange : ∀ i ∈ ext.blockIndices, 1 ≤ i.toNat ∧ i.toNat ≤ objects.length)
    (hne : ext.blockIndices ≠ []) (h : w.RemovesNamed ext objects) :
    ext.blockIndices.Pairwise (· > ·) := by
  have hpositive : ∀ i ∈ ext.blockIndices, i ≠ 0 :=
    fun i hi => one_le_toNat_iff.mp (hrange i hi).1
  have hholds' : w.now.2.Holds ext.fileId objects := hholds
  rw [RemovesNamed, maintenance_delete hdispatch hop hne] at h
  obtain ⟨hok, hafter, _⟩ := h
  have hdel := deleteLoop_deleted (Prod.ext hok rfl)
  have hkeep := (hholds'.deleted hdel).unique hafter
  rw [foldl_eraseIdx] at hkeep
  have hplaces : (places ext.blockIndices).Nodup := by
    refine hdistinct.map fun i j hij => ?_
    exact sub_left_injective (UInt64.toNat_inj.mp hij)
  -- both lists of removed places have the same length, so containment makes them equal
  have hsubset : places ext.blockIndices ⊆ origins (places ext.blockIndices) := by
    intro place hplace
    have hmem := (mem_places_iff hpositive place).mp hplace
    obtain ⟨i, hi, he⟩ := List.mem_map.mp hmem
    obtain ⟨_, hle⟩ := hrange i hi
    have heq := keep_eq_of_survivors_eq hobjects hkeep (k := place) (by omega)
    simpa [hmem] using heq
  have hperm := (List.subperm_of_subset hplaces hsubset).perm_of_length_le
    (by rw [length_origins])
  exact (pairwise_places_iff hpositive).mp
    (pairwise_gt_of_sum_origins_le (Nat.le_of_eq hperm.sum_eq.symm))

/-- A Delete request on distinct valid indices removes exactly the blocks they name before the
request if and only if it names a file and lists the indices in strictly decreasing order. -/
theorem maintenance_delete_removesNamed_iff [MetadataClass κ] (w : World κ)
    (ext : DHTDynamicMaintainExt) (objects : List Ref) (hholds : w.Holds ext.fileId objects)
    (hobjects : objects.Nodup) (hop : ext.opType = MaintenanceOpType.Delete)
    (hstore : ext.stateStore = true) (hdistinct : ext.blockIndices.Nodup)
    (hrange : ∀ i ∈ ext.blockIndices, 1 ≤ i.toNat ∧ i.toNat ≤ objects.length) :
    w.RemovesNamed ext objects ↔
      ext.fileId ≠ [] ∧ ext.blockIndices ≠ [] ∧ ext.blockIndices.Pairwise (· > ·) := by
  constructor
  · intro h
    obtain ⟨hdispatch, hne, _⟩ := maintenance_ok_iff.mp h.1
    exact ⟨hdispatch.1, hne,
      pairwise_of_removesNamed hholds hobjects hop hdispatch hdistinct hrange hne h⟩
  · rintro ⟨hfile, hne, hdecreasing⟩
    have hdispatch : w.Dispatches ext := ⟨hfile, hstore, hholds.hasFile⟩
    exact removesNamed_of_pairwise hholds hop hdispatch hrange hne hdecreasing

/-- Five blocks removed from the back to the front. -/
theorem maintenance_delete_removesNamed_descending :
    fiveBlocks.RemovesNamed ⟨[7], .Delete, [5, 3, 1], true, by decide⟩ [0, 1, 2, 3, 4] :=
  (maintenance_delete_removesNamed_iff fiveBlocks ⟨[7], .Delete, [5, 3, 1], true, by decide⟩
    [0, 1, 2, 3, 4] fiveBlocks_holds (by decide) rfl rfl (by decide) (by simp)).mpr (by decide)

/-- The list of the unit test on a store that shifts: its last index is past the end by then. -/
theorem maintenance_delete_ascending_fails :
    let ext : DHTDynamicMaintainExt := ⟨[7], .Delete, [1, 3, 5], true, by decide⟩
    fiveBlocks.Holds [7] [0, 1, 2, 3, 4] ∧ fiveBlocks.WellFormed ∧ ext.blockIndices.Nodup ∧
      (∀ i ∈ ext.blockIndices, 1 ≤ i.toNat ∧ i.toNat ≤ 5) ∧
      ¬ fiveBlocks.RemovesNamed ext [0, 1, 2, 3, 4] := by
  refine ⟨fiveBlocks_holds, fiveBlocks_wellFormed, by decide, by simp, fun h => ?_⟩
  exact absurd h.1 (by decide)

end World

end DHTDynamic
