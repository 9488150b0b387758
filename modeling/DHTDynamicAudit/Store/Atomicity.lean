import DHTDynamicAudit.Store.Batches

/-!
# Requests that throw half way

A handler applies each index before it looks at the next. A request that throws
leaves the store as it was exactly when no index fails after another has been
applied; the theorem states this on the store before the request.
-/

namespace DHTDynamic

open Core

namespace World

variable {κ : Type} {w t : World κ} {fileId : Bytes} {ext : DHTDynamicMaintainExt}

/-- Two stores show the same files, the same indices, and the same metadata at each. -/
def SameBlocks (w t : World κ) : Prop :=
  ∀ f, t.hasFile f = w.hasFile f ∧ ∀ key, t.metadataAt f key = w.metadataAt f key

theorem SameBlocks.refl (w : World κ) : w.SameBlocks w := fun _ => ⟨rfl, fun _ => rfl⟩

/-- If the request throws, it has not changed what the store shows. -/
def AllOrNothing [MetadataClass κ] (w : World κ) (input : MaintainRequest) : Prop :=
  ∀ e, (w.maintenance input).1 = .error e → w.SameBlocks (w.maintenance input).2

/-- Once the first index can be applied, so can every other one in its turn: an Update never
changes that, a Delete renumbers the blocks after it. -/
def NoLateFailure (w : World κ) (ext : DHTDynamicMaintainExt) : Prop :=
  match ext.blockIndices with
  | [] => True
  | i :: is =>
    (ext.opType = MaintenanceOpType.Update → w.Updatable ext.fileId i →
      ∀ j ∈ is, w.Updatable ext.fileId j) ∧
    (ext.opType = MaintenanceOpType.Delete → (w.entry ext.fileId (i - 1)).isSome →
      ∀ place ∈ origins (places (i :: is)), (w.entryNat ext.fileId place).isSome)

/-- The shown blocks have the same indices. -/
theorem SameBlocks.entryNat_isSome (h : w.SameBlocks t) (fileId : Bytes) (place : Nat) :
    (t.entryNat fileId place).isSome = (w.entryNat fileId place).isSome := by
  by_cases hlt : place < 2 ^ 64
  · have hkey := (h fileId).2 (UInt64.ofNat place)
    rw [← toNat_ofNat_lt hlt, entryNat_toNat, entryNat_toNat]
    simpa [metadataAt] using congrArg Option.isSome hkey
  · have hnone : ∀ u : World κ, u.entryNat fileId place = none := by
      intro u
      rw [entryNat]
      cases u.files_[fileId]? with
      | none => rfl
      | some collection => exact readNat_of_ge collection (Nat.not_lt.mp hlt)
    rw [hnone, hnone]

/-! ## Update -/

/-- An object named by the first index has another version after the loop got past it. -/
theorem not_sameBlocks_of_updated {i : SizeT} {is : List SizeT}
    (hsize : (i :: is).length < 2 ^ 64) (hi : w.Updatable fileId i)
    (h : w.Updated fileId (i :: is) t) : ¬ w.SameBlocks t := by
  intro hsame
  obtain ⟨r, m, hr, hm⟩ := hi
  obtain ⟨second, hs⟩ := h.versioned r m hm
  have hkey := (hsame fileId).2 (i - 1)
  have hentry : t.entry fileId (i - 1) = some r := by rw [entry, h.files]; exact hr
  simp only [metadataAt, hr, hentry, Option.map_some, hs, hm, Option.some.injEq,
    BlockMetadata.versioned.injEq] at hkey
  have hversion := congrArg VersionedBlockMetadata.version hkey
  simp only [add_eq_left] at hversion
  -- the bumps of one request are fewer than the versions
  have hle : w.occurrences fileId (i :: is) r ≤ (i :: is).length := List.countP_le_length
  have hpos : 0 < w.occurrences fileId (i :: is) r :=
    List.countP_pos_iff.mpr ⟨i, List.mem_cons_self, by simpa using hr⟩
  have hzero := congrArg UInt64.toNat hversion
  rw [toNat_ofNat_lt (Nat.lt_of_le_of_lt hle hsize)] at hzero
  exact Nat.ne_of_gt hpos hzero

theorem updateLoop_sameBlocks_iff [MetadataClass κ] {i : SizeT} {is : List SizeT}
    (hsize : (i :: is).length < 2 ^ 64) :
    (∀ e, (forEach (updateOne fileId) w (i :: is)).1 = .error e →
        w.SameBlocks (forEach (updateOne fileId) w (i :: is)).2) ↔
      (w.Updatable fileId i → ∀ j ∈ is, w.Updatable fileId j) := by
  have hthrow : ∀ (u : World κ) j e, (updateOne fileId u j).1 = .error e →
      (updateOne fileId u j).2 = u := by
    intro u j e he
    by_cases hj : u.Updatable fileId j
    · obtain ⟨r, m, hr, hm⟩ := hj
      rw [updateOne_ok hr hm] at he
      cases he
    · obtain ⟨e', he'⟩ := updateOne_error hj
      rw [he']
  rw [forEach_keeps_on_error_iff hthrow (.refl w), updateLoop_ok_iff, updateOne_ok_iff,
    List.forall_mem_cons]
  · exact ⟨fun h hi => (h hi).2, fun h hi => ⟨hi, h hi⟩⟩
  · intro before t hlen hbefore
    have hupdated := updateLoop_updated hbefore
    have hi := updateLoop_ok_iff.mp (congrArg Prod.fst hbefore) i List.mem_cons_self
    refine not_sameBlocks_of_updated ?_ hi hupdated
    rw [List.length_cons] at hsize ⊢
    omega

/-! ## Delete -/

/-- The greatest occupied place of a file is free after a removal at or below it. -/
theorem not_sameBlocks_of_deleted {i : SizeT} {ds : List Nat}
    (hi : (w.entry fileId (i - 1)).isSome) (h : w.Deleted fileId ((i - 1).toNat :: ds) t) :
    ¬ w.SameBlocks t := by
  intro hsame
  obtain ⟨r, hr⟩ := Option.isSome_iff_exists.mp hi
  obtain ⟨collection, hfile, hentry⟩ := exists_collection_of_entry hr
  obtain ⟨greatest, hle, hsome, hfree⟩ := exists_greatest (Option.isSome_of_eq_some hentry)
  have hread : ∀ place, w.entryNat fileId place = readNat collection place := by
    intro place
    rw [entryNat, hfile, Option.bind_some]
  have hafter := hsame.entryNat_isSome fileId greatest
  rw [h.entries, hread, hread, hsome, hfree _ (lt_restoreAll_cons ds hle)] at hafter
  cases hafter

theorem deleteLoop_sameBlocks_iff {i : SizeT} {is : List SizeT} :
    (∀ e, (forEach (fun w i => w.deleteBlock fileId i) w (i :: is)).1 = .error e →
        w.SameBlocks (forEach (fun w i => w.deleteBlock fileId i) w (i :: is)).2) ↔
      ((w.entry fileId (i - 1)).isSome →
        ∀ place ∈ origins (places (i :: is)), (w.entryNat fileId place).isSome) := by
  have hthrow : ∀ (u : World κ) j e, (u.deleteBlock fileId j).1 = .error e →
      (u.deleteBlock fileId j).2 = u := by
    intro u j e he
    cases hj : u.entry fileId (j - 1) with
    | some r =>
      rw [(deleteBlock_deleted hj).1] at he
      cases he
    | none =>
      obtain ⟨e', he'⟩ := deleteBlock_error hj
      rw [he']
  rw [forEach_keeps_on_error_iff hthrow (.refl w), deleteLoop_ok_iff, deleteBlock_ok_iff]
  intro before t _ hbefore
  have hi := deleteLoop_ok_iff.mp (congrArg Prod.fst hbefore) _ List.mem_cons_self
  exact not_sameBlocks_of_deleted (by rwa [entryNat_toNat] at hi) (deleteLoop_deleted hbefore)

/-! ## The request -/

/-- Behind the guards: only the two loops that can fail half way matter. -/
theorem allOrNothing_iff_of_dispatches [MetadataClass κ] (hd : w.Dispatches ext) :
    w.AllOrNothing ⟨.typed ext⟩ ↔ w.NoLateFailure ext := by
  have hsize := ext.sized
  have hrefl : w.SameBlocks w.now.2 := .refl w
  rw [AllOrNothing, maintenance_of_dispatches hd, NoLateFailure]
  by_cases hu : ext.opType = MaintenanceOpType.Update
  · have hnd : ext.opType ≠ MaintenanceOpType.Delete := by rw [hu]; decide
    rw [if_pos hu, handleUpdate]
    cases hlist : ext.blockIndices with
    | nil => exact ⟨fun _ => trivial, fun _ _ _ => hrefl⟩
    | cons i is =>
      rw [hlist] at hsize
      rw [if_neg (by simp)]
      refine Iff.trans (updateLoop_sameBlocks_iff hsize) ?_
      exact ⟨fun h => ⟨fun _ => h, fun hdel => absurd hdel hnd⟩, fun h => h.1 hu⟩
  rw [if_neg hu]
  by_cases hi : ext.opType = MaintenanceOpType.Insert
  · have hnd : ext.opType ≠ MaintenanceOpType.Delete := by rw [hi]; decide
    rw [if_pos hi, handleInsert]
    cases hlist : ext.blockIndices with
    | nil => exact ⟨fun _ => trivial, fun _ _ _ => hrefl⟩
    | cons i is =>
      have hhas : w.now.2.hasFile ext.fileId = true := hd.2.2
      rw [if_neg (by simp), (insertLoop_ok hhas).1]
      exact ⟨fun _ => ⟨fun h => absurd h hu, fun h => absurd h hnd⟩, fun _ _ h => (by cases h)⟩
  rw [if_neg hi]
  by_cases hdel : ext.opType = MaintenanceOpType.Delete
  · rw [if_pos hdel, handleDelete]
    cases hlist : ext.blockIndices with
    | nil => exact ⟨fun _ => trivial, fun _ _ _ => hrefl⟩
    | cons i is =>
      rw [if_neg (by simp)]
      refine Iff.trans deleteLoop_sameBlocks_iff ?_
      exact ⟨fun h => ⟨fun hupd => absurd hupd hu, fun _ => h⟩, fun h => h.2 hdel⟩
  rw [if_neg hdel]
  refine ⟨fun _ => ?_, fun _ _ _ => hrefl⟩
  split
  · trivial
  · exact ⟨fun h => absurd h hu, fun h => absurd h hdel⟩

/-- For every store and every request: a throwing request changes nothing exactly when it fails
a guard, has no index list, is neither an Update nor a Delete, or has no late failure. -/
theorem maintenance_allOrNothing_iff [MetadataClass κ] (w : World κ) (input : MaintainRequest) :
    w.AllOrNothing input ↔
      ∀ ext, input.ext = .typed ext → w.Dispatches ext → w.NoLateFailure ext := by
  obtain ⟨_ | _ | ext⟩ := input
  · exact ⟨fun _ _ h => (by cases h), fun _ _ _ => .refl w⟩
  · exact ⟨fun _ _ h => (by cases h), fun _ _ _ => .refl w⟩
  by_cases hd : w.Dispatches ext
  · rw [allOrNothing_iff_of_dispatches hd]
    exact ⟨fun h _ he _ => BasePtr.typed.inj he ▸ h, fun h => h ext rfl hd⟩
  · obtain ⟨e, he⟩ := maintenance_of_not_dispatches hd
    refine ⟨fun _ _ hext h => absurd (BasePtr.typed.inj hext ▸ h) hd, fun _ e' _ => ?_⟩
    rw [he]
    exact .refl w

/-- The first index is deleted before the second is found to be missing. -/
theorem maintenance_delete_half_applied :
    ¬ fiveBlocks.AllOrNothing ⟨.typed ⟨[7], .Delete, [1, 9], true, by decide⟩⟩ := by
  intro h
  have hsame := h (.blockNull .deleteBlock 9 [7]) (by decide)
  exact absurd ((hsame [7]).2 4) (by decide)

end World

end DHTDynamic
