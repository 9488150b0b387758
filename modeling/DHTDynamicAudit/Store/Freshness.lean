import DHTDynamicAudit.Store.Batches

/-!
# Reuse of hash inputs at a position

A tag for block `i` is computed over the metadata found at `i`. `FileHistory`
replays the requests and the clock on block identities alone. The metadata at a
position comes back exactly when two different blocks stand there with as many
updates and the same second of their last write; an updated block never reuses
its own.
-/

namespace DHTDynamic

open Core

/-! ## The history of a file -/

/-- A block as the requests and the clock determine it. -/
structure TrackedBlock where
  ref : Ref
  /-- Updates since the block was created. -/
  updates : Nat
  /-- The second of its creation or last update. -/
  written : UInt64
  deriving DecidableEq, Repr

/-- The blocks of a file by position, the next reference and the coming clock readings. -/
structure FileHistory where
  blocks : List TrackedBlock
  nextRef : Ref
  clock : Stream' UInt64

namespace FileHistory

/-- A clock reading passes unused. -/
def tick (h : FileHistory) : FileHistory := { h with clock := h.clock.tail }

/-- One index of a request takes effect. -/
def applyIndex (opType : MaintenanceOpType) (h : FileHistory) (i : SizeT) : Unit × FileHistory :=
  if opType = MaintenanceOpType.Update then
    ((), { h.tick with blocks := h.blocks.modify (i.toNat - 1) fun b =>
      { b with updates := b.updates + 1, written := h.clock.head } })
  else if opType = MaintenanceOpType.Insert then
    ((), { h.tick with
      blocks := h.blocks.insertIdx (i.toNat - 1) ⟨h.nextRef, 0, h.clock.head⟩
      nextRef := h.nextRef + 1 })
  else
    ((), { h with blocks := h.blocks.eraseIdx (i.toNat - 1) })

/-- The index is in range when its turn comes: `1..n + 1` for an Insert, else `1..n`. -/
def IndexInRange (opType : MaintenanceOpType) (h : FileHistory) (i : SizeT) : Prop :=
  if opType = MaintenanceOpType.Insert then i ≠ 0 ∧ i ≤ UInt64.ofNat h.blocks.length + 1
  else 1 ≤ i.toNat ∧ i.toNat ≤ h.blocks.length

instance (opType : MaintenanceOpType) (h : FileHistory) (i : SizeT) :
    Decidable (IndexInRange opType h i) := by
  unfold IndexInRange
  infer_instance

/-- A request takes effect index by index, after one clock reading of its own. -/
def request (h : FileHistory) (ext : DHTDynamicMaintainExt) : Unit × FileHistory :=
  ((), (replies (applyIndex ext.opType) h.tick ext.blockIndices).2)

/-- An Update, Insert or Delete request on the file whose indices are in range. -/
structure Accepts (fileId : Bytes) (h : FileHistory) (ext : DHTDynamicMaintainExt) : Prop where
  file : ext.fileId = fileId
  store : ext.stateStore = true
  op : ext.opType = MaintenanceOpType.Update ∨ ext.opType = MaintenanceOpType.Insert ∨
    ext.opType = MaintenanceOpType.Delete
  nonempty : ext.blockIndices ≠ []
  inRange : Along (applyIndex ext.opType) (IndexInRange ext.opType) h.tick ext.blockIndices

instance (fileId : Bytes) (h : FileHistory) (ext : DHTDynamicMaintainExt) :
    Decidable (Accepts fileId h ext) :=
  decidable_of_iff (ext.fileId = fileId ∧ ext.stateStore = true ∧
      (ext.opType = MaintenanceOpType.Update ∨ ext.opType = MaintenanceOpType.Insert ∨
        ext.opType = MaintenanceOpType.Delete) ∧ ext.blockIndices ≠ [] ∧
      Along (applyIndex ext.opType) (IndexInRange ext.opType) h.tick ext.blockIndices)
    ⟨fun ⟨hf, hs, ho, hn, hr⟩ => ⟨hf, hs, ho, hn, hr⟩,
      fun ⟨hf, hs, ho, hn, hr⟩ => ⟨hf, hs, ho, hn, hr⟩⟩

/-- Two different blocks stand at one position at two moments, after as many updates and last
written in the same second. -/
def Clash (h : FileHistory) (requests : List DHTDynamicMaintainExt) : Prop :=
  ∃ s t place : Nat, s < t ∧ t ≤ requests.length ∧ ∃ b b' : TrackedBlock,
    (stateAfter request h requests s).blocks[place]? = some b ∧
    (stateAfter request h requests t).blocks[place]? = some b' ∧
    b.ref ≠ b'.ref ∧ b.updates = b'.updates ∧ b.written = b'.written

end FileHistory

/-- How many bumps a request asks for. -/
def DHTDynamicMaintainExt.updateCount (ext : DHTDynamicMaintainExt) : Nat :=
  if ext.opType = MaintenanceOpType.Update then ext.blockIndices.length else 0

namespace World

variable {κ : Type} {w t : World κ} {fileId : Bytes} {h : FileHistory}
  {ext : DHTDynamicMaintainExt} {requests : List DHTDynamicMaintainExt}

/-- The store after the first `k` requests. -/
def afterRequests [MetadataClass κ] (w : World κ) (requests : List DHTDynamicMaintainExt)
    (k : Nat) : World κ :=
  stateAfter (fun w ext => w.maintenance ⟨.typed ext⟩) w requests k

/-- An Update request between two moments names the object. -/
def UpdatedBetween [MetadataClass κ] (w : World κ) (requests : List DHTDynamicMaintainExt)
    (s t : Nat) (r : Ref) : Prop :=
  ∃ k ext i, s ≤ k ∧ k < t ∧ requests[k]? = some ext ∧
    ext.opType = MaintenanceOpType.Update ∧ i ∈ ext.blockIndices ∧
    (w.afterRequests requests k).entry ext.fileId (i - 1) = some r

/-- Once another block or an updated one stands at a position, the metadata hashed there differs
from the metadata hashed there before. -/
def NeverReused [MetadataClass κ] (w : World κ) (fileId : Bytes)
    (requests : List DHTDynamicMaintainExt) : Prop :=
  ∀ s t, s < t → t ≤ requests.length → ∀ (i : SizeT) r r',
    (w.afterRequests requests s).getBlockMetadata fileId i = .ok r →
    (w.afterRequests requests t).getBlockMetadata fileId i = .ok r' →
    r ≠ r' ∨ w.UpdatedBetween requests s t r →
    (w.afterRequests requests s).heap r ≠ (w.afterRequests requests t).heap r'

/-- A newly registered file as a history. -/
def newHistory (w : World κ) (objects : List Ref) : FileHistory where
  blocks := objects.map fun r =>
    ⟨r, 0, (((w.heap r).asVersioned).getD {}).timestamp⟩
  nextRef := w.nextRef
  clock := w.clock

/-! ## The store follows the history -/

/-- The file's collection and metadata are those of the history. -/
structure Tracks (fileId : Bytes) (w : World κ) (h : FileHistory) : Prop where
  wellFormed : w.WellFormed
  factory : w.metadataFactory_ = defaultMetadataFactory
  nextRef : h.nextRef = w.nextRef
  clock : h.clock = w.clock
  holds : w.Holds fileId (h.blocks.map TrackedBlock.ref)
  metadata : ∀ b ∈ h.blocks, w.heap b.ref = .versioned ⟨1 + UInt64.ofNat b.updates, b.written⟩

theorem Tracks.tick (hw : Tracks fileId w h) : Tracks fileId w.now.2 h.tick where
  wellFormed := hw.wellFormed.now
  factory := hw.factory
  nextRef := hw.nextRef
  clock := congrArg Stream'.tail hw.clock
  holds := hw.holds
  metadata := hw.metadata

theorem Tracks.update [MetadataClass κ] (hw : Tracks fileId w h) {i : SizeT}
    (hi : 1 ≤ i.toNat ∧ i.toNat ≤ h.blocks.length) :
    (updateOne fileId w i).1 = .ok () ∧ Tracks fileId (updateOne fileId w i).2
      (FileHistory.applyIndex .Update h i).2 := by
  obtain ⟨r, hr, hentry⟩ := hw.holds.entry_eq_some (by rwa [List.length_map])
  rw [List.getElem?_map] at hr
  obtain ⟨b, hb, rfl⟩ := Option.map_eq_some_iff.mp hr
  have hm := hw.metadata b (List.mem_of_getElem? hb)
  have hnodup := hw.holds.nodup hw.wellFormed
  rw [updateOne_ok hentry hm]
  refine ⟨rfl, hw.wellFormed.bumpObject _, hw.factory, hw.nextRef,
    congrArg Stream'.tail hw.clock, ?_, fun b' hb' => ?_⟩
  · -- no reference moves
    have hrefs : (FileHistory.applyIndex .Update h i).2.blocks.map TrackedBlock.ref =
        h.blocks.map TrackedBlock.ref := by
      apply List.ext_getElem?
      intro j
      simp only [FileHistory.applyIndex, if_pos, List.getElem?_map, List.getElem?_modify]
      cases h.blocks[j]? with
      | none => rfl
      | some c =>
        simp only [Option.map_eq_map, Option.map_some]
        split_ifs <;> rfl
    rw [hrefs]
    exact hw.holds
  · obtain ⟨j, hj⟩ := List.mem_iff_getElem?.mp hb'
    simp only [FileHistory.applyIndex, if_pos, List.getElem?_modify] at hj
    obtain ⟨c, hc, rfl⟩ := Option.map_eq_some_iff.mp hj
    by_cases hplace : i.toNat - 1 = j
    · subst hplace
      obtain rfl := Option.some.inj (hb.symm.trans hc)
      rw [heap_bumpObject, if_pos rfl, Function.update_self, hm, hw.clock]
      simp [VersionedBlockMetadata.bump, UInt64.ofNat_add, add_assoc]
    · rw [heap_bumpObject, if_neg hplace, Function.update_of_ne,
        hw.metadata c (List.mem_of_getElem? hc)]
      intro he
      refine hplace ((List.getElem?_inj ?_ hnodup).mp ?_)
      · rw [List.length_map]
        omega
      · rw [List.getElem?_map, List.getElem?_map, hb, hc, Option.map_some, Option.map_some, he]

theorem Tracks.insert (hw : Tracks fileId w h) {i : SizeT}
    (hi : i ≠ 0 ∧ i ≤ UInt64.ofNat h.blocks.length + 1) :
    (w.insertBlock fileId i).1 = .ok () ∧ Tracks fileId (w.insertBlock fileId i).2
      (FileHistory.applyIndex .Insert h i).2 := by
  have hlength : (h.blocks.map TrackedBlock.ref).length = h.blocks.length := List.length_map _
  rw [← hlength, ne_zero_and_le_succ_iff hw.holds.bounded] at hi
  have hins := hw.holds.insertBlock hi.1 hi.2.1 hi.2.2
  have hwf := hw.wellFormed.insertBlock fileId i
  obtain ⟨collection, hfile, hlists⟩ := id hw.holds
  rw [insertBlock_ok hfile] at hins hwf ⊢
  refine ⟨rfl, hwf, hw.factory, congrArg (· + 1) hw.nextRef, congrArg Stream'.tail hw.clock,
    ?_, fun b hb => ?_⟩
  · simp only [FileHistory.applyIndex, if_neg (show ¬ MaintenanceOpType.Insert = .Update by decide),
      if_pos, List.map_insertIdx, hw.nextRef]
    exact hins
  · simp only [FileHistory.applyIndex, if_neg (show ¬ MaintenanceOpType.Insert = .Update by decide),
      if_pos] at hb
    rw [heap_putCollection, heap_createMetadata, hw.factory]
    rcases List.eq_or_mem_of_mem_insertIdx hb with rfl | hold
    · rw [hw.nextRef, Function.update_self, hw.clock]
      rfl
    · have hmem : b.ref ∈ h.blocks.map TrackedBlock.ref := List.mem_map_of_mem hold
      obtain ⟨key, hkey⟩ := hw.holds.mem_iff.mp hmem
      rw [Function.update_of_ne (Nat.ne_of_lt (hw.wellFormed.allocated _ _ _ hkey)),
        hw.metadata b hold]

theorem Tracks.delete (hw : Tracks fileId w h) {i : SizeT}
    (hi : 1 ≤ i.toNat ∧ i.toNat ≤ h.blocks.length) :
    (w.deleteBlock fileId i).1 = .ok () ∧ Tracks fileId (w.deleteBlock fileId i).2
      (FileHistory.applyIndex .Delete h i).2 := by
  obtain ⟨hok, hdel⟩ := hw.holds.deleteBlock (by rwa [List.length_map])
  have hwf := hw.wellFormed.deleteBlock fileId i
  obtain ⟨r, _, hentry⟩ := hw.holds.entry_eq_some (by rwa [List.length_map])
  obtain ⟨_, hdeleted⟩ := deleteBlock_deleted hentry
  refine ⟨hok, hwf, hdeleted.factory.trans hw.factory, hw.nextRef.trans hdeleted.nextRef.symm,
    hw.clock.trans hdeleted.clock.symm, ?_, fun b hb => ?_⟩
  · rw [List.eraseIdx_map] at hdel
    exact hdel
  · rw [hdeleted.heap]
    exact hw.metadata b (List.mem_of_mem_eraseIdx hb)

/-- An accepted request succeeds and its effect on the store is its effect on the history. -/
theorem Tracks.request [MetadataClass κ] (hw : Tracks fileId w h) (hfile : fileId ≠ [])
    (hext : h.Accepts fileId ext) :
    (w.maintenance ⟨.typed ext⟩).1 = .ok () ∧
      Tracks fileId (w.maintenance ⟨.typed ext⟩).2 (h.request ext).2 := by
  obtain ⟨rfl, hstore, hop, hne, hrange⟩ := hext
  have hdispatch : w.Dispatches ext := ⟨hfile, hstore, hw.holds.hasFile⟩
  rw [FileHistory.request]
  rcases hop with hop | hop | hop
  · rw [maintenance_update hdispatch hop hne]
    rw [hop] at hrange ⊢
    refine hrange.forEach (fun u k i hu hi => hu.update ?_) hw.tick
    rwa [FileHistory.IndexInRange, if_neg (by decide)] at hi
  · rw [maintenance_insert hdispatch hop hne]
    rw [hop] at hrange ⊢
    refine hrange.forEach (fun u k i hu hi => hu.insert ?_) hw.tick
    rwa [FileHistory.IndexInRange, if_pos rfl] at hi
  · rw [maintenance_delete hdispatch hop hne]
    rw [hop] at hrange ⊢
    refine hrange.forEach (fun u k i hu hi => hu.delete ?_) hw.tick
    rwa [FileHistory.IndexInRange, if_neg (by decide)] at hi

/-- The store follows the history through a run of accepted requests. -/
theorem Tracks.afterRequests [MetadataClass κ] (hw : Tracks fileId w h) (hfile : fileId ≠ [])
    (hrun : Along FileHistory.request (FileHistory.Accepts fileId) h requests) {k : Nat}
    (hk : k ≤ requests.length) :
    Tracks fileId (w.afterRequests requests k)
      (stateAfter FileHistory.request h requests k) := by
  induction k with
  | zero => exact hw
  | succ k ih =>
    have hext : requests[k]? = some requests[k] := List.getElem?_eq_getElem hk
    rw [World.afterRequests, stateAfter_succ hext, stateAfter_succ hext]
    exact ((ih (Nat.le_of_succ_le hk)).request hfile (hrun.stateAfter hext)).2

/-! ## Counting updates -/

/-- The bumps asked for by the first `k` requests. -/
def updatesUpTo (requests : List DHTDynamicMaintainExt) (k : Nat) : Nat :=
  ((requests.take k).map DHTDynamicMaintainExt.updateCount).sum

theorem updatesUpTo_succ {k : Nat} (hext : requests[k]? = some ext) :
    updatesUpTo requests (k + 1) = updatesUpTo requests k + ext.updateCount := by
  rw [updatesUpTo, List.take_add_one, hext, List.map_append, List.sum_append]
  rfl

theorem updatesUpTo_le (requests : List DHTDynamicMaintainExt) (k : Nat) :
    updatesUpTo requests k ≤ updatesUpTo requests requests.length := by
  rw [updatesUpTo, updatesUpTo, List.take_length]
  conv_rhs => rw [← List.take_append_drop k requests]
  rw [List.map_append, List.sum_append]
  exact Nat.le_add_right _ _

/-- An index adds at most one update to a block, and none unless it is an Update. -/
theorem applyIndex_updates_le {opType : MaintenanceOpType} {n : Nat}
    (hn : ∀ b ∈ h.blocks, b.updates ≤ n) (i : SizeT) :
    ∀ b ∈ (h.applyIndex opType i).2.blocks,
      b.updates ≤ n + if opType = MaintenanceOpType.Update then 1 else 0 := by
  intro b hb
  unfold FileHistory.applyIndex at hb
  split_ifs at hb ⊢
  · obtain ⟨j, hj⟩ := List.mem_iff_getElem?.mp hb
    rw [List.getElem?_modify] at hj
    obtain ⟨c, hc, rfl⟩ := Option.map_eq_some_iff.mp hj
    have hle := hn c (List.mem_of_getElem? hc)
    split_ifs
    · exact Nat.succ_le_succ hle
    · exact Nat.le_succ_of_le hle
  · rcases List.eq_or_mem_of_mem_insertIdx hb with rfl | hold
    · exact Nat.zero_le _
    · exact hn b hold
  · exact hn b (List.mem_of_mem_eraseIdx hb)

theorem request_updates_le {n : Nat} (hn : ∀ b ∈ h.blocks, b.updates ≤ n)
    (ext : DHTDynamicMaintainExt) :
    ∀ b ∈ (h.request ext).2.blocks, b.updates ≤ n + ext.updateCount := by
  have hloop : ∀ (is : List SizeT) (h : FileHistory) (n : Nat),
      (∀ b ∈ h.blocks, b.updates ≤ n) →
      ∀ b ∈ (replies (FileHistory.applyIndex ext.opType) h is).2.blocks,
        b.updates ≤ n + if ext.opType = MaintenanceOpType.Update then is.length else 0 := by
    intro is
    induction is with
    | nil =>
      intro h n hn b hb
      exact Nat.le_add_right_of_le (hn b hb)
    | cons i is ih =>
      intro h n hn b hb
      have hrest := ih _ _ (applyIndex_updates_le hn i) b hb
      rw [List.length_cons]
      split_ifs at hrest ⊢ <;> omega
  exact hloop ext.blockIndices h.tick n hn

/-- No block of the file has more updates than were asked for. -/
theorem stateAfter_updates_le {n : Nat} (hn : ∀ b ∈ h.blocks, b.updates ≤ n) {k : Nat}
    (hk : k ≤ requests.length) :
    ∀ b ∈ (stateAfter FileHistory.request h requests k).blocks,
      b.updates ≤ n + updatesUpTo requests k := by
  induction k with
  | zero => exact hn
  | succ k ih =>
    have hext : requests[k]? = some requests[k] := List.getElem?_eq_getElem hk
    rw [stateAfter_succ hext, updatesUpTo_succ hext, ← Nat.add_assoc]
    exact request_updates_le (ih (Nat.le_of_succ_le hk)) _

/-- How often a request bumps an object. -/
def bumpsOf (w : World κ) (ext : DHTDynamicMaintainExt) (r : Ref) : Nat :=
  if ext.opType = MaintenanceOpType.Update then w.occurrences ext.fileId ext.blockIndices r
  else 0

theorem bumpsOf_le (w : World κ) (ext : DHTDynamicMaintainExt) (r : Ref) :
    w.bumpsOf ext r ≤ ext.updateCount := by
  unfold bumpsOf DHTDynamicMaintainExt.updateCount
  split_ifs
  · exact List.countP_le_length
  · exact Nat.le_refl 0

/-- A request adds to the version of an old object the number of its indices that name it. -/
theorem Tracks.request_version [MetadataClass κ] (hw : Tracks fileId w h) (hfile : fileId ≠ [])
    (hext : h.Accepts fileId ext) {r : Ref} (hr : r < w.nextRef) {m : VersionedBlockMetadata}
    (hm : w.heap r = .versioned m) : r < (w.maintenance ⟨.typed ext⟩).2.nextRef ∧
      ∃ second, (w.maintenance ⟨.typed ext⟩).2.heap r =
        .versioned ⟨m.version + UInt64.ofNat (w.bumpsOf ext r), second⟩ := by
  have hok := (hw.request hfile hext).1
  obtain ⟨rfl, hstore, hop, hne, _⟩ := hext
  have hdispatch : w.Dispatches ext := ⟨hfile, hstore, hw.holds.hasFile⟩
  unfold bumpsOf
  -- Insert and Delete never write to an object that exists already
  have hkeep : ∀ body : World κ → SizeT → Outcome κ Unit,
      (∀ u i, r < u.nextRef → r < (body u i).2.nextRef ∧ (body u i).2.heap r = u.heap r) →
      r < (forEach body w.now.2 ext.blockIndices).2.nextRef ∧
        (forEach body w.now.2 ext.blockIndices).2.heap r = .versioned m := by
    intro body hbody
    have hstep : ∀ u : World κ, ∀ i ∈ ext.blockIndices, r < u.nextRef ∧ u.heap r = .versioned m →
        r < (body u i).2.nextRef ∧ (body u i).2.heap r = .versioned m :=
      fun u i _ hu => ⟨(hbody u i hu.1).1, (hbody u i hu.1).2.trans hu.2⟩
    exact forEach_preserves hstep ⟨hr, hm⟩
  rcases hop with hop | hop | hop
  · rw [maintenance_update hdispatch hop hne] at hok ⊢
    rw [if_pos hop]
    have hupdated := updateLoop_updated (Prod.ext hok rfl)
    refine ⟨?_, hupdated.versioned r m hm⟩
    rw [hupdated.nextRef]
    exact hr
  · rw [maintenance_insert hdispatch hop hne, hop, if_neg (by decide)]
    obtain ⟨hlt, hheap⟩ := hkeep (fun u i => u.insertBlock ext.fileId i) fun u i hu => by
      cases hcollection : u.files_[ext.fileId]? with
      | none =>
        rw [insertBlock_error hcollection]
        exact ⟨hu, rfl⟩
      | some collection =>
        rw [insertBlock_ok hcollection]
        exact ⟨Nat.lt_succ_of_lt hu, Function.update_of_ne (Nat.ne_of_lt hu) _ _⟩
    exact ⟨hlt, m.timestamp, by simp [hheap]⟩
  · rw [maintenance_delete hdispatch hop hne, hop, if_neg (by decide)]
    obtain ⟨hlt, hheap⟩ := hkeep (fun u i => u.deleteBlock ext.fileId i) fun u i hu => by
      cases hentry : u.entry ext.fileId (i - 1) with
      | none =>
        obtain ⟨e, he⟩ := deleteBlock_error hentry
        rw [he]
        exact ⟨hu, rfl⟩
      | some r' =>
        have hdel := (deleteBlock_deleted hentry).2
        rw [hdel.nextRef, hdel.heap]
        exact ⟨hu, rfl⟩
    exact ⟨hlt, m.timestamp, by simp [hheap]⟩

/-- Between two moments the version of an object grows by its number of updates, at least one
if an Update named it. -/
theorem Tracks.version_between [MetadataClass κ] (hw : Tracks fileId w h) (hfile : fileId ≠ [])
    (hrun : Along FileHistory.request (FileHistory.Accepts fileId) h requests) {s t : Nat}
    (hst : s ≤ t) (ht : t ≤ requests.length) {r : Ref}
    (hr : r < (w.afterRequests requests s).nextRef) {m : VersionedBlockMetadata}
    (hm : (w.afterRequests requests s).heap r = .versioned m) :
    r < (w.afterRequests requests t).nextRef ∧ ∃ n second,
      n + updatesUpTo requests s ≤ updatesUpTo requests t ∧
      (w.afterRequests requests t).heap r = .versioned ⟨m.version + UInt64.ofNat n, second⟩ ∧
      (w.UpdatedBetween requests s t r → 0 < n) := by
  induction t, hst using Nat.le_induction with
  | base =>
    refine ⟨hr, 0, m.timestamp, Nat.le_of_eq (Nat.zero_add _), by simp [hm], ?_⟩
    rintro ⟨k, _, _, hsk, hkt, _⟩
    omega
  | succ t hst ih =>
    obtain ⟨hlt, n, second, hn, hheap, hupd⟩ := ih (Nat.le_of_succ_le ht)
    have hext : requests[t]? = some requests[t] := List.getElem?_eq_getElem ht
    have htracks := hw.afterRequests hfile hrun (Nat.le_of_succ_le ht)
    have haccepts := hrun.stateAfter hext
    obtain ⟨hlt', second', hheap'⟩ := htracks.request_version hfile haccepts hlt hheap
    have hnext : w.afterRequests requests (t + 1) =
        ((w.afterRequests requests t).maintenance ⟨.typed requests[t]⟩).2 := stateAfter_succ hext
    rw [hnext, updatesUpTo_succ hext]
    refine ⟨hlt', n + (w.afterRequests requests t).bumpsOf requests[t] r, second', ?_, ?_, ?_⟩
    · have hcount := bumpsOf_le (w.afterRequests requests t) requests[t] r
      omega
    · rw [hheap', UInt64.ofNat_add, add_assoc]
    · rintro ⟨k, ext, i, hsk, hkt, hk, hop, hi, hentry⟩
      rcases Nat.lt_or_ge k t with hlt | hge
      · have := hupd ⟨k, ext, i, hsk, hlt, hk, hop, hi, hentry⟩
        omega
      · obtain rfl : k = t := by omega
        obtain rfl := Option.some.inj (hext.symm.trans hk)
        rw [bumpsOf, if_pos hop]
        refine Nat.add_pos_right n (List.countP_pos_iff.mpr ⟨i, hi, ?_⟩)
        simpa using hentry

/-! ## Reuse -/

/-- A registered position and its metadata, read in the history. -/
theorem Tracks.exists_block (hw : Tracks fileId w h) {i : SizeT} {r : Ref}
    (hr : w.getBlockMetadata fileId i = .ok r) : ∃ b, h.blocks[(i - 1).toNat]? = some b ∧
      b.ref = r ∧ w.heap r = .versioned ⟨1 + UInt64.ofNat b.updates, b.written⟩ := by
  have hentry := getBlockMetadata_eq_ok.mp hr
  rw [hw.holds.entry, List.getElem?_map] at hentry
  obtain ⟨b, hb, rfl⟩ := Option.map_eq_some_iff.mp hentry
  exact ⟨b, hb, rfl, hw.metadata b (List.mem_of_getElem? hb)⟩

theorem Tracks.getBlockMetadata (hw : Tracks fileId w h) {place : Nat} {b : TrackedBlock}
    (hb : h.blocks[place]? = some b) :
    w.getBlockMetadata fileId (UInt64.ofNat place + 1) = .ok b.ref := by
  have hlt := (List.getElem?_eq_some_iff.mp hb).1
  have hbound := hw.holds.bounded
  rw [List.length_map] at hbound
  rw [getBlockMetadata_eq_ok, add_sub_cancel_right, hw.holds.entry,
    toNat_ofNat_lt (Nat.lt_trans hlt hbound), List.getElem?_map, hb, Option.map_some]

/-- A newly registered file starts its history. -/
theorem tracks_newHistory {objects : List Ref} (hwf : w.WellFormed)
    (hfactory : w.metadataFactory_ = defaultMetadataFactory)
    (hholds : w.Holds fileId objects)
    (hnew : ∀ r ∈ objects, ∃ second, w.heap r = .versioned ⟨1, second⟩) :
    Tracks fileId w (w.newHistory objects) := by
  have hrefs : (w.newHistory objects).blocks.map TrackedBlock.ref = objects := by
    rw [newHistory, List.map_map]
    exact List.map_id' objects
  refine ⟨hwf, hfactory, rfl, rfl, hrefs.symm ▸ hholds, fun b hb => ?_⟩
  obtain ⟨r, hr, rfl⟩ := List.mem_map.mp hb
  obtain ⟨second, hs⟩ := hnew r hr
  simp [hs]

/-- Over every run of in-range Update, Insert and Delete requests on a newly registered file,
with fewer than 2^64 bumps: no metadata is reused at a position if and only if no two different
blocks clash there in the history. -/
theorem neverReused_iff_not_clash [MetadataClass κ] (w : World κ) (fileId : Bytes)
    (objects : List Ref) (hfile : fileId ≠ []) (hwf : w.WellFormed)
    (hfactory : w.metadataFactory_ = defaultMetadataFactory) (hholds : w.Holds fileId objects)
    (hnew : ∀ r ∈ objects, ∃ second, w.heap r = .versioned ⟨1, second⟩)
    (requests : List DHTDynamicMaintainExt)
    (hrun : Along FileHistory.request (FileHistory.Accepts fileId) (w.newHistory objects)
      requests)
    (hbumps : (requests.map DHTDynamicMaintainExt.updateCount).sum < 2 ^ 64) :
    w.NeverReused fileId requests ↔ ¬ (w.newHistory objects).Clash requests := by
  have hw := tracks_newHistory hwf hfactory hholds hnew
  have hstart : ∀ b ∈ (w.newHistory objects).blocks, b.updates ≤ 0 := by
    intro b hb
    obtain ⟨r, _, rfl⟩ := List.mem_map.mp hb
    exact Nat.le_refl 0
  rw [← List.take_length (l := requests)] at hbumps
  have hfew : ∀ k ≤ requests.length, updatesUpTo requests k < 2 ^ 64 := fun k _ =>
    Nat.lt_of_le_of_lt (updatesUpTo_le requests k) hbumps
  have hupdates : ∀ k ≤ requests.length,
      ∀ b ∈ (stateAfter FileHistory.request (w.newHistory objects) requests k).blocks,
        (UInt64.ofNat b.updates).toNat = b.updates := by
    intro k hk b hb
    have hle := stateAfter_updates_le hstart hk b hb
    have hlt := hfew k hk
    exact toNat_ofNat_lt (by omega)
  constructor
  · rintro h ⟨s, t, place, hst, ht, b, b', hb, hb', hne, hupd, hwritten⟩
    have hs := hw.afterRequests hfile hrun (Nat.le_trans (Nat.le_of_lt hst) ht)
    have ht' := hw.afterRequests hfile hrun ht
    refine h s t hst ht _ _ _ (hs.getBlockMetadata hb) (ht'.getBlockMetadata hb') (Or.inl hne) ?_
    rw [hs.metadata b (List.mem_of_getElem? hb), ht'.metadata b' (List.mem_of_getElem? hb'), hupd,
      hwritten]
  · intro hclash s t hst ht i r r' hr hr' hdiff heq
    have hsle := Nat.le_trans (Nat.le_of_lt hst) ht
    have hs := hw.afterRequests hfile hrun hsle
    have ht' := hw.afterRequests hfile hrun ht
    obtain ⟨b, hb, rfl, hm⟩ := hs.exists_block hr
    obtain ⟨b', hb', rfl, hm'⟩ := ht'.exists_block hr'
    by_cases hsame : b.ref = b'.ref
    · -- the same block: its version has moved, by less than a full turn
      have hupdated := hdiff.resolve_left (not_not_intro hsame)
      have hlt := hs.wellFormed.allocated _ _ _ (getBlockMetadata_eq_ok.mp hr)
      obtain ⟨_, n, second, hn, hheap, hpos⟩ :=
        hw.version_between hfile hrun (Nat.le_of_lt hst) ht hlt hm
      rw [← hsame, hheap, hm] at heq
      simp only [BlockMetadata.versioned.injEq, VersionedBlockMetadata.mk.injEq,
        left_eq_add] at heq
      have hzero := congrArg UInt64.toNat heq.1
      have hfewt := hfew t ht
      rw [toNat_ofNat_lt (by omega)] at hzero
      exact Nat.ne_of_gt (hpos hupdated) hzero
    · rw [hm, hm'] at heq
      simp only [BlockMetadata.versioned.injEq, VersionedBlockMetadata.mk.injEq,
        add_right_inj] at heq
      refine hclash ⟨s, t, _, hst, ht, b, b', hb, hb', hsame, ?_, heq.2⟩
      rw [← hupdates s hsle b (List.mem_of_getElem? hb), heq.1,
        hupdates t ht b' (List.mem_of_getElem? hb')]

/-- An Update, an Insert and a Delete on five blocks. -/
theorem neverReused_iff_not_clash_mixed_run :
    let requests : List DHTDynamicMaintainExt := [⟨[7], .Update, [2, 2], true, by decide⟩,
      ⟨[7], .Insert, [1, 7], true, by decide⟩, ⟨[7], .Delete, [4], true, by decide⟩]
    fiveBlocks.NeverReused [7] requests ↔
      ¬ (fiveBlocks.newHistory [0, 1, 2, 3, 4]).Clash requests :=
  neverReused_iff_not_clash fiveBlocks [7] [0, 1, 2, 3, 4] (by decide) fiveBlocks_wellFormed rfl
    fiveBlocks_holds (fun r hr => ⟨0, fiveBlocks_heap r hr⟩) _ (by decide) (by decide)

/-- Deleting block one moves a block created in the same second to its place: the metadata
hashed there is the old one. -/
theorem neverReused_fails_after_delete :
    let requests : List DHTDynamicMaintainExt := [⟨[7], .Delete, [1], true, by decide⟩]
    fiveBlocks.WellFormed ∧ fiveBlocks.Holds [7] [0, 1, 2, 3, 4] ∧
      Along FileHistory.request (FileHistory.Accepts [7])
        (fiveBlocks.newHistory [0, 1, 2, 3, 4]) requests ∧
      ¬ fiveBlocks.NeverReused [7] requests := by
  refine ⟨fiveBlocks_wellFormed, fiveBlocks_holds, by decide, fun h => ?_⟩
  exact h 0 1 (by decide) (by decide) 1 0 1 (by decide) (by decide) (Or.inl (by decide))
    (by decide)

end World

end DHTDynamic
