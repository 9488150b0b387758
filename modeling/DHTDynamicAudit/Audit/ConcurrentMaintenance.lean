import DHTDynamicAudit.Audit.ConcurrentUpdates
import DHTDynamicAudit.Audit.MaintenanceRuns
import DHTDynamicAudit.Store.Density
import DHTDynamicAudit.Store.FileEvents

/-!
# Concurrent maintenance of a file

Requests of all three operations share one store, each of their requests to it
under the lock. Along every schedule the file is that of its history after the
events carried out so far, in the order the store has served them. Whether some
schedule makes a request throw or leaves a gap in the file can be read off the
lists of indices.
-/

namespace DHTDynamic

open Core

variable {κ ι : Type}

/-! ## Points of a request -/

namespace MaintenanceRun

/-- The events that a request has still to carry out. -/
def ahead (op : Operation) (blockIndices : List SizeT) : MaintenanceRun → List FileEvent
  | .hasFile => op.events blockIndices
  | .getBlockMetadata blockIndex rest | .modifyBlock blockIndex rest =>
    (blockIndex :: rest).map (.block .update)
  | .insertBlock blockIndex rest => (blockIndex :: rest).map (.block .insert)
  | .deleteBlock blockIndex rest => (blockIndex :: rest).map (.block .delete)
  | .returned | .thrown _ => []

/-- The turns before the next event. -/
def delay : MaintenanceRun → Nat
  | .getBlockMetadata _ _ => 1
  | _ => 0

@[simp] theorem ahead_next {op op' : Operation} {blockIndices rest : List SizeT} :
    (next op rest).ahead op' blockIndices = rest.map (.block op) := by
  cases op <;> cases rest <;> rfl

end MaintenanceRun

/-- A request on the file that passes all checks before its first index. -/
structure CompleteRequest (fileId : Bytes) (op : Operation) (ext : DHTDynamicMaintainExt) :
    Prop where
  file : ext.fileId = fileId
  named : fileId ≠ []
  store : ext.stateStore = true
  op : ext.opType = op.enumerator
  nonempty : ext.blockIndices ≠ []

theorem CompleteRequest.start {fileId : Bytes} {op : Operation} {ext : DHTDynamicMaintainExt}
    (h : CompleteRequest fileId op ext) : MaintenanceRun.start ⟨.typed ext⟩ = .hasFile := by
  have hfile : ext.fileId.isEmpty = false := by simpa [h.file] using h.named
  simp only [MaintenanceRun.start, hfile, h.store, Bool.not_true, Bool.false_eq_true, if_false]

namespace World

variable {w w' w₀ : World κ} {fileId : Bytes} {h : FileHistory} {b : SizeT}

/-! ## One call of the store -/

/-- The file is that of the history, and the other files are those of the start. -/
structure ShowsFile (w₀ : World κ) (fileId : Bytes) (w : World κ) (h : FileHistory) : Prop where
  tracks : Tracks fileId w h
  others : ∀ g, g ≠ fileId → ∀ key, w.metadataAt g key = w₀.metadataAt g key

/-- A step on one file leaves the others alone when it does not write to their objects. -/
theorem ShowsFile.of_other (hw : ShowsFile w₀ fileId w h) {h' : FileHistory}
    (htracks : Tracks fileId w' h') (hfiles : ∀ g, g ≠ fileId → w'.files_[g]? = w.files_[g]?)
    (hheap : ∀ g key r, g ≠ fileId → w.entry g key = some r → w'.heap r = w.heap r) :
    ShowsFile w₀ fileId w' h' := by
  refine ⟨htracks, fun g hg key => ?_⟩
  rw [← hw.others g hg key, metadataAt, metadataAt]
  have hentry : w'.entry g key = w.entry g key := by rw [entry, entry, hfiles g hg]
  rw [hentry]
  exact Option.map_congr fun r hr => hheap g key r hg hr

theorem ShowsFile.now (hw : ShowsFile w₀ fileId w h) :
    ShowsFile w₀ fileId w.now.2 (h.perform .request).2 :=
  hw.of_other hw.tracks.tick (fun _ _ => rfl) fun _ _ _ _ _ => rfl

theorem ShowsFile.bounded (hw : ShowsFile w₀ fileId w h) : h.blocks.length < 2 ^ 64 := by
  have hbounded := hw.tracks.holds.bounded
  rwa [List.length_map] at hbounded

theorem ShowsFile.insertBlock (hw : ShowsFile w₀ fileId w h) (hb : h.Admits (.block .insert b)) :
    ∃ w', w.insertBlock fileId b = (.ok (), w') ∧
      ShowsFile w₀ fileId w' (h.perform (.block .insert b)).2 := by
  obtain ⟨_, htracks⟩ := hw.tracks.insert hb
  obtain ⟨collection, hfile, _⟩ := hw.tracks.holds
  rw [insertBlock_ok hfile] at htracks ⊢
  refine ⟨_, rfl, hw.of_other htracks (fun g hg => ?_) fun g key r _ hr => ?_⟩
  · rw [files_putCollection, if_neg (Ne.symm hg), files_createMetadata]
  · rw [heap_putCollection, heap_createMetadata,
      Function.update_of_ne (Nat.ne_of_lt (hw.tracks.wellFormed.allocated _ _ _ hr))]

theorem ShowsFile.deleteBlock (hw : ShowsFile w₀ fileId w h) (hb : h.Admits (.block .delete b)) :
    ∃ w', w.deleteBlock fileId b = (.ok (), w') ∧
      ShowsFile w₀ fileId w' (h.perform (.block .delete b)).2 := by
  obtain ⟨hok, htracks⟩ := hw.tracks.delete hb
  obtain ⟨r, _, hentry⟩ := hw.tracks.holds.entry_eq_some (by rwa [List.length_map])
  obtain ⟨_, hdeleted⟩ := deleteBlock_deleted hentry
  exact ⟨_, Prod.ext hok rfl, hw.of_other htracks hdeleted.other
    fun _ _ _ _ _ => by rw [hdeleted.heap]⟩

theorem ShowsFile.modifyBlock [MetadataClass κ] (hw : ShowsFile w₀ fileId w h)
    (hb : h.Admits (.block .update b)) :
    (∃ r m, w.getBlockMetadata fileId b = .ok r ∧ w.heap r = .versioned m) ∧
      ∃ w', w.modifyBlock fileId b = (.ok (), w') ∧
        ShowsFile w₀ fileId w' (h.perform (.block .update b)).2 := by
  obtain ⟨r, hr, hentry⟩ := hw.tracks.holds.entry_eq_some (by rwa [List.length_map])
  obtain ⟨c, hc, rfl⟩ := List.mem_map.mp (List.mem_of_getElem? hr)
  have hm := hw.tracks.metadata c hc
  obtain ⟨_, htracks⟩ := hw.tracks.update hb
  rw [updateOne_ok hentry hm] at htracks
  rw [modifyBlock_ok hentry]
  refine ⟨⟨_, _, getBlockMetadata_eq_ok.mpr hentry, hm⟩, _, rfl,
    hw.of_other htracks (fun _ _ => rfl) fun g key r hg hr => ?_⟩
  rw [heap_bumpObject, Function.update_of_ne]
  rintro rfl
  exact hg (hw.tracks.wellFormed.unshared _ _ _ _ _ hr hentry).1

/-- An index out of range finds no block. -/
theorem ShowsFile.entry_eq_none (hw : ShowsFile w₀ fileId w h) {op : Operation}
    (hop : op ≠ .insert) (hb : ¬ h.Admits (.block op b)) : w.entry fileId (b - 1) = none := by
  apply hw.tracks.holds.entry_eq_none
  rw [List.length_map]
  rwa [FileHistory.Admits, FileHistory.IndexInRange, if_neg (by cases op <;> simp_all <;> decide)]
    at hb

/-- An insertion that leaves no gap was in range. -/
theorem Holds.inRange_of_insertBlock {objects objects' : List Ref} (h : w.Holds fileId objects)
    (h' : (w.insertBlock fileId b).2.Holds fileId objects') :
    b ≠ 0 ∧ b.toNat ≤ objects.length + 1 ∧ objects.length + 1 < 2 ^ 64 := by
  obtain ⟨collection, hfile, hlists⟩ := id h
  have hafter : ∀ key : SizeT, objects'[key.toNat]? =
      if key < b - 1 then objects[key.toNat]?
      else if key = b - 1 then some w.nextRef else objects[(key - 1).toNat]? := by
    intro key
    rw [← h'.entry, insertBlock_ok hfile, entry_putCollection, if_pos rfl,
      getElem?_insertAt_of_last_free hlists.lookup_zero_pred, hlists.lookup, hlists.lookup]
  have hfresh := hafter (b - 1)
  rw [if_neg (UInt64.lt_irrefl _), if_pos rfl] at hfresh
  have hplace := (List.getElem?_eq_some_iff.mp hfresh).1
  have hbounded := h'.bounded
  have hz : b ≠ 0 := by
    rintro rfl
    rw [toNat_zero_pred] at hplace
    omega
  rw [toNat_pred hz] at hplace
  -- the old end is registered, by the new object or by a shifted one
  have hn := toNat_ofNat_lt h.bounded
  have hend := hafter (UInt64.ofNat objects.length)
  simp only [UInt64.lt_iff_toNat_lt, ← UInt64.toNat_inj, toNat_pred hz, hn,
    List.getElem?_eq_none (Nat.le_refl objects.length)] at hend
  have hle : b.toNat - 1 ≤ objects.length := by
    by_contra hlt
    rw [if_pos (Nat.not_le.mp hlt), List.getElem?_eq_none_iff] at hend
    omega
  have hlast : objects.length < objects'.length := by
    rcases Nat.lt_or_eq_of_le hle with hlt | heq
    · have hne : UInt64.ofNat objects.length ≠ 0 := one_le_toNat_iff.mp (by omega)
      rw [if_neg (by omega), if_neg (by omega), toNat_pred hne, hn,
        List.getElem?_eq_getElem (show objects.length - 1 < objects.length by omega)] at hend
      exact (List.getElem?_eq_some_iff.mp hend).1
    · omega
  exact ⟨hz, by omega, by omega⟩

/-- An insertion out of range leaves a gap. -/
theorem ShowsFile.not_holds_insertBlock (hw : ShowsFile w₀ fileId w h)
    (hb : ¬ h.Admits (.block .insert b)) (objects : List Ref) :
    ¬ (w.insertBlock fileId b).2.Holds fileId objects := by
  intro hafter
  have hrange := hw.tracks.holds.inRange_of_insertBlock hafter
  rw [List.length_map] at hrange
  apply hb
  rw [FileHistory.admits_block_iff hw.bounded, if_pos rfl]
  exact ⟨hrange.1, hrange.2.1, fun _ => hrange.2.2⟩

/-! ## Turns -/

/-- What a store that requests share stands for, and what the requests have still to do. -/
def fileAbstraction (w₀ : World κ) (fileId : Bytes) (op : ι → Operation)
    (blockIndices : ι → List SizeT) :
    Abstraction ι FileEvent (World κ) FileHistory MaintenanceRun where
  perform := FileHistory.perform
  Admits := FileHistory.Admits
  Shows := ShowsFile w₀ fileId
  ahead i run := run.ahead (op i) (blockIndices i)
  delay _ run := run.delay
  Live run := ∀ e, run ≠ .thrown e

variable [MetadataClass κ] {op : ι → Operation} {exts : ι → DHTDynamicMaintainExt}

/-- A turn before an event in range carries it out, or reads the metadata it is about to bump. -/
theorem maintenanceStep_advance {ext : DHTDynamicMaintainExt} {op : Operation}
    (hrequest : CompleteRequest fileId op ext) {run : MaintenanceRun} {e : FileEvent}
    {rest : List FileEvent} (hw : ShowsFile w₀ fileId w h) (hlive : ∀ e, run ≠ .thrown e)
    (hahead : run.ahead op ext.blockIndices = e :: rest) (hadmits : h.Admits e) :
    (∀ e, (maintenanceStep ext run w).1 ≠ .thrown e) ∧
      (ShowsFile w₀ fileId (maintenanceStep ext run w).2 h ∧
          (maintenanceStep ext run w).1.ahead op ext.blockIndices = e :: rest ∧
          (maintenanceStep ext run w).1.delay < run.delay ∨
        ShowsFile w₀ fileId (maintenanceStep ext run w).2 (h.perform e).2 ∧
          (maintenanceStep ext run w).1.ahead op ext.blockIndices = rest) := by
  cases run with
  | hasFile =>
    obtain ⟨rfl, rfl⟩ := List.cons.inj hahead
    have hhas : w.hasFile ext.fileId = true := hrequest.file ▸ hw.tracks.holds.hasFile
    rw [maintenanceStep, if_pos hhas,
      MaintenanceRun.dispatch_eq_next hrequest.op hrequest.nonempty]
    exact ⟨fun _ => MaintenanceRun.next_ne_thrown,
      Or.inr ⟨hw.now, MaintenanceRun.ahead_next⟩⟩
  | getBlockMetadata blockIndex later =>
    obtain ⟨rfl, rfl⟩ := List.cons.inj hahead
    obtain ⟨⟨r, m, hget, hm⟩, _⟩ := hw.modifyBlock hadmits
    rw [← hrequest.file] at hget
    simp only [maintenanceStep, hget, hm, BlockMetadata.asVersioned_versioned]
    exact ⟨fun _ he => (by cases he), Or.inl ⟨hw, rfl, Nat.zero_lt_one⟩⟩
  | modifyBlock blockIndex later =>
    obtain ⟨rfl, rfl⟩ := List.cons.inj hahead
    obtain ⟨_, w', hcall, hafter⟩ := hw.modifyBlock hadmits
    rw [← hrequest.file] at hcall
    simp only [maintenanceStep, hcall]
    exact ⟨@MaintenanceRun.next_ne_thrown .update later,
      Or.inr ⟨hafter, @MaintenanceRun.ahead_next .update op _ later⟩⟩
  | insertBlock blockIndex later =>
    obtain ⟨rfl, rfl⟩ := List.cons.inj hahead
    obtain ⟨w', hcall, hafter⟩ := hw.insertBlock hadmits
    rw [← hrequest.file] at hcall
    simp only [maintenanceStep, hcall]
    exact ⟨@MaintenanceRun.next_ne_thrown .insert later,
      Or.inr ⟨hafter, @MaintenanceRun.ahead_next .insert op _ later⟩⟩
  | deleteBlock blockIndex later =>
    obtain ⟨rfl, rfl⟩ := List.cons.inj hahead
    obtain ⟨w', hcall, hafter⟩ := hw.deleteBlock hadmits
    rw [← hrequest.file] at hcall
    simp only [maintenanceStep, hcall]
    exact ⟨@MaintenanceRun.next_ne_thrown .delete later,
      Or.inr ⟨hafter, @MaintenanceRun.ahead_next .delete op _ later⟩⟩
  | returned => cases hahead
  | thrown e => exact absurd rfl (hlive e)

/-- A turn before an event out of range throws, or leaves a gap in the file. -/
theorem maintenanceStep_fail {ext : DHTDynamicMaintainExt} {op : Operation}
    (hrequest : CompleteRequest fileId op ext) {run : MaintenanceRun} {e : FileEvent}
    {rest : List FileEvent} (hw : ShowsFile w₀ fileId w h)
    (hahead : run.ahead op ext.blockIndices = e :: rest) (hadmits : ¬ h.Admits e) :
    (∃ e, (maintenanceStep ext run w).1 = .thrown e) ∨
      ∀ objects, ¬ (maintenanceStep ext run w).2.Holds fileId objects := by
  cases run with
  | hasFile =>
    obtain ⟨rfl, _⟩ := List.cons.inj hahead
    exact absurd trivial hadmits
  | getBlockMetadata blockIndex later =>
    obtain ⟨rfl, _⟩ := List.cons.inj hahead
    obtain ⟨e, he⟩ := getBlockMetadata_error (hw.entry_eq_none (by decide) hadmits)
    rw [← hrequest.file] at he
    exact Or.inl ⟨e, by simp only [maintenanceStep, he]⟩
  | modifyBlock blockIndex later =>
    obtain ⟨rfl, _⟩ := List.cons.inj hahead
    obtain ⟨e, he⟩ := modifyBlock_error (hw.entry_eq_none (by decide) hadmits)
    rw [← hrequest.file] at he
    exact Or.inl ⟨e, by simp only [maintenanceStep, he]⟩
  | insertBlock blockIndex later =>
    obtain ⟨rfl, _⟩ := List.cons.inj hahead
    refine Or.inr fun objects hholds => ?_
    obtain ⟨collection, hfile, _⟩ := hw.tracks.holds
    have hcall : w.insertBlock ext.fileId blockIndex =
        (.ok (), (w.insertBlock fileId blockIndex).2) := by
      rw [hrequest.file, insertBlock_ok hfile]
    simp only [maintenanceStep, hcall] at hholds
    exact hw.not_holds_insertBlock hadmits objects hholds
  | deleteBlock blockIndex later =>
    obtain ⟨rfl, _⟩ := List.cons.inj hahead
    obtain ⟨e, he⟩ := deleteBlock_error (hw.entry_eq_none (by decide) hadmits)
    rw [← hrequest.file] at he
    exact Or.inl ⟨e, by simp only [maintenanceStep, he]⟩
  | returned => cases hahead
  | thrown e => cases hahead

theorem maintenance_follows (hrequest : ∀ i, CompleteRequest fileId (op i) (exts i)) :
    (fileAbstraction w₀ fileId op fun i => (exts i).blockIndices).Follows
      (fun i => maintenanceStep (exts i)) fun w => ∃ objects, w.Holds fileId objects where
  sound w h hw := ⟨_, hw.tracks.holds⟩
  idle i run w h hw hlive hahead := by
    cases run with
    | hasFile => cases hahead
    | getBlockMetadata blockIndex later => cases hahead
    | modifyBlock blockIndex later => cases hahead
    | insertBlock blockIndex later => cases hahead
    | deleteBlock blockIndex later => cases hahead
    | returned => exact ⟨hlive, hw, rfl⟩
    | thrown e => exact absurd rfl (hlive e)
  advance i run w h e rest hw hlive hahead hadmits :=
    maintenanceStep_advance (hrequest i) hw hlive hahead hadmits
  fail i run w h e rest hw hlive hahead hadmits hlive' := by
    rcases maintenanceStep_fail (hrequest i) hw hahead hadmits with ⟨e, he⟩ | hgap
    · exact absurd he (hlive' e)
    · exact fun ⟨objects, hholds⟩ => hgap objects hholds

end World

namespace World

variable {w : World κ} {fileId : Bytes} {h : FileHistory} {objects : List Ref}
  [MetadataClass κ] {op : ι → Operation} {exts : ι → DHTDynamicMaintainExt}

/-! ## All schedules -/

/-- A file with versioned blocks as a history: a block has the updates that its version shows. -/
def currentHistory (w : World κ) (objects : List Ref) : FileHistory where
  blocks := objects.map fun r =>
    let m := ((w.heap r).asVersioned).getD {}
    ⟨r, (m.version - 1).toNat, m.timestamp⟩
  nextRef := w.nextRef
  clock := w.clock

omit [MetadataClass κ] in
theorem refs_currentHistory (w : World κ) (objects : List Ref) :
    (w.currentHistory objects).blocks.map TrackedBlock.ref = objects := by
  rw [currentHistory, List.map_map]
  exact List.map_id' objects

omit [MetadataClass κ] in
theorem tracks_currentHistory (hwf : w.WellFormed)
    (hfactory : w.metadataFactory_ = defaultMetadataFactory) (hholds : w.Holds fileId objects)
    (hversioned : ∀ r ∈ objects, ∃ m, w.heap r = .versioned m) :
    Tracks fileId w (w.currentHistory objects) := by
  refine ⟨hwf, hfactory, rfl, rfl, (refs_currentHistory w objects).symm ▸ hholds, fun b hb => ?_⟩
  obtain ⟨r, hr, rfl⟩ := List.mem_map.mp hb
  obtain ⟨m, hm⟩ := hversioned r hr
  simp [hm]

/-- All requests before their first call of the store. -/
abbrev beginMaintenance (w : World κ) (exts : ι → DHTDynamicMaintainExt) :
    Configuration ι (World κ) MaintenanceRun :=
  ⟨w, fun i => .start ⟨.typed (exts i)⟩⟩

variable [DecidableEq ι]

/-- The schedule has carried out the events of the log, and the file is that of its history after
them. -/
abbrev ExplainedBy (w : World κ) (fileId : Bytes) (h : FileHistory) (op : ι → Operation)
    (exts : ι → DHTDynamicMaintainExt) (s : Configuration ι (World κ) MaintenanceRun)
    (log : List (ι × FileEvent)) : Prop :=
  (fileAbstraction w fileId op fun i => (exts i).blockIndices).Explains
    (eventsOf op fun i => (exts i).blockIndices) h s log

omit [MetadataClass κ] in
theorem explainedBy_beginMaintenance (hw : Tracks fileId w h)
    (hrequest : ∀ i, CompleteRequest fileId (op i) (exts i)) :
    ExplainedBy w fileId h op exts (beginMaintenance w exts) [] := by
  refine ⟨fun i e => ?_, fun i => ?_, trivial, hw, fun _ _ _ => rfl⟩
  · dsimp only
    rw [(hrequest i).start]
    exact fun he => nomatch he
  · dsimp only
    rw [(hrequest i).start]
    rfl

variable [Fintype ι]

/-- No schedule of any number of requests on a file makes one of them throw or leaves a gap in the
file, exactly when their indices are in range in the worst order. -/
theorem maintenance_safe_iff_fit (hwf : w.WellFormed)
    (hfactory : w.metadataFactory_ = defaultMetadataFactory) (hholds : w.Holds fileId objects)
    (hversioned : ∀ r ∈ objects, ∃ m, w.heap r = .versioned m)
    (hrequest : ∀ i, CompleteRequest fileId (op i) (exts i)) :
    (∀ schedule : List ι,
        let s := interleave (fun i => maintenanceStep (exts i)) (beginMaintenance w exts) schedule
        (∀ i e, s.own i ≠ .thrown e) ∧ ∃ objects', s.shared.Holds fileId objects') ↔
      FitAnyOrder objects.length op fun i => (exts i).blockIndices := by
  have hw := tracks_currentHistory hwf hfactory hholds hversioned
  have hlength : (w.currentHistory objects).blocks.length = objects.length := List.length_map _
  rw [← hlength, ← forall_merges_admitted_iff (hlength ▸ hholds.bounded)]
  exact (explainedBy_beginMaintenance hw hrequest).forall_schedule_iff
    (maintenance_follows hrequest)

/-- An Update, an Insert and a Delete. -/
def threeOps (i : Fin 3) : Operation := [.update, .insert, .delete].get i

def threeRequests (i : Fin 3) : DHTDynamicMaintainExt where
  fileId := [7]
  opType := (threeOps i).enumerator
  blockIndices := [[4, 1], [1, 6], [2]].get i
  stateStore := true
  sized := by fin_cases i <;> decide

theorem threeRequests_complete (i : Fin 3) :
    CompleteRequest [7] (threeOps i) (threeRequests i) := by
  refine ⟨rfl, by decide, rfl, rfl, ?_⟩
  fin_cases i <;> decide

/-- In a file of five blocks they fit in any order, and are served whatever the schedule. -/
theorem maintenance_safe_iff_fit_three :
    FitAnyOrder 5 threeOps (fun i => (threeRequests i).blockIndices) ∧
      ∀ schedule : List (Fin 3),
        let s := interleave (fun i => maintenanceStep (threeRequests i))
          (beginMaintenance fiveBlocks threeRequests) schedule
        (∀ i e, s.own i ≠ .thrown e) ∧ ∃ objects', s.shared.Holds [7] objects' := by
  have hfit : FitAnyOrder 5 threeOps fun i => (threeRequests i).blockIndices := by decide
  exact ⟨hfit, (maintenance_safe_iff_fit fiveBlocks_wellFormed rfl fiveBlocks_holds
    (fun r hr => ⟨⟨1, 0⟩, fiveBlocks_heap r hr⟩) threeRequests_complete).mpr hfit⟩

/-! ## What the requests add up to -/

/-- The file that a family of requests leaves. -/
structure MaintenanceAddsUp (w : World κ) (fileId : Bytes) (objects : List Ref)
    (op : ι → Operation) (blockIndices : ι → List SizeT) (t : World κ) (objects' : List Ref) :
    Prop where
  holds : t.Holds fileId objects'
  /-- The insertions and the deletions change the number of blocks, and nothing else does. -/
  length : objects'.length + ∑ i, namedFor .delete op blockIndices i =
    objects.length + ∑ i, namedFor .insert op blockIndices i
  /-- The old blocks that are left keep their order. -/
  order : (objects'.filter (· < w.nextRef)).Sublist objects
  /-- Without deletions no update is lost; a new block begins with version one. -/
  versions : (∀ i, op i ≠ .delete) → (objects'.map fun r => (t.heap r).version).sum =
    (objects.map fun r => (w.heap r).version).sum +
      UInt64.ofNat (∑ i, namedFor .insert op blockIndices i +
        ∑ i, namedFor .update op blockIndices i)

omit [MetadataClass κ] [DecidableEq ι] [Fintype ι] in
/-- The versions of a file add up to its blocks and their updates. -/
theorem Tracks.sum_versions (hw : Tracks fileId w h) :
    ((h.blocks.map TrackedBlock.ref).map fun r => (w.heap r).version).sum =
      UInt64.ofNat (h.blocks.length + (h.blocks.map TrackedBlock.updates).sum) := by
  have hblocks : ∀ blocks : List TrackedBlock,
      (∀ b ∈ blocks, w.heap b.ref = .versioned ⟨1 + UInt64.ofNat b.updates, b.written⟩) →
      ((blocks.map TrackedBlock.ref).map fun r => (w.heap r).version).sum =
        UInt64.ofNat (blocks.length + (blocks.map TrackedBlock.updates).sum) := by
    intro blocks hmetadata
    induction blocks with
    | nil => rfl
    | cons b blocks ih =>
      obtain ⟨hb, hrest⟩ := List.forall_mem_cons.mp hmetadata
      have hversion : (w.heap b.ref).version = UInt64.ofNat (1 + b.updates) := by
        rw [hb, UInt64.ofNat_add]
        rfl
      rw [List.map_cons, List.map_cons, List.sum_cons, ih hrest, hversion, ← UInt64.ofNat_add,
        List.length_cons, List.map_cons, List.sum_cons]
      exact congrArg UInt64.ofNat (by omega)
  exact hblocks h.blocks hw.metadata

omit [MetadataClass κ] in
theorem addsUp_of_returned (hw : Tracks fileId w h)
    {s : Configuration ι (World κ) MaintenanceRun} {log : List (ι × FileEvent)}
    (hlog : ExplainedBy w fileId h op exts s log) (hreturned : ∀ i, s.own i = .returned) :
    ∃ objects', MaintenanceAddsUp w fileId (h.blocks.map TrackedBlock.ref) op
      (fun i => (exts i).blockIndices) s.shared objects' := by
  obtain ⟨_, hsplit, haccepted, hshows⟩ := hlog
  have hcount : ∀ o, (log.map Prod.snd).countP (FileEvent.carriesOut o) =
      ∑ i, namedFor o op (fun i => (exts i).blockIndices) i := by
    intro o
    rw [countP_log]
    refine Finset.sum_congr rfl fun i _ => ?_
    have hdone := hsplit i
    rw [hreturned i] at hdone
    rw [← countP_eventsOf, ← hdone]
    exact congrArg _ (List.append_nil _).symm
  have hbounded : h.blocks.length < 2 ^ 64 := by
    have hlength := hw.holds.bounded
    rwa [List.length_map] at hlength
  have hlength := (FileHistory.length_replies hbounded haccepted).2
  rw [hcount, hcount] at hlength
  refine ⟨_, hshows.tracks.holds, ?_, ?_, fun hkeeps => ?_⟩
  · rw [List.length_map, List.length_map]
    exact hlength
  · exact (FileHistory.oldRefs_replies hw.nextRef.ge _).trans List.filter_sublist
  · have hdeleted : ∑ i, namedFor .delete op (fun i => (exts i).blockIndices) i = 0 :=
      Finset.sum_eq_zero fun i _ => if_neg (hkeeps i)
    have hupdates := FileHistory.updates_replies hbounded haccepted ((hcount _).trans hdeleted)
    rw [hdeleted] at hlength
    rw [hcount] at hupdates
    rw [hshows.tracks.sum_versions, hw.sum_versions, ← UInt64.ofNat_add]
    refine congrArg UInt64.ofNat ?_
    change (replies FileHistory.perform h (log.map Prod.snd)).2.blocks.length +
      ((replies FileHistory.perform h (log.map Prod.snd)).2.blocks.map
        TrackedBlock.updates).sum = _
    omega

/-- Requests of all operations that fit in any order: along every schedule the file is that of its
history after the events served so far, which merge the lists of the requests; every merge has a
schedule; each request returns after so many turns of its own; what they leave adds up; and a
request whose turns come in a row is `maintenance`. -/
theorem concurrent_maintenance (hwf : w.WellFormed)
    (hfactory : w.metadataFactory_ = defaultMetadataFactory) (hholds : w.Holds fileId objects)
    (hversioned : ∀ r ∈ objects, ∃ m, w.heap r = .versioned m)
    (hrequest : ∀ i, CompleteRequest fileId (op i) (exts i))
    (hfit : FitAnyOrder objects.length op fun i => (exts i).blockIndices) :
    let run := interleave (fun i => maintenanceStep (exts i)) (beginMaintenance w exts)
    let Explained := ExplainedBy w fileId (w.currentHistory objects) op exts
    (∀ schedule, ∃ log, Explained (run schedule) log) ∧
      (∀ log, Merges log (eventsOf op fun i => (exts i).blockIndices) →
        ∃ schedule, Explained (run schedule) log) ∧
      (∀ schedule i, 2 * (exts i).blockIndices.length + 1 ≤ schedule.count i →
        (run schedule).own i = .returned) ∧
      (∀ schedule, (∀ i, (run schedule).own i = .returned) →
        ∃ objects', MaintenanceAddsUp w fileId objects op (fun i => (exts i).blockIndices)
          (run schedule).shared objects') ∧
      ∀ (s : Configuration ι (World κ) MaintenanceRun) (i : ι),
        s.own i = .start ⟨.typed (exts i)⟩ → ∃ n own,
          interleave (fun i => maintenanceStep (exts i)) s (List.replicate n i) =
            ⟨(s.shared.maintenance ⟨.typed (exts i)⟩).2, Function.update s.own i own⟩ ∧
          own.outcome = some (s.shared.maintenance ⟨.typed (exts i)⟩).1 := by
  intro run Explained
  have hw := tracks_currentHistory hwf hfactory hholds hversioned
  have hlength : (w.currentHistory objects).blocks.length = objects.length := List.length_map _
  have hbegin := explainedBy_beginMaintenance hw hrequest
  have hfollows : (fileAbstraction w fileId op fun i => (exts i).blockIndices).Follows
      (fun i => maintenanceStep (exts i)) fun w => ∃ objects, w.Holds fileId objects :=
    maintenance_follows hrequest
  have haccepts : ∀ log, Merges log (eventsOf op fun i => (exts i).blockIndices) →
      Along FileHistory.perform FileHistory.Admits (w.currentHistory objects)
        (log.map Prod.snd) :=
    (forall_merges_admitted_iff (hlength ▸ hholds.bounded)).mpr (hlength.symm ▸ hfit)
  have hexplained : ∀ schedule, ∃ log, Explained (run schedule) log :=
    hbegin.interleave hfollows haccepts
  refine ⟨hexplained, fun log hmerges => hbegin.exists_schedule hfollows hmerges
    (haccepts log hmerges), fun schedule i hcount => ?_, fun schedule hreturned => ?_,
    fun s i hstart => ?_⟩
  · obtain ⟨log, hlog⟩ := hexplained schedule
    have hle := measure_interleave_le
      (fun i => MaintenanceRun.work_maintenanceStep_le (κ := κ) (exts i))
      (beginMaintenance w exts) schedule i
    dsimp only at hle
    rw [(hrequest i).start, MaintenanceRun.work, Nat.sub_eq_zero_of_le hcount] at hle
    exact MaintenanceRun.returned_of_work (Nat.le_zero.mp hle) (hlog.live i)
  · obtain ⟨log, hlog⟩ := hexplained schedule
    have haddsUp := addsUp_of_returned hw hlog hreturned
    rwa [refs_currentHistory] at haddsUp
  · exact exists_interleave_of_reaches (fun i => maintenanceStep (exts i)) hstart
      (MaintenanceRun.reaches_maintenance (exts i) s.shared)

/-- Five turns each: two blocks are new, one is gone. -/
theorem concurrent_maintenance_three : ∃ objects',
    MaintenanceAddsUp fiveBlocks [7] [0, 1, 2, 3, 4] threeOps
        (fun i => (threeRequests i).blockIndices)
        (interleave (fun i => maintenanceStep (threeRequests i))
          (beginMaintenance fiveBlocks threeRequests)
          (List.replicate 5 [0, 1, 2]).flatten).shared objects' ∧
      objects'.length = 6 := by
  obtain ⟨_, _, hreturned, haddsUp, _⟩ := concurrent_maintenance fiveBlocks_wellFormed rfl
    fiveBlocks_holds (fun r hr => ⟨⟨1, 0⟩, fiveBlocks_heap r hr⟩) threeRequests_complete
    (by decide)
  obtain ⟨objects', h⟩ := haddsUp (List.replicate 5 [0, 1, 2]).flatten fun i =>
    hreturned _ i (by fin_cases i <;> decide)
  refine ⟨objects', h, ?_⟩
  have hdeleted : ∑ i, namedFor .delete threeOps (fun i => (threeRequests i).blockIndices) i =
      1 := by decide
  have hinserted : ∑ i, namedFor .insert threeOps (fun i => (threeRequests i).blockIndices) i =
      2 := by decide
  have hlength := h.length
  rw [hdeleted, hinserted] at hlength
  change objects'.length + 1 = 5 + 2 at hlength
  omega

end World

end DHTDynamic
