import DHTDynamicAudit.Audit.Equation
import DHTDynamicAudit.Audit.MaintenanceRuns
import DHTDynamicAudit.Audit.Runs

/-!
# Concurrent updates

No object is registered at two places, so a bump changes the version of one
block only. What the runs have still to bump and what the store has been bumped
add up to the same sum along every schedule.
-/

namespace DHTDynamic

open Core

variable {G1 G2 GT κ ι : Type} {lib : CoreLib G1 G2 GT}

namespace World

variable [MetadataClass κ] {w w' w₀ : World κ} {fileId : Bytes} {blockIndex key : SizeT}
  {ext : DHTDynamicMaintainExt} {rest : List SizeT} {r : Ref} {run : UpdateRun}

/-! ## Nobody else moves -/

/-- An Update whose turns come in a row is `maintenance`, wherever the other requests are. -/
theorem interleave_maintenance {ι : Type} [DecidableEq ι] {exts : ι → DHTDynamicMaintainExt}
    {s : Configuration ι (World κ) UpdateRun} {i : ι}
    (hupdate : (exts i).opType = MaintenanceOpType.Update)
    (hstart : s.own i = .start ⟨.typed (exts i)⟩) :
    ∃ n run, interleave (fun i => updateStep (exts i)) s (List.replicate n i) =
        ⟨(s.shared.maintenance ⟨.typed (exts i)⟩).2, Function.update s.own i run⟩ ∧
      run.outcome = some (s.shared.maintenance ⟨.typed (exts i)⟩).1 :=
  exists_interleave_of_reaches (fun i => updateStep (exts i)) hstart
    (UpdateRun.reaches_maintenance hupdate s.shared)

/-! ## One step among others -/

end World

/-- The indices that a run has still to bump. -/
def UpdateRun.ahead (ext : DHTDynamicMaintainExt) : UpdateRun → List SizeT
  | .hasFile => ext.blockIndices
  | .getBlockMetadata blockIndex rest | .modifyBlock blockIndex rest => blockIndex :: rest
  | .returned | .thrown _ => []

@[simp] theorem UpdateRun.ahead_next (ext : DHTDynamicMaintainExt) (rest : List SizeT) :
    (UpdateRun.next rest).ahead ext = rest := by
  cases rest <;> rfl

theorem UpdateRun.next_ne_thrown {rest : List SizeT} {e : Exception} :
    UpdateRun.next rest ≠ .thrown e := by
  cases rest <;> exact fun h => nomatch h

namespace World

variable {w w' w₀ : World κ} {fileId : Bytes} {blockIndex key : SizeT}
  {ext : DHTDynamicMaintainExt} {rest : List SizeT} {r : Ref} {run : UpdateRun}

/-- A complete Update request for registered blocks of a file. -/
structure UpdateRequest (w : World κ) (fileId : Bytes) (ext : DHTDynamicMaintainExt) : Prop where
  file : ext.fileId = fileId
  named : fileId ≠ []
  update : ext.opType = MaintenanceOpType.Update
  store : ext.stateStore = true
  nonempty : ext.blockIndices ≠ []
  registered : ∀ i ∈ ext.blockIndices, w.Registered fileId i

theorem UpdateRequest.start (h : w.UpdateRequest fileId ext) :
    UpdateRun.start ⟨.typed ext⟩ = .hasFile := by
  have hfile : ext.fileId.isEmpty = false := by simpa [h.file] using h.named
  simp only [UpdateRun.start, hfile, h.store, Bool.not_true, Bool.false_eq_true, if_false]

/-- The metadata that maintenance requests find is of the versioned class. -/
def Versioned (w : World κ) : Prop :=
  ∀ g key m, w.metadataAt g key = some m → ∃ v, m = .versioned v

/-- The store with some of its objects bumped: files and classes are as they were, and an object
that no list names is untouched. -/
structure OnlyBumped (w₀ : World κ) (fileId : Bytes) (listed : Set SizeT) (w : World κ) :
    Prop where
  files : w.files_ = w₀.files_
  nextRef : w.nextRef = w₀.nextRef
  versioned : ∀ r m, w₀.heap r = .versioned m → ∃ m', w.heap r = .versioned m'
  unlisted : ∀ r, (∀ i ∈ listed, w₀.entry fileId (i - 1) ≠ some r) → w.heap r = w₀.heap r

theorem OnlyBumped.refl (w : World κ) (fileId : Bytes) (listed : Set SizeT) :
    w.OnlyBumped fileId listed w :=
  ⟨rfl, rfl, fun _ m hm => ⟨m, hm⟩, fun _ _ => rfl⟩

theorem OnlyBumped.entry {listed : Set SizeT} (h : w₀.OnlyBumped fileId listed w) (g : Bytes)
    (key : SizeT) : w.entry g key = w₀.entry g key := by
  rw [World.entry, World.entry, h.files]

theorem OnlyBumped.now {listed : Set SizeT} (h : w₀.OnlyBumped fileId listed w) :
    w₀.OnlyBumped fileId listed w.now.2 :=
  ⟨h.files, h.nextRef, h.versioned, h.unlisted⟩

/-- An object that shows at an unlisted place is not listed. -/
theorem metadataAt_of_onlyBumped {listed : Set SizeT} (hwf : w₀.WellFormed)
    (h : w₀.OnlyBumped fileId listed w) {g : Bytes} {key : SizeT}
    (hplace : g = fileId → key + 1 ∉ listed) : w.metadataAt g key = w₀.metadataAt g key := by
  rw [metadataAt, metadataAt, h.entry]
  cases hr : w₀.entry g key with
  | none => rfl
  | some r =>
    refine congrArg some (h.unlisted r fun i hi hentry => ?_)
    obtain ⟨hg, hkey⟩ := hwf.unshared _ _ _ _ r hr hentry
    rw [hkey, sub_add_cancel] at hplace
    exact hplace hg hi

/-- A run has only listed indices ahead and has not thrown. -/
structure UpdatePoint (ext : DHTDynamicMaintainExt) (run : UpdateRun) : Prop where
  listed : ∀ i ∈ run.ahead ext, i ∈ ext.blockIndices
  running : ∀ e, run ≠ .thrown e

/-! ## The start -/

/-- The indices that some request names. -/
def listedIndices (ext : ι → DHTDynamicMaintainExt) : Set SizeT :=
  { b | ∃ i, b ∈ (ext i).blockIndices }

/-- All requests before their first one to the store. -/
abbrev beginUpdates (w : World κ) (ext : ι → DHTDynamicMaintainExt) :
    Configuration ι (World κ) UpdateRun :=
  ⟨w, fun i => .start ⟨.typed (ext i)⟩⟩

theorem asserts_beginUpdates {exts : ι → DHTDynamicMaintainExt}
    (hrequest : ∀ i, w₀.UpdateRequest fileId (exts i)) :
    Asserts (w₀.OnlyBumped fileId (listedIndices exts))
      (fun i run _ => UpdatePoint (exts i) run) (fun _ _ => True) (beginUpdates w₀ exts) := by
  refine ⟨.refl _ _ _, fun i => ?_, fun _ _ _ => trivial⟩
  dsimp only
  rw [(hrequest i).start]
  exact ⟨fun _ hb => hb, fun e he => nomatch he⟩

/-! ## Steps -/

variable [MetadataClass κ]

theorem OnlyBumped.bumpObject {listed : Set SizeT} (h : w₀.OnlyBumped fileId listed w)
    (hi : blockIndex ∈ listed) (hr : w₀.entry fileId (blockIndex - 1) = some r) :
    w₀.OnlyBumped fileId listed (w.bumpObject r) := by
  refine ⟨h.files, h.nextRef, fun q m hm => ?_, fun q hq => ?_⟩
  · obtain ⟨m', hm'⟩ := h.versioned q m hm
    rw [heap_bumpObject]
    by_cases hqr : q = r
    · subst hqr
      rw [Function.update_self, hm']
      exact ⟨_, rfl⟩
    · rw [Function.update_of_ne hqr]
      exact ⟨m', hm'⟩
  · rw [heap_bumpObject, Function.update_of_ne]
    · exact h.unlisted q hq
    · rintro rfl
      exact hq blockIndex hi hr

/-- A step of a run bumps the next object of its list, or leaves list and objects as they are. -/
theorem updateStep_cases {listed : Set SizeT} (hrequest : w₀.UpdateRequest fileId ext)
    (hversioned : w₀.Versioned) (hw : w₀.OnlyBumped fileId listed w)
    (h : UpdatePoint ext run) :
    (∃ run', run'.ahead ext = run.ahead ext ∧ (∀ e, run' ≠ .thrown e) ∧
      (updateStep ext run w = (run', w) ∨ updateStep ext run w = (run', w.now.2))) ∨
      ∃ blockIndex rest r, run.ahead ext = blockIndex :: rest ∧
        w₀.entry fileId (blockIndex - 1) = some r ∧
        updateStep ext run w = (.next rest, w.bumpObject r) := by
  have hentry : ∀ i ∈ ext.blockIndices, ∃ r, w₀.entry fileId (i - 1) = some r := fun i hi =>
    Option.isSome_iff_exists.mp (registered_iff.mp (hrequest.registered i hi))
  cases run with
  | hasFile =>
    obtain ⟨i, is, hlist⟩ := List.exists_cons_of_ne_nil hrequest.nonempty
    obtain ⟨r, hr⟩ := hentry i (hlist ▸ List.mem_cons_self)
    have hfile : w.hasFile ext.fileId = true := by
      rw [hasFile, hw.files, hrequest.file]
      exact hasFile_of_entry hr
    have hempty : ext.blockIndices.isEmpty = false := by rw [hlist, List.isEmpty_cons]
    refine Or.inl ⟨.next ext.blockIndices, UpdateRun.ahead_next _ _,
      fun e => UpdateRun.next_ne_thrown, Or.inr ?_⟩
    simp only [updateStep, hfile, hempty, if_true, Bool.false_eq_true, if_false]
  | getBlockMetadata blockIndex rest =>
    obtain ⟨r, hr⟩ := hentry blockIndex (h.listed blockIndex List.mem_cons_self)
    have hget : w.getBlockMetadata ext.fileId blockIndex = .ok r := by
      rw [getBlockMetadata_eq_ok, hrequest.file, hw.entry, hr]
    obtain ⟨m, hm⟩ := hversioned fileId (blockIndex - 1) (w₀.heap r)
      (metadataAt_eq_some.mpr ⟨r, hr, rfl⟩)
    obtain ⟨m', hm'⟩ := hw.versioned r m hm
    refine Or.inl ⟨.modifyBlock blockIndex rest, rfl, fun e he => (by cases he), Or.inl ?_⟩
    simp only [updateStep, hget, hm', BlockMetadata.asVersioned_versioned]
  | modifyBlock blockIndex rest =>
    obtain ⟨r, hr⟩ := hentry blockIndex (h.listed blockIndex List.mem_cons_self)
    have hmodify : w.modifyBlock ext.fileId blockIndex = (.ok (), w.bumpObject r) := by
      apply modifyBlock_ok
      rw [hrequest.file, hw.entry, hr]
    exact Or.inr ⟨blockIndex, rest, r, rfl, hr, by simp only [updateStep, hmodify]⟩
  | returned => exact Or.inl ⟨.returned, rfl, h.running, Or.inl rfl⟩
  | thrown e => exact absurd rfl (h.running e)

theorem UpdatePoint.step {listed : Set SizeT} (hrequest : w₀.UpdateRequest fileId ext)
    (hversioned : w₀.Versioned) (hlisted : ∀ i ∈ ext.blockIndices, i ∈ listed)
    (hw : w₀.OnlyBumped fileId listed w) (h : UpdatePoint ext run) :
    w₀.OnlyBumped fileId listed (updateStep ext run w).2 ∧
      UpdatePoint ext (updateStep ext run w).1 := by
  rcases updateStep_cases hrequest hversioned hw h with
    ⟨run', hahead, hrunning, hout | hout⟩ | ⟨blockIndex, rest, r, hahead, hr, hout⟩
  · rw [hout]
    exact ⟨hw, by rw [hahead]; exact h.listed, hrunning⟩
  · rw [hout]
    exact ⟨hw.now, by rw [hahead]; exact h.listed, hrunning⟩
  · have hmem := h.listed
    rw [hahead, List.forall_mem_cons] at hmem
    rw [hout]
    exact ⟨hw.bumpObject (hlisted _ hmem.1) hr, by rw [UpdateRun.ahead_next]; exact hmem.2,
      fun e => UpdateRun.next_ne_thrown⟩

/-! ## Versions and indices ahead -/

end World

/-- The version of versioned metadata. -/
def BlockMetadata.version (m : BlockMetadata κ) : UInt64 :=
  match m with
  | .versioned v => v.version
  | .custom _ => 0

theorem ofNat_sum [Fintype ι] (f : ι → Nat) :
    UInt64.ofNat (∑ i, f i) = ∑ i, UInt64.ofNat (f i) :=
  map_sum (AddMonoidHom.mk' UInt64.ofNat UInt64.ofNat_add : ℕ →+ UInt64) f Finset.univ

namespace World

variable {w w' w₀ : World κ} {fileId : Bytes} {blockIndex key : SizeT}
  {ext : DHTDynamicMaintainExt} {rest : List SizeT} {r : Ref} {run : UpdateRun}
  [MetadataClass κ]

/-- One step moves one bump of a block from the list of the run into its version, or none. -/
theorem version_updateStep {listed : Set SizeT} (hwf : w₀.WellFormed)
    (hrequest : w₀.UpdateRequest fileId ext) (hversioned : w₀.Versioned)
    (hw : w₀.OnlyBumped fileId listed w) (h : UpdatePoint ext run) {b : SizeT}
    (hr : w₀.entry fileId (b - 1) = some r) :
    ((updateStep ext run w).2.heap r).version +
        UInt64.ofNat (((updateStep ext run w).1.ahead ext).count b) =
      (w.heap r).version + UInt64.ofNat ((run.ahead ext).count b) := by
  rcases updateStep_cases hrequest hversioned hw h with
    ⟨run', hahead, _, hout | hout⟩ | ⟨blockIndex, rest, q, hahead, hq, hout⟩
  · rw [hout, hahead]
  · rw [hout, hahead]
    rfl
  · rw [hout, hahead, UpdateRun.ahead_next, heap_bumpObject]
    by_cases hb : blockIndex = b
    · subst hb
      obtain rfl : q = r := Option.some.inj (hq.symm.trans hr)
      obtain ⟨m, hm⟩ := hversioned fileId (blockIndex - 1) (w₀.heap q)
        (metadataAt_eq_some.mpr ⟨q, hr, rfl⟩)
      obtain ⟨m', hm'⟩ := hw.versioned q m hm
      rw [Function.update_self, hm', List.count_cons_self, UInt64.ofNat_add,
        BlockMetadata.bump_versioned]
      simp only [BlockMetadata.version, VersionedBlockMetadata.bump]
      rw [add_assoc, add_comm 1]
      rfl
    · have hne : r ≠ q := by
        rintro rfl
        exact hb (sub_left_inj.mp (hwf.unshared _ _ _ _ r hq hr).2)
      rw [Function.update_of_ne hne, List.count_cons_of_ne hb]

/-! ## All runs -/

section Runs

variable {exts : ι → DHTDynamicMaintainExt}

theorem updateRuns_nonInterfering (hrequest : ∀ i, w₀.UpdateRequest fileId (exts i))
    (hversioned : w₀.Versioned) :
    NonInterfering (fun i => updateStep (κ := κ) (exts i))
      (w₀.OnlyBumped fileId (listedIndices exts)) (fun i run _ => UpdatePoint (exts i) run)
      fun _ _ => True where
  symm _ _ h := h
  own i _ _ hw h := h.step (hrequest i) hversioned (fun _ hb => ⟨i, hb⟩) hw
  other _ _ _ _ _ _ _ _ h' _ := ⟨h', trivial⟩

variable [DecidableEq ι]

theorem interleave_onlyBumped (hrequest : ∀ i, w₀.UpdateRequest fileId (exts i))
    (hversioned : w₀.Versioned) (schedule : List ι) :
    Asserts (w₀.OnlyBumped fileId (listedIndices exts))
      (fun i run _ => UpdatePoint (exts i) run) (fun _ _ => True)
      (interleave (fun i => updateStep (exts i)) (beginUpdates w₀ exts) schedule) :=
  (updateRuns_nonInterfering hrequest hversioned).interleave (asserts_beginUpdates hrequest)
    schedule

/-- The version a block has and the bumps that are still ahead make the same sum along every
schedule. -/
theorem version_interleave [Fintype ι] (hwf : w₀.WellFormed)
    (hrequest : ∀ i, w₀.UpdateRequest fileId (exts i)) (hversioned : w₀.Versioned)
    (schedule : List ι) {b : SizeT} (hr : w₀.entry fileId (b - 1) = some r) :
    let s := interleave (fun i => updateStep (exts i)) (beginUpdates w₀ exts) schedule
    (s.shared.heap r).version + UInt64.ofNat (∑ i, ((s.own i).ahead (exts i)).count b) =
      (w₀.heap r).version + UInt64.ofNat (∑ i, (exts i).blockIndices.count b) := by
  intro s
  have hsum := interleave_conserves (fun w : World κ => (w.heap r).version)
    (fun i run => UInt64.ofNat ((UpdateRun.ahead (exts i) run).count b))
    (updateRuns_nonInterfering hrequest hversioned)
    (fun i run w hw h => version_updateStep hwf (hrequest i) hversioned hw h hr)
    (asserts_beginUpdates hrequest) schedule
  have hstart : ∀ i, ((beginUpdates w₀ exts).own i).ahead (exts i) = (exts i).blockIndices := by
    intro i
    dsimp only
    rw [(hrequest i).start]
    rfl
  simp only [hstart] at hsum
  rw [ofNat_sum, ofNat_sum]
  exact hsum

end Runs

end World

namespace World

variable {w w' w₀ : World κ} {fileId : Bytes} [MetadataClass κ]

/-! ## Requests on reached stores -/

/-- The stores that the owner's calls lead to, whatever they return. -/
inductive Reached (lib : CoreLib G1 G2 GT) : World κ → Prop where
  | empty (factory : BlockMetadataFactory κ) (clock : Stream' UInt64) :
    Reached lib (empty factory clock)
  | addFile {w : World κ} (h : Reached lib w) (fileId : Bytes) : Reached lib (w.addFile fileId).2
  | addFileWithBlocks {w : World κ} (h : Reached lib w) (fileId : Bytes) (blockCount : SizeT) :
    Reached lib (w.addFileWithBlocks fileId blockCount).2
  | auditCall {w : World κ} (h : Reached lib w) (call : AuditCall G1 G2) :
    Reached lib (w.auditCall lib call).2

theorem Reached.wellFormed (h : Reached lib w) : w.WellFormed := by
  induction h with
  | empty factory clock => exact .empty factory clock
  | addFile _ fileId ih => exact ih.addFile fileId
  | addFileWithBlocks _ fileId blockCount ih => exact ih.addFileWithBlocks fileId blockCount
  | auditCall _ call ih => exact ih.auditCall call

/-- The version that a file shows at a key. -/
def versionAt (w : World κ) (fileId : Bytes) (key : SizeT) : Option UInt64 :=
  (w.metadataAt fileId key).bind fun m => m.asVersioned.map VersionedBlockMetadata.version

/-- How Update requests stand at any moment of a schedule. -/
structure UpdatesAddUp [Fintype ι] (w : World κ) (fileId : Bytes)
    (exts : ι → DHTDynamicMaintainExt) (s : Configuration ι (World κ) UpdateRun) : Prop where
  /-- No request throws. -/
  running : ∀ i e, s.own i ≠ .thrown e
  /-- The files and their registered indices are those of the start. -/
  hasFile : ∀ g, s.shared.hasFile g = w.hasFile g
  registered : ∀ g i, s.shared.Registered g i ↔ w.Registered g i
  /-- Blocks that no request names keep version and timestamp, and so does every other file. -/
  unlisted : ∀ b, (∀ i, b ∉ (exts i).blockIndices) →
    s.shared.metadataAt fileId (b - 1) = w.metadataAt fileId (b - 1)
  otherFiles : ∀ g, g ≠ fileId → ∀ key, s.shared.metadataAt g key = w.metadataAt g key
  /-- When all have returned, a block has one more version for each time it is named. -/
  versions : (∀ i, s.own i = .returned) → ∀ b, s.shared.versionAt fileId (b - 1) =
    (w.versionAt fileId (b - 1)).map
      (· + UInt64.ofNat (∑ i, (exts i).blockIndices.count b))

theorem updatesAddUp [Fintype ι] [DecidableEq ι] (hwf : w.WellFormed) (hversioned : w.Versioned)
    {exts : ι → DHTDynamicMaintainExt} (hrequest : ∀ i, w.UpdateRequest fileId (exts i))
    (schedule : List ι) : UpdatesAddUp w fileId exts
      (interleave (fun i => updateStep (exts i)) (beginUpdates w exts) schedule) := by
  obtain ⟨hbumped, hpoint, _⟩ := interleave_onlyBumped hrequest hversioned schedule
  refine ⟨fun i => (hpoint i).running, fun g => ?_, fun g i => ?_, fun b hb => ?_,
    fun g hg key => ?_, fun hreturned b => ?_⟩
  · rw [World.hasFile, World.hasFile, hbumped.files]
  · rw [registered_iff, registered_iff, hbumped.entry]
  · refine metadataAt_of_onlyBumped hwf hbumped fun _ hlisted => ?_
    rw [sub_add_cancel] at hlisted
    obtain ⟨i, hi⟩ := hlisted
    exact hb i hi
  · exact metadataAt_of_onlyBumped hwf hbumped fun hfile => absurd hfile hg
  · rw [versionAt, versionAt, metadataAt, metadataAt, hbumped.entry]
    cases hr : w.entry fileId (b - 1) with
    | none => rfl
    | some r =>
      obtain ⟨m, hm⟩ := hversioned fileId (b - 1) (w.heap r)
        (metadataAt_eq_some.mpr ⟨r, hr, rfl⟩)
      obtain ⟨m', hm'⟩ := hbumped.versioned r m hm
      have hsum := version_interleave hwf hrequest hversioned schedule hr
      simp only [hreturned, UpdateRun.ahead, List.count_nil, Finset.sum_const_zero] at hsum
      rw [hm, hm'] at hsum
      rw [Option.map_some, Option.map_some, Option.bind_some, Option.bind_some, hm, hm']
      exact congrArg some ((add_zero _).symm.trans hsum)

/-- For every reached store with versioned metadata, any number of Update requests on a file and
any schedule: no request throws, each returns after so many turns of its own, and the versions
add up; they depend on how often each block is named and on nothing else. -/
theorem concurrent_updates_add_up [Fintype ι] [DecidableEq ι] (hreached : Reached lib w)
    (hversioned : w.Versioned) {exts : ι → DHTDynamicMaintainExt}
    (hrequest : ∀ i, w.UpdateRequest fileId (exts i)) (schedule : List ι) :
    let run := fun exts : ι → DHTDynamicMaintainExt =>
      interleave (fun i => updateStep (exts i)) (beginUpdates w exts)
    let s := run exts schedule
    UpdatesAddUp w fileId exts s ∧
      (∀ i, 2 * (exts i).blockIndices.length + 1 ≤ schedule.count i → s.own i = .returned) ∧
      ∀ (exts' : ι → DHTDynamicMaintainExt) (schedule' : List ι),
        (∀ i, w.UpdateRequest fileId (exts' i)) →
        (∀ b, ∑ i, (exts' i).blockIndices.count b = ∑ i, (exts i).blockIndices.count b) →
        (∀ i, s.own i = .returned) → (∀ i, (run exts' schedule').own i = .returned) →
        ∀ b, (run exts' schedule').shared.versionAt fileId (b - 1) =
          s.shared.versionAt fileId (b - 1) := by
  intro run s
  have hwf := hreached.wellFormed
  have hadd := updatesAddUp hwf hversioned hrequest schedule
  refine ⟨hadd, fun i hcount => ?_, fun exts' schedule' hrequest' hsame hs hs' b => ?_⟩
  · have hle := measure_interleave_le
      (fun i => UpdateRun.work_updateStep_le (κ := κ) (hrequest i).update)
      (beginUpdates w exts) schedule i
    dsimp only at hle
    rw [(hrequest i).start, UpdateRun.work_hasFile, Nat.sub_eq_zero_of_le hcount] at hle
    exact UpdateRun.returned_of_work (Nat.le_zero.mp hle) (hadd.running i)
  · have hadd' := updatesAddUp hwf hversioned hrequest' schedule'
    rw [hadd'.versions hs' b, hadd.versions hs b, hsame b]

/-- Two requests on a file of two blocks; the first block is named three times in all. -/
theorem concurrent_updates_add_up_two :
    let start : World Empty :=
      ((empty defaultMetadataFactory (Stream'.const 0)).addFileWithBlocks [7] 2).2
    let exts := fun i : Bool =>
      (⟨[7], .Update, cond i [1, 2, 1] [1], true, by cases i <;> decide⟩ : DHTDynamicMaintainExt)
    let s := interleave (fun i => updateStep (exts i)) (beginUpdates start exts)
      [true, false, true, false, true, false, true, true, true, true]
    UpdatesAddUp start [7] exts s ∧ (∀ i, s.own i = .returned) ∧
      s.shared.versionAt [7] 0 = some 4 ∧ s.shared.versionAt [7] 1 = some 2 := by
  intro start exts s
  have hreached : Reached (zmodLib fun input => input.length) start :=
    (Reached.empty _ _).addFileWithBlocks [7] 2
  have hversioned : start.Versioned := by
    rintro g key (v | m) _
    · exact ⟨v, rfl⟩
    · exact nomatch m
  have hrequest : ∀ i, start.UpdateRequest [7] (exts i) := by
    have hfirst : start.Registered [7] 1 := ⟨0, rfl⟩
    have hsecond : start.Registered [7] 2 := ⟨1, rfl⟩
    rintro (_ | _)
    · exact ⟨rfl, by decide, rfl, rfl, by decide, List.forall_mem_singleton.mpr hfirst⟩
    · exact ⟨rfl, by decide, rfl, rfl, by decide, List.forall_mem_cons.mpr ⟨hfirst,
        List.forall_mem_cons.mpr ⟨hsecond, List.forall_mem_singleton.mpr hfirst⟩⟩⟩
  obtain ⟨hadd, hcount, _⟩ := concurrent_updates_add_up hreached hversioned hrequest
    [true, false, true, false, true, false, true, true, true, true]
  have hreturned : ∀ i, s.own i = .returned := by
    rintro (_ | _)
    · exact hcount false (by decide)
    · exact hcount true (by decide)
  exact ⟨hadd, hreturned, hadd.versions hreturned 1, hadd.versions hreturned 2⟩

end World

end DHTDynamic
