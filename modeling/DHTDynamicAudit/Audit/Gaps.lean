import DHTDynamicAudit.Audit.Completeness
import DHTDynamicAudit.Audit.Coverage
import DHTDynamicAudit.Audit.Selectors
import DHTDynamicAudit.Store.Batches

/-!
# Runs that leave a gap

Maintenance in range keeps the registered indices of every file without a gap.
`generateTags` registers only the targets it reaches, so a selector or a window
that starts past the end leaves one, and the draws then miss.
-/

namespace DHTDynamic

open Core

variable {G1 G2 GT κ : Type} {lib : CoreLib G1 G2 GT}

namespace World

variable {w : World κ} {fileId : Bytes} {objects : List Ref} {ext : DHTDynamicMaintainExt}

/-! ## Stores without gaps -/

/-- Every registered file holds a list. -/
def AllHold (w : World κ) : Prop :=
  ∀ f, w.hasFile f = true → ∃ objects, w.Holds f objects

theorem AllHold.now (h : w.AllHold) : w.now.2.AllHold := fun f hf => h f hf

/-- No index lies in `1..0`. -/
theorem not_ne_zero_and_le_zero (i : SizeT) : ¬ (i ≠ 0 ∧ i ≤ 0) := fun ⟨hz, hle⟩ =>
  one_le_iff.mp (UInt64.le_trans (one_le_iff.mpr hz) hle) rfl

theorem withoutGap_of_unregistered (h : ¬ ∃ i, w.Registered fileId i) : w.WithoutGap fileId :=
  ⟨0, fun i => iff_of_false (fun hi => h ⟨i, hi⟩) (not_ne_zero_and_le_zero i)⟩

theorem allHold_iff : w.AllHold ↔ ∀ f, w.WithoutGap f := by
  constructor
  · intro h f
    by_cases hsome : ∃ i, w.Registered f i
    · obtain ⟨i, r, hr⟩ := hsome
      obtain ⟨objects, hholds⟩ := h f (hasFile_of_entry (getBlockMetadata_eq_ok.mp hr))
      exact hholds.withoutGap
    · exact withoutGap_of_unregistered hsome
  · intro h f hf
    obtain ⟨collection, hfile⟩ := Option.isSome_iff_exists.mp hf
    exact (h f).exists_holds hfile

/-- The draws cover every file with a registered block exactly when no file has a gap. -/
theorem allHold_iff_challengesCover (lib : CoreLib G1 G2 GT) :
    w.AllHold ↔ ∀ f, (∃ i, w.Registered f i) → ChallengesCover lib w f := by
  rw [allHold_iff]
  constructor
  · exact fun h f hsome => (challengesCover_iff hsome).mpr (h f)
  · intro h f
    by_cases hsome : ∃ i, w.Registered f i
    · exact (challengesCover_iff hsome).mp (h f hsome)
    · exact withoutGap_of_unregistered hsome

theorem AllHold.empty (factory : BlockMetadataFactory κ) (clock : Stream' UInt64) :
    (World.empty factory clock).AllHold := by
  intro f hf
  simp [World.empty, hasFile] at hf

/-! ## Maintenance -/

section Maintenance

variable [MetadataClass κ]

/-- A call on one file leaves the collections of the others alone. -/
theorem files_blockCall {other : Bytes} (hne : other ≠ fileId) (c : BlockCall) :
    (blockCall fileId w c).2.files_[other]? = w.files_[other]? := by
  have hput : ∀ (u : World κ) collection,
      (u.putCollection fileId collection).files_[other]? = u.files_[other]? := by
    intro u collection
    rw [files_putCollection, if_neg (Ne.symm hne)]
  cases c with
  | insertBlock i =>
    cases hfile : w.files_[fileId]? with
    | none => rw [blockCall, insertBlock_error hfile]
    | some collection =>
      rw [blockCall, insertBlock_ok hfile, hput, files_createMetadata]
  | modifyBlock i =>
    cases hentry : w.entry fileId (i - 1) with
    | none =>
      obtain ⟨e, he⟩ := modifyBlock_error hentry
      rw [blockCall, he]
    | some r => rw [blockCall, modifyBlock_ok hentry, files_bumpObject]
  | deleteBlock i =>
    cases hentry : w.entry fileId (i - 1) with
    | none =>
      obtain ⟨e, he⟩ := deleteBlock_error hentry
      rw [blockCall, he]
    | some r =>
      obtain ⟨collection, hfile, hkey⟩ := exists_collection_of_entry hentry
      rw [blockCall, deleteBlock_ok hfile hkey, hput]

/-- On a registered file a call in range leaves no gap in any file. -/
theorem AllHold.blockCall (h : w.AllHold) (hfile : w.hasFile fileId = true) {c : BlockCall}
    (hc : InRange fileId w c) : (blockCall fileId w c).2.AllHold ∧
      (World.blockCall fileId w c).2.hasFile fileId = true := by
  obtain ⟨objects, hholds⟩ := h fileId hfile
  obtain ⟨objects', hafter⟩ := (hholds.callKeepsFile_iff c).2 hc
  refine ⟨fun f hf => ?_, ?_⟩
  · by_cases hne : f = fileId
    · subst hne
      exact ⟨objects', hafter⟩
    · have hsame := files_blockCall (w := w) hne c
      rw [hasFile, hsame] at hf
      obtain ⟨others, hothers⟩ := h f hf
      exact ⟨others, hothers.of_files_eq hsame⟩
  · exact hafter.hasFile

/-- A loop each of whose passes is a call that needs no range, or nothing. -/
theorem AllHold.forEach (h : w.AllHold) (hfile : w.hasFile fileId = true)
    {body : World κ → SizeT → Outcome κ Unit} (hbody : ∀ u i, (body u i).2 = u ∨
      ∃ c, (∀ v : World κ, InRange fileId v c) ∧ (body u i).2 = (World.blockCall fileId u c).2)
    (blockIndices : List SizeT) : (forEach body w blockIndices).2.AllHold := by
  refine (forEach_preserves (P := fun u : World κ => u.AllHold ∧ u.hasFile fileId = true)
    (fun u i _ hu => ?_) ⟨h, hfile⟩).1
  rcases hbody u i with hsame | ⟨c, hc, hcall⟩
  · rw [hsame]
    exact hu
  · rw [hcall]
    exact hu.1.blockCall hu.2 (hc u)

/-- The Insert loop runs to the end; every pass is a call in range. -/
theorem AllHold.insertLoop (h : w.AllHold) (hfile : w.hasFile fileId = true)
    {blockIndices : List SizeT} (hrange : Along (fun w i => w.insertBlock fileId i)
      (fun w i => InRange fileId w (.insertBlock i)) w blockIndices) :
    (Core.forEach (fun w i => w.insertBlock fileId i) w blockIndices).2.AllHold := by
  refine (Along.forEach (R := fun u v : World κ => u = v ∧ u.AllHold ∧ u.hasFile fileId = true)
    (fun u v i hu hv => ?_) ⟨rfl, h, hfile⟩ hrange).2.2.1
  obtain ⟨rfl, hall, hf⟩ := hu
  obtain ⟨collection, hcollection⟩ := Option.isSome_iff_exists.mp hf
  exact ⟨congrArg Prod.fst (insertBlock_ok hcollection i), rfl, hall.blockCall hf hv⟩

/-- An Insert names positions in range, each on the file the insertions before it left. -/
def InsertsInRange (w : World κ) (ext : DHTDynamicMaintainExt) : Prop :=
  ext.opType = MaintenanceOpType.Insert →
    Along (fun w i => w.insertBlock ext.fileId i)
      (fun w i => InRange ext.fileId w (.insertBlock i)) w.now.2 ext.blockIndices

instance (w : World κ) (ext : DHTDynamicMaintainExt) : Decidable (w.InsertsInRange ext) :=
  inferInstanceAs (Decidable (_ → _))

/-- A maintenance request in range leaves no gap, whether it ends or throws. -/
theorem AllHold.maintenance (h : w.AllHold) {input : MaintainRequest}
    (hrange : ∀ ext ∈ input.ext.cast, w.InsertsInRange ext) :
    (w.maintenance input).2.AllHold := by
  cases hinput : input.ext with
  | null =>
    simp only [World.maintenance, hinput]
    exact h
  | foreign =>
    simp only [World.maintenance, hinput]
    exact h
  | typed ext =>
    obtain rfl : input = ⟨.typed ext⟩ := by rw [← hinput]
    by_cases hdispatch : w.Dispatches ext
    · have hfile : w.now.2.hasFile ext.fileId = true := hdispatch.2.2
      rw [maintenance_of_dispatches hdispatch]
      split_ifs with hupdate hinsert hdelete
      · unfold handleUpdate
        split_ifs
        · exact h.now
        · refine h.now.forEach hfile (fun u i => ?_) ext.blockIndices
          unfold updateOne
          cases u.getBlockMetadata ext.fileId i with
          | error e => exact Or.inl rfl
          | ok r =>
            cases hm : (u.heap r).asVersioned with
            | none => exact Or.inl (by simp only [hm])
            | some m =>
              exact Or.inr ⟨.modifyBlock i, fun _ => trivial, by simp only [hm]; rfl⟩
      · unfold handleInsert
        split_ifs
        · exact h.now
        · exact h.now.insertLoop hfile (hrange ext rfl hinsert)
      · unfold handleDelete
        split_ifs
        · exact h.now
        · exact h.now.forEach hfile
            (fun u i => Or.inr ⟨.deleteBlock i, fun _ => trivial, rfl⟩) ext.blockIndices
      · exact h.now
    · obtain ⟨e, he⟩ := maintenance_of_not_dispatches hdispatch
      rw [he]
      exact h

/-! ## Runs -/

/-- A maintenance request names positions in range; nothing is asked of a tag request. -/
def MaintainsInRange (w : World κ) : AuditCall G1 G2 → Prop
  | .generateTags _ => True
  | .maintenance input => ∀ ext ∈ input.ext.cast, w.InsertsInRange ext

instance (w : World κ) : ∀ call : AuditCall G1 G2, Decidable (w.MaintainsInRange call)
  | .generateTags _ => isTrue trivial
  | .maintenance _ => inferInstanceAs (Decidable (∀ ext ∈ _, _))

/-- The blocks a tag request finds registered and those its loop reaches are together `1..m` for
some `m`; nothing is asked of a maintenance request. -/
def LeavesNoGap (w : World κ) : AuditCall G1 G2 → Prop
  | .maintenance _ => True
  | .generateTags input => ∀ fileId blocks privateParams publicParams targetIndices,
    Accepted input fileId blocks privateParams publicParams targetIndices →
      ∃ m : SizeT, ∀ i, w.Registered fileId i ∨ i ∈ w.reached fileId blocks targetIndices ↔
        i ≠ 0 ∧ i ≤ m

/-- The step lemma: after a request no file has a gap exactly when the request left none. -/
theorem AllHold.auditCall_iff (h : w.AllHold) (ht : lib.TotalPoints) (hw : w.WellFormed)
    {call : AuditCall G1 G2} (hrange : w.MaintainsInRange call) :
    (w.auditCall lib call).2.AllHold ↔ w.LeavesNoGap call := by
  cases call with
  | maintenance input => exact iff_of_true (h.maintenance hrange) trivial
  | generateTags input =>
    by_cases hacc : ∃ fileId blocks privateParams publicParams targetIndices,
        Accepted input fileId blocks privateParams publicParams targetIndices
    · rw [allHold_iff]
      constructor
      · intro hafter fileId blocks privateParams publicParams targetIndices hacc'
        obtain ⟨m, hm⟩ := hafter fileId
        refine ⟨m, fun i => ?_⟩
        rw [← hm i]
        simp [World.auditCall, generateTags_registered ht hw hacc']
      · intro hleaves f
        obtain ⟨fileId, blocks, privateParams, publicParams, targetIndices, hacc'⟩ := hacc
        have hregistered : ∀ i, (w.auditCall lib (.generateTags input)).2.Registered f i ↔ _ :=
          generateTags_registered ht hw hacc' f
        by_cases hf : f = fileId
        · obtain ⟨m, hm⟩ := hleaves _ _ _ _ _ hacc'
          refine ⟨m, fun i => ?_⟩
          rw [← hm i, ← hf]
          simpa [hf] using hregistered i
        · obtain ⟨m, hm⟩ := allHold_iff.mp h f
          exact ⟨m, fun i => by rw [← hm i]; simpa [hf] using hregistered i⟩
    · have hsame : (w.auditCall lib (.generateTags input)).2 = w :=
        (generateTags_of_not_accepted lib w hacc).1
      rw [hsame]
      refine iff_of_true h fun fileId blocks privateParams publicParams targetIndices hacc' => ?_
      exact absurd ⟨fileId, blocks, privateParams, publicParams, targetIndices, hacc'⟩ hacc

/-- Along a run of tag requests and maintenance in range, every state's challenges cover exactly
its registered blocks if and only if no tag request leaves a gap. -/
theorem challengesCover_run_iff (ht : lib.TotalPoints) (factory : BlockMetadataFactory κ)
    (clock : Stream' UInt64) (calls : List (AuditCall G1 G2))
    (hrange : Along (auditCall lib) MaintainsInRange (empty factory clock) calls) :
    (∀ k ≤ calls.length, ∀ f, (∃ i, ((empty factory clock).afterCalls lib calls k).Registered f i) →
        ChallengesCover lib ((empty factory clock).afterCalls lib calls k) f) ↔
      Along (auditCall lib) LeavesNoGap (empty factory clock) calls := by
  simp only [← allHold_iff_challengesCover lib]
  rw [forall_stateAfter_iff]
  have hstart := AllHold.empty factory clock
  have hsteps : Along (auditCall lib) (fun u call => u.MaintainsInRange call ∧
      (u.auditCall lib call).2.AllHold) (empty factory clock) calls ↔
      Along (auditCall lib) (fun u call => u.MaintainsInRange call ∧ u.LeavesNoGap call)
        (empty factory clock) calls := by
    refine along_iff (P := fun u : World κ => u.WellFormed ∧ u.AllHold) ?_ ?_
      ⟨.empty factory clock, hstart⟩
    · rintro u call ⟨hu, _⟩ ⟨_, hafter⟩
      exact ⟨hu.auditCall call, hafter⟩
    · rintro u call ⟨hu, hall⟩
      exact and_congr_right fun hcall => hall.auditCall_iff ht hu hcall
  rw [along_and, along_and] at hsteps
  simpa [hrange, hstart] using hsteps

end Maintenance

/-! ## Windows in order -/

/-- Tagging every block of a window that starts within the file or just past its end leaves no
gap, when the loop runs to its end. -/
theorem exists_bound_of_window {blocks : AuditBlockSource} {m : SizeT}
    (hm : ∀ i, w.Registered fileId i ↔ i ≠ 0 ∧ i ≤ m) (hstart : blocks.globalBlockStartIndex ≤ m)
    (hroom : blocks.globalBlockStartIndex.toNat + blocks.availableBlockCount.toNat < 2 ^ 64)
    {targetIndices : List SizeT} (htargets : resolveTargetBlockIndices none
      blocks.globalBlockStartIndex blocks.availableBlockCount = .ok targetIndices)
    (hgoes : ∀ i ∈ targetIndices, w.stopsAt fileId blocks i = false) :
    ∃ m' : SizeT, ∀ i, w.Registered fileId i ∨ i ∈ w.reached fileId blocks targetIndices ↔
      i ≠ 0 ∧ i ≤ m' := by
  have hstart' := UInt64.le_iff_toNat_le.mp hstart
  have hbound : max m.toNat (blocks.globalBlockStartIndex.toNat +
      blocks.availableBlockCount.toNat) < 2 ^ 64 := max_lt m.toNat_lt hroom
  refine ⟨UInt64.ofNat (max m.toNat (blocks.globalBlockStartIndex.toNat +
    blocks.availableBlockCount.toNat)), fun i => ?_⟩
  rw [reached_of_forall hgoes, mem_window_iff htargets hroom, InWindow, hm, UInt64.le_iff_toNat_le,
    UInt64.le_iff_toNat_le, toNat_ofNat_lt hbound, le_max_iff, Ne, ← UInt64.toNat_inj]
  have hzero : (0 : UInt64).toNat = 0 := rfl
  rw [hzero]
  omega

/-- A run that tags a whole file and inserts at both of its ends. -/
theorem challengesCover_run_whole_file :
    let lib := zmodLib fun input => input.length
    let start : World Empty := empty defaultMetadataFactory (Stream'.const 0)
    let calls : List (AuditCall (ZMod 5) (ZMod 5)) :=
      [.generateTags (tagRequest [7] [[1], [1]] none),
        .maintenance ⟨.typed ⟨[7], .Insert, [1, 4], true, by decide⟩⟩]
    ∀ k ≤ 2, ∀ f, (∃ i, (start.afterCalls lib calls k).Registered f i) →
      ChallengesCover lib (start.afterCalls lib calls k) f := by
  refine (challengesCover_run_iff ⟨fun _ _ => rfl, fun _ _ => rfl⟩ defaultMetadataFactory
    (Stream'.const 0) [.generateTags (tagRequest [7] [[1], [1]] none),
      .maintenance ⟨.typed ⟨[7], .Insert, [1, 4], true, by decide⟩⟩] (by decide)).mpr
    ⟨?_, trivial, trivial⟩
  rintro fileId blocks privateParams publicParams targetIndices ⟨_, hext, hsource, htargets⟩
  cases hext
  cases hsource
  obtain rfl : [1, 2] = targetIndices := Except.ok.inj htargets
  refine exists_bound_of_window (m := 0) (fun i => iff_of_false ?_ (not_ne_zero_and_le_zero i))
    (UInt64.le_refl 0) (by decide) rfl
    (List.forall_mem_cons.mpr ⟨rfl, List.forall_mem_singleton.mpr rfl⟩)
  rintro ⟨r, hr⟩
  exact nomatch hr

/-- Tagging only block two of a fresh file registers one block, so block one is drawn: it has no
metadata, and block two is never drawn. -/
theorem challenge_misses_after_sparse_tags :
    let lib := zmodLib fun input => input.length
    let start : World Empty := empty defaultMetadataFactory (Stream'.const 0)
    let calls : List (AuditCall (ZMod 5) (ZMod 5)) :=
      [.generateTags (tagRequest [7] [[1], [1]] (some [2]))]
    let reached := start.afterCalls lib calls 1
    Along (auditCall lib) MaintainsInRange start calls ∧ reached.Registered [7] 2 ∧
      reached.generateChallenges lib (.scripted [1]) 2 (some unitAlgorithm)
        (.typed (challengeRequest [7] 1)) =
          some (.error (.blockNull .getBlockMetadata 1 [7])) ∧
      ¬ ChallengesCover lib reached [7] := by
  refine ⟨by decide, ⟨0, by decide⟩, rfl, fun h => ?_⟩
  exact h.1 (.scripted [1]) 2 (some unitAlgorithm) (challengeRequest [7] 1) rfl rfl 1 rfl

end World

end DHTDynamic
