import DHTDynamicAudit.Audit.FirstRegistration

/-!
# Concurrent tagging of disjoint windows

Runs whose targets have no block in common never meet: between the miss and the
registration of a block nobody else touches it. Every run ends as it would end
alone, and together they register what they would register one after the other.
-/

namespace DHTDynamic

open Core
open Std (ExtTreeMap)

variable {G1 G2 GT κ ι : Type} {lib : CoreLib G1 G2 GT}

/-- The targets that a run has not passed yet. -/
def TagRun.ahead (job : TagJob G1) : TagRun G1 → List SizeT
  | .hasFile | .addFile => job.targetIndices
  | .getBlockMetadata blockIndex rest _ | .getBlockMetadataCollection _ blockIndex rest _
  | .set _ blockIndex rest _ => blockIndex :: rest
  | .returned _ | .thrown _ => []

/-- The block that a run has found without metadata and is about to register. -/
def TagRun.claims : TagRun G1 → Option SizeT
  | .getBlockMetadataCollection _ blockIndex _ _ | .set _ blockIndex _ _ => some blockIndex
  | _ => none

namespace World

variable {w w' w₀ : World κ} {fileId : Bytes} {blockIndex key : SizeT} {job : TagJob G1}
  {rest : List SizeT} {made : MadeTags G1} {metadata r : Ref} {run : TagRun G1}

theorem stopsAt_eq (w : World κ) (fileId : Bytes) (blocks : AuditBlockSource) (i : SizeT) :
    w.stopsAt fileId blocks i = (w.stopException fileId blocks i).isSome := by
  rw [stopsAt, stopException]
  cases w.hasForeignMetadata fileId i with
  | true => rfl
  | false =>
    rw [Bool.false_or, if_neg Bool.false_ne_true, AuditBlockSource.read]
    cases blocks.block (i - 1 - blocks.globalBlockStartIndex) <;> rfl

@[simp] theorem ahead_next (made : MadeTags G1) (rest : List SizeT) :
    (TagRun.next made rest).ahead job = rest := by
  cases rest <;> rfl

@[simp] theorem claims_next (made : MadeTags G1) (rest : List SizeT) :
    (TagRun.next made rest).claims = none := by
  cases rest <;> rfl

/-! ## One run among its own targets -/

/-- Among the targets of a run exactly those are registered that were at the start or that its
loop has reached; the one it is about to register is not. -/
structure OwnTargets (w₀ : World κ) (job : TagJob G1) (run : TagRun G1) (w : World κ) : Prop where
  reached : ∃ done, w₀.reached job.fileId job.blocks job.targetIndices =
      done ++ w₀.reached job.fileId job.blocks (run.ahead job) ∧
    ∀ i ∈ job.targetIndices, (w.entry job.fileId (i - 1)).isSome ↔
      (w₀.entry job.fileId (i - 1)).isSome ∨ i ∈ done
  claimed : ∀ i, run.claims = some i →
    i ∈ job.targetIndices ∧ w.entry job.fileId (i - 1) = none

theorem OwnTargets.start : OwnTargets w₀ job .hasFile w₀ :=
  ⟨⟨[], rfl, fun i _ => by simp⟩, fun i hi => by cases hi⟩

/-- It only looks at entries of its own targets. -/
theorem OwnTargets.of_entry (h : OwnTargets w₀ job run w)
    (hentry : ∀ i ∈ job.targetIndices,
      w'.entry job.fileId (i - 1) = w.entry job.fileId (i - 1)) : OwnTargets w₀ job run w' := by
  obtain ⟨⟨done, hsplit, hiff⟩, hclaimed⟩ := h
  refine ⟨⟨done, hsplit, fun i hi => ?_⟩, fun i hi => ?_⟩
  · rw [hentry i hi]
    exact hiff i hi
  · obtain ⟨hmem, hnone⟩ := hclaimed i hi
    exact ⟨hmem, (hentry i hmem).trans hnone⟩

/-- The end of a pass puts its block behind the run. -/
theorem OwnTargets.finishPass (ht : lib.TotalPoints) (hw : w₀.RegistersOnly w)
    (hentry : w.entry job.fileId (blockIndex - 1) = some metadata) {done : List SizeT}
    (hsplit : w₀.reached job.fileId job.blocks job.targetIndices =
      done ++ w₀.reached job.fileId job.blocks (blockIndex :: rest))
    (hiff : ∀ i ∈ job.targetIndices, (w.entry job.fileId (i - 1)).isSome ↔
      (w₀.entry job.fileId (i - 1)).isSome ∨ i ∈ done ∨ i = blockIndex) :
    OwnTargets w₀ job (finishPass lib job w metadata blockIndex rest made) w := by
  have hiff' : ∀ i ∈ job.targetIndices, (w.entry job.fileId (i - 1)).isSome ↔
      (w₀.entry job.fileId (i - 1)).isSome ∨ i ∈ done ++ [blockIndex] := by
    intro i hi
    rw [hiff i hi, List.mem_append, List.mem_singleton]
  have hcases := finishPass_cases ht hentry rest made
  rw [World.reached, stopsAt_eq] at hsplit
  rw [hw.stopException] at hcases
  rcases hcases with ⟨hgoes, m, tag, _, _, hout⟩ | ⟨e, hstop, hout⟩
  · rw [hgoes, Option.isSome_none, if_neg Bool.false_ne_true] at hsplit
    rw [hout]
    refine ⟨⟨done ++ [blockIndex], ?_, hiff'⟩, fun i hi => ?_⟩
    · rw [ahead_next, hsplit, List.append_assoc, List.singleton_append]
    · rw [claims_next] at hi
      cases hi
  · rw [hstop, Option.isSome_some, if_pos rfl] at hsplit
    rw [hout]
    exact ⟨⟨done ++ [blockIndex], hsplit.trans (List.append_nil _).symm, hiff'⟩,
      fun i hi => by cases hi⟩

/-- A run's own step, on a file that was registered at the start. -/
theorem OwnTargets.step (ht : lib.TotalPoints) (hw : w₀.RegistersOnly w)
    (hfile₀ : w₀.hasFile job.fileId = true) (hpoint : TagPoint lib w₀ job run w)
    (h : OwnTargets w₀ job run w) :
    OwnTargets w₀ job (tagStep lib job run w).1 (tagStep lib job run w).2 := by
  obtain ⟨⟨done, hsplit, hiff⟩, hclaimed⟩ := h
  have hafter := (hpoint.step ht hw).1
  have hstep := tagStep_cases lib job run w
  generalize (tagStep lib job run w).1 = run' at hstep ⊢
  generalize (tagStep lib job run w).2 = w' at hstep hafter ⊢
  cases hstep with
  | found hfile =>
    refine ⟨⟨done, ?_, hiff⟩, fun i hi => ?_⟩
    · rw [ahead_next]
      exact hsplit
    · rw [claims_next] at hi
      cases hi
  | missing hfile => cases hfile.symm.trans (hw.hasFile _ hfile₀)
  | added hfile => cases hfile.symm.trans (hw.hasFile _ hfile₀)
  | present hfile => cases hfile₀.symm.trans hpoint
  | tag metadata blockIndex rest made hentry =>
    refine .finishPass ht hw hentry hsplit fun i hi => ?_
    rw [hiff i hi, ← or_assoc]
    refine (or_iff_left_of_imp ?_).symm
    rintro rfl
    apply (hiff i hi).mp
    rw [hentry, Option.isSome_some]
  | record blockIndex rest made hentry =>
    refine ⟨⟨done, hsplit, hiff⟩, fun i hi => ?_⟩
    obtain rfl := Option.some.inj hi
    exact ⟨hpoint.2.head_mem, hentry⟩
  | collection metadata blockIndex rest made hfile => exact ⟨⟨done, hsplit, hiff⟩, hclaimed⟩
  | lost metadata blockIndex rest made hfile => cases hfile.symm.trans hpoint.1
  | register metadata blockIndex rest made =>
    obtain ⟨hfile, hloop, hpending⟩ := hpoint
    refine .finishPass ht hafter ?_ hsplit fun i hi => ?_
    · rw [entry_setMetadata hfile, if_pos ⟨rfl, rfl⟩]
    · rw [entry_setMetadata hfile, ← or_assoc, ← hiff i hi]
      by_cases hkey : blockIndex = i
      · subst hkey
        simp
      · rw [if_neg fun he => hkey (sub_left_inj.mp he.2)]
        exact (or_iff_left (Ne.symm hkey)).symm
  | returned made => exact ⟨⟨done, hsplit, hiff⟩, hclaimed⟩
  | thrown e => exact ⟨⟨done, hsplit, hiff⟩, hclaimed⟩

/-! ## All runs -/

section Runs

variable {jobs : ι → TagJob G1} {s : Configuration ι (World κ) (TagRun G1)} {i : ι}

/-- The store only grows by new records, and only at targets of the runs. -/
def GrowsAtTargets (w₀ : World κ) (fileId : Bytes) (jobs : ι → TagJob G1) (w : World κ) : Prop :=
  w₀.RegistersOnly w ∧ ∀ g key, (g = fileId → ∀ j, key + 1 ∉ (jobs j).targetIndices) →
    w.entry g key = w₀.entry g key

/-- Where a run is, in its loop and among its targets. -/
def OwnPoint (lib : CoreLib G1 G2 GT) (w₀ : World κ) (job : TagJob G1) (run : TagRun G1)
    (w : World κ) : Prop :=
  TagPoint lib w₀ job run w ∧ OwnTargets w₀ job run w

/-- Runs without a common target do not disturb each other at all. -/
theorem ownPoint_nonInterfering (ht : lib.TotalPoints) (hfile₀ : w₀.hasFile fileId = true)
    (hfile : ∀ i, (jobs i).fileId = fileId) (hdisjoint : ∀ i j, j ≠ i →
      (jobs i).targetIndices.Disjoint (jobs j).targetIndices) :
    NonInterfering (fun i => tagStep lib (jobs i)) (GrowsAtTargets w₀ fileId jobs)
      (fun i => OwnPoint lib w₀ (jobs i)) TagRun.Apart where
  symm _ _ h := TagRun.Apart.symm h
  own i run w hw h := by
    obtain ⟨hw, hframe⟩ := hw
    obtain ⟨hpoint, hown⟩ := h
    obtain ⟨hw', hpoint'⟩ := hpoint.step ht hw
    refine ⟨⟨hw', fun g key hne => ?_⟩, hpoint', hown.step ht hw ((hfile i).symm ▸ hfile₀) hpoint⟩
    rw [← hframe g key hne]
    rcases tagStep_frame lib hw.wellFormed hpoint g key with
      ⟨hsame, _⟩ | ⟨metadata, blockIndex, rest, made, rfl, rfl, rfl⟩
    · exact hsame
    · have hmem := hpoint.2.1.head_mem
      rw [← sub_add_cancel blockIndex 1] at hmem
      exact absurd hmem (hne (hfile i) i)
  other i j run other w hji hw h h' hapart := by
    obtain ⟨hw, _⟩ := hw
    obtain ⟨hpoint, _⟩ := h
    obtain ⟨hpoint', hown'⟩ := h'
    obtain ⟨hnext, hapart'⟩ := hpoint.other hw hpoint' hapart
    refine ⟨⟨hnext, hown'.of_entry fun b hb => ?_⟩, hapart'⟩
    rcases tagStep_frame lib hw.wellFormed hpoint (jobs j).fileId (b - 1) with
      ⟨hsame, _⟩ | ⟨metadata, blockIndex, rest, made, rfl, _, hkey⟩
    · exact hsame
    · obtain rfl := sub_left_inj.mp hkey
      exact absurd hb (hdisjoint i j hji hpoint.2.1.head_mem)

/-- Every schedule is in time for such runs. -/
theorem inTime_of_ownPoint (hfile₀ : w₀.hasFile fileId = true)
    (hfile : ∀ i, (jobs i).fileId = fileId) (hs : ∀ i, OwnPoint lib w₀ (jobs i) (s.own i) s.shared)
    (i : ι) : InTime jobs s i := by
  obtain ⟨hpoint, hown⟩ := hs i
  unfold InTime
  cases hrun : s.own i with
  | addFile =>
    rw [hrun] at hpoint
    have hmissing : w₀.hasFile (jobs i).fileId = false := hpoint
    rw [hfile, hfile₀] at hmissing
    cases hmissing
  | set metadata blockIndex rest made =>
    rw [hrun] at hown
    exact Or.inl (hown.claimed blockIndex rfl).2
  | _ => trivial

variable [DecidableEq ι]

/-- What holds along every schedule of runs without a common target. -/
theorem interleave_ownPoint (ht : lib.TotalPoints) (hw : w.WellFormed)
    (hfile₀ : w.hasFile fileId = true) (hfile : ∀ i, (jobs i).fileId = fileId)
    (hnodup : ∀ i, (jobs i).targetIndices.Nodup) (hdisjoint : ∀ i j, j ≠ i →
      (jobs i).targetIndices.Disjoint (jobs j).targetIndices) (schedule : List ι) :
    let s := interleave (fun i => tagStep lib (jobs i)) (beginTags w) schedule
    GrowsAtTargets w fileId jobs s.shared ∧
      (∀ i, OwnPoint lib w (jobs i) (s.own i) s.shared) ∧ Sound w jobs s := by
  intro s
  have hrule := ownPoint_nonInterfering ht hfile₀ hfile hdisjoint
  have hstart : Asserts (GrowsAtTargets w fileId jobs) (fun i => OwnPoint lib w (jobs i))
      TagRun.Apart (beginTags w) :=
    ⟨⟨.refl hw, fun _ _ _ => rfl⟩, fun _ => ⟨trivial, .start⟩, fun _ _ _ _ hr => nomatch hr⟩
  have hend : Asserts (GrowsAtTargets w fileId jobs) (fun i => OwnPoint lib w (jobs i))
      TagRun.Apart s ∧ Sound w jobs s := by
    refine interleave_invariant (P := fun s => Asserts (GrowsAtTargets w fileId jobs)
      (fun i => OwnPoint lib w (jobs i)) TagRun.Apart s ∧ Sound w jobs s) ?_
      ⟨hstart, .start⟩ schedule
    rintro t i ⟨hasserts, hsound⟩
    have hinvariant : TagInvariant lib w jobs t :=
      ⟨hasserts.shared.1, fun j => (hasserts.own j).1, hasserts.pair⟩
    exact ⟨hrule.turn hasserts i, hsound.turn ht hinvariant hnodup
      (inTime_of_ownPoint hfile₀ hfile hasserts.own i)⟩
  exact ⟨hend.1.shared, hend.1.own, hend.2⟩

end Runs

/-! ## Requests on disjoint windows -/

theorem reached_subset {blocks : AuditBlockSource} {targetIndices : List SizeT} {b : SizeT}
    (h : b ∈ w.reached fileId blocks targetIndices) : b ∈ targetIndices := by
  induction targetIndices with
  | nil => exact h
  | cons i rest ih =>
    rw [reached] at h
    rcases List.mem_cons.mp h with rfl | h
    · exact List.mem_cons_self
    · split_ifs at h
      · cases h
      · exact List.mem_cons_of_mem i (ih h)

/-- How requests on disjoint windows of one file stand at any moment of a schedule. -/
structure TaggedTogether (lib : CoreLib G1 G2 GT) (w : World κ) (fileId : Bytes)
    (input : ι → GenerateTagsRequest G1 G2) (jobs : ι → TagJob G1)
    (s : Configuration ι (World κ) (TagRun G1)) : Prop where
  /-- A request throws only what it throws when it runs alone. -/
  thrown : ∀ i e, s.own i = .thrown e → (w.generateTags lib (input i)).1 = .error e
  /-- A request that returns does so alone, and it has a tag for each target. -/
  returned : ∀ i made, s.own i = .returned made →
    (∃ tags, (w.generateTags lib (input i)).1 = .ok (some tags)) ∧
      ∀ key : SizeT, (made[key]?).isSome ↔ key + 1 ∈ (jobs i).targetIndices
  /-- Every tag is computed over the metadata that the store holds for its block. -/
  current : ∀ i (key : SizeT) m tag, (s.own i).made[key]? = some (m, tag) →
    TagOver lib (jobs i) key m tag ∧ s.shared.metadataAt fileId key = some (.versioned m)
  /-- Metadata present at the start is unchanged, and what is new has version one. -/
  registersOnly : w.RegistersOnly s.shared
  /-- When all have ended, the loops have registered the targets they reach. -/
  registered : (∀ i, (s.own i).outcome.isSome) → ∀ g b, s.shared.Registered g b ↔
    w.Registered g b ∨ g = fileId ∧
      ∃ i, b ∈ w.reached fileId (jobs i).blocks (jobs i).targetIndices

/-- The blocks that runs on disjoint targets have registered when all of them have ended. -/
theorem registered_iff_reached {jobs : ι → TagJob G1}
    {s : Configuration ι (World κ) (TagRun G1)} (hfile : ∀ i, (jobs i).fileId = fileId)
    (hdisjoint : ∀ i j, j ≠ i → (jobs i).targetIndices.Disjoint (jobs j).targetIndices)
    (hgrows : GrowsAtTargets w fileId jobs s.shared)
    (hown : ∀ i, OwnTargets w (jobs i) (s.own i) s.shared)
    (hended : ∀ i, (s.own i).outcome.isSome) (g : Bytes) (b : SizeT) :
    s.shared.Registered g b ↔ w.Registered g b ∨ g = fileId ∧
      ∃ i, b ∈ w.reached fileId (jobs i).blocks (jobs i).targetIndices := by
  have hahead : ∀ i, (s.own i).ahead (jobs i) = [] := by
    intro i
    have hend := hended i
    cases hrun : s.own i with
    | returned made => rfl
    | thrown e => rfl
    | _ =>
      rw [hrun] at hend
      cases hend
  have hreached : ∀ i, ∀ b ∈ (jobs i).targetIndices, (s.shared.entry fileId (b - 1)).isSome ↔
      (w.entry fileId (b - 1)).isSome ∨
        b ∈ w.reached fileId (jobs i).blocks (jobs i).targetIndices := by
    intro i b hb
    obtain ⟨⟨done, hsplit, hiff⟩, _⟩ := hown i
    rw [hahead, World.reached, List.append_nil, hfile] at hsplit
    rw [hfile] at hiff
    rw [hsplit]
    exact hiff b hb
  rw [registered_iff, registered_iff]
  by_cases hg : g = fileId ∧ ∃ i, b ∈ (jobs i).targetIndices
  · obtain ⟨rfl, i, hb⟩ := hg
    rw [hreached i b hb]
    refine or_congr_right ⟨fun h => ⟨rfl, i, h⟩, ?_⟩
    rintro ⟨_, j, hj⟩
    have hbj := reached_subset hj
    by_cases hji : j = i
    · exact hji ▸ hj
    · exact absurd hbj (hdisjoint i j hji hb)
  · rw [hgrows.2 g (b - 1) fun hg' j hb => hg ⟨hg', j, by rwa [sub_add_cancel] at hb⟩]
    refine (or_iff_left ?_).symm
    rintro ⟨rfl, i, hi⟩
    exact hg ⟨rfl, i, reached_subset hi⟩

/-- For any number of requests on one registered file without a common target, and any schedule:
they stand as they would one after the other, and each ends after so many turns of its own. -/
theorem concurrent_generateTags_disjoint [DecidableEq ι] (ht : lib.TotalPoints)
    (hw : w.WellFormed) (hfile₀ : w.hasFile fileId = true)
    {input : ι → GenerateTagsRequest G1 G2} {blocks : ι → AuditBlockSource}
    {privateParams : ι → DHTDynamicPrivateParams}
    {publicParams : ι → DHTDynamicPublicParams G1 G2} {targetIndices : ι → List SizeT}
    (h : ∀ i, Accepted (input i) fileId (blocks i) (privateParams i) (publicParams i)
      (targetIndices i))
    (hdisjoint : ∀ i j, j ≠ i → (targetIndices i).Disjoint (targetIndices j))
    (schedule : List ι) :
    let jobs := fun i => tagJob fileId (blocks i) (privateParams i) (publicParams i)
      (targetIndices i)
    let s := interleave (fun i => tagStep lib (jobs i)) (beginTags w) schedule
    TaggedTogether lib w fileId input jobs s ∧
      ∀ i, 3 * (targetIndices i).length + 2 ≤ schedule.count i → (s.own i).outcome.isSome := by
  intro jobs s
  have hfile : ∀ i, (jobs i).fileId = fileId := fun _ => rfl
  have hnodup : ∀ i, (jobs i).targetIndices.Nodup :=
    fun i => resolveTargetBlockIndices_nodup (h i).targets
  obtain ⟨hgrows, hown, hsound⟩ :=
    interleave_ownPoint ht hw hfile₀ hfile hnodup hdisjoint schedule
  refine ⟨⟨fun i e hi => ?_, fun i made hi => ?_, fun i key m tag hi => ?_, hgrows.1,
    registered_iff_reached hfile hdisjoint hgrows (fun i => (hown i).2)⟩,
    fun i hi => TagRun.isSome_outcome lib jobs hi⟩
  · exact (generateTags_error_iff ht hw (h i) e).mpr (hsound.thrown i e hi)
  · have hpoint := (hown i).1
    rw [hi] at hpoint
    obtain ⟨done, hsplit, hdone, hkeys⟩ := hpoint.split
    rw [List.append_nil] at hsplit
    rw [← hsplit] at hdone hkeys
    exact ⟨generateTags_ok_of_firstStop ht hw (h i) (List.findSome?_eq_none_iff.mpr hdone), hkeys⟩
  · exact ⟨(hown i).1.computed hi, hsound.current i key m tag hi⟩

/-- Two requests for the two halves of a file, in turns. -/
theorem concurrent_generateTags_disjoint_halves :
    let lib := zmodLib fun input => input.length
    let start : World Empty := ((empty defaultMetadataFactory (Stream'.const 0)).addFile [7]).2
    let blocks := fun i : Bool => windowOf [[1], [2]] (cond i 0 1) 1
    let jobs := fun i : Bool =>
      tagJob [7] (blocks i) unitPrivateParams unitPublicParams (cond i [1] [2])
    let s := interleave (fun i => tagStep lib (jobs i)) (beginTags start)
      [true, false, false, true, false, true, true, false, true, false]
    TaggedTogether lib start [7]
        (fun i => tagsRequest [7] unitPublicParams unitPrivateParams (blocks i) none) jobs s ∧
      ∀ i, (s.own i).outcome.isSome := by
  have hempty : (empty defaultMetadataFactory (Stream'.const 0) : World Empty).WellFormed :=
    .empty _ _
  have hresolve : ∀ i : Bool, resolveTargetBlockIndices none
      (windowOf [[1], [2]] (cond i 0 1) 1).globalBlockStartIndex
      (windowOf [[1], [2]] (cond i 0 1) 1).availableBlockCount = .ok (cond i [1] [2]) := by
    rintro (_ | _) <;> rfl
  have hdisjoint : ∀ i j : Bool, j ≠ i →
      (cond i [(1 : SizeT)] [2]).Disjoint (cond j [1] [2]) := by
    rintro (_ | _) (_ | _) h
    · exact absurd rfl h
    · exact List.disjoint_singleton.mpr (by decide)
    · exact List.disjoint_singleton.mpr (by decide)
    · exact absurd rfl h
  obtain ⟨htogether, hended⟩ := concurrent_generateTags_disjoint
    (zmodLib_totalPoints fun input => input.length) (hempty.addFile [7]) rfl
    (fun i => accepted_tagsRequest (by decide : ([7] : Bytes) ≠ []) unitPublicParams
      unitPrivateParams (hresolve i)) hdisjoint
    [true, false, false, true, false, true, true, false, true, false]
  exact ⟨htogether, by rintro (_ | _) <;> exact hended _ (by decide)⟩

/-- A block registered through a factory of another class ends the run that is to tag it. -/
theorem concurrent_generateTags_foreign_metadata :
    let start : World Unit :=
      (((empty (fun _ => .custom ()) (Stream'.const 0)).addFile [7]).2.insertBlock [7] 1).2
    let jobs := fun i : Bool => tagJob [7] (windowOf [[1], [2]] (cond i 0 1) 1) unitPrivateParams
      unitPublicParams (cond i [1] [2])
    start.hasFile [7] = true ∧
      (interleave (fun i => tagStep (zmodLib fun input => input.length) (jobs i)) (beginTags start)
        [true, false, true, false]).own true = .thrown (.tagsNotVersioned 1) :=
  ⟨rfl, rfl⟩

end World

end DHTDynamic
