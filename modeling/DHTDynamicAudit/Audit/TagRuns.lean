import DHTDynamicAudit.Audit.Tagging
import DHTDynamicAudit.Strategy.TagSteps

/-!
# Concurrent tag generation

A call that nobody interrupts is `generateTags`. Calls that run concurrently, on
any targets and along any schedule, only ever register new blocks; each goes
through its targets in order and ends at the block it would end at alone.
-/

namespace DHTDynamic

open Core
open Std (ExtTreeMap)

variable {G1 G2 GT κ : Type} {lib : CoreLib G1 G2 GT}

/-- The tag is that of the block at the key, read through the source, under this metadata. -/
def TagOver (lib : CoreLib G1 G2 GT) (job : TagJob G1) (key : SizeT)
    (metadata : VersionedBlockMetadata) (tag : Tag G1) : Prop :=
  ∃ block sigma, job.blocks.block (key - job.blocks.globalBlockStartIndex) = .ok block ∧
    computeTag lib job.a job.u job.fileId (key + 1) metadata block = .ok sigma ∧
    tag = .dhtDynamic sigma

namespace World

variable {w w' w₀ : World κ} {fileId : Bytes} {blockIndex key : SizeT} {job : TagJob G1}
  {rest : List SizeT} {made : MadeTags G1} {metadata : Ref} {run : TagRun G1}

/-! ## One pass -/

/-- What the pass for a registered block throws: the metadata has the wrong class, or the source
throws when the block is read. -/
def stopException (w : World κ) (fileId : Bytes) (blocks : AuditBlockSource)
    (blockIndex : SizeT) : Option Exception :=
  if w.hasForeignMetadata fileId blockIndex then
    some (.tagsNotVersioned blockIndex)
  else
    match blocks.read (blockIndex - 1 - blocks.globalBlockStartIndex) with
    | .error e => some e
    | .ok _ => none

/-- Registration never changes what a pass throws. -/
theorem RegistersOnly.stopException (h : w.RegistersOnly w') (fileId : Bytes)
    (blocks : AuditBlockSource) (blockIndex : SizeT) :
    w'.stopException fileId blocks blockIndex = w.stopException fileId blocks blockIndex := by
  have hforeign : w'.hasForeignMetadata fileId blockIndex =
      w.hasForeignMetadata fileId blockIndex := by
    unfold hasForeignMetadata
    cases hm : w.metadataAt fileId (blockIndex - 1) with
    | some m => rw [h.metadataAt _ _ _ hm]
    | none =>
      cases hm' : w'.metadataAt fileId (blockIndex - 1) with
      | none => rfl
      | some m' =>
        obtain ⟨second, rfl⟩ := h.fresh _ _ _ hm hm'
        rfl
  rw [World.stopException, World.stopException, hforeign]

/-- After the metadata is known, the call throws or goes on with one more tag. -/
theorem finishPass_cases (ht : lib.TotalPoints)
    (hentry : w.entry job.fileId (blockIndex - 1) = some metadata) (rest : List SizeT)
    (made : MadeTags G1) :
    (w.stopException job.fileId job.blocks blockIndex = none ∧
      ∃ m tag, w.metadataAt job.fileId (blockIndex - 1) = some (.versioned m) ∧
        TagOver lib job (blockIndex - 1) m tag ∧
        finishPass lib job w metadata blockIndex rest made =
          .next (made.insert (blockIndex - 1) (m, tag)) rest) ∨
      ∃ e, w.stopException job.fileId job.blocks blockIndex = some e ∧
        finishPass lib job w metadata blockIndex rest made = .thrown e := by
  have hat : w.metadataAt job.fileId (blockIndex - 1) = some (w.heap metadata) :=
    metadataAt_eq_some.mpr ⟨metadata, hentry, rfl⟩
  simp only [finishPass, stopException, hasForeignMetadata, hat, TagOver]
  cases hheap : w.heap metadata with
  | custom m => exact Or.inr ⟨_, rfl, rfl⟩
  | versioned m =>
    simp only [BlockMetadata.asVersioned_versioned, AuditBlockSource.read, Bool.false_eq_true,
      if_false]
    cases hblock : job.blocks.block (blockIndex - 1 - job.blocks.globalBlockStartIndex) with
    | error what => exact Or.inr ⟨_, rfl, rfl⟩
    | ok block =>
      obtain ⟨sigma, hsigma⟩ := ht.computeTag job.a job.u job.fileId blockIndex m block
      refine Or.inl ⟨rfl, m, .dhtDynamic sigma, rfl, ⟨block, sigma, rfl, ?_, rfl⟩, ?_⟩
      · rwa [sub_add_cancel]
      · simp only [bind, Except.bind, hsigma]

/-! ## Nobody else moves -/

theorem tags_insert (made : MadeTags G1) (key : SizeT) (m : VersionedBlockMetadata)
    (tag : Tag G1) :
    MadeTags.tags (made.insert key (m, tag)) = made.tags.insert key tag := by
  apply ExtTreeMap.ext_getElem?
  intro k
  rw [MadeTags.tags, MadeTags.tags, ExtTreeMap.getElem?_map, getElem?_insert_index,
    getElem?_insert_index, ExtTreeMap.getElem?_map]
  split_ifs <;> rfl

@[simp] theorem tags_empty : MadeTags.tags (∅ : MadeTags G1) = ∅ := by
  apply ExtTreeMap.ext_getElem?
  intro k
  rw [MadeTags.tags, ExtTreeMap.getElem?_map, ExtTreeMap.getElem?_empty,
    ExtTreeMap.getElem?_empty, Option.map_none]

/-- The end of a pass is the end of `tagOne`. -/
theorem tagOne_of_metadataForTag (lib : CoreLib G1 G2 GT)
    (h : w.metadataForTag job.fileId blockIndex = (.ok metadata, w')) (rest : List SizeT)
    (made : MadeTags G1) :
    (∃ made', finishPass lib job w' metadata blockIndex rest made = .next made' rest ∧
      tagOne lib job.a job.u job.fileId job.blocks (w, made.tags) blockIndex =
        (.ok (), w', made'.tags)) ∨
      ∃ e, finishPass lib job w' metadata blockIndex rest made = .thrown e ∧
        tagOne lib job.a job.u job.fileId job.blocks (w, made.tags) blockIndex =
          (.error e, w', made.tags) := by
  simp only [finishPass, tagOne, h]
  cases (w'.heap metadata).asVersioned with
  | none => exact Or.inr ⟨_, rfl, rfl⟩
  | some m =>
    cases hread : job.blocks.read (blockIndex - 1 - job.blocks.globalBlockStartIndex) with
    | error e => exact Or.inr ⟨e, rfl, by simp only [bind, Except.bind]⟩
    | ok block =>
      cases hsigma : computeTag lib job.a job.u job.fileId blockIndex m block with
      | error e =>
        exact Or.inr ⟨e, by simp only [bind, Except.bind, hsigma],
          by simp only [bind, Except.bind, hsigma]⟩
      | ok sigma =>
        exact Or.inl ⟨made.insert (blockIndex - 1) (m, .dhtDynamic sigma),
          by simp only [bind, Except.bind, hsigma],
          by simp only [bind, Except.bind, hsigma, tags_insert]⟩

/-- A request that finds the metadata goes on to the tag. -/
theorem tagStep_of_ok (h : w.getBlockMetadata job.fileId blockIndex = .ok metadata) :
    tagStep lib job (.getBlockMetadata blockIndex rest made) w =
      (finishPass lib job w metadata blockIndex rest made, w) := by
  simp only [tagStep, h]

/-- A request that finds none makes a new record, which nobody else knows yet. -/
theorem tagStep_of_error {e : Exception}
    (h : w.getBlockMetadata job.fileId blockIndex = .error e) :
    tagStep lib job (.getBlockMetadata blockIndex rest made) w =
      (.getBlockMetadataCollection w.nextRef blockIndex rest made,
        (w.now.2.allocate (.versioned ⟨1, w.clock.head⟩)).2) := by
  simp only [tagStep, h]
  rfl

theorem tagStep_of_collection {collection : Collection}
    (h : w.files_[job.fileId]? = some collection) :
    tagStep lib job (.getBlockMetadataCollection metadata blockIndex rest made) w =
      (.set metadata blockIndex rest made, w) := by
  simp only [tagStep, h]

/-- The requests of a pass find or register the metadata. -/
theorem reaches_finishPass (lib : CoreLib G1 G2 GT)
    (h : w.metadataForTag job.fileId blockIndex = (.ok metadata, w')) (rest : List SizeT)
    (made : MadeTags G1) :
    Reaches (tagStep lib job) (.getBlockMetadata blockIndex rest made) w
      (finishPass lib job w' metadata blockIndex rest made) w' := by
  unfold metadataForTag at h
  cases hget : w.getBlockMetadata job.fileId blockIndex with
  | ok existing =>
    rw [hget] at h
    obtain ⟨hmetadata, rfl⟩ := Prod.mk.inj h
    obtain rfl := Except.ok.inj hmetadata
    exact .head (tagStep_of_ok hget) (.refl _ _ _)
  | error e =>
    let w₁ := (w.now.2.allocate (.versioned ⟨1, w.clock.head⟩)).2
    have hsame : (w.now.2.allocate (.versioned ⟨1, w.now.1⟩)) = (w.nextRef, w₁) := rfl
    simp only [hget, hsame] at h
    cases hfile : w₁.files_[job.fileId]? with
    | none =>
      simp only [hfile] at h
      cases congrArg Prod.fst h
    | some collection =>
      simp only [hfile] at h
      obtain ⟨hmetadata, hw'⟩ := Prod.mk.inj h
      obtain rfl := Except.ok.inj hmetadata
      have hset : w₁.setMetadata job.fileId (blockIndex - 1) w.nextRef = w' := by
        rw [← hw', setMetadata, hfile]
      refine .head (tagStep_of_error hget) (.head (tagStep_of_collection hfile) (.head ?_
        (.refl _ _ _)))
      rw [← hset]
      rfl

/-- The loop by itself is the loop of `generateTags`. -/
theorem reaches_forEach (lib : CoreLib G1 G2 GT) (job : TagJob G1) (hw : w.WellFormed)
    (hfile : w.hasFile job.fileId = true) (made : MadeTags G1) (targetIndices : List SizeT) :
    ∃ run, Reaches (tagStep lib job) (.next made targetIndices) w run
        (forEach (tagOne lib job.a job.u job.fileId job.blocks) (w, made.tags) targetIndices).2.1 ∧
      run.outcome = some ((forEach (tagOne lib job.a job.u job.fileId job.blocks)
        (w, made.tags) targetIndices).1.map fun _ => some (forEach (tagOne lib job.a job.u
          job.fileId job.blocks) (w, made.tags) targetIndices).2.2) := by
  induction targetIndices generalizing w made with
  | nil => exact ⟨.returned made, .refl _ _ _, rfl⟩
  | cons blockIndex rest ih =>
    obtain ⟨metadata, w', hmeta, hreg⟩ := metadataForTag_registers hw hfile blockIndex
    have hpass := reaches_finishPass lib hmeta rest made
    rcases tagOne_of_metadataForTag lib hmeta rest made with
      ⟨made', hnext, hout⟩ | ⟨e, hthrow, hout⟩
    · obtain ⟨run, hrun, hend⟩ := ih hreg.wellFormed ((hreg.hasFile _).trans hfile) made'
      rw [forEach_cons_ok hout]
      exact ⟨run, hpass.trans (hnext ▸ hrun), hend⟩
    · rw [forEach_cons_error hout]
      exact ⟨.thrown e, hthrow ▸ hpass, rfl⟩

end World

/-- The job of a request that passes the checks. -/
abbrev tagJob (fileId : Bytes) (blocks : AuditBlockSource)
    (privateParams : DHTDynamicPrivateParams) (publicParams : DHTDynamicPublicParams G1 G2)
    (targetIndices : List SizeT) : TagJob G1 :=
  ⟨fileId, blocks, privateParams.a, publicParams.u, targetIndices⟩

namespace World

variable {w w' w₀ : World κ} {fileId : Bytes} {blockIndex key : SizeT} {job : TagJob G1}
  {rest : List SizeT} {made : MadeTags G1} {metadata : Ref} {run : TagRun G1}

/-- A call that nobody interrupts is `generateTags`. -/
theorem reaches_generateTags (hw : w.WellFormed) {input : GenerateTagsRequest G1 G2}
    {blocks : AuditBlockSource} {privateParams : DHTDynamicPrivateParams}
    {publicParams : DHTDynamicPublicParams G1 G2} {targetIndices : List SizeT}
    (h : Accepted input fileId blocks privateParams publicParams targetIndices) :
    ∃ run, Reaches (tagStep lib (tagJob fileId blocks privateParams publicParams targetIndices))
        .hasFile w run (w.generateTags lib input).2 ∧
      run.outcome = some (w.generateTags lib input).1 := by
  let job := tagJob fileId blocks privateParams publicParams targetIndices
  obtain ⟨w₁, hensure, hfile₁, hext, _⟩ := ensureFile_ok hw fileId
  have hstart : Reaches (tagStep lib job) .hasFile w (.next ∅ targetIndices) w₁ := by
    by_cases hfile : w.hasFile fileId = true
    · rw [ensureFile, if_pos hfile] at hensure
      obtain rfl := congrArg Prod.snd hensure
      exact .head (by simp only [tagStep, job, if_pos hfile]) (.refl _ _ _)
    · rw [ensureFile, if_neg hfile] at hensure
      refine .head (m := .addFile) (t := w) ?_ (.head ?_ (.refl _ _ _))
      · simp only [tagStep, job, if_neg hfile]
      · simp only [tagStep, job, hensure]
  obtain ⟨run, hrun, hend⟩ := reaches_forEach lib job hext.wellFormed hfile₁ ∅ targetIndices
  rw [tags_empty] at hrun hend
  refine ⟨run, ?_, ?_⟩
  · rw [generateTags_of_accepted h hensure]
    refine hstart.trans ?_
    rcases hloop : forEach (tagOne lib privateParams.a publicParams.u fileId blocks) (w₁, ∅)
      targetIndices with ⟨_ | _, _, _⟩ <;>
    · rw [hloop] at hrun
      exact hrun
  · rw [generateTags_of_accepted h hensure, hend]
    rcases forEach (tagOne lib privateParams.a publicParams.u fileId blocks) (w₁, ∅)
      targetIndices with ⟨_ | _, _, _⟩ <;> rfl

/-- A call whose turns come in a row is `generateTags`, wherever the other calls are. -/
theorem interleave_generateTags {ι : Type} [DecidableEq ι] {jobs : ι → TagJob G1}
    {s : Configuration ι (World κ) (TagRun G1)} {i : ι} (hw : s.shared.WellFormed)
    {input : GenerateTagsRequest G1 G2} {blocks : AuditBlockSource}
    {privateParams : DHTDynamicPrivateParams} {publicParams : DHTDynamicPublicParams G1 G2}
    {targetIndices : List SizeT}
    (h : Accepted input fileId blocks privateParams publicParams targetIndices)
    (hjob : jobs i = tagJob fileId blocks privateParams publicParams targetIndices)
    (hstart : s.own i = .hasFile) :
    ∃ n run, interleave (fun i => tagStep lib (jobs i)) s (List.replicate n i) =
        ⟨(s.shared.generateTags lib input).2, Function.update s.own i run⟩ ∧
      run.outcome = some (s.shared.generateTags lib input).1 := by
  apply exists_interleave_of_reaches (fun i => tagStep lib (jobs i)) hstart
  rw [hjob]
  exact reaches_generateTags hw h

/-- The first exception the targets of a request lead to. -/
def firstStop (w : World κ) (job : TagJob G1) : Option Exception :=
  job.targetIndices.findSome? (w.stopException job.fileId job.blocks)

/-- Where the point operators return no null, a loop throws at its first target that stops it. -/
theorem forEach_tagOne_error_iff (ht : lib.TotalPoints) (job : TagJob G1) (hw : w.WellFormed)
    (hfile : w.hasFile job.fileId = true) (made : MadeTags G1) (targetIndices : List SizeT)
    (e : Exception) :
    (forEach (tagOne lib job.a job.u job.fileId job.blocks) (w, made.tags) targetIndices).1 =
        .error e ↔
      targetIndices.findSome? (w.stopException job.fileId job.blocks) = some e := by
  induction targetIndices generalizing w made with
  | nil => simp
  | cons blockIndex rest ih =>
    obtain ⟨metadata, w', hmeta, hreg⟩ := metadataForTag_registers hw hfile blockIndex
    have hstop := hreg.registersOnly.stopException job.fileId job.blocks
    have hpass := finishPass_cases ht hreg.entry_self rest made
    rw [hstop] at hpass
    rcases tagOne_of_metadataForTag lib hmeta rest made with
      ⟨made', hnext, hout⟩ | ⟨e', hthrow, hout⟩
    · rcases hpass with ⟨hnone, _⟩ | ⟨e'', _, hthrow⟩
      · rw [forEach_cons_ok hout, ih hreg.wellFormed ((hreg.hasFile _).trans hfile),
          List.findSome?_cons, hnone, funext hstop]
      · cases rest <;> cases hnext.symm.trans hthrow
    · rcases hpass with ⟨_, _, _, _, _, hnext⟩ | ⟨e'', hsome, hthrow'⟩
      · cases rest <;> cases hthrow.symm.trans hnext
      · cases hthrow.symm.trans hthrow'
        rw [forEach_cons_error hout, List.findSome?_cons, hsome, Except.error.injEq,
          Option.some.injEq]

/-- A request by itself throws at its first target that stops it. -/
theorem generateTags_error_iff (ht : lib.TotalPoints) (hw : w.WellFormed)
    {input : GenerateTagsRequest G1 G2} {blocks : AuditBlockSource}
    {privateParams : DHTDynamicPrivateParams} {publicParams : DHTDynamicPublicParams G1 G2}
    {targetIndices : List SizeT}
    (h : Accepted input fileId blocks privateParams publicParams targetIndices) (e : Exception) :
    (w.generateTags lib input).1 = .error e ↔
      w.firstStop (tagJob fileId blocks privateParams publicParams targetIndices) = some e := by
  let job := tagJob fileId blocks privateParams publicParams targetIndices
  obtain ⟨w₁, hensure, hfile, hext, _⟩ := ensureFile_ok hw fileId
  have hloop := forEach_tagOne_error_iff ht job hext.wellFormed hfile ∅ targetIndices e
  have hstop : w₁.stopException fileId blocks = w.stopException fileId blocks :=
    funext ((ensureFile_registersOnly hw hensure).stopException fileId blocks)
  rw [tags_empty, hstop] at hloop
  rw [generateTags_of_accepted h hensure, firstStop, ← hloop]
  rcases forEach (tagOne lib job.a job.u job.fileId job.blocks) (w₁, ∅) targetIndices with
    ⟨_ | _, _, _⟩ <;> simp

/-- Any other request that passes the checks returns its container. -/
theorem generateTags_ok_of_firstStop (ht : lib.TotalPoints) (hw : w.WellFormed)
    {input : GenerateTagsRequest G1 G2} {blocks : AuditBlockSource}
    {privateParams : DHTDynamicPrivateParams} {publicParams : DHTDynamicPublicParams G1 G2}
    {targetIndices : List SizeT}
    (h : Accepted input fileId blocks privateParams publicParams targetIndices)
    (hnone : w.firstStop (tagJob fileId blocks privateParams publicParams targetIndices) = none) :
    ∃ tags, (w.generateTags lib input).1 = .ok (some tags) := by
  have herror := generateTags_error_iff ht hw h
  obtain ⟨w₁, hensure, _⟩ := ensureFile_ok hw fileId
  rw [generateTags_of_accepted h hensure] at herror ⊢
  generalize forEach (tagOne lib privateParams.a publicParams.u fileId blocks) (w₁, ∅)
    targetIndices = loop at herror ⊢
  obtain ⟨e | _, t, tags⟩ := loop
  · have hstop := (herror e).mp rfl
    rw [hnone] at hstop
    cases hstop
  · exact ⟨tags, rfl⟩

end World

end DHTDynamic
