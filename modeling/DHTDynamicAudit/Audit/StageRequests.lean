import DHTDynamicAudit.Audit.Completeness
import DHTDynamicAudit.Store.JsonRequests
import DHTDynamicAudit.Strategy.Stages

/-!
# Requests of a whole audit

What the stages of an audit get when every request is built by `createRequest`
from raw inputs and from a context that holds earlier results.
-/

namespace DHTDynamic

open Core StageKeys

variable {G1 G2 GT κ : Type} {accessors : InputLib G1} {context : AuditOperationContext G1 G2 GT}
  {input : RawInput G1}

/-! ## What an accepted request holds -/

theorem orThrow_eq_ok {α : Type} {x : Except Bytes α} {a : α} : orThrow x = .ok a ↔ x = .ok a := by
  cases x <;> simp [orThrow]

theorem AuditOperation.createRequest_generateTags {request : GenerateTagsRequest G1 G2} :
    AuditOperation.GenerateTags.createRequest accessors context input =
      .ok (.generateTags request) ↔ createTagsRequest accessors context input = .ok request :=
  map_eq_ok_of_injective fun _ _ => AuditRequestVariant.generateTags.inj

theorem AuditOperation.createRequest_challengeGen {request : GenerateChallengesRequest G1 G2} :
    AuditOperation.ChallengeGen.createRequest accessors context input =
      .ok (.generateChallenges request) ↔
      createChallengesRequest accessors context input = .ok request :=
  map_eq_ok_of_injective fun _ _ => AuditRequestVariant.generateChallenges.inj

theorem AuditOperation.createRequest_proofGen {request : GenerateProofsRequest G1 G2} :
    AuditOperation.ProofGen.createRequest accessors context input =
      .ok (.generateProofs request) ↔ createProofsRequest accessors context input = .ok request :=
  map_eq_ok_of_injective fun _ _ => AuditRequestVariant.generateProofs.inj

theorem AuditOperation.createRequest_proofVerify {request : VerifyProofsRequest G1 G2 GT} :
    AuditOperation.ProofVerify.createRequest accessors context input =
      .ok (.verifyProofs request) ↔ createVerifyRequest accessors context input = .ok request :=
  map_eq_ok_of_injective fun _ _ => AuditRequestVariant.verifyProofs.inj

/-- A tag request carries the parameters of the context and the inputs of the map. -/
theorem createTagsRequest_eq_ok {request : GenerateTagsRequest G1 G2} :
    createTagsRequest accessors context input = .ok request ↔
      ∃ keys publicParams privateParams inputMap fileId,
        context.generateKeysResult = some keys ∧ keys.publicParams.cast = some publicParams ∧
        keys.privateParams.cast = some privateParams ∧ input.requireCustom = .ok inputMap ∧
        parseTagsFileId accessors inputMap = .ok fileId ∧ fileId ≠ [] ∧
        requireBlocks accessors inputMap = .ok request.blocks ∧
        parseTargets inputMap = .ok request.targetBlockIndices ∧
        request.ext = .typed ⟨fileId, some publicParams, some privateParams,
          context.stateStore⟩ := by
  unfold createTagsRequest
  cases hkeys : context.generateKeysResult with
  | none => simp
  | some keys =>
    cases hpub : keys.publicParams.cast with
    | none => simp [hpub]
    | some publicParams =>
      cases hpriv : keys.privateParams.cast with
      | none => simp [hpub, hpriv]
      | some privateParams =>
        simp only [hpub, hpriv, bind_eq_ok, orThrow_eq_ok]
        constructor
        · rintro ⟨inputMap, hmap, blocks, hblocks, fileId, hfile, hrest⟩
          split_ifs at hrest with hempty
          obtain ⟨targets, htargets, hrequest⟩ := bind_eq_ok.mp hrest
          obtain rfl := Except.ok.inj hrequest
          rw [List.isEmpty_iff] at hempty
          exact ⟨keys, publicParams, privateParams, inputMap, fileId, rfl, hpub, hpriv, hmap, hfile,
            hempty, hblocks, htargets, rfl⟩
        · rintro ⟨keys', publicParams', privateParams', inputMap, fileId, hkeys', hpub', hpriv',
            hmap, hfile, hne, hblocks, htargets, hext⟩
          obtain rfl := Option.some.inj hkeys'
          obtain rfl := Option.some.inj (hpub.symm.trans hpub')
          obtain rfl := Option.some.inj (hpriv.symm.trans hpriv')
          refine ⟨inputMap, hmap, request.blocks, hblocks, fileId, hfile, ?_⟩
          rw [if_neg (by rwa [List.isEmpty_iff]), htargets, ← hext]
          rfl

/-- Once the object is parsed, a key request depends on its seed only. -/
theorem createKeysRequest_ok (root : JsonObject) (custom : Except Bytes (AuditDataMap G1)) :
    createKeysRequest accessors ⟨.ok root, custom⟩ = (do
      let seed ← parseUInt64 accessors root kSeed
      return { seed := seed }) := rfl

/-- A challenge request takes its options from the object and the rest from the context. -/
theorem createChallengesRequest_eq_ok {request : GenerateChallengesRequest G1 G2}
    (h : createChallengesRequest accessors context input = .ok request) :
    ∃ root, input.requireJson = .ok root ∧
      request.ext.fileId = fillFileId context (parseChallengeFileId root) ∧
      request.ext.userPublicParams = context.publicParams ∧
      request.ext.stateStore = context.stateStore := by
  obtain ⟨root, hroot, hrest⟩ := bind_eq_ok.mp h
  obtain ⟨blockCount, _, hrest⟩ := bind_eq_ok.mp hrest
  obtain ⟨challengeCount, _, hrest⟩ := bind_eq_ok.mp hrest
  obtain ⟨seed, _, hrest⟩ := bind_eq_ok.mp hrest
  split_ifs at hrest
  obtain rfl := Except.ok.inj hrest
  exact ⟨root, orThrow_eq_ok.mp hroot, rfl, rfl, rfl⟩

/-- Once the object is parsed, a challenge request depends on it through its options only. -/
theorem createChallengesRequest_ok (root : JsonObject) (custom : Except Bytes (AuditDataMap G1)) :
    createChallengesRequest accessors context ⟨.ok root, custom⟩ = (do
      let blockCount ← parseUInt64 accessors root kBlockCount
      let challengeCount ← parseUInt64 accessors root kChallengeCount
      let seed ← parseUInt64 accessors root kSeed
      if blockCount.isNone && context.generateTagsResult.isNone then
        .error .blockCountRequired
      else
        return {
          ext := {
            fileId := fillFileId context (parseChallengeFileId root)
            userPublicParams := context.publicParams
            blockCount := blockCount.getD 0
            challengeCount := challengeCount.getD 0
            usePseudoRandom := parseUsePseudoRandom root
            seed := seed
            stateStore := context.stateStore }
          tags := context.generateTagsResult.bind (·.tags) }) := rfl

/-- A proof request needs challenges in the context, and its sources in the map. -/
theorem createProofsRequest_eq_ok {request : GenerateProofsRequest G1 G2} :
    createProofsRequest accessors context input = .ok request ↔
      ∃ challenges publicParams inputMap blocks tags,
        context.generateChallengesResult = some challenges ∧ challenges ≠ .null ∧
        context.publicParams = some publicParams ∧ input.requireCustom = .ok inputMap ∧
        requireBlocks accessors inputMap = .ok blocks ∧
        requireTags accessors inputMap = .ok tags ∧
        request = ⟨.typed ⟨tags, blocks, some publicParams⟩, challenges⟩ := by
  unfold createProofsRequest
  split
  · rename_i hnone
    simp [hnone]
  · rename_i hnull
    simp [hnull]
  · rename_i challenges hnull hchallenges
    simp only [bind_eq_ok, orThrow_eq_ok]
    constructor
    · rintro ⟨inputMap, hmap, blocks, hblocks, tags, htags, hrest⟩
      cases hpub : context.publicParams with
      | none =>
        rw [hpub] at hrest
        cases hrest
      | some publicParams =>
        rw [hpub] at hrest
        obtain rfl := Except.ok.inj hrest
        exact ⟨challenges, publicParams, inputMap, blocks, tags, hchallenges, hnull, rfl,
          hmap, hblocks, htags, rfl⟩
    · rintro ⟨challenges', publicParams, inputMap, blocks, tags, hchallenges', _, hpub, hmap,
        hblocks, htags, rfl⟩
      obtain rfl := Option.some.inj (hchallenges.symm.trans hchallenges')
      exact ⟨inputMap, hmap, blocks, hblocks, tags, htags, by rw [hpub]; rfl⟩

/-- A verification request is about the only challenge and the only proof of the context. -/
theorem createVerifyRequest_eq_ok {request : VerifyProofsRequest G1 G2 GT} :
    createVerifyRequest accessors context input = .ok request ↔
      ∃ challenges proves publicParams root fileId,
        context.generateChallengesResult = some challenges ∧
        context.generateProofsResult = some proves ∧ context.publicParams = some publicParams ∧
        input.requireJson = .ok root ∧ parseVerifyFileId accessors root = .ok fileId ∧
        fillFileId context fileId ≠ [] ∧
        request = ⟨[challenges], [proves], .typed ⟨fillFileId context fileId,
          some publicParams⟩⟩ := by
  unfold createVerifyRequest
  cases hchallenges : context.generateChallengesResult with
  | none => simp
  | some challenges =>
    cases hproves : context.generateProofsResult with
    | none => simp
    | some proves =>
      cases hpub : context.publicParams with
      | none => simp
      | some publicParams =>
        simp only [bind_eq_ok, orThrow_eq_ok]
        constructor
        · rintro ⟨root, hroot, fileId, hfile, hrest⟩
          split_ifs at hrest with hempty
          obtain rfl := Except.ok.inj hrest
          rw [List.isEmpty_iff] at hempty
          exact ⟨challenges, proves, publicParams, root, fileId, rfl, rfl, rfl, hroot, hfile,
            hempty, rfl⟩
        · rintro ⟨challenges', proves', publicParams', root, fileId, hchallenges', hproves', hpub',
            hroot, hfile, hne, rfl⟩
          obtain rfl := Option.some.inj hchallenges'
          obtain rfl := Option.some.inj hproves'
          obtain rfl := Option.some.inj hpub'
          refine ⟨root, hroot, fileId, hfile, ?_⟩
          rw [if_neg (by rwa [List.isEmpty_iff])]
          rfl

/-! ## A small instance -/

/-- Accessors that behave as documented on numbers and strings. -/
def documentedInput : InputLib (ZMod 5) where
  toJsonCpp := World.jsoncpp
  isUInt64
    | .number x => decide (0 ≤ x.num ∧ x.num < 2 ^ 64 ∧ x.den = 1)
    | _ => false
  jsonValueToString
    | .string s => some s
    | _ => none
  requiredMissing key := literal "missing " ++ literal key
  notString _ := .ok none

/-- A raw input that is a JSON object. -/
def jsonInput (root : JsonObject) : RawInput (ZMod 5) := ⟨.ok root, .error (literal "not custom")⟩

/-- A raw input that is a map of values. -/
def customInput (inputMap : AuditDataMap (ZMod 5)) : RawInput (ZMod 5) :=
  ⟨.error (literal "not JSON"), .ok inputMap⟩

/-- The keys of the algorithm object whose scalars are all one, in a context with a store. -/
def unitContext : AuditOperationContext (ZMod 5) (ZMod 5) (Multiplicative (ZMod 5)) where
  stateStore := true
  generateKeysResult := some (.ofStage ⟨true, "DHTDynamic key pair generated",
    some unitPublicParams, some unitPrivateParams⟩)

/-- The input that tags a file read through this source. -/
def tagsMapOf (fileId : Bytes) (source : Option AuditBlockSource) : AuditDataMap (ZMod 5) :=
  [(kBlocks, .blocks source), (kFileId, .string fileId)]

/-! ## Inputs the stages still miss -/

/-- A tag request with everything but a block source is answered without a container. -/
theorem World.generateTags_eq_none_iff (lib : CoreLib G1 G2 GT) (w : World κ)
    {request : GenerateTagsRequest G1 G2} {fileId : Bytes} (hfile : fileId ≠ [])
    {publicParams : DHTDynamicPublicParams G1 G2} {privateParams : DHTDynamicPrivateParams}
    {stateStore : Bool}
    (hext : request.ext = .typed ⟨fileId, some publicParams, some privateParams, stateStore⟩) :
    (w.generateTags lib request).1 = .ok none ↔ request.blocks = none := by
  unfold World.generateTags
  rw [hext]
  simp only [BasePtr.cast, List.isEmpty_iff, hfile, if_false]
  cases hblocks : request.blocks with
  | none => simp
  | some blocks =>
    simp only [reduceCtorEq, iff_false]
    intro hnone
    split at hnone
    · cases hnone
    · split_ifs at hnone
      split at hnone
      · cases hnone
      · split at hnone <;> cases hnone

/-- No challenge set is returned exactly for an empty file identifier, without public parameters,
or without a store. -/
theorem World.generateChallenges_eq_none_iff (lib : CoreLib G1 G2 GT) (w : World κ)
    (runtime : ChallengeRuntime) (fuel : Nat) (algorithm_ : Option (SM9BLSAlgorithm G2))
    (ext : DHTDynamicChallengeRequestExt G1 G2) :
    w.generateChallenges lib runtime fuel algorithm_ (.typed ext) = some (.ok none) ↔
      ext.fileId = [] ∨ ext.userPublicParams = none ∨ ext.stateStore = false := by
  unfold World.generateChallenges
  simp only [BasePtr.cast, List.isEmpty_iff]
  by_cases hfile : ext.fileId = []
  · simp [hfile]
  · rw [if_neg hfile]
    cases hpub : ext.userPublicParams with
    | none => simp
    | some publicParams =>
      cases hstore : ext.stateStore with
      | false => simp
      | true =>
        simp only [Bool.not_true, Bool.false_eq_true, if_false, hfile, reduceCtorEq, or_self,
          iff_false]
        intro hnone
        split_ifs at hnone
        · cases Except.ok.inj (Option.some.inj hnone)
        · cases algorithm_ with
          | none => cases Option.some.inj hnone
          | some algorithm =>
            simp only at hnone
            split at hnone
            · cases Option.some.inj hnone
            · obtain ⟨result, _, hresult⟩ := Option.map_eq_some_iff.mp hnone
              obtain ⟨challenges, _, hsome⟩ := map_eq_ok.mp hresult
              cases hsome

/-- What `verifyProofs` says of a request that lacks an input. -/
def missingInputReasons : List String :=
  ["Empty challenges or proves vector", "DHTDynamicVerifyRequestExt/Challenges/Proves required",
    "fileId required for verification", "User public params required for verification"]

theorem checkEquation_reason (lib : CoreLib G1 G2 GT) (H : G1)
    (challenges : DHTDynamicChallenges G2) (proves : DHTDynamicProves GT)
    (ext : BasePtr (DHTDynamicVerifyRequestExt G1 G2)) :
    (checkEquation lib H challenges proves ext).reason ∉ missingInputReasons := by
  unfold checkEquation
  split
  · simp [VerifyProofsResult.reject, missingInputReasons]
  · split
    · simp [VerifyProofsResult.reject, missingInputReasons]
    · split
      · simp [VerifyProofsResult.reject, missingInputReasons]
      · split_ifs <;> simp [missingInputReasons]

/-- With a challenge and a proof of their classes, a file identifier and parameters, no input is
reported missing. -/
theorem verifyProofs_reason (lib : CoreLib G1 G2 GT) {challenges : DHTDynamicChallenges G2}
    {proves : DHTDynamicProves GT} {fileId : Bytes} (hfile : fileId ≠ [])
    {publicParams : DHTDynamicPublicParams G1 G2} {result : VerifyProofsResult G1 G2}
    (h : verifyProofs lib ⟨[.typed challenges], [.typed proves],
      .typed ⟨fileId, some publicParams⟩⟩ = .ok result) :
    result.reason ∉ missingInputReasons := by
  simp only [verifyProofs, BasePtr.cast, List.isEmpty_iff, hfile, if_false] at h
  split_ifs at h with hitems hpk
  · obtain rfl := Except.ok.inj h
    simp [VerifyProofsResult.reject, missingInputReasons]
  · obtain rfl := Except.ok.inj h
    simp [VerifyProofsResult.reject, missingInputReasons]
  · split at h
    · cases h
    · split_ifs at h
      · obtain rfl := Except.ok.inj h
        simp [VerifyProofsResult.reject, missingInputReasons]
      · obtain rfl := Except.ok.inj h
        exact checkEquation_reason lib _ challenges proves _

/-- A missing challenge or proof is reported as such, before anything else is looked at. -/
theorem verifyProofs_of_missing (lib : CoreLib G1 G2 GT)
    {challenges : BasePtr (DHTDynamicChallenges G2)} {proves : BasePtr (DHTDynamicProves GT)}
    (ext : DHTDynamicVerifyRequestExt G1 G2) (h : challenges.cast = none ∨ proves.cast = none) :
    verifyProofs lib ⟨[challenges], [proves], .typed ext⟩ =
      .ok (.reject "DHTDynamicVerifyRequestExt/Challenges/Proves required") := by
  rcases h with h | h
  · cases challenges with
    | null => rfl
    | foreign => rfl
    | typed object => cases h
  · cases proves with
    | null => cases challenges <;> rfl
    | foreign => cases challenges <;> rfl
    | typed object => cases h

/-- The inputs that three stages report missing from requests `createRequest` accepts. No container
is returned exactly for a null block source under `blocks`, no challenge set exactly without a file
identifier, parameters or store, and a verification lacks an input exactly if an earlier stage did
not return its challenge or its proof. -/
theorem accepted_requests_complete (lib : CoreLib G1 G2 GT) (accessors : InputLib G1)
    (context : AuditOperationContext G1 G2 GT) (input : RawInput G1) :
    (∀ request, AuditOperation.GenerateTags.createRequest accessors context input =
        .ok (.generateTags request) → ∀ w : World κ,
      (w.generateTags lib request).1 = .ok none ↔ request.blocks = none) ∧
    (∀ request, AuditOperation.ChallengeGen.createRequest accessors context input =
        .ok (.generateChallenges request) → ∀ (w : World κ) runtime fuel algorithm_,
      w.generateChallenges lib runtime fuel algorithm_ (.typed request.ext) = some (.ok none) ↔
        request.ext.fileId = [] ∨ context.publicParams = none ∨ context.stateStore = false) ∧
    ∀ request, AuditOperation.ProofVerify.createRequest accessors context input =
        .ok (.verifyProofs request) → ∀ result, verifyProofs lib request = .ok result →
      (result.reason ∈ missingInputReasons ↔
        context.generateChallengesResult.bind (·.cast) = none ∨
          context.generateProofsResult.bind (·.cast) = none) := by
  refine ⟨fun request hcreate w => ?_, fun request hcreate w runtime fuel algorithm_ => ?_,
    fun request hcreate result hresult => ?_⟩
  · rw [AuditOperation.createRequest_generateTags] at hcreate
    obtain ⟨_, _, _, _, fileId, _, _, _, _, _, hfile, _, _, hext⟩ :=
      createTagsRequest_eq_ok.mp hcreate
    exact w.generateTags_eq_none_iff lib hfile hext
  · rw [AuditOperation.createRequest_challengeGen] at hcreate
    obtain ⟨_, _, _, hpub, hstore⟩ := createChallengesRequest_eq_ok hcreate
    rw [w.generateChallenges_eq_none_iff, hpub, hstore]
  · rw [AuditOperation.createRequest_proofVerify] at hcreate
    obtain ⟨challenges, proves, publicParams, _, fileId, hchallenges, hproves, _, _, _, hfile,
      rfl⟩ := createVerifyRequest_eq_ok.mp hcreate
    rw [hchallenges, hproves, Option.bind_some, Option.bind_some]
    by_cases hmissing : challenges.cast = none ∨ proves.cast = none
    · rw [verifyProofs_of_missing lib _ hmissing] at hresult
      obtain rfl := Except.ok.inj hresult
      simp [hmissing, VerifyProofsResult.reject, missingInputReasons]
    · refine iff_of_false ?_ hmissing
      obtain ⟨hc, hp⟩ := not_or.mp hmissing
      obtain ⟨challenges', hc⟩ := Option.ne_none_iff_exists'.mp hc
      obtain ⟨proves', hp⟩ := Option.ne_none_iff_exists'.mp hp
      obtain rfl := BasePtr.cast_eq_some.mp hc
      obtain rfl := BasePtr.cast_eq_some.mp hp
      exact verifyProofs_reason lib hfile hresult

/-- A tag request whose block source is null is accepted, and answered without a container. -/
theorem accepted_requests_complete_null_source :
    let lib := zmodLib fun input => input.length
    (((World.empty defaultMetadataFactory (Stream'.const 0) : World Empty).generateTags lib
      { tagRequest [7] [] none with blocks := none }).1 = .ok none) ∧
    AuditOperation.GenerateTags.createRequest documentedInput unitContext
        (customInput (tagsMapOf [7] none)) =
      .ok (.generateTags { tagRequest [7] [] none with blocks := none }) := by
  intro lib
  refine ⟨?_, rfl⟩
  exact ((accepted_requests_complete (κ := Empty) lib documentedInput unitContext
    (customInput (tagsMapOf [7] none))).1 _ rfl _).mpr rfl

/-! ## Contexts filled by the stages -/

theorem World.generateTagsResult_eq_ok {lib : CoreLib G1 G2 GT} (w : World κ)
    {input : GenerateTagsRequest G1 G2} {result : GenerateTagsResult G1 G2} :
    (w.generateTagsResult lib input).1 = .ok result ↔
      ∃ tags, (w.generateTags lib input).1 = .ok tags ∧ { tags := tags } = result :=
  map_eq_ok

/-- Every result a context carries was returned by its stage in some run. -/
structure AuditOperationContext.FromStages (κ : Type) (lib : CoreLib G1 G2 GT)
    (context : AuditOperationContext G1 G2 GT) : Prop where
  keys : ∀ stored, context.generateKeysResult = some stored → ∃ fuel algorithm_ input result,
    generateKeys lib fuel algorithm_ input = some (.ok result) ∧ stored = .ofStage result
  tags : ∀ result, context.generateTagsResult = some result →
    ∃ (w : World κ) (input : GenerateTagsRequest G1 G2),
      (w.generateTagsResult lib input).1 = .ok result
  challenges : ∀ stored, context.generateChallengesResult = some stored →
    ∃ (w : World κ) (runtime : ChallengeRuntime) (fuel : Nat)
      (algorithm_ : Option (SM9BLSAlgorithm G2))
      (input : BasePtr (DHTDynamicChallengeRequestExt G1 G2))
      (challenges : Option (DHTDynamicChallenges G2)),
      w.generateChallenges lib runtime fuel algorithm_ input = some (.ok challenges) ∧
        stored = .ofOption challenges
  proofs : ∀ stored, context.generateProofsResult = some stored → ∃ input result,
    generateProofs lib input = .ok result ∧ stored = .ofOption result.proves

/-- No context that stages filled remembers a file identifier. -/
theorem AuditOperationContext.FromStages.fillFileId {lib : CoreLib G1 G2 GT}
    (h : context.FromStages κ lib) (fileId : Bytes) :
    DHTDynamic.fillFileId context fileId = fileId := by
  have hnone : context.tagsFileId = [] := by
    unfold AuditOperationContext.tagsFileId
    cases hresult : context.generateTagsResult with
    | none => rfl
    | some result =>
      obtain ⟨w, input, htags⟩ := h.tags result hresult
      obtain ⟨tags, _, rfl⟩ := w.generateTagsResult_eq_ok.mp htags
      rfl
  unfold DHTDynamic.fillFileId
  split_ifs with hempty
  · rw [hnone, List.isEmpty_iff.mp hempty]
  · rfl

/-- Whatever order the stages ran in, the file of a challenge or a verification is the one the raw
input names: the tag result never supplies it. A challenge request that names none is answered
without a challenge set, a verification that names none is not created. -/
theorem file_named_by_input (lib : CoreLib G1 G2 GT) (accessors : InputLib G1)
    (context : AuditOperationContext G1 G2 GT) (hcontext : context.FromStages κ lib)
    (input : RawInput G1) :
    (∀ request, AuditOperation.ChallengeGen.createRequest accessors context input =
        .ok (.generateChallenges request) →
      ∃ root, input.requireJson = .ok root ∧ request.ext.fileId = parseChallengeFileId root ∧
        (parseChallengeFileId root = [] → ∀ (w : World κ) runtime fuel algorithm_,
          w.generateChallenges lib runtime fuel algorithm_ (.typed request.ext) =
            some (.ok none))) ∧
    ∀ request, AuditOperation.ProofVerify.createRequest accessors context input =
        .ok (.verifyProofs request) →
      ∃ root value fileId publicParams, input.requireJson = .ok root ∧
        root.lookup kFileId = some value ∧ accessors.jsonValueToString value = some fileId ∧
        fileId ≠ [] ∧ request.ext = .typed ⟨fileId, some publicParams⟩ := by
  refine ⟨fun request hcreate => ?_, fun request hcreate => ?_⟩
  · rw [AuditOperation.createRequest_challengeGen] at hcreate
    obtain ⟨root, hroot, hfile, _, _⟩ := createChallengesRequest_eq_ok hcreate
    rw [hcontext.fillFileId] at hfile
    refine ⟨root, hroot, hfile, fun hempty w runtime fuel algorithm_ => ?_⟩
    apply (w.generateChallenges_eq_none_iff lib runtime fuel algorithm_ request.ext).mpr
    exact Or.inl (hfile.trans hempty)
  · rw [AuditOperation.createRequest_proofVerify] at hcreate
    obtain ⟨_, _, publicParams, root, fileId, _, _, _, hroot, hparse, hne, rfl⟩ :=
      createVerifyRequest_eq_ok.mp hcreate
    rw [hcontext.fillFileId] at hne ⊢
    unfold parseVerifyFileId at hparse
    cases hvalue : root.lookup kFileId with
    | none =>
      rw [hvalue] at hparse
      exact absurd (Except.ok.inj hparse).symm hne
    | some value =>
      rw [hvalue] at hparse
      cases hstring : accessors.jsonValueToString value with
      | none =>
        simp only [hstring] at hparse
        cases hparse
      | some parsed =>
        simp only [hstring] at hparse
        obtain rfl := Except.ok.inj hparse
        exact ⟨root, value, parsed, publicParams, hroot, hvalue, hstring, hne, rfl⟩

/-- Tags of file `[7]` are in the context, but a challenge request without `fileId` is answered
without a challenge set. -/
theorem file_named_by_input_after_tags :
    let lib := zmodLib fun input => input.length
    let tags : InMemoryTags (ZMod 5) := setAll ∅ [(0, .dhtDynamic 1)]
    let request : DHTDynamicChallengeRequestExt (ZMod 5) (ZMod 5) := challengeRequest [] 1
    AuditOperation.ChallengeGen.createRequest documentedInput
        (unitContext.withTags { tags := some tags }) (jsonInput [(kChallengeCount, .number 1)]) =
      .ok (.generateChallenges ⟨request, some tags⟩) ∧
    ∀ (w : World Empty) runtime fuel algorithm_,
      w.generateChallenges lib runtime fuel algorithm_ (.typed request) = some (.ok none) := by
  intro lib tags request
  have hcontext : (unitContext.withTags { tags := some tags }).FromStages Empty lib := by
    constructor
    · rintro _ ⟨rfl⟩
      exact ⟨1, some unitAlgorithm, .typed {}, _, rfl, rfl⟩
    · rintro _ ⟨rfl⟩
      exact ⟨World.empty defaultMetadataFactory (Stream'.const 0), tagRequest [7] [[1]] none, rfl⟩
    · rintro _ ⟨⟩
    · rintro _ ⟨⟩
  obtain ⟨root, hroot, _, hnone⟩ := (file_named_by_input lib documentedInput _ hcontext
    (jsonInput [(kChallengeCount, .number 1)])).1 ⟨request, some tags⟩ rfl
  refine ⟨rfl, hnone ?_⟩
  obtain rfl := Except.ok.inj hroot
  rfl

/-! ## Members of another type -/

/-- Dropping members by key and value drops what a lookup finds, when no key occurs twice. -/
theorem lookup_filter {β : Type} {members : List (String × β)} (p : String × β → Bool)
    (h : (members.map Prod.fst).Nodup) (key : String) :
    (members.filter p).lookup key = (members.lookup key).filter fun value => p (key, value) := by
  induction members with
  | nil => rfl
  | cons member members ih =>
    obtain ⟨key', value⟩ := member
    rw [List.map_cons, List.nodup_cons] at h
    have ih := ih h.2
    by_cases hkey : key = key'
    · subst hkey
      have hnone : members.lookup key = none := by
        rw [List.lookup_eq_none_iff]
        intro other hother
        simp only [bne_iff_ne, ne_eq]
        rintro rfl
        exact h.1 (List.mem_map.mpr ⟨other, hother, rfl⟩)
      rw [hnone, Option.filter_none] at ih
      rw [List.lookup_cons_self, Option.filter_some, List.filter_cons]
      split_ifs
      · rw [List.lookup_cons_self]
      · exact ih
    · have hne : (key == key') = false := beq_false_of_ne hkey
      rw [List.filter_cons, List.lookup_cons, hne]
      split_ifs
      · rw [List.lookup_cons, hne]
        exact ih
      · exact ih

/-- The member is no option of a key or challenge request, or has the type its option asks for. -/
def optionTyped (accessors : InputLib G1) (member : String × JsonValue) : Bool :=
  if member.1 = kBlockCount ∨ member.1 = kChallengeCount ∨ member.1 = kSeed then
    accessors.isUInt64 member.2
  else if member.1 = kUsePseudoRandom then
    match member.2 with
    | .bool _ => true
    | _ => false
  else if member.1 = kFileId then
    match member.2 with
    | .string _ => true
    | _ => false
  else
    true

section Filter

variable {root : JsonObject} (h : (root.map Prod.fst).Nodup)
include h

theorem parseUInt64_filter {key : String}
    (hkey : key = kBlockCount ∨ key = kChallengeCount ∨ key = kSeed) :
    parseUInt64 accessors (root.filter (optionTyped accessors)) key =
      parseUInt64 accessors root key := by
  have htyped : (fun value => optionTyped accessors (key, value)) = accessors.isUInt64 := by
    funext value
    rw [optionTyped, if_pos hkey]
  rw [parseUInt64, parseUInt64, lookup_filter _ h, htyped, Option.filter_filter]
  simp only [Bool.and_self]

theorem parseUsePseudoRandom_filter :
    parseUsePseudoRandom (root.filter (optionTyped accessors)) = parseUsePseudoRandom root := by
  rw [parseUsePseudoRandom, parseUsePseudoRandom, lookup_filter _ h]
  cases root.lookup kUsePseudoRandom with
  | none => rfl
  | some value => cases value <;> rfl

theorem parseChallengeFileId_filter :
    parseChallengeFileId (root.filter (optionTyped accessors)) = parseChallengeFileId root := by
  rw [parseChallengeFileId, parseChallengeFileId, lookup_filter _ h]
  cases root.lookup kFileId with
  | none => rfl
  | some value => cases value <;> rfl

end Filter

/-- An option of a key or challenge request that has another type changes nothing: the request, or
the exception, is that of the input without the member. A scope of another type (the selector of
a tag request, the indices of a maintenance request, the file of a verification) is never dropped:
no request is created. -/
theorem options_dropped_scopes_rejected (accessors : InputLib G1)
    (context : AuditOperationContext G1 G2 GT) :
    (∀ (root : JsonObject) (custom : Except Bytes (AuditDataMap G1)) (op : AuditOperation),
      (root.map Prod.fst).Nodup → op = .KeyGeneration ∨ op = .ChallengeGen →
        op.createRequest accessors context ⟨.ok root, custom⟩ =
          op.createRequest accessors context
            ⟨.ok (root.filter (optionTyped accessors)), custom⟩) ∧
    (∀ (input : RawInput G1) (inputMap : AuditDataMap G1) (value : DataValue G1),
      input.requireCustom = .ok inputMap → inputMap.lookup kTargetBlockIndices = some value →
        (∀ selector, value ≠ .indices selector) → ∀ request,
          AuditOperation.GenerateTags.createRequest accessors context input ≠ .ok request) ∧
    (∀ (input : RawInput G1) (root : JsonObject) (value : JsonValue),
      input.requireJson = .ok root → root.lookup kBlockIndices = some value →
        (∀ size elements, value ≠ .array size elements) → ∀ request,
          AuditOperation.Maintenance.createRequest accessors context input ≠ .ok request) ∧
    ∀ (input : RawInput G1) (root : JsonObject) (value : JsonValue),
      input.requireJson = .ok root → root.lookup kFileId = some value →
        accessors.jsonValueToString value = none → ∀ request,
          AuditOperation.ProofVerify.createRequest accessors context input ≠ .ok request := by
  refine ⟨?_, ?_, ?_, ?_⟩
  · rintro root custom op h (rfl | rfl)
    · apply congrArg (Except.map AuditRequestVariant.generateKeys)
      simp only [createKeysRequest_ok, parseUInt64_filter h (Or.inr (Or.inr rfl))]
    · apply congrArg (Except.map AuditRequestVariant.generateChallenges)
      simp only [createChallengesRequest_ok, parseUInt64_filter h (Or.inl rfl),
        parseUInt64_filter h (Or.inr (Or.inl rfl)), parseUInt64_filter h (Or.inr (Or.inr rfl)),
        parseUsePseudoRandom_filter h, parseChallengeFileId_filter h]
  · intro input inputMap value hmap hvalue hother request hcreate
    obtain ⟨request', hcreate, _⟩ := map_eq_ok.mp hcreate
    obtain ⟨_, _, _, inputMap', _, _, _, _, hmap', _, _, _, htargets, _⟩ :=
      createTagsRequest_eq_ok.mp hcreate
    obtain rfl := Except.ok.inj (hmap.symm.trans hmap')
    rw [parseTargets, hvalue] at htargets
    cases value with
    | indices selector => exact hother selector rfl
    | _ => cases htargets
  · intro input root value hroot hvalue hother request hcreate
    obtain ⟨request', hcreate, _⟩ := map_eq_ok.mp hcreate
    obtain ⟨root', hroot', hrest⟩ := bind_eq_ok.mp hcreate
    obtain rfl := Except.ok.inj (hroot.symm.trans (orThrow_eq_ok.mp hroot'))
    have hindices : parseBlockIndices accessors.toJsonCpp root = .error .blockIndicesNotArray := by
      rw [parseBlockIndices, hvalue]
      cases value with
      | array size elements => exact absurd rfl (hother size elements)
      | _ => rfl
    split at hrest
    · rename_i ext hext
      obtain ⟨_, _, hext⟩ := bind_eq_ok.mp hext
      obtain ⟨_, _, hext⟩ := bind_eq_ok.mp hext
      rw [hindices] at hext
      cases hext
    · cases hrest
  · intro input root value hroot hvalue hother request hcreate
    obtain ⟨request', hcreate, _⟩ := map_eq_ok.mp hcreate
    obtain ⟨_, _, _, root', _, _, _, _, hroot', hparse, _⟩ := createVerifyRequest_eq_ok.mp hcreate
    obtain rfl := Except.ok.inj (hroot.symm.trans hroot')
    simp only [parseVerifyFileId, hvalue, hother] at hparse
    cases hparse

/-- A seed that is not a number, and a block count that is one. -/
theorem options_dropped_scopes_rejected_seed :
    let root : JsonObject := [(kSeed, .null), (kBlockCount, .number 3)]
    AuditOperation.ChallengeGen.createRequest documentedInput unitContext (jsonInput root) =
      AuditOperation.ChallengeGen.createRequest documentedInput unitContext
        (jsonInput (root.filter (optionTyped documentedInput))) :=
  (options_dropped_scopes_rejected documentedInput unitContext).1 _ _ .ChallengeGen (by decide)
    (Or.inr rfl)

/-! ## A round of an audit -/

theorem BasePtr.cast_ofOption {α : Type} (object : Option α) :
    (BasePtr.ofOption object).cast = object := by
  cases object <;> rfl

section Round

variable [AddCommGroup G1] [AddCommGroup G2] [CommGroup GT] {lib : CoreLib G1 G2 GT} {n : Nat}
  {e : G1 →+ G2 →+ Additive GT}

/-- An audit from raw inputs alone. A file is tagged through a source that starts at its first
block, then challenged with whatever options the input has; the prover gets the same source and
the tags just made. If every challenged block was tagged, with a point not at infinity, then the
proof and the verification request are created and the verifier accepts. -/
theorem audit_round_accepts (h : lib.Lawful n e) (accessors : InputLib G1)
    (hstring : ∀ s, accessors.jsonValueToString (.string s) = some s)
    (keyFuel : Nat) (algorithm_ : Option (SM9BLSAlgorithm G2))
    (keyInput : BasePtr DHTDynamicKeyGenRequestExt) (keys : GenerateKeysResult G1 G2)
    (hkeys : generateKeys lib keyFuel algorithm_ keyInput = some (.ok keys))
    (hpk : ∀ algorithm keyPair pk, algorithm_ = some algorithm →
      algorithm.keyPair = .typed keyPair → keyPair.publicKeyPtr = .typed pk → pk ≠ 0)
    (context : AuditOperationContext G1 G2 GT)
    (hcontext : context.generateKeysResult = some (.ofStage keys))
    (w : World κ) (hw : w.WellFormed) (fileId : Bytes) (source : AuditBlockSource)
    (hstart : source.globalBlockStartIndex = 0) (tagsInput challengesInput proofsInput
      verifyInput : RawInput G1) (tagsMap proofsMap : AuditDataMap G1)
    (challengesRoot verifyRoot : JsonObject) (htagsMap : tagsInput.requireCustom = .ok tagsMap)
    (hblocks : tagsMap.lookup kBlocks = some (.blocks (some source)))
    (hfile : tagsMap.lookup kFileId = some (.string fileId))
    (tagsRequest : GenerateTagsRequest G1 G2)
    (htagsRequest : AuditOperation.GenerateTags.createRequest accessors context tagsInput =
      .ok (.generateTags tagsRequest))
    (tagsResult : GenerateTagsResult G1 G2)
    (htagsResult : (w.generateTagsResult lib tagsRequest).1 = .ok tagsResult)
    (tags : InMemoryTags G1) (htags : tagsResult.tags = some tags)
    (hchallengesRoot : challengesInput.requireJson = .ok challengesRoot)
    (hchallengesFile : challengesRoot.lookup kFileId = some (.string fileId))
    (challengesRequest : GenerateChallengesRequest G1 G2)
    (hchallengesRequest : AuditOperation.ChallengeGen.createRequest accessors
      (context.withTags tagsResult) challengesInput = .ok (.generateChallenges challengesRequest))
    (runtime : ChallengeRuntime) (fuel : Nat) (challenger : Option (SM9BLSAlgorithm G2))
    (challenges : DHTDynamicChallenges G2)
    (hchallenges : (w.generateTagsResult lib tagsRequest).2.generateChallenges lib runtime fuel
      challenger (.typed challengesRequest.ext) = some (.ok (some challenges)))
    (hitems : challenges.items ≠ [])
    (hcovered : ∀ item ∈ challenges.items, ∃ sigma, sigma ≠ 0 ∧
      tags[item.blockIndex - 1]? = some (.dhtDynamic sigma))
    (hproofsMap : proofsInput.requireCustom = .ok proofsMap)
    (hproofsBlocks : proofsMap.lookup kBlocks = some (.blocks (some source)))
    (hproofsTags : proofsMap.lookup kTags = some (.tags (some tags)))
    (hverifyRoot : verifyInput.requireJson = .ok verifyRoot)
    (hverifyFile : verifyRoot.lookup kFileId = some (.string fileId)) :
    ∃ proofsRequest proofs verifyRequest result,
      AuditOperation.ProofGen.createRequest accessors
          ((context.withTags tagsResult).withChallenges (some challenges)) proofsInput =
        .ok (.generateProofs proofsRequest) ∧
      generateProofs lib proofsRequest = .ok proofs ∧
      AuditOperation.ProofVerify.createRequest accessors
          (((context.withTags tagsResult).withChallenges (some challenges)).withProofs proofs)
          verifyInput = .ok (.verifyProofs verifyRequest) ∧
      verifyProofs lib verifyRequest = .ok result ∧ result.ok = true := by
  -- the tag request
  obtain ⟨stored, publicParams, privateParams, tagsMap', fileId', hstored, hpub, hpriv, htagsMap',
    hfile', hne, hsource, _, hext⟩ := createTagsRequest_eq_ok.mp
      (AuditOperation.createRequest_generateTags.mp htagsRequest)
  obtain rfl := Option.some.inj (hcontext.symm.trans hstored)
  obtain rfl := Except.ok.inj (htagsMap.symm.trans htagsMap')
  rw [parseTagsFileId, hfile] at hfile'
  obtain rfl := Except.ok.inj hfile'
  rw [requireBlocks, hblocks] at hsource
  have hpublic : (context.withTags tagsResult).publicParams = some publicParams := by
    simp only [AuditOperationContext.publicParams, AuditOperationContext.withTags, hcontext,
      Option.bind_some, hpub]
  rw [StoredKeys.ofStage, BasePtr.cast_ofOption] at hpub hpriv
  obtain ⟨hy, algorithm, keyPair, halgorithm, hpair, hkey⟩ := generateKeys_keysFrom hkeys hpub hpriv
  -- the tags are those of the store
  obtain ⟨_, hreturned, rfl⟩ := w.generateTagsResult_eq_ok.mp htagsResult
  obtain rfl : _ = some tags := htags
  obtain ⟨_, hcurrent⟩ := World.generateTags_tagging lib hw tagsRequest
  obtain ⟨_, _, _, _, _, hacc, hcurrent⟩ := hcurrent tags hreturned
  have hext' := hacc.ext
  rw [hext, BasePtr.cast, Option.some.injEq] at hext'
  obtain ⟨rfl, hpub', hpriv', _⟩ := DHTDynamicTagsGenRequestExt.mk.inj hext'
  obtain rfl := Option.some.inj hpub'
  obtain rfl := Option.some.inj hpriv'
  obtain rfl := Option.some.inj ((Except.ok.inj hsource).trans hacc.source)
  -- the challenge is drawn from the same store
  obtain ⟨root, hroot, hchallengeFile, hchallengePublic, _⟩ := createChallengesRequest_eq_ok
    (AuditOperation.createRequest_challengeGen.mp hchallengesRequest)
  obtain rfl := Except.ok.inj (hchallengesRoot.symm.trans hroot)
  have hfill : ∀ other : AuditOperationContext G1 G2 GT, fillFileId other fileId = fileId :=
    fun other => if_neg (by rwa [List.isEmpty_iff])
  rw [parseChallengeFileId, hchallengesFile, hfill] at hchallengeFile
  rw [hpublic] at hchallengePublic
  obtain ⟨_, hR, hdrawn⟩ := World.generateChallenges_drawn hchallengePublic hchallenges hitems
  rw [hchallengeFile] at hdrawn
  rw [h.g2Mul, Option.some.injEq] at hy hR
  let content : SizeT → Bytes := fun i => ((source.block (i - 1)).toOption).getD []
  have htagged : ∀ item ∈ challenges.items,
      source.block (item.blockIndex - 1) = .ok (content item.blockIndex) ∧
      ∃ sigma, sigma ≠ 0 ∧ tags[item.blockIndex - 1]? = some (.dhtDynamic sigma) ∧
        sigma = honestSigma lib privateParams.a publicParams.u fileId item.blockIndex
          item.metadata (content item.blockIndex) := by
    intro item hitem
    obtain ⟨sigma, hsigma, htag⟩ := hcovered item hitem
    obtain ⟨metadata, block, sigma', hm, hblock, hcompute, heq⟩ := hcurrent _ _ htag
    obtain rfl := Tag.dhtDynamic.inj heq
    obtain rfl := BlockMetadata.versioned.inj
      (Option.some.inj (hm.symm.trans (hdrawn item hitem).2))
    rw [hstart, sub_zero] at hblock
    have hcontent : content item.blockIndex = block := by
      simp only [content, hblock, Except.toOption, Option.getD_some]
    rw [sub_add_cancel, h.computeTag, Except.ok.injEq] at hcompute
    rw [hcontent]
    exact ⟨hblock, sigma, hsigma, htag, hcompute.symm⟩
  have htaggedUnder : TaggedUnder lib privateParams.a publicParams.u fileId id tags content
      challenges.items := fun item hitem => ⟨(hdrawn item hitem).1, (htagged item hitem).2⟩
  have hread : Readable lib tags source content challenges.items :=
    fun item hitem _ => (htagged item hitem).1
  obtain ⟨proves, proofExt, result, hprove, hverify, hok, _⟩ := htaggedUnder.audit h hne hy.symm
    (hpk algorithm keyPair _ halgorithm hpair hkey) hR.symm hitems hread
  -- the last two requests
  refine ⟨_, _, _, result, ?_, hprove, ?_, hverify, hok (relocatedSum_id _ _ _)⟩
  · apply AuditOperation.createRequest_proofGen.mpr
    apply createProofsRequest_eq_ok.mpr
    have hset : BasePtr.ofOption (some challenges) ≠ .null := by
      intro hnull
      cases hnull
    exact ⟨_, publicParams, proofsMap, some source, some tags, rfl, hset, hpublic, hproofsMap,
      by rw [requireBlocks, hproofsBlocks], by rw [requireTags, hproofsTags], rfl⟩
  · apply AuditOperation.createRequest_proofVerify.mpr
    apply createVerifyRequest_eq_ok.mpr
    have hparse : parseVerifyFileId accessors verifyRoot = .ok fileId := by
      simp only [parseVerifyFileId, hverifyFile, hstring]
    refine ⟨_, _, publicParams, verifyRoot, fileId, rfl, rfl, hpublic, hverifyRoot, hparse, ?_, ?_⟩
    · rwa [hfill]
    · rw [hfill]
      rfl

end Round

/-- A challenge of the two blocks of a new file. -/
def bothBlocksChallenge : DHTDynamicChallenges (ZMod 5) where
  R := 1
  r := .ofUInt64 1
  items := [{ blockIndex := 2, nu := .ofUInt64 1, metadata := ⟨1, 0⟩ },
    { blockIndex := 1, nu := .ofUInt64 1, metadata := ⟨1, 0⟩ }]
  blockCount := 2

/-- A file of two blocks, challenged with a seed that is not a number. -/
theorem audit_round_accepts_two_blocks :
    let lib := byteSumLib
    let source := fullFile [[2], [2]]
    let tags : InMemoryTags (ZMod 5) := setAll ∅ [(0, .dhtDynamic 1), (1, .dhtDynamic 2)]
    let challengesRoot : JsonObject :=
      [(kFileId, .string [7]), (kChallengeCount, .number 2), (kSeed, .null)]
    let tagged := unitContext.withTags { tags := some tags }
    let context := tagged.withChallenges (some bothBlocksChallenge)
    AuditOperation.ChallengeGen.createRequest documentedInput tagged (jsonInput challengesRoot) =
      .ok (.generateChallenges ⟨challengeRequest [7] 2, some tags⟩) ∧
    ∃ proofsRequest proofs verifyRequest result,
      AuditOperation.ProofGen.createRequest documentedInput context
          (customInput [(kBlocks, .blocks (some source)), (kTags, .tags (some tags))]) =
        .ok (.generateProofs proofsRequest) ∧
      generateProofs lib proofsRequest = .ok proofs ∧
      AuditOperation.ProofVerify.createRequest documentedInput (context.withProofs proofs)
          (jsonInput [(kFileId, .string [7])]) = .ok (.verifyProofs verifyRequest) ∧
      verifyProofs lib verifyRequest = .ok result ∧ result.ok = true := by
  intro lib source tags challengesRoot tagged context
  refine ⟨rfl, audit_round_accepts (κ := Empty) byteSumLib_lawful documentedInput (fun _ => rfl)
    1 (some unitAlgorithm) (.typed {}) ⟨true, "DHTDynamic key pair generated",
      some unitPublicParams, some unitPrivateParams⟩ rfl ?_ unitContext rfl
    (World.empty defaultMetadataFactory (Stream'.const 0)) (World.WellFormed.empty _ _) [7] source
    rfl (customInput (tagsMapOf [7] (some source))) (jsonInput challengesRoot) _ _
    (tagsMapOf [7] (some source)) _ challengesRoot _ rfl rfl rfl
    (tagRequest [7] [[2], [2]] none) rfl { tags := some tags } rfl tags rfl rfl rfl
    ⟨challengeRequest [7] 2, some tags⟩ rfl (.scripted [1, 2]) 3 (some unitAlgorithm)
    bothBlocksChallenge rfl (by decide) ?_ rfl rfl rfl rfl rfl⟩
  · rintro _ _ _ ⟨rfl⟩ ⟨rfl⟩ ⟨rfl⟩
    decide
  · intro item hitem
    rcases List.mem_pair.mp hitem with rfl | rfl
    · exact ⟨2, by decide, rfl⟩
    · exact ⟨1, by decide, rfl⟩

end DHTDynamic
