import DHTDynamicAudit.Strategy.Challenges
import DHTDynamicAudit.Strategy.Proofs
import DHTDynamicAudit.Strategy.Requests
import DHTDynamicAudit.Strategy.Tags

/-!
# Stage requests from an operation context

`createRequest` builds the request of every stage from the raw input of the
caller and the results an operation context carries from earlier stages. Raw
inputs are seen through the accessors of CoreLib and jsoncpp, which are
parameters.
-/

namespace DHTDynamic

namespace StageKeys

/-- `StageKeys::kBlocks`. -/
def kBlocks : String := "blocks"

/-- `StageKeys::kTargetBlockIndices`. -/
def kTargetBlockIndices : String := "targetBlockIndices"

/-- `StageKeys::kSeed`. -/
def kSeed : String := "seed"

/-- `StageKeys::kBlockCount`. -/
def kBlockCount : String := "blockCount"

/-- `StageKeys::kChallengeCount`. -/
def kChallengeCount : String := "challengeCount"

/-- `StageKeys::kUsePseudoRandom`. -/
def kUsePseudoRandom : String := "usePseudoRandom"

/-- `StageKeys::kTags`. -/
def kTags : String := "tags"

end StageKeys

open StageKeys

/-! ## Inputs -/

/-- `AuditOperation`. -/
inductive AuditOperation where
  | AlgorithmInit
  | KeyGeneration
  | GenerateTags
  | ChallengeGen
  | ProofGen
  | ProofVerify
  | Maintenance
  /-- A value without a case of its own. -/
  | other
  deriving DecidableEq, Repr

/-- A value of an `AuditDataMap`; its pointers may be null. -/
inductive DataValue (G1 : Type) where
  | blocks (source : Option AuditBlockSource)
  | tags (tags : Option (InMemoryTags G1))
  | string (s : Bytes)
  | indices (selector : SizeTVector)
  | other

/-- `AuditDataMap`. -/
abbrev AuditDataMap (G1 : Type) := List (String × DataValue G1)

/-- A `RawInput` by what its accessors give for the operation: an error is the text thrown. -/
structure RawInput (G1 : Type) where
  /-- `requireJson`, and the check of `isMember` that the value is an object. -/
  requireJson : Except Bytes JsonObject
  /-- `requireCustom<AuditDataMap>`. -/
  requireCustom : Except Bytes (AuditDataMap G1)

/-- The accessors of jsoncpp and CoreLib the stages call. -/
structure InputLib (G1 : Type) extends JsonCpp where
  isUInt64 : JsonValue → Bool
  /-- `RawInput::jsonValueToString`; `none` when it returns false. -/
  jsonValueToString : JsonValue → Option Bytes
  /-- What `getRequired` throws for a key without a value of the type asked for. -/
  requiredMissing : String → Bytes
  /-- `getOptional<std::string>` of a value of another type. -/
  notString : DataValue G1 → Except Bytes (Option Bytes)

/-! ## The operation context -/

/-- What a context keeps of a `GenerateKeysResult`. -/
structure StoredKeys (G1 G2 : Type) where
  publicParams : BasePtr (DHTDynamicPublicParams G1 G2) := .null
  privateParams : BasePtr DHTDynamicPrivateParams := .null

/-- `AuditOperationContext`: the state store and the results of earlier stages. -/
structure AuditOperationContext (G1 G2 GT : Type) where
  /-- Whether the state store pointer is set. -/
  stateStore : Bool := false
  generateKeysResult : Option (StoredKeys G1 G2) := none
  generateTagsResult : Option (GenerateTagsResult G1 G2) := none
  /-- The challenges pointer of a `GenerateChallengesResult`. -/
  generateChallengesResult : Option (BasePtr (DHTDynamicChallenges G2)) := none
  /-- The proves pointer of a `GenerateProofsResult`. -/
  generateProofsResult : Option (BasePtr (DHTDynamicProves GT)) := none

/-- A pointer to an object of the expected class, or null. -/
def BasePtr.ofOption {α : Type} : Option α → BasePtr α
  | some object => .typed object
  | none => .null

/-- The result of `generateKeys` in a context. -/
def StoredKeys.ofStage {G1 G2 : Type} (result : GenerateKeysResult G1 G2) : StoredKeys G1 G2 :=
  ⟨.ofOption result.publicParams, .ofOption result.privateParams⟩

section Store

variable {G1 G2 GT : Type} (context : AuditOperationContext G1 G2 GT)

/-- The context after `generateTags`. -/
def AuditOperationContext.withTags (result : GenerateTagsResult G1 G2) :
    AuditOperationContext G1 G2 GT :=
  { context with generateTagsResult := some result }

/-- The context after `generateChallenges`. -/
def AuditOperationContext.withChallenges (challenges : Option (DHTDynamicChallenges G2)) :
    AuditOperationContext G1 G2 GT :=
  { context with generateChallengesResult := some (.ofOption challenges) }

/-- The context after `generateProofs`. -/
def AuditOperationContext.withProofs (result : GenerateProofsResult G1 G2 GT) :
    AuditOperationContext G1 G2 GT :=
  { context with generateProofsResult := some (.ofOption result.proves) }

end Store

/-- The public parameters a context carries, cast to their class. -/
def AuditOperationContext.publicParams {G1 G2 GT : Type}
    (context : AuditOperationContext G1 G2 GT) : Option (DHTDynamicPublicParams G1 G2) :=
  context.generateKeysResult.bind fun keys => keys.publicParams.cast

/-- The file identifier of the tag request a context remembers; empty without one. -/
def AuditOperationContext.tagsFileId {G1 G2 GT : Type} (context : AuditOperationContext G1 G2 GT) :
    Bytes :=
  match context.generateTagsResult.bind fun result => result.ext.cast with
  | some prevExt => prevExt.fileId
  | none => []

/-! ## Requests -/

/-- `DHTDynamicAlgoInitRequestExt`. -/
structure DHTDynamicAlgoInitRequestExt where

/-- `GenerateChallengesRequest`; `generateChallenges` does not read the tags. -/
structure GenerateChallengesRequest (G1 G2 : Type) where
  ext : DHTDynamicChallengeRequestExt G1 G2
  tags : Option (InMemoryTags G1) := none

/-- `AuditRequestVariant`. -/
inductive AuditRequestVariant (G1 G2 GT : Type) where
  | initializeAlgorithm (ext : DHTDynamicAlgoInitRequestExt)
  | generateKeys (ext : DHTDynamicKeyGenRequestExt)
  | generateTags (request : GenerateTagsRequest G1 G2)
  | generateChallenges (request : GenerateChallengesRequest G1 G2)
  | generateProofs (request : GenerateProofsRequest G1 G2)
  | verifyProofs (request : VerifyProofsRequest G1 G2 GT)
  | maintenance (request : MaintainRequest)

/-- What `createRequest` throws. -/
inductive StageException where
  | generateKeysRequired
  | paramsRequired
  | tagsFileIdRequired
  | targetsNotIndices
  | blockCountRequired
  | challengesRequired
  | proofParamsRequired
  | resultsRequired
  | verifyParamsRequired
  | verifyFileIdType
  | verifyFileIdRequired
  | unknownOperation
  | maintenance (e : RequestException)
  /-- Thrown by an accessor of jsoncpp or CoreLib. -/
  | accessor (what : Bytes)
  deriving DecidableEq, Repr

/-- The `what()` text, as the sources compose it. -/
def StageException.what : StageException → Bytes
  | generateKeysRequired => literal "GenerateTags requires generateKeys result in context"
  | paramsRequired =>
    literal "GenerateTags requires DHTDynamic public/private params from generateKeys"
  | tagsFileIdRequired => literal "GenerateTags requires 'fileId' in Custom data"
  | targetsNotIndices => literal "GenerateTags '" ++ literal kTargetBlockIndices ++
    literal "' must be std::vector<std::size_t> (1-based global block indices)"
  | blockCountRequired => literal
    "GenerateChallenges requires either 'blockCount' in input or generateTagsResult in context"
  | challengesRequired => literal "GenerateProofs requires challenges in context"
  | proofParamsRequired => literal "GenerateProofs requires DHTDynamic public params from context"
  | resultsRequired => literal "VerifyProofs requires challenges and proves in context"
  | verifyParamsRequired => literal "VerifyProofs requires the user-parameter role in context"
  | verifyFileIdType => literal "VerifyProofs 'fileId' must be string or byte array"
  | verifyFileIdRequired => literal "VerifyProofs requires 'fileId' in JSON input or context"
  | unknownOperation => literal "DHTDynamicAuditStrategy: unknown AuditOperation type"
  | maintenance e => e.what
  | accessor what => what

variable {G1 G2 GT : Type} (accessors : InputLib G1)

/-- What an accessor returns or throws. -/
def orThrow {α : Type} : Except Bytes α → Except StageException α
  | .ok a => .ok a
  | .error what => .error (.accessor what)

/-! ## Members of the raw input -/

/-- An optional unsigned member; one of another type counts as absent. -/
def parseUInt64 (root : JsonObject) (key : String) : Except StageException (Option UInt64) :=
  match (root.lookup key).filter accessors.isUInt64 with
  | none => .ok none
  | some value => (orThrow (accessors.asUInt64 value)).map some

/-- `usePseudoRandom`, true unless a boolean says otherwise. -/
def parseUsePseudoRandom (root : JsonObject) : Bool :=
  match root.lookup kUsePseudoRandom with
  | some (.bool b) => b
  | _ => true

/-- `fileId` of a challenge request; a member that is not a string counts as absent. -/
def parseChallengeFileId (root : JsonObject) : Bytes :=
  match root.lookup kFileId with
  | some (.string fileId) => fileId
  | _ => []

/-- `fileId` of a verification request: a string or a byte array. -/
def parseVerifyFileId (root : JsonObject) : Except StageException Bytes :=
  match root.lookup kFileId with
  | none => .ok []
  | some value =>
    match accessors.jsonValueToString value with
    | some parsed => .ok parsed
    | none => .error .verifyFileIdType

/-- `getRequired<std::shared_ptr<AuditBlockSource>>`. -/
def requireBlocks (inputMap : AuditDataMap G1) :
    Except StageException (Option AuditBlockSource) :=
  match inputMap.lookup kBlocks with
  | some (.blocks source) => .ok source
  | _ => .error (.accessor (accessors.requiredMissing kBlocks))

/-- `getRequired<std::shared_ptr<Tags>>`. -/
def requireTags (inputMap : AuditDataMap G1) : Except StageException (Option (InMemoryTags G1)) :=
  match inputMap.lookup kTags with
  | some (.tags tags) => .ok tags
  | _ => .error (.accessor (accessors.requiredMissing kTags))

/-- `fileId` of a tag request; empty when the map has none. -/
def parseTagsFileId (inputMap : AuditDataMap G1) : Except StageException Bytes :=
  match inputMap.lookup kFileId with
  | none => .ok []
  | some (.string fileId) => .ok fileId
  | some value => (orThrow (accessors.notString value)).map (·.getD [])

/-- `targetBlockIndices`: absent, or a vector of indices. -/
def parseTargets (inputMap : AuditDataMap G1) : Except StageException (Option (List SizeT)) :=
  match inputMap.lookup kTargetBlockIndices with
  | none => .ok none
  | some (.indices selector) => .ok (some selector.val)
  | some _ => .error .targetsNotIndices

/-- A file identifier the input leaves out is taken from the context. -/
def fillFileId (context : AuditOperationContext G1 G2 GT) (fileId : Bytes) : Bytes :=
  if fileId.isEmpty then context.tagsFileId else fileId

/-! ## The cases of `createRequest` -/

/-- `AuditOperation::KeyGeneration`. -/
def createKeysRequest (input : RawInput G1) : Except StageException DHTDynamicKeyGenRequestExt := do
  let root ← orThrow input.requireJson
  let seed ← parseUInt64 accessors root kSeed
  return { seed := seed }

/-- `AuditOperation::GenerateTags`. -/
def createTagsRequest (context : AuditOperationContext G1 G2 GT) (input : RawInput G1) :
    Except StageException (GenerateTagsRequest G1 G2) :=
  match context.generateKeysResult with
  | none => .error .generateKeysRequired
  | some keys =>
    match keys.publicParams.cast, keys.privateParams.cast with
    | some publicParams, some privateParams => do
      let inputMap ← orThrow input.requireCustom
      let blocks ← requireBlocks accessors inputMap
      let fileId ← parseTagsFileId accessors inputMap
      if fileId.isEmpty then
        .error .tagsFileIdRequired
      else
        let targetBlockIndices ← parseTargets inputMap
        return {
          ext := .typed ⟨fileId, some publicParams, some privateParams, context.stateStore⟩
          blocks := blocks
          targetBlockIndices := targetBlockIndices }
    | _, _ => .error .paramsRequired

/-- `AuditOperation::ChallengeGen`. -/
def createChallengesRequest (context : AuditOperationContext G1 G2 GT) (input : RawInput G1) :
    Except StageException (GenerateChallengesRequest G1 G2) := do
  let root ← orThrow input.requireJson
  let blockCount ← parseUInt64 accessors root kBlockCount
  let challengeCount ← parseUInt64 accessors root kChallengeCount
  let seed ← parseUInt64 accessors root kSeed
  if blockCount.isNone && context.generateTagsResult.isNone then
    .error .blockCountRequired
  else
    return {
      ext := {
        fileId := fillFileId context (parseChallengeFileId root)
        userPublicParams := context.publicParams
        blockCount := blockCount.getD 0
        challengeCount := challengeCount.getD 0
        usePseudoRandom := parseUsePseudoRandom root
        seed := seed
        stateStore := context.stateStore }
      tags := context.generateTagsResult.bind (·.tags) }

/-- `AuditOperation::ProofGen`. -/
def createProofsRequest (context : AuditOperationContext G1 G2 GT) (input : RawInput G1) :
    Except StageException (GenerateProofsRequest G1 G2) :=
  match context.generateChallengesResult with
  | none | some .null => .error .challengesRequired
  | some challenges => do
    let inputMap ← orThrow input.requireCustom
    let blocks ← requireBlocks accessors inputMap
    let tags ← requireTags accessors inputMap
    match context.publicParams with
    | none => .error .proofParamsRequired
    | some publicParams =>
      return { ext := .typed ⟨tags, blocks, some publicParams⟩, challenges := challenges }

/-- `AuditOperation::ProofVerify`. -/
def createVerifyRequest (context : AuditOperationContext G1 G2 GT) (input : RawInput G1) :
    Except StageException (VerifyProofsRequest G1 G2 GT) :=
  match context.generateChallengesResult, context.generateProofsResult with
  | some challenges, some proves =>
    match context.publicParams with
    | none => .error .verifyParamsRequired
    | some publicParams => do
      let root ← orThrow input.requireJson
      let fileId ← parseVerifyFileId accessors root
      let fileId := fillFileId context fileId
      if fileId.isEmpty then
        .error .verifyFileIdRequired
      else
        return {
          challenges := [challenges]
          proves := [proves]
          ext := .typed ⟨fileId, some publicParams⟩ }
  | _, _ => .error .resultsRequired

/-- `AuditOperation::Maintenance`. -/
def createMaintainRequest (context : AuditOperationContext G1 G2 GT) (input : RawInput G1) :
    Except StageException MaintainRequest := do
  let root ← orThrow input.requireJson
  match createRequest accessors.toJsonCpp root context.stateStore with
  | .ok ext => return ⟨.typed ext⟩
  | .error e => .error (.maintenance e)

/-- `DHTDynamicAuditStrategy::createRequest`. -/
def AuditOperation.createRequest (op : AuditOperation) (context : AuditOperationContext G1 G2 GT)
    (input : RawInput G1) : Except StageException (AuditRequestVariant G1 G2 GT) :=
  match op with
  | .AlgorithmInit => .ok (.initializeAlgorithm {})
  | .KeyGeneration => (createKeysRequest accessors input).map .generateKeys
  | .GenerateTags => (createTagsRequest accessors context input).map .generateTags
  | .ChallengeGen => (createChallengesRequest accessors context input).map .generateChallenges
  | .ProofGen => (createProofsRequest accessors context input).map .generateProofs
  | .ProofVerify => (createVerifyRequest accessors context input).map .verifyProofs
  | .Maintenance => (createMaintainRequest accessors context input).map .maintenance
  | .other => .error .unknownOperation

end DHTDynamic
