import Mathlib.Data.List.Sort
import DHTDynamicAudit.Core.Loop
import DHTDynamicAudit.Strategy.Common
import DHTDynamicAudit.Strategy.StateStore

/-!
# Tag generation

`generateTags` resolves its selector before it touches the store, then walks the
targets: a block without metadata is registered by a direct write into the
collection, and its tag is computed over what the store holds.
-/

namespace DHTDynamic

open Core (forEach)

variable {G1 G2 GT κ : Type} (lib : CoreLib G1 G2 GT)

/-- `std::adjacent_find` finds something. -/
def hasAdjacentEqual : List SizeT → Bool
  | i :: j :: rest => i == j || hasAdjacentEqual (j :: rest)
  | _ => false

/-- The window test of a selector entry, as the sources write it. -/
def insideWindow (windowStart blockCount index : SizeT) : Bool :=
  index > windowStart && index - windowStart ≤ blockCount

/-- `resolveTargetBlockIndices`. -/
def resolveTargetBlockIndices (selector : Option (List SizeT)) (windowStart blockCount : SizeT) :
    Except Exception (List SizeT) :=
  match selector with
  | none | some [] =>
    .ok ((List.range blockCount.toNat).map fun i => windowStart + UInt64.ofNat i + 1)
  | some selected =>
    match selected.find? fun index => !insideWindow windowStart blockCount index with
    | some index => .error (.targetOutsideWindow index windowStart blockCount)
    | none =>
      let indices := selected.insertionSort (· ≤ ·)
      if hasAdjacentEqual indices then .error .targetsNotDistinct else .ok indices

/-- `DHTDynamicTagsGenRequestExt`. -/
structure DHTDynamicTagsGenRequestExt (G1 G2 : Type) where
  fileId : Bytes := []
  userPublicParams : Option (DHTDynamicPublicParams G1 G2) := none
  userPrivateParams : Option DHTDynamicPrivateParams := none
  /-- Whether the state store pointer is set. -/
  stateStore : Bool := false

/-- `GenerateTagsRequest`. -/
structure GenerateTagsRequest (G1 G2 : Type) where
  ext : BasePtr (DHTDynamicTagsGenRequestExt G1 G2)
  blocks : Option AuditBlockSource := none
  targetBlockIndices : Option (List SizeT) := none

/-- `GenerateTagsResult`. -/
structure GenerateTagsResult (G1 G2 : Type) where
  tags : Option (InMemoryTags G1) := none
  ext : BasePtr (DHTDynamicTagsGenRequestExt G1 G2) := .null

/-- The tag `σ = [a](H + Σ[segment_j]u)` of one block. -/
def computeTag (a : SM9CryptoData) (u : G1) (fileId : Bytes) (blockIndex : SizeT)
    (metadata : VersionedBlockMetadata) (block : Bytes) : Except Exception G1 := do
  let H := computeBlockHash lib fileId blockIndex metadata
  let segmentSum ← accumulateBlockSegmentsG1 lib block u
  let sumPoint ← deref (lib.g1Add H segmentSum)
  deref (lib.g1Mul sumPoint a)

namespace World

/-- The metadata a tag is computed over: the store's, or a new record written directly at the
block's index. -/
def metadataForTag (w : World κ) (fileId : Bytes) (blockIndex : SizeT) : Outcome κ Ref :=
  match w.getBlockMetadata fileId blockIndex with
  | .ok existing => (.ok existing, w)
  | .error _ =>
    let (now, w) := w.now
    let (metadata, w) := w.allocate (.versioned ⟨1, now⟩)
    match w.files_[fileId]? with
    | none => (.error (.fileMissing .getBlockMetadataCollection fileId), w)
    | some collection =>
      (.ok metadata, w.putCollection fileId (collection.insert (blockIndex - 1) metadata))

/-- One pass of the loop over the target indices. -/
def tagOne (a : SM9CryptoData) (u : G1) (fileId : Bytes) (blocks : AuditBlockSource)
    (s : World κ × InMemoryTags G1) (blockIndex : SizeT) :
    Except Exception Unit × World κ × InMemoryTags G1 :=
  match s.1.metadataForTag fileId blockIndex with
  | (.error e, w) => (.error e, w, s.2)
  | (.ok metadata, w) =>
    match (w.heap metadata).asVersioned with
    | none => (.error (.tagsNotVersioned blockIndex), w, s.2)
    | some metadata =>
      let localIndex := blockIndex - 1 - blocks.globalBlockStartIndex
      match (do computeTag lib a u fileId blockIndex metadata (← blocks.read localIndex)) with
      | .error e => (.error e, w, s.2)
      | .ok sigma => (.ok (), w, s.2.insert (blockIndex - 1) (.dhtDynamic sigma))

/-- `hasFile` and, when that fails, `addFile`. -/
def ensureFile (w : World κ) (fileId : Bytes) : Outcome κ Unit :=
  if w.hasFile fileId then (.ok (), w) else w.addFile fileId

/-- `generateTags`; a request that lacks an input returns no container. -/
def generateTags (w : World κ) (input : GenerateTagsRequest G1 G2) :
    Outcome κ (Option (InMemoryTags G1)) :=
  match input.ext.cast with
  | none => (.ok none, w)
  | some ext =>
    if ext.fileId.isEmpty then
      (.ok none, w)
    else
      match input.blocks, ext.userPrivateParams, ext.userPublicParams with
      | some blocks, some privateParams, some publicParams =>
        match resolveTargetBlockIndices input.targetBlockIndices blocks.globalBlockStartIndex
            blocks.availableBlockCount with
        | .error e => (.error e, w)
        | .ok targetIndices =>
          if !ext.stateStore then
            (.error .tagsStateStoreMissing, w)
          else
            match w.ensureFile ext.fileId with
            | (.error e, w) => (.error e, w)
            | (.ok (), w) =>
              match forEach (tagOne lib privateParams.a publicParams.u ext.fileId blocks) (w, ∅)
                  targetIndices with
              | (.error e, w, _) => (.error e, w)
              | (.ok (), w, tags) => (.ok (some tags), w)
      | _, _, _ => (.ok none, w)

/-- What `generateTags` hands back: it sets the container and leaves `ext` as it was. -/
def generateTagsResult (w : World κ) (input : GenerateTagsRequest G1 G2) :
    Outcome κ (GenerateTagsResult G1 G2) :=
  let (tags, w) := w.generateTags lib input
  (tags.map fun tags => { tags := tags }, w)

end World

end DHTDynamic
