import DHTDynamicAudit.Core.Interleaving
import DHTDynamicAudit.Strategy.Tags

/-!
# Tag generation, one store request at a time

Concurrent calls of `generateTags` meet between their requests to the store,
each of which takes the store's lock once. A step is one such request with the
computation that follows it in the caller: the clock reading and the new object
after a miss, the tag of the block once its metadata is known.
-/

namespace DHTDynamic

open Core

variable {G1 G2 GT κ : Type}

/-- What the checks of `generateTags` leave for the requests to the store. -/
structure TagJob (G1 : Type) where
  fileId : Bytes
  blocks : AuditBlockSource
  a : SM9CryptoData
  u : G1
  targetIndices : List SizeT

/-- The tags made so far, each with the copy of the metadata it was computed over. The code
keeps the tag only. -/
abbrev MadeTags (G1 : Type) := IndexMap (VersionedBlockMetadata × Tag G1)

/-- The container that is returned. -/
def MadeTags.tags (made : MadeTags G1) : InMemoryTags G1 := made.map fun _ entry => entry.2

/-- The points between two requests of a call, named after the request that comes next. -/
inductive TagRun (G1 : Type) where
  | hasFile
  | addFile
  | getBlockMetadata (blockIndex : SizeT) (rest : List SizeT) (made : MadeTags G1)
  | getBlockMetadataCollection (metadata : Ref) (blockIndex : SizeT) (rest : List SizeT)
      (made : MadeTags G1)
  /-- `collection->set(blockIndex - 1, meta)`. -/
  | set (metadata : Ref) (blockIndex : SizeT) (rest : List SizeT) (made : MadeTags G1)
  | returned (made : MadeTags G1)
  | thrown (e : Exception)

namespace TagRun

/-- The head of the loop. -/
def next (made : MadeTags G1) : List SizeT → TagRun G1
  | [] => .returned made
  | blockIndex :: rest => .getBlockMetadata blockIndex rest made

/-- The tags the call holds. -/
def made : TagRun G1 → MadeTags G1
  | .getBlockMetadata _ _ made | .getBlockMetadataCollection _ _ _ made | .set _ _ _ made
  | .returned made => made
  | .hasFile | .addFile | .thrown _ => ∅

/-- How the call has ended, if it has. -/
def outcome : TagRun G1 → Option (Except Exception (Option (InMemoryTags G1)))
  | .returned made => some (.ok (some made.tags))
  | .thrown e => some (.error e)
  | _ => none

end TagRun

/-- A pass of the loop from the cast on. -/
def finishPass (lib : CoreLib G1 G2 GT) (job : TagJob G1) (w : World κ) (metadata : Ref)
    (blockIndex : SizeT) (rest : List SizeT) (made : MadeTags G1) : TagRun G1 :=
  -- tag requests change no object, so the copy needs no turn of its own
  match (w.heap metadata).asVersioned with
  | none => .thrown (.tagsNotVersioned blockIndex)
  | some metadata =>
    let localIndex := blockIndex - 1 - job.blocks.globalBlockStartIndex
    let tag := computeTag lib job.a job.u job.fileId blockIndex metadata
    match (do tag (← job.blocks.read localIndex)) with
    | .error e => .thrown e
    | .ok sigma => .next (made.insert (blockIndex - 1) (metadata, .dhtDynamic sigma)) rest

namespace World

/-- `set` on the collection object that `getBlockMetadataCollection` returned: the file's, as
long as nobody removes or replaces it. -/
def setMetadata (w : World κ) (fileId : Bytes) (key : SizeT) (metadata : Ref) : World κ :=
  match w.files_[fileId]? with
  | none => w
  | some collection => w.putCollection fileId (collection.insert key metadata)

end World

/-- The next request of a call, and the point it comes to. -/
def tagStep (lib : CoreLib G1 G2 GT) (job : TagJob G1) (run : TagRun G1) (w : World κ) :
    TagRun G1 × World κ :=
  match run with
  | .hasFile => (if w.hasFile job.fileId then .next ∅ job.targetIndices else .addFile, w)
  | .addFile =>
    match w.addFile job.fileId with
    | (.error e, w) => (.thrown e, w)
    | (.ok (), w) => (.next ∅ job.targetIndices, w)
  | .getBlockMetadata blockIndex rest made =>
    match w.getBlockMetadata job.fileId blockIndex with
    | .ok existing => (finishPass lib job w existing blockIndex rest made, w)
    | .error _ =>
      let (now, w) := w.now
      let (metadata, w) := w.allocate (.versioned ⟨1, now⟩)
      (.getBlockMetadataCollection metadata blockIndex rest made, w)
  | .getBlockMetadataCollection metadata blockIndex rest made =>
    match w.files_[job.fileId]? with
    | none => (.thrown (.fileMissing .getBlockMetadataCollection job.fileId), w)
    | some _ => (.set metadata blockIndex rest made, w)
  | .set metadata blockIndex rest made =>
    let w := w.setMetadata job.fileId (blockIndex - 1) metadata
    (finishPass lib job w metadata blockIndex rest made, w)
  | .returned made => (.returned made, w)
  | .thrown e => (.thrown e, w)

end DHTDynamic
