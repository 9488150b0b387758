import DHTDynamicAudit.Core.Loop
import DHTDynamicAudit.Strategy.StateStore

/-!
# The maintenance operation

`maintenance` only updates the state store. Each handler walks the request's
index list and validates and mutates index by index.
-/

namespace DHTDynamic

open Core (forEach)

/-- `MaintenanceOpType`: an enum class with an 8-bit underlying type. -/
structure MaintenanceOpType where
  value : UInt8
  deriving DecidableEq, Repr

namespace MaintenanceOpType

/-- Block content changed. -/
def Update : MaintenanceOpType := ⟨0⟩

/-- A new block at an index. -/
def Insert : MaintenanceOpType := ⟨1⟩

/-- A block removed. -/
def Delete : MaintenanceOpType := ⟨2⟩

end MaintenanceOpType

/-- `DHTDynamicMaintainExt`. -/
structure DHTDynamicMaintainExt where
  fileId : Bytes := []
  opType : MaintenanceOpType := MaintenanceOpType.Update
  blockIndices : List SizeT := []
  /-- Whether the state store pointer is set. -/
  stateStore : Bool := false
  /-- `blockIndices.size()` is a `std::size_t`. -/
  sized : blockIndices.length < 2 ^ 64 := by decide

/-- `MaintainRequest`, reduced to the extension `maintenance` reads. -/
structure MaintainRequest where
  ext : BasePtr DHTDynamicMaintainExt

namespace World

variable {κ : Type}

/-- One pass of the Update loop: check the class of the metadata, then bump it. -/
def updateOne [MetadataClass κ] (fileId : Bytes) (w : World κ) (blockIndex : SizeT) :
    Outcome κ Unit :=
  match w.getBlockMetadata fileId blockIndex with
  | .error e => (.error e, w)
  | .ok existingMeta =>
    match (w.heap existingMeta).asVersioned with
    | none => (.error (.updateNotVersioned blockIndex), w)
    | some _ => w.modifyBlock fileId blockIndex

/-- `handleUpdate`. -/
def handleUpdate [MetadataClass κ] (w : World κ) (ext : DHTDynamicMaintainExt) :
    Outcome κ Unit :=
  if ext.blockIndices.isEmpty then
    (.error (.blockIndicesRequired "Update"), w)
  else
    forEach (updateOne ext.fileId) w ext.blockIndices

/-- `handleInsert`. -/
def handleInsert (w : World κ) (ext : DHTDynamicMaintainExt) : Outcome κ Unit :=
  if ext.blockIndices.isEmpty then
    (.error (.blockIndicesRequired "Insert"), w)
  else
    forEach (fun w blockIndex => w.insertBlock ext.fileId blockIndex) w ext.blockIndices

/-- `handleDelete`. -/
def handleDelete (w : World κ) (ext : DHTDynamicMaintainExt) : Outcome κ Unit :=
  if ext.blockIndices.isEmpty then
    (.error (.blockIndicesRequired "Delete"), w)
  else
    forEach (fun w blockIndex => w.deleteBlock ext.fileId blockIndex) w ext.blockIndices

/-- `maintenance`. -/
def maintenance [MetadataClass κ] (w : World κ) (input : MaintainRequest) : Outcome κ Unit :=
  match input.ext with
  | .null => (.error .maintenanceExtRequired, w)
  | .foreign => (.error .maintenanceExtType, w)
  | .typed ext =>
    if ext.fileId.isEmpty then
      (.error .maintenanceFileIdRequired, w)
    else if !ext.stateStore then
      (.error .maintenanceStateStoreMissing, w)
    else if !w.hasFile ext.fileId then
      (.error (.maintenanceFileNotFound ext.fileId), w)
    else
      -- the reading itself is handed to the handlers, which do not use it
      let w := w.now.2
      if ext.opType = MaintenanceOpType.Update then
        w.handleUpdate ext
      else if ext.opType = MaintenanceOpType.Insert then
        w.handleInsert ext
      else if ext.opType = MaintenanceOpType.Delete then
        w.handleDelete ext
      else
        (.error (.unsupportedOpType ext.opType.value), w)

end World

end DHTDynamic
