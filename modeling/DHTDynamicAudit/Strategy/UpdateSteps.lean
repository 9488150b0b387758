import DHTDynamicAudit.Core.Interleaving
import DHTDynamicAudit.Strategy.Maintenance

/-!
# Updates, one store request at a time

A `maintenance` request of type Update asks the store whether it has the file,
and then for every index of its list reads the metadata and bumps it. Each of
these requests takes the store's lock once.
-/

namespace DHTDynamic

open Core

variable {κ : Type}

/-- The points between two requests of an Update, named after the request that comes next. -/
inductive UpdateRun where
  | hasFile
  | getBlockMetadata (blockIndex : SizeT) (rest : List SizeT)
  | modifyBlock (blockIndex : SizeT) (rest : List SizeT)
  | returned
  | thrown (e : Exception)

namespace UpdateRun

/-- The checks that come before the first request. -/
def start (input : MaintainRequest) : UpdateRun :=
  match input.ext with
  | .null => .thrown .maintenanceExtRequired
  | .foreign => .thrown .maintenanceExtType
  | .typed ext =>
    if ext.fileId.isEmpty then
      .thrown .maintenanceFileIdRequired
    else if !ext.stateStore then
      .thrown .maintenanceStateStoreMissing
    else
      .hasFile

/-- The head of the loop. -/
def next : List SizeT → UpdateRun
  | [] => .returned
  | blockIndex :: rest => .getBlockMetadata blockIndex rest

/-- How the call has ended, if it has. -/
def outcome : UpdateRun → Option (Except Exception Unit)
  | .returned => some (.ok ())
  | .thrown e => some (.error e)
  | _ => none

end UpdateRun

/-- The next request of an Update, and the point it comes to. -/
def updateStep [MetadataClass κ] (ext : DHTDynamicMaintainExt) (run : UpdateRun) (w : World κ) :
    UpdateRun × World κ :=
  match run with
  | .hasFile =>
    if w.hasFile ext.fileId then
      -- `maintenance` reads the clock, `handleUpdate` checks the list
      (if ext.blockIndices.isEmpty then .thrown (.blockIndicesRequired "Update")
        else .next ext.blockIndices, w.now.2)
    else
      (.thrown (.maintenanceFileNotFound ext.fileId), w)
  | .getBlockMetadata blockIndex rest =>
    match w.getBlockMetadata ext.fileId blockIndex with
    | .error e => (.thrown e, w)
    | .ok existingMeta =>
      match (w.heap existingMeta).asVersioned with
      | none => (.thrown (.updateNotVersioned blockIndex), w)
      | some _ => (.modifyBlock blockIndex rest, w)
  | .modifyBlock blockIndex rest =>
    match w.modifyBlock ext.fileId blockIndex with
    | (.error e, w) => (.thrown e, w)
    | (.ok (), w) => (.next rest, w)
  | .returned => (.returned, w)
  | .thrown e => (.thrown e, w)

end DHTDynamic
