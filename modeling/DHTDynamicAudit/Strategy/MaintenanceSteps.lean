import DHTDynamicAudit.Strategy.UpdateSteps

/-!
# Maintenance, one store request at a time

A `maintenance` request of any type asks the store whether it has the file, and
then its handler goes to the store once or twice for every index of its list.
Each of these requests takes the store's lock once.
-/

namespace DHTDynamic

open Core

variable {κ : Type}

/-- The points between two requests of a maintenance operation, named after the request that comes
next. -/
inductive MaintenanceRun where
  | hasFile
  | getBlockMetadata (blockIndex : SizeT) (rest : List SizeT)
  | modifyBlock (blockIndex : SizeT) (rest : List SizeT)
  | insertBlock (blockIndex : SizeT) (rest : List SizeT)
  | deleteBlock (blockIndex : SizeT) (rest : List SizeT)
  | returned
  | thrown (e : Exception)

namespace MaintenanceRun

/-- The checks that come before the first request. -/
def start (input : MaintainRequest) : MaintenanceRun :=
  match input.ext with
  | .null => .thrown .maintenanceExtRequired
  | .foreign => .thrown .maintenanceExtType
  | .typed ext =>
    if ext.fileId.isEmpty then
      .thrown .maintenanceFileIdRequired
    else if !ext.stateStore then
      .thrown .maintenanceStateStoreMissing
    else
      .hasFile

/-- The head of the loop of `handleUpdate`. -/
def nextUpdate : List SizeT → MaintenanceRun
  | [] => .returned
  | blockIndex :: rest => .getBlockMetadata blockIndex rest

/-- The head of the loop of `handleInsert`. -/
def nextInsert : List SizeT → MaintenanceRun
  | [] => .returned
  | blockIndex :: rest => .insertBlock blockIndex rest

/-- The head of the loop of `handleDelete`. -/
def nextDelete : List SizeT → MaintenanceRun
  | [] => .returned
  | blockIndex :: rest => .deleteBlock blockIndex rest

/-- The dispatch of `maintenance`, and the check of the list in the handlers. -/
def dispatch (ext : DHTDynamicMaintainExt) : MaintenanceRun :=
  if ext.opType = MaintenanceOpType.Update then
    if ext.blockIndices.isEmpty then .thrown (.blockIndicesRequired "Update")
    else .nextUpdate ext.blockIndices
  else if ext.opType = MaintenanceOpType.Insert then
    if ext.blockIndices.isEmpty then .thrown (.blockIndicesRequired "Insert")
    else .nextInsert ext.blockIndices
  else if ext.opType = MaintenanceOpType.Delete then
    if ext.blockIndices.isEmpty then .thrown (.blockIndicesRequired "Delete")
    else .nextDelete ext.blockIndices
  else
    .thrown (.unsupportedOpType ext.opType.value)

/-- How the call has ended, if it has. -/
def outcome : MaintenanceRun → Option (Except Exception Unit)
  | .returned => some (.ok ())
  | .thrown e => some (.error e)
  | _ => none

end MaintenanceRun

/-- The next request of a maintenance operation, and the point it comes to. -/
def maintenanceStep [MetadataClass κ] (ext : DHTDynamicMaintainExt) (run : MaintenanceRun)
    (w : World κ) : MaintenanceRun × World κ :=
  match run with
  | .hasFile =>
    -- with the file `maintenance` reads the clock before it dispatches
    if w.hasFile ext.fileId then (.dispatch ext, w.now.2)
    else (.thrown (.maintenanceFileNotFound ext.fileId), w)
  | .getBlockMetadata blockIndex rest =>
    match w.getBlockMetadata ext.fileId blockIndex with
    | .error e => (.thrown e, w)
    | .ok existingMeta =>
      match (w.heap existingMeta).asVersioned with
      | none => (.thrown (.updateNotVersioned blockIndex), w)
      | some _ => (.modifyBlock blockIndex rest, w)
  | .modifyBlock blockIndex rest =>
    match w.modifyBlock ext.fileId blockIndex with
    | (.error e, w) => (.thrown e, w)
    | (.ok (), w) => (.nextUpdate rest, w)
  | .insertBlock blockIndex rest =>
    match w.insertBlock ext.fileId blockIndex with
    | (.error e, w) => (.thrown e, w)
    | (.ok (), w) => (.nextInsert rest, w)
  | .deleteBlock blockIndex rest =>
    match w.deleteBlock ext.fileId blockIndex with
    | (.error e, w) => (.thrown e, w)
    | (.ok (), w) => (.nextDelete rest, w)
  | .returned => (.returned, w)
  | .thrown e => (.thrown e, w)

/-! ## Updates -/

/-- The points of an Update are points of maintenance. -/
def UpdateRun.toMaintenance : UpdateRun → MaintenanceRun
  | .hasFile => .hasFile
  | .getBlockMetadata blockIndex rest => .getBlockMetadata blockIndex rest
  | .modifyBlock blockIndex rest => .modifyBlock blockIndex rest
  | .returned => .returned
  | .thrown e => .thrown e

theorem UpdateRun.toMaintenance_next (rest : List SizeT) :
    (UpdateRun.next rest).toMaintenance = .nextUpdate rest := by
  cases rest <;> rfl

/-- On Update requests the step is that of `updateStep`. -/
theorem maintenanceStep_toMaintenance [MetadataClass κ] {ext : DHTDynamicMaintainExt}
    (hupdate : ext.opType = MaintenanceOpType.Update) (run : UpdateRun) (w : World κ) :
    maintenanceStep ext run.toMaintenance w =
      ((updateStep ext run w).1.toMaintenance, (updateStep ext run w).2) := by
  cases run with
  | hasFile =>
    change (if w.hasFile ext.fileId then _ else _) = _
    rw [updateStep, MaintenanceRun.dispatch, if_pos hupdate]
    split_ifs
    · rfl
    · rw [UpdateRun.toMaintenance_next]
    · rfl
  | getBlockMetadata blockIndex rest =>
    cases hget : w.getBlockMetadata ext.fileId blockIndex with
    | error e =>
      rw [UpdateRun.toMaintenance]
      simp only [maintenanceStep, updateStep, hget]
      rfl
    | ok existing =>
      rw [UpdateRun.toMaintenance]
      cases hm : (w.heap existing).asVersioned with
      | none =>
        simp only [maintenanceStep, updateStep, hget, hm]
        rfl
      | some m =>
        simp only [maintenanceStep, updateStep, hget, hm]
        rfl
  | modifyBlock blockIndex rest =>
    rw [UpdateRun.toMaintenance]
    rcases hmodify : w.modifyBlock ext.fileId blockIndex with ⟨e | _, w'⟩
    · simp only [maintenanceStep, updateStep, hmodify]
      rfl
    · simp only [maintenanceStep, updateStep, hmodify, UpdateRun.toMaintenance_next]
  | returned => rfl
  | thrown e => rfl

end DHTDynamic
