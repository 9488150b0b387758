import DHTDynamicAudit.Core.Interleaving
import DHTDynamicAudit.Store.Batches
import DHTDynamicAudit.Strategy.MaintenanceSteps

/-!
# Runs of a maintenance request

A request that nobody interrupts is `maintenance`, and every turn of a request
counts down. An Update is one of these requests, and what it does is read off
its points as points of maintenance.
-/

namespace DHTDynamic

open Core

variable {κ : Type}

namespace MaintenanceRun

/-- The head of the loop of an operation. -/
def next : Operation → List SizeT → MaintenanceRun
  | .update => nextUpdate
  | .insert => nextInsert
  | .delete => nextDelete

variable {op : Operation} {rest : List SizeT} {ext : DHTDynamicMaintainExt}

theorem next_ne_thrown {e : Exception} : next op rest ≠ .thrown e := by
  cases op <;> cases rest <;> exact fun h => nomatch h

/-- A request with indices goes to the loop of its operation. -/
theorem dispatch_eq_next (hop : ext.opType = op.enumerator) (hne : ext.blockIndices ≠ []) :
    dispatch ext = next op ext.blockIndices := by
  have hempty : ext.blockIndices.isEmpty = false := by simpa using hne
  rw [dispatch, hop, hempty]
  cases op <;> rfl

/-! ## Nobody else moves -/

variable [MetadataClass κ]

/-- The calls of a pass by themselves are one application of the operation. -/
theorem reaches_pass (ext : DHTDynamicMaintainExt) (op : Operation) (w : World κ)
    (blockIndex : SizeT) (rest : List SizeT) :
    (∃ e w', op.apply ext.fileId w blockIndex = (.error e, w') ∧
      Reaches (maintenanceStep ext) (next op (blockIndex :: rest)) w (.thrown e) w') ∨
      ∃ w', op.apply ext.fileId w blockIndex = (.ok (), w') ∧
        Reaches (maintenanceStep ext) (next op (blockIndex :: rest)) w (next op rest) w' := by
  cases op with
  | update =>
    cases hget : w.getBlockMetadata ext.fileId blockIndex with
    | error e =>
      exact Or.inl ⟨e, w, by simp only [Operation.apply, World.updateOne, hget],
        .head (by simp only [next, nextUpdate, maintenanceStep, hget]) (.refl _ _ _)⟩
    | ok existing =>
      cases hm : (w.heap existing).asVersioned with
      | none =>
        exact Or.inl ⟨.updateNotVersioned blockIndex, w,
          by simp only [Operation.apply, World.updateOne, hget, hm],
          .head (by simp only [next, nextUpdate, maintenanceStep, hget, hm]) (.refl _ _ _)⟩
      | some m =>
        have hmodify := World.modifyBlock_ok (World.getBlockMetadata_eq_ok.mp hget)
        refine Or.inr ⟨w.bumpObject existing,
          by simp only [Operation.apply, World.updateOne, hget, hm, hmodify], ?_⟩
        refine .head (m := .modifyBlock blockIndex rest) (t := w) ?_ (.head ?_ (.refl _ _ _))
        · simp only [next, nextUpdate, maintenanceStep, hget, hm]
        · simp only [next, maintenanceStep, hmodify]
  | insert =>
    rcases hcall : w.insertBlock ext.fileId blockIndex with ⟨e | _, w'⟩
    · exact Or.inl ⟨e, w', hcall,
        .head (by simp only [next, nextInsert, maintenanceStep, hcall]) (.refl _ _ _)⟩
    · exact Or.inr ⟨w', hcall,
        .head (by simp only [next, nextInsert, maintenanceStep, hcall]) (.refl _ _ _)⟩
  | delete =>
    rcases hcall : w.deleteBlock ext.fileId blockIndex with ⟨e | _, w'⟩
    · exact Or.inl ⟨e, w', hcall,
        .head (by simp only [next, nextDelete, maintenanceStep, hcall]) (.refl _ _ _)⟩
    · exact Or.inr ⟨w', hcall,
        .head (by simp only [next, nextDelete, maintenanceStep, hcall]) (.refl _ _ _)⟩

/-- The loop by itself is the loop of the handler. -/
theorem reaches_loop (ext : DHTDynamicMaintainExt) (op : Operation) (w : World κ)
    (blockIndices : List SizeT) : ∃ run,
      Reaches (maintenanceStep ext) (next op blockIndices) w run
        (forEach (op.apply ext.fileId) w blockIndices).2 ∧
      run.outcome = some (forEach (op.apply ext.fileId) w blockIndices).1 := by
  induction blockIndices generalizing w with
  | nil => exact ⟨.returned, by cases op <;> exact .refl _ _ _, rfl⟩
  | cons blockIndex rest ih =>
    rcases reaches_pass ext op w blockIndex rest with ⟨e, w', hout, hpass⟩ | ⟨w', hout, hpass⟩
    · rw [forEach_cons_error hout]
      exact ⟨.thrown e, hpass, rfl⟩
    · obtain ⟨run, hrun, hend⟩ := ih w'
      rw [forEach_cons_ok hout]
      exact ⟨run, hpass.trans hrun, hend⟩

/-- The dispatch goes to the loop of an operation, or the request ends there. -/
theorem reaches_dispatch (ext : DHTDynamicMaintainExt) (w : World κ) : ∃ run,
      Reaches (maintenanceStep ext) (dispatch ext) w run
        (if ext.opType = MaintenanceOpType.Update then w.handleUpdate ext
          else if ext.opType = MaintenanceOpType.Insert then w.handleInsert ext
          else if ext.opType = MaintenanceOpType.Delete then w.handleDelete ext
          else (.error (.unsupportedOpType ext.opType.value), w)).2 ∧
      run.outcome = some (if ext.opType = MaintenanceOpType.Update then w.handleUpdate ext
          else if ext.opType = MaintenanceOpType.Insert then w.handleInsert ext
          else if ext.opType = MaintenanceOpType.Delete then w.handleDelete ext
          else (.error (.unsupportedOpType ext.opType.value), w)).1 := by
  unfold dispatch World.handleUpdate World.handleInsert World.handleDelete
  split_ifs
  · exact ⟨_, .refl _ _ _, rfl⟩
  · exact reaches_loop ext .update w ext.blockIndices
  · exact ⟨_, .refl _ _ _, rfl⟩
  · exact reaches_loop ext .insert w ext.blockIndices
  · exact ⟨_, .refl _ _ _, rfl⟩
  · exact reaches_loop ext .delete w ext.blockIndices
  · exact ⟨_, .refl _ _ _, rfl⟩

/-- A request that nobody interrupts is `maintenance`. -/
theorem reaches_maintenance (ext : DHTDynamicMaintainExt) (w : World κ) : ∃ run,
      Reaches (maintenanceStep ext) (.start ⟨.typed ext⟩) w run
        (w.maintenance ⟨.typed ext⟩).2 ∧
      run.outcome = some (w.maintenance ⟨.typed ext⟩).1 := by
  simp only [start, World.maintenance]
  by_cases hfile : ext.fileId.isEmpty
  · simp only [hfile, if_true]
    exact ⟨_, .refl _ _ _, rfl⟩
  by_cases hstore : !ext.stateStore
  · simp only [hfile, hstore, if_true, Bool.false_eq_true, if_false]
    exact ⟨_, .refl _ _ _, rfl⟩
  by_cases hhas : w.hasFile ext.fileId
  · obtain ⟨run, hrun, hend⟩ := reaches_dispatch ext w.now.2
    simp only [hfile, hstore, hhas, Bool.not_true, Bool.false_eq_true, if_false]
    exact ⟨run, .head (by simp only [maintenanceStep, hhas, if_true]) hrun, hend⟩
  · simp only [hfile, hstore, hhas, Bool.not_false, if_true, Bool.false_eq_true, if_false]
    exact ⟨.thrown (.maintenanceFileNotFound ext.fileId),
      .head (by simp only [maintenanceStep, hhas, Bool.false_eq_true, if_false]) (.refl _ _ _),
      rfl⟩

/-! ## Every run comes to an end -/

/-- A bound on the turns that a request still takes. -/
def work (ext : DHTDynamicMaintainExt) : MaintenanceRun → Nat
  | .hasFile => 2 * ext.blockIndices.length + 1
  | .getBlockMetadata _ rest => 2 * rest.length + 2
  | .modifyBlock _ rest | .insertBlock _ rest | .deleteBlock _ rest => 2 * rest.length + 1
  | .returned | .thrown _ => 0

theorem work_next_le (ext : DHTDynamicMaintainExt) (op : Operation)
    (rest : List SizeT) : (next op rest).work ext ≤ 2 * rest.length := by
  cases op <;> cases rest <;> simp [next, nextUpdate, nextInsert, nextDelete, work]
  all_goals omega

theorem work_dispatch_le (ext : DHTDynamicMaintainExt) :
    (dispatch ext).work ext ≤ 2 * ext.blockIndices.length := by
  unfold dispatch
  split_ifs
  · exact Nat.zero_le _
  · exact work_next_le ext .update _
  · exact Nat.zero_le _
  · exact work_next_le ext .insert _
  · exact Nat.zero_le _
  · exact work_next_le ext .delete _
  · exact Nat.zero_le _

/-- Every turn counts down. -/
theorem work_maintenanceStep_le (ext : DHTDynamicMaintainExt)
    (run : MaintenanceRun) (w : World κ) :
    (maintenanceStep ext run w).1.work ext ≤ run.work ext - 1 := by
  cases run with
  | hasFile =>
    simp only [maintenanceStep]
    split_ifs
    · exact work_dispatch_le ext
    · exact Nat.zero_le _
  | getBlockMetadata blockIndex rest =>
    cases hget : w.getBlockMetadata ext.fileId blockIndex with
    | error e =>
      simp only [maintenanceStep, hget]
      exact Nat.zero_le _
    | ok existing =>
      cases hm : (w.heap existing).asVersioned with
      | none =>
        simp only [maintenanceStep, hget, hm]
        exact Nat.zero_le _
      | some m =>
        simp only [maintenanceStep, hget, hm]
        exact le_rfl
  | modifyBlock blockIndex rest =>
    rcases hcall : w.modifyBlock ext.fileId blockIndex with ⟨e | _, w'⟩
    · simp only [maintenanceStep, hcall]
      exact Nat.zero_le _
    · simp only [maintenanceStep, hcall]
      exact work_next_le ext .update rest
  | insertBlock blockIndex rest =>
    rcases hcall : w.insertBlock ext.fileId blockIndex with ⟨e | _, w'⟩
    · simp only [maintenanceStep, hcall]
      exact Nat.zero_le _
    · simp only [maintenanceStep, hcall]
      exact work_next_le ext .insert rest
  | deleteBlock blockIndex rest =>
    rcases hcall : w.deleteBlock ext.fileId blockIndex with ⟨e | _, w'⟩
    · simp only [maintenanceStep, hcall]
      exact Nat.zero_le _
    · simp only [maintenanceStep, hcall]
      exact work_next_le ext .delete rest
  | returned => exact le_rfl
  | thrown e => exact le_rfl

theorem returned_of_work {ext : DHTDynamicMaintainExt} {run : MaintenanceRun}
    (hwork : run.work ext = 0) (hrunning : ∀ e, run ≠ .thrown e) : run = .returned := by
  cases run with
  | returned => rfl
  | thrown e => exact absurd rfl (hrunning e)
  | _ => cases hwork

end MaintenanceRun

/-! ## Updates -/

namespace UpdateRun

theorem start_toMaintenance (input : MaintainRequest) :
    (start input).toMaintenance = MaintenanceRun.start input := by
  unfold start MaintenanceRun.start
  cases input.ext with
  | null => rfl
  | foreign => rfl
  | typed ext =>
    dsimp only
    split_ifs <;> rfl

theorem outcome_toMaintenance (run : UpdateRun) : run.toMaintenance.outcome = run.outcome := by
  cases run <;> rfl

/-- A bound on the turns that an Update still takes. -/
def work (ext : DHTDynamicMaintainExt) (run : UpdateRun) : Nat := run.toMaintenance.work ext

theorem work_hasFile (ext : DHTDynamicMaintainExt) :
    work ext .hasFile = 2 * ext.blockIndices.length + 1 := rfl

variable {ext : DHTDynamicMaintainExt}

theorem returned_of_work {run : UpdateRun} (hwork : run.work ext = 0)
    (hrunning : ∀ e, run ≠ .thrown e) : run = .returned := by
  cases run with
  | returned => rfl
  | thrown e => exact absurd rfl (hrunning e)
  | _ => cases hwork

variable [MetadataClass κ]

/-- An Update that nobody interrupts is `maintenance`. -/
theorem reaches_maintenance (hupdate : ext.opType = MaintenanceOpType.Update) (w : World κ) :
    ∃ run, Reaches (updateStep ext) (start ⟨.typed ext⟩) w run (w.maintenance ⟨.typed ext⟩).2 ∧
      run.outcome = some (w.maintenance ⟨.typed ext⟩).1 := by
  obtain ⟨_, hrun, hend⟩ := MaintenanceRun.reaches_maintenance ext w
  rw [← start_toMaintenance] at hrun
  obtain ⟨run, hreaches, rfl⟩ := hrun.of_map (maintenanceStep_toMaintenance hupdate)
  exact ⟨run, hreaches, run.outcome_toMaintenance ▸ hend⟩

theorem work_updateStep_le (hupdate : ext.opType = MaintenanceOpType.Update) (run : UpdateRun)
    (w : World κ) : (updateStep ext run w).1.work ext ≤ run.work ext - 1 := by
  have hle := MaintenanceRun.work_maintenanceStep_le ext run.toMaintenance w
  rwa [maintenanceStep_toMaintenance hupdate] at hle

end UpdateRun

end DHTDynamic
