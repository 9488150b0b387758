import Mathlib.Data.List.ReduceOption
import DHTDynamicAudit.Core.Interleaving

/-!
# A reader among interleaved programs

A reader takes its turns between those of the programs and only looks at what
they share. They run as without it, and its point is decided by the shared
states at its turns.
-/

namespace Core

variable {ι σ L O : Type*}

/-- The turns the programs have taken at each turn of the reader. On a schedule `none` is a turn
of the reader. -/
def moments : List (Option ι) → List (List ι)
  | [] => []
  | none :: schedule => [] :: moments schedule
  | some i :: schedule => (moments schedule).map (i :: ·)

/-- A moment is a part of the programs' schedule. -/
theorem prefix_of_mem_moments {schedule : List (Option ι)} :
    ∀ turns ∈ moments schedule, turns <+: schedule.reduceOption := by
  induction schedule with
  | nil => exact fun turns hturns => nomatch hturns
  | cons event schedule ih =>
    cases event with
    | none =>
      rw [moments, List.forall_mem_cons]
      exact ⟨List.nil_prefix, ih⟩
    | some i =>
      rw [moments, List.forall_mem_map]
      intro turns hturns
      rw [List.reduceOption_cons_of_some, List.cons_prefix_cons]
      exact ⟨rfl, ih turns hturns⟩

/-- A later turn of the reader is at a later moment. -/
theorem moments_pairwise (schedule : List (Option ι)) :
    (moments schedule).Pairwise (· <+: ·) := by
  induction schedule with
  | nil => exact .nil
  | cons event schedule ih =>
    cases event with
    | none => exact .cons (fun _ _ => List.nil_prefix) ih
    | some i =>
      apply List.pairwise_map.mpr
      exact ih.imp fun h => List.cons_prefix_cons.mpr ⟨rfl, h⟩

/-! ## Two turns for each thing that is read -/

section Pairs

variable {α β : Type*} {pairs : List (α × α)}

/-- What is seen at the turns, for each thing that is read in two of them. -/
def inTurn (pairs : List (α × α)) : List α := pairs.flatMap fun pair => [pair.1, pair.2]

@[simp] theorem inTurn_nil : inTurn ([] : List (α × α)) = [] := rfl

@[simp] theorem inTurn_cons (pair : α × α) :
    inTurn (pair :: pairs) = pair.1 :: pair.2 :: inTurn pairs := rfl

theorem sublist_inTurn {pair : α × α} (h : pair ∈ pairs) :
    [pair.1, pair.2].Sublist (inTurn pairs) :=
  List.sublist_flatten_of_mem (List.mem_map_of_mem h)

/-- Pairs of states are those of pairs of turns. -/
theorem exists_inTurn_of_map {f : α → β} {seen : List (β × β)} {later : List β} {turns : List α}
    (h : turns.map f = inTurn seen ++ later) :
    ∃ pairs rest, turns = inTurn pairs ++ rest ∧ seen = pairs.map (Prod.map f f) := by
  induction seen generalizing turns with
  | nil => exact ⟨[], turns, rfl, rfl⟩
  | cons pair seen ih =>
    obtain ⟨first, turns, rfl, hfirst, h⟩ := List.map_eq_cons_iff.mp h
    obtain ⟨second, turns, rfl, hsecond, h⟩ := List.map_eq_cons_iff.mp h
    obtain ⟨pairs, rest, rfl, rfl⟩ := ih h
    refine ⟨(first, second) :: pairs, rest, rfl, ?_⟩
    rw [List.map_cons, Prod.map_apply, hfirst, hsecond]

end Pairs

variable [DecidableEq ι] {step : ι → L → σ → L × σ} {read : O → σ → O}

/-- The programs and the point of the reader after a schedule. -/
def observe (step : ι → L → σ → L × σ) (read : O → σ → O) :
    Configuration ι σ L → O → List (Option ι) → Configuration ι σ L × O
  | s, o, [] => (s, o)
  | s, o, none :: schedule => observe step read s (read o s.shared) schedule
  | s, o, some i :: schedule => observe step read (turn step s i).2 o schedule

/-- The reader does not disturb the programs. -/
theorem observe_programs (s : Configuration ι σ L) (o : O) (schedule : List (Option ι)) :
    (observe step read s o schedule).1 = interleave step s schedule.reduceOption := by
  induction schedule generalizing s o with
  | nil => rfl
  | cons event schedule ih =>
    cases event with
    | none => exact ih s _
    | some i =>
      rw [List.reduceOption_cons_of_some, interleave_cons]
      exact ih _ o

/-- The reader's point comes from the states it has seen. -/
theorem observe_point (s : Configuration ι σ L) (o : O) (schedule : List (Option ι)) :
    (observe step read s o schedule).2 =
      ((moments schedule).map fun turns => (interleave step s turns).shared).foldl read o := by
  induction schedule generalizing s o with
  | nil => rfl
  | cons event schedule ih =>
    cases event with
    | none => exact ih s _
    | some i =>
      rw [moments, List.map_map]
      exact ih _ o

/-- Turns of the reader only are reads of one state. -/
theorem observe_replicate_none (step : ι → L → σ → L × σ) (read : O → σ → O)
    (s : Configuration ι σ L) (o : O) (n : Nat) :
    (observe step read s o (List.replicate n none)).2 =
      (List.replicate n s.shared).foldl read o := by
  induction n generalizing o with
  | zero => rfl
  | succ n ih => exact ih (read o s.shared)

end Core
