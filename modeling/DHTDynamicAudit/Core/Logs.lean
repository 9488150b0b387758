import DHTDynamicAudit.Core.Interleaving

/-!
# Logs of interleaved programs

Every program has a list of operations that it carries out on the shared state
one after another, in one turn or several each. A log says which operations have
been carried out, in what order and by whom. What the programs do along any
schedule is what a machine does along a log that takes from every list a first
part, and every such log has its schedule.
-/

namespace Core

variable {ι α σ τ ρ L : Type*}

/-! ## Logs -/

section Logs

variable [DecidableEq ι] {log log' : List (ι × α)} {lists : ι → List α} {i : ι} {a : α}

/-- The operations of one program. -/
def doneBy (log : List (ι × α)) (i : ι) : List α :=
  log.filterMap fun entry => if entry.1 = i then some entry.2 else none

/-- Every program has done a first part of its list, in order. -/
def Merges (log : List (ι × α)) (lists : ι → List α) : Prop :=
  ∀ i, doneBy log i <+: lists i

@[simp] theorem doneBy_nil (i : ι) : doneBy ([] : List (ι × α)) i = [] := rfl

theorem doneBy_append (log log' : List (ι × α)) (i : ι) :
    doneBy (log ++ log') i = doneBy log i ++ doneBy log' i :=
  List.filterMap_append

theorem doneBy_concat_self (log : List (ι × α)) (i : ι) (a : α) :
    doneBy (log ++ [(i, a)]) i = doneBy log i ++ [a] := by
  rw [doneBy_append]
  simp [doneBy]

theorem doneBy_concat_of_ne {j : ι} (h : j ≠ i) (log : List (ι × α)) (a : α) :
    doneBy (log ++ [(i, a)]) j = doneBy log j := by
  rw [doneBy_append]
  simp [doneBy, Ne.symm h]

theorem Merges.of_concat (h : Merges (log ++ [(i, a)]) lists) : Merges log lists := by
  intro j
  refine List.IsPrefix.trans ?_ (h j)
  rw [doneBy_append]
  exact List.prefix_append _ _

/-- The next operation of a program is the one that comes next in its list. -/
theorem Merges.getElem?_concat (h : Merges (log ++ [(i, a)]) lists) :
    (lists i)[(doneBy log i).length]? = some a := by
  obtain ⟨rest, hrest⟩ := h i
  rw [doneBy_concat_self] at hrest
  rw [← hrest]
  simp

theorem Merges.doneBy_eq_take (h : Merges log lists) (i : ι) :
    doneBy log i = (lists i).take (doneBy log i).length :=
  List.prefix_iff_eq_take.mp (h i)

variable [Fintype ι]

/-- The entries of a log with a property, counted program by program. -/
theorem countP_log (p : α → Bool) (log : List (ι × α)) :
    (log.map Prod.snd).countP p = ∑ i, (doneBy log i).countP p := by
  induction log with
  | nil => simp
  | cons entry log ih =>
    obtain ⟨j, a⟩ := entry
    have hsplit : ∀ i, (doneBy ((j, a) :: log) i).countP p =
        (doneBy log i).countP p + if j = i then [a].countP p else 0 := by
      intro i
      by_cases hi : j = i
      · subst hi
        simp [doneBy, List.countP_cons]
      · simp [doneBy, hi]
    simp only [hsplit, Finset.sum_add_distrib, Finset.sum_ite_eq, Finset.mem_univ, if_true]
    rw [List.map_cons, List.countP_cons, ih, List.countP_singleton]

/-- Whatever the programs are to have done, some log has it. -/
theorem exists_log (lists : ι → List α) : ∃ log : List (ι × α), ∀ i, doneBy log i = lists i := by
  have hpart : ∀ S : Finset ι, ∃ log : List (ι × α),
      ∀ i, doneBy log i = if i ∈ S then lists i else [] := by
    intro S
    induction S using Finset.induction_on with
    | empty => exact ⟨[], fun i => rfl⟩
    | insert j S hj ih =>
      obtain ⟨log, hlog⟩ := ih
      refine ⟨log ++ (lists j).map fun a => (j, a), fun i => ?_⟩
      rw [doneBy_append, hlog]
      by_cases hi : i = j
      · subst hi
        simp [doneBy, hj, List.filterMap_map]
      · simp [doneBy, hi, Ne.symm hi, List.filterMap_map]
  obtain ⟨log, hlog⟩ := hpart Finset.univ
  exact ⟨log, fun i => by rw [hlog, if_pos (Finset.mem_univ i)]⟩

end Logs

/-! ## One more input -/

section Concat

variable {step : σ → α → ρ × σ} {C : σ → α → Prop}

theorem replies_concat (s : σ) (as : List α) (a : α) :
    (replies step s (as ++ [a])).2 = (step (replies step s as).2 a).2 := by
  induction as generalizing s with
  | nil => rfl
  | cons b as ih => exact ih _

theorem along_concat {s : σ} {as : List α} {a : α} :
    Along step C s (as ++ [a]) ↔ Along step C s as ∧ C (replies step s as).2 a := by
  induction as generalizing s with
  | nil => simp [replies]
  | cons b as ih => rw [List.cons_append, along_cons, along_cons, ih, and_assoc]; rfl

end Concat

/-! ## Programs that follow a machine -/

/-- What the shared state of some programs stands for, and what each of them has still to do. -/
structure Abstraction (ι α σ τ L : Type*) where
  /-- The machine that carries out the operations, and when it takes one. -/
  perform : τ → α → Unit × τ
  Admits : τ → α → Prop
  /-- The shared state stands for a state of the machine. -/
  Shows : σ → τ → Prop
  /-- The operations ahead of a point of a program, and a bound on the turns up to the next. -/
  ahead : ι → L → List α
  delay : ι → L → Nat
  /-- The points of a program that has met with no failure. -/
  Live : L → Prop

namespace Abstraction

variable {A : Abstraction ι α σ τ L} {step : ι → L → σ → L × σ}

/-- The state of the machine after a log. -/
def stateAt (A : Abstraction ι α σ τ L) (t : τ) (log : List (ι × α)) : τ :=
  (replies A.perform t (log.map Prod.snd)).2

/-- The machine takes every operation of a log. -/
def Accepts (A : Abstraction ι α σ τ L) (t : τ) (log : List (ι × α)) : Prop :=
  Along A.perform A.Admits t (log.map Prod.snd)

theorem stateAt_concat (t : τ) (log : List (ι × α)) (i : ι) (a : α) :
    A.stateAt t (log ++ [(i, a)]) = (A.perform (A.stateAt t log) a).2 := by
  rw [stateAt, List.map_append]
  exact replies_concat _ _ _

theorem accepts_concat {t : τ} {log : List (ι × α)} {i : ι} {a : α} :
    A.Accepts t (log ++ [(i, a)]) ↔ A.Accepts t log ∧ A.Admits (A.stateAt t log) a := by
  rw [Accepts, List.map_append]
  exact along_concat

/-- A turn with nothing ahead changes nothing; a turn before an operation that the machine takes
carries it out or comes nearer to it; a turn before one that it does not take fails. -/
structure Follows (A : Abstraction ι α σ τ L) (step : ι → L → σ → L × σ) (Sound : σ → Prop) :
    Prop where
  sound : ∀ s t, A.Shows s t → Sound s
  idle : ∀ i l s t, A.Shows s t → A.Live l → A.ahead i l = [] →
    A.Live (step i l s).1 ∧ A.Shows (step i l s).2 t ∧ A.ahead i (step i l s).1 = []
  advance : ∀ i l s t a rest, A.Shows s t → A.Live l → A.ahead i l = a :: rest → A.Admits t a →
    A.Live (step i l s).1 ∧
      (A.Shows (step i l s).2 t ∧ A.ahead i (step i l s).1 = a :: rest ∧
          A.delay i (step i l s).1 < A.delay i l ∨
        A.Shows (step i l s).2 (A.perform t a).2 ∧ A.ahead i (step i l s).1 = rest)
  fail : ∀ i l s t a rest, A.Shows s t → A.Live l → A.ahead i l = a :: rest → ¬ A.Admits t a →
    A.Live (step i l s).1 → ¬ Sound (step i l s).2

variable [DecidableEq ι] {Sound : σ → Prop} {lists : ι → List α} {t : τ}
  {s : Configuration ι σ L} {log : List (ι × α)} {i : ι} {a : α} {rest : List α}

/-- The log is what the programs have done so far, and it accounts for the shared state. -/
structure Explains (A : Abstraction ι α σ τ L) (lists : ι → List α) (t : τ)
    (s : Configuration ι σ L) (log : List (ι × α)) : Prop where
  live : ∀ i, A.Live (s.own i)
  split : ∀ i, doneBy log i ++ A.ahead i (s.own i) = lists i
  accepted : A.Accepts t log
  shows : A.Shows s.shared (A.stateAt t log)

theorem Explains.merges (h : A.Explains lists t s log) : Merges log lists :=
  fun i => ⟨_, h.split i⟩

/-- The operation that is next for a program would extend the merge. -/
theorem Explains.merges_concat (h : A.Explains lists t s log)
    (hahead : A.ahead i (s.own i) = a :: rest) : Merges (log ++ [(i, a)]) lists := by
  intro j
  by_cases hj : j = i
  · subst hj
    refine ⟨rest, ?_⟩
    rw [doneBy_concat_self, List.append_assoc, List.singleton_append, ← hahead, h.split]
  · rw [doneBy_concat_of_ne hj]
    exact h.merges j

/-- An operation that extends the merge is the next of its program. -/
theorem Explains.ahead_of_merges (h : A.Explains lists t s log)
    (hmerges : Merges (log ++ [(i, a)]) lists) : ∃ rest, A.ahead i (s.own i) = a :: rest := by
  obtain ⟨rest, hrest⟩ := hmerges i
  rw [doneBy_concat_self, ← h.split i, List.append_assoc, List.append_cancel_left_eq] at hrest
  exact ⟨rest, hrest.symm⟩

/-- The turns of one program leave the points of the others alone. -/
theorem Explains.of_turn (h : A.Explains lists t s log) {log' : List (ι × α)}
    (hother : ∀ j, j ≠ i → doneBy log' j = doneBy log j)
    (hlive : A.Live (step i (s.own i) s.shared).1)
    (hsplit : doneBy log' i ++ A.ahead i (step i (s.own i) s.shared).1 = lists i)
    (haccepted : A.Accepts t log')
    (hshows : A.Shows (step i (s.own i) s.shared).2 (A.stateAt t log')) :
    A.Explains lists t (turn step s i).2 log' := by
  refine ⟨fun j => ?_, fun j => ?_, haccepted, hshows⟩
  · by_cases hj : j = i
    · subst hj
      rwa [turn_own_self]
    · rw [turn_own_of_ne hj]
      exact h.live j
  · by_cases hj : j = i
    · subst hj
      rwa [turn_own_self]
    · rw [turn_own_of_ne hj, hother j hj]
      exact h.split j

/-- A turn with nothing ahead needs no new entry. -/
theorem Explains.turn_idle (h : A.Explains lists t s log) (hfollows : A.Follows step Sound)
    (hahead : A.ahead i (s.own i) = []) : A.Explains lists t (turn step s i).2 log := by
  obtain ⟨hlive, hshows, hrest⟩ := hfollows.idle i _ _ _ h.shows (h.live i) hahead
  refine h.of_turn (fun _ _ => rfl) hlive ?_ h.accepted hshows
  rw [hrest, ← hahead]
  exact h.split i

/-- A turn before an operation that the machine takes adds it to the log, or comes nearer. -/
theorem Explains.turn (h : A.Explains lists t s log) (hfollows : A.Follows step Sound)
    (hahead : A.ahead i (s.own i) = a :: rest) (hadmits : A.Admits (A.stateAt t log) a) :
    A.Explains lists t (turn step s i).2 log ∧
        A.ahead i ((Core.turn step s i).2.own i) = a :: rest ∧
        A.delay i ((Core.turn step s i).2.own i) < A.delay i (s.own i) ∨
      A.Explains lists t (Core.turn step s i).2 (log ++ [(i, a)]) := by
  obtain ⟨hlive, hcases⟩ := hfollows.advance i _ _ _ a rest h.shows (h.live i) hahead hadmits
  rw [turn_own_self]
  rcases hcases with ⟨hshows, hnext, hdelay⟩ | ⟨hshows, hnext⟩
  · refine Or.inl ⟨h.of_turn (fun _ _ => rfl) hlive ?_ h.accepted hshows, hnext, hdelay⟩
    rw [hnext, ← hahead]
    exact h.split i
  · refine Or.inr (h.of_turn (fun j hj => doneBy_concat_of_ne hj log a) hlive ?_
      (accepts_concat.mpr ⟨h.accepted, hadmits⟩) ?_)
    · rw [hnext, doneBy_concat_self, List.append_assoc, List.singleton_append, ← hahead]
      exact h.split i
    · rw [stateAt_concat]
      exact hshows

/-! ## Logs and schedules -/

/-- When the machine takes all merges of the lists, a log explains every schedule. -/
theorem Explains.interleave (h : A.Explains lists t s log) (hfollows : A.Follows step Sound)
    (haccepts : ∀ log, Merges log lists → A.Accepts t log) (schedule : List ι) :
    ∃ log', A.Explains lists t (interleave step s schedule) log' := by
  refine interleave_invariant (P := fun s => ∃ log, A.Explains lists t s log) ?_ ⟨log, h⟩
    schedule
  rintro s i ⟨log, h⟩
  cases hahead : A.ahead i (s.own i) with
  | nil => exact ⟨log, h.turn_idle hfollows hahead⟩
  | cons a rest =>
    have hadmits := (accepts_concat.mp (haccepts _ (h.merges_concat hahead))).2
    rcases h.turn hfollows hahead hadmits with ⟨hnear, _⟩ | hdone
    · exact ⟨log, hnear⟩
    · exact ⟨_, hdone⟩

/-- A program that the machine can follow carries out its next operation in turns in a row. -/
theorem Explains.exists_turns (h : A.Explains lists t s log) (hfollows : A.Follows step Sound)
    (hahead : A.ahead i (s.own i) = a :: rest) (hadmits : A.Admits (A.stateAt t log) a) :
    ∃ turns, A.Explains lists t (Core.interleave step s turns) (log ++ [(i, a)]) := by
  -- by induction on the bound on the turns up to the operation
  generalize hdelay : A.delay i (s.own i) = n
  induction n using Nat.strong_induction_on generalizing s with
  | _ n ih =>
    rcases h.turn hfollows hahead hadmits with ⟨hnear, hnext, hless⟩ | hdone
    · obtain ⟨turns, hturns⟩ := ih _ (hdelay ▸ hless) hnear hnext rfl
      exact ⟨i :: turns, hturns⟩
    · exact ⟨[i], hdone⟩

/-- Every merge that the machine takes has a schedule. -/
theorem Explains.exists_schedule (h : A.Explains lists t s []) (hfollows : A.Follows step Sound)
    (hmerges : Merges log lists) (haccepted : A.Accepts t log) :
    ∃ schedule, A.Explains lists t (Core.interleave step s schedule) log := by
  induction log using List.reverseRecOn with
  | nil => exact ⟨[], h⟩
  | append_singleton log entry ih =>
    obtain ⟨i, a⟩ := entry
    obtain ⟨haccepted, hadmits⟩ := accepts_concat.mp haccepted
    obtain ⟨schedule, hschedule⟩ := ih hmerges.of_concat haccepted
    obtain ⟨rest, hahead⟩ := hschedule.ahead_of_merges hmerges
    obtain ⟨turns, hturns⟩ := hschedule.exists_turns hfollows hahead hadmits
    exact ⟨schedule ++ turns, by rw [interleave_append]; exact hturns⟩

/-- No schedule leads to a failure exactly when the machine takes all merges of the lists. -/
theorem Explains.forall_schedule_iff (h : A.Explains lists t s [])
    (hfollows : A.Follows step Sound) :
    (∀ schedule, (∀ i, A.Live ((Core.interleave step s schedule).own i)) ∧
        Sound (Core.interleave step s schedule).shared) ↔
      ∀ log, Merges log lists → A.Accepts t log := by
  constructor
  · intro hsafe log hmerges
    induction log using List.reverseRecOn with
    | nil => exact trivial
    | append_singleton log entry ih =>
      obtain ⟨i, a⟩ := entry
      have haccepted := ih hmerges.of_concat
      obtain ⟨schedule, hschedule⟩ := h.exists_schedule hfollows hmerges.of_concat haccepted
      obtain ⟨rest, hahead⟩ := hschedule.ahead_of_merges hmerges
      refine accepts_concat.mpr ⟨haccepted, ?_⟩
      -- the machine would not take it, so the next turn of the program fails
      by_contra hnot
      obtain ⟨hlive, hsound⟩ := hsafe (schedule ++ [i])
      rw [interleave_append] at hlive hsound
      have hown := hlive i
      rw [interleave_cons, interleave_nil, turn_own_self] at hown
      exact hfollows.fail i _ _ _ a rest hschedule.shows (hschedule.live i) hahead hnot hown
        hsound
  · intro haccepts schedule
    obtain ⟨log, hlog⟩ := h.interleave hfollows haccepts schedule
    exact ⟨hlog.live, hfollows.sound _ _ hlog.shows⟩

end Abstraction

end Core
