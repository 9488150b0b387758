import Mathlib.Algebra.BigOperators.Group.Finset.Piecewise
import Mathlib.Logic.Function.Iterate
import DHTDynamicAudit.Core.Run

/-!
# Interleaved programs

Several programs share a state, and each has a state of its own. A schedule says
whose turn it is; a turn is one atomic step. Assertions about a program hold
along every schedule when its own steps keep them and no other program's step
can destroy them. A quantity that every step moves from a program's remaining
work into the shared state is the same however the programs are interleaved.
-/

namespace Core

variable {ι σ L M : Type*}

/-- A shared state and the state of every program. -/
structure Configuration (ι σ L : Type*) where
  shared : σ
  own : ι → L

/-! ## One program by itself -/

/-- The program gets from one point to another when nobody else moves. -/
def Reaches (step : L → σ → L × σ) (l : L) (s : σ) (l' : L) (s' : σ) : Prop :=
  ∃ n, (fun p => step p.1 p.2)^[n] (l, s) = (l', s')

section Reaches

variable {step : L → σ → L × σ} {l l' : L} {s s' : σ}

theorem Reaches.refl (step : L → σ → L × σ) (l : L) (s : σ) : Reaches step l s l s := ⟨0, rfl⟩

/-- A first step in front. -/
theorem Reaches.head {m : L} {t : σ} (hstep : step l s = (m, t)) (h : Reaches step m t l' s') :
    Reaches step l s l' s' := by
  obtain ⟨n, hn⟩ := h
  exact ⟨n + 1, by rw [Function.iterate_succ_apply, hstep, hn]⟩

theorem Reaches.trans {m : L} {t : σ} (h : Reaches step l s m t) (h' : Reaches step m t l' s') :
    Reaches step l s l' s' := by
  obtain ⟨n, hn⟩ := h
  obtain ⟨k, hk⟩ := h'
  exact ⟨k + n, by rw [Function.iterate_add_apply, hn, hk]⟩

/-- A program that moves through the points of another one gets where that one gets. -/
theorem Reaches.of_map {L' : Type*} {step' : L' → σ → L' × σ} {point : L → L'} {m : L'}
    (hstep : ∀ l s, step' (point l) s = (point (step l s).1, (step l s).2))
    (h : Reaches step' (point l) s m s') : ∃ l', Reaches step l s l' s' ∧ point l' = m := by
  obtain ⟨n, hn⟩ := h
  have hsemi : Function.Semiconj (Prod.map point id) (fun p => step p.1 p.2)
      fun p => step' p.1 p.2 := fun p => (hstep p.1 p.2).symm
  obtain ⟨hpoint, hstate⟩ := Prod.mk.inj ((hsemi.iterate_right n (l, s)).trans hn)
  exact ⟨_, ⟨n, Prod.ext rfl hstate⟩, hpoint⟩

end Reaches

/-! ## Turns -/

variable [DecidableEq ι] {step : ι → L → σ → L × σ}

/-- Program `i` takes its next step and replies with the point it has come to. -/
def turn (step : ι → L → σ → L × σ) (s : Configuration ι σ L) (i : ι) :
    L × Configuration ι σ L :=
  let next := step i (s.own i) s.shared
  (next.1, ⟨next.2, Function.update s.own i next.1⟩)

/-- The configuration after the turns of a schedule. -/
def interleave (step : ι → L → σ → L × σ) (s : Configuration ι σ L) (schedule : List ι) :
    Configuration ι σ L :=
  (replies (turn step) s schedule).2

variable {s : Configuration ι σ L} {i j : ι} {schedule : List ι}

@[simp] theorem turn_shared : (turn step s i).2.shared = (step i (s.own i) s.shared).2 := rfl

@[simp] theorem turn_own_self : (turn step s i).2.own i = (step i (s.own i) s.shared).1 :=
  Function.update_self _ _ _

theorem turn_own_of_ne (h : j ≠ i) : (turn step s i).2.own j = s.own j :=
  Function.update_of_ne h _ _

@[simp] theorem interleave_nil : interleave step s [] = s := rfl

@[simp] theorem interleave_cons : interleave step s (i :: schedule) =
    interleave step (turn step s i).2 schedule := rfl

theorem interleave_append (s : Configuration ι σ L) (turns turns' : List ι) :
    interleave step s (turns ++ turns') = interleave step (interleave step s turns) turns' := by
  induction turns generalizing s with
  | nil => rfl
  | cons i turns ih => exact ih _

/-- What every turn keeps, every schedule keeps. -/
theorem interleave_invariant {P : Configuration ι σ L → Prop}
    (h : ∀ s i, P s → P (turn step s i).2) (hs : P s) (schedule : List ι) :
    P (interleave step s schedule) := by
  induction schedule generalizing s with
  | nil => exact hs
  | cons i schedule ih => exact ih (h s i hs)

/-- Turns of one program only are a run of that program by itself. -/
theorem Reaches.interleave {l' : L} {s' : σ} (h : Reaches (step i) (s.own i) s.shared l' s') :
    ∃ n, interleave step s (List.replicate n i) = ⟨s', Function.update s.own i l'⟩ := by
  obtain ⟨n, hn⟩ := h
  refine ⟨n, ?_⟩
  induction n generalizing s with
  | zero =>
    obtain ⟨hown, hshared⟩ := Prod.mk.inj hn
    rw [← hown, ← hshared, Function.update_eq_self]
    rfl
  | succ n ih =>
    rw [Function.iterate_succ_apply] at hn
    rw [List.replicate_succ, interleave_cons, ih (s := (turn step s i).2)
      (by rw [turn_own_self]; exact hn)]
    exact congrArg _ (Function.update_idem _ _ _)

/-- What a program comes to by itself it comes to in a row of turns, wherever the others are. -/
theorem exists_interleave_of_reaches (step : ι → L → σ → L × σ) {l : L} (hown : s.own i = l)
    {s' : σ} {P : L → Prop} (h : ∃ l', Reaches (step i) l s.shared l' s' ∧ P l') :
    ∃ n l', interleave step s (List.replicate n i) = ⟨s', Function.update s.own i l'⟩ ∧ P l' := by
  obtain ⟨l', hreaches, hend⟩ := h
  rw [← hown] at hreaches
  obtain ⟨n, hn⟩ := hreaches.interleave
  exact ⟨n, l', hn, hend⟩

/-! ## Assertions -/

/-- An invariant of the shared state, an assertion about every program, and one about the points
of every two programs. -/
structure Asserts (I : σ → Prop) (A : ι → L → σ → Prop) (D : L → L → Prop)
    (s : Configuration ι σ L) : Prop where
  shared : I s.shared
  own : ∀ i, A i (s.own i) s.shared
  pair : ∀ i j, j ≠ i → D (s.own i) (s.own j)

/-- A program's own step keeps the invariant and its assertion; the step of another program
does not touch the assertion. -/
structure NonInterfering (step : ι → L → σ → L × σ) (I : σ → Prop) (A : ι → L → σ → Prop)
    (D : L → L → Prop) : Prop where
  symm : ∀ l m, D l m → D m l
  own : ∀ i l s, I s → A i l s → I (step i l s).2 ∧ A i (step i l s).1 (step i l s).2
  other : ∀ i j l m s, j ≠ i → I s → A i l s → A j m s → D l m →
    A j m (step i l s).2 ∧ D (step i l s).1 m

variable {I : σ → Prop} {A : ι → L → σ → Prop} {D : L → L → Prop}

theorem NonInterfering.turn (h : NonInterfering step I A D) (hs : Asserts I A D s) (i : ι) :
    Asserts I A D (turn step s i).2 := by
  obtain ⟨hI, hA, hD⟩ := hs
  obtain ⟨hI', hself⟩ := h.own i _ _ hI (hA i)
  have hother : ∀ j, j ≠ i → A j (s.own j) (step i (s.own i) s.shared).2 ∧
      D (step i (s.own i) s.shared).1 (s.own j) :=
    fun j hj => h.other i j _ _ _ hj hI (hA i) (hA j) (hD i j hj)
  refine ⟨hI', fun j => ?_, fun j k hk => ?_⟩
  · by_cases hj : j = i
    · subst hj
      rw [turn_own_self]
      exact hself
    · rw [turn_own_of_ne hj]
      exact (hother j hj).1
  · by_cases hj : j = i
    · subst hj
      rw [turn_own_self, turn_own_of_ne hk]
      exact (hother k hk).2
    · rw [turn_own_of_ne hj]
      by_cases hki : k = i
      · subst hki
        rw [turn_own_self]
        exact h.symm _ _ (hother j hj).2
      · rw [turn_own_of_ne hki]
        exact hD j k hk

/-- The rule of non-interference: assertions hold along every schedule. -/
theorem NonInterfering.interleave (h : NonInterfering step I A D) (hs : Asserts I A D s)
    (schedule : List ι) : Asserts I A D (interleave step s schedule) :=
  interleave_invariant (P := Asserts I A D) (fun _ i hs => h.turn hs i) hs schedule

/-! ## Work still to do -/

/-- A program whose steps count down is done after so many turns, whatever the others do. -/
theorem measure_interleave_le {work : ι → L → Nat}
    (h : ∀ i l s, work i (step i l s).1 ≤ work i l - 1) (s : Configuration ι σ L)
    (schedule : List ι) (i : ι) :
    work i ((interleave step s schedule).own i) ≤ work i (s.own i) - schedule.count i := by
  induction schedule generalizing s with
  | nil => simp
  | cons j schedule ih =>
    rw [interleave_cons]
    refine Nat.le_trans (ih _) ?_
    by_cases hj : j = i
    · subst hj
      have hstep := h j (s.own j) s.shared
      rw [turn_own_self, List.count_cons_self]
      omega
    · rw [turn_own_of_ne (Ne.symm hj), List.count_cons_of_ne hj]

/-- The conservation rule: what one step moves from a program to the shared state, all of them
together move along every schedule. -/
theorem interleave_conserves [Fintype ι] [AddCommMonoid M] (value : σ → M) (todo : ι → L → M)
    (h : NonInterfering step I A D) (hmove : ∀ i l s, I s → A i l s →
      value (step i l s).2 + todo i (step i l s).1 = value s + todo i l)
    (hs : Asserts I A D s) (schedule : List ι) :
    value (interleave step s schedule).shared +
        ∑ i, todo i ((interleave step s schedule).own i) =
      value s.shared + ∑ i, todo i (s.own i) := by
  induction schedule generalizing s with
  | nil => rfl
  | cons i schedule ih =>
    have hrest : ∀ j ∈ Finset.univ.erase i, todo j ((turn step s i).2.own j) =
        todo j (s.own j) :=
      fun j hj => congrArg (todo j) (turn_own_of_ne (Finset.ne_of_mem_erase hj))
    rw [interleave_cons, ih (h.turn hs i), ← Finset.add_sum_erase _ _ (Finset.mem_univ i),
      ← Finset.add_sum_erase _ _ (Finset.mem_univ i), Finset.sum_congr rfl hrest, turn_own_self,
      turn_shared, ← add_assoc, ← add_assoc, hmove i _ _ hs.shared (hs.own i)]

end Core
