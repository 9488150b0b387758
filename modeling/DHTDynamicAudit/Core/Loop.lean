import Mathlib.Data.List.Basic

/-!
# Loops that stop at the first exception

A loop body changes a state and may throw. The state reached at the throw is
kept: nothing is rolled back. The rules below split such a loop at the failing
element and carry invariants through it.
-/

namespace Core

variable {σ α ε : Type*}

/-- Run `body` over a list; the first exception ends the loop in the state it was thrown in. -/
def forEach (body : σ → α → Except ε Unit × σ) : σ → List α → Except ε Unit × σ
  | s, [] => (.ok (), s)
  | s, a :: as =>
    match body s a with
    | (.ok (), t) => forEach body t as
    | (.error e, t) => (.error e, t)

variable {body : σ → α → Except ε Unit × σ}

@[simp] theorem forEach_nil (s : σ) : forEach body s [] = (.ok (), s) := rfl

theorem forEach_cons (s : σ) (a : α) (as : List α) :
    forEach body s (a :: as) = match (body s a).1 with
      | .ok () => forEach body (body s a).2 as
      | .error e => (.error e, (body s a).2) := by
  rw [forEach]
  rcases body s a with ⟨_ | _, t⟩ <;> rfl

/-- A normal first pass hands its state to the rest of the loop. -/
theorem forEach_cons_ok {s t : σ} {a : α} (h : body s a = (.ok (), t)) (as : List α) :
    forEach body s (a :: as) = forEach body t as := by
  rw [forEach_cons, h]

theorem forEach_cons_of_ok {s : σ} {a : α} (h : (body s a).1 = .ok ()) (as : List α) :
    forEach body s (a :: as) = forEach body (body s a).2 as := by
  rw [forEach_cons, h]

/-- An exception in the first pass is the result of the whole loop. -/
theorem forEach_cons_error {s t : σ} {a : α} {e : ε} (h : body s a = (.error e, t))
    (as : List α) : forEach body s (a :: as) = (.error e, t) := by
  rw [forEach_cons, h]

@[simp] theorem forEach_singleton (s : σ) (a : α) : forEach body s [a] = body s a := by
  rw [forEach]
  rcases body s a with ⟨_ | _, t⟩ <;> rfl

/-- A loop depends on its body at the elements of the list only. -/
theorem forEach_congr {body' : σ → α → Except ε Unit × σ} {as : List α}
    (h : ∀ s, ∀ a ∈ as, body s a = body' s a) (s : σ) : forEach body s as = forEach body' s as := by
  induction as generalizing s with
  | nil => rfl
  | cons a as ih =>
    have hrest := ih fun u b hb => h u b (List.mem_cons_of_mem a hb)
    rw [forEach_cons, forEach_cons, h s a List.mem_cons_self, hrest]

/-- The invariant rule: what every pass keeps, thrown or not, the loop keeps. -/
theorem forEach_preserves {P : σ → Prop} {as : List α}
    (h : ∀ s, ∀ a ∈ as, P s → P (body s a).2) {s : σ} (hs : P s) :
    P (forEach body s as).2 := by
  induction as generalizing s with
  | nil => exact hs
  | cons a as ih =>
    have ha := h s a List.mem_cons_self hs
    have hrest := fun u b hb => h u b (List.mem_cons_of_mem a hb)
    rw [forEach_cons]
    cases (body s a).1 with
    | ok _ => exact ih hrest ha
    | error e => exact ha

/-- A loop finishes normally when, under an invariant, no pass can throw. -/
theorem forEach_ok {P : σ → Prop} {as : List α}
    (h : ∀ s, ∀ a ∈ as, P s → (body s a).1 = .ok () ∧ P (body s a).2) {s : σ} (hs : P s) :
    (forEach body s as).1 = .ok () ∧ P (forEach body s as).2 := by
  induction as generalizing s with
  | nil => exact ⟨rfl, hs⟩
  | cons a as ih =>
    obtain ⟨hok, ha⟩ := h s a List.mem_cons_self hs
    rw [forEach_cons, hok]
    exact ih (fun u b hb => h u b (List.mem_cons_of_mem a hb)) ha

/-- An exception splits the list: everything before the failing element went through. -/
theorem forEach_error {s t : σ} {as : List α} {e : ε} (h : forEach body s as = (.error e, t)) :
    ∃ before a after u, as = before ++ a :: after ∧
      forEach body s before = (.ok (), u) ∧ body u a = (.error e, t) := by
  induction as generalizing s with
  | nil => cases congrArg Prod.fst h
  | cons a as ih =>
    rcases hb : body s a with ⟨e' | ⟨⟩, u⟩
    · rw [forEach_cons_error hb] at h
      exact ⟨[], a, as, s, rfl, rfl, hb.trans h⟩
    · rw [forEach_cons_ok hb] at h
      obtain ⟨before, b, after, v, rfl, hbefore, hfail⟩ := ih h
      exact ⟨a :: before, b, after, v, rfl, (forEach_cons_ok hb before).trans hbefore, hfail⟩

/-- The rollback rule, for passes that change nothing when they throw. If finishing any number
of passes leaves a state outside `Same`, a throwing loop ends inside `Same` exactly when the
first pass already throws. -/
theorem forEach_keeps_on_error_iff {Same : σ → Prop}
    (hthrow : ∀ s a e, (body s a).1 = .error e → (body s a).2 = s) {s : σ} (hs : Same s)
    {a : α} {as : List α} (hchange : ∀ before t, before.length ≤ as.length →
      forEach body s (a :: before) = (.ok (), t) → ¬ Same t) :
    (∀ e, (forEach body s (a :: as)).1 = .error e → Same (forEach body s (a :: as)).2) ↔
      ((body s a).1 = .ok () → (forEach body s (a :: as)).1 = .ok ()) := by
  constructor
  · intro h hfirst
    cases hout : (forEach body s (a :: as)).1 with
    | ok _ => rfl
    | error e =>
      obtain ⟨before, b, after, u, hsplit, hbefore, hfail⟩ := forEach_error (Prod.ext hout rfl)
      cases before with
      | nil =>
        obtain ⟨rfl, _⟩ := List.cons.inj hsplit
        obtain rfl : s = u := congrArg Prod.snd hbefore
        rw [hfail] at hfirst
        cases hfirst
      | cons a' before =>
        obtain ⟨rfl, has⟩ := List.cons.inj hsplit
        have hlen : before.length ≤ as.length := by
          rw [has, List.append_eq, List.length_append]
          exact Nat.le_add_right _ _
        have hend : (forEach body s (a :: as)).2 = u := by
          rw [← congrArg Prod.snd hfail]
          exact hthrow u b e (congrArg Prod.fst hfail)
        exact absurd (hend ▸ h e hout) (hchange before u hlen hbefore)
  · intro h e he
    cases hfirst : (body s a).1 with
    | ok _ =>
      rw [h hfirst] at he
      cases he
    | error e' =>
      rw [forEach_cons, hfirst]
      exact (hthrow s a e' hfirst).symm ▸ hs

end Core
