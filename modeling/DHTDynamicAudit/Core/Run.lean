import Mathlib.Data.List.Basic
import DHTDynamicAudit.Core.Loop

/-!
# Runs of a replying machine

A machine takes an input, replies and moves on. `Along` says that a condition on
state and input holds at every step of a run. Simulations give equal replies
over whole runs, and a per-step equivalence of two conditions lifts to runs.
-/

namespace Core

variable {σ τ ι ρ : Type*}

/-- The replies of a run and the state it ends in. -/
def replies (step : σ → ι → ρ × σ) : σ → List ι → List ρ × σ
  | s, [] => ([], s)
  | s, i :: is => ((step s i).1 :: (replies step (step s i).2 is).1,
      (replies step (step s i).2 is).2)

/-- Inputs that each leave the state as it is get the replies they would get alone. -/
theorem replies_of_unchanged {α β : Type*} {step : σ → ι → ρ × σ} {s : σ} {f : α → ι} {g : β → ρ}
    {Q : α → β → Prop} {as : List α} (h : ∀ a ∈ as, ∃ b, step s (f a) = (g b, s) ∧ Q a b) :
    ∃ bs : List β, replies step s (as.map f) = (bs.map g, s) ∧
      (∀ b ∈ bs, ∃ a ∈ as, Q a b) ∧ ∀ a ∈ as, ∃ b ∈ bs, Q a b := by
  induction as with
  | nil => exact ⟨[], rfl, by simp, by simp⟩
  | cons a as ih =>
    obtain ⟨b, hstep, hQ⟩ := h a List.mem_cons_self
    obtain ⟨bs, hreplies, hsource, hreply⟩ := ih fun a' ha' => h a' (List.mem_cons_of_mem a ha')
    refine ⟨b :: bs, ?_, fun b' hb' => ?_, fun a' ha' => ?_⟩
    · rw [List.map_cons, replies, hstep, hreplies, List.map_cons]
    · rcases List.mem_cons.mp hb' with rfl | hb'
      · exact ⟨a, List.mem_cons_self, hQ⟩
      · obtain ⟨a', ha', hQ'⟩ := hsource b' hb'
        exact ⟨a', List.mem_cons_of_mem a ha', hQ'⟩
    · rcases List.mem_cons.mp ha' with rfl | ha'
      · exact ⟨b, List.mem_cons_self, hQ⟩
      · obtain ⟨b', hb', hQ'⟩ := hreply a' ha'
        exact ⟨b', List.mem_cons_of_mem b hb', hQ'⟩

/-- A condition on the state before a step and its input, at every step of a run. -/
def Along (step : σ → ι → ρ × σ) (C : σ → ι → Prop) : σ → List ι → Prop
  | _, [] => True
  | s, i :: is => C s i ∧ Along step C (step s i).2 is

variable {step : σ → ι → ρ × σ} {C G : σ → ι → Prop}

@[simp] theorem along_nil (s : σ) : Along step C s [] := trivial

@[simp] theorem along_cons (s : σ) (i : ι) (is : List ι) :
    Along step C s (i :: is) ↔ C s i ∧ Along step C (step s i).2 is := Iff.rfl

instance instDecidableAlong [∀ s i, Decidable (C s i)] : ∀ s is, Decidable (Along step C s is)
  | _, [] => isTrue trivial
  | s, i :: is =>
    have : Decidable (Along step C (step s i).2 is) := instDecidableAlong (step s i).2 is
    inferInstanceAs (Decidable (_ ∧ _))

/-- The simulation rule: a related run replies the same and stays related. -/
theorem Along.simulates {step' : τ → ι → ρ × τ} {R : τ → σ → Prop}
    (h : ∀ t s i, R t s → C s i → (step' t i).1 = (step s i).1 ∧ R (step' t i).2 (step s i).2)
    {t : τ} {s : σ} {is : List ι} (hR : R t s) (hC : Along step C s is) :
    (replies step' t is).1 = (replies step s is).1 ∧
      R (replies step' t is).2 (replies step s is).2 := by
  induction is generalizing t s with
  | nil => exact ⟨rfl, hR⟩
  | cons i is ih =>
    obtain ⟨hreply, hnext⟩ := h t s i hR hC.1
    obtain ⟨hreplies, hlast⟩ := ih hnext hC.2
    exact ⟨by rw [replies, replies, hreply, hreplies], hlast⟩

/-- A loop whose passes cannot throw where the machine's condition holds runs to the end beside
the machine. -/
theorem Along.forEach {α ε : Type*} {body : σ → α → Except ε Unit × σ} {step : τ → α → ρ × τ}
    {C : τ → α → Prop} {R : σ → τ → Prop}
    (h : ∀ s t a, R s t → C t a → (body s a).1 = .ok () ∧ R (body s a).2 (step t a).2)
    {s : σ} {t : τ} {as : List α} (hR : R s t) (hC : Along step C t as) :
    (forEach body s as).1 = .ok () ∧ R (forEach body s as).2 (replies step t as).2 := by
  induction as generalizing s t with
  | nil => exact ⟨rfl, hR⟩
  | cons a as ih =>
    obtain ⟨hok, hnext⟩ := h s t a hR hC.1
    rw [forEach_cons_of_ok hok]
    exact ih hnext hC.2

/-- Two conditions that agree at every state satisfying an invariant agree along runs, when
either of them keeps the invariant. -/
theorem along_iff {P : σ → Prop} (hkeep : ∀ s i, P s → G s i → P (step s i).2)
    (h : ∀ s i, P s → (G s i ↔ C s i)) {s : σ} {is : List ι} (hs : P s) :
    Along step G s is ↔ Along step C s is := by
  induction is generalizing s with
  | nil => exact Iff.rfl
  | cons i is ih =>
    rw [along_cons, along_cons, ← h s i hs]
    exact and_congr_right fun hG => ih (hkeep s i hs hG)

theorem along_and : Along step (fun s i => C s i ∧ G s i) s is ↔
    Along step C s is ∧ Along step G s is := by
  induction is generalizing s with
  | nil => simp
  | cons i is ih => rw [along_cons, along_cons, along_cons, ih, and_and_and_comm]

/-! ## The states of a run -/

/-- The state after the first `k` inputs. -/
def stateAfter (step : σ → ι → ρ × σ) (s : σ) (is : List ι) (k : Nat) : σ :=
  (replies step s (is.take k)).2

@[simp] theorem stateAfter_zero (s : σ) (is : List ι) : stateAfter step s is 0 = s := rfl

theorem stateAfter_succ {s : σ} {is : List ι} {k : Nat} {i : ι} (h : is[k]? = some i) :
    stateAfter step s is (k + 1) = (step (stateAfter step s is k) i).2 := by
  induction is generalizing s k with
  | nil => cases h
  | cons j is ih =>
    cases k with
    | zero =>
      obtain rfl := Option.some.inj h
      rfl
    | succ k => exact ih h

/-- The invariant rule for unconditional steps. -/
theorem stateAfter_invariant {P : σ → Prop} (h : ∀ s i, P s → P (step s i).2) {s : σ}
    {is : List ι} (hs : P s) {k : Nat} : P (stateAfter step s is k) := by
  rw [stateAfter]
  induction is.take k generalizing s with
  | nil => exact hs
  | cons i rest ih => exact ih (h s i hs)

/-- A property of every state a run reaches, as a condition of its steps. -/
theorem forall_stateAfter_iff {P : σ → Prop} {s : σ} {is : List ι} :
    (∀ k ≤ is.length, P (stateAfter step s is k)) ↔
      P s ∧ Along step (fun s i => P (step s i).2) s is := by
  induction is generalizing s with
  | nil => simp
  | cons i is ih =>
    rw [along_cons, ← ih]
    constructor
    · intro h
      exact ⟨h 0 (Nat.zero_le _), fun k hk => h (k + 1) (Nat.succ_le_succ hk)⟩
    · rintro ⟨hs, h⟩ k hk
      cases k with
      | zero => exact hs
      | succ k => exact h k (Nat.le_of_succ_le_succ hk)

/-- The condition of a run holds at each of its states. -/
theorem Along.stateAfter {s : σ} {is : List ι} (hC : Along step C s is) {k : Nat} {i : ι}
    (h : is[k]? = some i) : C (stateAfter step s is k) i := by
  induction is generalizing s k with
  | nil => cases h
  | cons j is ih =>
    cases k with
    | zero =>
      obtain rfl := Option.some.inj h
      exact hC.1
    | succ k => exact ih hC.2 h

end Core
