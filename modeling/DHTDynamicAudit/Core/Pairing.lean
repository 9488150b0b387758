import Mathlib.Algebra.BigOperators.Group.List.Basic
import Mathlib.GroupTheory.SpecificGroups.Cyclic.Basic

/-!
# Pairings of groups of prime order

A pairing is a biadditive map between additive groups. In groups of prime order
a multiple vanishes only at multiples of the order, and a pairing that is not
zero everywhere has no zero divisors.
-/

namespace Core

variable {G G₁ G₂ A : Type*} [AddCommGroup G] [AddCommGroup G₁] [AddCommGroup G₂] [AddCommGroup A]

/-- In a group of prime order every point other than zero has that order. -/
theorem addOrderOf_eq_of_prime {n : Nat} (hn : n.Prime) (hcard : Nat.card G = n) {P : G}
    (hP : P ≠ 0) : addOrderOf P = n := by
  have hdvd : addOrderOf P ∣ n := hcard ▸ addOrderOf_dvd_natCard P
  rcases (Nat.dvd_prime hn).mp hdvd with hone | horder
  · exact absurd (AddMonoid.addOrderOf_eq_one_iff.mp hone) hP
  · exact horder

/-- In a group of prime order a multiple vanishes at zero and at multiples of the order only. -/
theorem nsmul_eq_zero_iff_of_prime {n : Nat} (hn : n.Prime) (hcard : Nat.card G = n) {k : Nat}
    {P : G} : k • P = 0 ↔ n ∣ k ∨ P = 0 := by
  constructor
  · intro h
    by_cases hP : P = 0
    · exact Or.inr hP
    · apply Or.inl
      rw [← addOrderOf_eq_of_prime hn hcard hP]
      exact addOrderOf_dvd_iff_nsmul_eq_zero.mpr h
  · rintro (⟨m, rfl⟩ | rfl)
    · have hzero : n • P = 0 := hcard ▸ card_nsmul_eq_zero'
      rw [mul_nsmul, hzero, nsmul_zero]
    · exact nsmul_zero k

/-- The multiples of a point depend on the multiplier modulo the order only. -/
theorem mod_nsmul {n : Nat} (hcard : Nat.card G = n) (k : Nat) (P : G) : (k % n) • P = k • P := by
  rw [← hcard, mod_natCard_nsmul]

/-- Multiples of a point of prime order agree exactly when the multipliers do modulo the order. -/
theorem nsmul_eq_nsmul_iff_of_prime {n : Nat} (hn : n.Prime) (hcard : Nat.card G = n) {k m : Nat}
    {P : G} : k • P = m • P ↔ (n : Int) ∣ (k : Int) - m ∨ P = 0 := by
  rw [← Nat.modEq_iff_dvd]
  constructor
  · intro h
    by_cases hP : P = 0
    · exact Or.inr hP
    · rw [nsmul_eq_nsmul_iff_modEq, addOrderOf_eq_of_prime hn hcard hP] at h
      exact Or.inl h.symm
  · rintro (h | rfl)
    · rw [← mod_nsmul hcard k, ← mod_nsmul hcard m, h]
    · rw [nsmul_zero, nsmul_zero]

/-- The pairing is not zero everywhere. -/
def Nondegenerate (e : G₁ →+ G₂ →+ A) : Prop := ∃ P Q, e P Q ≠ 0

/-- Every point of a group of prime order is a multiple of any point other than zero. -/
theorem exists_nsmul_eq {n : Nat} (hn : n.Prime) (hcard : Nat.card G = n) {P : G} (hP : P ≠ 0)
    (P' : G) : ∃ k : Nat, k • P = P' := by
  have : Fact n.Prime := ⟨hn⟩
  exact mem_multiples_of_prime_card hcard hP

/-- A nondegenerate pairing of groups of prime order has no zero divisors. -/
theorem pairing_eq_zero_iff {n : Nat} (hn : n.Prime) (h₁ : Nat.card G₁ = n)
    (h₂ : Nat.card G₂ = n) {e : G₁ →+ G₂ →+ A} (he : Nondegenerate e) {P : G₁} {Q : G₂} :
    e P Q = 0 ↔ P = 0 ∨ Q = 0 := by
  constructor
  · intro h
    by_contra hne
    obtain ⟨hP, hQ⟩ := not_or.mp hne
    obtain ⟨P', Q', hPQ⟩ := he
    obtain ⟨k, rfl⟩ := exists_nsmul_eq hn h₁ hP P'
    obtain ⟨m, rfl⟩ := exists_nsmul_eq hn h₂ hQ Q'
    rw [map_nsmul, map_nsmul, AddMonoidHom.nsmul_apply, h, nsmul_zero, nsmul_zero] at hPQ
    exact hPQ rfl
  · rintro (rfl | rfl)
    · rw [map_zero, AddMonoidHom.zero_apply]
    · rw [map_zero]

end Core
