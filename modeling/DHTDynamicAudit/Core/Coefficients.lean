import Mathlib.Data.Fintype.BigOperators
import Mathlib.Data.Set.Card
import DHTDynamicAudit.Core.Pairing

/-!
# Linear combinations that vanish

Points of a group of prime order, not all of them zero. All but one of the
coefficients of a vanishing combination are free and determine the last.
-/

namespace Core

open scoped BigOperators

variable {G : Type*} [AddCommGroup G] {ι : Type*} [Fintype ι] [DecidableEq ι] {n : Nat}
  {P : ι → G} {j : ι}

theorem sum_eq_add_of_ne (P : ι → G) (j : ι) (nu : ι → Fin n) :
    ∑ i, (nu i : Nat) • P i =
      (nu j : Nat) • P j + ∑ i ∈ Finset.univ.erase j, (nu i : Nat) • P i :=
  (Finset.add_sum_erase _ _ (Finset.mem_univ j)).symm

/-- The coefficient of a point other than zero can be chosen to make the combination vanish. -/
theorem exists_coefficient (hn : n.Prime) (hcard : Nat.card G = n) (hj : P j ≠ 0)
    (nu : ι → Fin n) : ∃ k, ∑ i, (Function.update nu j k i : Nat) • P i = 0 := by
  obtain ⟨k, hk⟩ := exists_nsmul_eq hn hcard hj
    (-∑ i ∈ Finset.univ.erase j, (nu i : Nat) • P i)
  refine ⟨⟨k % n, Nat.mod_lt k hn.pos⟩, ?_⟩
  have hrest : ∑ i ∈ Finset.univ.erase j,
      (Function.update nu j ⟨k % n, Nat.mod_lt k hn.pos⟩ i : Nat) • P i =
        ∑ i ∈ Finset.univ.erase j, (nu i : Nat) • P i :=
    Finset.sum_congr rfl fun i hi => by
      rw [Function.update_of_ne (Finset.ne_of_mem_erase hi)]
  rw [sum_eq_add_of_ne P j, hrest, Function.update_self, mod_nsmul hcard, hk, neg_add_cancel]

end Core
