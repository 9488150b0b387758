import Mathlib.Algebra.Field.ZMod
import Mathlib.Tactic.Abel
import Mathlib.Tactic.Ring
import DHTDynamicAudit.Core.Pairing

/-!
# Two points on one line

Points `H + [m]P` and `H + [m']P` of a group of prime order. If they differ, a
multiple of their difference leads from any `K + [c]P` to any `K + [d]P`, and the
multiplier follows from the four scalars alone.
-/

namespace Core

variable {G : Type*} [AddCommGroup G] {n : Nat}

/-- Multipliers that are the same residue give the same multiple. -/
theorem nsmul_eq_of_cast_eq (hcard : Nat.card G = n) {k m : Nat} (h : (k : ZMod n) = m) (P : G) :
    k • P = m • P := by
  rw [← mod_nsmul hcard k, ← mod_nsmul hcard m, (ZMod.natCast_eq_natCast_iff' k m n).mp h]

/-- Two points on one line agree when their scalars are the same residue, or on the zero line. -/
theorem add_nsmul_eq_iff (hn : n.Prime) (hcard : Nat.card G = n) (H P : G) (m m' : Nat) :
    H + m • P = H + m' • P ↔ (m : ZMod n) = m' ∨ P = 0 := by
  rw [add_right_inj, nsmul_eq_nsmul_iff_of_prime hn hcard, ← ZMod.intCast_zmod_eq_zero_iff_dvd]
  push_cast
  rw [sub_eq_zero]

/-- The residue that leads from `c` to `d` along the difference of `m` and `m'`. -/
def slope (n m m' c d : Nat) : ZMod n := ((d : ZMod n) - c) * ((m : ZMod n) - m')⁻¹

theorem slope_mul (hn : n.Prime) {m m' : Nat} (h : (m : ZMod n) ≠ m') (c d : Nat) :
    (c : ZMod n) + slope n m m' c d * ((m : ZMod n) - m') = d := by
  have : Fact n.Prime := ⟨hn⟩
  have hunit : IsUnit ((m : ZMod n) - m') := (sub_ne_zero.mpr h).isUnit
  rw [slope, mul_assoc, ZMod.inv_mul_of_unit _ hunit, mul_one, add_sub_cancel]

/-- That multiple of the difference of two points leads along the whole line. -/
theorem add_nsmul_sub (hn : n.Prime) (hcard : Nat.card G = n) (H K P : G) {m m' k : Nat}
    (h : (m : ZMod n) ≠ m') {c d : Nat} (hk : (k : ZMod n) = slope n m m' c d) :
    K + c • P + k • (H + m • P - (H + m' • P)) = K + d • P := by
  have hscalars : ((c + k * m : Nat) : ZMod n) = (d + k * m' : Nat) := by
    push_cast
    rw [← slope_mul hn h c d, hk]
    ring
  have hline := nsmul_eq_of_cast_eq hcard hscalars P
  simp only [add_nsmul, mul_nsmul'] at hline
  calc K + c • P + k • (H + m • P - (H + m' • P))
      = K + (c • P + k • m • P) - k • m' • P := by
        rw [add_sub_add_left_eq_sub, nsmul_sub]
        abel
    _ = K + d • P := by
        rw [hline]
        abel

end Core
