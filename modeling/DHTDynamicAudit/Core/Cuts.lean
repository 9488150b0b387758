import Mathlib.Algebra.BigOperators.Group.List.Basic

/-!
# Lists cut into windows

A list of `len` elements is cut into windows of `w`, the last one shorter. The
windows cover every position exactly once and in order, so a sum over positions
is the sum over the windows of their sums.
-/

namespace Core

/-- How many windows of `w` a list of `len` elements needs. -/
def windowCount (w len : Nat) : Nat := (len + w - 1) / w

/-- How many elements window `j` has. -/
def windowSize (w len j : Nat) : Nat := min w (len - j * w)

/-- The positions window `j` covers. -/
def windowOffsets (w len j : Nat) : List Nat :=
  (List.range (windowSize w len j)).map (j * w + ·)

theorem le_windowCount_mul {w : Nat} (hw : 0 < w) (len : Nat) : len ≤ windowCount w len * w := by
  have hdiv := Nat.div_add_mod (len + w - 1) w
  have hmod := Nat.mod_lt (len + w - 1) hw
  rw [windowCount, Nat.mul_comm]
  omega

/-- Window `j` of a list that needs more than `j` windows starts inside it. -/
theorem mul_lt_of_lt_windowCount {w len j : Nat} (hj : j < windowCount w len) : j * w < len := by
  have hw : 0 < w := by
    apply Nat.pos_of_ne_zero
    rintro rfl
    simp [windowCount] at hj
  have hle : (j + 1) * w ≤ len + w - 1 := (Nat.le_div_iff_mul_le hw).mp hj
  rw [Nat.succ_mul] at hle
  omega

/-- The first `c` windows cover the first `c * w` positions, as far as there are any. -/
theorem flatMap_windowOffsets_range (w len c : Nat) :
    (List.range c).flatMap (windowOffsets w len) = List.range (min (c * w) len) := by
  induction c with
  | zero => simp
  | succ c ih =>
    rw [List.range_succ, List.flatMap_append, ih, List.flatMap_singleton, windowOffsets, windowSize]
    by_cases hfull : c * w ≤ len
    · have hsplit : min ((c + 1) * w) len = c * w + min w (len - c * w) := by
        rw [Nat.succ_mul]
        omega
      rw [Nat.min_eq_left hfull, hsplit, List.range_add]
    · have hnone : min w (len - c * w) = 0 := by omega
      have hall : min ((c + 1) * w) len = min (c * w) len := by
        rw [Nat.succ_mul]
        omega
      rw [hnone, hall, List.range_zero, List.map_nil, List.append_nil]

/-- The windows of a list cover every position exactly once and in order. -/
theorem flatMap_windowOffsets {w : Nat} (hw : 0 < w) (len : Nat) :
    (List.range (windowCount w len)).flatMap (windowOffsets w len) = List.range len := by
  rw [flatMap_windowOffsets_range, Nat.min_eq_right (le_windowCount_mul hw len)]

/-- A sum over the positions is the sum over the windows of the sums over theirs. -/
theorem sum_range_eq_sum_windows {M : Type*} [AddMonoid M] {w : Nat} (hw : 0 < w) (len : Nat)
    (f : Nat → M) : ((List.range len).map f).sum =
      ((List.range (windowCount w len)).map fun j =>
        ((List.range (windowSize w len j)).map fun i => f (j * w + i)).sum).sum := by
  rw [← flatMap_windowOffsets hw len, List.map_flatMap, List.flatMap, List.sum_flatten,
    List.map_map]
  simp only [Function.comp_def, windowOffsets, List.map_map]

/-- Looking up consecutive positions inside a list gives the elements from the first one on. -/
theorem mapM_getElem?_range {α : Type*} (l : List α) {start c : Nat} (h : start + c ≤ l.length) :
    ((List.range c).map (start + ·)).mapM (fun k => l[k]?) = some ((l.drop start).take c) := by
  induction c with
  | zero => rfl
  | succ c ih =>
    have hlt : start + c < l.length := by omega
    have hlast : (l.drop start)[c]? = some l[start + c] := by
      rw [List.getElem?_drop, List.getElem?_eq_getElem hlt]
    rw [List.range_succ, List.map_append, List.mapM_append, ih (Nat.le_of_lt hlt),
      List.take_add_one, hlast]
    simp [List.getElem?_eq_getElem hlt]

/-- The elements at the positions of a window are there, and they are the window. -/
theorem mapM_windowOffsets {α : Type*} (l : List α) {w j : Nat}
    (hj : j < windowCount w l.length) :
    (windowOffsets w l.length j).mapM (fun k => l[k]?) = some ((l.drop (j * w)).take w) := by
  have hstart := mul_lt_of_lt_windowCount hj
  have hend : j * w + windowSize w l.length j ≤ l.length := by
    rw [windowSize]
    omega
  have htake : (l.drop (j * w)).take (windowSize w l.length j) = (l.drop (j * w)).take w := by
    rw [windowSize, ← List.length_drop]
    exact List.take_eq_take_min.symm
  rw [windowOffsets, mapM_getElem?_range l hend, htake]

end Core
