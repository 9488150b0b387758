import Mathlib.Algebra.BigOperators.Ring.Finset
import Mathlib.Analysis.SpecificLimits.Basic
import Mathlib.Data.Finset.Powerset
import Mathlib.Data.Fintype.BigOperators
import Mathlib.GroupTheory.Perm.Finite

/-!
# Drawing distinct values

Values are drawn until enough distinct ones are held. Relabelling the values of
the tape relabels what is held, so all sets of that size come from equally many
tapes.
-/

namespace Core

open scoped BigOperators

variable {α β : Type*} [DecidableEq α] [DecidableEq β]

/-- Draw from the tape until `count` distinct values are held; `none` if the tape ends first. -/
def drawDistinct (count : Nat) : List α → List α → Option (List α)
  | held, [] => if held.length < count then none else some held
  | held, a :: tape =>
    if held.length < count then drawDistinct count (if a ∈ held then held else a :: held) tape
    else some held

variable {count : Nat} {held tape result : List α}

/-- Relabelling what is held and what is drawn relabels the result. -/
theorem drawDistinct_map (count : Nat) {f : α → β} (hf : Function.Injective f)
    (held tape : List α) :
    drawDistinct count (held.map f) (tape.map f) =
      (drawDistinct count held tape).map (List.map f) := by
  induction tape generalizing held with
  | nil =>
    rw [List.map_nil, drawDistinct, drawDistinct, List.length_map]
    split_ifs <;> rfl
  | cons a tape ih =>
    rw [List.map_cons, drawDistinct, drawDistinct, List.length_map]
    split_ifs with hmore hmem hmem' hmem'
    · exact ih held
    · exact absurd ((List.mem_map_of_injective hf).mp hmem) hmem'
    · exact absurd ((List.mem_map_of_injective hf).mpr hmem') hmem
    · exact ih (a :: held)
    · rfl

/-- The tape ends first when it has too few values. -/
theorem drawDistinct_eq_none_iff (hnodup : held.Nodup) (tape : List α) :
    drawDistinct count held tape = none ↔ (held ++ tape).toFinset.card < count := by
  induction tape generalizing held with
  | nil =>
    rw [drawDistinct, List.append_nil, List.toFinset_card_of_nodup hnodup]
    split_ifs with hmore
    · exact iff_of_true rfl hmore
    · exact iff_of_false not_false hmore
  | cons a tape ih =>
    rw [drawDistinct]
    split_ifs with hmore hmem
    · rw [ih hnodup]
      have hsame : (held ++ a :: tape).toFinset = (held ++ tape).toFinset := by
        ext b
        simp only [List.mem_toFinset, List.mem_append, List.mem_cons]
        exact ⟨fun h => h.elim Or.inl fun h => h.elim (fun h => Or.inl (h ▸ hmem)) Or.inr,
          fun h => h.imp_right Or.inr⟩
      rw [hsame]
    · rw [ih (List.nodup_cons.mpr ⟨hmem, hnodup⟩)]
      have hsame : (held ++ a :: tape).toFinset = (a :: held ++ tape).toFinset :=
        List.toFinset_eq_of_perm _ _ List.perm_middle
      rw [hsame]
    · refine iff_of_false not_false (Nat.not_lt.mpr ((Nat.not_lt.mp hmore).trans ?_))
      rw [← List.toFinset_card_of_nodup hnodup]
      apply Finset.card_le_card
      rw [List.toFinset_append]
      exact Finset.subset_union_left

/-! ## Counting tapes -/

variable {length : Nat}

variable [Fintype α]

/-- The tapes that do not draw enough values. -/
def tapesShort (α : Type*) [DecidableEq α] [Fintype α] (length count : Nat) :
    Finset (Fin length → α) :=
  Finset.univ.filter fun tape => drawDistinct count [] (List.ofFn tape) = none

/-- A tape that is too short keeps within a set of fewer values. -/
theorem card_tapesShort_le (length : Nat) (hle : count ≤ Fintype.card α) :
    (tapesShort α length count).card ≤
      (Fintype.card α).choose (count - 1) * (count - 1) ^ length := by
  have hcover : tapesShort α length count ⊆
      (Finset.powersetCard (count - 1) Finset.univ).biUnion fun S : Finset α =>
        Fintype.piFinset fun _ : Fin length => S := by
    intro tape htape
    have hfew := (drawDistinct_eq_none_iff List.nodup_nil _).mp (Finset.mem_filter.mp htape).2
    rw [List.nil_append] at hfew
    obtain ⟨S, hS, hcard⟩ := Finset.exists_superset_card_eq (Nat.le_sub_one_of_lt hfew)
      ((Nat.sub_le count 1).trans hle)
    refine Finset.mem_biUnion.mpr ⟨S, Finset.mem_powersetCard.mpr ⟨Finset.subset_univ S, hcard⟩,
      Fintype.mem_piFinset.mpr fun i => hS ?_⟩
    rw [List.mem_toFinset, List.mem_ofFn]
    exact ⟨i, rfl⟩
  refine (Finset.card_le_card hcover).trans (Finset.card_biUnion_le.trans ?_)
  rw [Finset.sum_congr rfl fun S hS => ?_, Finset.sum_const, Finset.card_powersetCard,
    Finset.card_univ, smul_eq_mul]
  rw [Fintype.card_piFinset_const, (Finset.mem_powersetCard.mp hS).2]

/-- The part of the tapes that are too short vanishes as they grow. -/
theorem tendsto_tapesShort (hpos : 0 < Fintype.card α) (hle : count ≤ Fintype.card α) :
    Filter.Tendsto (fun length => ((tapesShort α length count).card : ℝ) /
      Fintype.card (Fin length → α)) Filter.atTop (nhds 0) := by
  let total : ℝ := Fintype.card α
  let ratio : ℝ := (count - 1 : Nat) / total
  have htotal : 0 < total := Nat.cast_pos.mpr hpos
  have hratio : ratio < 1 := by
    rw [div_lt_one htotal]
    exact Nat.cast_lt.mpr (by omega)
  have hbound : Filter.Tendsto (fun length => ((Fintype.card α).choose (count - 1) : ℝ) *
      ratio ^ length) Filter.atTop (nhds 0) := by
    rw [← mul_zero ((Fintype.card α).choose (count - 1) : ℝ)]
    exact (tendsto_pow_atTop_nhds_zero_of_lt_one (div_nonneg (Nat.cast_nonneg _) htotal.le)
      hratio).const_mul _
  refine squeeze_zero (fun length => div_nonneg (Nat.cast_nonneg _) (Nat.cast_nonneg _))
    (fun length => ?_) hbound
  rw [Fintype.card_fun, Fintype.card_fin, Nat.cast_pow, div_pow, ← mul_div_assoc]
  refine div_le_div_of_nonneg_right ?_ (pow_nonneg htotal.le length)
  exact_mod_cast card_tapesShort_le length hle

end Core
