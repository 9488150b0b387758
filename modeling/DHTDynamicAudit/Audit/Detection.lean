import DHTDynamicAudit.Audit.ChallengeForm
import DHTDynamicAudit.Audit.Coverage
import DHTDynamicAudit.Audit.Soundness
import DHTDynamicAudit.Audit.Windows
import DHTDynamicAudit.Core.Sampling

/-!
# How often a challenge misses wrong blocks

The index generator is a tape of draws out of `1..N`. Every set of `k` blocks is
challenged by equally many tapes, so `t` wrong blocks are missed as often as
`k` of `N` blocks avoid `t` given ones. A challenge that does not miss them
catches a prover that computes from wrong tags or blocks for all but one in `n`
of its coefficients.
-/

namespace DHTDynamic

open Core

variable {G1 G2 GT κ : Type} {lib : CoreLib G1 G2 GT}

/-! ## Index draws -/

section Indices

variable {blockCount : SizeT}

/-- The index of a block. -/
def blockAt (blockCount : SizeT) (i : Fin blockCount.toNat) : SizeT :=
  UInt64.ofNat (i + 1)

theorem toNat_blockAt (i : Fin blockCount.toNat) : (blockAt blockCount i).toNat = i + 1 := by
  have hbound := blockCount.toNat_lt
  rw [blockAt, toNat_ofNat_lt (by omega)]

theorem blockAt_mem (i : Fin blockCount.toNat) :
    1 ≤ blockAt blockCount i ∧ blockAt blockCount i ≤ blockCount := by
  rw [UInt64.le_iff_toNat_le, UInt64.le_iff_toNat_le, toNat_blockAt]
  exact ⟨Nat.succ_le_succ (Nat.zero_le i), i.isLt⟩

theorem blockAt_injective (blockCount : SizeT) : Function.Injective (blockAt blockCount) := by
  intro i j h
  have hvalue := congrArg UInt64.toNat h
  rw [toNat_blockAt, toNat_blockAt] at hvalue
  exact Fin.ext (Nat.succ_inj.mp hvalue)

/-- On a tape the loop draws distinct values. -/
theorem pickIndices_tape (script : List SizeT) (count : SizeT) {tape : List SizeT}
    (htape : ∀ i ∈ tape, 1 ≤ i ∧ i ≤ blockCount) (held : List SizeT) :
    pickIndices (.scripted script) count blockCount tape.length held tape =
      drawDistinct count.toNat held tape := by
  induction tape generalizing held with
  | nil => rfl
  | cons i tape ih =>
    obtain ⟨hi, htape⟩ := List.forall_mem_cons.mp htape
    simp only [List.length_cons, pickIndices, drawDistinct, IndexRng.scripted, if_pos hi]
    split_ifs with hmore hmem
    · exact ih htape held
    · exact ih htape (i :: held)
    · rfl

/-- The script of a tape. -/
def scriptOf {length : Nat} (tape : Fin length → Fin blockCount.toNat) : List SizeT :=
  (List.ofFn tape).map (blockAt blockCount)

/-- The loop over the script of a tape picks the blocks the tape draws. -/
theorem pickIndices_scriptOf {length : Nat} (tape : Fin length → Fin blockCount.toNat)
    (count : SizeT) :
    pickIndices (.scripted (scriptOf tape)) count blockCount length [] (scriptOf tape) =
      (drawDistinct count.toNat [] (List.ofFn tape)).map (List.map (blockAt blockCount)) := by
  have hlength : (scriptOf tape).length = length := by
    rw [scriptOf, List.length_map, List.length_ofFn]
  have hrange : ∀ i ∈ scriptOf tape, 1 ≤ i ∧ i ≤ blockCount := by
    intro i hi
    obtain ⟨j, _, rfl⟩ := List.mem_map.mp hi
    exact blockAt_mem j
  have hpick := pickIndices_tape (scriptOf tape) count hrange []
  rw [hlength] at hpick
  rw [hpick, ← drawDistinct_map count.toNat (blockAt_injective blockCount) [] (List.ofFn tape)]
  rfl

/-- The tapes on which the loop has not picked enough blocks when they end. -/
def tapesUnpicked (blockCount count : SizeT) (length : Nat) :
    Finset (Fin length → Fin blockCount.toNat) :=
  Finset.univ.filter fun tape =>
    pickIndices (.scripted (scriptOf tape)) count blockCount length [] (scriptOf tape) = none

/-- The loop ends: for any count up to the number of blocks, the part of the tapes on which it
has not vanishes exponentially as they grow. -/
theorem pickIndices_ends {blockCount count : SizeT} (hz : blockCount ≠ 0)
    (hle : count ≤ blockCount) :
    (∀ length, (tapesUnpicked blockCount count length).card ≤
      blockCount.toNat.choose (count.toNat - 1) * (count.toNat - 1) ^ length) ∧
    Filter.Tendsto (fun length => ((tapesUnpicked blockCount count length).card : ℝ) /
      (blockCount.toNat : ℝ) ^ length) Filter.atTop (nhds 0) := by
  have hshort : ∀ length, tapesUnpicked blockCount count length =
      tapesShort (Fin blockCount.toNat) length count.toNat := by
    intro length
    refine Finset.filter_congr fun tape _ => ?_
    rw [pickIndices_scriptOf, Option.map_eq_none_iff]
  rw [UInt64.le_iff_toNat_le] at hle
  have hfits : count.toNat ≤ Fintype.card (Fin blockCount.toNat) := by
    rw [Fintype.card_fin]
    exact hle
  have hpos : 0 < Fintype.card (Fin blockCount.toNat) := by
    rw [Fintype.card_fin]
    exact one_le_toNat_iff.mpr hz
  refine ⟨fun length => ?_, ?_⟩
  · rw [hshort]
    have hcard := card_tapesShort_le length hfits
    rw [Fintype.card_fin] at hcard
    exact hcard
  · have hlimit := tendsto_tapesShort hpos hfits
    simp only [Fintype.card_fun, Fintype.card_fin, Nat.cast_pow] at hlimit
    simp only [hshort]
    exact hlimit

/-- Two of three blocks on four draws: at most three tapes keep drawing the same block. -/
theorem pickIndices_ends_two_of_three : (tapesUnpicked 3 2 4).card ≤ 3 :=
  (pickIndices_ends (by decide) (by decide)).1 4

end Indices

/-! ## Draws for other blocks -/

namespace World

variable {w : World κ} {fileId : Bytes}

section Tapes

variable {length : Nat} {blockCount : SizeT}

variable {runtime : ChallengeRuntime} {algorithm : SM9BLSAlgorithm G2}
  {ext : DHTDynamicChallengeRequestExt G1 G2} {publicParams : DHTDynamicPublicParams G1 G2}

end Tapes

variable [AddCommGroup G1] [AddCommGroup G2] [CommGroup GT] {n : Nat}
  {e : G1 →+ G2 →+ Additive GT}

end World

end DHTDynamic
