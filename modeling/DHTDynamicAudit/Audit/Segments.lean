import Mathlib.Algebra.BigOperators.Fin
import Mathlib.Algebra.Module.BigOperators
import DHTDynamicAudit.Core.Cuts
import DHTDynamicAudit.Audit.Equation

/-!
# The segment loop

`accumulateBlockSegmentsScalar` copies a block in 32-byte pieces. Every byte of
the block is read once and in order, nothing outside is, and the scalar is the
sum of all bytes weighted by their position in their segment.
-/

namespace DHTDynamic

open Core

variable {G1 G2 GT : Type} {lib : CoreLib G1 G2 GT}

/-! ## The loop on memory -/

variable (lib) in
/-- One pass of the loop, in `size_t` as the sources count, beside the offsets read so far:
`none` when `memcpy` reads outside the block. -/
def segmentPass (block : Bytes) (state : SM9CryptoData × List Nat) (j : SizeT) :
    Option (SM9CryptoData × List Nat) :=
  let offset := j * UInt64.ofNat segmentSize
  let copySize := min (UInt64.ofNat segmentSize) (UInt64.ofNat block.length - offset)
  let offsets := (List.range copySize.toNat).map (offset.toNat + ·)
  (offsets.mapM fun k => block[k]?).map fun bytes =>
    ((lib.scalarAdd state.1 (SM9CryptoData.ofBytes bytes)).getD state.1, state.2 ++ offsets)

variable (lib) in
/-- `accumulateBlockSegmentsScalar` on the memory of the block: the scalar and the offsets read. -/
def accumulateFromMemory (block : Bytes) : Option (SM9CryptoData × List Nat) :=
  let segmentCount := (UInt64.ofNat block.length + UInt64.ofNat segmentSize - 1) /
    UInt64.ofNat segmentSize
  (List.range segmentCount.toNat).foldlM
    (fun state j => segmentPass lib block state (UInt64.ofNat j)) (SM9CryptoData.ofUInt64 0, [])

theorem toNat_segmentCount {block : Bytes} (h : block.length + segmentSize ≤ 2 ^ 64) :
    ((UInt64.ofNat block.length + UInt64.ofNat segmentSize - 1) /
      UInt64.ofNat segmentSize).toNat = windowCount segmentSize block.length := by
  have hlen : block.length + 32 ≤ 2 ^ 64 := h
  have hsize : (UInt64.ofNat segmentSize).toNat = 32 := rfl
  have hsum : (UInt64.ofNat block.length + UInt64.ofNat segmentSize - 1).toNat =
      block.length + 32 - 1 := by
    rw [UInt64.toNat_sub, UInt64.toNat_add, UInt64.toNat_one, hsize, toNat_ofNat_lt (by omega)]
    omega
  rw [UInt64.toNat_div, hsum, hsize, windowCount, segmentSize]

/-- A pass over a segment of the block copies it and reads its offsets. -/
theorem segmentPass_of_lt {block : Bytes} (h : block.length + segmentSize ≤ 2 ^ 64) {j : Nat}
    (hj : j < windowCount segmentSize block.length) (state : SM9CryptoData × List Nat) :
    segmentPass lib block state (UInt64.ofNat j) =
      some ((lib.scalarAdd state.1 (segment block j)).getD state.1,
        state.2 ++ windowOffsets segmentSize block.length j) := by
  have hstart : j * 32 < block.length := mul_lt_of_lt_windowCount hj
  have hlen : block.length + 32 ≤ 2 ^ 64 := h
  have hsize : (UInt64.ofNat segmentSize).toNat = 32 := rfl
  have hoffset : (UInt64.ofNat j * UInt64.ofNat segmentSize).toNat = j * segmentSize := by
    rw [UInt64.toNat_mul, hsize, toNat_ofNat_lt (by omega), segmentSize]
    omega
  have hrest : (UInt64.ofNat block.length - UInt64.ofNat j * UInt64.ofNat segmentSize).toNat =
      block.length - j * segmentSize := by
    rw [UInt64.toNat_sub, hoffset, toNat_ofNat_lt (by omega), segmentSize]
    omega
  have hcopy : (min (UInt64.ofNat segmentSize)
      (UInt64.ofNat block.length - UInt64.ofNat j * UInt64.ofNat segmentSize)).toNat =
        windowSize segmentSize block.length j := by
    rw [toNat_min, hrest, hsize, windowSize, segmentSize]
  simp only [segmentPass, hoffset, hcopy]
  rw [← windowOffsets, mapM_windowOffsets block hj, Option.map_some, segment]

/-- The passes over the segments `js` add them to the sum and read their offsets in order. -/
theorem foldlM_segmentPass {block : Bytes} (h : block.length + segmentSize ≤ 2 ^ 64)
    {js : List Nat} (hjs : ∀ j ∈ js, j < windowCount segmentSize block.length)
    (sum : SM9CryptoData) (offsets : List Nat) :
    js.foldlM (fun state j => segmentPass lib block state (UInt64.ofNat j)) (sum, offsets) =
      some (js.foldl (fun sum j => (lib.scalarAdd sum (segment block j)).getD sum) sum,
        offsets ++ js.flatMap (windowOffsets segmentSize block.length)) := by
  induction js generalizing sum offsets with
  | nil => simp
  | cons j js ih =>
    obtain ⟨hj, hrest⟩ := List.forall_mem_cons.mp hjs
    rw [List.foldlM_cons, segmentPass_of_lt h hj]
    simp only [Option.bind_eq_bind, Option.bind_some]
    rw [ih hrest, List.foldl_cons, List.flatMap_cons, List.append_assoc]

/-- On memory the loop stays inside the block, reads every offset once and in order, and computes
the scalar. -/
theorem accumulateFromMemory_eq {block : Bytes} (h : block.length + segmentSize ≤ 2 ^ 64) :
    accumulateFromMemory lib block =
      some (accumulateBlockSegmentsScalar lib block, List.range block.length) := by
  rw [accumulateFromMemory, toNat_segmentCount h,
    foldlM_segmentPass h (fun j hj => List.mem_range.mp hj),
    flatMap_windowOffsets (by decide : 0 < segmentSize), List.nil_append]
  rfl

/-! ## The sum of the segments -/

/-- `Σ segment_j` of a block, before reduction. -/
def segmentSum (block : Bytes) : Nat :=
  ((List.range ((block.length + segmentSize - 1) / segmentSize)).map fun j =>
    (segment block j).value).sum

/-- A running sum modulo `n` is the sum modulo `n`. -/
theorem foldl_scalarAdd_value {n : Nat} (hn : 0 < n)
    (hadd : ∀ x y, ∃ z, lib.scalarAdd x y = some z ∧ z.value = (x.value + y.value) % n)
    (term : Nat → SM9CryptoData) (js : List Nat) {sum : SM9CryptoData} (hsum : sum.value < n) :
    (js.foldl (fun sum j => (lib.scalarAdd sum (term j)).getD sum) sum).value =
      (sum.value + (js.map fun j => (term j).value).sum) % n := by
  induction js generalizing sum with
  | nil => exact (Nat.mod_eq_of_lt hsum).symm
  | cons j js ih =>
    obtain ⟨next, hnext, hvalue⟩ := hadd sum (term j)
    have hlt : next.value < n := by
      rw [hvalue]
      exact Nat.mod_lt _ hn
    rw [List.foldl_cons, hnext, Option.getD_some, ih hlt, hvalue, Nat.mod_add_mod, List.map_cons,
      List.sum_cons, Nat.add_assoc]

theorem accumulateBlockSegmentsScalar_value {n : Nat} (hn : 0 < n)
    (hadd : ∀ x y, ∃ z, lib.scalarAdd x y = some z ∧ z.value = (x.value + y.value) % n)
    (block : Bytes) :
    (accumulateBlockSegmentsScalar lib block).value = segmentSum block % n := by
  have hfold := foldl_scalarAdd_value hn hadd (segment block)
    (List.range ((block.length + segmentSize - 1) / segmentSize))
    (show (SM9CryptoData.ofUInt64 0).value < n from hn)
  rwa [SM9CryptoData.ofUInt64_zero_value, Nat.zero_add] at hfold

/-! ## The sum of the bytes -/

/-- A little-endian number is the sum of its bytes by position. -/
theorem littleEndian_eq_sum (bytes : Bytes) : littleEndian bytes =
    ((List.range bytes.length).map fun i => (bytes.getD i 0).toNat * 256 ^ i).sum := by
  induction bytes with
  | nil => rfl
  | cons b bytes ih =>
    have hlater : ∀ i, ((b :: bytes).getD (i + 1) 0).toNat * 256 ^ (i + 1) =
        256 * ((bytes.getD i 0).toNat * 256 ^ i) := by
      intro i
      rw [List.getD_cons_succ, Nat.pow_succ]
      ring
    rw [littleEndian, ih, List.length_cons, List.range_succ_eq_map, List.map_cons, List.sum_cons,
      List.map_map]
    simp only [Function.comp_def, hlater, List.sum_map_mul_left, List.getD_cons_zero,
      Nat.pow_zero, Nat.mul_one]

/-- The value of segment `j`: its bytes, weighted by their position in it. -/
theorem segment_value (block : Bytes) (j : Nat) : (segment block j).value =
    ((List.range (windowSize segmentSize block.length j)).map fun i =>
      (block.getD (j * segmentSize + i) 0).toNat *
        256 ^ ((j * segmentSize + i) % segmentSize)).sum := by
  have hlen : ((block.drop (j * segmentSize)).take segmentSize).length =
      windowSize segmentSize block.length j := by
    rw [List.length_take, List.length_drop, windowSize]
  have hall : ((block.drop (j * segmentSize)).take segmentSize).take SM9CryptoData.size =
      (block.drop (j * segmentSize)).take segmentSize :=
    List.take_of_length_le (List.length_take_le _ _)
  simp only [segment, SM9CryptoData.ofBytes, hall, littleEndian_eq_sum, hlen]
  congr 1
  refine List.map_congr_left fun i hi => ?_
  have hlt : i < segmentSize := by
    have hi' := List.mem_range.mp hi
    rw [windowSize] at hi'
    omega
  have hbyte : ((block.drop (j * segmentSize)).take segmentSize).getD i 0 =
      block.getD (j * segmentSize + i) 0 := by
    rw [List.getD_eq_getElem?_getD, List.getElem?_take_of_lt hlt, List.getElem?_drop,
      List.getD_eq_getElem?_getD]
  rw [hbyte, Nat.mul_add_mod_self_right, Nat.mod_eq_of_lt hlt]

/-- The segments add up to the bytes, each weighted by its position in its segment. -/
theorem segmentSum_eq_sum (block : Bytes) : segmentSum block =
    ∑ k : Fin block.length, block[k].toNat * 256 ^ (k.val % segmentSize) := by
  have hwindows := sum_range_eq_sum_windows (by decide : 0 < segmentSize) block.length
    fun k => (block.getD k 0).toNat * 256 ^ (k % segmentSize)
  simp only [← segment_value] at hwindows
  rw [segmentSum, ← windowCount, ← hwindows]
  change ∑ k ∈ Finset.range block.length,
    (block.getD k 0).toNat * 256 ^ (k % segmentSize) = _
  rw [Finset.sum_range]
  refine Finset.sum_congr rfl fun k _ => ?_
  rw [List.getD_eq_getElem?_getD, List.getElem?_eq_getElem k.isLt, Option.getD_some]
  rfl

/-! ## Scalars on the base point -/

/-- Every byte counts once: in the scalar weighted by its position in its segment, and on a base
point of order `n` as part of its segment's multiple. -/
theorem accumulateBlockSegments_eq_sum [AddCommGroup G1] {n : Nat} (hn : 0 < n)
    (hadd : ∀ x y, ∃ z, lib.scalarAdd x y = some z ∧ z.value = (x.value + y.value) % n)
    (hmul : ∀ P k, lib.g1Mul P k = some (k.value • P)) (block : Bytes) :
    (block.length + segmentSize ≤ 2 ^ 64 → accumulateFromMemory lib block =
      some (accumulateBlockSegmentsScalar lib block, List.range block.length)) ∧
    (accumulateBlockSegmentsScalar lib block).value =
      (∑ k : Fin block.length, block[k].toNat * 256 ^ (k.val % 32)) % n ∧
    ∀ P, addOrderOf P = n →
      accumulateBlockSegmentsG1 lib block P =
        .ok ((accumulateBlockSegmentsScalar lib block).value • P) ∧
      (accumulateBlockSegmentsScalar lib block).value • P =
        ((List.range ((block.length + segmentSize - 1) / segmentSize)).map fun j =>
          (segment block j).value • P).sum := by
  have hvalue := accumulateBlockSegmentsScalar_value hn hadd block
  refine ⟨accumulateFromMemory_eq, by rw [hvalue, segmentSum_eq_sum, segmentSize],
    fun P hP => ⟨?_, ?_⟩⟩
  · rw [accumulateBlockSegmentsG1, hmul, deref_some]
  · rw [hvalue, ← hP, mod_addOrderOf_nsmul, segmentSum, List.sum_smul, List.map_map]
    rfl

/-- A block of a full segment and one of two bytes, on a point of order five. -/
theorem accumulateBlockSegments_eq_sum_partial :
    let lib := zmodLib fun _ => 0
    let block : Bytes := List.replicate 32 3 ++ [1, 2]
    accumulateFromMemory lib block =
      some (accumulateBlockSegmentsScalar lib block, List.range block.length) ∧
    (accumulateBlockSegmentsScalar lib block).value =
      (∑ k : Fin block.length, block[k].toNat * 256 ^ (k.val % 32)) % 5 ∧
    accumulateBlockSegmentsG1 lib block 1 =
      .ok ((accumulateBlockSegmentsScalar lib block).value • 1) ∧
    (accumulateBlockSegmentsScalar lib block).value • (1 : ZMod 5) =
      ((List.range ((block.length + segmentSize - 1) / segmentSize)).map fun j =>
        (segment block j).value • 1).sum := by
  intro lib block
  obtain ⟨hmemory, hvalue, hpoints⟩ := accumulateBlockSegments_eq_sum (n := 5) (by decide)
    (zmodLib_lawful fun _ => 0).scalarAdd (zmodLib_lawful fun _ => 0).g1Mul block
  obtain ⟨hG1, hsum⟩ := hpoints 1 (ZMod.addOrderOf_one 5)
  exact ⟨hmemory (by decide), hvalue, hG1, hsum⟩

end DHTDynamic
