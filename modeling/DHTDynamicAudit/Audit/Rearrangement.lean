import DHTDynamicAudit.Audit.Acceptance
import DHTDynamicAudit.Audit.Segments
import DHTDynamicAudit.Audit.WindowProofs

/-!
# Blocks with their segments in another order

A block enters tags and proofs only through the sum of its 32-byte segments, so
a prover who holds the segments of a challenged block in any order gives the
proof of the original block.
-/

namespace DHTDynamic

open Core

variable {G1 G2 GT κ : Type} {lib : CoreLib G1 G2 GT}

/-! ## The sum of the segments -/

/-- A full segment in front adds its value. -/
theorem segmentSum_append {front : Bytes} (h : front.length = segmentSize) (rest : Bytes) :
    segmentSum (front ++ rest) = littleEndian front + segmentSum rest := by
  have hcount : ((front ++ rest).length + segmentSize - 1) / segmentSize =
      (rest.length + segmentSize - 1) / segmentSize + 1 := by
    rw [List.length_append, h]
    simp only [segmentSize]
    omega
  have hfirst : (segment (front ++ rest) 0).value = littleEndian front := by
    have htake : (front ++ rest).take segmentSize = front := List.take_left' h
    have hall : front.take SM9CryptoData.size = front := List.take_of_length_le (Nat.le_of_eq h)
    simp only [segment, Nat.zero_mul, List.drop_zero, htake, SM9CryptoData.ofBytes, hall]
  have hlater : ∀ j, segment (front ++ rest) (j + 1) = segment rest j := by
    intro j
    have hdrop : (front ++ rest).drop ((j + 1) * segmentSize) = rest.drop (j * segmentSize) := by
      rw [Nat.succ_mul, Nat.add_comm, ← List.drop_drop, List.drop_left' h]
    rw [segment, hdrop, segment]
  rw [segmentSum, hcount, List.range_succ_eq_map, List.map_cons, List.sum_cons, hfirst,
    List.map_map]
  simp only [Function.comp_def, hlater, segmentSum]

theorem segmentSum_flatten {segments : List Bytes} (h : ∀ s ∈ segments, s.length = segmentSize)
    (tail : Bytes) : segmentSum (segments.flatten ++ tail) =
      (segments.map littleEndian).sum + segmentSum tail := by
  induction segments with
  | nil => simp
  | cons front segments ih =>
    obtain ⟨hfront, hrest⟩ := List.forall_mem_cons.mp h
    rw [List.flatten_cons, List.append_assoc, segmentSum_append hfront, ih hrest, List.map_cons,
      List.sum_cons, Nat.add_assoc]

/-- The same full 32-byte segments in some order, and the same shorter one at the end. -/
def Rearranged (block block' : Bytes) : Prop :=
  ∃ (segments segments' : List Bytes) (tail : Bytes), (∀ s ∈ segments, s.length = segmentSize) ∧
    segments.Perm segments' ∧ tail.length < segmentSize ∧
    block = segments.flatten ++ tail ∧ block' = segments'.flatten ++ tail

/-- The scalar of a block does not see the order of its segments. -/
theorem Rearranged.accumulate {n : Nat} (hn : 0 < n)
    (hadd : ∀ x y, ∃ z, lib.scalarAdd x y = some z ∧ z.value = (x.value + y.value) % n)
    {block block' : Bytes} (h : Rearranged block block') :
    (accumulateBlockSegmentsScalar lib block).value =
      (accumulateBlockSegmentsScalar lib block').value := by
  obtain ⟨segments, segments', tail, hfull, hperm, _, rfl, rfl⟩ := h
  have hfull' : ∀ s ∈ segments', s.length = segmentSize :=
    fun s hs => hfull s (hperm.mem_iff.mpr hs)
  rw [accumulateBlockSegmentsScalar_value hn hadd, accumulateBlockSegmentsScalar_value hn hadd,
    segmentSum_flatten hfull, segmentSum_flatten hfull', (hperm.map littleEndian).sum_eq]

/-- With a rearranged block in its place, every block of a file has the scalar it had. -/
theorem Rearranged.accumulate_set {n : Nat} (hn : 0 < n)
    (hadd : ∀ x y, ∃ z, lib.scalarAdd x y = some z ∧ z.value = (x.value + y.value) % n)
    {contents : List Bytes} {p : Nat} {block block' : Bytes} (hblock : contents[p]? = some block)
    (h : Rearranged block block') (i : SizeT) :
    (accumulateBlockSegmentsScalar lib (blockOf (contents.set p block') i)).value =
      (accumulateBlockSegmentsScalar lib (blockOf contents i)).value := by
  by_cases hi : p = (i - 1).toNat
  · obtain ⟨hlt, _⟩ := List.getElem?_eq_some_iff.mp hblock
    rw [blockOf, blockOf, ← hi, List.getElem?_set_self hlt, hblock, Option.getD_some,
      Option.getD_some]
    exact (h.accumulate hn hadd).symm
  · rw [blockOf, blockOf, List.getElem?_set_ne hi]

/-! ## The audit of a rearranged block -/

namespace World

variable [AddCommGroup G1] [AddCommGroup G2] [CommGroup GT] {n : Nat}
  {e : G1 →+ G2 →+ Additive GT} {w : World κ} {fileId : Bytes}

/-- The tags of a run are honest tags of the file's blocks under the metadata it leaves. -/
theorem generateTags_honest (h : lib.Lawful n e) (hw : w.WellFormed)
    {publicParams : DHTDynamicPublicParams G1 G2} {privateParams : DHTDynamicPrivateParams}
    {contents : List Bytes} {selector : Option (List SizeT)} {tags : InMemoryTags G1}
    (htags : (w.generateTags lib (tagsRequest fileId publicParams privateParams
      (fullFile contents) selector)).1 = .ok (some tags))
    {blockIndex : SizeT} {metadata : VersionedBlockMetadata}
    (hmetadata : (w.generateTags lib (tagsRequest fileId publicParams privateParams
      (fullFile contents) selector)).2.metadataAt fileId (blockIndex - 1) =
        some (.versioned metadata))
    {sigma : G1} (hsigma : tags[blockIndex - 1]? = some (.dhtDynamic sigma)) :
    (blockIndex - 1).toNat < contents.length ∧ sigma = honestSigma lib privateParams.a
      publicParams.u fileId blockIndex metadata (blockOf contents blockIndex) := by
  obtain ⟨_, htagged⟩ := generateTags_tagging lib hw
    (tagsRequest fileId publicParams privateParams (fullFile contents) selector)
  obtain ⟨_, _, _, _, _, hacc, hcurrent⟩ := htagged tags htags
  cases hacc.ext
  cases hacc.source
  obtain ⟨metadata', block, sigma', hm, hblock, htag, heq⟩ := hcurrent _ _ hsigma
  obtain rfl := Tag.dhtDynamic.inj heq
  obtain rfl := BlockMetadata.versioned.inj (Option.some.inj (hmetadata.symm.trans hm))
  have hcontent : contents[(blockIndex - 1).toNat]? = some block := by
    have hstart : blockIndex - 1 - (fullFile contents).globalBlockStartIndex = blockIndex - 1 :=
      sub_zero _
    rw [hstart] at hblock
    exact fullFile_block.mp hblock
  rw [sub_add_cancel, h.computeTag] at htag
  refine ⟨(List.getElem?_eq_some_iff.mp hcontent).1, ?_⟩
  rw [blockOf, hcontent, Option.getD_some]
  exact (Except.ok.inj htag).symm

/-- The prover holds the honest tags of a file and, for one block, its segments in another order.
Its proofs are all rejected exactly when none is returned, or the tags at infinity, which the
prover skips, stand for hash points that do not cancel. -/
theorem rearranged_rejected_iff (h : lib.Lawful n e) (he : Nondegenerate e) (hw : w.WellFormed)
    (hfile : fileId ≠ []) (publicParams : DHTDynamicPublicParams G1 G2)
    (privateParams : DHTDynamicPrivateParams)
    (hy : publicParams.y = privateParams.a.value • publicParams.g) (hpk : publicParams.pk ≠ 0)
    (contents : List Bytes) (selector : Option (List SizeT)) (tags : InMemoryTags G1)
    (htags : (w.generateTags lib (tagsRequest fileId publicParams privateParams
      (fullFile contents) selector)).1 = .ok (some tags))
    (challenges : DHTDynamicChallenges G2)
    (hR : challenges.R = challenges.r.value • publicParams.y) (hr : ¬ n ∣ challenges.r.value)
    (hmetadata : ∀ item ∈ challenges.items, (w.generateTags lib (tagsRequest fileId publicParams
      privateParams (fullFile contents) selector)).2.metadataAt fileId (item.blockIndex - 1) =
        some (.versioned item.metadata))
    (p : Nat) (block block' : Bytes) (hblock : contents[p]? = some block)
    (hrearranged : Rearranged block block') :
    (∀ proves ext result, generateProofs lib ⟨.typed ⟨some tags,
          some (fullFile (contents.set p block')), some publicParams⟩, .typed challenges⟩ =
        .ok ⟨some proves, ext⟩ →
      verifyProofs lib ⟨[.typed challenges], [.typed proves],
        .typed ⟨fileId, some publicParams⟩⟩ = .ok result → result.ok = false) ↔
      (∀ item ∈ challenges.items, usableSigma lib tags item = none) ∨
        publicParams.g ≠ 0 ∧
          skippedSum lib privateParams.a fileId tags challenges.items ≠ 0 := by
  have hhonest : ∀ item ∈ challenges.items, ∀ sigma, usableSigma lib tags item = some sigma →
      (item.blockIndex - 1).toNat < contents.length ∧ sigma = honestSigma lib privateParams.a
        publicParams.u fileId item.blockIndex item.metadata
        (blockOf contents item.blockIndex) := by
    intro item hitem sigma hsigma
    obtain ⟨_, htag, _⟩ := h.usableSigma_eq_some_iff.mp hsigma
    exact generateTags_honest h hw htags (hmetadata item hitem) htag
  have hread : Readable lib tags (fullFile (contents.set p block'))
      (blockOf (contents.set p block')) challenges.items := by
    intro item hitem hused
    obtain ⟨sigma, hsigma⟩ := Option.isSome_iff_exists.mp hused
    have hlt := (hhonest item hitem sigma hsigma).1
    rw [← List.length_set (a := block') (i := p)] at hlt
    rw [fullFile_block, blockOf, List.getElem?_eq_getElem hlt, Option.getD_some]
  have hdeviation : usedDeviation lib privateParams.a publicParams.u fileId tags
      (blockOf (contents.set p block')) challenges.items = 0 := by
    apply usedDeviation_eq_zero
    intro item hitem sigma hsigma
    rw [(hhonest item hitem sigma hsigma).2, honestSigma, honestSigma,
      hrearranged.accumulate_set h.prime.pos h.scalarAdd hblock]
  rw [h.audit_rejects_iff he hfile hy hpk hR hr hread, hdeviation]
  exact or_congr_right (and_congr_right fun _ => ne_comm)

/-! ## Two segments that change places -/

/-- A full segment that stands for a small number. -/
def smallSegment (b : UInt8) : Bytes := b :: List.replicate 31 0

theorem rearranged_swap (b b' : UInt8) : Rearranged (smallSegment b ++ smallSegment b')
    (smallSegment b' ++ smallSegment b) := by
  refine ⟨[smallSegment b, smallSegment b'], [smallSegment b', smallSegment b], [], ?_,
    List.Perm.swap _ _ _, by decide, by simp, by simp⟩
  simp [smallSegment, segmentSize]

/-- The run that tags a file of one such block. -/
def swapRequest : GenerateTagsRequest (ZMod 5) (ZMod 5) :=
  tagsRequest [7] unitPublicParams unitPrivateParams
    (fullFile [smallSegment 1 ++ smallSegment 2]) none

/-- The rule for its block with the segments exchanged. -/
theorem rearranged_rejected_iff_swap :
    let lib := zmodLib fun _ => 1
    let tags : InMemoryTags (ZMod 5) := setAll ∅ [(0, .dhtDynamic 4)]
    (∀ proves ext result, generateProofs lib ⟨.typed ⟨some tags,
          some (fullFile [smallSegment 2 ++ smallSegment 1]), some unitPublicParams⟩,
          .typed unitChallenge⟩ = .ok ⟨some proves, ext⟩ →
      verifyProofs lib ⟨[.typed unitChallenge], [.typed proves],
        .typed ⟨[7], some unitPublicParams⟩⟩ = .ok result → result.ok = false) ↔
      (∀ item ∈ unitChallenge.items, usableSigma lib tags item = none) ∨
        unitPublicParams.g ≠ 0 ∧
          skippedSum lib unitPrivateParams.a [7] tags unitChallenge.items ≠ 0 := by
  have hempty : (empty defaultMetadataFactory (Stream'.const 0) : World Empty).WellFormed :=
    .empty _ _
  refine rearranged_rejected_iff (zmodLib_lawful _) zmodPairing_nondegenerate hempty (by decide)
    unitPublicParams unitPrivateParams (by decide) (by decide)
    [smallSegment 1 ++ smallSegment 2] none _ rfl unitChallenge (by decide) (by decide)
    (fun item hitem => ?_) 0 _ _ rfl (rearranged_swap 1 2)
  obtain rfl := List.mem_singleton.mp hitem
  rfl

/-- The proof over the exchanged segments is accepted. -/
theorem swapped_segments_accepted :
    let lib := zmodLib fun _ => 1
    let start : World Empty := empty defaultMetadataFactory (Stream'.const 0)
    let tags : InMemoryTags (ZMod 5) := setAll ∅ [(0, .dhtDynamic 4)]
    (start.generateTags lib swapRequest).1 = .ok (some tags) ∧
      (∀ item ∈ unitChallenge.items, ¬ 5 ∣ item.nu.value ∧
        (start.generateTags lib swapRequest).2.metadataAt [7] (item.blockIndex - 1) =
          some (.versioned item.metadata)) ∧
      unitPublicParams.u ≠ 0 ∧ ¬ 5 ∣ unitChallenge.r.value ∧
      unitChallenge.R = unitChallenge.r.value • unitPublicParams.y ∧
      Rearranged (smallSegment 1 ++ smallSegment 2) (smallSegment 2 ++ smallSegment 1) ∧
      smallSegment 2 ++ smallSegment 1 ≠ smallSegment 1 ++ smallSegment 2 ∧
      ∃ proves ext result, generateProofs lib ⟨.typed ⟨some tags,
          some (fullFile [smallSegment 2 ++ smallSegment 1]), some unitPublicParams⟩,
          .typed unitChallenge⟩ = .ok ⟨some proves, ext⟩ ∧
        verifyProofs lib ⟨[.typed unitChallenge], [.typed proves],
          .typed ⟨[7], some unitPublicParams⟩⟩ = .ok result ∧ result.ok = true := by
  refine ⟨rfl, fun item hitem => ?_, by decide, by decide, by decide, rearranged_swap 1 2,
    by decide, _, _, _, rfl, rfl, rfl⟩
  obtain rfl := List.mem_singleton.mp hitem
  exact ⟨by decide, rfl⟩

end World

end DHTDynamic
