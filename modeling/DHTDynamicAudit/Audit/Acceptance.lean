import DHTDynamicAudit.Audit.Equation

/-!
# What a proof from arbitrary tags and blocks must satisfy

The prover may hold stale, foreign or missing tags. Its proof is accepted
exactly when the deviations of the tags it uses balance the hash points of the
items it skips, or when `g` is at infinity and every pairing is trivial.
-/

namespace DHTDynamic

open Core

variable {G1 G2 GT : Type} [AddCommGroup G1]

/-- `Σ ν_j (σ_j - [a](H_j + [m_j]u))` over the items the prover uses. -/
def usedDeviation (lib : CoreLib G1 G2 GT) (a : SM9CryptoData) (u : G1) (fileId : Bytes)
    (tags : InMemoryTags G1) (content : SizeT → Bytes) (items : List ChallengeItem) : G1 :=
  (items.filterMap fun item => (usableSigma lib tags item).map fun sigma =>
    item.nu.value • (sigma - honestSigma lib a u fileId item.blockIndex item.metadata
      (content item.blockIndex))).sum

/-- `Σ ν_j [a]H_j` over the items the prover skips. -/
def skippedSum (lib : CoreLib G1 G2 GT) (a : SM9CryptoData) (fileId : Bytes)
    (tags : InMemoryTags G1) (items : List ChallengeItem) : G1 :=
  ((items.filter fun item => (usableSigma lib tags item).isNone).map fun item =>
    item.nu.value • a.value • computeBlockHash lib fileId item.blockIndex item.metadata).sum

/-- Honest tags do not deviate. -/
theorem usedDeviation_eq_zero {lib : CoreLib G1 G2 GT} {a : SM9CryptoData} {u : G1}
    {fileId : Bytes} {tags : InMemoryTags G1} {content : SizeT → Bytes}
    {items : List ChallengeItem}
    (h : ∀ item ∈ items, ∀ sigma, usableSigma lib tags item = some sigma →
      sigma = honestSigma lib a u fileId item.blockIndex item.metadata (content item.blockIndex)) :
    usedDeviation lib a u fileId tags content items = 0 := by
  apply List.sum_eq_zero
  intro term hterm
  obtain ⟨item, hitem, hmap⟩ := List.mem_filterMap.mp hterm
  obtain ⟨sigma, hsigma, rfl⟩ := Option.map_eq_some_iff.mp hmap
  rw [h item hitem sigma hsigma, sub_self, smul_zero]

/-- The deviation of a challenge splits into its used and its skipped items. -/
theorem deviationSum_eq_sub (lib : CoreLib G1 G2 GT) (a : SM9CryptoData) (u : G1)
    (fileId : Bytes) (tags : InMemoryTags G1) (content : SizeT → Bytes)
    (items : List ChallengeItem) : deviationSum lib a u fileId tags content items =
      usedDeviation lib a u fileId tags content items - skippedSum lib a fileId tags items := by
  induction items with
  | nil => simp [deviationSum, usedDeviation, skippedSum]
  | cons item items ih =>
    simp only [deviationSum, List.map_cons, List.sum_cons] at ih ⊢
    rw [ih]
    cases hsigma : usableSigma lib tags item with
    | none =>
      simp only [usedDeviation, skippedSum, expectedSigma, hsigma, List.filterMap_cons,
        List.filter_cons, Option.map_none, Option.isNone_none, Option.isSome_none, if_true,
        Bool.false_eq_true, if_false, Option.getD_none, List.map_cons, List.sum_cons]
      module
    | some sigma =>
      simp only [usedDeviation, skippedSum, expectedSigma, hsigma, List.filterMap_cons,
        List.filter_cons, Option.map_some, Option.isNone_some, Option.isSome_some, if_true,
        Bool.false_eq_true, if_false, Option.getD_some, List.sum_cons]
      module

variable [AddCommGroup G2] [CommGroup GT] {lib : CoreLib G1 G2 GT} {n : Nat}
  {e : G1 →+ G2 →+ Additive GT}

/-- The items the prover uses: a positive index, a tag of its own class, not at infinity. -/
theorem CoreLib.Lawful.usableSigma_eq_some_iff (h : lib.Lawful n e) {tags : InMemoryTags G1}
    {item : ChallengeItem} {sigma : G1} : usableSigma lib tags item = some sigma ↔
      item.blockIndex ≠ 0 ∧ tags[item.blockIndex - 1]? = some (.dhtDynamic sigma) ∧ sigma ≠ 0 := by
  unfold usableSigma
  split_ifs with hz
  · simp [hz]
  · cases htag : tags[item.blockIndex - 1]? with
    | none => simp
    | some tag =>
      cases tag with
      | foreign => simp
      | dhtDynamic sigma' =>
        by_cases hinf : lib.g1IsInfinity sigma' = true
        · have hzero := (h.g1IsInfinity sigma').mp hinf
          simp only [hinf, if_true]
          constructor
          · intro hnone
            cases hnone
          · rintro ⟨_, hsome, hne⟩
            obtain rfl := Tag.dhtDynamic.inj (Option.some.inj hsome)
            exact absurd hzero hne
        · have hne : sigma' ≠ 0 := fun hzero => hinf ((h.g1IsInfinity sigma').mpr hzero)
          simp only [hinf, Bool.false_eq_true, if_false, Option.some.injEq, Tag.dhtDynamic.injEq]
          constructor
          · rintro rfl
            exact ⟨hz, rfl, hne⟩
          · exact fun hsome => hsome.2.1

/-- With a usable item the proof is accepted exactly when `g` is at infinity or the used deviations
equal the skipped hash points. -/
theorem CoreLib.Lawful.audit_accepts_iff (h : lib.Lawful n e) (he : Nondegenerate e)
    {fileId : Bytes} (hfile : fileId ≠ []) {a : SM9CryptoData}
    {publicParams : DHTDynamicPublicParams G1 G2} (hy : publicParams.y = a.value • publicParams.g)
    (hpk : publicParams.pk ≠ 0) {challenges : DHTDynamicChallenges G2}
    (hR : challenges.R = challenges.r.value • publicParams.y) (hr : ¬ n ∣ challenges.r.value)
    {tags : InMemoryTags G1} {blocks : AuditBlockSource} {content : SizeT → Bytes}
    (hread : Readable lib tags blocks content challenges.items)
    (hsome : ∃ item ∈ challenges.items, (usableSigma lib tags item).isSome) :
    ∃ proves ext result, generateProofs lib ⟨.typed ⟨some tags, some blocks, some publicParams⟩,
          .typed challenges⟩ = .ok ⟨some proves, ext⟩ ∧
      DHTDynamic.verifyProofs lib ⟨[.typed challenges], [.typed proves],
        .typed ⟨fileId, some publicParams⟩⟩ = .ok result ∧
      (result.ok = true ↔ publicParams.g = 0 ∨
        usedDeviation lib a publicParams.u fileId tags content challenges.items =
          skippedSum lib a fileId tags challenges.items) := by
  obtain ⟨proves, result, hprove, hverify, hok⟩ := h.audit_ok_iff hfile hy hpk hR hread hsome
  refine ⟨proves, _, result, hprove, hverify, hok.trans ?_⟩
  rw [pairing_eq_zero_iff h.prime h.card_g1 h.card_g2 he,
    nsmul_eq_zero_iff_of_prime h.prime h.card_g2, or_iff_right hr, deviationSum_eq_sub,
    sub_eq_zero]
  exact or_comm

/-- Every proof that is returned is rejected exactly when none is returned, or `g` is not at
infinity and the used deviations differ from the skipped hash points. -/
theorem CoreLib.Lawful.audit_rejects_iff (h : lib.Lawful n e) (he : Nondegenerate e)
    {fileId : Bytes} (hfile : fileId ≠ []) {a : SM9CryptoData}
    {publicParams : DHTDynamicPublicParams G1 G2} (hy : publicParams.y = a.value • publicParams.g)
    (hpk : publicParams.pk ≠ 0) {challenges : DHTDynamicChallenges G2}
    (hR : challenges.R = challenges.r.value • publicParams.y) (hr : ¬ n ∣ challenges.r.value)
    {tags : InMemoryTags G1} {blocks : AuditBlockSource} {content : SizeT → Bytes}
    (hread : Readable lib tags blocks content challenges.items) :
    (∀ proves ext result, generateProofs lib ⟨.typed ⟨some tags, some blocks, some publicParams⟩,
          .typed challenges⟩ = .ok ⟨some proves, ext⟩ →
      DHTDynamic.verifyProofs lib ⟨[.typed challenges], [.typed proves],
        .typed ⟨fileId, some publicParams⟩⟩ = .ok result → result.ok = false) ↔
      (∀ item ∈ challenges.items, usableSigma lib tags item = none) ∨ publicParams.g ≠ 0 ∧
        usedDeviation lib a publicParams.u fileId tags content challenges.items ≠
          skippedSum lib a fileId tags challenges.items := by
  rcases exists_usable_or_none lib tags challenges.items with hsome | hnone
  · obtain ⟨proves, ext, result, hprove, hverify, hok⟩ :=
      h.audit_accepts_iff he hfile hy hpk hR hr hread hsome
    have hused : ¬ ∀ item ∈ challenges.items, usableSigma lib tags item = none := by
      intro hnone
      obtain ⟨item, hitem, hsigma⟩ := hsome
      rw [hnone item hitem] at hsigma
      cases hsigma
    rw [or_iff_right hused, ← not_or, ← hok, Bool.not_eq_true]
    constructor
    · exact fun hrejected => hrejected proves ext result hprove hverify
    · intro hfalse proves' ext' result' hprove' hverify'
      cases hprove.symm.trans hprove'
      cases hverify.symm.trans hverify'
      exact hfalse
  · refine iff_of_true (fun proves ext result hprove _ => ?_) (Or.inl hnone)
    rw [h.generateProofs_none hread hnone] at hprove
    cases hprove

/-- What the verifier answers to the proof of a prover with any tags and blocks. Without a usable
item there is no proof; otherwise it is accepted exactly when `g` is at infinity or the used
deviations equal the skipped hash points. -/
theorem verifyProofs_generateProofs_iff (h : lib.Lawful n e) (he : Nondegenerate e)
    (fileId : Bytes) (hfile : fileId ≠ []) (a : SM9CryptoData)
    (publicParams : DHTDynamicPublicParams G1 G2) (hy : publicParams.y = a.value • publicParams.g)
    (hpk : publicParams.pk ≠ 0) (challenges : DHTDynamicChallenges G2)
    (hR : challenges.R = challenges.r.value • publicParams.y) (hr : ¬ n ∣ challenges.r.value)
    (tags : InMemoryTags G1) (blocks : AuditBlockSource) (content : SizeT → Bytes)
    (hread : Readable lib tags blocks content challenges.items) :
    ((∀ item ∈ challenges.items, usableSigma lib tags item = none) →
      ∃ ext, generateProofs lib ⟨.typed ⟨some tags, some blocks, some publicParams⟩,
        .typed challenges⟩ = .ok ⟨none, ext⟩) ∧
    ((∃ item ∈ challenges.items, (usableSigma lib tags item).isSome) →
      ∃ proves ext result, generateProofs lib ⟨.typed ⟨some tags, some blocks,
          some publicParams⟩, .typed challenges⟩ = .ok ⟨some proves, ext⟩ ∧
        verifyProofs lib ⟨[.typed challenges], [.typed proves],
          .typed ⟨fileId, some publicParams⟩⟩ = .ok result ∧
        (result.ok = true ↔ publicParams.g = 0 ∨
          usedDeviation lib a publicParams.u fileId tags content challenges.items =
            skippedSum lib a fileId tags challenges.items)) :=
  ⟨fun hnone => ⟨.null, h.generateProofs_none hread hnone⟩,
    fun hsome => h.audit_accepts_iff he hfile hy hpk hR hr hread hsome⟩

/-- A used and a skipped item, a stale tag, and `g` a generator. -/
theorem verifyProofs_generateProofs_iff_mixed :
    let lib := zmodLib fun input => input.length
    let publicParams : DHTDynamicPublicParams (ZMod 5) (ZMod 5) := ⟨1, 1, 2, 1⟩
    let challenges : DHTDynamicChallenges (ZMod 5) :=
      { R := 1, r := .ofUInt64 3
        items := [{ blockIndex := 1, nu := .ofUInt64 1 }, { blockIndex := 2, nu := .ofUInt64 2 }] }
    let tags : InMemoryTags (ZMod 5) := Core.setAll ∅ [(0, .dhtDynamic 4), (1, .foreign)]
    let blocks : AuditBlockSource := ⟨0, 2, fun _ => .ok [1]⟩
    ∃ proves ext result, generateProofs lib ⟨.typed ⟨some tags, some blocks,
        some publicParams⟩, .typed challenges⟩ = .ok ⟨some proves, ext⟩ ∧
      verifyProofs lib ⟨[.typed challenges], [.typed proves],
        .typed ⟨[7], some publicParams⟩⟩ = .ok result ∧
      (result.ok = true ↔ publicParams.g = 0 ∨
        usedDeviation lib (.ofUInt64 2) publicParams.u [7] tags (fun _ => [1]) challenges.items =
          skippedSum lib (.ofUInt64 2) [7] tags challenges.items) := by
  intro lib publicParams challenges tags blocks
  have hread : Readable lib tags blocks (fun _ => [1]) challenges.items := fun _ _ _ => rfl
  exact (verifyProofs_generateProofs_iff (zmodLib_lawful _) zmodPairing_nondegenerate [7]
    (by decide) (.ofUInt64 2) publicParams (by decide) (by decide) challenges (by decide)
    (by decide) tags blocks (fun _ => [1]) hread).2 (by decide)

/-- With `g` at infinity a wrong tag is accepted although the sums differ. -/
theorem verifyProofs_accepts_at_infinity :
    let lib := zmodLib fun _ => 1
    let publicParams : DHTDynamicPublicParams (ZMod 5) (ZMod 5) := ⟨1, 0, 0, 1⟩
    let a := SM9CryptoData.ofUInt64 1
    let challenges : DHTDynamicChallenges (ZMod 5) :=
      { R := 0, r := .ofUInt64 1, items := [{ blockIndex := 1, nu := .ofUInt64 1 }] }
    let tags : InMemoryTags (ZMod 5) := Core.setAll ∅ [(0, .dhtDynamic 1)]
    let blocks : AuditBlockSource := ⟨0, 1, fun _ => .ok [1]⟩
    publicParams.y = a.value • publicParams.g ∧ publicParams.pk ≠ 0 ∧
      challenges.R = challenges.r.value • publicParams.y ∧ ¬ 5 ∣ challenges.r.value ∧
      (∃ proves ext result, generateProofs lib ⟨.typed ⟨some tags, some blocks,
          some publicParams⟩, .typed challenges⟩ = .ok ⟨some proves, ext⟩ ∧
        verifyProofs lib ⟨[.typed challenges], [.typed proves],
          .typed ⟨[7], some publicParams⟩⟩ = .ok result ∧ result.ok = true) ∧
      usedDeviation lib a publicParams.u [7] tags (fun _ => [1]) challenges.items ≠
        skippedSum lib a [7] tags challenges.items := by
  refine ⟨by decide, by decide, by decide, by decide, ⟨_, _, _, rfl, rfl, rfl⟩, by decide⟩

end DHTDynamic
