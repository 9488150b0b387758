import Mathlib.Data.ZMod.Basic
import Mathlib.Tactic.Module
import DHTDynamicAudit.Core.Pairing
import DHTDynamicAudit.Strategy.Proofs
import DHTDynamicAudit.Strategy.Tags

/-!
# The audit equation

Under the laws of the library the prover's loop, the verifier's loop and the tag
of a block are sums in `G₁`. The verifier accepts the prover's output exactly
when the weighted deviations of the used tags pair to zero with `[r]g`.
-/

namespace DHTDynamic

open Core

variable {G1 G2 GT : Type}

/-- A challenge has a usable item or none at all. -/
theorem exists_usable_or_none (lib : CoreLib G1 G2 GT) (tags : InMemoryTags G1)
    (items : List ChallengeItem) : (∃ item ∈ items, (usableSigma lib tags item).isSome) ∨
      ∀ item ∈ items, usableSigma lib tags item = none := by
  by_cases hsome : ∃ item ∈ items, (usableSigma lib tags item).isSome
  · exact Or.inl hsome
  · refine Or.inr fun item hitem => ?_
    apply Option.not_isSome_iff_eq_none.mp
    exact fun hused => hsome ⟨item, hitem, hused⟩

variable [AddCommGroup G1]

/-! ## Sums over a challenge -/

/-- The point an honest tag of a block is: `[a](H + [m]u)`. -/
def honestSigma (lib : CoreLib G1 G2 GT) (a : SM9CryptoData) (u : G1) (fileId : Bytes)
    (blockIndex : SizeT) (metadata : VersionedBlockMetadata) (block : Bytes) : G1 :=
  a.value • (computeBlockHash lib fileId blockIndex metadata +
    (accumulateBlockSegmentsScalar lib block).value • u)

/-- `Σ ν_j H_j` over the items of a challenge. -/
def hashSum (lib : CoreLib G1 G2 GT) (fileId : Bytes) (items : List ChallengeItem) : G1 :=
  (items.map fun item =>
    item.nu.value • computeBlockHash lib fileId item.blockIndex item.metadata).sum

/-- `Σ ν_j σ_j` over the items the prover uses. -/
def sigmaSum (lib : CoreLib G1 G2 GT) (tags : InMemoryTags G1) (items : List ChallengeItem) : G1 :=
  (items.map fun item => item.nu.value • ((usableSigma lib tags item).getD 0)).sum

/-- `Σ ν_j m_j` over the items the prover uses, before reduction. -/
def scalarSum (lib : CoreLib G1 G2 GT) (tags : InMemoryTags G1) (content : SizeT → Bytes)
    (items : List ChallengeItem) : Nat :=
  (items.map fun item => if (usableSigma lib tags item).isSome then
    item.nu.value * (accumulateBlockSegmentsScalar lib (content item.blockIndex)).value
    else 0).sum

/-- The blocks of all used items can be read, as `content` by 1-based index. -/
def Readable (lib : CoreLib G1 G2 GT) (tags : InMemoryTags G1) (blocks : AuditBlockSource)
    (content : SizeT → Bytes) (items : List ChallengeItem) : Prop :=
  ∀ item ∈ items, (usableSigma lib tags item).isSome →
    blocks.block (item.blockIndex - 1) = .ok (content item.blockIndex)

/-- The point an item should contribute: the honest tag if it is used, `[a]H` if it is skipped. -/
def expectedSigma (lib : CoreLib G1 G2 GT) (a : SM9CryptoData) (u : G1) (fileId : Bytes)
    (tags : InMemoryTags G1) (content : SizeT → Bytes) (item : ChallengeItem) : G1 :=
  if (usableSigma lib tags item).isSome then
    honestSigma lib a u fileId item.blockIndex item.metadata (content item.blockIndex)
  else a.value • computeBlockHash lib fileId item.blockIndex item.metadata

/-- `Σ ν_j (σ_j - expected_j)`, a skipped item counting as the point at infinity. -/
def deviationSum (lib : CoreLib G1 G2 GT) (a : SM9CryptoData) (u : G1) (fileId : Bytes)
    (tags : InMemoryTags G1) (content : SizeT → Bytes) (items : List ChallengeItem) : G1 :=
  (items.map fun item => item.nu.value • ((usableSigma lib tags item).getD 0 -
    expectedSigma lib a u fileId tags content item)).sum

/-- The deviations add up to the tags minus `[a]` of the message and hash sums. -/
theorem deviationSum_eq (lib : CoreLib G1 G2 GT) (a : SM9CryptoData) (u : G1) (fileId : Bytes)
    (tags : InMemoryTags G1) (content : SizeT → Bytes) (items : List ChallengeItem) :
    deviationSum lib a u fileId tags content items = sigmaSum lib tags items -
      a.value • (scalarSum lib tags content items • u + hashSum lib fileId items) := by
  induction items with
  | nil => simp [deviationSum, sigmaSum, scalarSum, hashSum]
  | cons item items ih =>
    simp only [deviationSum, sigmaSum, scalarSum, hashSum, List.map_cons, List.sum_cons] at ih ⊢
    rw [ih]
    cases hsigma : usableSigma lib tags item with
    | none =>
      simp only [expectedSigma, hsigma, Option.isSome_none, Bool.false_eq_true, if_false,
        Option.getD_none]
      module
    | some sigma =>
      simp only [expectedSigma, honestSigma, hsigma, Option.isSome_some, if_true,
        Option.getD_some]
      module

/-! ## The laws of the library -/

variable [AddCommGroup G2] [CommGroup GT]

/-- What the strategy relies on: groups of prime order `n` on which scalars act modulo `n`, a
total bilinear pairing, scalar arithmetic modulo `n`, and operators that return no null. -/
structure CoreLib.Lawful (lib : CoreLib G1 G2 GT) (n : Nat) (e : G1 →+ G2 →+ Additive GT) :
    Prop where
  prime : n.Prime
  card_g1 : Nat.card G1 = n
  card_g2 : Nat.card G2 = n
  card_gt : Nat.card GT = n
  g1Infinity : lib.g1Infinity = 0
  g1IsInfinity : ∀ P, lib.g1IsInfinity P = true ↔ P = 0
  g1Add : ∀ P Q, lib.g1Add P Q = some (P + Q)
  g1Mul : ∀ P k, lib.g1Mul P k = some (k.value • P)
  g2IsInfinity : ∀ Q, lib.g2IsInfinity Q = true ↔ Q = 0
  g2Mul : ∀ Q k, lib.g2Mul Q k = some (k.value • Q)
  pairing : ∀ P Q, lib.pairing P Q = some (e P Q).toMul
  gtOne : lib.gtOne = 1
  gtMul : ∀ x y, lib.gtMul x y = some (x * y)
  gtPow : ∀ x k, lib.gtPow x k = some (x ^ k.value)
  gtEq : ∀ x y, lib.gtEq x y = true ↔ x = y
  scalarAdd : ∀ x y, ∃ z, lib.scalarAdd x y = some z ∧ z.value = (x.value + y.value) % n
  scalarMul : ∀ x y, ∃ z, lib.scalarMul x y = some z ∧ z.value = (x.value * y.value) % n

variable {lib : CoreLib G1 G2 GT} {n : Nat} {e : G1 →+ G2 →+ Additive GT}

/-! ## Tags -/

/-- `computeTag` computes the honest tag. -/
theorem CoreLib.Lawful.computeTag (h : lib.Lawful n e) (a : SM9CryptoData) (u : G1)
    (fileId : Bytes) (blockIndex : SizeT) (metadata : VersionedBlockMetadata) (block : Bytes) :
    computeTag lib a u fileId blockIndex metadata block =
      .ok (honestSigma lib a u fileId blockIndex metadata block) := by
  simp only [DHTDynamic.computeTag, accumulateBlockSegmentsG1, h.g1Mul, h.g1Add, deref_some]
  rfl

/-! ## The verifier's sum -/

theorem CoreLib.Lawful.forEach_hashOne (h : lib.Lawful n e) (fileId : Bytes)
    (items : List ChallengeItem) (H : G1) (flag : Bool) :
    forEach (hashOne lib fileId) (H, flag) items =
      (.ok (), H + hashSum lib fileId items, flag || !items.isEmpty) := by
  induction items generalizing H flag with
  | nil => simp [hashSum]
  | cons item items ih =>
    have hstep : hashOne lib fileId (H, flag) item = (.ok (), H + item.nu.value •
        computeBlockHash lib fileId item.blockIndex item.metadata, true) := by
      simp only [hashOne, h.g1Mul, h.g1Add]
    rw [forEach_cons_ok hstep, ih]
    simp [hashSum, add_assoc]

/-- With parameters in order the verifier's answer is that of the equation. -/
theorem CoreLib.Lawful.verifyProofs (h : lib.Lawful n e) {fileId : Bytes} (hfile : fileId ≠ [])
    {publicParams : DHTDynamicPublicParams G1 G2} (hpk : publicParams.pk ≠ 0)
    {challenges : DHTDynamicChallenges G2} (hitems : challenges.items ≠ [])
    (proves : DHTDynamicProves GT) :
    ∃ result, verifyProofs lib ⟨[.typed challenges], [.typed proves],
        .typed ⟨fileId, some publicParams⟩⟩ = .ok result ∧
      (result.ok = true ↔ proves.theta ^ challenges.r.value =
        proves.lambda * (e (hashSum lib fileId challenges.items) challenges.R).toMul) := by
  have hpk' : lib.g2IsInfinity publicParams.pk ≠ true :=
    fun hinf => hpk ((h.g2IsInfinity _).mp hinf)
  have hsum := h.forEach_hashOne fileId challenges.items 0 false
  rw [zero_add] at hsum
  have hflag : (!challenges.items.isEmpty) = true := by simpa using hitems
  simp only [DHTDynamic.verifyProofs, BasePtr.cast, List.isEmpty_iff, hfile, hitems, hpk', if_false,
    h.g1Infinity, hsum, hflag, Bool.false_or, Bool.not_true, Bool.false_eq_true, checkEquation,
    h.gtPow, h.pairing, h.gtMul, ← h.gtEq]
  refine ⟨_, rfl, ?_⟩
  split_ifs with heq <;> simp [heq]

/-! ## The prover's sums -/

/-- One pass over a used item adds its terms. -/
theorem CoreLib.Lawful.proveOne_used (h : lib.Lawful n e) (g : G2) {tags : InMemoryTags G1}
    {blocks : AuditBlockSource} {item : ChallengeItem} {sigma : G1} {block : Bytes}
    (hsigma : usableSigma lib tags item = some sigma)
    (hblock : blocks.block (item.blockIndex - 1) = .ok block) (acc : Accumulator GT) :
    ∃ M : SM9CryptoData, proveOne lib g tags blocks acc item =
        (.ok (), ⟨acc.Theta * (item.nu.value • e sigma g).toMul, M, true⟩) ∧
      ∀ P : G1, M.value • P = (acc.M.value +
        item.nu.value * (accumulateBlockSegmentsScalar lib block).value) • P := by
  obtain ⟨nuM, hmul, hnuM⟩ := h.scalarMul item.nu (accumulateBlockSegmentsScalar lib block)
  obtain ⟨M, hadd, hM⟩ := h.scalarAdd acc.M nuM
  refine ⟨M, ?_, fun P => ?_⟩
  · simp only [proveOne, hsigma, h.pairing, h.gtPow, h.gtMul, AuditBlockSource.read, hblock,
      accumulateM, hmul, hadd, deref_some, Option.getD_some]
    rfl
  · rw [hM, hnuM, mod_nsmul h.card_g1, add_nsmul, mod_nsmul h.card_g1, add_nsmul]

/-- The prover's loop: `Θ`, `M` and whether any item was used. -/
theorem CoreLib.Lawful.forEach_proveOne (h : lib.Lawful n e) (g : G2) {tags : InMemoryTags G1}
    {blocks : AuditBlockSource} {content : SizeT → Bytes} {items : List ChallengeItem}
    (hread : Readable lib tags blocks content items) (acc : Accumulator GT) :
    ∃ M : SM9CryptoData, forEach (proveOne lib g tags blocks) acc items =
        (.ok (), ⟨acc.Theta * (e (sigmaSum lib tags items) g).toMul, M,
          acc.accumulated || items.any fun item => (usableSigma lib tags item).isSome⟩) ∧
      ∀ P : G1, M.value • P = (acc.M.value + scalarSum lib tags content items) • P := by
  induction items generalizing acc with
  | nil => exact ⟨acc.M, by simp [sigmaSum], fun P => by simp [scalarSum]⟩
  | cons item items ih =>
    have hrest : Readable lib tags blocks content items :=
      fun j hj => hread j (List.mem_cons_of_mem item hj)
    cases hsigma : usableSigma lib tags item with
    | none =>
      have hskip : proveOne lib g tags blocks acc item = (.ok (), acc) := by
        simp only [proveOne, hsigma]
      obtain ⟨M, hloop, hM⟩ := ih hrest acc
      refine ⟨M, ?_, fun P => ?_⟩
      · rw [forEach_cons_ok hskip, hloop]
        simp [sigmaSum, hsigma]
      · rw [hM]
        simp [scalarSum, hsigma]
    | some sigma =>
      have hblock := hread item List.mem_cons_self (Option.isSome_of_eq_some hsigma)
      obtain ⟨M, hpass, hM⟩ := h.proveOne_used g hsigma hblock acc
      obtain ⟨M', hloop, hM'⟩ := ih hrest ⟨acc.Theta * (item.nu.value • e sigma g).toMul, M, true⟩
      refine ⟨M', ?_, fun P => ?_⟩
      · rw [forEach_cons_ok hpass, hloop]
        simp [sigmaSum, hsigma, mul_assoc]
      · rw [hM', add_nsmul, hM]
        simp [scalarSum, hsigma, add_nsmul, add_assoc]

/-! ## Acceptance -/

/-- Without a usable item the prover returns no proof. -/
theorem CoreLib.Lawful.generateProofs_none (h : lib.Lawful n e)
    {publicParams : DHTDynamicPublicParams G1 G2} {challenges : DHTDynamicChallenges G2}
    {tags : InMemoryTags G1} {blocks : AuditBlockSource} {content : SizeT → Bytes}
    (hread : Readable lib tags blocks content challenges.items)
    (hnone : ∀ item ∈ challenges.items, usableSigma lib tags item = none) :
    generateProofs lib ⟨.typed ⟨some tags, some blocks, some publicParams⟩, .typed challenges⟩ =
      .ok {} := by
  obtain ⟨M, hloop, _⟩ := h.forEach_proveOne publicParams.g hread
    ⟨lib.gtOne, SM9CryptoData.ofUInt64 0, false⟩
  have hany : (challenges.items.any fun item => (usableSigma lib tags item).isSome) = false := by
    rw [List.any_eq_false]
    intro item hitem
    simp [hnone item hitem]
  simp only [generateProofs, BasePtr.cast, hloop, hany]
  simp

/-- With a usable item the prover returns the pairing of the weighted tags with `g` and that of the
weighted contents with `R`. -/
theorem CoreLib.Lawful.generateProofs_some (h : lib.Lawful n e)
    {publicParams : DHTDynamicPublicParams G1 G2} {challenges : DHTDynamicChallenges G2}
    {tags : InMemoryTags G1} {blocks : AuditBlockSource} {content : SizeT → Bytes}
    (hread : Readable lib tags blocks content challenges.items)
    (hsome : ∃ item ∈ challenges.items, (usableSigma lib tags item).isSome) :
    generateProofs lib ⟨.typed ⟨some tags, some blocks, some publicParams⟩, .typed challenges⟩ =
      .ok ⟨some ⟨(e (sigmaSum lib tags challenges.items) publicParams.g).toMul,
        (e (scalarSum lib tags content challenges.items • publicParams.u) challenges.R).toMul⟩,
        .typed ⟨some tags, some blocks, some publicParams⟩⟩ := by
  obtain ⟨M, hloop, hM⟩ := h.forEach_proveOne publicParams.g hread
    ⟨lib.gtOne, SM9CryptoData.ofUInt64 0, false⟩
  have hany : (challenges.items.any fun item => (usableSigma lib tags item).isSome) = true := by
    rw [List.any_eq_true]
    exact hsome
  have hitems : challenges.items ≠ [] := by
    obtain ⟨item, hitem, _⟩ := hsome
    exact List.ne_nil_of_mem hitem
  have hlambda : (e publicParams.u challenges.R).toMul ^ M.value =
      (e (scalarSum lib tags content challenges.items • publicParams.u) challenges.R).toMul := by
    rw [← toMul_nsmul, ← AddMonoidHom.nsmul_apply, ← map_nsmul, hM]
    simp
  simp only [generateProofs, BasePtr.cast, hloop, hany, h.pairing, h.gtPow, Option.getD_some]
  rw [hlambda, h.gtOne, one_mul]
  simp [hitems]

/-- The acceptance rule: with a usable item the prover returns a proof, and the verifier accepts
it exactly when the weighted deviations pair to zero with `[r]g`. -/
theorem CoreLib.Lawful.audit_ok_iff (h : lib.Lawful n e) {fileId : Bytes} (hfile : fileId ≠ [])
    {a : SM9CryptoData} {publicParams : DHTDynamicPublicParams G1 G2}
    (hy : publicParams.y = a.value • publicParams.g) (hpk : publicParams.pk ≠ 0)
    {challenges : DHTDynamicChallenges G2}
    (hR : challenges.R = challenges.r.value • publicParams.y)
    {tags : InMemoryTags G1} {blocks : AuditBlockSource} {content : SizeT → Bytes}
    (hread : Readable lib tags blocks content challenges.items)
    (hsome : ∃ item ∈ challenges.items, (usableSigma lib tags item).isSome) :
    ∃ proves result, generateProofs lib ⟨.typed ⟨some tags, some blocks, some publicParams⟩,
          .typed challenges⟩ = .ok ⟨some proves, .typed ⟨some tags, some blocks,
            some publicParams⟩⟩ ∧
      DHTDynamic.verifyProofs lib ⟨[.typed challenges], [.typed proves],
        .typed ⟨fileId, some publicParams⟩⟩ = .ok result ∧
      (result.ok = true ↔ e (deviationSum lib a publicParams.u fileId tags content
        challenges.items) (challenges.r.value • publicParams.g) = 0) := by
  have hitems : challenges.items ≠ [] := by
    obtain ⟨item, hitem, _⟩ := hsome
    exact List.ne_nil_of_mem hitem
  obtain ⟨result, hverify, hok⟩ := h.verifyProofs hfile hpk hitems
    ⟨(e (sigmaSum lib tags challenges.items) publicParams.g).toMul,
      (e (scalarSum lib tags content challenges.items • publicParams.u) challenges.R).toMul⟩
  refine ⟨_, result, h.generateProofs_some hread hsome, hverify, hok.trans ?_⟩
  -- both sides as pairings with `[r]g`
  have hright : ∀ P : G1, e P challenges.R =
      e (a.value • P) (challenges.r.value • publicParams.g) := by
    intro P
    rw [hR, hy, smul_comm, map_nsmul, map_nsmul e, AddMonoidHom.nsmul_apply]
  rw [← toMul_nsmul, ← toMul_add, ← AddMonoidHom.add_apply, ← map_add, hright, ← map_nsmul,
    Additive.toMul.injective.eq_iff, deviationSum_eq, map_sub, AddMonoidHom.sub_apply, sub_eq_zero]

/-! ## A small instance -/

/-- The residues modulo five under multiplication as the pairing, with any hash. -/
def zmodLib (hash : Bytes → ZMod 5) : CoreLib (ZMod 5) (ZMod 5) (Multiplicative (ZMod 5)) where
  hashToCurve := hash
  g1Infinity := 0
  g1IsInfinity P := P == 0
  g1Generator := 1
  g1Add P Q := some (P + Q)
  g1Mul P k := some (k.value • P)
  g2Default := 0
  g2IsInfinity Q := Q == 0
  g2FromScalar k := k.value • 1
  g2Mul Q k := some (k.value • Q)
  pairing P Q := some (Multiplicative.ofAdd (P * Q))
  gtOne := 1
  gtMul x y := some (x * y)
  gtPow x k := some (x ^ k.value)
  gtEq x y := x == y
  scalarDefault := SM9CryptoData.ofUInt64 0
  isZero x := x.value == 0
  scalarAdd x y :=
    some ⟨(x.value + y.value) % 5, Nat.lt_trans (Nat.mod_lt _ (by decide)) (by decide)⟩
  scalarMul x y :=
    some ⟨(x.value * y.value) % 5, Nat.lt_trans (Nat.mod_lt _ (by decide)) (by decide)⟩

/-- Its pairing as a biadditive map. -/
def zmodPairing : ZMod 5 →+ ZMod 5 →+ Additive (Multiplicative (ZMod 5)) :=
  (AddMonoidHom.compHom (AddEquiv.additiveMultiplicative (ZMod 5)).symm.toAddMonoidHom).comp
    AddMonoidHom.mul

theorem zmodLib_lawful (hash : Bytes → ZMod 5) : (zmodLib hash).Lawful 5 zmodPairing where
  prime := by decide
  card_g1 := Nat.card_zmod 5
  card_g2 := Nat.card_zmod 5
  card_gt := Nat.card_zmod 5
  g1Infinity := rfl
  g1IsInfinity P := beq_iff_eq
  g1Add _ _ := rfl
  g1Mul _ _ := rfl
  g2IsInfinity Q := beq_iff_eq
  g2Mul _ _ := rfl
  pairing _ _ := rfl
  gtOne := rfl
  gtMul _ _ := rfl
  gtPow _ _ := rfl
  gtEq _ _ := beq_iff_eq
  scalarAdd _ _ := ⟨_, rfl, rfl⟩
  scalarMul _ _ := ⟨_, rfl, rfl⟩

theorem zmodPairing_nondegenerate : Nondegenerate zmodPairing := ⟨1, 1, by decide⟩

end DHTDynamic
