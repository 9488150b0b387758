import Mathlib.Data.List.ReduceOption
import DHTDynamicAudit.Audit.Completeness

/-!
# Audits in parts

Challenges under one `R` and `r` can be answered in parts. The proofs of the
parts multiply up to the proof of all their items, in any order, and the
verifier's answers compose the same way.
-/

namespace DHTDynamic

open Core

variable {G1 G2 GT : Type}

/-- The challenge asks for the items of all the parts, in some order, under their `R` and `r`. -/
structure Joins (parts : List (DHTDynamicChallenges G2)) (joined : DHTDynamicChallenges G2) :
    Prop where
  items : joined.items.Perm (parts.flatMap (·.items))
  R : ∀ part ∈ parts, part.R = joined.R
  r : ∀ part ∈ parts, part.r = joined.r

/-- The verifier accepts the proof for a file. -/
def Accepts (lib : CoreLib G1 G2 GT) (publicParams : DHTDynamicPublicParams G1 G2)
    (fileId : Bytes) (challenges : DHTDynamicChallenges G2) (proves : DHTDynamicProves GT) :
    Prop :=
  ∃ result, verifyProofs lib ⟨[.typed challenges], [.typed proves],
    .typed ⟨fileId, some publicParams⟩⟩ = .ok result ∧ result.ok = true

/-- The prover answers the challenge with this proof, or with none. -/
def Proves (lib : CoreLib G1 G2 GT) (publicParams : DHTDynamicPublicParams G1 G2)
    (tags : InMemoryTags G1) (blocks : AuditBlockSource) (challenges : DHTDynamicChallenges G2)
    (proof : Option (DHTDynamicProves GT)) : Prop :=
  ∃ ext, generateProofs lib ⟨.typed ⟨some tags, some blocks, some publicParams⟩,
    .typed challenges⟩ = .ok ⟨proof, ext⟩

section Product

variable [CommGroup GT]

/-- The component-wise product of proofs. -/
def DHTDynamicProves.product (proofs : List (DHTDynamicProves GT)) : DHTDynamicProves GT :=
  ⟨(proofs.map (·.theta)).prod, (proofs.map (·.lambda)).prod⟩

/-- The product of the proofs there are, if there is any. -/
def joinProofs (proofs : List (Option (DHTDynamicProves GT))) : Option (DHTDynamicProves GT) :=
  if proofs.all Option.isNone then none else some (.product proofs.reduceOption)

end Product

/-! ## Sums over the parts -/

section Scalars

variable {lib : CoreLib G1 G2 GT} {tags : InMemoryTags G1} {content : SizeT → Bytes}
  {items items' : List ChallengeItem}

theorem scalarSum_perm (h : items.Perm items') :
    scalarSum lib tags content items = scalarSum lib tags content items' :=
  (h.map _).sum_eq

theorem scalarSum_append : scalarSum lib tags content (items ++ items') =
    scalarSum lib tags content items + scalarSum lib tags content items' := by
  simp only [scalarSum, List.map_append, List.sum_append]

theorem scalarSum_eq_zero (h : ∀ item ∈ items, usableSigma lib tags item = none) :
    scalarSum lib tags content items = 0 := by
  apply List.sum_eq_zero
  intro term hterm
  obtain ⟨item, hitem, rfl⟩ := List.mem_map.mp hterm
  rw [h item hitem, Option.isSome_none, if_neg Bool.false_ne_true]

end Scalars

section Points

variable [AddCommGroup G1] {lib : CoreLib G1 G2 GT} {tags : InMemoryTags G1}
  {items items' : List ChallengeItem}

theorem hashSum_perm (fileId : Bytes) (h : items.Perm items') :
    hashSum lib fileId items = hashSum lib fileId items' :=
  (h.map _).sum_eq

theorem sigmaSum_perm (h : items.Perm items') :
    sigmaSum lib tags items = sigmaSum lib tags items' :=
  (h.map _).sum_eq

theorem hashSum_append (fileId : Bytes) : hashSum lib fileId (items ++ items') =
    hashSum lib fileId items + hashSum lib fileId items' := by
  simp only [hashSum, List.map_append, List.sum_append]

theorem sigmaSum_append : sigmaSum lib tags (items ++ items') =
    sigmaSum lib tags items + sigmaSum lib tags items' := by
  simp only [sigmaSum, List.map_append, List.sum_append]

theorem sigmaSum_eq_zero (h : ∀ item ∈ items, usableSigma lib tags item = none) :
    sigmaSum lib tags items = 0 := by
  apply List.sum_eq_zero
  intro term hterm
  obtain ⟨item, hitem, rfl⟩ := List.mem_map.mp hterm
  rw [h item hitem, Option.getD_none, smul_zero]

end Points

variable [AddCommGroup G1] [AddCommGroup G2] [CommGroup GT] {lib : CoreLib G1 G2 GT} {n : Nat}
  {e : G1 →+ G2 →+ Additive GT} {publicParams : DHTDynamicPublicParams G1 G2}
  {tags : InMemoryTags G1} {blocks : AuditBlockSource} {content : SizeT → Bytes}
  {parts : List (DHTDynamicChallenges G2)} {part joined challenges : DHTDynamicChallenges G2}
  {fileId : Bytes} {proves : DHTDynamicProves GT}

/-! ## The prover -/

/-- The pairings a proof over these items consists of. -/
def pairedSums (lib : CoreLib G1 G2 GT) (e : G1 →+ G2 →+ Additive GT)
    (publicParams : DHTDynamicPublicParams G1 G2) (tags : InMemoryTags G1)
    (content : SizeT → Bytes) (R : G2) (items : List ChallengeItem) : DHTDynamicProves GT :=
  ⟨(e (sigmaSum lib tags items) publicParams.g).toMul,
    (e (scalarSum lib tags content items • publicParams.u) R).toMul⟩

theorem pairedSums_append (R : G2) (items items' : List ChallengeItem) :
    pairedSums lib e publicParams tags content R (items ++ items') =
      ⟨(pairedSums lib e publicParams tags content R items).theta *
          (pairedSums lib e publicParams tags content R items').theta,
        (pairedSums lib e publicParams tags content R items).lambda *
          (pairedSums lib e publicParams tags content R items').lambda⟩ := by
  simp only [pairedSums, sigmaSum_append, scalarSum_append, add_nsmul, map_add,
    AddMonoidHom.add_apply, toMul_add]

theorem pairedSums_perm (R : G2) {items items' : List ChallengeItem} (h : items.Perm items') :
    pairedSums lib e publicParams tags content R items =
      pairedSums lib e publicParams tags content R items' := by
  rw [pairedSums, sigmaSum_perm h, scalarSum_perm h, pairedSums]

theorem pairedSums_eq_one (R : G2) {items : List ChallengeItem}
    (h : ∀ item ∈ items, usableSigma lib tags item = none) :
    pairedSums lib e publicParams tags content R items = .product [] := by
  rw [pairedSums, sigmaSum_eq_zero h, scalarSum_eq_zero h, zero_nsmul, map_zero,
    AddMonoidHom.zero_apply, AddMonoidHom.zero_apply]
  rfl

/-- The prover returns the pairings of the sums, or no proof if it uses no item. -/
theorem CoreLib.Lawful.proves_iff (h : lib.Lawful n e)
    (hread : Readable lib tags blocks content challenges.items)
    {proof : Option (DHTDynamicProves GT)} :
    Proves lib publicParams tags blocks challenges proof ↔ proof =
      if challenges.items.any fun item => (usableSigma lib tags item).isSome then
        some (pairedSums lib e publicParams tags content challenges.R challenges.items)
      else none := by
  rcases exists_usable_or_none lib tags challenges.items with hsome | hnone
  · rw [Proves, h.generateProofs_some hread hsome, if_pos (List.any_eq_true.mpr hsome)]
    constructor
    · rintro ⟨_, heq⟩
      exact (GenerateProofsResult.mk.inj (Except.ok.inj heq)).1.symm
    · rintro rfl
      exact ⟨_, rfl⟩
  · have hany : ¬ (challenges.items.any fun item => (usableSigma lib tags item).isSome) = true := by
      rw [List.any_eq_true]
      rintro ⟨item, hitem, hused⟩
      rw [hnone item hitem] at hused
      cases hused
    rw [Proves, h.generateProofs_none hread hnone, if_neg hany]
    constructor
    · rintro ⟨_, heq⟩
      exact (GenerateProofsResult.mk.inj (Except.ok.inj heq)).1.symm
    · rintro rfl
      exact ⟨_, rfl⟩

/-- The proofs of the parts multiply up to the pairings of all their items. -/
theorem joinProofs_parts (R : G2) (hR : ∀ part ∈ parts, part.R = R) :
    joinProofs (parts.map fun part =>
        if part.items.any fun item => (usableSigma lib tags item).isSome then
          some (pairedSums lib e publicParams tags content part.R part.items)
        else none) =
      if (parts.flatMap (·.items)).any fun item => (usableSigma lib tags item).isSome then
        some (pairedSums lib e publicParams tags content R (parts.flatMap (·.items)))
      else none := by
  have hproduct : DHTDynamicProves.product (parts.map fun part =>
      if part.items.any fun item => (usableSigma lib tags item).isSome then
        some (pairedSums lib e publicParams tags content part.R part.items)
      else none).reduceOption =
        pairedSums lib e publicParams tags content R (parts.flatMap (·.items)) := by
    induction parts with
    | nil => exact (pairedSums_eq_one R fun item hitem => absurd hitem List.not_mem_nil).symm
    | cons part rest ih =>
      obtain ⟨hpart, hrest⟩ := List.forall_mem_cons.mp hR
      have ih := ih hrest
      rw [List.flatMap_cons, pairedSums_append, ← ih, List.map_cons, hpart]
      rcases exists_usable_or_none lib tags part.items with hsome | hnone
      · rw [if_pos (List.any_eq_true.mpr hsome), List.reduceOption_cons_of_some]
        simp only [DHTDynamicProves.product, List.map_cons, List.prod_cons]
      · have hany : ¬ (part.items.any fun item => (usableSigma lib tags item).isSome) = true := by
          simpa using hnone
        rw [if_neg hany, List.reduceOption_cons_of_none, pairedSums_eq_one R hnone]
        simp only [DHTDynamicProves.product, List.map_nil, List.prod_nil, one_mul]
  rw [joinProofs, hproduct, List.all_map, List.any_flatMap]
  by_cases hany : (parts.any fun part =>
      part.items.any fun item => (usableSigma lib tags item).isSome) = true
  · obtain ⟨part, hpart, hused⟩ := List.any_eq_true.mp hany
    rw [if_pos hany, if_neg]
    intro hall
    have hnone := List.all_eq_true.mp hall part hpart
    simp only [Function.comp_apply, hused, if_true, Option.isNone_some,
      Bool.false_eq_true] at hnone
  · rw [if_neg hany, if_pos]
    apply List.all_eq_true.mpr
    intro part hpart
    have hnone : ¬ (part.items.any fun item => (usableSigma lib tags item).isSome) = true :=
      fun hused => hany (List.any_eq_true.mpr ⟨part, hpart, hused⟩)
    rw [Function.comp_apply, if_neg hnone, Option.isNone_none]

/-! ## The verifier -/

/-- What the verifier accepts: nothing without a file name, a public key and an item, and otherwise
what satisfies the equation. -/
theorem CoreLib.Lawful.accepts_iff (h : lib.Lawful n e) :
    Accepts lib publicParams fileId challenges proves ↔
      fileId ≠ [] ∧ publicParams.pk ≠ 0 ∧ challenges.items ≠ [] ∧
        proves.theta ^ challenges.r.value =
          proves.lambda * (e (hashSum lib fileId challenges.items) challenges.R).toMul := by
  by_cases hfile : fileId = []
  · subst hfile
    refine iff_of_false ?_ fun hvalid => hvalid.1 rfl
    rintro ⟨result, hverify, hok⟩
    obtain rfl := Except.ok.inj hverify
    cases hok
  · by_cases hitems : challenges.items = []
    · refine iff_of_false ?_ fun hvalid => hvalid.2.2.1 hitems
      rintro ⟨result, hverify, hok⟩
      simp only [DHTDynamic.verifyProofs, BasePtr.cast, List.isEmpty_iff, hfile, hitems, if_false,
        List.isEmpty_nil, if_true] at hverify
      obtain rfl := Except.ok.inj hverify
      cases hok
    · by_cases hpk : publicParams.pk = 0
      · refine iff_of_false ?_ fun hvalid => hvalid.2.1 hpk
        rintro ⟨result, hverify, hok⟩
        simp only [DHTDynamic.verifyProofs, BasePtr.cast, List.isEmpty_iff, hfile, hitems, if_false,
          (h.g2IsInfinity _).mpr hpk, if_true] at hverify
        obtain rfl := Except.ok.inj hverify
        cases hok
      · obtain ⟨result, hverify, hok⟩ := h.verifyProofs hfile hpk hitems proves
        rw [Accepts, hverify]
        simp only [Except.ok.injEq, exists_eq_left', hok, hfile, hpk, hitems, ne_eq,
          not_false_eq_true, true_and]

/-- Proofs that are all accepted satisfy the equation together. -/
theorem CoreLib.Lawful.product_balanced (h : lib.Lawful n e) {r : SM9CryptoData} {R : G2}
    (hR : ∀ part ∈ parts, part.R = R) (hr : ∀ part ∈ parts, part.r = r)
    {proofs : List (DHTDynamicProves GT)}
    (haccept : List.Forall₂ (Accepts lib publicParams fileId) parts proofs) :
    (DHTDynamicProves.product proofs).theta ^ r.value = (DHTDynamicProves.product proofs).lambda *
      (e (hashSum lib fileId (parts.flatMap (·.items))) R).toMul := by
  induction haccept with
  | nil => simp [DHTDynamicProves.product, hashSum]
  | cons hpart _ ih =>
    obtain ⟨hRpart, hRrest⟩ := List.forall_mem_cons.mp hR
    obtain ⟨hrpart, hrrest⟩ := List.forall_mem_cons.mp hr
    have ih := ih hRrest hrrest
    obtain ⟨_, _, _, hequation⟩ := h.accepts_iff.mp hpart
    rw [hRpart, hrpart] at hequation
    simp only [DHTDynamicProves.product, List.map_cons, List.prod_cons] at ih ⊢
    rw [mul_pow, hequation, ih, List.flatMap_cons, hashSum_append, map_add, AddMonoidHom.add_apply,
      toMul_add, mul_mul_mul_comm]

/-- Whatever the parts but one are accepted with, the product of all proofs is accepted for the
joined challenge exactly when the last part is accepted on its own. -/
theorem CoreLib.Lawful.accepts_product_iff (h : lib.Lawful n e)
    (hjoin : Joins (part :: parts) joined) (hitems : part.items ≠ [])
    {proofs : List (DHTDynamicProves GT)}
    (haccept : List.Forall₂ (Accepts lib publicParams fileId) parts proofs) :
    Accepts lib publicParams fileId joined (.product (proves :: proofs)) ↔
      Accepts lib publicParams fileId part proves := by
  obtain ⟨hRpart, hRrest⟩ := List.forall_mem_cons.mp hjoin.R
  obtain ⟨hrpart, hrrest⟩ := List.forall_mem_cons.mp hjoin.r
  have hbalanced := h.product_balanced hRrest hrrest haccept
  have hjoined : joined.items ≠ [] := by
    intro hnil
    have hperm := hjoin.items
    rw [hnil, List.flatMap_cons] at hperm
    exact hitems (List.append_eq_nil_iff.mp hperm.symm.eq_nil).1
  rw [h.accepts_iff, h.accepts_iff, hashSum_perm fileId hjoin.items, List.flatMap_cons,
    hashSum_append, hRpart, hrpart]
  simp only [DHTDynamicProves.product, List.map_cons, List.prod_cons] at hbalanced ⊢
  rw [mul_pow, hbalanced, map_add, AddMonoidHom.add_apply, toMul_add, mul_mul_mul_comm,
    mul_left_inj]
  simp only [hjoined, hitems, ne_eq, not_false_eq_true, true_and]

/-! ## Both -/

/-- An audit answered in parts under one `R` and `r`. The prover's proofs of the parts multiply up
to its proof of all the items, in whatever order these stand. Proofs from anyone compose as well:
once the other parts are accepted, the product is accepted for all the items exactly when the
remaining proof is accepted for its part. -/
theorem audit_in_parts (h : lib.Lawful n e) (publicParams : DHTDynamicPublicParams G1 G2)
    (part : DHTDynamicChallenges G2) (rest : List (DHTDynamicChallenges G2))
    (joined : DHTDynamicChallenges G2) (hjoin : Joins (part :: rest) joined) :
    (∀ (tags : InMemoryTags G1) (blocks : AuditBlockSource) (content : SizeT → Bytes),
      Readable lib tags blocks content joined.items →
        ∃ proofs : List (Option (DHTDynamicProves GT)),
          List.Forall₂ (Proves lib publicParams tags blocks) (part :: rest) proofs ∧
          Proves lib publicParams tags blocks joined (joinProofs proofs)) ∧
    (∀ (fileId : Bytes) (proves : DHTDynamicProves GT) (proofs : List (DHTDynamicProves GT)),
      part.items ≠ [] → List.Forall₂ (Accepts lib publicParams fileId) rest proofs →
        (Accepts lib publicParams fileId joined (.product (proves :: proofs)) ↔
          Accepts lib publicParams fileId part proves)) := by
  refine ⟨fun tags blocks content hread => ?_, fun fileId proves proofs hitems haccept =>
    h.accepts_product_iff hjoin hitems haccept⟩
  have hpart : ∀ other ∈ part :: rest, Readable lib tags blocks content other.items :=
    fun other hother item hitem => hread item
      (hjoin.items.mem_iff.mpr (List.mem_flatMap.mpr ⟨other, hother, hitem⟩))
  refine ⟨(part :: rest).map fun other =>
    if other.items.any fun item => (usableSigma lib tags item).isSome then
      some (pairedSums lib e publicParams tags content other.R other.items)
    else none, ?_, ?_⟩
  · rw [List.forall₂_map_right_iff, List.forall₂_same]
    exact fun other hother => (h.proves_iff (hpart other hother)).mpr rfl
  · rw [h.proves_iff hread, joinProofs_parts joined.R hjoin.R, hjoin.items.any_eq,
      pairedSums_perm joined.R hjoin.items]

/-- A challenge of one block of a file of two. -/
def unitPart (blockIndex : SizeT) : DHTDynamicChallenges (ZMod 5) :=
  { unitChallenge with
    items := [{ blockIndex := blockIndex, nu := .ofUInt64 1, metadata := ⟨1, 0⟩ }]
    blockCount := 2 }

/-- Two blocks challenged one by one and, the other way round, at once. -/
theorem audit_in_parts_two_blocks :
    let lib := zmodLib fun _ => 1
    let tags : InMemoryTags (ZMod 5) := setAll ∅ [(0, .dhtDynamic 2), (1, .dhtDynamic 2)]
    let joined := { unitPart 1 with items := (unitPart 2).items ++ (unitPart 1).items }
    let proof : DHTDynamicProves (Multiplicative (ZMod 5)) := ⟨.ofAdd 2, .ofAdd 1⟩
    (∃ proofs, List.Forall₂ (Proves lib unitPublicParams tags (fullFile [[1], [1]]))
        [unitPart 1, unitPart 2] proofs ∧
      Proves lib unitPublicParams tags (fullFile [[1], [1]]) joined (joinProofs proofs)) ∧
    (Accepts lib unitPublicParams [7] joined (.product [proof, proof]) ↔
      Accepts lib unitPublicParams [7] (unitPart 1) proof) := by
  intro lib tags joined proof
  have hjoin : Joins [unitPart 1, unitPart 2] joined :=
    ⟨List.Perm.swap _ _ _, by simp [joined, unitPart], by simp [joined, unitPart]⟩
  have haudit := audit_in_parts (zmodLib_lawful fun _ => 1) unitPublicParams (unitPart 1)
    [unitPart 2] joined hjoin
  refine ⟨haudit.1 tags (fullFile [[1], [1]]) (fun _ => [1]) ?_,
    haudit.2 [7] proof [proof] (List.cons_ne_nil _ _) (.cons ⟨_, rfl, rfl⟩ .nil)⟩
  intro item hitem _
  rcases List.mem_pair.mp hitem with rfl | rfl <;> rfl

end DHTDynamic
