import DHTDynamicAudit.Audit.Aggregation

/-!
# Which transcripts are accepted

For every `Θ` the verifier accepts exactly one `Λ`. A proof the prover made for
one challenge may be sent again for another challenge or another file; it passes
exactly when the weighted hash and message points of both balance.
-/

namespace DHTDynamic

open Core

variable {G1 G2 GT : Type} [AddCommGroup G1] [AddCommGroup G2] [CommGroup GT]
  {lib : CoreLib G1 G2 GT} {n : Nat} {e : G1 →+ G2 →+ Additive GT}
  {publicParams : DHTDynamicPublicParams G1 G2} {fileId : Bytes}
  {challenges : DHTDynamicChallenges G2} {proves : DHTDynamicProves GT}

/-! ## All accepted proofs -/

/-- The one `Λ` that is accepted with `Θ`. -/
def acceptedLambda (lib : CoreLib G1 G2 GT) (e : G1 →+ G2 →+ Additive GT)
    (publicParams : DHTDynamicPublicParams G1 G2) (fileId : Bytes)
    (challenges : DHTDynamicChallenges G2) (Theta : GT) : GT :=
  (Theta / (e (hashSum lib fileId challenges.items) publicParams.y).toMul) ^ challenges.r.value

theorem CoreLib.Lawful.accepts_iff_lambda (h : lib.Lawful n e) (hfile : fileId ≠ [])
    (hpk : publicParams.pk ≠ 0) (hR : challenges.R = challenges.r.value • publicParams.y)
    (hitems : challenges.items ≠ []) : Accepts lib publicParams fileId challenges proves ↔
      proves.lambda = acceptedLambda lib e publicParams fileId challenges proves.theta := by
  rw [h.accepts_iff, acceptedLambda, div_pow, hR, map_nsmul, toMul_nsmul, eq_div_iff_mul_eq',
    eq_comm]
  simp only [hfile, hpk, hitems, ne_eq, not_false_eq_true, true_and]

/-- A proof is a pair of elements of `G_T`. -/
def DHTDynamicProves.equivProd : DHTDynamicProves GT ≃ GT × GT where
  toFun proves := (proves.theta, proves.lambda)
  invFun pair := ⟨pair.1, pair.2⟩
  left_inv _ := rfl
  right_inv _ := rfl

/-- Unless `r` vanishes, the one `Λ` determines `Θ`. -/
theorem acceptedLambda_bijective (h : lib.Lawful n e)
    (publicParams : DHTDynamicPublicParams G1 G2) (fileId : Bytes)
    (hr : ¬ n ∣ challenges.r.value) :
    Function.Bijective (acceptedLambda lib e publicParams fileId challenges) := by
  have hcoprime : (Nat.card GT).Coprime challenges.r.value := by
    rw [h.card_gt]
    exact (Nat.Prime.coprime_iff_not_dvd h.prime).mpr hr
  exact (powCoprime hcoprime).bijective.comp (Equiv.divRight _).bijective

/-- The accepted proofs of an audit: one `Λ` for every `Θ`, so `n` of all `n²` pairs, and unless
`r` vanishes also one `Θ` for every `Λ`. -/
theorem accepted_proofs (h : lib.Lawful n e) (publicParams : DHTDynamicPublicParams G1 G2)
    (hpk : publicParams.pk ≠ 0) (fileId : Bytes) (hfile : fileId ≠ [])
    (challenges : DHTDynamicChallenges G2)
    (hR : challenges.R = challenges.r.value • publicParams.y) (hitems : challenges.items ≠ []) :
    (∀ Theta, ∃! lambda, Accepts lib publicParams fileId challenges ⟨Theta, lambda⟩) ∧
    (¬ n ∣ challenges.r.value →
      ∀ lambda, ∃! Theta, Accepts lib publicParams fileId challenges ⟨Theta, lambda⟩) ∧
    Nat.card (DHTDynamicProves GT) = n ^ 2 ∧
    Nat.card { proves // Accepts lib publicParams fileId challenges proves } = n := by
  have hiff : ∀ proves, Accepts lib publicParams fileId challenges proves ↔
      proves.lambda = acceptedLambda lib e publicParams fileId challenges proves.theta :=
    fun proves => h.accepts_iff_lambda hfile hpk hR hitems
  refine ⟨fun Theta => ?_, fun hr lambda => ?_, ?_, ?_⟩
  · exact ⟨acceptedLambda lib e publicParams fileId challenges Theta, (hiff _).mpr rfl,
      fun lambda haccept => (hiff _).mp haccept⟩
  · obtain ⟨Theta, hTheta, hunique⟩ :=
      (acceptedLambda_bijective h publicParams fileId hr).existsUnique lambda
    exact ⟨Theta, (hiff _).mpr hTheta.symm, fun other haccept =>
      hunique other ((hiff _).mp haccept).symm⟩
  · rw [Nat.card_congr DHTDynamicProves.equivProd, Nat.card_prod, h.card_gt, sq]
  · have hgraph : { proves // Accepts lib publicParams fileId challenges proves } ≃ GT :=
      Equiv.ofBijective (fun proves => proves.1.theta) ?_
    · rw [Nat.card_congr hgraph, h.card_gt]
    constructor
    · rintro ⟨⟨Theta, lambda⟩, haccept⟩ ⟨⟨Theta', lambda'⟩, haccept'⟩ rfl
      obtain rfl : lambda = lambda' := ((hiff _).mp haccept).trans ((hiff _).mp haccept').symm
      rfl
    · exact fun Theta => ⟨⟨⟨Theta, acceptedLambda lib e publicParams fileId challenges Theta⟩,
        (hiff _).mpr rfl⟩, rfl⟩

/-- The proofs a unit challenge of one block accepts. -/
theorem accepted_proofs_unit :
    Nat.card { proves // Accepts (zmodLib fun _ => 1) unitPublicParams [7] unitChallenge proves } =
      5 :=
  (accepted_proofs (zmodLib_lawful fun _ => 1) unitPublicParams (by decide) [7]
    (List.cons_ne_nil _ _) unitChallenge (by decide) (List.cons_ne_nil _ _)).2.2.2

/-! ## Replayed proofs -/

/-- A proof of any prover for one challenge, sent for another challenge of any file under the same
keys. It is accepted exactly when `g` is at infinity or `[r']σ = [a]([r][M]u + [r']H')`. -/
theorem CoreLib.Lawful.accepts_pairedSums_iff (h : lib.Lawful n e) (he : Nondegenerate e)
    {a : SM9CryptoData} (hy : publicParams.y = a.value • publicParams.g)
    (hpk : publicParams.pk ≠ 0) (hfile : fileId ≠ []) (tags : InMemoryTags G1)
    (content : SizeT → Bytes) (hR : challenges.R = challenges.r.value • publicParams.y)
    {challenges' : DHTDynamicChallenges G2}
    (hR' : challenges'.R = challenges'.r.value • publicParams.y) (hitems : challenges'.items ≠ []) :
    Accepts lib publicParams fileId challenges'
        (pairedSums lib e publicParams tags content challenges.R challenges.items) ↔
      challenges'.r.value • sigmaSum lib tags challenges.items =
          a.value • (challenges.r.value • scalarSum lib tags content challenges.items •
            publicParams.u + challenges'.r.value • hashSum lib fileId challenges'.items) ∨
        publicParams.g = 0 := by
  -- both sides of the equation as pairings with `g`
  have hpair : ∀ (k : Nat) (P : G1), e P (k • publicParams.y) =
      e (a.value • k • P) publicParams.g := by
    intro k P
    simp only [hy, map_nsmul, AddMonoidHom.nsmul_apply]
    exact smul_comm _ _ _
  rw [h.accepts_iff]
  simp only [hfile, hpk, hitems, ne_eq, not_false_eq_true, true_and, pairedSums]
  rw [hR, hR', hpair, hpair, ← toMul_nsmul, ← toMul_add, Additive.toMul.injective.eq_iff,
    ← AddMonoidHom.nsmul_apply, ← map_nsmul, ← AddMonoidHom.add_apply, ← map_add, ← smul_add,
    ← sub_eq_zero, ← AddMonoidHom.sub_apply, ← map_sub,
    pairing_eq_zero_iff h.prime h.card_g1 h.card_g2 he, sub_eq_zero]

/-- The weighted honest tags: `[a]([M]u + H)`. -/
theorem TaggedUnder.sigmaSum (h : lib.Lawful n e) {a : SM9CryptoData} {u : G1}
    {tags : InMemoryTags G1} {content : SizeT → Bytes} {items : List ChallengeItem}
    (htags : TaggedUnder lib a u fileId id tags content items) : sigmaSum lib tags items =
      a.value • (scalarSum lib tags content items • u + hashSum lib fileId items) := by
  have hdeviation := htags.deviationSum h
  rw [relocatedSum_id, sub_self, smul_zero, deviationSum_eq, sub_eq_zero] at hdeviation
  exact hdeviation

/-- A proof made from the honest tags of one file and challenge, sent for any other file and
challenge under the same keys. It passes exactly when `[r'](H + [M]u) = [r']H' + [r][M]u`; so for
the same items of the same file exactly when `(r' - r)M` is a multiple of `n` or `u` is at
infinity, and for another file under the same `r` exactly when the hash sums agree. -/
theorem replayed_proof_accepted_iff (h : lib.Lawful n e) (he : Nondegenerate e)
    (a : SM9CryptoData) (ha : ¬ n ∣ a.value) (publicParams : DHTDynamicPublicParams G1 G2)
    (hy : publicParams.y = a.value • publicParams.g) (hg : publicParams.g ≠ 0)
    (hpk : publicParams.pk ≠ 0) (fileId : Bytes) (challenges : DHTDynamicChallenges G2)
    (hR : challenges.R = challenges.r.value • publicParams.y) (hitems : challenges.items ≠ [])
    (tags : InMemoryTags G1) (blocks : AuditBlockSource) (content : SizeT → Bytes)
    (hread : Readable lib tags blocks content challenges.items)
    (htags : TaggedUnder lib a publicParams.u fileId id tags content challenges.items) :
    ∃ proves, Proves lib publicParams tags blocks challenges (some proves) ∧
      ∀ (fileId' : Bytes) (challenges' : DHTDynamicChallenges G2), fileId' ≠ [] →
        challenges'.R = challenges'.r.value • publicParams.y → challenges'.items ≠ [] →
        (Accepts lib publicParams fileId' challenges' proves ↔
          challenges'.r.value • (hashSum lib fileId challenges.items +
              scalarSum lib tags content challenges.items • publicParams.u) =
            challenges'.r.value • hashSum lib fileId' challenges'.items +
              challenges.r.value • scalarSum lib tags content challenges.items •
                publicParams.u) ∧
        (fileId' = fileId → challenges'.items = challenges.items →
          (Accepts lib publicParams fileId' challenges' proves ↔
            (n : Int) ∣ ((challenges'.r.value : Int) - challenges.r.value) *
                scalarSum lib tags content challenges.items ∨ publicParams.u = 0)) ∧
        (challenges'.r = challenges.r → ¬ n ∣ challenges.r.value →
          (Accepts lib publicParams fileId' challenges' proves ↔
            hashSum lib fileId challenges.items = hashSum lib fileId' challenges'.items)) := by
  obtain ⟨item, hitem⟩ := List.exists_mem_of_ne_nil _ hitems
  have hsome : ∃ item ∈ challenges.items, (usableSigma lib tags item).isSome :=
    ⟨item, hitem, by rw [htags.usableSigma h hitem, Option.isSome_some]⟩
  refine ⟨_, ⟨_, h.generateProofs_some hread hsome⟩, ?_⟩
  intro fileId' challenges' hfile' hR' hitems'
  have hbalance := h.accepts_pairedSums_iff he hy hpk hfile' tags content hR hR' hitems'
  rw [or_iff_left hg, htags.sigmaSum h, smul_comm, ← sub_eq_zero, ← smul_sub,
    nsmul_eq_zero_iff_of_prime h.prime h.card_g1, or_iff_right ha, sub_eq_zero,
    add_comm (_ • publicParams.u), add_comm (challenges.r.value • _)] at hbalance
  refine ⟨hbalance, ?_, ?_⟩
  · rintro rfl hsame
    rw [pairedSums] at hbalance
    rw [hbalance, hsame, smul_add, add_right_inj, smul_smul, smul_smul,
      nsmul_eq_nsmul_iff_of_prime h.prime h.card_g1, Nat.cast_mul, Nat.cast_mul, sub_mul]
  · intro hr hrn
    rw [pairedSums] at hbalance
    rw [hbalance, hr, smul_add, add_left_inj, ← sub_eq_zero, ← smul_sub,
      nsmul_eq_zero_iff_of_prime h.prime h.card_g1, or_iff_right hrn, sub_eq_zero]

/-- A proof made under `r = 1`, sent again under `r = 2`. -/
theorem replayed_proof_accepted_iff_fresh_r :
    let lib := zmodLib fun _ => 1
    let tags : InMemoryTags (ZMod 5) := setAll ∅ [(0, .dhtDynamic 2)]
    let fresh := { unitChallenge with R := 2, r := .ofUInt64 2 }
    ∃ proves, Proves lib unitPublicParams tags (fullFile [[1]]) unitChallenge (some proves) ∧
      ¬ Accepts lib unitPublicParams [7] fresh proves := by
  intro lib tags fresh
  have htags : TaggedUnder lib (.ofUInt64 1) unitPublicParams.u [7] id tags (fun _ => [1])
      unitChallenge.items := by
    intro item hitem
    obtain rfl := List.mem_singleton.mp hitem
    exact ⟨by decide, 2, by decide, rfl, by decide⟩
  obtain ⟨proves, hproves, hreplay⟩ := replayed_proof_accepted_iff (zmodLib_lawful fun _ => 1)
    zmodPairing_nondegenerate (.ofUInt64 1) (by decide) unitPublicParams (by decide) (by decide)
    (by decide) [7] unitChallenge (by decide) (List.cons_ne_nil _ _) tags (fullFile [[1]])
    (fun _ => [1]) (fun item hitem _ => by obtain rfl := List.mem_singleton.mp hitem; rfl) htags
  refine ⟨proves, hproves, fun haccept => ?_⟩
  obtain ⟨_, hsame, _⟩ := hreplay [7] fresh (List.cons_ne_nil _ _) (by decide)
    (List.cons_ne_nil _ _)
  exact absurd ((hsame rfl rfl).mp haccept) (by decide)

end DHTDynamic
