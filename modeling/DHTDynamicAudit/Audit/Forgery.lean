import DHTDynamicAudit.Audit.Completeness

/-!
# Proofs made from public values

A procedure that holds no tag and no block builds its two target-group elements
from the public points by group operations, pairings and hashing. Since the
prover sends target-group elements, `Θ = e(Σ ν_j H_j, y)` and `Λ = 1` satisfy
the verifier's equation for every challenge.
-/

namespace DHTDynamic

open Core

/-! ## Terms over the public values -/

/-- A point of `G₁` built from `u` and hash points. -/
inductive G1Term where
  | infinity
  | u
  | hashToCurve (data : Bytes)
  | add (P Q : G1Term)
  | mul (P : G1Term) (k : SM9CryptoData)

/-- A point of `G₂` built from the public points of the key and the challenge. -/
inductive G2Term where
  | infinity
  | pk
  | g
  | y
  | R
  | add (P Q : G2Term)
  | mul (P : G2Term) (k : SM9CryptoData)

/-- An element of the target group built by pairings. -/
inductive GTTerm where
  | one
  | pairing (P : G1Term) (Q : G2Term)
  | mul (x y : GTTerm)
  | pow (x : GTTerm) (k : SM9CryptoData)

/-- A procedure of the storage node: it reads the file id and the challenge items, and answers
with terms for `Θ` and `Λ` over the public points. -/
abbrev Procedure := Bytes → List ChallengeItem → GTTerm × GTTerm

section Evaluation

variable {G1 G2 GT : Type} [AddCommGroup G1] [AddCommGroup G2] [CommGroup GT]

def G1Term.eval (hashToCurve : Bytes → G1) (publicParams : DHTDynamicPublicParams G1 G2) :
    G1Term → G1
  | .infinity => 0
  | .u => publicParams.u
  | .hashToCurve data => hashToCurve data
  | .add P Q => P.eval hashToCurve publicParams + Q.eval hashToCurve publicParams
  | .mul P k => k.value • P.eval hashToCurve publicParams

def G2Term.eval (publicParams : DHTDynamicPublicParams G1 G2) (R : G2) : G2Term → G2
  | .infinity => 0
  | .pk => publicParams.pk
  | .g => publicParams.g
  | .y => publicParams.y
  | .R => R
  | .add P Q => P.eval publicParams R + Q.eval publicParams R
  | .mul P k => k.value • P.eval publicParams R

def GTTerm.eval (hashToCurve : Bytes → G1) (e : G1 →+ G2 →+ Additive GT)
    (publicParams : DHTDynamicPublicParams G1 G2) (R : G2) : GTTerm → GT
  | .one => 1
  | .pairing P Q => (e (P.eval hashToCurve publicParams) (Q.eval publicParams R)).toMul
  | .mul x y => x.eval hashToCurve e publicParams R * y.eval hashToCurve e publicParams R
  | .pow x k => x.eval hashToCurve e publicParams R ^ k.value

/-- The proof a procedure sends for a file and a challenge. -/
def Procedure.proves (F : Procedure) (lib : CoreLib G1 G2 GT) (e : G1 →+ G2 →+ Additive GT)
    (publicParams : DHTDynamicPublicParams G1 G2) (fileId : Bytes)
    (challenges : DHTDynamicChallenges G2) : DHTDynamicProves GT where
  theta := (F fileId challenges.items).1.eval lib.hashToCurve e publicParams challenges.R
  lambda := (F fileId challenges.items).2.eval lib.hashToCurve e publicParams challenges.R

/-- A key pair, a file id and a challenge as the audit produces them. -/
structure ValidAudit (a : SM9CryptoData) (publicParams : DHTDynamicPublicParams G1 G2)
    (fileId : Bytes) (challenges : DHTDynamicChallenges G2) : Prop where
  y : publicParams.y = a.value • publicParams.g
  pk : publicParams.pk ≠ 0
  g : publicParams.g ≠ 0
  fileId : fileId ≠ []
  items : challenges.items ≠ []
  R : challenges.R = challenges.r.value • publicParams.y

/-- The verifier accepts what the procedure sends. -/
def Procedure.Accepted (F : Procedure) (lib : CoreLib G1 G2 GT) (e : G1 →+ G2 →+ Additive GT)
    (publicParams : DHTDynamicPublicParams G1 G2) (fileId : Bytes)
    (challenges : DHTDynamicChallenges G2) : Prop :=
  ∃ result, verifyProofs lib ⟨[.typed challenges],
      [.typed (F.proves lib e publicParams fileId challenges)],
      .typed ⟨fileId, some publicParams⟩⟩ = .ok result ∧ result.ok = true

/-- Every procedure fails on some audit. -/
def Unforgeable (lib : CoreLib G1 G2 GT) (e : G1 →+ G2 →+ Additive GT) : Prop :=
  ∀ F : Procedure, ∃ a publicParams fileId challenges,
    ValidAudit a publicParams fileId challenges ∧
      ¬ F.Accepted lib e publicParams fileId challenges

end Evaluation

/-! ## A proof without tags and blocks -/

/-- The term `Σ ν_j H_j` over the items of a challenge. -/
def hashSumTerm (fileId : Bytes) : List ChallengeItem → G1Term
  | [] => .infinity
  | item :: items =>
    .add (.mul (.hashToCurve (blockHashInput fileId item.blockIndex item.metadata)) item.nu)
      (hashSumTerm fileId items)

/-- `Θ = e(Σ ν_j H_j, y)` and `Λ = 1`. -/
def pairHashesWithY : Procedure :=
  fun fileId items => (.pairing (hashSumTerm fileId items) .y, .one)

variable {G1 G2 GT : Type} [AddCommGroup G1]

theorem eval_hashSumTerm (lib : CoreLib G1 G2 GT) (publicParams : DHTDynamicPublicParams G1 G2)
    (fileId : Bytes) (items : List ChallengeItem) :
    (hashSumTerm fileId items).eval lib.hashToCurve publicParams = hashSum lib fileId items := by
  induction items with
  | nil => rfl
  | cons item items ih =>
    rw [hashSumTerm, G1Term.eval, ih]
    rfl

variable [AddCommGroup G2] [CommGroup GT] {lib : CoreLib G1 G2 GT} {n : Nat}
  {e : G1 →+ G2 →+ Additive GT}

/-- The verifier accepts it for every key pair, file and challenge. -/
theorem pairHashesWithY_accepted (h : lib.Lawful n e) {a : SM9CryptoData}
    {publicParams : DHTDynamicPublicParams G1 G2} {fileId : Bytes}
    {challenges : DHTDynamicChallenges G2} (hvalid : ValidAudit a publicParams fileId challenges) :
    pairHashesWithY.Accepted lib e publicParams fileId challenges := by
  obtain ⟨result, hverify, hok⟩ := h.verifyProofs hvalid.fileId hvalid.pk hvalid.items
    (pairHashesWithY.proves lib e publicParams fileId challenges)
  refine ⟨result, hverify, hok.mpr ?_⟩
  simp only [Procedure.proves, pairHashesWithY, GTTerm.eval, G2Term.eval, eval_hashSumTerm, one_mul]
  rw [hvalid.R, map_nsmul, toMul_nsmul]

/-- No library makes the scheme unforgeable: one procedure that reads no tag, no block and no
secret scalar is accepted on every audit. -/
theorem exists_procedure_always_accepted (h : lib.Lawful n e) :
    ∃ F : Procedure, ∀ a publicParams fileId challenges,
      ValidAudit a publicParams fileId challenges →
        F.Accepted lib e publicParams fileId challenges :=
  ⟨pairHashesWithY, fun _ _ _ _ hvalid => pairHashesWithY_accepted h hvalid⟩

/-- It is accepted on a challenge of one block. -/
theorem exists_procedure_always_accepted_zmod :
    ∃ F : Procedure, F.Accepted (zmodLib fun input => input.length) zmodPairing unitPublicParams [7]
      unitChallenge := by
  obtain ⟨F, haccepted⟩ := exists_procedure_always_accepted
    (zmodLib_lawful fun input => (input.length : ZMod 5))
  exact ⟨F, haccepted (.ofUInt64 1) unitPublicParams [7] unitChallenge
    ⟨by decide, by decide, by decide, by decide, by decide, by decide⟩⟩

/-- On a concrete library the procedure refutes unforgeability. -/
theorem zmod_not_unforgeable : ¬ Unforgeable (zmodLib fun input => input.length) zmodPairing := by
  intro h
  obtain ⟨a, publicParams, fileId, challenges, hvalid, hrejected⟩ := h pairHashesWithY
  exact hrejected (pairHashesWithY_accepted (zmodLib_lawful _) hvalid)

end DHTDynamic
