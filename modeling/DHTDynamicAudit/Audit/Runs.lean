import DHTDynamicAudit.Audit.Tagging
import DHTDynamicAudit.Core.Run
import DHTDynamicAudit.Strategy.Maintenance

/-!
# Runs of the store under audit

The owner tags blocks and maintains the store in any order. No object is ever
registered twice, so what a tag was computed over is what the store holds until
a maintenance request moves or bumps it.
-/

namespace DHTDynamic

open Core

variable {G1 G2 GT κ : Type} {lib : CoreLib G1 G2 GT}

/-- A request that may change the store. -/
inductive AuditCall (G1 G2 : Type) where
  | generateTags (input : GenerateTagsRequest G1 G2)
  | maintenance (input : MaintainRequest)

/-- What the caller gets back. -/
inductive AuditReply (G1 : Type) where
  | tags (result : Except Exception (Option (InMemoryTags G1)))
  | maintained (result : Except Exception Unit)

namespace World

variable [MetadataClass κ] {w : World κ}

/-- Serve one request. -/
def auditCall (lib : CoreLib G1 G2 GT) (w : World κ) :
    AuditCall G1 G2 → AuditReply G1 × World κ
  | .generateTags input => (.tags (w.generateTags lib input).1, (w.generateTags lib input).2)
  | .maintenance input => (.maintained (w.maintenance input).1, (w.maintenance input).2)

theorem WellFormed.updateOne (h : w.WellFormed) (fileId : Bytes) (blockIndex : SizeT) :
    (World.updateOne fileId w blockIndex).2.WellFormed := by
  unfold World.updateOne
  cases w.getBlockMetadata fileId blockIndex with
  | error e => exact h
  | ok existing =>
    cases hm : (w.heap existing).asVersioned with
    | none => simpa only [hm] using h
    | some m => simpa only [hm] using h.modifyBlock fileId blockIndex

theorem WellFormed.maintenance (h : w.WellFormed) (input : MaintainRequest) :
    (w.maintenance input).2.WellFormed := by
  unfold World.maintenance
  cases input.ext with
  | null => exact h
  | foreign => exact h
  | typed ext =>
    simp only
    split_ifs
    · exact h
    · exact h
    · exact h
    · unfold handleUpdate
      split_ifs
      · exact h.now
      · exact forEach_preserves (fun _ i _ hu => hu.updateOne ext.fileId i) h.now
    · unfold handleInsert
      split_ifs
      · exact h.now
      · exact forEach_preserves (fun _ i _ hu => hu.insertBlock ext.fileId i) h.now
    · unfold handleDelete
      split_ifs
      · exact h.now
      · exact forEach_preserves (fun _ i _ hu => hu.deleteBlock ext.fileId i) h.now
    · exact h.now

theorem WellFormed.auditCall (h : w.WellFormed) (call : AuditCall G1 G2) :
    (w.auditCall lib call).2.WellFormed := by
  cases call with
  | generateTags input => exact (generateTags_tagging lib h input).1.wellFormed
  | maintenance input => exact h.maintenance input

/-- The store after the first `k` requests. -/
abbrev afterCalls (lib : CoreLib G1 G2 GT) (w : World κ) (calls : List (AuditCall G1 G2))
    (k : Nat) : World κ :=
  stateAfter (auditCall lib) w calls k

theorem WellFormed.afterCalls (h : w.WellFormed) (calls : List (AuditCall G1 G2)) (k : Nat) :
    (w.afterCalls lib calls k).WellFormed :=
  stateAfter_invariant (fun _ call hu => hu.auditCall call) h

end World

end DHTDynamic
