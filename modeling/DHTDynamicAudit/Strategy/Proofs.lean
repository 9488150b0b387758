import DHTDynamicAudit.Core.Loop
import DHTDynamicAudit.Strategy.Common

/-!
# Proof generation and verification

The prover skips every item it cannot use and multiplies up the rest; the
verifier sums the hash points of all items and checks `Θ^r = Λ · e(H, R)`.
-/

namespace DHTDynamic

open Core (forEach)

variable {G1 G2 GT : Type} (lib : CoreLib G1 G2 GT)

/-- `DHTDynamicProveRequestExt`. -/
structure DHTDynamicProveRequestExt (G1 G2 : Type) where
  tags : Option (InMemoryTags G1) := none
  blocks : Option AuditBlockSource := none
  userPublicParams : Option (DHTDynamicPublicParams G1 G2) := none

/-- `GenerateProofsRequest`. -/
structure GenerateProofsRequest (G1 G2 : Type) where
  ext : BasePtr (DHTDynamicProveRequestExt G1 G2)
  challenges : BasePtr (DHTDynamicChallenges G2)

/-- `GenerateProofsResult`. -/
structure GenerateProofsResult (G1 G2 GT : Type) where
  proves : Option (DHTDynamicProves GT) := none
  ext : BasePtr (DHTDynamicProveRequestExt G1 G2) := .null

/-- The tag point of a challenged block, unless the prover skips the item: index zero, no tag,
a tag of another class, or a point at infinity. -/
def usableSigma (tags : InMemoryTags G1) (item : ChallengeItem) : Option G1 :=
  if item.blockIndex = 0 then none
  else
    match tags[item.blockIndex - 1]? with
    | some (.dhtDynamic sigma) => if lib.g1IsInfinity sigma then none else some sigma
    | _ => none

/-- What the loop of `generateProofs` accumulates. -/
structure Accumulator (GT : Type) where
  Theta : GT
  M : SM9CryptoData
  accumulated : Bool

/-- `M += ν · Σ segment`; a null product leaves `M` as it is, a null sum is dereferenced. -/
def accumulateM (M nu blockScalar : SM9CryptoData) : Except Exception SM9CryptoData :=
  match lib.scalarMul nu blockScalar with
  | none => .ok M
  | some nuM => deref (lib.scalarAdd M nuM)

/-- One pass over a challenge item; skipped items leave the accumulator alone. -/
def proveOne (g : G2) (tags : InMemoryTags G1) (blocks : AuditBlockSource) (acc : Accumulator GT)
    (item : ChallengeItem) : Except Exception Unit × Accumulator GT :=
  match usableSigma lib tags item with
  | none => (.ok (), acc)
  | some sigma =>
    match lib.pairing sigma g with
    | none => (.ok (), acc)
    | some theta =>
      match lib.gtPow theta item.nu with
      | none => (.ok (), acc)
      | some thetaNu =>
        -- `Theta` is updated before the block is read
        let acc := { acc with Theta := (lib.gtMul acc.Theta thetaNu).getD acc.Theta }
        match blocks.read (item.blockIndex - 1) with
        | .error e => (.error e, acc)
        | .ok block =>
          match accumulateM lib acc.M item.nu (accumulateBlockSegmentsScalar lib block) with
          | .error e => (.error e, acc)
          | .ok M => (.ok (), { acc with M := M, accumulated := true })

/-- `generateProofs`. -/
def generateProofs (input : GenerateProofsRequest G1 G2) :
    Except Exception (GenerateProofsResult G1 G2 GT) :=
  match input.ext.cast, input.challenges.cast with
  | some ext, some challenges =>
    match ext.blocks, ext.tags, ext.userPublicParams with
    | some blocks, some tags, some publicParams =>
      if challenges.items.isEmpty then
        .ok {}
      else
        match forEach (proveOne lib publicParams.g tags blocks)
            ⟨lib.gtOne, SM9CryptoData.ofUInt64 0, false⟩ challenges.items with
        | (.error e, _) => .error e
        | (.ok (), acc) =>
          if !acc.accumulated then
            .ok {}
          else
            match lib.pairing publicParams.u challenges.R with
            | none => .ok {}
            | some lambda =>
              let proves := ⟨acc.Theta, (lib.gtPow lambda acc.M).getD lambda⟩
              .ok { proves := some proves, ext := input.ext }
    | _, _, _ => .ok {}
  | _, _ => .ok {}

/-- `DHTDynamicVerifyRequestExt`. -/
structure DHTDynamicVerifyRequestExt (G1 G2 : Type) where
  fileId : Bytes := []
  userPublicParams : Option (DHTDynamicPublicParams G1 G2) := none

/-- `VerifyProofsRequest`. -/
structure VerifyProofsRequest (G1 G2 GT : Type) where
  challenges : List (BasePtr (DHTDynamicChallenges G2))
  proves : List (BasePtr (DHTDynamicProves GT))
  ext : BasePtr (DHTDynamicVerifyRequestExt G1 G2)

/-- `VerifyProofsResult`. -/
structure VerifyProofsResult (G1 G2 : Type) where
  ok : Bool
  reason : String
  ext : BasePtr (DHTDynamicVerifyRequestExt G1 G2) := .null

/-- A negative answer and its reason. -/
def VerifyProofsResult.reject (reason : String) : VerifyProofsResult G1 G2 := ⟨false, reason, .null⟩

/-- `H += [ν]H_j` for one item; the flag is `hAccumulated`. -/
def hashOne (fileId : Bytes) (s : G1 × Bool) (item : ChallengeItem) :
    Except Exception Unit × G1 × Bool :=
  match lib.g1Mul (computeBlockHash lib fileId item.blockIndex item.metadata) item.nu with
  | none => (.error .nullDereference, s)
  | some nuH =>
    match lib.g1Add s.1 nuH with
    | none => (.error .nullDereference, s)
    | some H => (.ok (), H, true)

/-- Steps 2 to 4 of `verifyProofs`: the check of `Θ^r = Λ · e(H, R)`. -/
def checkEquation (H : G1) (challenges : DHTDynamicChallenges G2) (proves : DHTDynamicProves GT)
    (ext : BasePtr (DHTDynamicVerifyRequestExt G1 G2)) : VerifyProofsResult G1 G2 :=
  match lib.gtPow proves.theta challenges.r with
  | none => .reject "Failed to compute Θ^r"
  | some thetaR =>
    match lib.pairing H challenges.R with
    | none => .reject "Failed to compute e(H, R)"
    | some eHR =>
      match lib.gtMul proves.lambda eHR with
      | none => .reject "Failed to compute Λ · e(H, R)"
      | some rhs =>
        if lib.gtEq thetaR rhs then ⟨true, "OK", ext⟩
        else ⟨false, "Verification failed: Θ^r ≠ Λ · e(H, R)", ext⟩

/-- `verifyProofs`; only the first challenge and the first proof are used. -/
def verifyProofs (input : VerifyProofsRequest G1 G2 GT) :
    Except Exception (VerifyProofsResult G1 G2) :=
  match input.challenges, input.proves with
  | challengesPtr :: _, provesPtr :: _ =>
    match input.ext.cast, challengesPtr.cast, provesPtr.cast with
    | some ext, some challenges, some proves =>
      if ext.fileId.isEmpty then
        .ok (.reject "fileId required for verification")
      else
        match ext.userPublicParams with
        | none => .ok (.reject "User public params required for verification")
        | some publicParams =>
          if challenges.items.isEmpty then
            .ok (.reject "No challenge items — challengeCount was zero or not set")
          else if lib.g2IsInfinity publicParams.pk then
            .ok (.reject "Public key pk is at infinity — invalid user params")
          else
            match forEach (hashOne lib ext.fileId) (lib.g1Infinity, false) challenges.items with
            | (.error e, _) => .error e
            | (.ok (), H, hAccumulated) =>
              if !hAccumulated then .ok (.reject "No valid challenge items for H computation")
              else .ok (checkEquation lib H challenges proves input.ext)
    | _, _, _ => .ok (.reject "DHTDynamicVerifyRequestExt/Challenges/Proves required")
  | _, _ => .ok (.reject "Empty challenges or proves vector")

end DHTDynamic
