import DHTDynamicAudit.Strategy.Keys
import DHTDynamicAudit.Strategy.StateStore

/-!
# Challenge generation

`generateChallenges` only reads the store. The index generator, the iteration
order of the hash set and the cryptographic random source are parameters; the
rejection loops run on fuel, and `none` means that one had not ended by then.
-/

namespace DHTDynamic

variable {G1 G2 GT κ : Type} (lib : CoreLib G1 G2 GT)

/-- `std::mt19937_64` under `std::uniform_int_distribution`. -/
structure IndexRng where
  State : Type
  seeded : UInt64 → State
  uniform : SizeT → SizeT → State → SizeT × State
  uniform_mem : ∀ lo hi s, lo ≤ hi → lo ≤ (uniform lo hi s).1 ∧ (uniform lo hi s).1 ≤ hi

/-- What a run of `generateChallenges` takes from the standard library. -/
structure ChallengeRuntime where
  rng : IndexRng
  /-- The value of `std::random_device{}()`. -/
  entropy : UInt64
  /-- The order in which an `std::unordered_set` is walked. -/
  setOrder : List SizeT → List SizeT
  setOrder_perm : ∀ picked, (setOrder picked).Perm picked

/-- `DHTDynamicChallengeRequestExt`. -/
structure DHTDynamicChallengeRequestExt (G1 G2 : Type) where
  fileId : Bytes := []
  userPublicParams : Option (DHTDynamicPublicParams G1 G2) := none
  blockCount : SizeT := 0
  challengeCount : SizeT := 0
  usePseudoRandom : Bool := true
  seed : Option UInt64 := none
  /-- Whether the state store pointer is set. -/
  stateStore : Bool := false

/-- The seed of the index generator. -/
def DHTDynamicChallengeRequestExt.rngSeed (ext : DHTDynamicChallengeRequestExt G1 G2)
    (entropy : UInt64) : UInt64 :=
  match ext.usePseudoRandom, ext.seed with
  | true, some seed => seed
  | _, _ => entropy

/-- The number of blocks to challenge, and the generator after it. -/
def resolveCount (rng : IndexRng) (challengeCount blockCount : SizeT) (s : rng.State) :
    SizeT × rng.State :=
  if challengeCount ≠ 0 then (min challengeCount blockCount, s) else rng.uniform 1 blockCount s

/-- The loop `while (picked.size() < count) picked.insert(dist(rng))`. -/
def pickIndices (rng : IndexRng) (count blockCount : SizeT) :
    Nat → List SizeT → rng.State → Option (List SizeT)
  | 0, picked, _ => if picked.length < count.toNat then none else some picked
  | fuel + 1, picked, s =>
    if picked.length < count.toNat then
      let (index, s) := rng.uniform 1 blockCount s
      pickIndices rng count blockCount fuel (if index ∈ picked then picked else index :: picked) s
    else
      some picked

/-- The indices a request selects out of `1..blockCount`, in the order drawn. -/
def selectIndices (rng : IndexRng) (fuel : Nat) (ext : DHTDynamicChallengeRequestExt G1 G2)
    (entropy : UInt64) (blockCount : SizeT) : Option (List SizeT) :=
  let (count, s) :=
    resolveCount rng ext.challengeCount blockCount (rng.seeded (ext.rngSeed entropy))
  pickIndices rng count blockCount fuel [] s

/-- One item for each index with a fresh non-zero coefficient, and the sum `ν` so far. -/
def drawItems (fuel : Nat) : List SizeT → SM9CryptoData → Stream' Bytes →
    Option (Except Exception (SM9CryptoData × List ChallengeItem) × Stream' Bytes)
  | [], nu, random => some (.ok (nu, []), random)
  | index :: rest, nu, random =>
    match drawScalar lib fuel random with
    | none => none
    | some (none, random) => some (.error .coefficientGeneration, random)
    | some (some v, random) =>
      match deref (lib.scalarAdd nu v) with
      | .error e => some (.error e, random)
      | .ok nu =>
        match drawItems fuel rest nu random with
        | none => none
        | some (.error e, random) => some (.error e, random)
        | some (.ok (nu, items), random) =>
          some (.ok (nu, { blockIndex := index, nu := v } :: items), random)

/-- The loop that draws all coefficients again while their sum is zero. -/
def drawCoefficients (picked : List SizeT) (fuel : Nat) :
    Nat → Stream' Bytes → Option (Except Exception (List ChallengeItem) × Stream' Bytes)
  | 0, _ => none
  | rounds + 1, random =>
    match drawItems lib fuel picked lib.scalarDefault random with
    | none => none
    | some (.error e, random) => some (.error e, random)
    | some (.ok (nu, items), random) =>
      if lib.isZero nu then drawCoefficients picked fuel rounds random
      else some (.ok items, random)

namespace World

/-- The cast of a metadata object to the versioned class, and the copy of it into the item. -/
def copyMetadata (w : World κ) (item : ChallengeItem) (metadata : Ref) :
    Except Exception ChallengeItem :=
  match (w.heap metadata).asVersioned with
  | none => .error (.challengeNotVersioned item.blockIndex)
  | some dynMeta => .ok { item with metadata := dynMeta }

/-- The metadata of a challenged block, read from the store. -/
def attachMetadata (w : World κ) (fileId : Bytes) (item : ChallengeItem) :
    Except Exception ChallengeItem := do
  let metadata ← w.getBlockMetadata fileId item.blockIndex
  w.copyMetadata item metadata

/-- The part of `generateChallenges` after the indices are picked. -/
def buildChallenges (w : World κ) (fuel : Nat) (fileId : Bytes) (y : G2) (blockCount : SizeT)
    (picked : List SizeT) (random : Stream' Bytes) :
    Option (Except Exception (DHTDynamicChallenges G2)) :=
  match drawCoefficients lib picked fuel fuel random with
  | none => none
  | some (.error e, _) => some (.error e)
  | some (.ok items, random) =>
    match drawScalar lib fuel random with
    | none => none
    | some (none, _) => some (.error .blindScalarGeneration)
    | some (some r, _) =>
      let RPtr := lib.g2Mul y r
      some do
        let items ← items.mapM (w.attachMetadata fileId)
        let R ← deref RPtr
        return { R := R, r := r, items := items, blockCount := blockCount }

/-- The number of blocks a challenge draws from: the request's, or what the store counts. -/
def resolveBlockCount (w : World κ) (ext : DHTDynamicChallengeRequestExt G1 G2) :
    Except Exception SizeT :=
  if ext.blockCount ≠ 0 then .ok ext.blockCount else w.getBlockCount ext.fileId

/-- The part of `generateChallenges` after the block count is resolved. -/
def challengeBlocks (w : World κ) (runtime : ChallengeRuntime) (fuel : Nat)
    (algorithm : SM9BLSAlgorithm G2) (ext : DHTDynamicChallengeRequestExt G1 G2) (y : G2)
    (blockCount : SizeT) : Option (Except Exception (DHTDynamicChallenges G2)) :=
  if blockCount = 0 then
    some (.ok { R := lib.g2Default, r := lib.scalarDefault, blockCount := blockCount })
  else
    match selectIndices runtime.rng fuel ext runtime.entropy blockCount with
    | none => none
    | some picked =>
      w.buildChallenges lib fuel ext.fileId y blockCount (runtime.setOrder picked) algorithm.random

/-- `generateChallenges`; a request that lacks an input returns no challenges. -/
def generateChallenges (w : World κ) (runtime : ChallengeRuntime) (fuel : Nat)
    (algorithm_ : Option (SM9BLSAlgorithm G2))
    (input : BasePtr (DHTDynamicChallengeRequestExt G1 G2)) :
    Option (Except Exception (Option (DHTDynamicChallenges G2))) :=
  match input.cast with
  | none => some (.ok none)
  | some ext =>
    if ext.fileId.isEmpty then
      some (.ok none)
    else
      match ext.userPublicParams with
      | none => some (.ok none)
      | some publicParams =>
        if !ext.stateStore then
          some (.ok none)
        else if !w.hasFile ext.fileId then
          some (.ok (some { R := lib.g2Default, r := lib.scalarDefault }))
        else
          match algorithm_ with
          | none => some (.error .algorithmMissing)
          | some algorithm =>
            match w.resolveBlockCount ext with
            | .error e => some (.error e)
            | .ok blockCount =>
              (w.challengeBlocks lib runtime fuel algorithm ext publicParams.y blockCount).map
                fun result => result.map some

end World

end DHTDynamic
