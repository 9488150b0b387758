import DHTDynamicAudit.Strategy.Challenges

/-!
# Challenge generation, one read at a time

`generateChallenges` asks the store whether it has the file and how many blocks,
draws, and then asks for the metadata object of one challenged block after the
other. Each of these requests takes the store's lock once; none changes the store.
The lock is free again when a metadata object is copied, so the copy is a turn of
its own.
-/

namespace DHTDynamic

variable {G1 G2 GT κ : Type}

/-- What the checks of `generateChallenges` leave for the requests to the store. -/
structure ChallengeJob (G1 G2 : Type) where
  runtime : ChallengeRuntime
  fuel : Nat
  algorithm_ : Option (SM9BLSAlgorithm G2)
  ext : DHTDynamicChallengeRequestExt G1 G2
  y : G2

/-- What is drawn beside the items. -/
structure ChallengeDraw (G2 : Type) where
  RPtr : Option G2
  r : SM9CryptoData
  blockCount : SizeT

/-- The points between two turns of a call, named after the turn that comes next. -/
inductive ChallengeRun (G2 : Type) where
  | hasFile
  | getBlockCount (algorithm : SM9BLSAlgorithm G2)
  | getBlockMetadata (draw : ChallengeDraw G2) (done : List ChallengeItem) (item : ChallengeItem)
      (rest : List ChallengeItem)
  /-- `item.metadata = *dynMeta`. -/
  | copyMetadata (draw : ChallengeDraw G2) (done : List ChallengeItem) (item : ChallengeItem)
      (metadata : Ref) (rest : List ChallengeItem)
  /-- A rejection loop that has not ended. -/
  | drawing
  | returned (challenges : Option (DHTDynamicChallenges G2))
  | thrown (e : Exception)

namespace ChallengeRun

/-- The checks that come before the first request. -/
def start (input : BasePtr (DHTDynamicChallengeRequestExt G1 G2)) : ChallengeRun G2 :=
  match input.cast with
  | none => .returned none
  | some ext =>
    if ext.fileId.isEmpty then
      .returned none
    else
      match ext.userPublicParams with
      | none => .returned none
      | some _ => if !ext.stateStore then .returned none else .hasFile

/-- The head of the loop over the items, and what follows it. -/
def next (draw : ChallengeDraw G2) (done : List ChallengeItem) :
    List ChallengeItem → ChallengeRun G2
  | [] =>
    match deref draw.RPtr with
    | .error e => .thrown e
    | .ok R =>
      .returned (some { R := R, r := draw.r, items := done, blockCount := draw.blockCount })
  | item :: rest => .getBlockMetadata draw done item rest

/-- How the call has ended, if it has; `none` inside for a loop that has not ended. -/
def outcome : ChallengeRun G2 →
    Option (Option (Except Exception (Option (DHTDynamicChallenges G2))))
  | .returned challenges => some (some (.ok challenges))
  | .thrown e => some (some (.error e))
  | .drawing => some none
  | _ => none

end ChallengeRun

/-- What happens between the block count and the first metadata request. -/
def drawChallenge (lib : CoreLib G1 G2 GT) (job : ChallengeJob G1 G2)
    (algorithm : SM9BLSAlgorithm G2) (blockCount : SizeT) : ChallengeRun G2 :=
  if blockCount = 0 then
    .returned (some { R := lib.g2Default, r := lib.scalarDefault, blockCount := blockCount })
  else
    match selectIndices job.runtime.rng job.fuel job.ext job.runtime.entropy blockCount with
    | none => .drawing
    | some picked =>
      match drawCoefficients lib (job.runtime.setOrder picked) job.fuel job.fuel
          algorithm.random with
      | none => .drawing
      | some (.error e, _) => .thrown e
      | some (.ok items, random) =>
        match drawScalar lib job.fuel random with
        | none => .drawing
        | some (none, _) => .thrown .blindScalarGeneration
        | some (some r, _) => .next ⟨lib.g2Mul job.y r, r, blockCount⟩ [] items

/-- The next turn of a call, and the point it comes to. -/
def challengeStep (lib : CoreLib G1 G2 GT) (job : ChallengeJob G1 G2) (run : ChallengeRun G2)
    (w : World κ) : ChallengeRun G2 :=
  match run with
  | .hasFile =>
    if !w.hasFile job.ext.fileId then
      .returned (some { R := lib.g2Default, r := lib.scalarDefault })
    else
      match job.algorithm_ with
      | none => .thrown .algorithmMissing
      | some algorithm =>
        if job.ext.blockCount ≠ 0 then drawChallenge lib job algorithm job.ext.blockCount
        else .getBlockCount algorithm
  | .getBlockCount algorithm =>
    match w.getBlockCount job.ext.fileId with
    | .error e => .thrown e
    | .ok blockCount => drawChallenge lib job algorithm blockCount
  | .getBlockMetadata draw done item rest =>
    match w.getBlockMetadata job.ext.fileId item.blockIndex with
    | .error e => .thrown e
    | .ok metadata => .copyMetadata draw done item metadata rest
  | .copyMetadata draw done item metadata rest =>
    -- the object is the one that was looked up, wherever the store has it now
    match w.copyMetadata item metadata with
    | .error e => .thrown e
    | .ok item => .next draw (done ++ [item]) rest
  | run => run

end DHTDynamic
