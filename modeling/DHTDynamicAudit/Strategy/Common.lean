import DHTDynamicAudit.Strategy.Crypto

/-!
# Helpers shared by the stages

The hash point of a block and the scalar its content stands for.
-/

namespace DHTDynamic

variable {G1 G2 GT : Type} (lib : CoreLib G1 G2 GT)

/-- The eight bytes of a block index, most significant first. -/
def bigEndianBytes (blockIndex : SizeT) : Bytes :=
  (List.range 8).reverse.map fun i => ((blockIndex >>> UInt64.ofNat (i * 8)) &&& 0xFF).toUInt8

/-- The bytes `computeBlockHash` hashes: `fileId ‖ blockIndex ‖ metadata.serialize()`. -/
def blockHashInput (fileId : Bytes) (blockIndex : SizeT) (metadata : VersionedBlockMetadata) :
    Bytes :=
  fileId ++ bigEndianBytes blockIndex ++ metadata.serialize

/-- `computeBlockHash`. -/
def computeBlockHash (fileId : Bytes) (blockIndex : SizeT) (metadata : VersionedBlockMetadata) :
    G1 :=
  lib.hashToCurve (blockHashInput fileId blockIndex metadata)

/-- `segmentSize`. -/
def segmentSize : Nat := 32

/-- Segment `j` of a block, zero-padded to 32 bytes. -/
def segment (block : Bytes) (j : Nat) : SM9CryptoData :=
  SM9CryptoData.ofBytes ((block.drop (j * segmentSize)).take segmentSize)

/-- `accumulateBlockSegmentsScalar`; a null sum leaves the running one as it is. -/
def accumulateBlockSegmentsScalar (block : Bytes) : SM9CryptoData :=
  let segmentCount := (block.length + segmentSize - 1) / segmentSize
  (List.range segmentCount).foldl
    (fun sum j => (lib.scalarAdd sum (segment block j)).getD sum) (SM9CryptoData.ofUInt64 0)

/-- `accumulateBlockSegmentsG1`. -/
def accumulateBlockSegmentsG1 (block : Bytes) (basePoint : G1) : Except Exception G1 :=
  deref (lib.g1Mul basePoint (accumulateBlockSegmentsScalar lib block))

end DHTDynamic
