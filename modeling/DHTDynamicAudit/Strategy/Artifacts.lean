import DHTDynamicAudit.Strategy.Proofs
import DHTDynamicAudit.Strategy.Wire

/-!
# Audit artifacts

The objects an audit keeps and exchanges: parameters, tags, challenges, proofs
and block metadata. The artifact factory makes an empty object of each kind, and
every kind writes and reads its own bytes.
-/

namespace DHTDynamic

open Core

/-- What the operators of tags need of CoreLib beyond the stages. -/
structure TagLib (G1 G2 GT : Type) extends CoreLib G1 G2 GT where
  g1Sub : G1 → G1 → Option G1
  /-- `G1Point::operator==`. -/
  g1Eq : G1 → G1 → Bool

/-- What artifacts need on top of it. -/
structure ArtifactLib (G1 G2 GT : Type) extends TagLib G1 G2 GT where
  /-- A default-constructed `G1Point`. -/
  g1Default : G1
  /-- A default-constructed `SM9GTElement`. -/
  gtDefault : GT
  /-- `G1Point::toRawStruct()` and the constructor from it. -/
  rawG1 : FixedWidth UInt8 G1
  /-- `G2Point::toRawStruct()` and the constructor from it. -/
  rawG2 : FixedWidth UInt8 G2
  /-- `SM9GTElement::serialize()`. -/
  gtSerialize : GT → Bytes
  /-- `SM9GTElement::deserialize()` into an element; `none` when it returns false. -/
  gtDeserialize : GT → Bytes → Option GT

variable {G1 G2 GT : Type}

/-! ## Tags -/

/-- What the operators of `DHTDynamicTag` throw. -/
inductive TagException where
  | assignMismatch
  | addMismatch
  | subMismatch
  | scalarRequired
  /-- Not thrown: a null operator result is dereferenced (undefined behaviour). -/
  | nullDereference
  deriving DecidableEq, Repr

/-- The `what()` text. -/
def TagException.what : TagException → Bytes
  | assignMismatch => literal "DHTDynamicTag assign type mismatch"
  | addMismatch => literal "DHTDynamicTag add type mismatch"
  | subMismatch => literal "DHTDynamicTag sub type mismatch"
  | scalarRequired => literal "DHTDynamicTag scalar multiplication requires SM9CryptoData"
  | nullDereference => []

namespace DHTDynamicTag

section Operators

variable (lib : TagLib G1 G2 GT)

/-- A tag from the point an operator returned. -/
def ofPoint : Option G1 → Except TagException (Tag G1)
  | some point => .ok (.dhtDynamic point)
  | none => .error .nullDereference

/-- `assign`: the new point. -/
def assign : Tag G1 → Except TagException G1
  | .dhtDynamic sigma => .ok sigma
  | .foreign => .error .assignMismatch

/-- `operator+`. -/
def add (sigma_ : G1) : Tag G1 → Except TagException (Tag G1)
  | .dhtDynamic sigma => ofPoint (lib.g1Add sigma_ sigma)
  | .foreign => .error .addMismatch

/-- `operator-`. -/
def sub (sigma_ : G1) : Tag G1 → Except TagException (Tag G1)
  | .dhtDynamic sigma => ofPoint (lib.g1Sub sigma_ sigma)
  | .foreign => .error .subMismatch

/-- `operator==`. -/
def eq (sigma_ : G1) : Tag G1 → Bool
  | .dhtDynamic sigma => lib.g1Eq sigma_ sigma
  | .foreign => false

/-- `operator*`. -/
def mul (sigma_ : G1) (scalar : BasePtr SM9CryptoData) : Except TagException (Tag G1) :=
  match scalar.cast with
  | some k => ofPoint (lib.g1Mul sigma_ k)
  | none => .error .scalarRequired

end Operators

variable (lib : ArtifactLib G1 G2 GT)

/-- The default constructor: the point at infinity. -/
def default : G1 := lib.g1Infinity

/-- `do_serialize`. -/
def do_serialize (sigma_ : G1) : Bytes := lib.rawG1.encode sigma_

/-- `do_deserialize`. -/
def do_deserialize : Reader UInt8 G1 := lib.rawG1.read

end DHTDynamicTag

variable (lib : ArtifactLib G1 G2 GT)

/-! ## Parameters -/

/-- `kEmptyMarker` of the algorithm parameters. -/
def kEmptyMarker : UInt8 := 0x00

/-- `do_serialize` of `DHTDynamicAlgoPublicParams` and `DHTDynamicAlgoPrivateParams`. -/
def DHTDynamicAlgoParams.do_serialize : Bytes := byteField.encode kEmptyMarker

/-- Their `do_deserialize`; the marker is not looked at. -/
def DHTDynamicAlgoParams.do_deserialize : Reader UInt8 Unit := do
  let _emptyMarker ← byteField.read
  return ()

/-- `DHTDynamicPublicParams::do_serialize`. -/
def DHTDynamicPublicParams.do_serialize (params : DHTDynamicPublicParams G1 G2) : Bytes :=
  lib.rawG2.encode params.pk ++ lib.rawG2.encode params.g ++ lib.rawG2.encode params.y ++
    lib.rawG1.encode params.u

/-- `DHTDynamicPublicParams::do_deserialize` into an object with some content. -/
def DHTDynamicPublicParams.do_deserialize (target : DHTDynamicPublicParams G1 G2) :
    Reader UInt8 (DHTDynamicPublicParams G1 G2) := do
  let pk ← lib.rawG2.read
  let target := { target with pk := pk }
  let g ← lib.rawG2.read
  let target := { target with g := g }
  let y ← lib.rawG2.read
  let target := { target with y := y }
  let u ← lib.rawG1.read
  return { target with u := u }

/-- `DHTDynamicPrivateParams::do_serialize`. -/
def DHTDynamicPrivateParams.do_serialize (params : DHTDynamicPrivateParams) : Bytes :=
  params.sk.data ++ params.a.data

/-- `DHTDynamicPrivateParams::do_deserialize` into an object with some content. -/
def DHTDynamicPrivateParams.do_deserialize (target : DHTDynamicPrivateParams) :
    Reader UInt8 DHTDynamicPrivateParams := do
  let sk ← scalarField.read
  let target := { target with sk := sk }
  let a ← scalarField.read
  return { target with a := a }

/-! ## Proofs and metadata -/

/-- `DHTDynamicProves::do_serialize`. -/
def DHTDynamicProves.do_serialize (proves : DHTDynamicProves GT) : Bytes :=
  writeCounted byteField.encode (lib.gtSerialize proves.theta) ++
    writeCounted byteField.encode (lib.gtSerialize proves.lambda)

/-- `DHTDynamicProves::do_deserialize` into an object with some content. -/
def DHTDynamicProves.do_deserialize (target : DHTDynamicProves GT) :
    Reader UInt8 (DHTDynamicProves GT) := do
  let thetaData ← readCounted byteField.read
  let theta ← StateT.lift (lib.gtDeserialize target.theta thetaData.1)
  let target := { target with theta := theta }
  let lambdaData ← readCounted byteField.read
  let lambda ← StateT.lift (lib.gtDeserialize target.lambda lambdaData.1)
  return { target with lambda := lambda }

/-- `VersionedBlockMetadata::do_deserialize` into an object with some content. -/
def VersionedBlockMetadata.do_deserialize (target : VersionedBlockMetadata) :
    Reader UInt8 VersionedBlockMetadata := do
  let version ← uint64Field.read
  let target := { target with version := version }
  let timestamp ← uint64Field.read
  return { target with timestamp := timestamp }

/-! ## The factory -/

/-- `AuditArtifactKind`. -/
inductive AuditArtifactKind where
  | AlgorithmPublicParams
  | AlgorithmPrivateParams
  | UserPublicParams
  | UserPrivateParams
  | Tag
  | Challenges
  | Proves
  | DynamicBlockMetadata
  /-- A value without a case of its own. -/
  | other
  deriving DecidableEq, Repr

/-- The concrete object an `AuditArtifactVariant` of this strategy points to. -/
inductive AuditArtifact (G1 G2 GT : Type) where
  | algoPublicParams
  | algoPrivateParams
  | publicParams (params : DHTDynamicPublicParams G1 G2)
  | privateParams (params : DHTDynamicPrivateParams)
  | tag (sigma_ : G1)
  | challenges (challenges : DHTDynamicChallenges G2)
  | proves (proves : DHTDynamicProves GT)
  | blockMetadata (metadata : VersionedBlockMetadata)

/-- `DHTDynamicAuditArtifactFactory::createArtifact`; an error is the text thrown. -/
def createArtifact : AuditArtifactKind → Except Bytes (AuditArtifact G1 G2 GT)
  | .AlgorithmPublicParams => .ok .algoPublicParams
  | .AlgorithmPrivateParams => .ok .algoPrivateParams
  | .UserPublicParams =>
    .ok (.publicParams ⟨lib.g2Default, lib.g2Default, lib.g2Default, lib.g1Default⟩)
  | .UserPrivateParams => .ok (.privateParams ⟨lib.scalarDefault, lib.scalarDefault⟩)
  | .Tag => .ok (.tag (DHTDynamicTag.default lib))
  | .Challenges => .ok (.challenges { R := lib.g2Default, r := lib.scalarDefault })
  | .Proves => .ok (.proves ⟨lib.gtDefault, lib.gtDefault⟩)
  | .DynamicBlockMetadata => .ok (.blockMetadata {})
  | .other => .error (literal "unsupported audit artifact kind for DHTDynamic strategy")

namespace AuditArtifact

/-- The kind an object is created for. -/
def kind : AuditArtifact G1 G2 GT → AuditArtifactKind
  | algoPublicParams => .AlgorithmPublicParams
  | algoPrivateParams => .AlgorithmPrivateParams
  | publicParams _ => .UserPublicParams
  | privateParams _ => .UserPrivateParams
  | tag _ => .Tag
  | challenges _ => .Challenges
  | proves _ => .Proves
  | blockMetadata _ => .DynamicBlockMetadata

/-- The virtual `do_serialize`. -/
def do_serialize : AuditArtifact G1 G2 GT → Bytes
  | algoPublicParams | algoPrivateParams => DHTDynamicAlgoParams.do_serialize
  | publicParams params => params.do_serialize lib
  | privateParams params => params.do_serialize
  | tag sigma_ => DHTDynamicTag.do_serialize lib sigma_
  | challenges object => object.do_serialize lib.rawG2
  | proves object => object.do_serialize lib
  | blockMetadata metadata => metadata.serialize

/-- The virtual `do_deserialize`: what the object is afterwards. -/
def do_deserialize : AuditArtifact G1 G2 GT → Reader UInt8 (AuditArtifact G1 G2 GT)
  | algoPublicParams => do
    DHTDynamicAlgoParams.do_deserialize
    return algoPublicParams
  | algoPrivateParams => do
    DHTDynamicAlgoParams.do_deserialize
    return algoPrivateParams
  | publicParams target => do return publicParams (← target.do_deserialize lib)
  | privateParams target => do return privateParams (← target.do_deserialize)
  | tag _ => do return tag (← DHTDynamicTag.do_deserialize lib)
  | challenges target => do return challenges (← target.do_deserialize lib.rawG2)
  | proves target => do return proves (← target.do_deserialize lib)
  | blockMetadata target => do return blockMetadata (← target.do_deserialize)

end AuditArtifact

end DHTDynamic
