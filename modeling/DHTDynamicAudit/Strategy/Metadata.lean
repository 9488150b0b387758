import Mathlib.Data.UInt

/-!
# Block metadata

`VersionedBlockMetadata` is the record a tag is computed over. The store only
knows CoreLib's `BlockMetadata` interface, so a metadata object is either of the
versioned class or of some other subclass `κ` supplied through the factory.
-/

namespace DHTDynamic

/-- A `std::string` or a `std::vector<std::uint8_t>`: any byte string. -/
abbrev Bytes := List UInt8

/-- `std::size_t` of the 64-bit targets; its arithmetic wraps. -/
abbrev SizeT := UInt64

/-- The bytes of a string literal of the sources. -/
def literal (s : String) : Bytes := s.toUTF8.toList

/-- `std::to_string` of an unsigned value. -/
def toString (n : SizeT) : Bytes := literal (Nat.repr n.toNat)

/-- The eight bytes of an unsigned 64-bit field in native (little-endian) order. -/
def nativeBytes (n : UInt64) : Bytes :=
  (List.range 8).map fun i => (n >>> (UInt64.ofNat (i * 8))).toUInt8

/-- The record hashed with a block: its version and the second of its last change. -/
structure VersionedBlockMetadata where
  version : UInt64 := 1
  timestamp : UInt64 := 0
  deriving DecidableEq, Repr

namespace VersionedBlockMetadata

/-- Increment the version and refresh the timestamp from the clock reading `now`. -/
def bump (m : VersionedBlockMetadata) (now : UInt64) : VersionedBlockMetadata :=
  { version := m.version + 1, timestamp := now }

/-- `CryptoSerializable::serialize()`: the two fields written by `do_serialize`, in order. -/
def serialize (m : VersionedBlockMetadata) : Bytes :=
  nativeBytes m.version ++ nativeBytes m.timestamp

end VersionedBlockMetadata

/-- The part of a foreign `BlockMetadata` subclass the store relies on: its `bump` override. -/
class MetadataClass (κ : Type) where
  bump : κ → UInt64 → κ

instance : MetadataClass Empty := ⟨fun m _ => m⟩

/-- What a `shared_ptr<BlockMetadata>` can point to. -/
inductive BlockMetadata (κ : Type) where
  | versioned (m : VersionedBlockMetadata)
  | custom (m : κ)
  deriving DecidableEq, Repr

namespace BlockMetadata

variable {κ : Type}

/-- The virtual `bump()`, dispatched on the object's class. -/
def bump [MetadataClass κ] : BlockMetadata κ → UInt64 → BlockMetadata κ
  | .versioned m, now => .versioned (m.bump now)
  | .custom m, now => .custom (MetadataClass.bump m now)

/-- `std::dynamic_pointer_cast<VersionedBlockMetadata>`; `none` is the null result. -/
def asVersioned : BlockMetadata κ → Option VersionedBlockMetadata
  | .versioned m => some m
  | .custom _ => none

@[simp] theorem asVersioned_versioned (m : VersionedBlockMetadata) :
    (BlockMetadata.versioned m : BlockMetadata κ).asVersioned = some m := rfl

@[simp] theorem asVersioned_custom (m : κ) : (BlockMetadata.custom m).asVersioned = none := rfl

@[simp] theorem bump_versioned [MetadataClass κ] (m : VersionedBlockMetadata) (now : UInt64) :
    (BlockMetadata.versioned m : BlockMetadata κ).bump now = .versioned (m.bump now) := rfl

end BlockMetadata

/-- CoreLib's `BlockMetadataFactory`; it may use the clock reading it is called at. -/
abbrev BlockMetadataFactory (κ : Type) := UInt64 → BlockMetadata κ

/-- The default factory of `DynamicHashTableStateStore`: version 1, current second. -/
def defaultMetadataFactory {κ : Type} : BlockMetadataFactory κ :=
  fun now => .versioned ⟨1, now⟩

/-- A pointer to a base class: null, to an object of another class, or of the expected one. -/
inductive BasePtr (α : Type) where
  | null
  | foreign
  | typed (object : α)
  deriving Repr

/-- `std::dynamic_pointer_cast` to the expected class; `none` is the null result. -/
def BasePtr.cast {α : Type} : BasePtr α → Option α
  | .typed ext => some ext
  | _ => none

theorem BasePtr.cast_eq_some {α : Type} {p : BasePtr α} {object : α} :
    p.cast = some object ↔ p = .typed object := by
  cases p <;> simp [BasePtr.cast]

/-- The store methods that look a file up before they do anything else. -/
inductive StoreMethod where
  | removeFile
  | getBlockMetadata
  | getBlockCount
  | getBlockMetadataCollection
  | modifyBlock
  | insertBlock
  | deleteBlock
  deriving DecidableEq, Repr

/-- The method's name as its error texts spell it. -/
def StoreMethod.name : StoreMethod → String
  | .removeFile => "removeFile"
  | .getBlockMetadata => "getBlockMetadata"
  | .getBlockCount => "getBlockCount"
  | .getBlockMetadataCollection => "getBlockMetadataCollection"
  | .modifyBlock => "modifyBlock"
  | .insertBlock => "insertBlock"
  | .deleteBlock => "deleteBlock"

/-- Every place of the modelled sources that throws, with the values its text quotes. -/
inductive Exception where
  | fileExists (fileId : Bytes)
  | zeroBlockCount
  | fileMissing (method : StoreMethod) (fileId : Bytes)
  | blockNull (method : StoreMethod) (blockIndex : SizeT) (fileId : Bytes)
  | maintenanceExtRequired
  | maintenanceExtType
  | maintenanceFileIdRequired
  | maintenanceStateStoreMissing
  | maintenanceFileNotFound (fileId : Bytes)
  | unsupportedOpType (opType : UInt8)
  | blockIndicesRequired (operation : String)
  | updateNotVersioned (blockIndex : SizeT)
  | targetOutsideWindow (index windowStart blockCount : SizeT)
  | targetsNotDistinct
  | tagsStateStoreMissing
  | tagsNotVersioned (blockIndex : SizeT)
  | algorithmMissing
  | coefficientGeneration
  | blindScalarGeneration
  | challengeNotVersioned (blockIndex : SizeT)
  /-- Thrown by the caller's `AuditBlockSource::block`. -/
  | blockSource (what : Bytes)
  /-- Not thrown: a null operator result is dereferenced (undefined behaviour). -/
  | nullDereference
  deriving DecidableEq, Repr

namespace Exception

/-- The `what()` text, as the sources compose it. -/
def what : Exception → Bytes
  | fileExists fileId =>
    literal "DynamicHashTableStateStore::addFile: file '" ++ fileId ++ literal "' already exists"
  | zeroBlockCount => literal "DynamicHashTableStateStore::addFile: blockCount must be > 0"
  | fileMissing method fileId =>
    literal "DynamicHashTableStateStore::" ++ literal method.name ++ literal ": file '" ++ fileId ++
      literal "' does not exist"
  | blockNull .deleteBlock blockIndex fileId =>
    literal "DynamicHashTableStateStore::deleteBlock: blockIndex " ++ toString blockIndex ++
      literal " not found for file '" ++ fileId ++ literal "'"
  | blockNull .modifyBlock blockIndex fileId =>
    literal "DynamicHashTableStateStore::modifyBlock: block at index " ++ toString blockIndex ++
      literal " is null for file '" ++ fileId ++ literal "'; use insertBlock to create new entries"
  | blockNull method blockIndex fileId =>
    literal "DynamicHashTableStateStore::" ++ literal method.name ++ literal ": block at index " ++
      toString blockIndex ++ literal " is null for file '" ++ fileId ++ literal "'"
  | maintenanceExtRequired => literal "DHTDynamic maintenance: ext is required"
  | maintenanceExtType => literal "DHTDynamic maintenance: ext must be DHTDynamicMaintainExt"
  | maintenanceFileIdRequired => literal "DHTDynamic maintenance: fileId is required"
  | maintenanceStateStoreMissing =>
    literal "DHTDynamic maintenance: stateStore not provided in request"
  | maintenanceFileNotFound fileId =>
    literal "DHTDynamic maintenance: file '" ++ fileId ++ literal "' not found in stateStore"
  | unsupportedOpType opType =>
    literal "DHTDynamic maintenance: unsupported operation type " ++ toString opType.toUInt64
  | blockIndicesRequired operation =>
    literal "DHTDynamic " ++ literal operation ++ literal ": blockIndices is required"
  | updateNotVersioned blockIndex =>
    literal "DHTDynamic Update: block " ++ toString blockIndex ++
      literal " metadata is not VersionedBlockMetadata or does not exist"
  | targetOutsideWindow index windowStart blockCount =>
    literal "DHTDynamic generateTags: targetBlockIndices entry " ++ toString index ++
      literal " is not a valid 1-based global block index inside the source window [" ++
      toString (windowStart + 1) ++ literal ", " ++ toString (windowStart + blockCount) ++
      literal "]"
  | targetsNotDistinct =>
    literal "DHTDynamic generateTags: targetBlockIndices must contain distinct block indices"
  | tagsStateStoreMissing => literal "DHTDynamic generateTags: stateStore not provided in request"
  | tagsNotVersioned blockIndex =>
    literal "DHTDynamic generateTags: block " ++ toString blockIndex ++
      literal " metadata is not VersionedBlockMetadata"
  | algorithmMissing => literal "SM9BLS algorithm required for challenge generation"
  | coefficientGeneration => literal "Failed to generate random coefficient for challenge"
  | blindScalarGeneration => literal "Failed to generate random scalar r for blind commitment"
  | challengeNotVersioned blockIndex =>
    literal "DHTDynamicAuditStrategy::generateChallenges: block " ++ toString blockIndex ++
      literal " metadata is not VersionedBlockMetadata"
  | blockSource what => what
  | nullDereference => []

end Exception

end DHTDynamic
