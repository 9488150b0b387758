import Mathlib.Data.Stream.Defs
import Mathlib.Logic.Function.Basic
import DHTDynamicAudit.Core.SparseIndex
import DHTDynamicAudit.Strategy.Metadata

/-!
# The hash-table state store

`DynamicHashTableStateStore` over `InMemoryBlockMetadataCollection`. Metadata
objects are shared pointers that `modifyBlock` bumps in place, so collections
hold references and the objects live in a heap. Every method returns its outcome
and the state it leaves, also when it throws.
-/

namespace DHTDynamic

open Core (IndexMap setAll)

/-- The identity of a metadata object. -/
abbrev Ref := Nat

/-- `InMemoryBlockMetadataCollection`: a `std::map` from 0-based index to object. -/
abbrev Collection := IndexMap Ref

/-- The file table of the store. -/
abbrev FileMap := Std.ExtTreeMap Bytes Collection compare

/-- A `DynamicHashTableStateStore` with the parts of the process its methods touch. -/
structure World (κ : Type) where
  /-- The collection of every file. -/
  files_ : FileMap
  /-- The factory new metadata comes from. -/
  metadataFactory_ : BlockMetadataFactory κ
  /-- The metadata objects behind the shared pointers. -/
  heap : Ref → BlockMetadata κ
  /-- The reference the next allocation returns. -/
  nextRef : Ref
  /-- The coming readings of `system_clock::now()`, in epoch seconds. -/
  clock : Stream' UInt64

/-- The outcome of a method and the state it leaves. -/
abbrev Outcome (κ α : Type) := Except Exception α × World κ

namespace World

variable {κ : Type}

/-- A store without files, before the first clock reading. -/
def empty (factory : BlockMetadataFactory κ) (clock : Stream' UInt64) : World κ where
  files_ := ∅
  metadataFactory_ := factory
  heap := fun _ => .versioned {}
  nextRef := 0
  clock := clock

/-- Put a metadata object on the heap. -/
def allocate (w : World κ) (metadata : BlockMetadata κ) : Ref × World κ :=
  (w.nextRef, { w with
    heap := Function.update w.heap w.nextRef metadata
    nextRef := w.nextRef + 1 })

/-- `system_clock::now()`. -/
def now (w : World κ) : UInt64 × World κ :=
  (w.clock.head, { w with clock := w.clock.tail })

/-- `metadataFactory_()`, also reached through `collection->createInitMetadata()`. -/
def createMetadata (w : World κ) : Ref × World κ :=
  w.now.2.allocate (w.metadataFactory_ w.now.1)

/-- The collection object of a registered file takes a new content. -/
def putCollection (w : World κ) (fileId : Bytes) (collection : Collection) : World κ :=
  { w with files_ := w.files_.insert fileId collection }

/-- `existing->bump()` on the object itself. -/
def bumpObject [MetadataClass κ] (w : World κ) (existing : Ref) : World κ :=
  { w.now.2 with
    heap := Function.update w.heap existing ((w.heap existing).bump w.now.1) }

/-! ## File-level operations -/

/-- `addFile(fileId)`. -/
def addFile (w : World κ) (fileId : Bytes) : Outcome κ Unit :=
  match w.files_[fileId]? with
  | some _ => (.error (.fileExists fileId), w)
  | none => (.ok (), w.putCollection fileId ∅)

/-- The loop of `addFile(fileId, blockCount)`: fresh metadata at `i`, `i + 1`, and so on. -/
def fillBlocks (w : World κ) (collection : Collection) (i : SizeT) :
    Nat → Collection × World κ
  | 0 => (collection, w)
  | remaining + 1 =>
    let (metadata, w') := w.createMetadata
    fillBlocks w' (collection.insert i metadata) (i + 1) remaining

/-- `addFile(fileId, blockCount)`. -/
def addFileWithBlocks (w : World κ) (fileId : Bytes) (blockCount : SizeT) : Outcome κ Unit :=
  match w.files_[fileId]? with
  | some _ => (.error (.fileExists fileId), w)
  | none =>
    if blockCount = 0 then
      (.error .zeroBlockCount, w)
    else
      let (collection, w') := w.fillBlocks ∅ 0 blockCount.toNat
      (.ok (), w'.putCollection fileId collection)

/-- `removeFile(fileId)`. -/
def removeFile (w : World κ) (fileId : Bytes) : Outcome κ Unit :=
  match w.files_[fileId]? with
  | none => (.error (.fileMissing .removeFile fileId), w)
  | some _ => (.ok (), { w with files_ := w.files_.erase fileId })

/-- `hasFile(fileId)`. -/
def hasFile (w : World κ) (fileId : Bytes) : Bool :=
  (w.files_[fileId]?).isSome

/-! ## Block-level queries -/

/-- `getBlockMetadata(fileId, blockIndex)`; the result is the object's reference. -/
def getBlockMetadata (w : World κ) (fileId : Bytes) (blockIndex : SizeT) : Except Exception Ref :=
  match w.files_[fileId]? with
  | none => .error (.fileMissing .getBlockMetadata fileId)
  | some collection =>
    -- `blockIndex` is 1-based; zero wraps to the greatest key
    match collection[blockIndex - 1]? with
    | none => .error (.blockNull .getBlockMetadata blockIndex fileId)
    | some metadata => .ok metadata

/-- `getBlockCount(fileId)`, the collection's `totalSize()`. -/
def getBlockCount (w : World κ) (fileId : Bytes) : Except Exception SizeT :=
  match w.files_[fileId]? with
  | none => .error (.fileMissing .getBlockCount fileId)
  | some collection => .ok (UInt64.ofNat collection.size)

/-! ## Maintenance operations -/

/-- `modifyBlock(fileId, blockIndex)`. -/
def modifyBlock [MetadataClass κ] (w : World κ) (fileId : Bytes) (blockIndex : SizeT) :
    Outcome κ Unit :=
  match w.files_[fileId]? with
  | none => (.error (.fileMissing .modifyBlock fileId), w)
  | some collection =>
    let collIdx := blockIndex - 1
    match collection[collIdx]? with
    | none => (.error (.blockNull .modifyBlock blockIndex fileId), w)
    | some existing =>
      (.ok (), (w.bumpObject existing).putCollection fileId (collection.insert collIdx existing))

/-- The clear-and-rebuild of `insertBlock`: entries at `collIdx` and above move up by one,
then the new value is set. The same loops shift any index-keyed container. -/
def insertAt {β : Type} (collection : IndexMap β) (collIdx : SizeT) (value : β) : IndexMap β :=
  let toShift := collection.toList.filter fun entry => collIdx ≤ entry.1
  let shifted :=
    if toShift.isEmpty then
      -- nothing to shift: the collection is not rebuilt
      collection
    else
      let below := collection.toList.filter fun entry => entry.1 < collIdx
      setAll (setAll ∅ below) (toShift.map fun entry => (entry.1 + 1, entry.2))
  shifted.insert collIdx value

/-- `insertBlock(fileId, blockIndex)`; the index is not checked. -/
def insertBlock (w : World κ) (fileId : Bytes) (blockIndex : SizeT) : Outcome κ Unit :=
  match w.files_[fileId]? with
  | none => (.error (.fileMissing .insertBlock fileId), w)
  | some collection =>
    let collIdx := blockIndex - 1
    let (metadata, w') := w.createMetadata
    (.ok (), w'.putCollection fileId (insertAt collection collIdx metadata))

/-- The clear-and-rebuild of `deleteBlock`: the entry at `collIdx` is dropped and entries
above it move down by one. -/
def deleteAt {β : Type} (collection : IndexMap β) (collIdx : SizeT) : IndexMap β :=
  let below := collection.toList.filter fun entry => entry.1 < collIdx
  let above := collection.toList.filter fun entry => collIdx < entry.1
  setAll (setAll ∅ below) (above.map fun entry => (entry.1 - 1, entry.2))

/-- `deleteBlock(fileId, blockIndex)`. -/
def deleteBlock (w : World κ) (fileId : Bytes) (blockIndex : SizeT) : Outcome κ Unit :=
  match w.files_[fileId]? with
  | none => (.error (.fileMissing .deleteBlock fileId), w)
  | some collection =>
    let collIdx := blockIndex - 1
    match collection[collIdx]? with
    | none => (.error (.blockNull .deleteBlock blockIndex fileId), w)
    | some _ => (.ok (), w.putCollection fileId (deleteAt collection collIdx))

/-! ## Reading a state -/

/-- The object registered for a 0-based key of a file. -/
def entry (w : World κ) (fileId : Bytes) (key : SizeT) : Option Ref :=
  (w.files_[fileId]?).bind fun collection => collection[key]?

/-- The metadata a file's collection shows at a 0-based key. -/
def metadataAt (w : World κ) (fileId : Bytes) (key : SizeT) : Option (BlockMetadata κ) :=
  (w.entry fileId key).map w.heap

theorem metadataAt_eq_some {w : World κ} {fileId : Bytes} {key : SizeT} {m : BlockMetadata κ} :
    w.metadataAt fileId key = some m ↔ ∃ r, w.entry fileId key = some r ∧ w.heap r = m :=
  Option.map_eq_some_iff

end World

end DHTDynamic
