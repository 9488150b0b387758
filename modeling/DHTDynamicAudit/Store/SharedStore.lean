import DHTDynamicAudit.Store.FileLists

/-!
# The state store with its collection pointers

The file table holds shared pointers to collections. `getBlockMetadataCollection`
hands them out and `setBlockMetadataCollection` takes any pointer, so files may
share a collection or hold none. Here collections are objects of their own;
`view` is the store of contents the audit stages are modelled over.
-/

namespace DHTDynamic

open Core

/-- The identity of a collection object. -/
abbrev CollectionRef := Nat

/-- A `DynamicHashTableStateStore` and the objects its pointers lead to. -/
structure SharedStore (κ : Type) where
  /-- The collection pointer of every file; `none` is null. -/
  files_ : Std.ExtTreeMap Bytes (Option CollectionRef) compare
  metadataFactory_ : BlockMetadataFactory κ
  /-- The collection objects. -/
  collections : CollectionRef → Collection
  /-- The reference the next collection gets. -/
  nextCollection : CollectionRef
  heap : Ref → BlockMetadata κ
  nextRef : Ref
  clock : Stream' UInt64

/-- What `setBlockMetadataCollection` throws. -/
inductive InjectionException where
  | fileMissing (fileId : Bytes)
  deriving DecidableEq, Repr

/-- The `what()` text. -/
def InjectionException.what : InjectionException → Bytes
  | fileMissing fileId =>
    literal "DynamicHashTableStateStore::setBlockMetadataCollection: file '" ++ fileId ++
      literal "' does not exist"

namespace SharedStore

variable {κ : Type}

/-- A store without files, before any collection is made. -/
def empty (factory : BlockMetadataFactory κ) (clock : Stream' UInt64) : SharedStore κ where
  files_ := ∅
  metadataFactory_ := factory
  collections := fun _ => ∅
  nextCollection := 0
  heap := fun _ => .versioned {}
  nextRef := 0
  clock := clock

/-- The metadata objects and the clock, without the file table. -/
def process (s : SharedStore κ) : World κ :=
  ⟨∅, s.metadataFactory_, s.heap, s.nextRef, s.clock⟩

/-- The process has gone on; the file table and the collections are as they were. -/
def withProcess (s : SharedStore κ) (w : World κ) : SharedStore κ :=
  { s with heap := w.heap, nextRef := w.nextRef, clock := w.clock }

/-- `std::make_shared<InMemoryBlockMetadataCollection>`. -/
def makeCollection (s : SharedStore κ) : CollectionRef × SharedStore κ :=
  (s.nextCollection, { s with
    collections := Function.update s.collections s.nextCollection ∅
    nextCollection := s.nextCollection + 1 })

/-- A collection object takes a new content. -/
def setContent (s : SharedStore κ) (collection : CollectionRef) (content : Collection) :
    SharedStore κ :=
  { s with collections := Function.update s.collections collection content }

/-- `files_[fileId] = collection`. -/
def putPointer (s : SharedStore κ) (fileId : Bytes) (collection : Option CollectionRef) :
    SharedStore κ :=
  { s with files_ := s.files_.insert fileId collection }

/-! ## Methods -/

/-- `addFile(fileId)`. -/
def addFile (s : SharedStore κ) (fileId : Bytes) : Except Exception Unit × SharedStore κ :=
  match s.files_[fileId]? with
  | some _ => (.error (.fileExists fileId), s)
  | none => (.ok (), s.makeCollection.2.putPointer fileId (some s.makeCollection.1))

/-- `addFile(fileId, blockCount)`. -/
def addFileWithBlocks (s : SharedStore κ) (fileId : Bytes) (blockCount : SizeT) :
    Except Exception Unit × SharedStore κ :=
  match s.files_[fileId]? with
  | some _ => (.error (.fileExists fileId), s)
  | none =>
    if blockCount = 0 then
      (.error .zeroBlockCount, s)
    else
      let (collection, s') := s.makeCollection
      let (content, w) := s'.process.fillBlocks ∅ 0 blockCount.toNat
      (.ok (), ((s'.withProcess w).setContent collection content).putPointer fileId
        (some collection))

/-- `removeFile(fileId)`. -/
def removeFile (s : SharedStore κ) (fileId : Bytes) : Except Exception Unit × SharedStore κ :=
  match s.files_[fileId]? with
  | none => (.error (.fileMissing .removeFile fileId), s)
  | some _ => (.ok (), { s with files_ := s.files_.erase fileId })

/-- `getBlockMetadata(fileId, blockIndex)`. -/
def getBlockMetadata (s : SharedStore κ) (fileId : Bytes) (blockIndex : SizeT) :
    Except Exception Ref :=
  match s.files_[fileId]? with
  | none => .error (.fileMissing .getBlockMetadata fileId)
  | some none => .error .nullDereference
  | some (some collection) =>
    match (s.collections collection)[blockIndex - 1]? with
    | none => .error (.blockNull .getBlockMetadata blockIndex fileId)
    | some metadata => .ok metadata

/-- `getBlockCount(fileId)`. -/
def getBlockCount (s : SharedStore κ) (fileId : Bytes) : Except Exception SizeT :=
  match s.files_[fileId]? with
  | none => .error (.fileMissing .getBlockCount fileId)
  | some none => .error .nullDereference
  | some (some collection) => .ok (UInt64.ofNat (s.collections collection).size)

/-- `modifyBlock(fileId, blockIndex)`. -/
def modifyBlock [MetadataClass κ] (s : SharedStore κ) (fileId : Bytes) (blockIndex : SizeT) :
    Except Exception Unit × SharedStore κ :=
  match s.files_[fileId]? with
  | none => (.error (.fileMissing .modifyBlock fileId), s)
  | some none => (.error .nullDereference, s)
  | some (some collection) =>
    let collIdx := blockIndex - 1
    match (s.collections collection)[collIdx]? with
    | none => (.error (.blockNull .modifyBlock blockIndex fileId), s)
    | some existing =>
      (.ok (), (s.withProcess (s.process.bumpObject existing)).setContent collection
        ((s.collections collection).insert collIdx existing))

/-- `insertBlock(fileId, blockIndex)`; the metadata is made before the collection is touched. -/
def insertBlock (s : SharedStore κ) (fileId : Bytes) (blockIndex : SizeT) :
    Except Exception Unit × SharedStore κ :=
  match s.files_[fileId]? with
  | none => (.error (.fileMissing .insertBlock fileId), s)
  | some pointer =>
    let (metadata, w) := s.process.createMetadata
    match pointer with
    | none => (.error .nullDereference, s.withProcess w)
    | some collection =>
      (.ok (), (s.withProcess w).setContent collection
        (World.insertAt (s.collections collection) (blockIndex - 1) metadata))

/-- `deleteBlock(fileId, blockIndex)`. -/
def deleteBlock (s : SharedStore κ) (fileId : Bytes) (blockIndex : SizeT) :
    Except Exception Unit × SharedStore κ :=
  match s.files_[fileId]? with
  | none => (.error (.fileMissing .deleteBlock fileId), s)
  | some none => (.error .nullDereference, s)
  | some (some collection) =>
    let collIdx := blockIndex - 1
    match (s.collections collection)[collIdx]? with
    | none => (.error (.blockNull .deleteBlock blockIndex fileId), s)
    | some _ =>
      (.ok (), s.setContent collection (World.deleteAt (s.collections collection) collIdx))

/-- `listFiles()`; the order of an `unordered_map` is not specified. -/
def listFiles (s : SharedStore κ) : List Bytes := s.files_.keys

/-- `getBlockMetadataCollection(fileId)`. -/
def getBlockMetadataCollection (s : SharedStore κ) (fileId : Bytes) :
    Except Exception (Option CollectionRef) :=
  match s.files_[fileId]? with
  | none => .error (.fileMissing .getBlockMetadataCollection fileId)
  | some pointer => .ok pointer

/-- `setBlockMetadataCollection(fileId, collection)`. -/
def setBlockMetadataCollection (s : SharedStore κ) (fileId : Bytes)
    (collection : Option CollectionRef) : Except InjectionException Unit × SharedStore κ :=
  match s.files_[fileId]? with
  | none => (.error (.fileMissing fileId), s)
  | some _ => (.ok (), s.putPointer fileId collection)

/-- `collection->set(index, metadata)` by a caller that holds the pointer, with an object of its
own. -/
def setThrough (s : SharedStore κ) (collection : CollectionRef) (index : SizeT)
    (metadata : BlockMetadata κ) : SharedStore κ :=
  (s.withProcess (s.process.allocate metadata).2).setContent collection
    ((s.collections collection).insert index (s.process.allocate metadata).1)

/-! ## Calls -/

/-- One client call of those that know no pointers. -/
def call [MetadataClass κ] (s : SharedStore κ) :
    StoreCall → Except Exception (StoreReply κ) × SharedStore κ
  | .addFile f => ((s.addFile f).1.map fun _ => .done, (s.addFile f).2)
  | .addFileWithBlocks f n =>
    ((s.addFileWithBlocks f n).1.map fun _ => .done, (s.addFileWithBlocks f n).2)
  | .removeFile f => ((s.removeFile f).1.map fun _ => .done, (s.removeFile f).2)
  | .getBlockMetadata f i => ((s.getBlockMetadata f i).map fun r => .metadata (s.heap r), s)
  | .getBlockCount f => ((s.getBlockCount f).map .count, s)
  | .modifyBlock f i => ((s.modifyBlock f i).1.map fun _ => .done, (s.modifyBlock f i).2)
  | .insertBlock f i => ((s.insertBlock f i).1.map fun _ => .done, (s.insertBlock f i).2)
  | .deleteBlock f i => ((s.deleteBlock f i).1.map fun _ => .done, (s.deleteBlock f i).2)

end SharedStore

/-- All calls of the store, and what a caller does with collections itself. -/
inductive SharedCall (κ : Type) where
  | store (call : StoreCall)
  | listFiles
  | getBlockMetadataCollection (fileId : Bytes)
  | setBlockMetadataCollection (fileId : Bytes) (collection : Option CollectionRef)
  | makeCollection
  | setThrough (collection : CollectionRef) (index : SizeT) (metadata : BlockMetadata κ)

/-- What they return. -/
inductive SharedReply (κ : Type) where
  | store (reply : Except Exception (StoreReply κ))
  | files (fileIds : List Bytes)
  | collection (pointer : Except Exception (Option CollectionRef))
  | injected (result : Except InjectionException Unit)
  | made (collection : CollectionRef)
  | written

namespace SharedStore

variable {κ : Type}

/-- Serve one call. -/
def step [MetadataClass κ] (s : SharedStore κ) : SharedCall κ → SharedReply κ × SharedStore κ
  | .store call => (.store (s.call call).1, (s.call call).2)
  | .listFiles => (.files s.listFiles, s)
  | .getBlockMetadataCollection f => (.collection (s.getBlockMetadataCollection f), s)
  | .setBlockMetadataCollection f c =>
    (.injected (s.setBlockMetadataCollection f c).1, (s.setBlockMetadataCollection f c).2)
  | .makeCollection => (.made s.makeCollection.1, s.makeCollection.2)
  | .setThrough c i m => (.written, s.setThrough c i m)

/-! ## The view of contents -/

/-- The content a pointer leads to; a null pointer leads nowhere. -/
def contentOf (s : SharedStore κ) : Option CollectionRef → Collection
  | some collection => s.collections collection
  | none => ∅

/-- The store as a table of contents. -/
def view (s : SharedStore κ) : World κ where
  files_ := s.files_.map fun _ pointer => s.contentOf pointer
  metadataFactory_ := s.metadataFactory_
  heap := s.heap
  nextRef := s.nextRef
  clock := s.clock

end SharedStore

end DHTDynamic
