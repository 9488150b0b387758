import DHTDynamicAudit.Audit.Completeness
import DHTDynamicAudit.Store.Batches

/-!
# Tags of blocks that move

The hash point of a block contains its index. An insertion or a deletion moves
the metadata, the contents and the tags behind it alike, but the moved tags keep
the index they were made under. Every later audit passes exactly when no tag is
at infinity and each moved block hashes to the same point at both of its indices.
-/

namespace DHTDynamic

open Core

variable {G1 G2 GT κ : Type}

/-! ## The file and its edits -/

/-- A file as its owner keeps it: the store, the tag container and the block contents. -/
structure AuditedFile (G1 κ : Type) where
  store : World κ
  tags : InMemoryTags G1
  blocks : List Bytes

/-- The two maintenance operations that move blocks. -/
inductive Edit where
  | insert (position : SizeT) (block : Bytes)
  | delete (position : SizeT)
  deriving DecidableEq, Repr

namespace Edit

/-- `1..n + 1` for an insertion that leaves a countable file, `1..n` for a deletion. -/
def InRange (n : Nat) : Edit → Prop
  | insert position _ => 1 ≤ position.toNat ∧ position.toNat ≤ n + 1 ∧ n + 1 < 2 ^ 64
  | delete position => 1 ≤ position.toNat ∧ position.toNat ≤ n

instance (n : Nat) : ∀ edit : Edit, Decidable (edit.InRange n)
  | insert _ _ => inferInstanceAs (Decidable (_ ∧ _))
  | delete _ => inferInstanceAs (Decidable (_ ∧ _))

/-- The position an edit names. -/
def position : Edit → SizeT
  | insert position _ | delete position => position

/-- The operation of its maintenance request. -/
def opType : Edit → MaintenanceOpType
  | insert _ _ => .Insert
  | delete _ => .Delete

/-- The maintenance request of an edit. -/
def maintainExt (fileId : Bytes) (edit : Edit) : DHTDynamicMaintainExt where
  fileId := fileId
  opType := edit.opType
  blockIndices := [edit.position]
  stateStore := true
  sized := (by decide : 1 < 2 ^ 64)

end Edit

/-- The owner's work on an edit: the maintenance request, then contents and tags shifted as the
store shifts its metadata; for an insertion only the new block is tagged. -/
def AuditedFile.edit [MetadataClass κ] (lib : CoreLib G1 G2 GT) (fileId : Bytes)
    (publicParams : DHTDynamicPublicParams G1 G2) (privateParams : DHTDynamicPrivateParams)
    (s : AuditedFile G1 κ) (edit : Edit) : Option (AuditedFile G1 κ) :=
  match s.store.maintenance ⟨.typed (edit.maintainExt fileId)⟩, edit with
  | (.error _, _), _ => none
  | (.ok (), w), .insert position block =>
    let blocks := s.blocks.insertIdx (position.toNat - 1) block
    match w.generateTags lib ⟨.typed ⟨fileId, some publicParams, some privateParams, true⟩,
        some (fullFile blocks), some [position]⟩ with
    | (.ok (some returned), w) => (returned[position - 1]?).map fun tag =>
        ⟨w, World.insertAt s.tags (position - 1) tag, blocks⟩
    | _ => none
  | (.ok (), w), .delete position =>
    some ⟨w, World.deleteAt s.tags (position - 1), s.blocks.eraseIdx (position.toNat - 1)⟩

/-- Every challenge of the file drawn from the store is answered and accepted. -/
def AuditedFile.PassesAll (lib : CoreLib G1 G2 GT) (fileId : Bytes)
    (publicParams : DHTDynamicPublicParams G1 G2) (s : AuditedFile G1 κ) : Prop :=
  ∀ runtime fuel algorithm_ ext challenges, ext.fileId = fileId →
    ext.userPublicParams = some publicParams →
    s.store.generateChallenges lib runtime fuel algorithm_ (.typed ext) =
      some (.ok (some challenges)) →
    ∃ proves proofExt result,
      generateProofs lib ⟨.typed ⟨some s.tags, some (fullFile s.blocks), some publicParams⟩,
        .typed challenges⟩ = .ok ⟨some proves, proofExt⟩ ∧
      verifyProofs lib ⟨[.typed challenges], [.typed proves],
        .typed ⟨fileId, some publicParams⟩⟩ = .ok result ∧ result.ok = true

/-! ## The blocks behind it -/

/-- A block, its metadata, and the index its tag was made under. -/
structure TaggedBlock where
  content : Bytes
  metadata : VersionedBlockMetadata
  index : SizeT
  deriving DecidableEq, Repr

/-- The blocks after an edit; a new block is tagged under its own position. -/
def Edit.applyTo (metadata : VersionedBlockMetadata) (l : List TaggedBlock) :
    Edit → List TaggedBlock
  | insert position block => l.insertIdx (position.toNat - 1) ⟨block, metadata, position⟩
  | delete position => l.eraseIdx (position.toNat - 1)

/-- The store's insertion as one step: the fresh record stands at its position. -/
theorem World.exists_insertBlock {w : World κ} {fileId : Bytes} {objects : List Ref}
    (h : w.Holds fileId objects) (hw : w.WellFormed) {i : SizeT} (hz : i ≠ 0)
    (hle : i.toNat ≤ objects.length + 1) (hroom : objects.length + 1 < 2 ^ 64) :
    ∃ w', w.insertBlock fileId i = (.ok (), w') ∧
      w'.Holds fileId (objects.insertIdx (i.toNat - 1) w.nextRef) ∧ w'.WellFormed ∧
      w'.heap = Function.update w.heap w.nextRef (w.metadataFactory_ w.clock.head) := by
  obtain ⟨collection, hcollection, _⟩ := id h
  have hok := insertBlock_ok hcollection i
  have hholds := h.insertBlock hz hle hroom
  have hw' := hw.insertBlock fileId i
  rw [hok] at hholds hw'
  exact ⟨_, hok, hholds, hw', rfl⟩

/-- A selector with one entry inside the window is taken as it is. -/
theorem resolveTargetBlockIndices_single {i : SizeT} (hz : i ≠ 0) {n : Nat} (hle : i.toNat ≤ n)
    (hn : n < 2 ^ 64) :
    resolveTargetBlockIndices (some [i]) 0 (UInt64.ofNat n) = .ok [i] := by
  have hinside : insideWindow 0 (UInt64.ofNat n) i = true := by
    simp only [insideWindow, Bool.and_eq_true, decide_eq_true_eq, sub_zero, gt_iff_lt,
      UInt64.lt_iff_toNat_lt, UInt64.le_iff_toNat_le, toNat_ofNat_lt hn]
    exact ⟨one_le_toNat_iff.mpr hz, hle⟩
  simp [resolveTargetBlockIndices, hinside, hasAdjacentEqual]

/-- Tagging one registered block of a whole file returns its honest tag. -/
theorem World.generateTags_fullFile [AddCommGroup G1] [AddCommGroup G2] [CommGroup GT]
    {lib : CoreLib G1 G2 GT} {n : Nat} {e : G1 →+ G2 →+ Additive GT} (hlib : lib.Lawful n e)
    (publicParams : DHTDynamicPublicParams G1 G2) (privateParams : DHTDynamicPrivateParams)
    {w : World κ} (hw : w.WellFormed) {fileId : Bytes} (hfile : fileId ≠ []) {position : SizeT}
    {r : Ref} (hr : w.entry fileId (position - 1) = some r) {metadata : VersionedBlockMetadata}
    (hm : w.heap r = .versioned metadata) (hz : position ≠ 0) {blocks : List Bytes}
    (hle : position.toNat ≤ blocks.length) (hcount : blocks.length < 2 ^ 64) {block : Bytes}
    (hblock : blocks[position.toNat - 1]? = some block) :
    w.generateTags lib ⟨.typed ⟨fileId, some publicParams, some privateParams, true⟩,
        some (fullFile blocks), some [position]⟩ =
      (.ok (some ((∅ : InMemoryTags G1).insert (position - 1) (.dhtDynamic
        (honestSigma lib privateParams.a publicParams.u fileId position metadata block)))), w) := by
  have haccepted : World.Accepted (⟨.typed ⟨fileId, some publicParams, some privateParams, true⟩,
      some (fullFile blocks), some [position]⟩ : GenerateTagsRequest G1 G2) fileId
      (fullFile blocks) privateParams publicParams [position] :=
    ⟨hfile, rfl, rfl, resolveTargetBlockIndices_single hz hle hcount⟩
  have hread : (fullFile blocks).block (position - 1 - 0) = .ok block := by
    rw [fullFile_block, sub_zero, toNat_pred hz, hblock]
  exact World.generateTags_single hw haccepted hr hm hread (hlib.computeTag _ _ _ _ _ _)

section Blocks

variable [AddCommGroup G1]

/-- The honest tag of the block. -/
def TaggedBlock.sigma (lib : CoreLib G1 G2 GT) (a : SM9CryptoData) (u : G1) (fileId : Bytes)
    (b : TaggedBlock) : G1 :=
  honestSigma lib a u fileId b.index b.metadata b.content

/-- Store, container and contents are those of a list of blocks. -/
structure AuditedFile.Shows (lib : CoreLib G1 G2 GT) (a : SM9CryptoData) (u : G1)
    (fileId : Bytes) (s : AuditedFile G1 κ) (l : List TaggedBlock) : Prop where
  metadata : ∃ objects, s.store.Holds fileId objects ∧
    objects.map s.store.heap = l.map fun b => .versioned b.metadata
  tags : Lists s.tags (l.map fun b => .dhtDynamic (b.sigma lib a u fileId))
  blocks : s.blocks = l.map TaggedBlock.content

/-- There is a block, no tag is at infinity, and every block hashes to the same point at the
index it was tagged under and at the index it stands at. -/
def Auditable (lib : CoreLib G1 G2 GT) (a : SM9CryptoData) (u : G1) (fileId : Bytes)
    (l : List TaggedBlock) : Prop :=
  l ≠ [] ∧ ∀ k b, l[k]? = some b → b.sigma lib a u fileId ≠ 0 ∧
    computeBlockHash lib fileId b.index b.metadata =
      computeBlockHash lib fileId (UInt64.ofNat (k + 1)) b.metadata

namespace AuditedFile.Shows

variable {lib : CoreLib G1 G2 GT} {a : SM9CryptoData} {u : G1} {fileId : Bytes}
  {s : AuditedFile G1 κ} {l : List TaggedBlock}

theorem bounded (h : s.Shows lib a u fileId l) : l.length < 2 ^ 64 := by
  simpa using h.tags.bounded

theorem hasFile (h : s.Shows lib a u fileId l) : s.store.hasFile fileId = true := by
  obtain ⟨objects, hholds, _⟩ := h.metadata
  exact hholds.hasFile

/-- The store holds one object for every block. -/
theorem exists_objects (h : s.Shows lib a u fileId l) : ∃ objects,
    s.store.Holds fileId objects ∧ objects.length = l.length ∧
      objects.map s.store.heap = l.map fun b => .versioned b.metadata := by
  obtain ⟨objects, hholds, hheap⟩ := h.metadata
  refine ⟨objects, hholds, ?_, hheap⟩
  simpa using congrArg List.length hheap

theorem getBlockCount (h : s.Shows lib a u fileId l) :
    s.store.getBlockCount fileId = .ok (UInt64.ofNat l.length) := by
  obtain ⟨objects, hholds, hlength, _⟩ := h.exists_objects
  rw [hholds.getBlockCount, hlength]

theorem metadataAt (h : s.Shows lib a u fileId l) (key : SizeT) :
    s.store.metadataAt fileId key = (l[key.toNat]?).map fun b => .versioned b.metadata := by
  obtain ⟨objects, hholds, hheap⟩ := h.metadata
  rw [World.metadataAt, hholds.entry, ← List.getElem?_map, hheap, List.getElem?_map]

theorem tag (h : s.Shows lib a u fileId l) (key : SizeT) :
    s.tags[key]? = (l[key.toNat]?).map fun b => .dhtDynamic (b.sigma lib a u fileId) := by
  rw [h.tags.lookup, List.getElem?_map]

theorem block (h : s.Shows lib a u fileId l) (key : SizeT) :
    s.blocks[key.toNat]? = (l[key.toNat]?).map TaggedBlock.content := by
  rw [h.blocks, List.getElem?_map]

/-- The maintenance request of an edit goes to the store's own method. -/
theorem maintenance [MetadataClass κ] (h : s.Shows lib a u fileId l) (hfile : fileId ≠ [])
    (edit : Edit) : s.store.maintenance ⟨.typed (edit.maintainExt fileId)⟩ =
      match edit with
      | .insert position _ => s.store.now.2.insertBlock fileId position
      | .delete position => s.store.now.2.deleteBlock fileId position := by
  have hdispatch : s.store.Dispatches (edit.maintainExt fileId) := ⟨hfile, rfl, h.hasFile⟩
  cases edit with
  | insert position block =>
    rw [World.maintenance_insert hdispatch rfl (List.cons_ne_nil position [])]
    exact forEach_singleton _ _
  | delete position =>
    rw [World.maintenance_delete hdispatch rfl (List.cons_ne_nil position [])]
    exact forEach_singleton _ _

/-- A deletion drops the block's record, tag and content and moves the later ones down. -/
theorem delete [MetadataClass κ] (h : s.Shows lib a u fileId l) (hfile : fileId ≠ [])
    {publicParams : DHTDynamicPublicParams G1 G2} {privateParams : DHTDynamicPrivateParams}
    {position : SizeT} (hp : 1 ≤ position.toNat ∧ position.toNat ≤ l.length) :
    ∃ s', s.edit lib fileId publicParams privateParams (.delete position) = some s' ∧
      s'.Shows lib a u fileId (l.eraseIdx (position.toNat - 1)) := by
  obtain ⟨objects, hholds, hlength, hheap⟩ := h.exists_objects
  have hz := one_le_toNat_iff.mp hp.1
  obtain ⟨hok, hholds'⟩ := World.Holds.deleteBlock (w := s.store.now.2) hholds (hlength ▸ hp)
  obtain ⟨r, _, hr⟩ := World.Holds.entry_eq_some (w := s.store.now.2) hholds (hlength ▸ hp)
  have hsame := (World.deleteBlock_deleted hr).2.heap
  have hrequest := h.maintenance hfile (.delete position)
  simp only at hrequest
  rw [← Prod.eta (s.store.now.2.deleteBlock fileId position), hok] at hrequest
  have hedit : s.edit lib fileId publicParams privateParams (.delete position) =
      some ⟨(s.store.now.2.deleteBlock fileId position).2, World.deleteAt s.tags (position - 1),
        s.blocks.eraseIdx (position.toNat - 1)⟩ := by
    simp only [AuditedFile.edit, hrequest]
  refine ⟨_, hedit, ⟨_, hholds', ?_⟩, ?_, ?_⟩
  · rw [hsame, ← List.eraseIdx_map, ← List.eraseIdx_map]
    exact congrArg (List.eraseIdx · _) hheap
  · rw [← List.eraseIdx_map, ← toNat_pred hz]
    exact World.lists_deleteAt h.tags
  · simp only [h.blocks, List.eraseIdx_map]

/-- An insertion puts a fresh record, the new block and its tag at the position and moves the
later ones up. -/
theorem insert [MetadataClass κ] [AddCommGroup G2] [CommGroup GT] {n : Nat}
    {e : G1 →+ G2 →+ Additive GT} (hlib : lib.Lawful n e)
    {publicParams : DHTDynamicPublicParams G1 G2} {privateParams : DHTDynamicPrivateParams}
    (h : s.Shows lib privateParams.a publicParams.u fileId l) (hfile : fileId ≠ [])
    (hw : s.store.WellFormed) (hfactory : s.store.metadataFactory_ = defaultMetadataFactory)
    {position : SizeT} (hp : 1 ≤ position.toNat ∧ position.toNat ≤ l.length + 1)
    (hroom : l.length + 1 < 2 ^ 64) (block : Bytes) :
    ∃ s', s.edit lib fileId publicParams privateParams (.insert position block) = some s' ∧
      s'.Shows lib privateParams.a publicParams.u fileId (l.insertIdx (position.toNat - 1)
        ⟨block, ⟨1, s.store.clock.tail.head⟩, position⟩) := by
  obtain ⟨objects, hholds, hlength, hheap⟩ := h.exists_objects
  have hz := one_le_toNat_iff.mp hp.1
  have hplace : position.toNat - 1 ≤ l.length := by omega
  -- the store after the request
  obtain ⟨w, hinsert, hholds', hw', hheap'⟩ := World.exists_insertBlock (w := s.store.now.2)
    hholds hw.now hz (by omega) (by omega)
  have hrequest := h.maintenance hfile (.insert position block)
  simp only [hinsert] at hrequest
  have hentry : w.entry fileId (position - 1) = some s.store.nextRef := by
    rw [hholds'.entry_pred hz, List.getElem?_insertIdx_self, if_pos (hlength ▸ hplace)]
    rfl
  have hrecord : w.heap s.store.nextRef = .versioned ⟨1, s.store.clock.tail.head⟩ := by
    rw [hheap', World.factory_now, hfactory]
    exact Function.update_self _ _ _
  -- the tag of the new block
  let blocks := s.blocks.insertIdx (position.toNat - 1) block
  have hblocks : blocks = (l.insertIdx (position.toNat - 1)
      ⟨block, ⟨1, s.store.clock.tail.head⟩, position⟩).map TaggedBlock.content := by
    rw [List.map_insertIdx, ← h.blocks]
  have hcount : blocks.length = l.length + 1 := by
    rw [hblocks, List.length_map, List.length_insertIdx_of_le_length hplace]
  have hblock : blocks[position.toNat - 1]? = some block := by
    rw [List.getElem?_insertIdx_self, h.blocks, List.length_map, if_pos hplace]
  have htags := World.generateTags_fullFile hlib publicParams privateParams hw' hfile hentry
    hrecord hz (by omega) (by omega) hblock
  have hedit : s.edit lib fileId publicParams privateParams (.insert position block) =
      some ⟨w, World.insertAt s.tags (position - 1) (.dhtDynamic (honestSigma lib privateParams.a
        publicParams.u fileId position ⟨1, s.store.clock.tail.head⟩ block)), blocks⟩ := by
    simp only [AuditedFile.edit, hrequest]
    rw [htags]
    simp only [getElem?_insert_index, if_pos, Option.map_some]
    rfl
  refine ⟨_, hedit, ⟨_, hholds', ?_⟩, ?_, hblocks⟩
  · have hfresh : ∀ r ∈ objects, w.heap r = s.store.heap r := by
      intro r hr
      obtain ⟨key, hkey⟩ := hholds.mem_iff.mp hr
      rw [hheap']
      exact Function.update_of_ne (Nat.ne_of_lt (hw.allocated _ _ _ hkey)) _ _
    rw [List.map_insertIdx, List.map_insertIdx, List.map_congr_left hfresh, hheap]
    exact congrArg _ hrecord
  · rw [List.map_insertIdx, ← toNat_pred hz]
    exact World.lists_insertAt h.tags (by rw [toNat_pred hz, List.length_map]; exact hplace)
      (by rwa [List.length_map]) _

/-! ## Audits of such a file -/

/-- The index the block at a 1-based index was tagged under. -/
def taggedIndex (l : List TaggedBlock) (i : SizeT) : SizeT :=
  ((l[(i - 1).toNat]?).map TaggedBlock.index).getD i

/-- The content at a 1-based index. -/
def contentAt (l : List TaggedBlock) (i : SizeT) : Bytes :=
  ((l[(i - 1).toNat]?).map TaggedBlock.content).getD []

/-- The block an item was drawn for. -/
theorem block_of_item (h : s.Shows lib a u fileId l) {item : ChallengeItem}
    (hm : s.store.metadataAt fileId (item.blockIndex - 1) = some (.versioned item.metadata)) :
    ∃ b, l[(item.blockIndex - 1).toNat]? = some b ∧ b.metadata = item.metadata := by
  rw [h.metadataAt, Option.map_eq_some_iff] at hm
  obtain ⟨b, hb, heq⟩ := hm
  exact ⟨b, hb, BlockMetadata.versioned.inj heq⟩

/-- A challenge of blocks whose tags are not at infinity finds them where the prover looks. -/
theorem taggedUnder (h : s.Shows lib a u fileId l) {items : List ChallengeItem}
    (hitems : ∀ item ∈ items, item.blockIndex ≠ 0 ∧
      s.store.metadataAt fileId (item.blockIndex - 1) = some (.versioned item.metadata))
    (hne : ∀ item ∈ items, ∀ b, l[(item.blockIndex - 1).toNat]? = some b →
      b.sigma lib a u fileId ≠ 0) :
    TaggedUnder lib a u fileId (taggedIndex l) s.tags (contentAt l) items := by
  intro item hitem
  obtain ⟨b, hb, hm⟩ := h.block_of_item (hitems item hitem).2
  refine ⟨(hitems item hitem).1, b.sigma lib a u fileId, hne item hitem b hb, ?_, ?_⟩
  · rw [h.tag, hb, Option.map_some]
  · simp only [TaggedBlock.sigma, taggedIndex, contentAt, hb, Option.map_some, Option.getD_some, hm]

theorem readable (h : s.Shows lib a u fileId l) {items : List ChallengeItem}
    (hitems : ∀ item ∈ items, item.blockIndex ≠ 0 ∧
      s.store.metadataAt fileId (item.blockIndex - 1) = some (.versioned item.metadata)) :
    Readable lib s.tags (fullFile s.blocks) (contentAt l) items := by
  intro item hitem _
  obtain ⟨b, hb, _⟩ := h.block_of_item (hitems item hitem).2
  rw [fullFile_block, h.block, contentAt, hb, Option.map_some, Option.getD_some]

/-- A challenge of a file with blocks names some of them. -/
theorem items_ne_nil (h : s.Shows lib a u fileId l) (hne : l ≠ []) {runtime : ChallengeRuntime}
    {fuel : Nat} {algorithm_ : Option (SM9BLSAlgorithm G2)}
    {ext : DHTDynamicChallengeRequestExt G1 G2} (hext : ext.fileId = fileId)
    {publicParams : DHTDynamicPublicParams G1 G2} (hpub : ext.userPublicParams = some publicParams)
    {challenges : DHTDynamicChallenges G2}
    (hchallenge : s.store.generateChallenges lib runtime fuel algorithm_ (.typed ext) =
      some (.ok (some challenges))) : challenges.items ≠ [] := by
  subst hext
  rcases World.generateChallenges_ok hpub hchallenge with ⟨_, hfile | hcount⟩ |
    ⟨_, picked, hpicked, _, hdrawn⟩
  · rw [h.hasFile] at hfile
    cases hfile
  · unfold World.resolveBlockCount at hcount
    split_ifs at hcount with hexplicit
    · exact absurd (Except.ok.inj hcount) hexplicit
    · rw [h.getBlockCount] at hcount
      have hzero := congrArg UInt64.toNat (Except.ok.inj hcount)
      rw [toNat_ofNat_lt h.bounded] at hzero
      exact absurd (List.length_eq_zero_iff.mp hzero) hne
  · rintro hnil
    rw [← hdrawn.indices, hnil] at hpicked
    exact hpicked rfl

section Audits

variable [AddCommGroup G2] [CommGroup GT] {n : Nat} {e : G1 →+ G2 →+ Additive GT}
  {publicParams : DHTDynamicPublicParams G1 G2}

/-- On an auditable file every challenge is answered and accepted. -/
theorem passesAll (h : s.Shows lib a publicParams.u fileId l) (hlib : lib.Lawful n e)
    (hy : publicParams.y = a.value • publicParams.g) (hpk : publicParams.pk ≠ 0)
    (hl : Auditable lib a publicParams.u fileId l) : s.PassesAll lib fileId publicParams := by
  intro runtime fuel algorithm_ ext challenges hext hpub hchallenge
  obtain ⟨hne, hblocks⟩ := hl
  have hitems := h.items_ne_nil hne hext hpub hchallenge
  subst hext
  obtain ⟨hfile, hR, hdrawn⟩ := World.generateChallenges_drawn hpub hchallenge hitems
  rw [hlib.g2Mul, Option.some.injEq] at hR
  have htags := h.taggedUnder hdrawn fun item _ b hb => (hblocks _ b hb).1
  obtain ⟨proves, proofExt, result, hprove, hverify, hok, _⟩ :=
    htags.audit hlib hfile hy hpk hR.symm hitems (h.readable hdrawn)
  refine ⟨proves, proofExt, result, hprove, hverify, hok ?_⟩
  -- each item hashes alike under both indices
  refine congrArg List.sum (List.map_congr_left fun item hitem => ?_)
  obtain ⟨b, hb, hm⟩ := h.block_of_item (hdrawn item hitem).2
  have hhash := (hblocks _ b hb).2
  rw [hm, ofNat_toNat_pred (hdrawn item hitem).1] at hhash
  rw [taggedIndex, hb, Option.map_some, Option.getD_some, hhash]

/-- The challenge of one block, with scalars one. -/
def singleChallenge (y : G2) (l : List TaggedBlock) (k : Nat) (b : TaggedBlock) :
    DHTDynamicChallenges G2 where
  R := oneScalar.value • y
  r := oneScalar
  items := [{ blockIndex := UInt64.ofNat (k + 1), nu := oneScalar, metadata := b.metadata }]
  blockCount := UInt64.ofNat l.length

variable {k : Nat} {b : TaggedBlock}

/-- With the right draw the challenge of one chosen block is asked for. -/
theorem single (h : s.Shows lib a u fileId l) (hlib : lib.Lawful n e)
    (hs : lib.LawfulScalars n) (hfile : fileId ≠ []) (publicParams : DHTDynamicPublicParams G1 G2)
    (hb : l[k]? = some b) :
    s.store.generateChallenges lib (.scripted [UInt64.ofNat (k + 1)]) 2 (some onesAlgorithm)
      (.typed (singleRequest fileId publicParams)) =
        some (.ok (some (singleChallenge publicParams.y l k b))) := by
  have hk : k < l.length := (List.getElem?_eq_some_iff.mp hb).1
  have hbound := h.bounded
  obtain ⟨hz, hplace⟩ := ofNat_succ_pred (n := k) (by omega)
  have hrange : 1 ≤ UInt64.ofNat (k + 1) ∧ UInt64.ofNat (k + 1) ≤ UInt64.ofNat l.length := by
    refine ⟨one_le_iff.mpr hz, ?_⟩
    rw [UInt64.le_iff_toNat_le, toNat_ofNat_lt (by omega), toNat_ofNat_lt hbound]
    exact hk
  have hm : s.store.metadataAt fileId (UInt64.ofNat (k + 1) - 1) =
      some (.versioned b.metadata) := by
    rw [h.metadataAt, hplace, hb, Option.map_some]
  have hattach : s.store.attachMetadata fileId
      { blockIndex := UInt64.ofNat (k + 1), nu := oneScalar } = .ok
        { blockIndex := UInt64.ofNat (k + 1), nu := oneScalar, metadata := b.metadata } :=
    World.attachMetadata_ok_iff.mpr ⟨b.metadata, hm, rfl⟩
  rw [World.generateChallenges_single hs hfile publicParams h.getBlockCount hrange, hattach,
    hlib.g2Mul]
  rfl

/-- If that challenge is answered, the tag of the block is not at infinity. -/
theorem sigma_ne_zero (h : s.Shows lib a publicParams.u fileId l) (hlib : lib.Lawful n e)
    (hb : l[k]? = some b) {proves : DHTDynamicProves GT}
    {proofExt : BasePtr (DHTDynamicProveRequestExt G1 G2)}
    (hprove : generateProofs lib ⟨.typed ⟨some s.tags, some (fullFile s.blocks),
      some publicParams⟩, .typed (singleChallenge publicParams.y l k b)⟩ =
        .ok ⟨some proves, proofExt⟩) : b.sigma lib a publicParams.u fileId ≠ 0 := by
  have hk : k < l.length := (List.getElem?_eq_some_iff.mp hb).1
  have hbound := h.bounded
  obtain ⟨hz, hplace⟩ := ofNat_succ_pred (n := k) (by omega)
  intro hzero
  have hskip : ∀ item ∈ (singleChallenge publicParams.y l k b).items,
      usableSigma lib s.tags item = none := by
    intro item hitem
    obtain rfl := List.mem_singleton.mp hitem
    simp only [usableSigma, hz, if_false, h.tag, hplace, hb, Option.map_some, hzero,
      (hlib.g1IsInfinity 0).mpr rfl, if_true]
  have hread : Readable lib s.tags (fullFile s.blocks) (contentAt l)
      (singleChallenge publicParams.y l k b).items := by
    intro item hitem husable
    rw [hskip item hitem] at husable
    cases husable
  rw [hlib.generateProofs_none hread hskip] at hprove
  cases hprove

/-- If its answer is accepted, the block hashes to the same point at both of its indices. -/
theorem hash_eq (h : s.Shows lib a publicParams.u fileId l) (hlib : lib.Lawful n e)
    (he : Nondegenerate e) (hfile : fileId ≠ []) (hy : publicParams.y = a.value • publicParams.g)
    (hg : publicParams.g ≠ 0) (hpk : publicParams.pk ≠ 0) (hb : l[k]? = some b)
    (hne : b.sigma lib a publicParams.u fileId ≠ 0) {proves : DHTDynamicProves GT}
    {proofExt : BasePtr (DHTDynamicProveRequestExt G1 G2)} {result : VerifyProofsResult G1 G2}
    (hprove : generateProofs lib ⟨.typed ⟨some s.tags, some (fullFile s.blocks),
      some publicParams⟩, .typed (singleChallenge publicParams.y l k b)⟩ =
        .ok ⟨some proves, proofExt⟩)
    (hverify : verifyProofs lib ⟨[.typed (singleChallenge publicParams.y l k b)],
      [.typed proves], .typed ⟨fileId, some publicParams⟩⟩ = .ok result)
    (hok : result.ok = true) : computeBlockHash lib fileId b.index b.metadata =
      computeBlockHash lib fileId (UInt64.ofNat (k + 1)) b.metadata := by
  have hk : k < l.length := (List.getElem?_eq_some_iff.mp hb).1
  have hbound := h.bounded
  obtain ⟨hz, hplace⟩ := ofNat_succ_pred (n := k) (by omega)
  have hdrawn : ∀ item ∈ (singleChallenge publicParams.y l k b).items, item.blockIndex ≠ 0 ∧
      s.store.metadataAt fileId (item.blockIndex - 1) = some (.versioned item.metadata) := by
    intro item hitem
    obtain rfl := List.mem_singleton.mp hitem
    exact ⟨hz, by rw [h.metadataAt, hplace, hb, Option.map_some]⟩
  have htags := h.taggedUnder hdrawn fun item hitem b' hb' => by
    obtain rfl := List.mem_singleton.mp hitem
    rw [hplace, hb] at hb'
    exact Option.some.inj hb' ▸ hne
  obtain ⟨proves', _, result', hprove', hverify', _, honly⟩ :=
    htags.audit hlib hfile hy hpk rfl (List.cons_ne_nil _ _) (h.readable hdrawn)
  -- the prover and the verifier are functions
  rw [hprove] at hprove'
  obtain rfl := Option.some.inj (congrArg GenerateProofsResult.proves (Except.ok.inj hprove'))
  obtain rfl := Except.ok.inj (hverify.symm.trans hverify')
  have ha : ¬ n ∣ a.value := by
    intro hdvd
    refine hne ?_
    rw [TaggedBlock.sigma, honestSigma]
    exact (nsmul_eq_zero_iff_of_prime hlib.prime hlib.card_g1).mpr (Or.inl hdvd)
  have hr : ¬ n ∣ (singleChallenge publicParams.y l k b).r.value := by
    intro hdvd
    exact absurd (Nat.le_of_dvd Nat.one_pos hdvd) (Nat.not_le.mpr hlib.prime.one_lt)
  have hsum := honly he ha hr hg hok
  simp only [relocatedSum, hashSum, singleChallenge, List.map_cons, List.map_nil, List.sum_cons,
    List.sum_nil, add_zero, oneScalar_value, one_nsmul, taggedIndex, hplace, hb, Option.map_some,
    Option.getD_some] at hsum
  exact hsum

/-- A file that passes every challenge is auditable: challenge each block alone. -/
theorem auditable (h : s.Shows lib a publicParams.u fileId l) (hlib : lib.Lawful n e)
    (hs : lib.LawfulScalars n) (he : Nondegenerate e) (hfile : fileId ≠ [])
    (hy : publicParams.y = a.value • publicParams.g) (hg : publicParams.g ≠ 0)
    (hpk : publicParams.pk ≠ 0) (hpass : s.PassesAll lib fileId publicParams) :
    Auditable lib a publicParams.u fileId l := by
  constructor
  · rintro rfl
    have hcount : s.store.resolveBlockCount (singleRequest fileId publicParams) = .ok 0 :=
      h.getBlockCount
    have hempty : s.store.generateChallenges lib (.scripted []) 0 (some onesAlgorithm)
        (.typed (singleRequest fileId publicParams)) =
          some (.ok (some { R := lib.g2Default, r := lib.scalarDefault })) := by
      simp only [World.generateChallenges, BasePtr.cast, singleRequest, List.isEmpty_iff, hfile,
        h.hasFile, if_false, Bool.not_true, Bool.false_eq_true] at hcount ⊢
      simp only [hcount, World.challengeBlocks, if_pos]
      rfl
    obtain ⟨proves, proofExt, _, hprove, _⟩ := hpass _ _ _ _ _ rfl rfl hempty
    cases hprove
  · intro k b hb
    have hchallenge := h.single hlib hs hfile publicParams hb
    obtain ⟨proves, proofExt, result, hprove, hverify, hok⟩ := hpass _ _ _ _ _ rfl rfl hchallenge
    have hne := h.sigma_ne_zero hlib hb hprove
    exact ⟨hne, h.hash_eq hlib he hfile hy hg hpk hb hne hprove hverify hok⟩

end Audits

end AuditedFile.Shows

/-! ## Edits of a current file -/

/-- Every block stands at the index its tag was made under. -/
def AllCurrent (l : List TaggedBlock) : Prop :=
  ∀ k b, l[k]? = some b → b.index = UInt64.ofNat (k + 1)

/-- The block's metadata hash to the same point at two indices. -/
def TaggedBlock.HashesAlike (lib : CoreLib G1 G2 GT) (fileId : Bytes) (b : TaggedBlock)
    (i j : Nat) : Prop :=
  computeBlockHash lib fileId (UInt64.ofNat i) b.metadata =
    computeBlockHash lib fileId (UInt64.ofNat j) b.metadata

/-- No tag is at infinity, and every block the edit moves hashes alike at its old and its new
index; a deletion leaves some block. -/
def Edit.Harmless (lib : CoreLib G1 G2 GT) (a : SM9CryptoData) (u : G1) (fileId : Bytes)
    (metadata : VersionedBlockMetadata) (l : List TaggedBlock) : Edit → Prop
  | insert position block =>
    TaggedBlock.sigma lib a u fileId ⟨block, metadata, position⟩ ≠ 0 ∧
      ∀ k b, l[k]? = some b → b.sigma lib a u fileId ≠ 0 ∧
        (position.toNat ≤ k + 1 → b.HashesAlike lib fileId (k + 1) (k + 2))
  | delete position =>
    l.length ≠ 1 ∧ ∀ k b, l[k]? = some b → k + 1 ≠ position.toNat →
      b.sigma lib a u fileId ≠ 0 ∧ (position.toNat < k + 1 → b.HashesAlike lib fileId (k + 1) k)

section Harmless

variable {lib : CoreLib G1 G2 GT} {a : SM9CryptoData} {u : G1} {fileId : Bytes}
  {l : List TaggedBlock}

theorem auditable_insertIdx_iff (hl : AllCurrent l) {position : SizeT}
    (hp : 1 ≤ position.toNat ∧ position.toNat ≤ l.length + 1) (block : Bytes)
    (metadata : VersionedBlockMetadata) :
    Auditable lib a u fileId (l.insertIdx (position.toNat - 1) ⟨block, metadata, position⟩) ↔
      (Edit.insert position block).Harmless lib a u fileId metadata l := by
  have hplace : position.toNat - 1 ≤ l.length := by omega
  have hself := List.getElem?_insertIdx_self (x := (⟨block, metadata, position⟩ : TaggedBlock))
    (l := l) (i := position.toNat - 1)
  rw [if_pos hplace] at hself
  constructor
  · rintro ⟨_, h⟩
    refine ⟨(h _ _ hself).1, fun k b hb => ?_⟩
    by_cases hk : k < position.toNat - 1
    · rw [← List.getElem?_insertIdx_of_lt hk] at hb
      exact ⟨(h k b hb).1, fun hmoved => absurd hmoved (by omega)⟩
    · have hmove := List.getElem?_insertIdx_of_gt (x := (⟨block, metadata, position⟩ : TaggedBlock))
        (l := l) (i := position.toNat - 1) (j := k + 1) (by omega)
      rw [Nat.add_sub_cancel, hb] at hmove
      obtain ⟨hne, hhash⟩ := h (k + 1) b hmove
      rw [hl k b hb] at hhash
      exact ⟨hne, fun _ => hhash⟩
  · rintro ⟨hnew, h⟩
    refine ⟨List.ne_nil_of_mem (List.mem_of_getElem? hself), fun k b hb => ?_⟩
    rcases Nat.lt_trichotomy k (position.toNat - 1) with hk | rfl | hk
    · rw [List.getElem?_insertIdx_of_lt hk] at hb
      exact ⟨(h k b hb).1, by rw [hl k b hb]⟩
    · obtain rfl := Option.some.inj (hself.symm.trans hb)
      refine ⟨hnew, ?_⟩
      rw [Nat.sub_add_cancel hp.1, UInt64.ofNat_toNat]
    · rw [List.getElem?_insertIdx_of_gt hk] at hb
      obtain ⟨hne, hhash⟩ := h (k - 1) b hb
      have hmoved := hhash (by omega)
      rw [show k - 1 + 2 = k + 1 by omega] at hmoved
      exact ⟨hne, by rw [hl _ b hb]; exact hmoved⟩

theorem auditable_eraseIdx_iff (hl : AllCurrent l) {position : SizeT}
    (hp : 1 ≤ position.toNat ∧ position.toNat ≤ l.length) :
    Auditable lib a u fileId (l.eraseIdx (position.toNat - 1)) ↔
      (Edit.delete position).Harmless lib a u fileId ⟨1, 0⟩ l := by
  have hplace : position.toNat - 1 < l.length := by omega
  have hnil : l.eraseIdx (position.toNat - 1) ≠ [] ↔ l.length ≠ 1 := by
    rw [← List.length_pos_iff, List.length_eraseIdx_of_lt hplace]
    omega
  refine and_congr hnil ⟨fun h k b hb hne => ?_, fun h k b hb => ?_⟩
  · by_cases hk : k < position.toNat - 1
    · rw [← List.getElem?_eraseIdx_of_lt hk] at hb
      exact ⟨(h k b hb).1, fun hmoved => absurd hmoved (by omega)⟩
    · have hmove := List.getElem?_eraseIdx_of_ge (l := l) (i := position.toNat - 1) (j := k - 1)
        (by omega)
      rw [show k - 1 + 1 = k by omega, hb] at hmove
      obtain ⟨hsigma, hhash⟩ := h (k - 1) b hmove
      rw [hl k b hb, show k - 1 + 1 = k by omega] at hhash
      exact ⟨hsigma, fun _ => hhash⟩
  · by_cases hk : k < position.toNat - 1
    · rw [List.getElem?_eraseIdx_of_lt hk] at hb
      exact ⟨(h k b hb (by omega)).1, by rw [hl k b hb]⟩
    · rw [List.getElem?_eraseIdx_of_ge (Nat.not_lt.mp hk)] at hb
      obtain ⟨hsigma, hhash⟩ := h (k + 1) b hb (by omega)
      refine ⟨hsigma, ?_⟩
      rw [hl _ b hb]
      exact hhash (by omega)

theorem Edit.auditable_applyTo_iff (hl : AllCurrent l) {edit : Edit}
    (hrange : edit.InRange l.length) (metadata : VersionedBlockMetadata) :
    Auditable lib a u fileId (edit.applyTo metadata l) ↔
      edit.Harmless lib a u fileId metadata l := by
  cases edit with
  | insert position block =>
    exact auditable_insertIdx_iff hl ⟨hrange.1, hrange.2.1⟩ block metadata
  | delete position => exact auditable_eraseIdx_iff hl hrange

end Harmless

variable [MetadataClass κ] [AddCommGroup G2] [CommGroup GT] {lib : CoreLib G1 G2 GT} {n : Nat}
  {e : G1 →+ G2 →+ Additive GT}

/-- The edit succeeds and every challenge of the edited file is answered and accepted. -/
def Edit.KeepsTagsValid (lib : CoreLib G1 G2 GT) (fileId : Bytes)
    (publicParams : DHTDynamicPublicParams G1 G2) (privateParams : DHTDynamicPrivateParams)
    (s : AuditedFile G1 κ) (edit : Edit) : Prop :=
  ∃ s', s.edit lib fileId publicParams privateParams edit = some s' ∧
    s'.PassesAll lib fileId publicParams

/-- The store and the owner's lists follow the edit of the blocks. -/
theorem AuditedFile.Shows.edit {privateParams : DHTDynamicPrivateParams}
    {publicParams : DHTDynamicPublicParams G1 G2} {fileId : Bytes} {s : AuditedFile G1 κ}
    {l : List TaggedBlock} (h : s.Shows lib privateParams.a publicParams.u fileId l)
    (hlib : lib.Lawful n e) (hfile : fileId ≠ []) (hw : s.store.WellFormed)
    (hfactory : s.store.metadataFactory_ = defaultMetadataFactory) {edit : Edit}
    (hrange : edit.InRange l.length) :
    ∃ s', s.edit lib fileId publicParams privateParams edit = some s' ∧
      s'.Shows lib privateParams.a publicParams.u fileId
        (edit.applyTo ⟨1, s.store.clock.tail.head⟩ l) := by
  cases edit with
  | insert position block =>
    exact h.insert hlib hfile hw hfactory ⟨hrange.1, hrange.2.1⟩ hrange.2.2 block
  | delete position => exact h.delete hfile hrange

/-- On a file whose tags are all current an edit in range keeps every later audit passing if and
only if it is harmless: no tag is at infinity, a block is left, and every block that moves hashes
to the same point at its old and its new index. -/
theorem Edit.keepsTagsValid_iff (hlib : lib.Lawful n e) (hs : lib.LawfulScalars n)
    (he : Nondegenerate e) (fileId : Bytes) (hfile : fileId ≠ [])
    (publicParams : DHTDynamicPublicParams G1 G2) (privateParams : DHTDynamicPrivateParams)
    (hy : publicParams.y = privateParams.a.value • publicParams.g) (hg : publicParams.g ≠ 0)
    (hpk : publicParams.pk ≠ 0) (s : AuditedFile G1 κ) (hw : s.store.WellFormed)
    (hfactory : s.store.metadataFactory_ = defaultMetadataFactory) (l : List TaggedBlock)
    (hshows : s.Shows lib privateParams.a publicParams.u fileId l) (hcurrent : AllCurrent l)
    (edit : Edit) (hrange : edit.InRange l.length) :
    edit.KeepsTagsValid lib fileId publicParams privateParams s ↔
      edit.Harmless lib privateParams.a publicParams.u fileId ⟨1, s.store.clock.tail.head⟩ l := by
  obtain ⟨s', hs', hafter⟩ := hshows.edit hlib hfile hw hfactory hrange
  rw [← Edit.auditable_applyTo_iff hcurrent hrange]
  constructor
  · rintro ⟨_, hsome, hpass⟩
    obtain rfl := Option.some.inj (hs'.symm.trans hsome)
    exact hafter.auditable hlib hs he hfile hy hg hpk hpass
  · exact fun hauditable => ⟨s', hs', hafter.passesAll hlib hy hpk hauditable⟩

end Blocks

/-! ## A file of one block -/

/-- The block of the file, tagged under index one. -/
def onlyBlock : TaggedBlock := ⟨[2], ⟨1, 0⟩, 1⟩

/-- A registered file of that block with its tag. -/
def oneBlockFile : AuditedFile (ZMod 5) Empty where
  store := ((World.empty defaultMetadataFactory (Stream'.const 0)).addFileWithBlocks [7] 1).2
  tags := (∅ : InMemoryTags (ZMod 5)).insert 0 (.dhtDynamic 1)
  blocks := [[2]]

theorem oneBlockFile_shows :
    oneBlockFile.Shows byteSumLib (.ofUInt64 1) 1 [7] [onlyBlock] where
  metadata := ⟨[0], World.holds_addFileWithBlocks (by simp [World.empty]) (by decide), by decide⟩
  tags := Lists.empty.insert_append rfl (by decide) _
  blocks := rfl

theorem oneBlockFile_current : AllCurrent [onlyBlock] := by
  intro k b hb
  cases k with
  | zero =>
    obtain rfl := Option.some.inj hb
    rfl
  | succ k => cases hb

/-- Appending a block to it keeps every later audit passing. -/
theorem append_keepsTagsValid : (Edit.insert 2 [1]).KeepsTagsValid byteSumLib [7]
    unitPublicParams unitPrivateParams oneBlockFile := by
  refine (Edit.keepsTagsValid_iff byteSumLib_lawful (zmodLib_lawfulScalars _)
    zmodPairing_nondegenerate [7] (by decide) unitPublicParams unitPrivateParams (by decide)
    (by decide) (by decide) oneBlockFile ((World.WellFormed.empty _ _).addFileWithBlocks _ _) rfl
    [onlyBlock] oneBlockFile_shows oneBlockFile_current (.insert 2 [1]) (by decide)).mpr
    ⟨by decide, fun k b hb => ?_⟩
  cases k with
  | zero =>
    obtain rfl := Option.some.inj hb
    exact ⟨by decide, fun hmoved => absurd hmoved (by decide)⟩
  | succ k => cases hb

/-- Inserting a block before it moves it to index two, where it hashes to another point: the
challenge of the moved block is rejected. -/
theorem insert_before_invalidates :
    oneBlockFile.Shows byteSumLib (.ofUInt64 1) 1 [7] [onlyBlock] ∧ AllCurrent [onlyBlock] ∧
      (Edit.insert 1 [2]).InRange 1 ∧
      ¬ (Edit.insert 1 [2]).KeepsTagsValid byteSumLib [7] unitPublicParams unitPrivateParams
        oneBlockFile := by
  refine ⟨oneBlockFile_shows, oneBlockFile_current, by decide, ?_⟩
  rintro ⟨s', hs', hpass⟩
  obtain rfl := Option.some.inj hs'
  obtain ⟨proves, proofExt, result, hprove, hverify, hok⟩ := hpass (.scripted [2]) 2
    (some onesAlgorithm) (singleRequest [7] unitPublicParams) _ rfl rfl rfl
  obtain rfl := Option.some.inj (congrArg GenerateProofsResult.proves (Except.ok.inj hprove))
  obtain rfl := Except.ok.inj hverify
  exact absurd hok (by decide)

end DHTDynamic
