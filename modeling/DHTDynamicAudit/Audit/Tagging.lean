import DHTDynamicAudit.Store.Objects
import DHTDynamicAudit.Strategy.Tags

/-!
# What tag generation leaves

The loop registers blocks that have no metadata and never touches those that
have. Every tag it returns is computed over the metadata the store holds for the
block when the call ends.
-/

namespace DHTDynamic

open Core
open Std (ExtTreeMap)

variable {G1 G2 GT κ : Type} {lib : CoreLib G1 G2 GT}

/-- Point operators that return no null. -/
structure CoreLib.TotalPoints (lib : CoreLib G1 G2 GT) : Prop where
  g1Add : ∀ P Q, (lib.g1Add P Q).isSome
  g1Mul : ∀ P k, (lib.g1Mul P k).isSome

theorem CoreLib.TotalPoints.computeTag (h : lib.TotalPoints) (a : SM9CryptoData) (u : G1)
    (fileId : Bytes) (blockIndex : SizeT) (metadata : VersionedBlockMetadata) (block : Bytes) :
    ∃ sigma, computeTag lib a u fileId blockIndex metadata block = .ok sigma := by
  obtain ⟨segmentSum, hsegments⟩ :=
    Option.isSome_iff_exists.mp (h.g1Mul u (accumulateBlockSegmentsScalar lib block))
  obtain ⟨sumPoint, hsum⟩ := Option.isSome_iff_exists.mp
    (h.g1Add (computeBlockHash lib fileId blockIndex metadata) segmentSum)
  obtain ⟨sigma, hsigma⟩ := Option.isSome_iff_exists.mp (h.g1Mul sumPoint a)
  refine ⟨sigma, ?_⟩
  simp only [DHTDynamic.computeTag, accumulateBlockSegmentsG1, hsegments, hsum, hsigma,
    deref_some, bind, Except.bind]

namespace World

variable {w w' : World κ} {fileId : Bytes} {blockIndex key : SizeT}

/-! ## Registration -/

/-- Nothing that was registered has changed. -/
structure Extends (w w' : World κ) : Prop where
  wellFormed : w'.WellFormed
  metadataAt : ∀ f k m, w.metadataAt f k = some m → w'.metadataAt f k = some m

theorem Extends.refl (h : w.WellFormed) : w.Extends w := ⟨h, fun _ _ _ hm => hm⟩

theorem Extends.trans {w'' : World κ} (h : w.Extends w') (h' : w'.Extends w'') :
    w.Extends w'' :=
  ⟨h'.wellFormed, fun f k m hm => h'.metadataAt f k m (h.metadataAt f k m hm)⟩

/-- The block has metadata `r` afterwards, a new record if it had none, and nothing else has
changed. -/
structure Registers (w : World κ) (fileId : Bytes) (blockIndex : SizeT) (r : Ref)
    (w' : World κ) : Prop extends w.Extends w' where
  entry : ∀ g k, w'.entry g k =
    if fileId = g ∧ blockIndex - 1 = k then some r else w.entry g k
  hasFile : ∀ g, w'.hasFile g = w.hasFile g
  fresh : w.entry fileId (blockIndex - 1) = none → ∃ second, w'.heap r = .versioned ⟨1, second⟩

theorem Registers.entry_self {r : Ref} (h : w.Registers fileId blockIndex r w') :
    w'.entry fileId (blockIndex - 1) = some r := by
  rw [h.entry, if_pos ⟨rfl, rfl⟩]

/-- A registered block keeps its metadata, and the store is left alone. -/
theorem metadataForTag_of_entry (hw : w.WellFormed) {r : Ref}
    (h : w.entry fileId (blockIndex - 1) = some r) :
    w.metadataForTag fileId blockIndex = (.ok r, w) ∧ w.Registers fileId blockIndex r w := by
  refine ⟨by simp only [metadataForTag, getBlockMetadata_eq_ok.mpr h], .refl hw, fun g k => ?_,
    fun _ => rfl, fun hnone => ?_⟩
  · split_ifs with he
    · obtain ⟨rfl, rfl⟩ := he
      exact h
    · rfl
  · rw [hnone] at h
    cases h

/-- A block without metadata gets version one and the current second. -/
theorem metadataForTag_of_none (hw : w.WellFormed) {collection : Collection}
    (hfile : w.files_[fileId]? = some collection)
    (h : w.entry fileId (blockIndex - 1) = none) : ∃ r w',
      w.metadataForTag fileId blockIndex = (.ok r, w') ∧ w.Registers fileId blockIndex r w' := by
  obtain ⟨e, he⟩ := getBlockMetadata_error h
  let w₁ := (w.now.2.allocate (.versioned ⟨1, w.clock.head⟩)).2
  have hfile₁ : w₁.files_[fileId]? = some collection := hfile
  refine ⟨w.nextRef, w₁.putCollection fileId (collection.insert (blockIndex - 1) w.nextRef),
    ?_, ⟨?_, ?_⟩, fun g k => ?_, fun g => ?_, fun _ => ?_⟩
  · simp only [metadataForTag, he]
    have hsame : (w.now.2.allocate (.versioned ⟨1, w.now.1⟩)).2 = w₁ := rfl
    rw [hsame]
    simp only [hfile₁]
    rfl
  · refine hw.putCollection w₁ (Nat.le_succ _) (fun _ _ => rfl) _ id (fun _ => blockIndex - 1) ?_
    intro k r hr
    rw [getElem?_insert_index] at hr
    split_ifs at hr with hk
    · obtain rfl := Option.some.inj hr
      exact Or.inl ⟨le_rfl, Nat.lt_succ_self _, hk.symm⟩
    · exact Or.inr ⟨k, (entry_of_collection hfile).trans hr, rfl⟩
  · intro f k m hm
    obtain ⟨r, hr, rfl⟩ := metadataAt_eq_some.mp hm
    have hlt := hw.allocated f k r hr
    refine metadataAt_eq_some.mpr ⟨r, ?_, Function.update_of_ne (Nat.ne_of_lt hlt) _ _⟩
    rw [entry_putCollection]
    split_ifs with hf
    · subst hf
      rw [getElem?_insert_index, if_neg, ← entry_of_collection hfile, hr]
      rintro rfl
      rw [h] at hr
      cases hr
    · exact hr
  · rw [entry_putCollection]
    by_cases hf : fileId = g
    · subst hf
      rw [if_pos rfl, getElem?_insert_index, ← entry_of_collection hfile]
      simp only [true_and]
    · rw [if_neg hf, if_neg fun he => hf he.1]
      rfl
  · rw [World.hasFile, files_putCollection]
    split_ifs with hf
    · subst hf
      rw [World.hasFile, hfile, Option.isSome_some, Option.isSome_some]
    · rfl
  · exact ⟨w.clock.head, Function.update_self _ _ _⟩

theorem metadataForTag_registers (hw : w.WellFormed) (hfile : w.hasFile fileId = true)
    (blockIndex : SizeT) : ∃ r w', w.metadataForTag fileId blockIndex = (.ok r, w') ∧
      w.Registers fileId blockIndex r w' := by
  obtain ⟨collection, hcollection⟩ := Option.isSome_iff_exists.mp hfile
  cases h : w.entry fileId (blockIndex - 1) with
  | some r => exact ⟨r, w, metadataForTag_of_entry hw h⟩
  | none => exact metadataForTag_of_none hw hcollection h

/-- `getBlockMetadata` finds metadata. -/
def Registered (w : World κ) (fileId : Bytes) (blockIndex : SizeT) : Prop :=
  ∃ r, w.getBlockMetadata fileId blockIndex = .ok r

theorem registered_iff :
    w.Registered fileId blockIndex ↔ (w.entry fileId (blockIndex - 1)).isSome := by
  simp only [Registered, getBlockMetadata_eq_ok, Option.isSome_iff_exists]

theorem Registers.registered_iff {r : Ref} (h : w.Registers fileId blockIndex r w') (g : Bytes)
    (i : SizeT) :
    w'.Registered g i ↔ w.Registered g i ∨ g = fileId ∧ i = blockIndex := by
  rw [World.registered_iff, World.registered_iff, h.entry]
  split_ifs with he
  · obtain ⟨rfl, hkey⟩ := he
    simp [sub_left_inj.mp hkey]
  · have hother : ¬ (g = fileId ∧ i = blockIndex) := fun h => he ⟨h.1.symm, by rw [h.2]⟩
    simp [hother]

/-! ## The blocks a loop reaches -/

/-- The block is registered with metadata of another class. -/
def hasForeignMetadata (w : World κ) (fileId : Bytes) (blockIndex : SizeT) : Bool :=
  match w.metadataAt fileId (blockIndex - 1) with
  | some (.custom _) => true
  | _ => false

/-- The pass for this block ends the loop: the metadata has the wrong class, or the source throws
when the block is read. -/
def stopsAt (w : World κ) (fileId : Bytes) (blocks : AuditBlockSource) (blockIndex : SizeT) :
    Bool :=
  w.hasForeignMetadata fileId blockIndex ||
    match blocks.block (blockIndex - 1 - blocks.globalBlockStartIndex) with
    | .error _ => true
    | .ok _ => false

/-- The targets up to the first one that ends the loop, which is registered like the others. -/
def reached (w : World κ) (fileId : Bytes) (blocks : AuditBlockSource) :
    List SizeT → List SizeT
  | [] => []
  | blockIndex :: rest =>
    blockIndex :: if w.stopsAt fileId blocks blockIndex then [] else reached w fileId blocks rest

/-- A new record is of the versioned class, so registration never changes who ends the loop. -/
theorem Registers.stopsAt {r : Ref} (h : w.Registers fileId blockIndex r w')
    (blocks : AuditBlockSource) (i : SizeT) :
    w'.stopsAt fileId blocks i = w.stopsAt fileId blocks i := by
  refine congrArg (· || _) ?_
  unfold hasForeignMetadata
  cases hm : w.metadataAt fileId (i - 1) with
  | some m => rw [h.metadataAt _ _ _ hm]
  | none =>
    have hnone : w.entry fileId (i - 1) = none := Option.map_eq_none_iff.mp hm
    rw [World.metadataAt, h.entry]
    split_ifs with he
    · obtain ⟨second, hfresh⟩ := h.fresh (he.2 ▸ hnone)
      rw [Option.map_some, hfresh]
    · rw [hnone, Option.map_none]

theorem reached_congr {blocks : AuditBlockSource}
    (h : ∀ i, w'.stopsAt fileId blocks i = w.stopsAt fileId blocks i) (targets : List SizeT) :
    w'.reached fileId blocks targets = w.reached fileId blocks targets := by
  induction targets with
  | nil => rfl
  | cons i rest ih => rw [reached, reached, h, ih]

/-- A loop that nothing ends reaches all its targets. -/
theorem reached_of_forall {blocks : AuditBlockSource} {targetIndices : List SizeT}
    (h : ∀ i ∈ targetIndices, w.stopsAt fileId blocks i = false) :
    w.reached fileId blocks targetIndices = targetIndices := by
  induction targetIndices with
  | nil => rfl
  | cons i rest ih =>
    rw [List.forall_mem_cons] at h
    rw [reached, h.1, if_neg Bool.false_ne_true, ih h.2]

/-! ## One block -/

/-- The tag at a key is that of the block there, read through the source, under the metadata of
the store. -/
def TaggedAt (lib : CoreLib G1 G2 GT) (a : SM9CryptoData) (u : G1) (fileId : Bytes)
    (blocks : AuditBlockSource) (w : World κ) (key : SizeT) (tag : Tag G1) : Prop :=
  ∃ metadata block sigma, w.metadataAt fileId key = some (.versioned metadata) ∧
    blocks.block (key - blocks.globalBlockStartIndex) = .ok block ∧
    computeTag lib a u fileId (key + 1) metadata block = .ok sigma ∧ tag = .dhtDynamic sigma

/-- One pass registers its block; then it returns the tag of the block or throws. -/
theorem tagOne_cases (lib : CoreLib G1 G2 GT) (hw : w.WellFormed)
    (hfile : w.hasFile fileId = true) (a : SM9CryptoData) (u : G1) (blocks : AuditBlockSource)
    (tags : InMemoryTags G1) (blockIndex : SizeT) :
    ∃ r w', w.Registers fileId blockIndex r w' ∧
      ((w'.stopsAt fileId blocks blockIndex = false ∧
          ∃ tag, TaggedAt lib a u fileId blocks w' (blockIndex - 1) tag ∧
          tagOne lib a u fileId blocks (w, tags) blockIndex =
            (.ok (), w', tags.insert (blockIndex - 1) tag)) ∨
        (lib.TotalPoints → w'.stopsAt fileId blocks blockIndex = true) ∧
          ∃ e, tagOne lib a u fileId blocks (w, tags) blockIndex = (.error e, w', tags)) := by
  obtain ⟨r, w', hmeta, hreg⟩ := metadataForTag_registers hw hfile blockIndex
  refine ⟨r, w', hreg, ?_⟩
  have hat : w'.metadataAt fileId (blockIndex - 1) = some (w'.heap r) :=
    metadataAt_eq_some.mpr ⟨r, hreg.entry_self, rfl⟩
  simp only [tagOne, hmeta, stopsAt, hasForeignMetadata, hat]
  cases hheap : w'.heap r with
  | custom m => exact Or.inr ⟨fun _ => rfl, _, rfl⟩
  | versioned metadata =>
    simp only [BlockMetadata.asVersioned_versioned, AuditBlockSource.read]
    cases hblock : blocks.block (blockIndex - 1 - blocks.globalBlockStartIndex) with
    | error what => exact Or.inr ⟨fun _ => rfl, _, rfl⟩
    | ok block =>
      cases htag : computeTag lib a u fileId blockIndex metadata block with
      | error e =>
        refine Or.inr ⟨fun htotal => ?_, e, ?_⟩
        · obtain ⟨sigma, hsigma⟩ := htotal.computeTag a u fileId blockIndex metadata block
          rw [hsigma] at htag
          cases htag
        · simp only [bind, Except.bind, htag]
      | ok sigma =>
        refine Or.inl ⟨rfl, .dhtDynamic sigma, ⟨metadata, block, sigma, ?_, hblock, ?_, rfl⟩, ?_⟩
        · rw [hat, hheap]
        · rwa [sub_add_cancel]
        · simp only [bind, Except.bind, htag]

theorem TaggedAt.of_extends {a : SM9CryptoData} {u : G1} {blocks : AuditBlockSource}
    {tag : Tag G1} (h : TaggedAt lib a u fileId blocks w key tag) (hw : w.Extends w') :
    TaggedAt lib a u fileId blocks w' key tag := by
  obtain ⟨metadata, block, sigma, hm, hrest⟩ := h
  exact ⟨metadata, block, sigma, hw.metadataAt _ _ _ hm, hrest⟩

/-! ## The loop -/

/-- What every pass of the loop keeps: the store only grows, and the tags made so far are those
of what it holds. -/
structure Tagging (lib : CoreLib G1 G2 GT) (a : SM9CryptoData) (u : G1) (fileId : Bytes)
    (blocks : AuditBlockSource) (start : World κ) (s : World κ × InMemoryTags G1) : Prop where
  grows : start.Extends s.1
  hasFile : s.1.hasFile fileId = true
  current : ∀ key tag, s.2[key]? = some tag → TaggedAt lib a u fileId blocks s.1 key tag

/-- From an empty container the loop starts with nothing to show. -/
theorem Tagging.start {a : SM9CryptoData} {u : G1} {blocks : AuditBlockSource}
    (hw : w.WellFormed) (hfile : w.hasFile fileId = true) :
    Tagging lib a u fileId blocks w (w, ∅) := by
  refine ⟨.refl hw, hfile, fun key tag htag => ?_⟩
  rw [ExtTreeMap.getElem?_empty] at htag
  cases htag

theorem Tagging.tagOne {a : SM9CryptoData} {u : G1} {blocks : AuditBlockSource}
    {s : World κ × InMemoryTags G1} (h : Tagging lib a u fileId blocks w s)
    (blockIndex : SizeT) :
    Tagging lib a u fileId blocks w (tagOne lib a u fileId blocks s blockIndex).2 := by
  obtain ⟨t, tags⟩ := s
  obtain ⟨r, t', hreg, hcases⟩ :=
    tagOne_cases lib h.grows.wellFormed h.hasFile a u blocks tags blockIndex
  have hgrows := h.grows.trans hreg.toExtends
  have hfile : t'.hasFile fileId = true := by rw [hreg.hasFile]; exact h.hasFile
  have hold : ∀ key tag, tags[key]? = some tag → TaggedAt lib a u fileId blocks t' key tag :=
    fun key tag htag => (h.current key tag htag).of_extends hreg.toExtends
  rcases hcases with ⟨_, tag, htag, hout⟩ | ⟨_, e, hout⟩
  · rw [hout]
    refine ⟨hgrows, hfile, fun key tag' htag' => ?_⟩
    rw [getElem?_insert_index] at htag'
    split_ifs at htag' with hkey
    · obtain rfl := Option.some.inj htag'
      exact hkey ▸ htag
    · exact hold key tag' htag'
  · rw [hout]
    exact ⟨hgrows, hfile, hold⟩

/-- The loop keeps it, whether it ends or throws. -/
theorem Tagging.forEach (lib : CoreLib G1 G2 GT) (a : SM9CryptoData) (u : G1)
    (blocks : AuditBlockSource) (hw : w.WellFormed) (hfile : w.hasFile fileId = true)
    (targetIndices : List SizeT) :
    Tagging lib a u fileId blocks w
      (forEach (World.tagOne lib a u fileId blocks) (w, ∅) targetIndices).2 :=
  forEach_preserves (fun _ blockIndex _ h => h.tagOne blockIndex) (.start hw hfile)

/-- The loop registers the targets it reaches and no other block. -/
theorem forEach_tagOne_registered (ht : lib.TotalPoints) (hw : w.WellFormed)
    (hfile : w.hasFile fileId = true) (a : SM9CryptoData) (u : G1) (blocks : AuditBlockSource)
    (tags : InMemoryTags G1) (targetIndices : List SizeT) (g : Bytes) (i : SizeT) :
    (forEach (World.tagOne lib a u fileId blocks) (w, tags) targetIndices).2.1.Registered g i ↔
      w.Registered g i ∨ g = fileId ∧ i ∈ w.reached fileId blocks targetIndices := by
  induction targetIndices generalizing w tags with
  | nil => simp [reached]
  | cons j rest ih =>
    obtain ⟨r, w', hreg, hcases⟩ := tagOne_cases lib hw hfile a u blocks tags j
    rw [reached, ← hreg.stopsAt blocks j]
    rcases hcases with ⟨hgoes, tag, _, hout⟩ | ⟨hstops, e, hout⟩
    · have hfile' : w'.hasFile fileId = true := by rw [hreg.hasFile]; exact hfile
      rw [forEach_cons_ok hout, ih hreg.wellFormed hfile', hreg.registered_iff, hgoes,
        if_neg Bool.false_ne_true, reached_congr (hreg.stopsAt blocks), List.mem_cons]
      tauto
    · rw [forEach_cons_error hout, hreg.registered_iff, hstops ht, if_pos rfl,
        List.mem_singleton]

/-- A loop that nothing ends returns normally, with a tag for each of its targets. -/
theorem forEach_tagOne_ok (ht : lib.TotalPoints) (hw : w.WellFormed)
    (hfile : w.hasFile fileId = true) (a : SM9CryptoData) (u : G1) (blocks : AuditBlockSource)
    (tags : InMemoryTags G1) {targetIndices : List SizeT}
    (hgoes : ∀ i ∈ targetIndices, w.stopsAt fileId blocks i = false) :
    (forEach (World.tagOne lib a u fileId blocks) (w, tags) targetIndices).1 = .ok () ∧
      ∀ key : SizeT, ((forEach (World.tagOne lib a u fileId blocks) (w, tags)
        targetIndices).2.2[key]?).isSome ↔ (tags[key]?).isSome ∨ key + 1 ∈ targetIndices := by
  induction targetIndices generalizing w tags with
  | nil => simp
  | cons i rest ih =>
    obtain ⟨hfirst, hrest⟩ := List.forall_mem_cons.mp hgoes
    obtain ⟨r, w', hreg, hcases⟩ := tagOne_cases lib hw hfile a u blocks tags i
    have hfile' : w'.hasFile fileId = true := by rw [hreg.hasFile]; exact hfile
    rcases hcases with ⟨_, tag, _, hout⟩ | ⟨hstops, _⟩
    · rw [forEach_cons_ok hout]
      obtain ⟨hok, hkeys⟩ := ih hreg.wellFormed hfile' (tags.insert (i - 1) tag)
        fun j hj => (hreg.stopsAt blocks j).trans (hrest j hj)
      refine ⟨hok, fun key => ?_⟩
      have hkey : i - 1 = key ↔ key + 1 = i := sub_eq_iff_eq_add.trans eq_comm
      rw [hkeys, getElem?_insert_index, List.mem_cons, ← hkey]
      split_ifs with he
      · simp [he]
      · simp [he]
    · rw [hreg.stopsAt, hfirst] at hstops
      cases hstops ht

/-- Targets that all have metadata leave the store as it is. -/
theorem forEach_tagOne_store (lib : CoreLib G1 G2 GT) (hw : w.WellFormed) (a : SM9CryptoData)
    (u : G1) (blocks : AuditBlockSource) (tags : InMemoryTags G1) {targetIndices : List SizeT}
    (hentry : ∀ i ∈ targetIndices, (w.entry fileId (i - 1)).isSome) :
    (forEach (World.tagOne lib a u fileId blocks) (w, tags) targetIndices).2.1 = w := by
  refine forEach_preserves (P := fun s : World κ × InMemoryTags G1 => s.1 = w) ?_ rfl
  rintro ⟨_, tags⟩ i hi rfl
  obtain ⟨r, hr⟩ := Option.isSome_iff_exists.mp (hentry i hi)
  simp only [World.tagOne, (metadataForTag_of_entry hw hr).1]
  split
  · rfl
  · split <;> rfl

/-! ## What registration adds -/

/-- Nothing registered has changed, and what is new has version one. -/
structure RegistersOnly (w w' : World κ) : Prop extends w.Extends w' where
  hasFile : ∀ g, w.hasFile g = true → w'.hasFile g = true
  fresh : ∀ g k m, w.metadataAt g k = none → w'.metadataAt g k = some m →
    ∃ second, m = .versioned ⟨1, second⟩

theorem RegistersOnly.refl (h : w.WellFormed) : w.RegistersOnly w := by
  refine ⟨.refl h, fun _ hg => hg, fun g k m hnone hm => ?_⟩
  rw [hnone] at hm
  cases hm

theorem RegistersOnly.trans {w'' : World κ} (h : w.RegistersOnly w')
    (h' : w'.RegistersOnly w'') : w.RegistersOnly w'' := by
  refine ⟨h.toExtends.trans h'.toExtends, fun g hg => h'.hasFile g (h.hasFile g hg), ?_⟩
  intro g k m hnone hm
  cases hmid : w'.metadataAt g k with
  | none => exact h'.fresh g k m hmid hm
  | some m' =>
    have hlast := h'.metadataAt g k m' hmid
    obtain rfl := Option.some.inj (hlast.symm.trans hm)
    exact h.fresh g k m' hnone hmid

theorem Registers.registersOnly {r : Ref} (h : w.Registers fileId blockIndex r w') :
    w.RegistersOnly w' := by
  refine ⟨h.toExtends, fun g hg => (h.hasFile g).trans hg, fun g k m hnone hm => ?_⟩
  have hentry : w.entry g k = none := Option.map_eq_none_iff.mp hnone
  rw [World.metadataAt, h.entry] at hm
  split_ifs at hm with hkey
  · obtain ⟨rfl, rfl⟩ := hkey
    obtain ⟨second, hfresh⟩ := h.fresh hentry
    rw [Option.map_some, hfresh] at hm
    exact ⟨second, (Option.some.inj hm).symm⟩
  · rw [hentry] at hm
    cases hm

/-- However a loop ends, it has only registered blocks. -/
theorem forEach_tagOne_registersOnly (lib : CoreLib G1 G2 GT) (hw : w.WellFormed)
    (hfile : w.hasFile fileId = true) (a : SM9CryptoData) (u : G1) (blocks : AuditBlockSource)
    (tags : InMemoryTags G1) (targetIndices : List SizeT) :
    w.RegistersOnly (forEach (World.tagOne lib a u fileId blocks) (w, tags) targetIndices).2.1 := by
  refine forEach_preserves (P := fun s : World κ × InMemoryTags G1 => w.RegistersOnly s.1) ?_
    (.refl hw)
  rintro ⟨t, tags⟩ i _ hgrows
  obtain ⟨r, t', hreg, hcases⟩ := tagOne_cases lib hgrows.wellFormed (hgrows.hasFile fileId hfile)
    a u blocks tags i
  have hafter := hgrows.trans hreg.registersOnly
  rcases hcases with ⟨_, tag, _, hout⟩ | ⟨_, e, hout⟩
  · rw [hout]
    exact hafter
  · rw [hout]
    exact hafter

/-! ## The request -/

/-- The inputs of a request that passes every check of `generateTags`. -/
structure Accepted (input : GenerateTagsRequest G1 G2) (fileId : Bytes)
    (blocks : AuditBlockSource) (privateParams : DHTDynamicPrivateParams)
    (publicParams : DHTDynamicPublicParams G1 G2) (targetIndices : List SizeT) : Prop where
  nonempty : fileId ≠ []
  ext : input.ext.cast = some ⟨fileId, some publicParams, some privateParams, true⟩
  source : input.blocks = some blocks
  targets : resolveTargetBlockIndices input.targetBlockIndices blocks.globalBlockStartIndex
    blocks.availableBlockCount = .ok targetIndices

/-- Registering the file changes no entry. -/
theorem ensureFile_ok (hw : w.WellFormed) (fileId : Bytes) :
    ∃ w', w.ensureFile fileId = (.ok (), w') ∧ w'.hasFile fileId = true ∧ w.Extends w' ∧
      w'.heap = w.heap ∧ ∀ f k, w'.entry f k = w.entry f k := by
  unfold ensureFile
  by_cases hfile : w.hasFile fileId = true
  · exact ⟨w, if_pos hfile, hfile, .refl hw, rfl, fun _ _ => rfl⟩
  · have hnone : w.files_[fileId]? = none := by
      simpa only [World.hasFile, Bool.not_eq_true, Option.isSome_eq_false_iff,
        Option.isNone_iff_eq_none] using hfile
    have hwf := hw.addFile fileId
    have hentry : ∀ f k, (w.putCollection fileId ∅).entry f k = w.entry f k := by
      intro f k
      rw [entry_putCollection]
      split_ifs with hf
      · subst hf
        rw [entry, hnone, Option.bind_none, ExtTreeMap.getElem?_empty]
      · rfl
    simp only [addFile, hnone] at hwf ⊢
    refine ⟨w.putCollection fileId ∅, if_neg hfile, by simp [World.hasFile], ⟨hwf, ?_⟩, rfl, hentry⟩
    intro f k m hm
    rwa [World.metadataAt, hentry]

/-- Registering the file changes nothing else. -/
theorem ensureFile_registersOnly (hw : w.WellFormed)
    (h : w.ensureFile fileId = (.ok (), w')) : w.RegistersOnly w' := by
  obtain ⟨w₁, hensure, _, hext, hheap, hentry⟩ := ensureFile_ok hw fileId
  obtain rfl : w₁ = w' := congrArg Prod.snd (hensure.symm.trans h)
  refine ⟨hext, fun g hg => ?_, fun g k m hnone hm => ?_⟩
  · unfold ensureFile addFile at h
    split_ifs at h
    · obtain rfl := congrArg Prod.snd h
      exact hg
    · split at h
      · cases congrArg Prod.fst h
      · obtain rfl := congrArg Prod.snd h
        rw [hasFile, files_putCollection]
        split_ifs
        · rfl
        · exact hg
  · rw [metadataAt, hentry, hheap] at hm
    rw [metadataAt] at hnone
    rw [hnone] at hm
    cases hm

/-- An accepted request registers the file and runs the loop. -/
theorem generateTags_of_accepted {input : GenerateTagsRequest G1 G2} {blocks : AuditBlockSource}
    {privateParams : DHTDynamicPrivateParams} {publicParams : DHTDynamicPublicParams G1 G2}
    {targetIndices : List SizeT}
    (h : Accepted input fileId blocks privateParams publicParams targetIndices)
    (hensure : w.ensureFile fileId = (.ok (), w')) :
    w.generateTags lib input =
      match forEach (tagOne lib privateParams.a publicParams.u fileId blocks) (w', ∅)
        targetIndices with
      | (.error e, t, _) => (.error e, t)
      | (.ok (), t, tags) => (.ok (some tags), t) := by
  rcases hloop : forEach (tagOne lib privateParams.a publicParams.u fileId blocks) (w', ∅)
    targetIndices with ⟨_ | _, _, _⟩ <;>
  simp only [generateTags, h.ext, h.source, h.targets, hensure, List.isEmpty_iff, h.nonempty,
    if_false, Bool.not_true, Bool.false_eq_true, hloop]

/-- Any other request leaves the store alone and returns no container. -/
theorem generateTags_of_not_accepted (lib : CoreLib G1 G2 GT) (w : World κ)
    {input : GenerateTagsRequest G1 G2}
    (h : ¬ ∃ fileId blocks privateParams publicParams targetIndices,
      Accepted input fileId blocks privateParams publicParams targetIndices) :
    (w.generateTags lib input).2 = w ∧
      ∀ tags, (w.generateTags lib input).1 ≠ .ok (some tags) := by
  simp only [generateTags]
  cases hext : input.ext.cast with
  | none => simp
  | some ext =>
    obtain ⟨fileId, publicParams, privateParams, stateStore⟩ := ext
    by_cases hempty : fileId = []
    · simp [hempty]
    · cases hblocks : input.blocks with
      | none => simp [hempty]
      | some blocks =>
        cases privateParams with
        | none => simp [hempty]
        | some privateParams =>
          cases publicParams with
          | none => simp [hempty]
          | some publicParams =>
            cases htargets : resolveTargetBlockIndices input.targetBlockIndices
                blocks.globalBlockStartIndex blocks.availableBlockCount with
            | error e => simp [hempty, htargets]
            | ok targetIndices =>
              cases stateStore with
              | false => simp [hempty, htargets]
              | true =>
                exact absurd ⟨fileId, blocks, privateParams, publicParams, targetIndices,
                  hempty, hext, hblocks, htargets⟩ h

/-- Whatever a request asks for and however it ends, nothing registered has changed, and the
tags it returns are those of what the store now holds. -/
theorem generateTags_tagging (lib : CoreLib G1 G2 GT) (hw : w.WellFormed)
    (input : GenerateTagsRequest G1 G2) :
    w.Extends (w.generateTags lib input).2 ∧
      ∀ tags, (w.generateTags lib input).1 = .ok (some tags) →
        ∃ fileId blocks privateParams publicParams targetIndices,
          Accepted input fileId blocks privateParams publicParams targetIndices ∧
          ∀ key tag, tags[key]? = some tag → TaggedAt lib privateParams.a publicParams.u fileId
            blocks (w.generateTags lib input).2 key tag := by
  by_cases h : ∃ fileId blocks privateParams publicParams targetIndices,
      Accepted input fileId blocks privateParams publicParams targetIndices
  · obtain ⟨fileId, blocks, privateParams, publicParams, targetIndices, hacc⟩ := h
    obtain ⟨w₁, hensure, hfile, hext, _⟩ := ensureFile_ok hw fileId
    have hloop := Tagging.forEach lib privateParams.a publicParams.u blocks hext.wellFormed
      hfile targetIndices
    rw [generateTags_of_accepted hacc hensure]
    rcases hend : Core.forEach (World.tagOne lib privateParams.a publicParams.u fileId blocks)
      (w₁, ∅) targetIndices with ⟨_ | _, t, tags⟩
    · rw [hend] at hloop
      refine ⟨hext.trans hloop.grows, fun _ hout => ?_⟩
      cases hout
    · rw [hend] at hloop
      refine ⟨hext.trans hloop.grows, fun _ hout => ?_⟩
      obtain rfl := Option.some.inj (Except.ok.inj hout)
      exact ⟨fileId, blocks, privateParams, publicParams, targetIndices, hacc, hloop.current⟩
  · obtain ⟨hstore, hnone⟩ := generateTags_of_not_accepted lib w h
    rw [hstore]
    exact ⟨.refl hw, fun tags hout => absurd hout (hnone tags)⟩

/-- An accepted request registers the targets its loop reaches and no other block. -/
theorem generateTags_registered (ht : lib.TotalPoints) (hw : w.WellFormed)
    {input : GenerateTagsRequest G1 G2} {blocks : AuditBlockSource}
    {privateParams : DHTDynamicPrivateParams} {publicParams : DHTDynamicPublicParams G1 G2}
    {targetIndices : List SizeT}
    (h : Accepted input fileId blocks privateParams publicParams targetIndices) (g : Bytes)
    (i : SizeT) : (w.generateTags lib input).2.Registered g i ↔
      w.Registered g i ∨ g = fileId ∧ i ∈ w.reached fileId blocks targetIndices := by
  obtain ⟨w₁, hensure, hfile, hext, hheap, hentry⟩ := ensureFile_ok hw fileId
  have hloop := forEach_tagOne_registered ht hext.wellFormed hfile privateParams.a
    publicParams.u blocks ∅ targetIndices g i
  have hstops : ∀ j, w₁.stopsAt fileId blocks j = w.stopsAt fileId blocks j := by
    intro j
    simp only [stopsAt, hasForeignMetadata, metadataAt, hentry, hheap]
  rw [registered_iff (w := w₁), hentry, ← registered_iff, reached_congr hstops] at hloop
  rw [generateTags_of_accepted h hensure, ← hloop]
  rcases Core.forEach (World.tagOne lib privateParams.a publicParams.u fileId blocks) (w₁, ∅)
    targetIndices with ⟨_ | _, t, tags⟩ <;> rfl

/-- Tagging one registered block leaves the store as it is. -/
theorem generateTags_single (hw : w.WellFormed) {input : GenerateTagsRequest G1 G2}
    {blocks : AuditBlockSource} {privateParams : DHTDynamicPrivateParams}
    {publicParams : DHTDynamicPublicParams G1 G2}
    (h : Accepted input fileId blocks privateParams publicParams [blockIndex]) {r : Ref}
    (hr : w.entry fileId (blockIndex - 1) = some r) {metadata : VersionedBlockMetadata}
    (hm : w.heap r = .versioned metadata) {block : Bytes}
    (hblock : blocks.block (blockIndex - 1 - blocks.globalBlockStartIndex) = .ok block)
    {sigma : G1} (hsigma : computeTag lib privateParams.a publicParams.u fileId blockIndex metadata
      block = .ok sigma) :
    w.generateTags lib input =
      (.ok (some ((∅ : InMemoryTags G1).insert (blockIndex - 1) (.dhtDynamic sigma))), w) := by
  have hfile : w.hasFile fileId = true := hasFile_of_entry hr
  have hpass : tagOne lib privateParams.a publicParams.u fileId blocks (w, ∅) blockIndex =
      (.ok (), w, (∅ : InMemoryTags G1).insert (blockIndex - 1) (.dhtDynamic sigma)) := by
    simp only [tagOne, (metadataForTag_of_entry hw hr).1, hm, BlockMetadata.asVersioned_versioned,
      AuditBlockSource.read, hblock, bind, Except.bind, hsigma]
  rw [generateTags_of_accepted h (if_pos hfile), forEach_cons_ok hpass, forEach_nil]

end World

end DHTDynamic
