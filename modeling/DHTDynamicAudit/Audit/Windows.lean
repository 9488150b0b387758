import DHTDynamicAudit.Audit.Completeness
import DHTDynamicAudit.Audit.Selectors
import DHTDynamicAudit.Core.Run

/-!
# Tags through windows and selectors

A tag depends on the global index of its block, not on the window the block was
read through nor on the selector that named it. A selector is accepted exactly
when it fits the window, and a run it starts registers its entries and no other
block.
-/

namespace DHTDynamic

open Core
open Std (ExtTreeMap)

variable {G1 G2 GT κ : Type} {lib : CoreLib G1 G2 GT}

/-! ## Windows -/

/-- The blocks of the source are consecutive blocks of the file, from its start index on. -/
structure AuditBlockSource.IsWindow (blocks : AuditBlockSource) (contents : List Bytes) :
    Prop where
  inside : blocks.globalBlockStartIndex.toNat + blocks.availableBlockCount.toNat ≤ contents.length
  block : ∀ localIndex, localIndex < blocks.availableBlockCount →
    ∃ block, contents[blocks.globalBlockStartIndex.toNat + localIndex.toNat]? = some block ∧
      blocks.block localIndex = .ok block

/-- The window of `count` blocks after the first `start`; reading past its end throws. -/
def windowOf (contents : List Bytes) (start count : SizeT) : AuditBlockSource where
  globalBlockStartIndex := start
  availableBlockCount := count
  block localIndex :=
    match if localIndex < count then contents[start.toNat + localIndex.toNat]? else none with
    | some block => .ok block
    | none => .error []

theorem windowOf_isWindow {contents : List Bytes} {start count : SizeT}
    (h : start.toNat + count.toNat ≤ contents.length) :
    (windowOf contents start count).IsWindow contents := by
  refine ⟨h, fun localIndex hlt => ?_⟩
  have hread : start.toNat + localIndex.toNat < contents.length := by
    have hlt' := UInt64.lt_iff_toNat_lt.mp hlt
    simp only [windowOf] at hlt'
    omega
  refine ⟨contents[start.toNat + localIndex.toNat], List.getElem?_eq_getElem hread, ?_⟩
  simp only [windowOf] at hlt ⊢
  rw [if_pos hlt, List.getElem?_eq_getElem hread]

/-- The whole file is one of its windows. -/
theorem fullFile_isWindow {contents : List Bytes} (h : contents.length < 2 ^ 64) :
    (fullFile contents).IsWindow contents := by
  have hcount : (fullFile contents).availableBlockCount.toNat = contents.length := toNat_ofNat_lt h
  have hstart : (fullFile contents).globalBlockStartIndex.toNat = 0 := rfl
  refine ⟨by rw [hstart, hcount, Nat.zero_add], fun localIndex hlt => ?_⟩
  have hread : localIndex.toNat < contents.length := hcount ▸ UInt64.lt_iff_toNat_lt.mp hlt
  refine ⟨contents[localIndex.toNat], ?_, ?_⟩
  · rw [hstart, Nat.zero_add]
    exact List.getElem?_eq_getElem hread
  · apply fullFile_block.mpr
    exact List.getElem?_eq_getElem hread

/-- A block of the window is read at its local index. -/
theorem AuditBlockSource.IsWindow.read_global {blocks : AuditBlockSource} {contents : List Bytes}
    (h : blocks.IsWindow contents) {blockIndex : SizeT}
    (hin : InWindow blocks.globalBlockStartIndex blocks.availableBlockCount blockIndex) :
    ∃ block, contents[(blockIndex - 1).toNat]? = some block ∧
      blocks.block (blockIndex - 1 - blocks.globalBlockStartIndex) = .ok block := by
  obtain ⟨hvalue, hlt⟩ := hin.toNat_local
  have hpos : 1 ≤ blockIndex.toNat := by omega
  have hplace : blocks.globalBlockStartIndex.toNat +
      (blockIndex - 1 - blocks.globalBlockStartIndex).toNat = (blockIndex - 1).toNat := by
    rw [toNat_pred (one_le_toNat_iff.mp hpos)]
    omega
  have hblock := h.block _ hlt
  rwa [hplace] at hblock

/-- The 1-based global indices a request asks for: the entries of its selector, or without one
all of the window. -/
def Selects (blocks : AuditBlockSource) (selector : Option (List SizeT)) (blockIndex : SizeT) :
    Prop :=
  match selector with
  | none | some [] =>
    InWindow blocks.globalBlockStartIndex blocks.availableBlockCount blockIndex
  | some selected => blockIndex ∈ selected

/-- A request for the whole file asks for each of its blocks. -/
theorem selects_fullFile {contents : List Bytes} (hlength : contents.length < 2 ^ 64) {key : SizeT}
    (hkey : key.toNat < contents.length) : Selects (fullFile contents) none (key + 1) := by
  have hcount : (fullFile contents).availableBlockCount.toNat = contents.length :=
    toNat_ofNat_lt hlength
  have hstart : (fullFile contents).globalBlockStartIndex.toNat = 0 := rfl
  rw [Selects, InWindow, toNat_succ (by omega), hcount, hstart]
  omega

/-- The selector is resolved to targets instead of being rejected. -/
def SelectorAccepted (blocks : AuditBlockSource) (selector : Option (List SizeT)) : Prop :=
  ∃ targetIndices, resolveTargetBlockIndices selector blocks.globalBlockStartIndex
    blocks.availableBlockCount = .ok targetIndices

/-- The targets of a request are the indices it asks for, all of them in the window. -/
theorem mem_targets_iff {blocks : AuditBlockSource} {selector : Option (List SizeT)}
    {targetIndices : List SizeT}
    (hroom : blocks.globalBlockStartIndex.toNat + blocks.availableBlockCount.toNat < 2 ^ 64)
    (h : resolveTargetBlockIndices selector blocks.globalBlockStartIndex
      blocks.availableBlockCount = .ok targetIndices) (i : SizeT) :
    (i ∈ targetIndices ↔ Selects blocks selector i) ∧ (i ∈ targetIndices →
      InWindow blocks.globalBlockStartIndex blocks.availableBlockCount i) := by
  have hdefault : resolveTargetBlockIndices none blocks.globalBlockStartIndex
      blocks.availableBlockCount = .ok targetIndices → (i ∈ targetIndices ↔
        InWindow blocks.globalBlockStartIndex blocks.availableBlockCount i) :=
    fun hnone => mem_window_iff hnone hroom i
  rcases selector with _ | _ | ⟨first, rest⟩
  · exact ⟨hdefault h, (hdefault h).mp⟩
  · exact ⟨hdefault h, (hdefault h).mp⟩
  · rcases resolveTargetBlockIndices_cases (List.cons_ne_nil first rest)
      blocks.globalBlockStartIndex blocks.availableBlockCount with ⟨hfits, hok⟩ | ⟨_, e, _, he⟩
    · rw [hok] at h
      obtain rfl := Except.ok.inj h
      have hmem : i ∈ (first :: rest).insertionSort (· ≤ ·) ↔ i ∈ first :: rest :=
        (List.perm_insertionSort (· ≤ ·) (first :: rest)).mem_iff
      exact ⟨hmem, fun hi => hfits.inWindow i (hmem.mp hi)⟩
    · rw [he] at h
      cases h

/-! ## Requests -/

/-- A request that supplies every input. -/
def tagsRequest (fileId : Bytes) (publicParams : DHTDynamicPublicParams G1 G2)
    (privateParams : DHTDynamicPrivateParams) (blocks : AuditBlockSource)
    (selector : Option (List SizeT)) : GenerateTagsRequest G1 G2 where
  ext := .typed ⟨fileId, some publicParams, some privateParams, true⟩
  blocks := some blocks
  targetBlockIndices := selector

namespace World

variable {w w' : World κ} {fileId : Bytes}

theorem accepted_tagsRequest (hfile : fileId ≠ []) (publicParams : DHTDynamicPublicParams G1 G2)
    (privateParams : DHTDynamicPrivateParams) {blocks : AuditBlockSource}
    {selector : Option (List SizeT)} {targetIndices : List SizeT}
    (h : resolveTargetBlockIndices selector blocks.globalBlockStartIndex
      blocks.availableBlockCount = .ok targetIndices) :
    Accepted (tagsRequest fileId publicParams privateParams blocks selector) fileId blocks
      privateParams publicParams targetIndices :=
  ⟨hfile, rfl, rfl, h⟩

/-- A selector is resolved before the store is touched. -/
theorem generateTags_rejected (lib : CoreLib G1 G2 GT) (w : World κ) (hfile : fileId ≠ [])
    (publicParams : DHTDynamicPublicParams G1 G2) (privateParams : DHTDynamicPrivateParams)
    {blocks : AuditBlockSource} {selector : Option (List SizeT)} {e : Exception}
    (h : resolveTargetBlockIndices selector blocks.globalBlockStartIndex
      blocks.availableBlockCount = .error e) :
    w.generateTags lib (tagsRequest fileId publicParams privateParams blocks selector) =
      (.error e, w) := by
  simp only [generateTags, tagsRequest, BasePtr.cast, List.isEmpty_iff, hfile, if_false, h]

/-- An accepted request that nothing ends: a tag for every target, and no block registered but
the targets. -/
theorem generateTags_complete (ht : lib.TotalPoints) (hw : w.WellFormed)
    {input : GenerateTagsRequest G1 G2} {blocks : AuditBlockSource}
    {privateParams : DHTDynamicPrivateParams} {publicParams : DHTDynamicPublicParams G1 G2}
    {targetIndices : List SizeT}
    (h : Accepted input fileId blocks privateParams publicParams targetIndices)
    (hgoes : ∀ i ∈ targetIndices, w.stopsAt fileId blocks i = false) :
    ∃ tags, (w.generateTags lib input).1 = .ok (some tags) ∧
      (∀ key : SizeT, (tags[key]?).isSome ↔ key + 1 ∈ targetIndices) ∧
      w.RegistersOnly (w.generateTags lib input).2 ∧
      (w.generateTags lib input).2.hasFile fileId = true := by
  obtain ⟨w₁, hensure, hfile, hext, hheap, hentry⟩ := ensureFile_ok hw fileId
  have hgoes₁ : ∀ i ∈ targetIndices, w₁.stopsAt fileId blocks i = false := by
    intro i hi
    rw [← hgoes i hi]
    simp only [stopsAt, hasForeignMetadata, metadataAt, hentry, hheap]
  have honly := (ensureFile_registersOnly hw hensure).trans
    (forEach_tagOne_registersOnly lib hext.wellFormed hfile privateParams.a publicParams.u blocks ∅
      targetIndices)
  have hkept := (Tagging.forEach lib privateParams.a publicParams.u blocks hext.wellFormed hfile
    targetIndices).hasFile
  obtain ⟨hok, hkeys⟩ := forEach_tagOne_ok ht hext.wellFormed hfile privateParams.a publicParams.u
    blocks ∅ hgoes₁
  rw [generateTags_of_accepted h hensure]
  rcases hloop : Core.forEach (World.tagOne lib privateParams.a publicParams.u fileId blocks)
    (w₁, ∅) targetIndices with ⟨_ | _, t, tags⟩
  · rw [hloop] at hok
    cases hok
  · rw [hloop] at honly hkept hkeys
    refine ⟨tags, rfl, fun key => ?_, honly, hkept⟩
    rw [hkeys, ExtTreeMap.getElem?_empty]
    simp

/-- The library over `ZMod 5` returns no null. -/
theorem zmodLib_totalPoints (hash : Bytes → ZMod 5) : (zmodLib hash).TotalPoints :=
  ⟨fun _ _ => rfl, fun _ _ => rfl⟩

/-! ## Exactness of a selector -/

/-- No pass of the loop throws what a selector is rejected with. -/
theorem tagOne_not_rejects (ht : lib.TotalPoints) {a : SM9CryptoData} {u : G1}
    {blocks : AuditBlockSource} {s : World κ × InMemoryTags G1} {i : SizeT} {e : Exception}
    (h : (World.tagOne lib a u fileId blocks s i).1 = .error e) : ¬ e.RejectsSelector := by
  unfold World.tagOne at h
  split at h
  · -- the collection of a file that has just been found missing
    rename_i e' w₁ hmeta
    obtain rfl := Except.error.inj h
    unfold metadataForTag at hmeta
    split at hmeta
    · cases congrArg Prod.fst hmeta
    · simp only at hmeta
      split at hmeta
      · obtain rfl := Except.error.inj (congrArg Prod.fst hmeta)
        rintro (⟨_, _, _, hreject⟩ | hreject) <;> cases hreject
      · cases congrArg Prod.fst hmeta
  · rename_i r w₁ _
    split at h
    · obtain rfl := Except.error.inj h
      rintro (⟨_, _, _, hreject⟩ | hreject) <;> cases hreject
    · rename_i metadata _
      simp only [AuditBlockSource.read] at h
      cases hblock : blocks.block (i - 1 - blocks.globalBlockStartIndex) with
      | error what =>
        rw [hblock] at h
        obtain rfl := Except.error.inj h
        rintro (⟨_, _, _, hreject⟩ | hreject) <;> cases hreject
      | ok block =>
        obtain ⟨sigma, hsigma⟩ := ht.computeTag a u fileId i metadata block
        simp only [hblock, bind, Except.bind, hsigma] at h
        cases h

/-- A request that passes the checks throws nothing that a selector is rejected with. -/
theorem generateTags_not_rejects (ht : lib.TotalPoints) (hw : w.WellFormed)
    {input : GenerateTagsRequest G1 G2} {blocks : AuditBlockSource}
    {privateParams : DHTDynamicPrivateParams} {publicParams : DHTDynamicPublicParams G1 G2}
    {targetIndices : List SizeT}
    (h : Accepted input fileId blocks privateParams publicParams targetIndices) {e : Exception}
    (he : (w.generateTags lib input).1 = .error e) : ¬ e.RejectsSelector := by
  obtain ⟨w₁, hensure, _⟩ := ensureFile_ok hw fileId
  rw [generateTags_of_accepted h hensure] at he
  rcases hloop : Core.forEach (World.tagOne lib privateParams.a publicParams.u fileId blocks)
    (w₁, ∅) targetIndices with ⟨e' | _, t, tags⟩
  · rw [hloop] at he
    obtain rfl := Except.error.inj he
    obtain ⟨_, i, _, s, _, _, hfail⟩ := forEach_error hloop
    exact tagOne_not_rejects ht (congrArg Prod.fst hfail)
  · rw [hloop] at he
    cases he

/-- Sources that show the same blocks at the targets give the same run: the loop never looks past
them. -/
theorem generateTags_congr (hw : w.WellFormed) {input input' : GenerateTagsRequest G1 G2}
    {blocks blocks' : AuditBlockSource} {privateParams : DHTDynamicPrivateParams}
    {publicParams : DHTDynamicPublicParams G1 G2} {targetIndices : List SizeT}
    (h : Accepted input fileId blocks privateParams publicParams targetIndices)
    (h' : Accepted input' fileId blocks' privateParams publicParams targetIndices)
    (hstart : blocks.globalBlockStartIndex = blocks'.globalBlockStartIndex)
    (hblock : ∀ i ∈ targetIndices, blocks.block (i - 1 - blocks'.globalBlockStartIndex) =
      blocks'.block (i - 1 - blocks'.globalBlockStartIndex)) :
    w.generateTags lib input = w.generateTags lib input' := by
  obtain ⟨w₁, hensure, _⟩ := ensureFile_ok hw fileId
  have hbody : ∀ s : World κ × InMemoryTags G1, ∀ i ∈ targetIndices,
      World.tagOne lib privateParams.a publicParams.u fileId blocks s i =
        World.tagOne lib privateParams.a publicParams.u fileId blocks' s i := by
    intro s i hi
    simp only [World.tagOne, AuditBlockSource.read, hstart, hblock i hi]
  rw [generateTags_of_accepted h hensure, generateTags_of_accepted h' hensure,
    forEach_congr hbody]

/-- A selector is rejected exactly when an entry lies outside the window or repeats, and then the
store is as it was. One that fits reads blocks of the window only, and registers its entries. -/
theorem generateTags_selector_exact (ht : lib.TotalPoints) (hw : w.WellFormed)
    (hfile : fileId ≠ []) (publicParams : DHTDynamicPublicParams G1 G2)
    (privateParams : DHTDynamicPrivateParams) (blocks : AuditBlockSource) (selector : List SizeT)
    (hne : selector ≠ []) :
    let windowStart := blocks.globalBlockStartIndex
    let blockCount := blocks.availableBlockCount
    let run := w.generateTags lib
      (tagsRequest fileId publicParams privateParams blocks (some selector))
    ((∃ e, e.RejectsSelector ∧ run.1 = .error e) ↔
        ¬ SelectorFits windowStart blockCount selector) ∧
      (¬ SelectorFits windowStart blockCount selector → run.2 = w) ∧
      (SelectorFits windowStart blockCount selector →
        (∀ i ∈ selector, i - 1 - windowStart < blockCount) ∧
        (∀ block : SizeT → Except Bytes Bytes,
          (∀ localIndex < blockCount, block localIndex = blocks.block localIndex) →
          w.generateTags lib (tagsRequest fileId publicParams privateParams
            ⟨windowStart, blockCount, block⟩ (some selector)) = run) ∧
        ((∀ localIndex < blockCount, ∃ block, blocks.block localIndex = .ok block) →
          (∀ i ∈ selector, w.hasForeignMetadata fileId i = false) →
          (∃ tags, run.1 = .ok (some tags)) ∧ run.2.hasFile fileId = true ∧
            (∀ g i, run.2.Registered g i ↔ w.Registered g i ∨ g = fileId ∧ i ∈ selector) ∧
            (∀ g k m, w.metadataAt g k = some m → run.2.metadataAt g k = some m) ∧
            ∀ g k m, w.metadataAt g k = none → run.2.metadataAt g k = some m →
              ∃ second, m = .versioned ⟨1, second⟩)) := by
  intro windowStart blockCount run
  rcases resolveTargetBlockIndices_cases hne windowStart blockCount with
    ⟨hfits, hok⟩ | ⟨hunfit, e, hreject, herr⟩
  · have hmem : ∀ i, i ∈ selector.insertionSort (· ≤ ·) ↔ i ∈ selector := fun i =>
      (List.perm_insertionSort (· ≤ ·) selector).mem_iff
    have hlocal : ∀ i ∈ selector, i - 1 - windowStart < blockCount := fun i hi =>
      (hfits.inWindow i hi).toNat_local.2
    have hacc : Accepted (tagsRequest fileId publicParams privateParams blocks (some selector))
        fileId blocks privateParams publicParams (selector.insertionSort (· ≤ ·)) :=
      accepted_tagsRequest hfile publicParams privateParams hok
    refine ⟨iff_of_false ?_ (not_not_intro hfits), fun hunfit => absurd hfits hunfit,
      fun _ => ⟨hlocal, fun block hsame => ?_, fun hread hversioned => ?_⟩⟩
    · rintro ⟨e, hreject, he⟩
      exact generateTags_not_rejects ht hw hacc he hreject
    · have hacc' : Accepted (tagsRequest fileId publicParams privateParams
          ⟨windowStart, blockCount, block⟩ (some selector)) fileId
          ⟨windowStart, blockCount, block⟩ privateParams publicParams
          (selector.insertionSort (· ≤ ·)) :=
        accepted_tagsRequest hfile publicParams privateParams hok
      apply generateTags_congr hw hacc' hacc rfl
      intro i hi
      exact hsame _ (hlocal i ((hmem i).mp hi))
    · have hgoes : ∀ i ∈ selector.insertionSort (· ≤ ·), w.stopsAt fileId blocks i = false := by
        intro i hi
        obtain ⟨block, hblock⟩ := hread _ (hlocal i ((hmem i).mp hi))
        simp only [stopsAt, hversioned i ((hmem i).mp hi), Bool.false_or]
        rw [hblock]
      obtain ⟨tags, htags, _, honly, hregistered⟩ := generateTags_complete ht hw hacc hgoes
      refine ⟨⟨tags, htags⟩, hregistered, fun g i => ?_, honly.metadataAt, honly.fresh⟩
      have hiff := generateTags_registered ht hw hacc g i
      rwa [reached_of_forall hgoes, hmem] at hiff
  · have hrun : run = (.error e, w) :=
      generateTags_rejected lib w hfile publicParams privateParams herr
    rw [hrun]
    exact ⟨iff_of_true ⟨e, hreject, rfl⟩ hunfit, fun _ => rfl, fun hfits => absurd hfits hunfit⟩

/-- The window of the second and third blocks of a file of three, and both of them named. -/
theorem generateTags_selector_exact_window :
    let lib := zmodLib fun input => input.length
    let start : World Empty := empty defaultMetadataFactory (Stream'.const 0)
    let run := start.generateTags lib (tagsRequest [7] unitPublicParams unitPrivateParams
      (windowOf [[1], [2], [3]] 1 2) (some [3, 2]))
    run.2.hasFile [7] = true ∧
      ∀ g i, run.2.Registered g i ↔ start.Registered g i ∨ g = [7] ∧ i ∈ [(3 : SizeT), 2] := by
  have hfits : SelectorFits 1 2 [3, 2] :=
    ⟨List.forall_mem_cons.mpr ⟨⟨by decide, by decide⟩,
      List.forall_mem_singleton.mpr ⟨by decide, by decide⟩⟩, by decide⟩
  have hempty : (empty defaultMetadataFactory (Stream'.const 0) : World Empty).WellFormed :=
    .empty _ _
  have hexact := generateTags_selector_exact (zmodLib_totalPoints fun input => input.length) hempty
    (by decide : ([7] : Bytes) ≠ []) unitPublicParams unitPrivateParams
    (windowOf [[1], [2], [3]] 1 2) [3, 2] (by decide)
  have hwindow : (windowOf [[1], [2], [3]] 1 2).IsWindow [[1], [2], [3]] :=
    windowOf_isWindow (by decide)
  obtain ⟨_, hfile, hregistered, _⟩ := (hexact.2.2 hfits).2.2
    (fun localIndex hlt => (hwindow.block localIndex hlt).imp fun _ h => h.2) fun _ _ => rfl
  exact ⟨hfile, hregistered⟩

/-! ## Independence of window and selector -/

/-- A tag is determined by its index, the metadata of the store and the block that is read. -/
theorem TaggedAt.of_block {a : SM9CryptoData} {u : G1} {blocks other : AuditBlockSource}
    {key : SizeT} {tag : Tag G1} (h : TaggedAt lib a u fileId blocks w key tag)
    (hblock : other.block (key - other.globalBlockStartIndex) =
      blocks.block (key - blocks.globalBlockStartIndex)) :
    TaggedAt lib a u fileId other w key tag := by
  obtain ⟨metadata, block, sigma, hm, hread, hrest⟩ := h
  exact ⟨metadata, block, sigma, hm, hblock.trans hread, hrest⟩

theorem TaggedAt.unique {a : SM9CryptoData} {u : G1} {blocks : AuditBlockSource} {key : SizeT}
    {tag tag' : Tag G1} (h : TaggedAt lib a u fileId blocks w key tag)
    (h' : TaggedAt lib a u fileId blocks w key tag') : tag = tag' := by
  obtain ⟨metadata, block, sigma, hm, hread, hsigma, rfl⟩ := h
  obtain ⟨metadata', block', sigma', hm', hread', hsigma', rfl⟩ := h'
  obtain rfl := BlockMetadata.versioned.inj (Option.some.inj (hm.symm.trans hm'))
  obtain rfl := Except.ok.inj (hread.symm.trans hread')
  obtain rfl := Except.ok.inj (hsigma.symm.trans hsigma')
  rfl

/-- Where every target is registered, the store stays as it is. -/
theorem generateTags_store (lib : CoreLib G1 G2 GT) (hw : w.WellFormed)
    {input : GenerateTagsRequest G1 G2} {blocks : AuditBlockSource}
    {privateParams : DHTDynamicPrivateParams} {publicParams : DHTDynamicPublicParams G1 G2}
    {targetIndices : List SizeT}
    (h : Accepted input fileId blocks privateParams publicParams targetIndices)
    (hfile : w.hasFile fileId = true)
    (hentry : ∀ i ∈ targetIndices, (w.entry fileId (i - 1)).isSome) :
    (w.generateTags lib input).2 = w := by
  have hloop := forEach_tagOne_store lib hw privateParams.a publicParams.u blocks ∅ hentry
  rw [generateTags_of_accepted h (if_pos hfile)]
  rcases hend : Core.forEach (World.tagOne lib privateParams.a publicParams.u fileId blocks)
    (w, ∅) targetIndices with ⟨_ | _, t, tags⟩ <;>
  · rw [hend] at hloop
    exact hloop

/-- Every block of the file is registered with metadata of the versioned class. -/
structure HoldsFile (w : World κ) (fileId : Bytes) (contents : List Bytes) : Prop where
  hasFile : w.hasFile fileId = true
  versioned : ∀ key : SizeT, key.toNat < contents.length →
    ∃ metadata, w.metadataAt fileId key = some (.versioned metadata)

/-- Through any window and selector: the targets' tags of the whole file, and the store as it
was. -/
theorem HoldsFile.generateTags (ht : lib.TotalPoints) (hw : w.WellFormed) (hfile : fileId ≠ [])
    {contents : List Bytes} (hlength : contents.length < 2 ^ 64) (h : w.HoldsFile fileId contents)
    (publicParams : DHTDynamicPublicParams G1 G2) (privateParams : DHTDynamicPrivateParams)
    {blocks : AuditBlockSource} (hwindow : blocks.IsWindow contents)
    {selector : Option (List SizeT)} (haccepted : SelectorAccepted blocks selector) :
    ∃ tags : InMemoryTags G1, w.generateTags lib
        (tagsRequest fileId publicParams privateParams blocks selector) = (.ok (some tags), w) ∧
      (∀ key : SizeT, (tags[key]?).isSome ↔ Selects blocks selector (key + 1)) ∧
      ∀ (key : SizeT) tag, tags[key]? = some tag → key.toNat < contents.length ∧
        TaggedAt lib privateParams.a publicParams.u fileId (fullFile contents) w key tag := by
  obtain ⟨targetIndices, htargets⟩ := haccepted
  have hacc := accepted_tagsRequest hfile publicParams privateParams htargets
  have htarget := mem_targets_iff (Nat.lt_of_le_of_lt hwindow.inside hlength) htargets
  -- every target is a block of the file, read by both sources, and registered
  have hplace : ∀ i ∈ targetIndices, ∃ block, contents[(i - 1).toNat]? = some block ∧
      blocks.block (i - 1 - blocks.globalBlockStartIndex) = .ok block :=
    fun i hi => hwindow.read_global ((htarget i).2 hi)
  have hat : ∀ i ∈ targetIndices, ∃ metadata,
      w.metadataAt fileId (i - 1) = some (.versioned metadata) := by
    intro i hi
    obtain ⟨block, hcontent, _⟩ := hplace i hi
    exact h.versioned _ (List.getElem?_eq_some_iff.mp hcontent).1
  have hgoes : ∀ i ∈ targetIndices, w.stopsAt fileId blocks i = false := by
    intro i hi
    obtain ⟨_, _, hblock⟩ := hplace i hi
    obtain ⟨_, hm⟩ := hat i hi
    simp only [stopsAt, hasForeignMetadata, hm, hblock, Bool.or_false]
  have hentry : ∀ i ∈ targetIndices, (w.entry fileId (i - 1)).isSome := by
    intro i hi
    obtain ⟨_, hm⟩ := hat i hi
    obtain ⟨r, hr, _⟩ := metadataAt_eq_some.mp hm
    rw [hr, Option.isSome_some]
  have hstore := generateTags_store lib hw hacc h.hasFile hentry
  obtain ⟨tags, hok, hkeys, _⟩ := generateTags_complete ht hw hacc hgoes
  have hselects : ∀ key : SizeT, (tags[key]?).isSome ↔ Selects blocks selector (key + 1) :=
    fun key => (hkeys key).trans (htarget (key + 1)).1
  refine ⟨tags, Prod.ext hok hstore, hselects, fun key tag htag => ?_⟩
  obtain ⟨_, htagged⟩ := generateTags_tagging lib hw
    (tagsRequest fileId publicParams privateParams blocks selector)
  obtain ⟨_, _, _, _, _, hacc', hcurrent⟩ := htagged tags hok
  cases hacc'.ext
  cases hacc'.source
  have hkey := hcurrent key tag htag
  rw [hstore] at hkey
  have hmem : key + 1 ∈ targetIndices := (hkeys key).mp (by rw [htag, Option.isSome_some])
  obtain ⟨block, hcontent, hblock⟩ := hplace (key + 1) hmem
  rw [add_sub_cancel_right] at hcontent hblock
  refine ⟨(List.getElem?_eq_some_iff.mp hcontent).1, hkey.of_block ?_⟩
  rw [hblock, fullFile_block, ← hcontent]
  exact congrArg (fun k : SizeT => contents[k.toNat]?) (sub_zero key)

/-- The container has the tags of `fullTags` at the selected keys and no others. -/
structure SelectedPart (fullTags : InMemoryTags G1) (blocks : AuditBlockSource)
    (selector : Option (List SizeT)) (tags : InMemoryTags G1) : Prop where
  keys : ∀ key : SizeT, (tags[key]?).isSome ↔ Selects blocks selector (key + 1)
  same : ∀ (key : SizeT) (tag : Tag G1), tags[key]? = some tag → fullTags[key]? = some tag

/-- Whatever window and selector a tag was generated through, it is the tag of the run over the
whole file; so windows and selectors that together cover the file merge to the tags of that
run. -/
theorem generateTags_window_independent (ht : lib.TotalPoints) (hw : w.WellFormed)
    (hfile : fileId ≠ []) (publicParams : DHTDynamicPublicParams G1 G2)
    (privateParams : DHTDynamicPrivateParams) (contents : List Bytes)
    (hlength : contents.length < 2 ^ 64) (h : w.HoldsFile fileId contents) :
    ∃ fullTags : InMemoryTags G1,
      w.generateTags lib (tagsRequest fileId publicParams privateParams (fullFile contents) none) =
        (.ok (some fullTags), w) ∧
      (∀ key : SizeT, (fullTags[key]?).isSome ↔ key.toNat < contents.length) ∧
      (∀ blocks selector, blocks.IsWindow contents → SelectorAccepted blocks selector →
        ∃ tags, w.generateTags lib (tagsRequest fileId publicParams privateParams blocks selector) =
          (.ok (some tags), w) ∧ SelectedPart fullTags blocks selector tags) ∧
      ∀ pieces : List (AuditBlockSource × Option (List SizeT)),
        (∀ piece ∈ pieces, piece.1.IsWindow contents ∧ SelectorAccepted piece.1 piece.2) →
        (∀ key : SizeT, key.toNat < contents.length →
          ∃ piece ∈ pieces, Selects piece.1 piece.2 (key + 1)) →
        ∃ containers : List (InMemoryTags G1),
          replies (fun w input => w.generateTags lib input) w
            (pieces.map fun piece => tagsRequest fileId publicParams privateParams piece.1
              piece.2) = (containers.map fun tags => .ok (some tags), w) ∧
          mergeAll containers = fullTags := by
  obtain ⟨fullTags, hfull, hfullKeys, hfullTags⟩ := h.generateTags ht hw hfile hlength publicParams
    privateParams (fullFile_isWindow hlength) (⟨_, rfl⟩ : SelectorAccepted _ none)
  have hrange : ∀ key : SizeT, (fullTags[key]?).isSome ↔ key.toNat < contents.length := by
    intro key
    constructor
    · intro hsome
      obtain ⟨tag, htag⟩ := Option.isSome_iff_exists.mp hsome
      exact (hfullTags key tag htag).1
    · intro hlt
      apply (hfullKeys key).mpr
      exact selects_fullFile hlength hlt
  have hpiece : ∀ blocks selector, blocks.IsWindow contents → SelectorAccepted blocks selector →
      ∃ tags, w.generateTags lib (tagsRequest fileId publicParams privateParams blocks selector) =
        (.ok (some tags), w) ∧ SelectedPart fullTags blocks selector tags := by
    intro blocks selector hwindow haccepted
    obtain ⟨tags, hrun, hkeys, htags⟩ := h.generateTags ht hw hfile hlength publicParams
      privateParams hwindow haccepted
    refine ⟨tags, hrun, hkeys, fun key tag htag => ?_⟩
    obtain ⟨hlt, htagged⟩ := htags key tag htag
    obtain ⟨fullTag, hfullTag⟩ := Option.isSome_iff_exists.mp ((hrange key).mpr hlt)
    rw [hfullTag, (hfullTags key fullTag hfullTag).2.unique htagged]
  refine ⟨fullTags, hfull, hrange, hpiece, fun pieces hpieces hcover => ?_⟩
  have hruns : ∃ containers : List (InMemoryTags G1),
      replies (fun w input => w.generateTags lib input) w
        (pieces.map fun piece => tagsRequest fileId publicParams privateParams piece.1 piece.2) =
          (containers.map fun tags => .ok (some tags), w) ∧
      (∀ tags ∈ containers, ∃ piece ∈ pieces, SelectedPart fullTags piece.1 piece.2 tags) ∧
      ∀ piece ∈ pieces, ∃ tags ∈ containers, SelectedPart fullTags piece.1 piece.2 tags :=
    replies_of_unchanged fun piece hmem =>
      hpiece piece.1 piece.2 (hpieces piece hmem).1 (hpieces piece hmem).2
  obtain ⟨containers, hruns, hsource, hreply⟩ := hruns
  refine ⟨containers, hruns, mergeAll_eq (fun tags htags => ?_) fun key hkey => ?_⟩
  · obtain ⟨_, _, hpart⟩ := hsource tags htags
    exact hpart.same
  · obtain ⟨piece, hmem, hselects⟩ := hcover key ((hrange key).mp hkey)
    obtain ⟨tags, htags, hpart⟩ := hreply piece hmem
    exact ⟨tags, htags, (hpart.keys key).mpr hselects⟩

/-- A file of two blocks that one run has tagged. -/
def taggedFile : World Empty :=
  ((empty defaultMetadataFactory (Stream'.const 0)).generateTags
    (zmodLib fun input => input.length) (tagRequest [7] [[1], [2]] none)).2

theorem taggedFile_holdsFile : taggedFile.HoldsFile [7] [[1], [2]] := by
  refine ⟨rfl, fun key hkey => ?_⟩
  have hcases : key = 0 ∨ key = 1 := by
    simp only [← UInt64.toNat_inj, List.length_cons, List.length_nil] at hkey ⊢
    have hzero : (0 : SizeT).toNat = 0 := rfl
    have hone : (1 : SizeT).toNat = 1 := rfl
    omega
  rcases hcases with rfl | rfl
  · exact ⟨⟨1, 0⟩, rfl⟩
  · exact ⟨⟨1, 0⟩, rfl⟩

/-- The second block through a window and the first through a selector. -/
theorem generateTags_window_independent_two :
    let lib := zmodLib fun input => input.length
    let request blocks selector :=
      tagsRequest [7] unitPublicParams unitPrivateParams blocks selector
    ∃ (fullTags : InMemoryTags (ZMod 5)) (containers : List (InMemoryTags (ZMod 5))),
      taggedFile.generateTags lib (request (fullFile [[1], [2]]) none) =
        (.ok (some fullTags), taggedFile) ∧
      replies (fun w input => w.generateTags lib input) taggedFile
        [request (windowOf [[1], [2]] 1 1) none, request (fullFile [[1], [2]]) (some [1])] =
          (containers.map fun tags => .ok (some tags), taggedFile) ∧
      mergeAll containers = fullTags := by
  have hempty : (empty defaultMetadataFactory (Stream'.const 0) : World Empty).WellFormed :=
    .empty _ _
  have hwf : taggedFile.WellFormed := (generateTags_tagging _ hempty _).1.wellFormed
  obtain ⟨fullTags, hfull, _, _, hpieces⟩ := generateTags_window_independent
    (zmodLib_totalPoints fun input => input.length) hwf (by decide) unitPublicParams
    unitPrivateParams [[1], [2]] (by decide) taggedFile_holdsFile
  have hwindows : ∀ piece ∈ [(windowOf [[1], [2]] 1 1, none), (fullFile [[1], [2]], some [1])],
      piece.1.IsWindow [[1], [2]] ∧ SelectorAccepted piece.1 piece.2 := by
    simp only [List.forall_mem_cons]
    exact ⟨⟨windowOf_isWindow (by decide), _, rfl⟩, ⟨fullFile_isWindow (by decide), [1], rfl⟩,
      fun _ hpiece => nomatch hpiece⟩
  have hcover : ∀ key : SizeT, key.toNat < 2 → ∃ piece ∈ [(windowOf [[1], [2]] 1 1, none),
      (fullFile [[1], [2]], some [1])], Selects piece.1 piece.2 (key + 1) := by
    intro key hkey
    have hcases : key = 1 ∨ key = 0 := by
      simp only [← UInt64.toNat_inj]
      have hzero : (0 : SizeT).toNat = 0 := rfl
      have hone : (1 : SizeT).toNat = 1 := rfl
      omega
    rcases hcases with rfl | rfl
    · exact ⟨_, List.mem_cons_self, by decide, by decide⟩
    · exact ⟨_, List.mem_cons_of_mem _ List.mem_cons_self, List.mem_cons_self⟩
  obtain ⟨containers, hruns, hmerge⟩ := hpieces _ hwindows hcover
  exact ⟨fullTags, containers, hfull, hruns, hmerge⟩

/-- A block registered through a factory of another class has metadata but gets no tag. -/
theorem generateTags_foreign_metadata :
    let lib := zmodLib fun input => input.length
    let start : World Unit :=
      (((empty (fun _ => .custom ()) (Stream'.const 0)).addFile [7]).2.insertBlock [7] 1).2
    start.WellFormed ∧ (∀ key : SizeT, key.toNat < 1 → (start.metadataAt [7] key).isSome) ∧
      (fullFile [[1]]).IsWindow [[1]] ∧ SelectorAccepted (fullFile [[1]]) none ∧
      (start.generateTags lib (tagsRequest [7] unitPublicParams unitPrivateParams
        (fullFile [[1]]) none)).1 = .error (.tagsNotVersioned 1) := by
  refine ⟨((WellFormed.empty _ _).addFile [7]).insertBlock [7] 1, fun key hkey => ?_,
    fullFile_isWindow (by decide), ⟨_, rfl⟩, rfl⟩
  obtain rfl : key = 0 := by
    rw [← UInt64.toNat_inj]
    exact Nat.lt_one_iff.mp hkey
  rfl

end World

end DHTDynamic
