import DHTDynamicAudit.Audit.TagRuns

/-!
# What concurrent tag generation keeps

Whatever targets the runs have and however they interleave, the store only grows
by new records, each run has one tag for every target behind it, and a record
that a run is about to register is known to nobody else.
-/

namespace DHTDynamic

open Core
open Std (ExtTreeMap)

variable {G1 G2 GT κ : Type} {lib : CoreLib G1 G2 GT}

namespace World

variable {w w' w₀ : World κ} {fileId : Bytes} {blockIndex key : SizeT} {job : TagJob G1}
  {rest : List SizeT} {made : MadeTags G1} {metadata r : Ref} {run : TagRun G1}

/-! ## Writing one entry -/

theorem ensureFile_of_missing (h : w.hasFile fileId = false) :
    w.ensureFile fileId = (.ok (), w.putCollection fileId ∅) := by
  have hnone : w.files_[fileId]? = none := by
    simpa only [hasFile, Option.isSome_eq_false_iff, Option.isNone_iff_eq_none] using h
  rw [ensureFile, h, if_neg Bool.false_ne_true, addFile]
  simp only [hnone]

theorem files_setMetadata_of_hasFile (h : w.hasFile fileId = true) :
    ∃ collection, w.files_[fileId]? = some collection ∧
      w.setMetadata fileId key metadata =
        w.putCollection fileId (collection.insert key metadata) := by
  obtain ⟨collection, hcollection⟩ := Option.isSome_iff_exists.mp h
  exact ⟨collection, hcollection, by simp only [setMetadata, hcollection]⟩

theorem entry_setMetadata (h : w.hasFile fileId = true) (g : Bytes) (k : SizeT) :
    (w.setMetadata fileId key metadata).entry g k =
      if fileId = g ∧ key = k then some metadata else w.entry g k := by
  obtain ⟨collection, hcollection, hset⟩ := files_setMetadata_of_hasFile h
  rw [hset, entry_putCollection]
  by_cases hg : fileId = g
  · subst hg
    rw [if_pos rfl, getElem?_insert_index, ← entry_of_collection hcollection]
    simp only [true_and]
  · rw [if_neg hg, if_neg fun he => hg he.1]

@[simp] theorem heap_setMetadata : (w.setMetadata fileId key metadata).heap = w.heap := by
  unfold setMetadata
  split <;> rfl

@[simp] theorem nextRef_setMetadata :
    (w.setMetadata fileId key metadata).nextRef = w.nextRef := by
  unfold setMetadata
  split <;> rfl

theorem metadataAt_setMetadata_of_ne (h : w.hasFile fileId = true) {g : Bytes} {k : SizeT}
    (hne : ¬ (fileId = g ∧ key = k)) :
    (w.setMetadata fileId key metadata).metadataAt g k = w.metadataAt g k := by
  rw [metadataAt, metadataAt, entry_setMetadata h, if_neg hne, heap_setMetadata]

theorem metadataAt_setMetadata_self (h : w.hasFile fileId = true) :
    (w.setMetadata fileId key metadata).metadataAt fileId key = some (w.heap metadata) := by
  rw [metadataAt, entry_setMetadata h, if_pos ⟨rfl, rfl⟩, heap_setMetadata, Option.map_some]

theorem hasFile_setMetadata (g : Bytes) :
    (w.setMetadata fileId key metadata).hasFile g = w.hasFile g := by
  unfold setMetadata
  split
  · rfl
  · rename_i collection hcollection
    rw [hasFile, hasFile, files_putCollection]
    split_ifs with hg
    · subst hg
      rw [hcollection, Option.isSome_some, Option.isSome_some]
    · rfl

/-! ## Records that are not registered yet -/

/-- A record of a run that no entry shows yet, for a block without metadata at the start. -/
structure Pending (w₀ w : World κ) (fileId : Bytes) (key : SizeT) (metadata : Ref) : Prop where
  allocated : metadata < w.nextRef
  unregistered : ∀ g k, w.entry g k ≠ some metadata
  fresh : ∃ second, w.heap metadata = .versioned ⟨1, second⟩
  missing : w₀.metadataAt fileId key = none

/-- It stays one while others allocate and register records of their own. -/
theorem Pending.of_entry (h : Pending w₀ w fileId key metadata) (hnext : w.nextRef ≤ w'.nextRef)
    (hheap : w'.heap metadata = w.heap metadata)
    (hentry : ∀ g k, w'.entry g k = some metadata → w.entry g k = some metadata) :
    Pending w₀ w' fileId key metadata := by
  refine ⟨Nat.lt_of_lt_of_le h.allocated hnext, fun g k hk => ?_, ?_, h.missing⟩
  · exact h.unregistered g k (hentry g k hk)
  · rw [hheap]
    exact h.fresh

theorem RegistersOnly.newRecord (h : w₀.RegistersOnly w) (m : BlockMetadata κ) :
    w₀.RegistersOnly (w.now.2.allocate m).2 := by
  have hat : ∀ g k, (w.now.2.allocate m).2.metadataAt g k = w.metadataAt g k := by
    intro g k
    have hentry : (w.now.2.allocate m).2.entry g k = w.entry g k := rfl
    rw [metadataAt, metadataAt, hentry]
    cases hr : w.entry g k with
    | none => rfl
    | some r =>
      have hne : r ≠ w.nextRef := Nat.ne_of_lt (h.wellFormed.allocated g k r hr)
      exact congrArg some (Function.update_of_ne hne _ _)
  refine ⟨⟨?_, fun g k m' hm => ?_⟩, h.hasFile, fun g k m' hnone hm => ?_⟩
  · exact h.wellFormed.of_entry_imp _ (Nat.le_succ _) fun _ _ _ hr => hr
  · rw [hat]
    exact h.metadataAt g k m' hm
  · rw [hat] at hm
    exact h.fresh g k m' hnone hm

/-- Registering it keeps what was there at the start, even over the record of another run. -/
theorem RegistersOnly.setMetadata (h : w₀.RegistersOnly w) (hfile : w.hasFile fileId = true)
    (hp : Pending w₀ w fileId key metadata) :
    w₀.RegistersOnly (w.setMetadata fileId key metadata) := by
  have hold : ∀ g k r, (w.setMetadata fileId key metadata).entry g k = some r →
      (fileId = g ∧ key = k ∧ metadata = r) ∨ r ≠ metadata ∧ w.entry g k = some r := by
    intro g k r hr
    rw [entry_setMetadata hfile] at hr
    split_ifs at hr with he
    · exact Or.inl ⟨he.1, he.2, Option.some.inj hr⟩
    · refine Or.inr ⟨?_, hr⟩
      rintro rfl
      exact hp.unregistered g k hr
  refine ⟨⟨⟨?_, ?_⟩, ?_⟩, fun g hg => ?_, ?_⟩
  · intro g k r hr
    rw [nextRef_setMetadata]
    rcases hold g k r hr with ⟨_, _, rfl⟩ | ⟨_, hr⟩
    · exact hp.allocated
    · exact h.wellFormed.allocated g k r hr
  · intro g g' k k' r hr hr'
    rcases hold g k r hr with ⟨hg, hk, rfl⟩ | ⟨hne, hr⟩
    · rcases hold g' k' _ hr' with ⟨hg', hk', _⟩ | ⟨hne, _⟩
      · exact ⟨hg.symm.trans hg', hk.symm.trans hk'⟩
      · exact absurd rfl hne
    · rcases hold g' k' r hr' with ⟨_, _, rfl⟩ | ⟨_, hr'⟩
      · exact absurd rfl hne
      · exact h.wellFormed.unshared g g' k k' r hr hr'
  · intro g k m hm
    rw [metadataAt_setMetadata_of_ne hfile, h.metadataAt g k m hm]
    rintro ⟨rfl, rfl⟩
    rw [hp.missing] at hm
    cases hm
  · rw [hasFile_setMetadata]
    exact h.hasFile g hg
  · intro g k m hnone hm
    by_cases he : fileId = g ∧ key = k
    · obtain ⟨rfl, rfl⟩ := he
      obtain ⟨second, hsecond⟩ := hp.fresh
      rw [metadataAt_setMetadata_self hfile, hsecond] at hm
      exact ⟨second, (Option.some.inj hm).symm⟩
    · rw [metadataAt_setMetadata_of_ne hfile he] at hm
      exact h.fresh g k m hnone hm

/-! ## The points of a run -/

/-- The loop has one tag for each target behind it, and none of them stops it. -/
structure Loop (lib : CoreLib G1 G2 GT) (w₀ : World κ) (job : TagJob G1) (rest : List SizeT)
    (made : MadeTags G1) : Prop where
  split : ∃ done, job.targetIndices = done ++ rest ∧
    (∀ i ∈ done, w₀.stopException job.fileId job.blocks i = none) ∧
    ∀ key : SizeT, (made[key]?).isSome ↔ key + 1 ∈ done
  computed : ∀ (key : SizeT) m tag, made[key]? = some (m, tag) → TagOver lib job key m tag

theorem Loop.start : Loop lib w₀ job job.targetIndices ∅ := by
  refine ⟨⟨[], rfl, (fun _ hi => nomatch hi), fun key => by simp⟩, fun key m tag htag => ?_⟩
  rw [ExtTreeMap.getElem?_empty] at htag
  cases htag

theorem Loop.head_mem (h : Loop lib w₀ job (blockIndex :: rest) made) :
    blockIndex ∈ job.targetIndices := by
  obtain ⟨done, hsplit, _⟩ := h.split
  rw [hsplit]
  exact List.mem_append_right done List.mem_cons_self

/-- A pass that is not stopped adds its tag. -/
theorem Loop.insert (h : Loop lib w₀ job (blockIndex :: rest) made)
    (hgoes : w₀.stopException job.fileId job.blocks blockIndex = none)
    {m : VersionedBlockMetadata} {tag : Tag G1} (htag : TagOver lib job (blockIndex - 1) m tag) :
    Loop lib w₀ job rest (made.insert (blockIndex - 1) (m, tag)) := by
  obtain ⟨done, hsplit, hdone, hkeys⟩ := h.split
  refine ⟨⟨done ++ [blockIndex], by simp [hsplit], ?_, fun key => ?_⟩, fun key m' tag' h' => ?_⟩
  · intro i hi
    rcases List.mem_append.mp hi with hi | hi
    · exact hdone i hi
    · obtain rfl := List.mem_singleton.mp hi
      exact hgoes
  · have hkey : blockIndex - 1 = key ↔ key + 1 = blockIndex := sub_eq_iff_eq_add.trans eq_comm
    rw [getElem?_insert_index, List.mem_append, List.mem_singleton, ← hkeys, ← hkey]
    split_ifs with he
    · simp [he]
    · simp [he]
  · rw [getElem?_insert_index] at h'
    split_ifs at h' with hkey
    · obtain ⟨rfl, rfl⟩ := Prod.mk.inj (Option.some.inj h')
      exact hkey ▸ htag
    · exact h.computed key m' tag' h'

/-- The pass that is stopped decides how the request ends. -/
theorem Loop.firstStop (h : Loop lib w₀ job (blockIndex :: rest) made) {e : Exception}
    (hstop : w₀.stopException job.fileId job.blocks blockIndex = some e) :
    w₀.firstStop job = some e := by
  obtain ⟨done, hsplit, hdone, _⟩ := h.split
  have hnone : done.findSome? (w₀.stopException job.fileId job.blocks) = none :=
    List.findSome?_eq_none_iff.mpr hdone
  rw [World.firstStop, hsplit, List.findSome?_append, hnone, List.findSome?_cons, hstop,
    Option.none_or]

end World

/-- The record that a run is about to register. -/
def TagRun.pending : TagRun G1 → Option Ref
  | .getBlockMetadataCollection metadata _ _ _ | .set metadata _ _ _ => some metadata
  | _ => none

/-- The runs are not about to register one record both. -/
def TagRun.Apart (run other : TagRun G1) : Prop :=
  ∀ metadata, run.pending = some metadata → other.pending ≠ some metadata

theorem TagRun.Apart.symm {run other : TagRun G1} (h : run.Apart other) : other.Apart run :=
  fun r hr hrun => h r hrun hr

namespace World

variable {w w' w₀ : World κ} {fileId : Bytes} {blockIndex key : SizeT} {job : TagJob G1}
  {rest : List SizeT} {made : MadeTags G1} {metadata r : Ref} {run : TagRun G1}

/-- Where a run is, against the store at the start and now. -/
def TagPoint (lib : CoreLib G1 G2 GT) (w₀ : World κ) (job : TagJob G1) (run : TagRun G1)
    (w : World κ) : Prop :=
  match run with
  | .hasFile => True
  | .addFile => w₀.hasFile job.fileId = false
  | .getBlockMetadata blockIndex rest made =>
    w.hasFile job.fileId = true ∧ Loop lib w₀ job (blockIndex :: rest) made
  | .getBlockMetadataCollection metadata blockIndex rest made
  | .set metadata blockIndex rest made =>
    w.hasFile job.fileId = true ∧ Loop lib w₀ job (blockIndex :: rest) made ∧
      Pending w₀ w job.fileId (blockIndex - 1) metadata
  | .returned made => Loop lib w₀ job [] made
  | .thrown e => w₀.firstStop job = some e ∨
      e = .fileExists job.fileId ∧ w₀.hasFile job.fileId = false

theorem TagPoint.next (hfile : w.hasFile job.fileId = true) (h : Loop lib w₀ job rest made) :
    TagPoint lib w₀ job (.next made rest) w := by
  cases rest with
  | nil => exact h
  | cons blockIndex rest => exact ⟨hfile, h⟩

/-- The end of a pass is a point again. -/
theorem TagPoint.finishPass (ht : lib.TotalPoints) (hw : w₀.RegistersOnly w)
    (hfile : w.hasFile job.fileId = true) (h : Loop lib w₀ job (blockIndex :: rest) made)
    (hentry : w.entry job.fileId (blockIndex - 1) = some metadata) :
    TagPoint lib w₀ job (finishPass lib job w metadata blockIndex rest made) w := by
  have hcases := finishPass_cases ht hentry rest made
  rw [hw.stopException] at hcases
  rcases hcases with ⟨hgoes, m, tag, _, htag, hout⟩ | ⟨e, hstop, hout⟩
  · rw [hout]
    exact .next hfile (h.insert hgoes htag)
  · rw [hout]
    exact Or.inl (h.firstStop hstop)

/-- A point survives what does not lose files or touch its record. -/
theorem TagPoint.of_store (h : TagPoint lib w₀ job run w)
    (hfile : ∀ g, w.hasFile g = true → w'.hasFile g = true)
    (hpending : ∀ metadata f k, run.pending = some metadata → Pending w₀ w f k metadata →
      Pending w₀ w' f k metadata) : TagPoint lib w₀ job run w' := by
  cases run with
  | hasFile => trivial
  | addFile => exact h
  | getBlockMetadata blockIndex rest made => exact ⟨hfile _ h.1, h.2⟩
  | getBlockMetadataCollection metadata blockIndex rest made =>
    exact ⟨hfile _ h.1, h.2.1, hpending metadata _ _ rfl h.2.2⟩
  | set metadata blockIndex rest made =>
    exact ⟨hfile _ h.1, h.2.1, hpending metadata _ _ rfl h.2.2⟩
  | returned made => exact h
  | thrown e => exact h

theorem TagPoint.pending (h : TagPoint lib w₀ job run w) (hr : run.pending = some r) :
    ∃ f k, Pending w₀ w f k r := by
  cases run with
  | getBlockMetadataCollection metadata blockIndex rest made =>
    obtain rfl := Option.some.inj hr
    exact ⟨_, _, h.2.2⟩
  | set metadata blockIndex rest made =>
    obtain rfl := Option.some.inj hr
    exact ⟨_, _, h.2.2⟩
  | _ => cases hr

/-! ## Steps -/

theorem pending_next (made : MadeTags G1) (rest : List SizeT) :
    (TagRun.next made rest).pending = none := by
  cases rest <;> rfl

theorem pending_finishPass (lib : CoreLib G1 G2 GT) (job : TagJob G1) (w : World κ)
    (metadata : Ref) (blockIndex : SizeT) (rest : List SizeT) (made : MadeTags G1) :
    (finishPass lib job w metadata blockIndex rest made).pending = none := by
  unfold finishPass
  split
  · rfl
  · dsimp only
    split
    · rfl
    · exact pending_next _ _

theorem entry_of_getBlockMetadata_error {e : Exception}
    (h : w.getBlockMetadata fileId blockIndex = .error e) :
    w.entry fileId (blockIndex - 1) = none := by
  cases hr : w.entry fileId (blockIndex - 1) with
  | none => rfl
  | some r => cases h.symm.trans (getBlockMetadata_eq_ok.mpr hr)

/-- Everything one request can do, with what it has found in the store. -/
inductive TagStep (lib : CoreLib G1 G2 GT) (job : TagJob G1) (w : World κ) :
    TagRun G1 → TagRun G1 → World κ → Prop where
  | found (hfile : w.hasFile job.fileId = true) :
    TagStep lib job w .hasFile (.next ∅ job.targetIndices) w
  | missing (hfile : w.hasFile job.fileId = false) : TagStep lib job w .hasFile .addFile w
  | added (hfile : w.hasFile job.fileId = false) :
    TagStep lib job w .addFile (.next ∅ job.targetIndices) (w.putCollection job.fileId ∅)
  | present (hfile : w.hasFile job.fileId = true) :
    TagStep lib job w .addFile (.thrown (.fileExists job.fileId)) w
  | tag (metadata : Ref) (blockIndex : SizeT) (rest : List SizeT) (made : MadeTags G1)
    (hentry : w.entry job.fileId (blockIndex - 1) = some metadata) :
    TagStep lib job w (.getBlockMetadata blockIndex rest made)
      (finishPass lib job w metadata blockIndex rest made) w
  | record (blockIndex : SizeT) (rest : List SizeT) (made : MadeTags G1)
    (hentry : w.entry job.fileId (blockIndex - 1) = none) :
    TagStep lib job w (.getBlockMetadata blockIndex rest made)
      (.getBlockMetadataCollection w.nextRef blockIndex rest made)
      (w.now.2.allocate (.versioned ⟨1, w.clock.head⟩)).2
  | collection (metadata : Ref) (blockIndex : SizeT) (rest : List SizeT) (made : MadeTags G1)
    (hfile : w.hasFile job.fileId = true) :
    TagStep lib job w (.getBlockMetadataCollection metadata blockIndex rest made)
      (.set metadata blockIndex rest made) w
  | lost (metadata : Ref) (blockIndex : SizeT) (rest : List SizeT) (made : MadeTags G1)
    (hfile : w.hasFile job.fileId = false) :
    TagStep lib job w (.getBlockMetadataCollection metadata blockIndex rest made)
      (.thrown (.fileMissing .getBlockMetadataCollection job.fileId)) w
  | register (metadata : Ref) (blockIndex : SizeT) (rest : List SizeT) (made : MadeTags G1) :
    TagStep lib job w (.set metadata blockIndex rest made)
      (finishPass lib job (w.setMetadata job.fileId (blockIndex - 1) metadata) metadata blockIndex
        rest made)
      (w.setMetadata job.fileId (blockIndex - 1) metadata)
  | returned (made : MadeTags G1) : TagStep lib job w (.returned made) (.returned made) w
  | thrown (e : Exception) : TagStep lib job w (.thrown e) (.thrown e) w

theorem tagStep_cases (lib : CoreLib G1 G2 GT) (job : TagJob G1) (run : TagRun G1) (w : World κ) :
    TagStep lib job w run (tagStep lib job run w).1 (tagStep lib job run w).2 := by
  cases run with
  | hasFile =>
    unfold tagStep
    split_ifs with hfile
    · exact .found hfile
    · exact .missing (Bool.eq_false_iff.mpr hfile)
  | addFile =>
    unfold tagStep addFile
    cases hfile : w.files_[job.fileId]? with
    | some collection => exact .present (hasFile_of_collection hfile)
    | none => exact .added (by rw [hasFile, hfile, Option.isSome_none])
  | getBlockMetadata blockIndex rest made =>
    cases hget : w.getBlockMetadata job.fileId blockIndex with
    | ok existing =>
      rw [tagStep_of_ok hget]
      exact .tag existing blockIndex rest made (getBlockMetadata_eq_ok.mp hget)
    | error e =>
      rw [tagStep_of_error hget]
      exact .record blockIndex rest made (entry_of_getBlockMetadata_error hget)
  | getBlockMetadataCollection metadata blockIndex rest made =>
    unfold tagStep
    cases hfile : w.files_[job.fileId]? with
    | none => exact .lost metadata blockIndex rest made (by rw [hasFile, hfile, Option.isSome_none])
    | some collection =>
      exact .collection metadata blockIndex rest made (hasFile_of_collection hfile)
  | set metadata blockIndex rest made => exact .register metadata blockIndex rest made
  | returned made => exact .returned made
  | thrown e => exact .thrown e

/-- What a step leaves of the store, and which record the run is about to register then. -/
inductive StepEffect (job : TagJob G1) (run run' : TagRun G1) (w : World κ) : World κ → Prop where
  | same (hpending : ∀ r, run'.pending = some r → run.pending = some r) :
    StepEffect job run run' w w
  | file (hrun : run = .addFile) (hmissing : w.hasFile job.fileId = false)
    (hpending : run'.pending = none) : StepEffect job run run' w (w.putCollection job.fileId ∅)
  | record (second : UInt64) (hpending : run'.pending = some w.nextRef) :
    StepEffect job run run' w (w.now.2.allocate (.versioned ⟨1, second⟩)).2
  | entry (metadata : Ref) (blockIndex : SizeT) (rest : List SizeT) (made : MadeTags G1)
    (hrun : run = .set metadata blockIndex rest made) (hpending : run'.pending = none) :
    StepEffect job run run' w (w.setMetadata job.fileId (blockIndex - 1) metadata)

theorem tagStep_effect (lib : CoreLib G1 G2 GT) (job : TagJob G1) (run : TagRun G1)
    (w : World κ) :
    StepEffect job run (tagStep lib job run w).1 w (tagStep lib job run w).2 := by
  have hstep := tagStep_cases lib job run w
  generalize (tagStep lib job run w).1 = run' at hstep ⊢
  generalize (tagStep lib job run w).2 = w' at hstep ⊢
  cases hstep with
  | added hfile => exact .file rfl hfile (pending_next _ _)
  | record blockIndex rest made hentry => exact .record _ rfl
  | register metadata blockIndex rest made =>
    exact .entry metadata blockIndex rest made rfl (pending_finishPass _ _ _ _ _ _ _)
  | found hfile =>
    refine .same fun r hr => ?_
    rw [pending_next] at hr
    cases hr
  | tag metadata blockIndex rest made hentry =>
    refine .same fun r hr => ?_
    rw [pending_finishPass] at hr
    cases hr
  | collection metadata blockIndex rest made hfile => exact .same fun r hr => hr
  | _ => exact .same fun r hr => by cases hr

/-- The new record of a run that has found no metadata. -/
theorem RegistersOnly.pending (hw : w₀.RegistersOnly w) {m : VersionedBlockMetadata}
    (hm : m.version = 1) (hentry : w.entry fileId key = none) :
    Pending w₀ (w.now.2.allocate (.versioned m)).2 fileId key w.nextRef := by
  refine ⟨Nat.lt_succ_self _, fun g k hk => ?_, ⟨m.timestamp, ?_⟩, ?_⟩
  · exact Nat.lt_irrefl _ (hw.wellFormed.allocated g k _ hk)
  · rw [← hm]
    exact Function.update_self _ _ _
  · cases hat : w₀.metadataAt fileId key with
    | none => rfl
    | some m' =>
      have hat' := hw.metadataAt _ _ m' hat
      rw [World.metadataAt, hentry] at hat'
      cases hat'

/-- A run's own step. -/
theorem TagPoint.step (ht : lib.TotalPoints) (hw : w₀.RegistersOnly w)
    (h : TagPoint lib w₀ job run w) :
    w₀.RegistersOnly (tagStep lib job run w).2 ∧
      TagPoint lib w₀ job (tagStep lib job run w).1 (tagStep lib job run w).2 := by
  have hstep := tagStep_cases lib job run w
  generalize (tagStep lib job run w).1 = run' at hstep ⊢
  generalize (tagStep lib job run w).2 = w' at hstep ⊢
  cases hstep with
  | found hfile => exact ⟨hw, .next hfile .start⟩
  | missing hfile =>
    refine ⟨hw, ?_⟩
    cases hstart : w₀.hasFile job.fileId with
    | false => exact hstart
    | true => cases hfile.symm.trans (hw.hasFile _ hstart)
  | added hfile =>
    obtain ⟨w', hensure, hfile', _⟩ := ensureFile_ok hw.wellFormed job.fileId
    obtain rfl := congrArg Prod.snd ((ensureFile_of_missing hfile).symm.trans hensure)
    exact ⟨hw.trans (ensureFile_registersOnly hw.wellFormed hensure), .next hfile' .start⟩
  | present hfile => exact ⟨hw, Or.inr ⟨rfl, h⟩⟩
  | tag metadata blockIndex rest made hentry =>
    exact ⟨hw, .finishPass ht hw h.1 h.2 hentry⟩
  | record blockIndex rest made hentry => exact ⟨hw.newRecord _, h.1, h.2, hw.pending rfl hentry⟩
  | collection metadata blockIndex rest made hfile => exact ⟨hw, h⟩
  | lost metadata blockIndex rest made hfile => cases hfile.symm.trans h.1
  | register metadata blockIndex rest made =>
    obtain ⟨hfile, hloop, hpending⟩ := h
    have hafter := hw.setMetadata hfile hpending
    refine ⟨hafter, .finishPass ht hafter ?_ hloop ?_⟩
    · rw [hasFile_setMetadata]
      exact hfile
    · rw [entry_setMetadata hfile, if_pos ⟨rfl, rfl⟩]
  | returned made => exact ⟨hw, h⟩
  | thrown e => exact ⟨hw, h⟩

/-- The step of another run. -/
theorem TagPoint.other {job' : TagJob G1} {other : TagRun G1} (hw : w₀.RegistersOnly w)
    (h : TagPoint lib w₀ job run w) (h' : TagPoint lib w₀ job' other w)
    (hapart : run.Apart other) :
    TagPoint lib w₀ job' other (tagStep lib job run w).2 ∧
      (tagStep lib job run w).1.Apart other := by
  have heffect := tagStep_effect lib job run w
  generalize tagStep lib job run w = next at heffect ⊢
  obtain ⟨run', w'⟩ := next
  have hlt : ∀ r, other.pending = some r → r < w.nextRef := by
    intro r hr
    obtain ⟨f, k, hpending⟩ := h'.pending hr
    exact hpending.allocated
  cases heffect with
  | same hpending => exact ⟨h', fun r hr => hapart r (hpending r hr)⟩
  | file hrun hmissing hpending =>
    have hensure := ensureFile_of_missing hmissing
    have honly := ensureFile_registersOnly hw.wellFormed hensure
    obtain ⟨w', hensure', _, _, hheap, hentry⟩ := ensureFile_ok hw.wellFormed job.fileId
    obtain rfl : w' = _ := congrArg Prod.snd (hensure'.symm.trans hensure)
    refine ⟨h'.of_store honly.hasFile fun r f k _ hp => ?_, fun r hr => ?_⟩
    · exact hp.of_entry le_rfl (congrFun hheap r) fun g j hj => (hentry g j).symm.trans hj
    · rw [hpending] at hr
      cases hr
  | record second hpending =>
    refine ⟨h'.of_store (fun _ hg => hg) fun r f k hr hp => ?_, fun r hr hother => ?_⟩
    · have hne : r ≠ w.nextRef := Nat.ne_of_lt (hlt r hr)
      exact hp.of_entry (Nat.le_succ _) (Function.update_of_ne hne _ _) fun _ _ hj => hj
    · obtain rfl := Option.some.inj (hpending.symm.trans hr)
      exact Nat.lt_irrefl _ (hlt _ hother)
  | entry metadata blockIndex rest made hrun hpending =>
    subst hrun
    obtain ⟨hfile, _, hown⟩ := h
    have hkeep : ∀ g, w.hasFile g = true →
        (w.setMetadata job.fileId (blockIndex - 1) metadata).hasFile g = true :=
      fun g hg => (hasFile_setMetadata g).trans hg
    refine ⟨h'.of_store hkeep fun r f k hr hp => ?_, fun r hr => ?_⟩
    · refine hp.of_entry nextRef_setMetadata.ge (congrFun heap_setMetadata r) fun g j hj => ?_
      have hentry := (entry_setMetadata hfile g j).symm.trans hj
      split_ifs at hentry
      · obtain rfl := Option.some.inj hentry
        exact absurd hr (hapart _ rfl)
      · exact hentry
    · rw [hpending] at hr
      cases hr

/-! ## Every run comes to an end -/

end World

/-- A bound on the requests that a run still makes. -/
def TagRun.work (job : TagJob G1) : TagRun G1 → Nat
  | .hasFile => 3 * job.targetIndices.length + 2
  | .addFile => 3 * job.targetIndices.length + 1
  | .getBlockMetadata _ rest _ => 3 * rest.length + 3
  | .getBlockMetadataCollection _ _ rest _ => 3 * rest.length + 2
  | .set _ _ rest _ => 3 * rest.length + 1
  | .returned _ | .thrown _ => 0

theorem TagRun.work_next (job : TagJob G1) (made : MadeTags G1) (rest : List SizeT) :
    (TagRun.next made rest).work job = 3 * rest.length := by
  cases rest <;> rfl

theorem TagRun.work_finishPass_le (lib : CoreLib G1 G2 GT) (job : TagJob G1) (w : World κ)
    (metadata : Ref) (blockIndex : SizeT) (rest : List SizeT) (made : MadeTags G1) :
    (finishPass lib job w metadata blockIndex rest made).work job ≤ 3 * rest.length := by
  unfold finishPass
  split
  · exact Nat.zero_le _
  · dsimp only
    split
    · exact Nat.zero_le _
    · exact (TagRun.work_next _ _ _).le

/-- Every request counts, whatever it finds. -/
theorem TagRun.work_tagStep_le (lib : CoreLib G1 G2 GT) (job : TagJob G1) (run : TagRun G1)
    (w : World κ) : (tagStep lib job run w).1.work job ≤ run.work job - 1 := by
  have hstep := World.tagStep_cases lib job run w
  generalize (tagStep lib job run w).1 = run' at hstep ⊢
  generalize (tagStep lib job run w).2 = w' at hstep
  cases hstep with
  | found hfile =>
    rw [work_next, work]
    omega
  | added hfile => exact (work_next _ _ _).le
  | tag metadata blockIndex rest made hentry =>
    refine Nat.le_trans (work_finishPass_le lib job w metadata blockIndex rest made) ?_
    rw [work]
    omega
  | present hfile => exact Nat.zero_le _
  | lost metadata blockIndex rest made hfile => exact Nat.zero_le _
  | register metadata blockIndex rest made => exact work_finishPass_le lib job _ _ _ rest made
  | _ => exact Nat.le_refl _

/-- After so many turns of its own a run has ended, however the others move. -/
theorem TagRun.isSome_outcome {ι : Type} [DecidableEq ι] (lib : CoreLib G1 G2 GT)
    (jobs : ι → TagJob G1) {s : Configuration ι (World κ) (TagRun G1)} {schedule : List ι} {i : ι}
    (h : (s.own i).work (jobs i) ≤ schedule.count i) :
    ((interleave (fun i => tagStep lib (jobs i)) s schedule).own i).outcome.isSome := by
  have hle := measure_interleave_le (fun i => TagRun.work_tagStep_le lib (jobs i)) s schedule i
  rw [Nat.sub_eq_zero_of_le h] at hle
  cases hrun : (interleave (fun i => tagStep lib (jobs i)) s schedule).own i with
  | returned made => rfl
  | thrown e => rfl
  | _ =>
    rw [hrun] at hle
    simp only [work] at hle
    omega

namespace World

variable {w w' w₀ : World κ} {fileId : Bytes} {blockIndex key : SizeT} {job : TagJob G1}
  {rest : List SizeT} {made : MadeTags G1} {metadata r : Ref} {run : TagRun G1}

/-! ## All runs -/

/-- Concurrent runs of `generateTags` do not disturb each other's points. -/
theorem tagRuns_nonInterfering {ι : Type} [DecidableEq ι] (ht : lib.TotalPoints) (w₀ : World κ)
    (job : ι → TagJob G1) : NonInterfering (fun i => tagStep (κ := κ) lib (job i))
      w₀.RegistersOnly (fun i => TagPoint lib w₀ (job i)) TagRun.Apart where
  symm _ _ h := TagRun.Apart.symm h
  own _ _ _ hw h := h.step ht hw
  other _ _ _ _ _ _ hw h h' hapart := h.other hw h' hapart

/-- All runs at their first request. -/
abbrev beginTags {ι : Type} (w : World κ) : Configuration ι (World κ) (TagRun G1) :=
  ⟨w, fun _ => .hasFile⟩

theorem asserts_beginTags {ι : Type} (hw : w.WellFormed) (job : ι → TagJob G1) :
    Asserts w.RegistersOnly (fun i => TagPoint lib w (job i)) TagRun.Apart (beginTags w) :=
  ⟨.refl hw, fun _ => trivial, fun _ _ _ _ hr => nomatch hr⟩

end World

end DHTDynamic
