import DHTDynamicAudit.Audit.TagInvariant
import DHTDynamicAudit.Audit.Windows

/-!
# Concurrent first registration

`generateTags` looks whether a file or a block is registered in one request and
registers it in a later one. Runs stay sound as long as nobody else gets in
between with a registration of their own, or with one of the same second; for
two runs on one file this is also necessary.
-/

namespace DHTDynamic

open Core
open Std (ExtTreeMap)

variable {G1 G2 GT κ ι : Type} {lib : CoreLib G1 G2 GT}

namespace World

variable {w w' w₀ : World κ} {fileId : Bytes} {blockIndex key : SizeT} {job : TagJob G1}
  {rest : List SizeT} {made : MadeTags G1} {metadata r : Ref} {run : TagRun G1}

/-! ## Tags and exceptions of one step -/

@[simp] theorem made_next (made : MadeTags G1) (rest : List SizeT) :
    (TagRun.next made rest).made = made := by
  cases rest <;> rfl

theorem next_ne_thrown {e : Exception} : TagRun.next made rest ≠ .thrown e := by
  cases rest <;> exact fun h => nomatch h

/-- No target stops a run with the exception of `addFile`. -/
theorem firstStop_ne_fileExists (f : Bytes) : w.firstStop job ≠ some (.fileExists f) := by
  intro h
  obtain ⟨i, _, hi⟩ := List.exists_of_findSome?_eq_some h
  unfold stopException AuditBlockSource.read at hi
  split_ifs at hi
  · cases hi
  · cases hblock : job.blocks.block (i - 1 - job.blocks.globalBlockStartIndex) with
    | ok block =>
      rw [hblock] at hi
      cases hi
    | error what =>
      rw [hblock] at hi
      cases hi

theorem Loop.firstStop_of_finishPass (ht : lib.TotalPoints) (hw : w₀.RegistersOnly w)
    (h : Loop lib w₀ job (blockIndex :: rest) made)
    (hentry : w.entry job.fileId (blockIndex - 1) = some metadata) {e : Exception}
    (hout : finishPass lib job w metadata blockIndex rest made = .thrown e) :
    w₀.firstStop job = some e := by
  rcases finishPass_cases ht hentry rest made with ⟨_, _, _, _, _, hnext⟩ | ⟨e', hstop, hthrown⟩
  · exact absurd (hnext.symm.trans hout) next_ne_thrown
  · obtain rfl := TagRun.thrown.inj (hthrown.symm.trans hout)
    rw [hw.stopException] at hstop
    exact h.firstStop hstop

/-- A step that throws does so at the first target that stops the run, or because the file has
been added since the run looked. -/
theorem tagStep_thrown (ht : lib.TotalPoints) (hw : w₀.RegistersOnly w)
    (h : TagPoint lib w₀ job run w) {e : Exception}
    (hout : (tagStep lib job run w).1 = .thrown e) :
    w₀.firstStop job = some e ∨ run = .thrown e ∨
      run = .addFile ∧ w.hasFile job.fileId = true := by
  have hstep := tagStep_cases lib job run w
  generalize (tagStep lib job run w).1 = run' at hstep hout
  generalize (tagStep lib job run w).2 = w' at hstep
  cases hstep with
  | found hfile => exact absurd hout next_ne_thrown
  | added hfile => exact absurd hout next_ne_thrown
  | present hfile => exact Or.inr (Or.inr ⟨rfl, hfile⟩)
  | tag metadata blockIndex rest made hentry =>
    exact Or.inl (h.2.firstStop_of_finishPass ht hw hentry hout)
  | lost metadata blockIndex rest made hfile => cases hfile.symm.trans h.1
  | register metadata blockIndex rest made =>
    obtain ⟨hfile, hloop, hpending⟩ := h
    refine Or.inl (hloop.firstStop_of_finishPass ht (hw.setMetadata hfile hpending) ?_ hout)
    rw [entry_setMetadata hfile, if_pos ⟨rfl, rfl⟩]
  | thrown e' => exact Or.inr (Or.inl hout)
  | _ => cases hout

/-- A pass from the cast on throws, or adds a tag over what the store holds for the block. -/
theorem finishPass_made (ht : lib.TotalPoints)
    (hentry : w.entry job.fileId (blockIndex - 1) = some metadata) (rest : List SizeT)
    (made : MadeTags G1) :
    (∃ e, finishPass lib job w metadata blockIndex rest made = .thrown e) ∨
      ∃ m tag, (finishPass lib job w metadata blockIndex rest made).made =
          made.insert (blockIndex - 1) (m, tag) ∧
        w.metadataAt job.fileId (blockIndex - 1) = some (.versioned m) := by
  rcases finishPass_cases ht hentry rest made with ⟨_, m, tag, hm, _, hnext⟩ | ⟨e, _, hthrow⟩
  · exact Or.inr ⟨m, tag, by rw [hnext, made_next], hm⟩
  · exact Or.inl ⟨e, hthrow⟩

/-- The tags a run holds after a step: none if it throws, those it had, or one more, which is
over what the store now holds. -/
theorem tagStep_made (ht : lib.TotalPoints) (h : TagPoint lib w₀ job run w) :
    (∃ e, (tagStep lib job run w).1 = .thrown e) ∨
      (tagStep lib job run w).1.made = run.made ∨
      ∃ key m tag, (tagStep lib job run w).1.made = run.made.insert key (m, tag) ∧
        (tagStep lib job run w).2.metadataAt job.fileId key = some (.versioned m) := by
  have hstep := tagStep_cases lib job run w
  generalize (tagStep lib job run w).1 = run' at hstep ⊢
  generalize (tagStep lib job run w).2 = w' at hstep ⊢
  cases hstep with
  | found hfile => exact Or.inr (Or.inl (made_next _ _))
  | added hfile => exact Or.inr (Or.inl (made_next _ _))
  | present hfile => exact Or.inl ⟨_, rfl⟩
  | tag metadata blockIndex rest made hentry =>
    rcases finishPass_made ht hentry rest made with hthrown | ⟨m, tag, hinsert, hm⟩
    · exact Or.inl hthrown
    · exact Or.inr (Or.inr ⟨_, m, tag, hinsert, hm⟩)
  | lost metadata blockIndex rest made hfile => exact Or.inl ⟨_, rfl⟩
  | register metadata blockIndex rest made =>
    have hentry : (w.setMetadata job.fileId (blockIndex - 1) metadata).entry job.fileId
        (blockIndex - 1) = some metadata := by
      rw [entry_setMetadata h.1, if_pos ⟨rfl, rfl⟩]
    rcases finishPass_made ht hentry rest made with hthrown | ⟨m, tag, hinsert, hm⟩
    · exact Or.inl hthrown
    · exact Or.inr (Or.inr ⟨_, m, tag, hinsert, hm⟩)
  | _ => exact Or.inr (Or.inl rfl)

/-- A tag that a run holds after a step it held before, or it is over what the store now holds. -/
theorem made_tagStep (ht : lib.TotalPoints) (h : TagPoint lib w₀ job run w)
    {m : VersionedBlockMetadata} {tag : Tag G1}
    (htag : (tagStep lib job run w).1.made[key]? = some (m, tag)) :
    run.made[key]? = some (m, tag) ∨
      (tagStep lib job run w).2.metadataAt job.fileId key = some (.versioned m) := by
  rcases tagStep_made ht h with ⟨e, hthrown⟩ | hsame | ⟨k, m', tag', hinsert, hm'⟩
  · rw [hthrown] at htag
    cases (ExtTreeMap.getElem?_empty.symm.trans htag)
  · rw [hsame] at htag
    exact Or.inl htag
  · rw [hinsert, getElem?_insert_index] at htag
    split_ifs at htag with hkey
    · obtain ⟨rfl, rfl⟩ := Prod.mk.inj (Option.some.inj htag)
      exact Or.inr (hkey ▸ hm')
    · exact Or.inl htag

/-- Only `set` changes an entry or replaces what the store holds for a block. -/
theorem tagStep_frame (lib : CoreLib G1 G2 GT) (hw : w.WellFormed)
    (h : TagPoint lib w₀ job run w) (g : Bytes) (key : SizeT) :
    ((tagStep lib job run w).2.entry g key = w.entry g key ∧
        ∀ m, w.metadataAt g key = some m → (tagStep lib job run w).2.metadataAt g key = some m) ∨
      ∃ metadata blockIndex rest made, run = .set metadata blockIndex rest made ∧
        job.fileId = g ∧ blockIndex - 1 = key := by
  have heffect := tagStep_effect lib job run w
  generalize tagStep lib job run w = next at heffect ⊢
  obtain ⟨run', w'⟩ := next
  cases heffect with
  | same hpending => exact Or.inl ⟨rfl, fun _ hm => hm⟩
  | file hrun hmissing hpending =>
    have hensure := ensureFile_of_missing hmissing
    have honly := ensureFile_registersOnly hw hensure
    obtain ⟨w', hensure', _, _, _, hentry⟩ := ensureFile_ok hw job.fileId
    obtain rfl : w' = _ := congrArg Prod.snd (hensure'.symm.trans hensure)
    exact Or.inl ⟨hentry g key, honly.metadataAt g key⟩
  | record second hpending =>
    exact Or.inl ⟨rfl, ((RegistersOnly.refl hw).newRecord _).metadataAt g key⟩
  | entry metadata blockIndex rest made hrun hpending =>
    subst hrun
    by_cases hkey : job.fileId = g ∧ blockIndex - 1 = key
    · exact Or.inr ⟨metadata, blockIndex, rest, made, rfl, hkey⟩
    · refine Or.inl ⟨(entry_setMetadata h.1 g key).trans (if_neg hkey), fun m hm => ?_⟩
      exact (metadataAt_setMetadata_of_ne h.1 hkey).trans hm

/-! ## Sound configurations -/

section Runs

variable {jobs : ι → TagJob G1} {s : Configuration ι (World κ) (TagRun G1)} {i : ι}

/-- Every run that has thrown was stopped by a target of its own, and every tag a run holds is
over the metadata the store now holds for its block. -/
structure Sound (w₀ : World κ) (jobs : ι → TagJob G1)
    (s : Configuration ι (World κ) (TagRun G1)) : Prop where
  thrown : ∀ i e, s.own i = .thrown e → w₀.firstStop (jobs i) = some e
  current : ∀ i (key : SizeT) m tag, (s.own i).made[key]? = some (m, tag) →
    s.shared.metadataAt (jobs i).fileId key = some (.versioned m)

theorem Sound.start : Sound w₀ jobs (beginTags w₀) := by
  refine ⟨fun i e hi => (nomatch hi), fun i key m tag hi => ?_⟩
  cases ExtTreeMap.getElem?_empty.symm.trans hi

/-- If the next request of the run registers the file, it is not there yet; if it registers a
block, the store has no metadata for it, or has the same version and timestamp, or all other runs
have thrown. -/
def InTime (jobs : ι → TagJob G1) (s : Configuration ι (World κ) (TagRun G1)) (i : ι) : Prop :=
  match s.own i with
  | .addFile => s.shared.hasFile (jobs i).fileId = false
  | .set metadata blockIndex _ _ =>
    s.shared.entry (jobs i).fileId (blockIndex - 1) = none ∨
      s.shared.metadataAt (jobs i).fileId (blockIndex - 1) = some (s.shared.heap metadata) ∨
      ∀ j, j ≠ i → ∃ e, s.own j = .thrown e
  | _ => True

/-- What every schedule keeps. -/
abbrev TagInvariant (lib : CoreLib G1 G2 GT) (w₀ : World κ) (jobs : ι → TagJob G1)
    (s : Configuration ι (World κ) (TagRun G1)) : Prop :=
  Asserts w₀.RegistersOnly (fun i => TagPoint lib w₀ (jobs i)) TagRun.Apart s

/-- The block that a run registers is not one it has a tag for. -/
theorem Loop.made_head (h : Loop lib w₀ job (blockIndex :: rest) made)
    (hnodup : job.targetIndices.Nodup) : made[blockIndex - 1]? = none := by
  obtain ⟨done, hsplit, _, hkeys⟩ := h.split
  apply Option.not_isSome_iff_eq_none.mp
  intro hsome
  rw [hkeys, sub_add_cancel] at hsome
  rw [hsplit, List.nodup_append] at hnodup
  exact hnodup.2.2 _ hsome _ List.mem_cons_self rfl

/-- A tag held before a step in time is over what the store holds after it. -/
theorem Sound.current_after (hs : TagInvariant lib w₀ jobs s)
    (hnodup : ∀ i, (jobs i).targetIndices.Nodup) (h : Sound w₀ jobs s) (htime : InTime jobs s i)
    {j : ι} {m : VersionedBlockMetadata} {tag : Tag G1}
    (hheld : (s.own j).made[key]? = some (m, tag)) :
    (tagStep lib (jobs i) (s.own i) s.shared).2.metadataAt (jobs j).fileId key =
      some (.versioned m) := by
  have hpoint := hs.own i
  have hold := h.current j key m tag hheld
  rcases tagStep_frame lib hs.shared.wellFormed hpoint (jobs j).fileId key with
    ⟨_, hkept⟩ | ⟨metadata, blockIndex, rest, made, hset, hfile, hkey⟩
  · exact hkept _ hold
  · -- the step replaces the metadata of this very block
    rw [hset] at hpoint
    have hafter : (tagStep lib (jobs i) (s.own i) s.shared).2.metadataAt (jobs j).fileId key =
        some (s.shared.heap metadata) := by
      rw [hset, ← hfile, ← hkey]
      exact metadataAt_setMetadata_self hpoint.1
    rw [InTime, hset] at htime
    dsimp only at htime
    rw [hfile, hkey] at htime
    rcases htime with hnone | hsame | hthrown
    · rw [metadataAt, hnone] at hold
      cases hold
    · exact hafter.trans (hsame.symm.trans hold)
    · by_cases hji : j = i
      · subst hji
        rw [hset] at hheld
        have hhead := hpoint.2.1.made_head (hnodup j)
        rw [hkey] at hhead
        cases hhead.symm.trans hheld
      · obtain ⟨e, he⟩ := hthrown j hji
        rw [he] at hheld
        cases (ExtTreeMap.getElem?_empty.symm.trans hheld)

variable [DecidableEq ι]

/-- A step in time keeps a configuration sound. -/
theorem Sound.turn (ht : lib.TotalPoints) (hs : TagInvariant lib w₀ jobs s)
    (hnodup : ∀ i, (jobs i).targetIndices.Nodup) (h : Sound w₀ jobs s) (htime : InTime jobs s i) :
    Sound w₀ jobs (turn (fun i => tagStep lib (jobs i)) s i).2 := by
  have hpoint := hs.own i
  refine ⟨fun j e hj => ?_, fun j key m tag hj => ?_⟩
  · by_cases hji : j = i
    · subst hji
      rw [turn_own_self] at hj
      rcases tagStep_thrown ht hs.shared hpoint hj with hstop | hthrown | ⟨hadd, hfile⟩
      · exact hstop
      · exact h.thrown j e hthrown
      · rw [InTime, hadd] at htime
        rw [hfile] at htime
        cases htime
    · rw [turn_own_of_ne hji] at hj
      exact h.thrown j e hj
  · by_cases hji : j = i
    · subst hji
      rw [turn_own_self] at hj
      rcases made_tagStep ht hpoint hj with hheld | hnow
      · exact h.current_after hs hnodup htime hheld
      · exact hnow
    · rw [turn_own_of_ne hji] at hj
      exact h.current_after hs hnodup htime hj

/-! ## Who wrote an entry -/

/-- A block without metadata at the start that has some now was registered by a run that holds a
tag for it or has thrown. -/
def Written (w₀ : World κ) (fileId : Bytes) (s : Configuration ι (World κ) (TagRun G1)) : Prop :=
  ∀ key : SizeT, w₀.metadataAt fileId key = none → (s.shared.entry fileId key).isSome →
    ∃ j, ((s.own j).made[key]?).isSome ∨ ∃ e, s.own j = .thrown e

/-- A run that holds a tag for a block or has thrown does so after every turn. -/
theorem holds_or_thrown_turn (ht : lib.TotalPoints) (hs : TagInvariant lib w₀ jobs s) (i : ι)
    {j : ι} (hj : ((s.own j).made[key]?).isSome ∨ ∃ e, s.own j = .thrown e) :
    (((turn (fun i => tagStep lib (jobs i)) s i).2.own j).made[key]?).isSome ∨
      ∃ e, (turn (fun i => tagStep lib (jobs i)) s i).2.own j = .thrown e := by
  by_cases hji : j = i
  · subst hji
    rw [turn_own_self]
    rcases hj with hmade | ⟨e, he⟩
    · rcases tagStep_made ht (hs.own j) with hthrown | hsame | ⟨k, m, tag, hinsert, _⟩
      · exact Or.inr hthrown
      · exact Or.inl (hsame ▸ hmade)
      · refine Or.inl ?_
        rw [hinsert, getElem?_insert_index]
        split_ifs
        · rfl
        · exact hmade
    · exact Or.inr ⟨e, by rw [he]; rfl⟩
  · rw [turn_own_of_ne hji]
    exact hj

theorem Written.turn (ht : lib.TotalPoints) (hs : TagInvariant lib w₀ jobs s)
    (h : Written w₀ fileId s) (i : ι) :
    Written w₀ fileId (turn (fun i => tagStep lib (jobs i)) s i).2 := by
  intro key hnone hsome
  have hpoint := hs.own i
  by_cases hbefore : (s.shared.entry fileId key).isSome
  · obtain ⟨j, hj⟩ := h key hnone hbefore
    exact ⟨j, holds_or_thrown_turn ht hs i hj⟩
  · -- the step has registered the block, and its run goes on with the tag or throws
    rcases tagStep_frame lib hs.shared.wellFormed hpoint fileId key with
      ⟨hsame, _⟩ | ⟨metadata, blockIndex, rest, made, hset, hfile, hkey⟩
    · rw [turn_shared, hsame] at hsome
      exact absurd hsome hbefore
    refine ⟨i, ?_⟩
    rw [turn_own_self]
    rw [hset] at hpoint ⊢
    have hentry : (s.shared.setMetadata (jobs i).fileId (blockIndex - 1) metadata).entry
        (jobs i).fileId (blockIndex - 1) = some metadata := by
      rw [entry_setMetadata hpoint.1, if_pos ⟨rfl, rfl⟩]
    rcases finishPass_made ht hentry rest made with hthrown | ⟨m, tag, hinsert, _⟩
    · exact Or.inr hthrown
    · refine Or.inl ?_
      simp only [tagStep, hinsert]
      rw [getElem?_insert_index, if_pos hkey, Option.isSome_some]

/-! ## Two runs on one file -/

/-- A run of two that registers a block somebody has registered is not the one that did. -/
theorem other_of_written {jobs : Bool → TagJob G1} {s : Configuration Bool (World κ) (TagRun G1)}
    {i j : Bool} (hloop : Loop lib w₀ (jobs i) (blockIndex :: rest) made)
    (hnodup : (jobs i).targetIndices.Nodup) (hrun : s.own i = .set metadata blockIndex rest made)
    (hj : ((s.own j).made[blockIndex - 1]?).isSome ∨ ∃ e, s.own j = .thrown e) : j = !i := by
  cases Bool.eq_or_eq_not j i with
  | inr hother => exact hother
  | inl hself =>
    subst hself
    rw [hrun] at hj
    rcases hj with hmade | ⟨e, he⟩
    · rw [show (TagRun.set metadata blockIndex rest made).made = made from rfl,
        hloop.made_head hnodup] at hmade
      cases hmade
    · cases he

/-- A step that keeps two runs sound was in time. -/
theorem inTime_of_sound_turn {jobs : Bool → TagJob G1}
    {s : Configuration Bool (World κ) (TagRun G1)} {i : Bool} (hs : TagInvariant lib w₀ jobs s)
    (hfile : ∀ i, (jobs i).fileId = fileId) (hnodup : ∀ i, (jobs i).targetIndices.Nodup)
    (h : Sound w₀ jobs s) (hwritten : Written w₀ fileId s)
    (h' : Sound w₀ jobs (turn (fun i => tagStep lib (jobs i)) s i).2) : InTime jobs s i := by
  have hpoint := hs.own i
  unfold InTime
  cases hrun : s.own i with
  | addFile =>
    apply Bool.eq_false_iff.mpr
    intro hhas
    obtain ⟨collection, hcollection⟩ := Option.isSome_iff_exists.mp hhas
    have hthrow : (turn (fun i => tagStep lib (jobs i)) s i).2.own i =
        .thrown (.fileExists (jobs i).fileId) := by
      rw [turn_own_self, hrun]
      simp only [tagStep, addFile, hcollection]
    exact firstStop_ne_fileExists _ (h'.thrown i _ hthrow)
  | set metadata blockIndex rest made =>
    rw [hrun] at hpoint
    obtain ⟨hhas, hloop, hpending⟩ := hpoint
    dsimp only
    cases hentry : s.shared.entry (jobs i).fileId (blockIndex - 1) with
    | none => exact Or.inl rfl
    | some r =>
      refine Or.inr ?_
      rw [hfile] at hentry hpending ⊢
      obtain ⟨j, hj⟩ := hwritten (blockIndex - 1) hpending.missing (by rw [hentry]; rfl)
      obtain rfl : j = !i := other_of_written hloop (hnodup i) hrun hj
      rcases hj with hmade | ⟨e, he⟩
      · -- the tag of the other run shows what the store held and now holds
        refine Or.inl ?_
        obtain ⟨⟨m, tag⟩, htag⟩ := Option.isSome_iff_exists.mp hmade
        have hold := h.current (!i) _ m tag htag
        have hkept : ((turn (fun i => tagStep lib (jobs i)) s i).2.own (!i)).made[blockIndex - 1]? =
            some (m, tag) := by
          rw [turn_own_of_ne (Bool.not_ne_self i)]
          exact htag
        have hnew := h'.current (!i) _ m tag hkept
        rw [turn_shared, hrun, hfile] at hnew
        rw [hfile] at hold
        rw [hold, ← hnew, ← hfile i]
        exact metadataAt_setMetadata_self hhas
      · refine Or.inr fun k hk => ⟨e, ?_⟩
        rw [Bool.eq_not_of_ne hk]
        exact he
  | _ => trivial

/-- Two runs stay sound along a whole schedule exactly when each of its steps is in time. -/
theorem sound_iff_along (ht : lib.TotalPoints) (hw : w.WellFormed) {jobs : Bool → TagJob G1}
    (hfile : ∀ i, (jobs i).fileId = fileId) (hnodup : ∀ i, (jobs i).targetIndices.Nodup)
    (schedule : List Bool) :
    (∀ k ≤ schedule.length, Sound w jobs
        (stateAfter (turn fun i => tagStep lib (jobs i)) (beginTags w) schedule k)) ↔
      Along (turn fun i => tagStep lib (jobs i)) (InTime jobs) (beginTags w) schedule := by
  have hunwritten : Written w fileId
      (beginTags w : Configuration Bool (World κ) (TagRun G1)) := by
    intro key hnone hsome
    obtain ⟨r, hr⟩ := Option.isSome_iff_exists.mp hsome
    rw [metadataAt, hr] at hnone
    cases hnone
  rw [forall_stateAfter_iff, and_iff_right .start]
  refine along_iff (P := fun s => TagInvariant lib w jobs s ∧ Written w fileId s ∧ Sound w jobs s)
    ?_ ?_ ⟨asserts_beginTags hw jobs, hunwritten, .start⟩
  · rintro s i ⟨hs, hwritten, _⟩ hsound
    exact ⟨(tagRuns_nonInterfering ht w jobs).turn hs i, hwritten.turn ht hs i, hsound⟩
  · rintro s i ⟨hs, hwritten, hsound⟩
    exact ⟨inTime_of_sound_turn hs hfile hnodup hsound hwritten, hsound.turn ht hs hnodup⟩

end Runs

/-! ## Two requests on one file -/

/-- The tags that a run holds were made over their metadata. -/
theorem TagPoint.computed (h : TagPoint lib w₀ job run w) {m : VersionedBlockMetadata}
    {tag : Tag G1} (htag : run.made[key]? = some (m, tag)) : TagOver lib job key m tag := by
  cases run with
  | getBlockMetadata blockIndex rest made => exact h.2.computed key m tag htag
  | getBlockMetadataCollection metadata blockIndex rest made => exact h.2.1.computed key m tag htag
  | set metadata blockIndex rest made => exact h.2.1.computed key m tag htag
  | returned made => exact h.computed key m tag htag
  | _ => cases ExtTreeMap.getElem?_empty.symm.trans htag

/-- A run throws only what its request throws when it runs alone, and every tag it has made is
computed over the version and timestamp that the store holds for the block. -/
structure RegistersSafely (lib : CoreLib G1 G2 GT) (w : World κ)
    (input : ι → GenerateTagsRequest G1 G2) (jobs : ι → TagJob G1)
    (s : Configuration ι (World κ) (TagRun G1)) : Prop where
  thrown : ∀ i e, s.own i = .thrown e → (w.generateTags lib (input i)).1 = .error e
  current : ∀ i (key : SizeT) m tag, (s.own i).made[key]? = some (m, tag) →
    TagOver lib (jobs i) key m tag ∧
      s.shared.metadataAt (jobs i).fileId key = some (.versioned m)

/-- For two requests on one file, any store and clock, and any schedule: they register safely in
every state they reach exactly when every registration happens in time. -/
theorem registersSafely_iff (ht : lib.TotalPoints) (hw : w.WellFormed)
    {input : Bool → GenerateTagsRequest G1 G2} {blocks : Bool → AuditBlockSource}
    {privateParams : Bool → DHTDynamicPrivateParams}
    {publicParams : Bool → DHTDynamicPublicParams G1 G2} {targetIndices : Bool → List SizeT}
    (h : ∀ i, Accepted (input i) fileId (blocks i) (privateParams i) (publicParams i)
      (targetIndices i)) (schedule : List Bool) :
    let jobs := fun i => tagJob fileId (blocks i) (privateParams i) (publicParams i)
      (targetIndices i)
    let step := turn fun i => tagStep lib (jobs i)
    (∀ k ≤ schedule.length,
        RegistersSafely lib w input jobs (stateAfter step (beginTags w) schedule k)) ↔
      Along step (InTime jobs) (beginTags w) schedule := by
  intro jobs step
  have hnodup : ∀ i, (jobs i).targetIndices.Nodup :=
    fun i => resolveTargetBlockIndices_nodup (h i).targets
  have hfile : ∀ i, (jobs i).fileId = fileId := fun _ => rfl
  refine Iff.trans (forall₂_congr fun k _ => ?_) (sound_iff_along ht hw hfile hnodup schedule)
  have hpoint := ((tagRuns_nonInterfering ht w jobs).interleave (asserts_beginTags hw jobs)
    (schedule.take k)).own
  constructor
  · intro hsafe
    exact ⟨fun i e hi => (generateTags_error_iff ht hw (h i) e).mp (hsafe.thrown i e hi),
      fun i key m tag hi => (hsafe.current i key m tag hi).2⟩
  · intro hsound
    exact ⟨fun i e hi => (generateTags_error_iff ht hw (h i) e).mpr (hsound.thrown i e hi),
      fun i key m tag hi => ⟨(hpoint i).computed hi, hsound.current i key m tag hi⟩⟩

/-- A second request that starts when the first has returned finds all that it asks for. -/
theorem registersSafely_iff_one_after_other :
    let lib := zmodLib fun input => input.length
    let job := tagJob [7] (fullFile [[1]]) unitPrivateParams unitPublicParams [1]
    let start : World Empty := empty defaultMetadataFactory (Stream'.cons 10 (Stream'.const 20))
    ∀ k ≤ 7, RegistersSafely lib start
      (fun _ => tagsRequest [7] unitPublicParams unitPrivateParams (fullFile [[1]]) none)
      (fun _ => job) (stateAfter (turn fun _ : Bool => tagStep lib job) (beginTags start)
        [true, true, true, true, true, false, false] k) := by
  have hempty : (empty defaultMetadataFactory (Stream'.cons 10 (Stream'.const 20)) :
    World Empty).WellFormed := .empty _ _
  have hresolve : resolveTargetBlockIndices none 0 1 = .ok [1] := rfl
  exact (registersSafely_iff (zmodLib_totalPoints fun input => input.length) hempty
    (fun _ : Bool => accepted_tagsRequest (by decide : ([7] : Bytes) ≠ []) unitPublicParams
      unitPrivateParams hresolve) [true, true, true, true, true, false, false]).mpr
    ⟨trivial, rfl, trivial, trivial, Or.inl rfl, trivial, trivial, trivial⟩

/-- Two requests for the one block of a file. When the file is new, the second `addFile` throws;
when it is registered, the first tag is over the second 10 and the store keeps the second 20. -/
theorem registration_lost :
    let lib := zmodLib fun input => input.length
    let job := tagJob [7] (fullFile [[1]]) unitPrivateParams unitPublicParams [1]
    let step := fun _ : Bool => tagStep (κ := Empty) lib job
    let start : World Empty := empty defaultMetadataFactory (Stream'.cons 10 (Stream'.const 20))
    let missing := interleave step (beginTags start) [true, false, true, false]
    let prepared := interleave step (beginTags (start.addFile [7]).2)
      [true, false, true, false, true, true, false, false]
    (missing.own false = .thrown (.fileExists [7]) ∧
      ∃ tags, (start.generateTags lib (tagRequest [7] [[1]] none)).1 = .ok (some tags)) ∧
    ∃ made made' tag, prepared.own true = .returned made ∧ prepared.own false = .returned made' ∧
      made[(0 : SizeT)]? = some (⟨1, 10⟩, tag) ∧
      prepared.shared.metadataAt [7] 0 = some (.versioned ⟨1, 20⟩) :=
  ⟨⟨rfl, _, rfl⟩, _, _, _, rfl, rfl, rfl, rfl⟩

end World

end DHTDynamic
