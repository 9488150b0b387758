import DHTDynamicAudit.Audit.ChallengeRuns
import DHTDynamicAudit.Audit.Completeness
import DHTDynamicAudit.Audit.ConcurrentUpdates
import DHTDynamicAudit.Core.Observer

/-!
# Challenges in flight

A challenge request reads the store block by block while others change it. It
finds the metadata object of a block at one moment and copies it at a later one,
when the object may have changed and the block may have got another. What it
returns is the challenge that `generateChallenges` returns on a store exactly when
that store shows all of it.
-/

namespace DHTDynamic

open Core

variable {G1 G2 GT κ ι L : Type} {lib : CoreLib G1 G2 GT} {job : ChallengeJob G1 G2}
  {publicParams : DHTDynamicPublicParams G1 G2}

namespace World

variable {w : World κ} {run : ChallengeRun G2}

/-! ## Among other programs -/

/-- What was drawn for a block count and read bare is returned by `generateChallenges` on the
stores of that count that show it. -/
theorem generateChallenges_iff_shows (hjob : job.Complete publicParams)
    {algorithm : SM9BLSAlgorithm G2} (halgorithm : job.algorithm_ = some algorithm)
    {draw : ChallengeDraw G2} {items attached : List ChallengeItem} {R : G2}
    (hdraw : drawChallenge lib job algorithm draw.blockCount = .next draw [] items)
    (hR : draw.RPtr = some R)
    (hbare : attached.map ChallengeItem.bare = items.map ChallengeItem.bare)
    (hne : attached ≠ []) (hcount : w.resolveBlockCount job.ext = .ok draw.blockCount) :
    w.generateChallenges lib job.runtime job.fuel job.algorithm_ (.typed job.ext) =
        some (.ok (some ⟨R, draw.r, attached, draw.blockCount⟩)) ↔
      ∀ item ∈ attached, w.ShowsItem job.ext.fileId item := by
  constructor
  · intro h item hitem
    exact ((generateChallenges_drawn hjob.params h hne).2.2 item hitem).2
  · intro hshows
    obtain ⟨item, hitem⟩ := List.exists_mem_of_ne_nil attached hne
    obtain ⟨r, hr, _⟩ := metadataAt_eq_some.mp (hshows item hitem)
    rw [generateChallenges_of_hasFile hjob (hasFile_of_entry hr) halgorithm, hcount]
    simp only [hdraw, finish_next, mapM_attachMetadata_of_shows hbare hshows, hR, deref_some,
      List.nil_append]
    rfl

section InFlight

variable [DecidableEq ι] {step : ι → L → World κ → L × World κ}

/-- A challenge that other programs may have interfered with: its block count is that of one
moment, and the objects of its items were found and copied at later ones, in turn. -/
structure ReadInTurn (step : ι → L → World κ → L × World κ) (s : Configuration ι (World κ) L)
    (ext : DHTDynamicChallengeRequestExt G1 G2) (turns : List ι)
    (challenges : DHTDynamicChallenges G2) (counted : List ι) (times : List (List ι × List ι)) :
    Prop where
  resolved : (interleave step s counted).shared.resolveBlockCount ext = .ok challenges.blockCount
  prefixes : (counted :: inTurn times ++ [turns]).Pairwise (· <+: ·)
  reads : List.Forall₂ (fun item time =>
    ReadsItem (interleave step s time.1).shared (interleave step s time.2).shared ext.fileId item)
    challenges.items times

/-- Each item was found at some moment and copied at a later one. -/
theorem ReadInTurn.exists_times {s : Configuration ι (World κ) L}
    {ext : DHTDynamicChallengeRequestExt G1 G2} {turns : List ι}
    {challenges : DHTDynamicChallenges G2} {counted : List ι} {times : List (List ι × List ι)}
    (h : ReadInTurn step s ext turns challenges counted times) {item : ChallengeItem}
    (hitem : item ∈ challenges.items) :
    ∃ found copied, found <+: copied ∧ copied <+: turns ∧
      ReadsItem (interleave step s found).shared (interleave step s copied).shared ext.fileId
        item := by
  obtain ⟨⟨i, hi⟩, rfl⟩ := List.mem_iff_get.mp hitem
  have hlt : i < times.length := h.reads.length_eq ▸ hi
  have hpair := sublist_inTurn (times.get_mem ⟨i, hlt⟩)
  obtain ⟨hbefore, _, hlast⟩ := List.pairwise_append.mp h.prefixes
  refine ⟨_, _, List.pairwise_pair.mp (hbefore.of_cons.sublist hpair), ?_, h.reads.get hi hlt⟩
  exact hlast _ (List.mem_cons_of_mem counted (hpair.subset (List.mem_cons_of_mem _
    (List.mem_singleton_self _)))) turns (List.mem_singleton_self turns)

/-- The exceptions of a moment: the store has lost the file, or a block it had counted before,
or the object that was found for the block is of another class now. -/
def LostAt (step : ι → L → World κ → L × World κ) (s : Configuration ι (World κ) L)
    (ext : DHTDynamicChallengeRequestExt G1 G2) (e : Exception) (time : List ι) : Prop :=
  (interleave step s time).shared.getBlockCount ext.fileId = .error e ∨
    ∃ counted found blockCount item, counted <+: found ∧ found <+: time ∧
      (interleave step s counted).shared.resolveBlockCount ext = .ok blockCount ∧
      1 ≤ item.blockIndex ∧ item.blockIndex ≤ blockCount ∧
      readItem (interleave step s found).shared (interleave step s time).shared ext.fileId item =
        .error e

variable {s : Configuration ι (World κ) L} {schedule : List (Option ι)}

/-- The point of a challenge request comes from the stores at its turns. -/
theorem observe_cases (hjob : job.Complete publicParams)
    (hrun : (observe step (challengeStep lib job) s (.start (.typed job.ext)) schedule).2 = run) :
    let stores := (moments schedule).map fun time => (interleave step s time).shared
    EndsUnread job.ext.fileId stores run ∨ ReadsDrawn lib job stores run := by
  rw [← hrun, observe_point, hjob.start]
  exact foldl_hasFile lib job _

/-- A returned challenge has been read in turn, and tells which stores it is the challenge of. -/
theorem observe_returned (hjob : job.Complete publicParams)
    {challenges : DHTDynamicChallenges G2}
    (hrun : (observe step (challengeStep lib job) s (.start (.typed job.ext)) schedule).2 =
      .returned (some challenges)) (hne : challenges.items ≠ []) :
    (∃ counted times, ReadInTurn step s job.ext schedule.reduceOption challenges counted times) ∧
      ∀ w : World κ, w.resolveBlockCount job.ext = .ok challenges.blockCount →
        (w.generateChallenges lib job.runtime job.fuel job.algorithm_ (.typed job.ext) =
          some (.ok (some challenges)) ↔
          ∀ item ∈ challenges.items, w.ShowsItem job.ext.fileId item) := by
  rcases observe_cases hjob hrun with
    (hno | hno | ⟨_, hitems, hempty⟩ | ⟨e, hno, _⟩) | ⟨seen, w, later, algorithm, blockCount, r,
      items, hstores, hcount, halgorithm, hdraw, hrange, hreads⟩
  · cases hno
  · cases hno
  · obtain rfl := Option.some.inj (ChallengeRun.returned.inj hempty)
    exact absurd hitems hne
  · cases hno
  obtain ⟨attached, reads, unread, R, rfl, hitems, hbare, hR, rfl⟩ :=
    foldl_next_returned hreads.symm
  refine ⟨?_, fun w hcount => generateChallenges_iff_shows hjob halgorithm hdraw hR hbare hne
    hcount⟩
  -- the moments of the count and of the reads
  obtain ⟨before, rest, hall, -, hrest⟩ := List.map_eq_append_iff.mp hstores
  obtain ⟨counted, rest, rfl, rfl, hlater⟩ := List.map_eq_cons_iff.mp hrest
  obtain ⟨times, unread, rfl, rfl⟩ := exists_inTurn_of_map hlater
  have hsublist : (counted :: inTurn times).Sublist (moments schedule) := by
    rw [hall]
    exact ((List.sublist_append_left _ unread).cons_cons counted).trans
      (List.sublist_append_right before _)
  refine ⟨counted, times, hcount, ?_, List.forall₂_map_right_iff.mp hitems⟩
  refine List.pairwise_append.mpr ⟨(moments_pairwise schedule).sublist hsublist,
    List.pairwise_singleton _ _, fun time htime last hlast => ?_⟩
  obtain rfl := List.mem_singleton.mp hlast
  exact prefix_of_mem_moments time (hsublist.subset htime)

/-- A throw is the call's own, or that of a store that has lost something. -/
theorem observe_thrown (hjob : job.Complete publicParams) {e : Exception}
    (hrun : (observe step (challengeStep lib job) s (.start (.typed job.ext)) schedule).2 =
      .thrown e) :
    e ∈ ownExceptions ∨
      ∃ time, time <+: schedule.reduceOption ∧ LostAt step s job.ext e time := by
  rcases observe_cases hjob hrun with
    (hno | hno | ⟨_, _, hno⟩ | ⟨e, he, hown | ⟨w, hw, hlost⟩⟩) | ⟨seen, w, later, algorithm,
      blockCount, r, items, hstores, hcount, halgorithm, hdraw, hrange, hreads⟩
  · cases hno
  · cases hno
  · cases hno
  · obtain rfl := ChallengeRun.thrown.inj he
    exact Or.inl hown
  · obtain rfl := ChallengeRun.thrown.inj he
    obtain ⟨time, htime, rfl⟩ := List.mem_map.mp hw
    exact Or.inr ⟨time, prefix_of_mem_moments time htime, Or.inl hlost⟩
  rcases foldl_next_thrown hreads.symm with rfl | ⟨item, hitem, read, found, unread, rfl, copied,
    hcopied, he⟩
  · exact Or.inl (by decide)
  -- the moments of the count, of the lookup and of the copy
  obtain ⟨before, rest, hall, -, hrest⟩ := List.map_eq_append_iff.mp hstores
  obtain ⟨counted, later, rfl, rfl, hlater⟩ := List.map_eq_cons_iff.mp hrest
  obtain ⟨times, rest, rfl, -, hrest⟩ := List.map_eq_append_iff.mp hlater
  obtain ⟨found, unread, rfl, rfl, rfl⟩ := List.map_eq_cons_iff.mp hrest
  obtain ⟨time, htime, rfl⟩ : ∃ time ∈ found :: unread, (interleave step s time).shared = copied :=
    List.mem_map.mp hcopied
  have hpairwise := moments_pairwise schedule
  rw [hall] at hpairwise
  have hcounted := (List.pairwise_append.mp hpairwise).2.1
  have hfound := (List.pairwise_append.mp hcounted.of_cons).2.1
  have hlast : time ∈ moments schedule := by
    rw [hall]
    exact List.mem_append_right before
      (List.mem_cons_of_mem counted (List.mem_append_right times htime))
  have hle : found <+: time := by
    rcases List.mem_cons.mp htime with rfl | htime
    · exact List.prefix_rfl
    · exact List.rel_of_pairwise_cons hfound htime
  refine Or.inr ⟨time, prefix_of_mem_moments time hlast, Or.inr ⟨counted, found, blockCount, item,
    ?_, hle, hcount, (hrange item hitem).1, (hrange item hitem).2, he⟩⟩
  exact List.rel_of_pairwise_cons hcounted (List.mem_append_right times List.mem_cons_self)

/-- A challenge request among any programs that share the store, along any schedule. They run as
without it, and turns in a row make one `generateChallenges`. A challenge it returns has for each
block the metadata, at one moment, of the object that stood at its place at an earlier one; it is
the one that `generateChallenges` returns on a store of that block count if and only if that store
shows all of it. The store makes it throw only where it has lost the file or a block, or the
object of a block is no longer versioned. -/
theorem challenge_in_flight (lib : CoreLib G1 G2 GT) (step : ι → L → World κ → L × World κ)
    (s : Configuration ι (World κ) L) (job : ChallengeJob G1 G2)
    (publicParams : DHTDynamicPublicParams G1 G2) (hjob : job.Complete publicParams)
    (schedule : List (Option ι)) :
    let generate := fun w : World κ =>
      w.generateChallenges lib job.runtime job.fuel job.algorithm_ (.typed job.ext)
    let start : ChallengeRun G2 := .start (.typed job.ext)
    let observed := observe step (challengeStep lib job) s start
    let after := observed schedule
    let turns := schedule.reduceOption
    after.1 = interleave step s turns ∧
      (∃ n, (observed (List.replicate n none)).2.outcome = some (generate s.shared)) ∧
      (∀ challenges, after.2 = .returned (some challenges) → challenges.items ≠ [] →
        (∃ counted times, ReadInTurn step s job.ext turns challenges counted times) ∧
        ∀ w : World κ, w.resolveBlockCount job.ext = .ok challenges.blockCount →
          (generate w = some (.ok (some challenges)) ↔
            ∀ item ∈ challenges.items, w.ShowsItem job.ext.fileId item)) ∧
      ∀ e, after.2 = .thrown e → e ∈ ownExceptions ∨
        ∃ time, time <+: turns ∧ LostAt step s job.ext e time := by
  intro generate start observed after turns
  refine ⟨observe_programs s start schedule, ?_, fun challenges hreturned hne =>
    observe_returned hjob hreturned hne, fun e hthrown => observe_thrown hjob hthrown⟩
  obtain ⟨n, hn⟩ := outcome_generateChallenges lib hjob s.shared
  refine ⟨n, ?_⟩
  rw [← hn, ← hjob.start]
  exact congrArg ChallengeRun.outcome
    (observe_replicate_none step (challengeStep lib job) s start n)

end InFlight

/-- A request for a challenge of two blocks, the ones that the script picks. -/
def pairJob (script : List SizeT) : ChallengeJob (ZMod 5) (ZMod 5) where
  runtime := .scripted script
  fuel := 3
  algorithm_ := some unitAlgorithm
  ext := challengeRequest [7] 2
  y := 1

theorem pairJob_complete (script : List SizeT) : (pairJob script).Complete unitPublicParams where
  file := List.cons_ne_nil _ _
  params := rfl
  store := rfl
  commitment := rfl

/-- A file of three blocks. -/
def threeBlocks : World Empty :=
  ((empty defaultMetadataFactory (Stream'.const 0)).addFileWithBlocks [7] 3).2

/-- A Delete of the first block, and an Update of the second one. -/
def deleteAndUpdate (i : Bool) : DHTDynamicMaintainExt :=
  cond i (maintainRequest .Update 2) (maintainRequest .Delete 1)

/-- The second block is read before both. The object of the third one is looked up before and
copied after them, when it is the object of the second one. -/
def changesBeforeCopy : List (Option Bool) :=
  [none, none, none, none, none, some false, some false, some true, some true, some true, none]

/-- What is returned of the third block is shown at no moment. -/
theorem challenge_in_flight_displaced :
    let step := fun i => maintenanceStep (κ := Empty) (deleteAndUpdate i)
    let begin : Configuration Bool (World Empty) MaintenanceRun :=
      ⟨threeBlocks, fun i => .start ⟨.typed (deleteAndUpdate i)⟩⟩
    let after := observe step (challengeStep (zmodLib fun input => input.length) (pairJob [3, 2]))
      begin (.start (.typed (pairJob [3, 2]).ext)) changesBeforeCopy
    ∃ challenges, after.2 = .returned (some challenges) ∧
      challenges.items.map (fun item => (item.blockIndex, item.metadata.version)) =
        [(2, 1), (3, 2)] ∧
      (∃ counted times, ReadInTurn step begin (pairJob [3, 2]).ext changesBeforeCopy.reduceOption
        challenges counted times) ∧
      ∀ time ∈ changesBeforeCopy.reduceOption.inits, ∀ item ∈ challenges.items,
        item.blockIndex = 3 → ¬ (interleave step begin time).shared.ShowsItem [7] item := by
  obtain ⟨_, _, hreturned, _⟩ := challenge_in_flight (zmodLib fun input => input.length)
    (fun i => maintenanceStep (deleteAndUpdate i))
    ⟨threeBlocks, fun i => .start ⟨.typed (deleteAndUpdate i)⟩⟩ (pairJob [3, 2]) unitPublicParams
    (pairJob_complete [3, 2]) changesBeforeCopy
  obtain ⟨hread, _⟩ := hreturned _ rfl (by decide)
  exact ⟨_, rfl, by decide, hread, by decide⟩

/-! ## Among Update requests -/

section Updates

variable [MetadataClass κ] [Fintype ι] [DecidableEq ι] {w₀ : World κ} {fileId : Bytes}
  {exts : ι → DHTDynamicMaintainExt} {b : SizeT} {r : Ref}

/-- How often the requests have still to bump a block. -/
def bumpsAhead (exts : ι → DHTDynamicMaintainExt) (b : SizeT)
    (s : Configuration ι (World κ) UpdateRun) : Nat :=
  ∑ i, ((s.own i).ahead (exts i)).count b

/-- A step that bumps a block has less of it ahead. -/
theorem updateStep_count {listed : Set SizeT} {ext : DHTDynamicMaintainExt} {run : UpdateRun}
    (hwf : w₀.WellFormed) (hrequest : w₀.UpdateRequest fileId ext) (hversioned : w₀.Versioned)
    (hw : w₀.OnlyBumped fileId listed w) (h : UpdatePoint ext run)
    (hr : w₀.entry fileId (b - 1) = some r) :
    ((updateStep ext run w).1.ahead ext).count b ≤ (run.ahead ext).count b ∧
      (((updateStep ext run w).1.ahead ext).count b = (run.ahead ext).count b →
        (updateStep ext run w).2.heap r = w.heap r) := by
  rcases updateStep_cases hrequest hversioned hw h with
    ⟨run', hahead, _, hout | hout⟩ | ⟨blockIndex, rest, q, hahead, hq, hout⟩
  · rw [hout, hahead]
    exact ⟨le_rfl, fun _ => rfl⟩
  · rw [hout, hahead]
    exact ⟨le_rfl, fun _ => rfl⟩
  rw [hout, hahead, UpdateRun.ahead_next]
  by_cases hb : blockIndex = b
  · subst hb
    rw [List.count_cons_self]
    exact ⟨Nat.le_succ _, fun heq => absurd heq (Nat.lt_succ_self _).ne⟩
  · rw [List.count_cons_of_ne hb]
    refine ⟨le_rfl, fun _ => ?_⟩
    rw [heap_bumpObject, Function.update_of_ne]
    rintro rfl
    exact hb (sub_left_inj.mp (hwf.unshared _ _ _ _ r hq hr).2)

/-- Along a schedule the bumps ahead of a block become fewer, or its metadata stays. -/
theorem bumpsAhead_interleave (hwf : w₀.WellFormed)
    (hrequest : ∀ i, w₀.UpdateRequest fileId (exts i)) (hversioned : w₀.Versioned)
    (hr : w₀.entry fileId (b - 1) = some r) {s : Configuration ι (World κ) UpdateRun}
    (hs : Asserts (w₀.OnlyBumped fileId (listedIndices exts))
      (fun i run _ => UpdatePoint (exts i) run) (fun _ _ => True) s) (turns : List ι) :
    let t := interleave (fun i => updateStep (exts i)) s turns
    bumpsAhead exts b t ≤ bumpsAhead exts b s ∧
      (bumpsAhead exts b t = bumpsAhead exts b s → t.shared.heap r = s.shared.heap r) := by
  induction turns generalizing s with
  | nil => exact ⟨le_rfl, fun _ => rfl⟩
  | cons i turns ih =>
    let next := (turn (fun i => updateStep (exts i)) s i).2
    obtain ⟨hle, hsame⟩ := ih ((updateRuns_nonInterfering hrequest hversioned).turn hs i)
    obtain ⟨hcount, hheap⟩ :=
      updateStep_count hwf (hrequest i) hversioned hs.shared (hs.own i) hr
    have hown : ∀ j ∈ Finset.univ, ((next.own j).ahead (exts j)).count b ≤
        ((s.own j).ahead (exts j)).count b := by
      intro j _
      by_cases hj : j = i
      · subst hj
        rw [turn_own_self]
        exact hcount
      · rw [turn_own_of_ne hj]
    have hnext : bumpsAhead exts b next ≤ bumpsAhead exts b s := Finset.sum_le_sum hown
    refine ⟨hle.trans hnext, fun heq => ?_⟩
    have hfirst : bumpsAhead exts b next = bumpsAhead exts b s :=
      le_antisymm hnext (heq ▸ hle)
    have hself := (Finset.sum_eq_sum_iff_of_le hown).mp hfirst i (Finset.mem_univ i)
    rw [turn_own_self] at hself
    exact (hsame (heq.trans hfirst.symm)).trans (hheap hself)

omit [MetadataClass κ] [DecidableEq ι] in
theorem bumpsAhead_beginUpdates (hrequest : ∀ i, w₀.UpdateRequest fileId (exts i)) (b : SizeT) :
    bumpsAhead exts b (beginUpdates w₀ exts) = ∑ i, (exts i).blockIndices.count b := by
  refine Finset.sum_congr rfl fun i _ => ?_
  dsimp only
  rw [(hrequest i).start]
  rfl

/-- The requests after these turns, and the store. -/
abbrev updatesAfter (w : World κ) (exts : ι → DHTDynamicMaintainExt) (turns : List ι) :
    Configuration ι (World κ) UpdateRun :=
  interleave (fun i => updateStep (exts i)) (beginUpdates w exts) turns

abbrev afterTurns (w : World κ) (exts : ι → DHTDynamicMaintainExt) (turns : List ι) : World κ :=
  (updatesAfter w exts turns).shared

/-- Version and bumps ahead of a block make the same sum at every moment. -/
theorem version_afterTurns (hwf : w₀.WellFormed)
    (hrequest : ∀ i, w₀.UpdateRequest fileId (exts i)) (hversioned : w₀.Versioned)
    (hr : w₀.entry fileId (b - 1) = some r) (turns : List ι) :
    ((afterTurns w₀ exts turns).heap r).version +
        UInt64.ofNat (bumpsAhead exts b (updatesAfter w₀ exts turns)) =
      (w₀.heap r).version + UInt64.ofNat (∑ i, (exts i).blockIndices.count b) :=
  version_interleave hwf hrequest hversioned turns hr

theorem bumpsAhead_le (hwf : w₀.WellFormed) (hrequest : ∀ i, w₀.UpdateRequest fileId (exts i))
    (hversioned : w₀.Versioned) (hr : w₀.entry fileId (b - 1) = some r) (turns : List ι) :
    bumpsAhead exts b (updatesAfter w₀ exts turns) ≤ ∑ i, (exts i).blockIndices.count b := by
  rw [← bumpsAhead_beginUpdates hrequest b]
  exact (bumpsAhead_interleave hwf hrequest hversioned hr (asserts_beginUpdates hrequest) turns).1

omit [Fintype ι] in
/-- The places of the blocks stay, so what is copied of an object is what the store shows. -/
theorem ReadsItem.shows_afterTurns (hrequest : ∀ i, w₀.UpdateRequest fileId (exts i))
    (hversioned : w₀.Versioned) {found copied : List ι} {item : ChallengeItem}
    (h : ReadsItem (afterTurns w₀ exts found) (afterTurns w₀ exts copied) fileId item) :
    (afterTurns w₀ exts copied).ShowsItem fileId item := by
  obtain ⟨hfound, _, _⟩ := interleave_onlyBumped hrequest hversioned found
  obtain ⟨hcopied, _, _⟩ := interleave_onlyBumped hrequest hversioned copied
  exact h.shows ((hcopied.entry _ _).trans (hfound.entry _ _).symm)

/-- Metadata that is shown at one moment has been bumped as often as requests had named it. -/
theorem ShowsItem.bumps (hwf : w₀.WellFormed)
    (hrequest : ∀ i, w₀.UpdateRequest fileId (exts i)) (hversioned : w₀.Versioned)
    {time : List ι} {item : ChallengeItem}
    (hshows : (afterTurns w₀ exts time).ShowsItem fileId item) :
    ∃ bumps ≤ ∑ i, (exts i).blockIndices.count item.blockIndex,
      (w₀.versionAt fileId (item.blockIndex - 1)).map (· + UInt64.ofNat bumps) =
        some item.metadata.version := by
  obtain ⟨hbumped, _, _⟩ := interleave_onlyBumped hrequest hversioned time
  obtain ⟨r, hr, hheap⟩ := metadataAt_eq_some.mp hshows
  rw [hbumped.entry] at hr
  obtain ⟨m, hm⟩ := hversioned fileId _ (w₀.heap r) (metadataAt_eq_some.mpr ⟨r, hr, rfl⟩)
  have hle := bumpsAhead_le hwf hrequest hversioned hr time
  have hsum := version_afterTurns hwf hrequest hversioned hr time
  rw [hheap, hm] at hsum
  obtain ⟨bumps, hbumps⟩ := Nat.exists_eq_add_of_le hle
  refine ⟨bumps, hbumps ▸ Nat.le_add_left _ _, ?_⟩
  have hversion : w₀.versionAt fileId (item.blockIndex - 1) = some m.version := by
    rw [versionAt, metadataAt, hr, Option.map_some, hm]
    rfl
  rw [hversion, Option.map_some]
  rw [hbumps, UInt64.ofNat_add, add_comm (UInt64.ofNat _), ← add_assoc] at hsum
  exact congrArg some (add_right_cancel hsum).symm

/-- With fewer namings than versions, a version that is still current is that of metadata that
is still there. -/
theorem ShowsItem.current_iff (hwf : w₀.WellFormed)
    (hrequest : ∀ i, w₀.UpdateRequest fileId (exts i)) (hversioned : w₀.Versioned)
    {time turns : List ι} (htime : time <+: turns) {item : ChallengeItem}
    (hfew : ∑ i, (exts i).blockIndices.count item.blockIndex < 2 ^ 64)
    (hshows : (afterTurns w₀ exts time).ShowsItem fileId item) :
    (afterTurns w₀ exts turns).ShowsItem fileId item ↔
      (afterTurns w₀ exts turns).versionAt fileId (item.blockIndex - 1) =
        some item.metadata.version := by
  constructor
  · intro h
    rw [versionAt, h]
    rfl
  intro hcurrent
  have hasserts := interleave_onlyBumped hrequest hversioned time
  obtain ⟨r, hr, hheap⟩ := metadataAt_eq_some.mp hshows
  rw [hasserts.shared.entry] at hr
  obtain ⟨rest, rfl⟩ := htime
  have hentry := (interleave_onlyBumped hrequest hversioned (time ++ rest)).shared.entry fileId
    (item.blockIndex - 1)
  rw [hr] at hentry
  obtain ⟨hfewer, hsame⟩ := bumpsAhead_interleave hwf hrequest hversioned hr hasserts rest
  rw [← interleave_append] at hfewer hsame
  -- equal versions are equally far from the end
  have hversion : ((afterTurns w₀ exts (time ++ rest)).heap r).version =
      item.metadata.version := by
    rw [versionAt, metadataAt, hentry, Option.map_some, Option.bind_some] at hcurrent
    obtain ⟨m, hm⟩ := hversioned fileId _ (w₀.heap r) (metadataAt_eq_some.mpr ⟨r, hr, rfl⟩)
    obtain ⟨m', hm'⟩ :=
      (interleave_onlyBumped hrequest hversioned (time ++ rest)).shared.versioned r m hm
    rw [hm'] at hcurrent ⊢
    exact Option.some.inj hcurrent
  have hbefore := version_afterTurns hwf hrequest hversioned hr time
  have hafter := version_afterTurns hwf hrequest hversioned hr (time ++ rest)
  rw [hheap] at hbefore
  rw [hversion, ← hbefore] at hafter
  have hbound := bumpsAhead_le hwf hrequest hversioned hr time
  have hequal := congrArg UInt64.toNat (add_left_cancel hafter)
  rw [toNat_ofNat_lt (hfewer.trans hbound |>.trans_lt hfew),
    toNat_ofNat_lt (hbound.trans_lt hfew)] at hequal
  exact metadataAt_eq_some.mpr ⟨r, hentry, (hsame hequal).trans hheap⟩

omit [Fintype ι] in
/-- Update requests do not change what blocks a challenge draws from. -/
theorem resolveBlockCount_afterTurns (hrequest : ∀ i, w₀.UpdateRequest fileId (exts i))
    (hversioned : w₀.Versioned) (ext : DHTDynamicChallengeRequestExt G1 G2) (turns : List ι) :
    (afterTurns w₀ exts turns).resolveBlockCount ext = w₀.resolveBlockCount ext := by
  obtain ⟨hbumped, _, _⟩ := interleave_onlyBumped hrequest hversioned turns
  rw [resolveBlockCount, resolveBlockCount, getBlockCount, getBlockCount, hbumped.files]

omit [Fintype ι] in
/-- Update requests lose neither the file nor a registered block nor the class of an object. -/
theorem not_lostAt (hrequest : ∀ i, w₀.UpdateRequest fileId (exts i)) (hversioned : w₀.Versioned)
    {ext : DHTDynamicChallengeRequestExt G1 G2} (hfile : ext.fileId = fileId)
    {blockCount : SizeT} (hcount : w₀.resolveBlockCount ext = .ok blockCount)
    (hz : blockCount ≠ 0) (hregistered : ∀ i, 1 ≤ i → i ≤ blockCount → w₀.Registered fileId i)
    (e : Exception) (time : List ι) :
    ¬ LostAt (fun i => updateStep (exts i)) (beginUpdates w₀ exts) ext e time := by
  subst hfile
  have hresolve := resolveBlockCount_afterTurns hrequest hversioned ext
  obtain ⟨hbumped, _, _⟩ := interleave_onlyBumped hrequest hversioned time
  rintro (hlost | ⟨counted, found, blockCount', item, -, -, hcount', hpos, hle, hread⟩)
  · obtain ⟨r, hr⟩ := Option.isSome_iff_exists.mp
      (registered_iff.mp (hregistered 1 (UInt64.le_refl 1) (one_le_iff.mpr hz)))
    obtain ⟨collection, hcollection, _⟩ := exists_collection_of_entry hr
    simp only [getBlockCount, hbumped.files, hcollection] at hlost
    cases hlost
  · obtain rfl := Except.ok.inj (hcount.symm.trans ((hresolve counted).symm.trans hcount'))
    obtain ⟨r, hr⟩ := Option.isSome_iff_exists.mp
      (registered_iff.mp (hregistered item.blockIndex hpos hle))
    obtain ⟨m, hm⟩ := hversioned _ _ (w₀.heap r) (metadataAt_eq_some.mpr ⟨r, hr, rfl⟩)
    obtain ⟨m', hm'⟩ := hbumped.versioned r m hm
    obtain ⟨hfound, _, _⟩ := interleave_onlyBumped hrequest hversioned found
    cases hread.symm.trans (readItem_ok_iff.mpr ⟨r, (hfound.entry _ _).trans hr, m', hm', rfl⟩)

/-- A challenge request for registered blocks of a file among any number of Update requests on it,
along any schedule. The updates add up as without it, and they do not make it throw. The version
it shows of a block is one the block has had: that of the start with some of the bumps. It is the
challenge of the current store if and only if all its versions are current. -/
theorem challenge_among_updates (hreached : Reached lib w) (hversioned : w.Versioned)
    (hrequest : ∀ i, w.UpdateRequest fileId (exts i))
    (hfew : ∀ b, ∑ i, (exts i).blockIndices.count b < 2 ^ 64) (job : ChallengeJob G1 G2)
    (hjob : job.Complete publicParams) (hfile : job.ext.fileId = fileId) (blockCount : SizeT)
    (hcount : w.resolveBlockCount job.ext = .ok blockCount) (hz : blockCount ≠ 0)
    (hregistered : ∀ i, 1 ≤ i → i ≤ blockCount → w.Registered fileId i)
    (schedule : List (Option ι)) :
    let after := observe (fun i => updateStep (exts i)) (challengeStep lib job)
      (beginUpdates w exts) (.start (.typed job.ext)) schedule
    let store := after.1.shared
    UpdatesAddUp w fileId exts after.1 ∧
      (∀ e, after.2 = .thrown e → e ∈ ownExceptions) ∧
      ∀ challenges, after.2 = .returned (some challenges) → challenges.items ≠ [] →
        (∀ item ∈ challenges.items,
          ∃ bumps ≤ ∑ i, (exts i).blockIndices.count item.blockIndex,
            (w.versionAt fileId (item.blockIndex - 1)).map (· + UInt64.ofNat bumps) =
              some item.metadata.version) ∧
        (store.generateChallenges lib job.runtime job.fuel job.algorithm_ (.typed job.ext) =
            some (.ok (some challenges)) ↔
          ∀ item ∈ challenges.items, store.versionAt fileId (item.blockIndex - 1) =
            some item.metadata.version) := by
  intro after store
  have hwf := hreached.wellFormed
  have hprograms : after.1 = updatesAfter w exts schedule.reduceOption :=
    observe_programs _ _ schedule
  refine ⟨hprograms ▸ updatesAddUp hwf hversioned hrequest _, fun e hthrown => ?_,
    fun challenges hreturned hne => ?_⟩
  · apply (observe_thrown hjob hthrown).resolve_right
    rintro ⟨time, _, hlost⟩
    exact not_lostAt hrequest hversioned hfile hcount hz hregistered e time hlost
  obtain ⟨⟨counted, times, hread⟩, hsnapshot⟩ := observe_returned hjob hreturned hne
  subst hfile
  have hstore : store = afterTurns w exts schedule.reduceOption :=
    congrArg Configuration.shared hprograms
  have hcounted : store.resolveBlockCount job.ext = .ok challenges.blockCount := by
    rw [hstore, resolveBlockCount_afterTurns hrequest hversioned, ← hread.resolved]
    exact (resolveBlockCount_afterTurns hrequest hversioned job.ext counted).symm
  refine ⟨fun item hitem => ?_,
    (hsnapshot store hcounted).trans (forall₂_congr fun item hitem => ?_)⟩
  · obtain ⟨found, copied, _, _, hreads⟩ := hread.exists_times hitem
    exact ShowsItem.bumps hwf hrequest hversioned (hreads.shows_afterTurns hrequest hversioned)
  · obtain ⟨found, copied, _, hcopied, hreads⟩ := hread.exists_times hitem
    rw [hstore]
    exact ShowsItem.current_iff hwf hrequest hversioned hcopied (hfew _)
      (hreads.shows_afterTurns hrequest hversioned)

end Updates

/-- A file of two blocks. -/
def twoBlocks : World Empty :=
  ((empty defaultMetadataFactory (Stream'.const 0)).addFileWithBlocks [7] 2).2

/-- A request to update both. -/
def bothBlocksUpdate : Unit → DHTDynamicMaintainExt := fun _ =>
  ⟨[7], .Update, [1, 2], true, by decide⟩

/-- The second block is read before an Update of both blocks. The first one is looked up before
it and copied after it. -/
def updateBetweenReads : List (Option Unit) :=
  [none, none, none, none, none, some (), some (), some (), some (), some (), none]

/-- The version of the block that was read before the Update is not current. -/
theorem challenge_among_updates_mixed :
    let lib := zmodLib fun input => input.length
    let after := observe (fun i => updateStep (bothBlocksUpdate i))
      (challengeStep lib (pairJob [1, 2])) (beginUpdates twoBlocks bothBlocksUpdate)
      (.start (.typed (pairJob [1, 2]).ext)) updateBetweenReads
    UpdatesAddUp twoBlocks [7] bothBlocksUpdate after.1 ∧
      ∃ challenges, after.2 = .returned (some challenges) ∧
        after.1.shared.generateChallenges lib (.scripted [1, 2]) 3 (some unitAlgorithm)
          (.typed (challengeRequest [7] 2)) ≠ some (.ok (some challenges)) := by
  intro lib after
  have hreached : Reached lib twoBlocks := (Reached.empty _ _).addFileWithBlocks [7] 2
  have hversioned : twoBlocks.Versioned := by
    rintro g key (v | m) _
    · exact ⟨v, rfl⟩
    · exact nomatch m
  have hfirst : twoBlocks.Registered [7] 1 := ⟨0, rfl⟩
  have hsecond : twoBlocks.Registered [7] 2 := ⟨1, rfl⟩
  have hrequest : ∀ i, twoBlocks.UpdateRequest [7] (bothBlocksUpdate i) := fun _ =>
    ⟨rfl, List.cons_ne_nil _ _, rfl, rfl, List.cons_ne_nil _ _,
      List.forall_mem_cons.mpr ⟨hfirst, List.forall_mem_singleton.mpr hsecond⟩⟩
  have hregistered : ∀ i : SizeT, 1 ≤ i → i ≤ 2 → twoBlocks.Registered [7] i := by
    refine forall_index fun k : Fin 2 => ?_
    match k with
    | 0 => exact hfirst
    | 1 => exact hsecond
  have hfew : ∀ b, ∑ i, (bothBlocksUpdate i).blockIndices.count b < 2 ^ 64 := by
    intro b
    rw [Fintype.sum_unique]
    exact Nat.lt_of_le_of_lt List.count_le_length (by decide)
  obtain ⟨hadd, _, hreturned⟩ := challenge_among_updates hreached hversioned hrequest hfew
    (pairJob [1, 2]) (pairJob_complete [1, 2]) rfl 2 rfl (by decide) hregistered updateBetweenReads
  refine ⟨hadd, _, rfl, fun h => ?_⟩
  have hcurrent := (hreturned _ rfl (by decide)).2.mp h _ List.mem_cons_self
  exact absurd hcurrent (by decide)

end World

end DHTDynamic
