import DHTDynamicAudit.Audit.Drawing
import DHTDynamicAudit.Core.Observer
import DHTDynamicAudit.Strategy.ChallengeSteps

/-!
# Runs of a challenge request

A challenge request that finds the same store at all its turns comes to what
`generateChallenges` returns there. Where it finds other stores, what it has come
to is decided by the stores it has seen.
-/

namespace DHTDynamic

open Core

variable {G1 G2 GT κ : Type} {lib : CoreLib G1 G2 GT}

/-- The requests that a challenge without missing input makes. -/
structure ChallengeJob.Complete (job : ChallengeJob G1 G2)
    (publicParams : DHTDynamicPublicParams G1 G2) : Prop where
  file : job.ext.fileId ≠ []
  params : job.ext.userPublicParams = some publicParams
  store : job.ext.stateStore = true
  commitment : job.y = publicParams.y

/-- An item without its metadata. -/
def ChallengeItem.bare (item : ChallengeItem) : ChallengeItem := { item with metadata := {} }

variable {job : ChallengeJob G1 G2} {publicParams : DHTDynamicPublicParams G1 G2}

theorem ChallengeJob.Complete.start (h : job.Complete publicParams) :
    ChallengeRun.start (.typed job.ext) = (.hasFile : ChallengeRun G2) := by
  simp only [ChallengeRun.start, BasePtr.cast, List.isEmpty_iff, h.file, h.params, h.store,
    if_false, Bool.not_true, Bool.false_eq_true]

namespace World

variable {w : World κ} {run : ChallengeRun G2}

/-- The store holds the metadata of a challenged block. -/
def ShowsItem (w : World κ) (fileId : Bytes) (item : ChallengeItem) : Prop :=
  w.metadataAt fileId (item.blockIndex - 1) = some (.versioned item.metadata)

instance [DecidableEq κ] (w : World κ) (fileId : Bytes) (item : ChallengeItem) :
    Decidable (w.ShowsItem fileId item) :=
  inferInstanceAs (Decidable (w.metadataAt fileId (item.blockIndex - 1) = _))

/-- What the two turns for an item make of it: the one store has the object looked up, and the
other one has it copied. -/
def readItem (found copied : World κ) (fileId : Bytes) (item : ChallengeItem) :
    Except Exception ChallengeItem := do
  let metadata ← found.getBlockMetadata fileId item.blockIndex
  copied.copyMetadata item metadata

/-- The metadata of a challenged block is that of the object which was found for it, at the time
of the copy. -/
def ReadsItem (found copied : World κ) (fileId : Bytes) (item : ChallengeItem) : Prop :=
  ∃ r, found.entry fileId (item.blockIndex - 1) = some r ∧
    copied.heap r = .versioned item.metadata

theorem readItem_ok_iff {found copied : World κ} {fileId : Bytes} {item item' : ChallengeItem} :
    readItem found copied fileId item = .ok item' ↔
      ∃ r, found.entry fileId (item.blockIndex - 1) = some r ∧
        ∃ m, copied.heap r = .versioned m ∧ item' = { item with metadata := m } := by
  simp only [readItem, bind_eq_ok, getBlockMetadata_eq_ok, copyMetadata_ok_iff]

theorem reads_of_readItem {found copied : World κ} {fileId : Bytes} {item item' : ChallengeItem}
    (h : readItem found copied fileId item = .ok item') :
    ReadsItem found copied fileId item' ∧ item'.bare = item.bare := by
  obtain ⟨r, hr, m, hm, rfl⟩ := readItem_ok_iff.mp h
  exact ⟨⟨r, hr, hm⟩, rfl⟩

/-- If the place of the block is that of the time of the copy, the store of that time shows
the item. -/
theorem ReadsItem.shows {found copied : World κ} {fileId : Bytes} {item : ChallengeItem}
    (h : ReadsItem found copied fileId item)
    (hentry : copied.entry fileId (item.blockIndex - 1) =
      found.entry fileId (item.blockIndex - 1)) :
    copied.ShowsItem fileId item := by
  obtain ⟨r, hr, hm⟩ := h
  exact metadataAt_eq_some.mpr ⟨r, hentry.trans hr, hm⟩

/-- Attaching to the bare items gives just the items that the store shows. -/
theorem mapM_attachMetadata_of_shows {fileId : Bytes} {items attached : List ChallengeItem}
    (hbare : attached.map ChallengeItem.bare = items.map ChallengeItem.bare)
    (hshows : ∀ item ∈ attached, w.ShowsItem fileId item) :
    items.mapM (w.attachMetadata fileId) = .ok attached := by
  rw [mapM_eq_ok_iff]
  induction items generalizing attached with
  | nil =>
    obtain rfl := List.map_eq_nil_iff.mp hbare
    exact .nil
  | cons item items ih =>
    obtain ⟨first, rest, rfl, hfirst, hrest⟩ := List.map_eq_cons_iff.mp hbare
    rw [List.forall_mem_cons] at hshows
    refine .cons ?_ (ih hrest hshows.2)
    obtain ⟨i, nu, m⟩ := first
    obtain ⟨i', nu', m'⟩ := item
    obtain ⟨rfl, rfl, _⟩ := ChallengeItem.mk.inj hfirst
    exact attachMetadata_ok_iff.mpr ⟨m, hshows.1, rfl⟩

/-! ## The end of a run at one store -/

/-- What a run comes to if all its requests find this store. -/
def finish (lib : CoreLib G1 G2 GT) (job : ChallengeJob G1 G2) (w : World κ) :
    ChallengeRun G2 → Option (Except Exception (Option (DHTDynamicChallenges G2)))
  | .hasFile =>
    w.generateChallenges lib job.runtime job.fuel job.algorithm_ (.typed job.ext)
  | .getBlockCount algorithm =>
    match w.getBlockCount job.ext.fileId with
    | .error e => some (.error e)
    | .ok blockCount =>
      (w.challengeBlocks lib job.runtime job.fuel algorithm job.ext job.y blockCount).map
        fun result => result.map some
  | .getBlockMetadata draw done item rest =>
    some do
      let items ← (item :: rest).mapM (w.attachMetadata job.ext.fileId)
      let R ← deref draw.RPtr
      return some { R := R, r := draw.r, items := done ++ items, blockCount := draw.blockCount }
  | .copyMetadata draw done item metadata rest =>
    some do
      let item ← w.copyMetadata item metadata
      let items ← rest.mapM (w.attachMetadata job.ext.fileId)
      let R ← deref draw.RPtr
      return some { R := R, r := draw.r, items := done ++ item :: items,
                    blockCount := draw.blockCount }
  | .drawing => none
  | .returned challenges => some (.ok challenges)
  | .thrown e => some (.error e)

theorem finish_next (draw : ChallengeDraw G2) (done rest : List ChallengeItem) :
    finish lib job w (.next draw done rest) = some (do
      let items ← rest.mapM (w.attachMetadata job.ext.fileId)
      let R ← deref draw.RPtr
      return some { R := R, r := draw.r, items := done ++ items,
                    blockCount := draw.blockCount }) := by
  cases rest with
  | nil =>
    rw [List.mapM_nil, ChallengeRun.next]
    cases deref draw.RPtr with
    | error e => rfl
    | ok R =>
      simp only [finish, pure_bind, List.append_nil]
      rfl
  | cons item rest => rfl

/-- The draw and the reads are the part of `generateChallenges` after the block count. -/
theorem finish_drawChallenge (algorithm : SM9BLSAlgorithm G2) (blockCount : SizeT) :
    finish lib job w (drawChallenge lib job algorithm blockCount) =
      (w.challengeBlocks lib job.runtime job.fuel algorithm job.ext job.y blockCount).map
        fun result => result.map some := by
  unfold drawChallenge challengeBlocks
  split_ifs with hz
  · rfl
  cases selectIndices job.runtime.rng job.fuel job.ext job.runtime.entropy blockCount with
  | none => rfl
  | some picked =>
    simp only [buildChallenges]
    rcases drawCoefficients lib (job.runtime.setOrder picked) job.fuel job.fuel
      algorithm.random with _ | ⟨_ | items, random⟩
    · rfl
    · rfl
    simp only
    rcases drawScalar lib job.fuel random with _ | ⟨_ | r, random'⟩
    · rfl
    · rfl
    simp only [finish_next, List.nil_append]
    cases items.mapM (w.attachMetadata job.ext.fileId) with
    | error e => rfl
    | ok items => cases deref (lib.g2Mul job.y r) <;> rfl

theorem finish_getBlockCount (algorithm : SM9BLSAlgorithm G2) :
    finish lib job w (.getBlockCount algorithm) =
      match w.getBlockCount job.ext.fileId with
      | .error e => some (.error e)
      | .ok blockCount => finish lib job w (drawChallenge lib job algorithm blockCount) := by
  simp only [finish_drawChallenge]
  rfl

/-- A complete request on a store that has the file. -/
theorem generateChallenges_of_hasFile (hjob : job.Complete publicParams)
    (hhas : w.hasFile job.ext.fileId = true) {algorithm : SM9BLSAlgorithm G2}
    (halgorithm : job.algorithm_ = some algorithm) :
    w.generateChallenges lib job.runtime job.fuel job.algorithm_ (.typed job.ext) =
      match w.resolveBlockCount job.ext with
      | .error e => some (.error e)
      | .ok blockCount => finish lib job w (drawChallenge lib job algorithm blockCount) := by
  cases hcount : w.resolveBlockCount job.ext <;>
    simp only [generateChallenges, BasePtr.cast, List.isEmpty_iff, hjob.file, hjob.params,
      hjob.store, hhas, halgorithm, hcount, if_false, Bool.not_true, Bool.false_eq_true,
      finish_drawChallenge, hjob.commitment]

/-- A request that finds the store leads to the same end. -/
theorem finish_challengeStep (hjob : job.Complete publicParams) (run : ChallengeRun G2) :
    finish lib job w (challengeStep lib job run w) = finish lib job w run := by
  cases run with
  | hasFile =>
    cases hhas : w.hasFile job.ext.fileId with
    | false =>
      simp only [challengeStep, finish, generateChallenges, BasePtr.cast, List.isEmpty_iff,
        hjob.file, hjob.params, hjob.store, hhas, if_false, Bool.not_true, Bool.not_false,
        Bool.false_eq_true, if_true]
    | true =>
      cases halgorithm : job.algorithm_ with
      | none =>
        simp only [challengeStep, finish, generateChallenges, BasePtr.cast, List.isEmpty_iff,
          hjob.file, hjob.params, hjob.store, hhas, halgorithm, if_false, Bool.not_true,
          Bool.false_eq_true]
      | some algorithm =>
        have hfinish : finish lib job w .hasFile = _ :=
          generateChallenges_of_hasFile hjob hhas halgorithm
        rw [hfinish]
        simp only [challengeStep, hhas, halgorithm, Bool.not_true, Bool.false_eq_true, if_false,
          resolveBlockCount]
        split_ifs with hcount
        · rfl
        · rw [finish_getBlockCount]
  | getBlockCount algorithm =>
    cases hget : w.getBlockCount job.ext.fileId with
    | error e => simp only [challengeStep, finish, hget]
    | ok blockCount =>
      have hstep : challengeStep lib job (.getBlockCount algorithm) w =
          drawChallenge lib job algorithm blockCount := by simp only [challengeStep, hget]
      rw [hstep, finish_getBlockCount, hget]
  | getBlockMetadata draw done item rest =>
    have hfinish : finish lib job w (.getBlockMetadata draw done item rest) = _ :=
      finish_next draw done (item :: rest)
    rw [hfinish, List.mapM_cons, attachMetadata]
    cases hget : w.getBlockMetadata job.ext.fileId item.blockIndex with
    | error e =>
      have hstep : challengeStep lib job (.getBlockMetadata draw done item rest) w = .thrown e := by
        simp only [challengeStep, hget]
      rw [hstep]
      rfl
    | ok metadata =>
      have hstep : challengeStep lib job (.getBlockMetadata draw done item rest) w =
          .copyMetadata draw done item metadata rest := by simp only [challengeStep, hget]
      rw [hstep]
      cases hcopy : w.copyMetadata item metadata with
      | error e => simp only [finish, bind, Except.bind, hcopy]
      | ok item' =>
        simp only [finish, bind, Except.bind, hcopy]
        cases rest.mapM (w.attachMetadata job.ext.fileId) <;> rfl
  | copyMetadata draw done item metadata rest =>
    cases hcopy : w.copyMetadata item metadata with
    | error e => simp only [challengeStep, finish, hcopy, bind, Except.bind]
    | ok item' =>
      have hstep : challengeStep lib job (.copyMetadata draw done item metadata rest) w =
          .next draw (done ++ [item']) rest := by simp only [challengeStep, hcopy]
      rw [hstep, finish_next]
      simp only [finish, hcopy, List.append_assoc, List.singleton_append]
      rfl
  | drawing => rfl
  | returned challenges => rfl
  | thrown e => rfl

/-! ## What a run has seen -/

variable {stores : List (World κ)}

/-- A run that has ended stays where it is. -/
theorem foldl_of_ended (h : run.outcome.isSome) :
    stores.foldl (challengeStep lib job) run = run := by
  induction stores with
  | nil => rfl
  | cons w stores ih =>
    have hstep : challengeStep lib job run w = run := by
      cases run with
      | drawing | returned | thrown => rfl
      | _ => cases h
    rw [List.foldl_cons, hstep, ih]

theorem outcome_next_nil (draw : ChallengeDraw G2) (done : List ChallengeItem) :
    (ChallengeRun.next draw done []).outcome.isSome := by
  cases hR : draw.RPtr <;> simp [ChallengeRun.next, ChallengeRun.outcome, hR, deref]

/-- The two turns for an item. -/
theorem foldl_next_cons (found copied : World κ) (draw : ChallengeDraw G2)
    (done : List ChallengeItem) (item : ChallengeItem) (rest : List ChallengeItem) :
    (found :: copied :: stores).foldl (challengeStep lib job) (.next draw done (item :: rest)) =
      match readItem found copied job.ext.fileId item with
      | .error e => .thrown e
      | .ok item => stores.foldl (challengeStep lib job) (.next draw (done ++ [item]) rest) := by
  simp only [readItem, List.foldl_cons, ChallengeRun.next, challengeStep, bind, Except.bind]
  cases found.getBlockMetadata job.ext.fileId item.blockIndex with
  | error e => exact foldl_of_ended rfl
  | ok metadata =>
    cases hcopy : copied.copyMetadata item metadata with
    | error e =>
      simp only [hcopy]
      exact foldl_of_ended rfl
    | ok item' => simp only [hcopy]

/-- The metadata of the items was read in pairs of turns, one pair after the other. -/
theorem foldl_next_returned {draw : ChallengeDraw G2} {done rest : List ChallengeItem}
    {challenges : DHTDynamicChallenges G2}
    (h : stores.foldl (challengeStep lib job) (.next draw done rest) =
      .returned (some challenges)) :
    ∃ attached reads later R, stores = inTurn reads ++ later ∧
      List.Forall₂ (fun item read => ReadsItem read.1 read.2 job.ext.fileId item)
        attached reads ∧
      attached.map ChallengeItem.bare = rest.map ChallengeItem.bare ∧ draw.RPtr = some R ∧
      challenges = ⟨R, draw.r, done ++ attached, draw.blockCount⟩ := by
  induction rest generalizing done stores with
  | nil =>
    rw [foldl_of_ended (outcome_next_nil draw done)] at h
    cases hR : draw.RPtr with
    | none =>
      simp only [ChallengeRun.next, hR, deref] at h
      cases h
    | some R =>
      simp only [ChallengeRun.next, hR, deref_some] at h
      obtain rfl := Option.some.inj (ChallengeRun.returned.inj h)
      exact ⟨[], [], stores, R, rfl, .nil, rfl, rfl, by rw [List.append_nil]⟩
  | cons item rest ih =>
    rcases stores with _ | ⟨found, _ | ⟨copied, stores⟩⟩
    · cases h
    · cases hget : found.getBlockMetadata job.ext.fileId item.blockIndex <;>
        simp only [List.foldl_cons, List.foldl_nil, ChallengeRun.next, challengeStep, hget,
          reduceCtorEq] at h
    · rw [foldl_next_cons] at h
      cases hread : readItem found copied job.ext.fileId item with
      | error e =>
        rw [hread] at h
        cases h
      | ok item' =>
        rw [hread] at h
        obtain ⟨hreads, hbare⟩ := reads_of_readItem hread
        obtain ⟨attached, reads, later, R, rfl, hrest, hitems, hR, rfl⟩ := ih h
        refine ⟨item' :: attached, (found, copied) :: reads, later, R, rfl, .cons hreads hrest,
          ?_, hR, ?_⟩
        · rw [List.map_cons, List.map_cons, hbare, hitems]
        · rw [List.append_assoc, List.singleton_append]

/-- A throw among the reads is that of the two turns for one of the items. -/
theorem foldl_next_thrown {draw : ChallengeDraw G2} {done rest : List ChallengeItem}
    {e : Exception} (h : stores.foldl (challengeStep lib job) (.next draw done rest) = .thrown e) :
    e = .nullDereference ∨
      ∃ item ∈ rest, ∃ seen found later, stores = seen ++ found :: later ∧
        ∃ copied ∈ found :: later, readItem found copied job.ext.fileId item = .error e := by
  induction rest generalizing done stores with
  | nil =>
    rw [foldl_of_ended (outcome_next_nil draw done)] at h
    cases hR : draw.RPtr with
    | none =>
      simp only [ChallengeRun.next, hR, deref] at h
      exact Or.inl (ChallengeRun.thrown.inj h).symm
    | some R =>
      simp only [ChallengeRun.next, hR, deref_some] at h
      cases h
  | cons item rest ih =>
    rcases stores with _ | ⟨found, _ | ⟨copied, stores⟩⟩
    · cases h
    · cases hget : found.getBlockMetadata job.ext.fileId item.blockIndex with
      | ok metadata =>
        simp only [List.foldl_cons, List.foldl_nil, ChallengeRun.next, challengeStep, hget,
          reduceCtorEq] at h
      | error e' =>
        simp only [List.foldl_cons, List.foldl_nil, ChallengeRun.next, challengeStep, hget] at h
        obtain rfl := ChallengeRun.thrown.inj h
        refine Or.inr ⟨item, List.mem_cons_self, [], found, [], rfl, found, List.mem_cons_self, ?_⟩
        rw [readItem, hget]
        rfl
    · rw [foldl_next_cons] at h
      cases hread : readItem found copied job.ext.fileId item with
      | error e' =>
        rw [hread] at h
        obtain rfl := ChallengeRun.thrown.inj h
        exact Or.inr ⟨item, List.mem_cons_self, [], found, copied :: stores, rfl, copied,
          List.mem_cons_of_mem found List.mem_cons_self, hread⟩
      | ok item' =>
        rw [hread] at h
        rcases ih h with hnull | ⟨item'', hitem, seen, found', later, rfl, copied', hcopied, he⟩
        · exact Or.inl hnull
        · exact Or.inr ⟨item'', List.mem_cons_of_mem item hitem, found :: copied :: seen, found',
            later, rfl, copied', hcopied, he⟩

/-- What a call throws whatever the store holds. -/
def ownExceptions : List Exception :=
  [.algorithmMissing, .coefficientGeneration, .blindScalarGeneration, .nullDereference]

/-- A draw ends the call, or leaves items in range for the reads. -/
theorem drawChallenge_cases (lib : CoreLib G1 G2 GT) (job : ChallengeJob G1 G2)
    (algorithm : SM9BLSAlgorithm G2) (blockCount : SizeT) :
    (drawChallenge lib job algorithm blockCount = .drawing ∨
      (∃ challenges, challenges.items = [] ∧
        drawChallenge lib job algorithm blockCount = .returned (some challenges)) ∨
      ∃ e ∈ ownExceptions, drawChallenge lib job algorithm blockCount = .thrown e) ∨
    ∃ r items, drawChallenge lib job algorithm blockCount =
        .next ⟨lib.g2Mul job.y r, r, blockCount⟩ [] items ∧
      ∀ item ∈ items, 1 ≤ item.blockIndex ∧ item.blockIndex ≤ blockCount := by
  by_cases hz : blockCount = 0
  · exact Or.inl (Or.inr (Or.inl ⟨_, rfl, by rw [drawChallenge, if_pos hz]⟩))
  unfold drawChallenge
  rw [if_neg hz]
  cases hselect : selectIndices job.runtime.rng job.fuel job.ext job.runtime.entropy blockCount with
  | none => exact Or.inl (Or.inl rfl)
  | some picked =>
    simp only
    rcases hcoefficients : drawCoefficients lib (job.runtime.setOrder picked) job.fuel job.fuel
      algorithm.random with _ | ⟨e | items, random⟩
    · exact Or.inl (Or.inl rfl)
    · refine Or.inl (Or.inr (Or.inr ⟨e, ?_, rfl⟩))
      rcases drawCoefficients_cases hcoefficients with ⟨_, hok, _⟩ | he | he
      · cases hok
      · rw [Except.error.inj he]
        decide
      · rw [Except.error.inj he]
        decide
    simp only
    rcases drawScalar lib job.fuel random with _ | ⟨_ | r, random'⟩
    · exact Or.inl (Or.inl rfl)
    · exact Or.inl (Or.inr (Or.inr ⟨.blindScalarGeneration, by decide, rfl⟩))
    · refine Or.inr ⟨r, items, rfl, fun item hitem => ?_⟩
      apply (setOrder_selectIndices hz hselect).2
      rw [← drawCoefficients_indices hcoefficients]
      exact List.mem_map_of_mem hitem

/-- A call that has ended without a challenged block, or has not ended. -/
def EndsUnread (fileId : Bytes) (stores : List (World κ)) (run : ChallengeRun G2) : Prop :=
  run.outcome = none ∨ run = .drawing ∨
    (∃ challenges, challenges.items = [] ∧ run = .returned (some challenges)) ∨
    ∃ e, run = .thrown e ∧ (e ∈ ownExceptions ∨ ∃ w ∈ stores, w.getBlockCount fileId = .error e)

/-- A call that reads what it has drawn for the block count of one store from those after it. -/
def ReadsDrawn (lib : CoreLib G1 G2 GT) (job : ChallengeJob G1 G2) (stores : List (World κ))
    (run : ChallengeRun G2) : Prop :=
  ∃ seen w later algorithm blockCount r items, stores = seen ++ w :: later ∧
    w.resolveBlockCount job.ext = .ok blockCount ∧ job.algorithm_ = some algorithm ∧
    drawChallenge lib job algorithm blockCount =
      .next ⟨lib.g2Mul job.y r, r, blockCount⟩ [] items ∧
    (∀ item ∈ items, 1 ≤ item.blockIndex ∧ item.blockIndex ≤ blockCount) ∧
    run = later.foldl (challengeStep lib job) (.next ⟨lib.g2Mul job.y r, r, blockCount⟩ [] items)

theorem foldl_drawChallenge (seen later : List (World κ)) {algorithm : SM9BLSAlgorithm G2}
    {blockCount : SizeT} (hcount : w.resolveBlockCount job.ext = .ok blockCount)
    (halgorithm : job.algorithm_ = some algorithm)
    (hrun : run = later.foldl (challengeStep lib job)
      (drawChallenge lib job algorithm blockCount)) :
    EndsUnread job.ext.fileId (seen ++ w :: later) run ∨
      ReadsDrawn lib job (seen ++ w :: later) run := by
  rcases drawChallenge_cases lib job algorithm blockCount with
    (hdrawing | ⟨challenges, hitems, hempty⟩ | ⟨e, he, hthrown⟩) | ⟨r, items, hnext, hrange⟩
  · rw [hdrawing, foldl_of_ended rfl] at hrun
    exact Or.inl (Or.inr (Or.inl hrun))
  · rw [hempty, foldl_of_ended rfl] at hrun
    exact Or.inl (Or.inr (Or.inr (Or.inl ⟨challenges, hitems, hrun⟩)))
  · rw [hthrown, foldl_of_ended rfl] at hrun
    exact Or.inl (Or.inr (Or.inr (Or.inr ⟨e, hrun, Or.inl he⟩)))
  · rw [hnext] at hrun
    exact Or.inr ⟨seen, w, later, algorithm, blockCount, r, items, rfl, hcount, halgorithm,
      hnext, hrange, hrun⟩

/-- A call either ends without a challenged block, or reads what it has drawn. -/
theorem foldl_hasFile (lib : CoreLib G1 G2 GT) (job : ChallengeJob G1 G2)
    (stores : List (World κ)) :
    EndsUnread job.ext.fileId stores (stores.foldl (challengeStep lib job) .hasFile) ∨
      ReadsDrawn lib job stores (stores.foldl (challengeStep lib job) .hasFile) := by
  cases stores with
  | nil => exact Or.inl (Or.inl rfl)
  | cons w stores =>
    rw [List.foldl_cons]
    cases hhas : w.hasFile job.ext.fileId with
    | false =>
      simp only [challengeStep, hhas, Bool.not_false, if_true]
      rw [foldl_of_ended rfl]
      exact Or.inl (Or.inr (Or.inr (Or.inl ⟨_, rfl, rfl⟩)))
    | true =>
      cases halgorithm : job.algorithm_ with
      | none =>
        simp only [challengeStep, hhas, halgorithm, Bool.not_true, Bool.false_eq_true, if_false]
        rw [foldl_of_ended rfl]
        exact Or.inl (Or.inr (Or.inr (Or.inr ⟨_, rfl, Or.inl List.mem_cons_self⟩)))
      | some algorithm =>
        by_cases hgiven : job.ext.blockCount ≠ 0
        · have hstep : challengeStep lib job .hasFile w =
              drawChallenge lib job algorithm job.ext.blockCount := by
            simp only [challengeStep, hhas, halgorithm, Bool.not_true, Bool.false_eq_true,
              if_false, if_pos hgiven]
          exact foldl_drawChallenge [] stores (if_pos hgiven) halgorithm (by rw [hstep])
        · have hstep : challengeStep lib job .hasFile w = .getBlockCount algorithm := by
            simp only [challengeStep, hhas, halgorithm, Bool.not_true, Bool.false_eq_true,
              if_false, if_neg hgiven]
          rw [hstep]
          cases stores with
          | nil => exact Or.inl (Or.inl rfl)
          | cons w' stores =>
            rw [List.foldl_cons]
            cases hget : w'.getBlockCount job.ext.fileId with
            | error e =>
              simp only [challengeStep, hget]
              rw [foldl_of_ended rfl]
              exact Or.inl (Or.inr (Or.inr (Or.inr ⟨e, rfl,
                Or.inr ⟨w', List.mem_cons_of_mem w List.mem_cons_self, hget⟩⟩)))
            | ok blockCount =>
              have hstep' : challengeStep lib job (.getBlockCount algorithm) w' =
                  drawChallenge lib job algorithm blockCount := by
                simp only [challengeStep, hget]
              exact foldl_drawChallenge [w] stores ((if_neg hgiven).trans hget) halgorithm
                (by rw [hstep'])

/-! ## A call by itself -/

/-- The reads come to an end. -/
theorem exists_outcome_next (w : World κ) (draw : ChallengeDraw G2)
    (done rest : List ChallengeItem) :
    ∃ n, ((List.replicate n w).foldl (challengeStep lib job)
      (.next draw done rest)).outcome.isSome := by
  induction rest generalizing done with
  | nil => exact ⟨0, outcome_next_nil draw done⟩
  | cons item rest ih =>
    cases hread : readItem w w job.ext.fileId item with
    | error e =>
      refine ⟨2, ?_⟩
      rw [List.replicate, List.replicate, foldl_next_cons, hread]
      rfl
    | ok item' =>
      obtain ⟨n, hn⟩ := ih (done ++ [item'])
      refine ⟨n + 2, ?_⟩
      rw [List.replicate, List.replicate, foldl_next_cons, hread]
      exact hn

theorem exists_outcome_drawChallenge (w : World κ) (algorithm : SM9BLSAlgorithm G2)
    (blockCount : SizeT) :
    ∃ n, ((List.replicate n w).foldl (challengeStep lib job)
      (drawChallenge lib job algorithm blockCount)).outcome.isSome := by
  rcases drawChallenge_cases lib job algorithm blockCount with
    (hdrawing | ⟨challenges, _, hempty⟩ | ⟨e, _, hthrown⟩) | ⟨r, items, hnext, _⟩
  · exact ⟨0, by rw [hdrawing]; rfl⟩
  · exact ⟨0, by rw [hempty]; rfl⟩
  · exact ⟨0, by rw [hthrown]; rfl⟩
  · rw [hnext]
    exact exists_outcome_next w _ [] items

theorem exists_outcome (lib : CoreLib G1 G2 GT) (job : ChallengeJob G1 G2) (w : World κ) :
    ∃ n, ((List.replicate n w).foldl (challengeStep lib job) .hasFile).outcome.isSome := by
  have hstep : ∀ run : ChallengeRun G2, (∃ n, ((List.replicate n w).foldl (challengeStep lib job)
      (challengeStep lib job run w)).outcome.isSome) →
      ∃ n, ((List.replicate n w).foldl (challengeStep lib job) run).outcome.isSome :=
    fun run ⟨n, hn⟩ => ⟨n + 1, hn⟩
  apply hstep
  cases hhas : w.hasFile job.ext.fileId with
  | false =>
    refine ⟨0, ?_⟩
    simp only [List.replicate_zero, List.foldl_nil, challengeStep, hhas, Bool.not_false, if_true]
    rfl
  | true =>
    cases halgorithm : job.algorithm_ with
    | none =>
      refine ⟨0, ?_⟩
      simp only [List.replicate_zero, List.foldl_nil, challengeStep, hhas, halgorithm,
        Bool.not_true, Bool.false_eq_true, if_false]
      rfl
    | some algorithm =>
      simp only [challengeStep, hhas, halgorithm, Bool.not_true, Bool.false_eq_true, if_false]
      split_ifs
      · exact exists_outcome_drawChallenge w algorithm job.ext.blockCount
      · apply hstep
        cases hget : w.getBlockCount job.ext.fileId with
        | error e =>
          refine ⟨0, ?_⟩
          simp only [List.replicate_zero, List.foldl_nil, challengeStep, hget]
          rfl
        | ok blockCount =>
          simp only [challengeStep, hget]
          exact exists_outcome_drawChallenge w algorithm blockCount

/-- Turns in a row make the call that `generateChallenges` is. -/
theorem outcome_generateChallenges (lib : CoreLib G1 G2 GT) (hjob : job.Complete publicParams)
    (w : World κ) :
    ∃ n, ((List.replicate n w).foldl (challengeStep lib job) .hasFile).outcome =
      some (w.generateChallenges lib job.runtime job.fuel job.algorithm_ (.typed job.ext)) := by
  have hsame : ∀ n run, finish lib job w
      ((List.replicate n w).foldl (challengeStep lib job) run) = finish lib job w run := by
    intro n
    induction n with
    | zero => exact fun run => rfl
    | succ n ih =>
      intro run
      rw [List.replicate_succ, List.foldl_cons, ih, finish_challengeStep hjob]
  obtain ⟨n, hn⟩ := exists_outcome lib job w
  refine ⟨n, ?_⟩
  have hfinish := hsame n .hasFile
  generalize (List.replicate n w).foldl (challengeStep lib job) .hasFile = run at hn hfinish
  cases run with
  | hasFile | getBlockCount | getBlockMetadata | copyMetadata => cases hn
  | drawing | returned | thrown =>
    exact congrArg some hfinish

end World

end DHTDynamic
