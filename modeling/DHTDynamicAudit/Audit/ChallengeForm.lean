import Mathlib.Algebra.BigOperators.Group.List.Basic
import DHTDynamicAudit.Audit.Completeness

/-!
# Every generated challenge is well formed

Four loops draw again until what they drew is acceptable. Whatever the random
sources return, a run whose loops end has picked distinct indices in range,
non-zero coefficients with a non-zero sum, and a non-zero blinding scalar.
-/

namespace DHTDynamic

open Core

variable {G1 G2 GT κ : Type} {lib : CoreLib G1 G2 GT}

/-! ## The indices -/

/-- The picked set has no duplicates and grows exactly to the size asked for. -/
theorem pickIndices_nodup {rng : IndexRng} {count blockCount : SizeT} {fuel : Nat}
    {picked : List SizeT} {s : rng.State} {result : List SizeT}
    (h : pickIndices rng count blockCount fuel picked s = some result) (hnodup : picked.Nodup)
    (hle : picked.length ≤ count.toNat) : result.Nodup ∧ result.length = count.toNat := by
  obtain ⟨⟨hresult, hlength⟩, hge⟩ :=
    pickIndices_preserves (P := fun l => l.Nodup ∧ l.length ≤ count.toNat)
      (fun _ _ hmore hnew hl => ⟨List.nodup_cons.mpr ⟨hnew, hl.1⟩, hmore⟩) h ⟨hnodup, hle⟩
  exact ⟨hresult, Nat.le_antisymm hlength hge⟩

theorem selectIndices_nodup {rng : IndexRng} {fuel : Nat}
    {ext : DHTDynamicChallengeRequestExt G1 G2} {entropy : UInt64} {blockCount : SizeT}
    {picked : List SizeT} (h : selectIndices rng fuel ext entropy blockCount = some picked) :
    picked.Nodup ∧ picked.length =
      (resolveCount rng ext.challengeCount blockCount (rng.seeded (ext.rngSeed entropy))).1.toNat :=
  pickIndices_nodup h List.nodup_nil (Nat.zero_le _)

/-- The number of blocks to challenge never exceeds the number there are. -/
theorem resolveCount_le {rng : IndexRng} (challengeCount : SizeT) {blockCount : SizeT}
    (hz : blockCount ≠ 0) (s : rng.State) :
    (resolveCount rng challengeCount blockCount s).1 ≤ blockCount := by
  unfold resolveCount
  split_ifs with hcount
  · show (if challengeCount ≤ blockCount then challengeCount else blockCount) ≤ blockCount
    split_ifs with hle
    · exact hle
    · exact UInt64.le_refl blockCount
  · exact (rng.uniform_mem 1 blockCount s (one_le_iff.mpr hz)).2

/-- A requested number of blocks is capped at the number there are. -/
theorem resolveCount_requested {rng : IndexRng} {challengeCount : SizeT} (h : challengeCount ≠ 0)
    (blockCount : SizeT) (s : rng.State) :
    (resolveCount rng challengeCount blockCount s).1.toNat =
      min challengeCount.toNat blockCount.toNat := by
  unfold resolveCount
  rw [if_pos h]
  show (if challengeCount ≤ blockCount then challengeCount else blockCount).toNat = _
  split_ifs with hle
  · exact (min_eq_left (UInt64.le_iff_toNat_le.mp hle)).symm
  · exact (min_eq_right (UInt64.le_iff_toNat_le.mp (UInt64.le_of_lt (UInt64.not_le.mp hle)))).symm

/-! ## The scalars -/

/-- Every output of `generateRandom` has the size asked for. -/
def RandomSized (random : Stream' Bytes) : Prop :=
  ∀ k, (random.get k).length = SM9CryptoData.size

theorem RandomSized.tail {random : Stream' Bytes} (h : RandomSized random) :
    RandomSized random.tail := fun k => h (k + 1)

/-- The scalar drawn is not zero, and one is drawn unless an output has the wrong size. -/
theorem drawScalar_ne_zero {n : Nat} (hs : lib.LawfulScalars n) {fuel : Nat}
    {random random' : Stream' Bytes} {result : Option SM9CryptoData}
    (h : drawScalar lib fuel random = some (result, random')) :
    (∀ v, result = some v → v.value ≠ 0) ∧
      (RandomSized random → result.isSome ∧ RandomSized random') := by
  induction fuel generalizing random with
  | zero => cases h
  | succ fuel ih =>
    simp only [drawScalar] at h
    split_ifs at h with hsize hzero
    · obtain ⟨rfl, _⟩ := Prod.mk.inj (Option.some.inj h)
      exact ⟨fun _ hv => (by cases hv), fun hsized => absurd (hsized 0) hsize⟩
    · obtain ⟨hvalue, hrest⟩ := ih h
      exact ⟨hvalue, fun hsized => hrest hsized.tail⟩
    · obtain ⟨rfl, rfl⟩ := Prod.mk.inj (Option.some.inj h)
      refine ⟨fun v hv => ?_, fun hsized => ⟨rfl, hsized.tail⟩⟩
      obtain rfl := Option.some.inj hv
      rwa [hs.isZero] at hzero

/-- The coefficients of a list of items, summed up. -/
def nuSum (items : List ChallengeItem) : Nat := (items.map fun item => item.nu.value).sum

@[simp] theorem nuSum_cons (item : ChallengeItem) (items : List ChallengeItem) :
    nuSum (item :: items) = item.nu.value + nuSum items := List.sum_cons

/-- One pass over the picked indices: non-zero coefficients, and their sum added to `ν`. -/
theorem drawItems_nu {n : Nat} (hs : lib.LawfulScalars n) {fuel : Nat} {picked : List SizeT}
    {nu : SM9CryptoData} (hnu : nu.value < n) {random random' : Stream' Bytes}
    {result : Except Exception (SM9CryptoData × List ChallengeItem)}
    (h : drawItems lib fuel picked nu random = some (result, random')) :
    (∀ nu' items, result = .ok (nu', items) → (∀ item ∈ items, item.nu.value ≠ 0) ∧
        nu'.value = (nu.value + nuSum items) % n) ∧
      (RandomSized random → (∃ drawn, result = .ok drawn) ∧ RandomSized random') := by
  induction picked generalizing nu random result random' with
  | nil =>
    obtain ⟨rfl, rfl⟩ := Prod.mk.inj (Option.some.inj h)
    refine ⟨fun nu' items hok => ?_, fun hsized => ⟨⟨_, rfl⟩, hsized⟩⟩
    obtain ⟨rfl, rfl⟩ := Prod.mk.inj (Except.ok.inj hok)
    exact ⟨fun _ hitem => (by cases hitem), (Nat.mod_eq_of_lt hnu).symm⟩
  | cons index rest ih =>
    rcases drawItems_cons_cases h with
      ⟨hv, rfl⟩ | ⟨v, next, hv, ⟨hnull, _⟩ | ⟨sum, hadd, drawn, hrest, rfl⟩⟩
    · exact ⟨fun _ _ hok => (by cases hok),
        fun hsized => absurd ((drawScalar_ne_zero hs hv).2 hsized).1 Bool.false_ne_true⟩
    · obtain ⟨sum, hadd, _⟩ := hs.scalarAdd nu v
      rw [hnull] at hadd
      cases hadd
    obtain ⟨hnonzero, hnext⟩ := drawScalar_ne_zero hs hv
    have hvalue : sum.value = (nu.value + v.value) % n := by
      obtain ⟨_, hsame, hvalue⟩ := hs.scalarAdd nu v
      rwa [Option.some.inj (hadd.symm.trans hsame)]
    have hlt : sum.value < n := by
      rw [hvalue]
      exact Nat.mod_lt _ (Nat.zero_lt_of_lt hs.one_lt)
    obtain ⟨hitems, hlast⟩ := ih hlt hrest
    constructor
    · intro nu' items hok
      cases drawn with
      | error e => cases hok
      | ok drawn =>
        obtain ⟨rfl, rfl⟩ := Prod.mk.inj (Except.ok.inj hok)
        obtain ⟨hall, hsum⟩ := hitems _ _ rfl
        refine ⟨List.forall_mem_cons.mpr ⟨hnonzero v rfl, hall⟩, ?_⟩
        rw [hsum, hvalue, Nat.mod_add_mod, nuSum_cons, Nat.add_assoc]
    · intro hsized
      obtain ⟨⟨_, rfl⟩, hsized'⟩ := hlast (hnext hsized).2
      exact ⟨⟨_, rfl⟩, hsized'⟩

/-- The accepted round: non-zero coefficients whose sum is not zero either. -/
theorem drawCoefficients_nu {n : Nat} (hs : lib.LawfulScalars n) {fuel rounds : Nat}
    {picked : List SizeT} {random random' : Stream' Bytes}
    {result : Except Exception (List ChallengeItem)}
    (h : drawCoefficients lib picked fuel rounds random = some (result, random')) :
    (∀ items, result = .ok items →
        (∀ item ∈ items, item.nu.value ≠ 0) ∧ nuSum items % n ≠ 0) ∧
      (RandomSized random → (∃ items, result = .ok items) ∧ RandomSized random') := by
  have hstart : lib.scalarDefault.value < n := by
    rw [hs.scalarDefault]
    exact Nat.zero_lt_of_lt hs.one_lt
  -- a completed round leaves a source of outputs of the right size
  obtain ⟨start, hsized, ⟨e, hitems, rfl⟩ | ⟨nu, drawn, hitems, hzero, rfl⟩⟩ :=
    drawCoefficients_last (P := fun start => RandomSized random → RandomSized start)
      (fun _ _ _ hbefore hround hsized => ((drawItems_nu hs hstart hround).2 (hbefore hsized)).2)
      id h
  · refine ⟨fun _ hok => (by cases hok), fun hrandom => ?_⟩
    obtain ⟨⟨_, hok⟩, _⟩ := (drawItems_nu hs hstart hitems).2 (hsized hrandom)
    cases hok
  · obtain ⟨hdrawn, hsized'⟩ := drawItems_nu hs hstart hitems
    refine ⟨fun items hok => ?_, fun hrandom => ⟨⟨_, rfl⟩, (hsized' (hsized hrandom)).2⟩⟩
    obtain rfl := Except.ok.inj hok
    obtain ⟨hall, hsum⟩ := hdrawn _ _ rfl
    refine ⟨hall, ?_⟩
    rwa [hs.isZero, hsum, hs.scalarDefault, Nat.zero_add] at hzero

/-- Sums that are never null are never dereferenced as null. -/
theorem drawItems_ne_null {n : Nat} (hs : lib.LawfulScalars n) {fuel : Nat} {picked : List SizeT}
    {nu : SM9CryptoData} {random random' : Stream' Bytes}
    {result : Except Exception (SM9CryptoData × List ChallengeItem)}
    (h : drawItems lib fuel picked nu random = some (result, random')) :
    result ≠ .error .nullDereference := by
  induction picked generalizing nu random result random' with
  | nil =>
    obtain ⟨rfl, _⟩ := Prod.mk.inj (Option.some.inj h)
    exact fun he => by cases he
  | cons index rest ih =>
    rcases drawItems_cons_cases h with
      ⟨_, rfl⟩ | ⟨v, next, _, ⟨hnull, _⟩ | ⟨sum, _, drawn, hrest, rfl⟩⟩
    · exact fun he => by cases he
    · obtain ⟨sum, hsum, _⟩ := hs.scalarAdd nu v
      rw [hnull] at hsum
      cases hsum
    · intro he
      cases drawn with
      | error e => exact ih hrest (congrArg Except.error (Except.error.inj he))
      | ok drawn => cases he

theorem drawCoefficients_ne_null {n : Nat} (hs : lib.LawfulScalars n) {fuel rounds : Nat}
    {picked : List SizeT} {random random' : Stream' Bytes}
    {result : Except Exception (List ChallengeItem)}
    (h : drawCoefficients lib picked fuel rounds random = some (result, random')) :
    result ≠ .error .nullDereference := by
  obtain ⟨start, -, ⟨e, hitems, rfl⟩ | ⟨nu, drawn, hitems, _, rfl⟩⟩ :=
    drawCoefficients_last (P := fun _ => True) (fun _ _ _ _ _ => trivial) trivial h
  · exact fun he => drawItems_ne_null hs hitems (congrArg Except.error (Except.error.inj he))
  · exact fun he => by cases he

/-- Without a coefficient an output of the random source had the wrong size. -/
theorem drawCoefficients_error {n : Nat} (hs : lib.LawfulScalars n) {fuel rounds : Nat}
    {picked : List SizeT} {random random' : Stream' Bytes} {e : Exception}
    (h : drawCoefficients lib picked fuel rounds random = some (.error e, random')) :
    e = .coefficientGeneration ∧ ¬ RandomSized random := by
  constructor
  · rcases drawCoefficients_cases h with ⟨_, hok, _⟩ | he | he
    · cases hok
    · exact Except.error.inj he
    · exact absurd he (drawCoefficients_ne_null hs h)
  · intro hsized
    obtain ⟨⟨_, hok⟩, _⟩ := (drawCoefficients_nu hs h).2 hsized
    cases hok

/-- Items with the same coefficients are accepted as well. -/
theorem accepted_of_map_nu {items items' : List ChallengeItem}
    (hnus : items'.map ChallengeItem.nu = items.map ChallengeItem.nu)
    (h : ∀ item ∈ items, item.nu.value ≠ 0) :
    (∀ item ∈ items', item.nu.value ≠ 0) ∧ nuSum items' = nuSum items := by
  constructor
  · intro item hitem
    have hnu : item.nu ∈ items.map ChallengeItem.nu := hnus ▸ List.mem_map_of_mem hitem
    obtain ⟨drawn, hdrawn, heq⟩ := List.mem_map.mp hnu
    rw [← heq]
    exact h drawn hdrawn
  · have hvalues := congrArg (List.map SM9CryptoData.value) hnus
    simp only [List.map_map, Function.comp_def] at hvalues
    exact congrArg List.sum hvalues

/-! ## The challenge -/

/-- The scalars of a challenge are as its loops demand. -/
structure DHTDynamicChallenges.ScalarsAccepted (challenges : DHTDynamicChallenges G2) (n : Nat) :
    Prop where
  nu_ne_zero : ∀ item ∈ challenges.items, item.nu.value ≠ 0
  sum_ne_zero : nuSum challenges.items % n ≠ 0
  r_ne_zero : challenges.r.value ≠ 0

namespace World

variable {w : World κ} {fileId : Bytes}

/-- A challenge of `count` blocks out of `1..blockCount`, under the metadata of the store. -/
structure WellFormedChallenge (lib : CoreLib G1 G2 GT) (n : Nat) (w : World κ) (fileId : Bytes)
    (y : G2) (blockCount count : SizeT) (challenges : DHTDynamicChallenges G2) : Prop
    extends challenges.ScalarsAccepted n where
  itemCount : challenges.items.length = count.toNat
  inRange : ∀ item ∈ challenges.items, 1 ≤ item.blockIndex ∧ item.blockIndex ≤ blockCount
  distinct : (challenges.items.map ChallengeItem.blockIndex).Nodup
  blind : lib.g2Mul y challenges.r = some challenges.R
  metadata : ∀ item ∈ challenges.items,
    w.metadataAt fileId (item.blockIndex - 1) = some (.versioned item.metadata)
  total : challenges.blockCount = blockCount

/-- Metadata of a registered block is attached unless it is of another class. -/
theorem attachMetadata_error {item : ChallengeItem} (hr : w.Registered fileId item.blockIndex)
    {e : Exception} (h : w.attachMetadata fileId item = .error e) :
    e = .challengeNotVersioned item.blockIndex ∧
      w.hasForeignMetadata fileId item.blockIndex = true := by
  obtain ⟨r, hr⟩ := hr
  have hat : w.metadataAt fileId (item.blockIndex - 1) = some (w.heap r) :=
    metadataAt_eq_some.mpr ⟨r, getBlockMetadata_eq_ok.mp hr, rfl⟩
  simp only [attachMetadata, copyMetadata, hr, bind, Except.bind] at h
  cases hheap : w.heap r with
  | versioned m =>
    simp only [hheap, BlockMetadata.asVersioned_versioned] at h
    cases h
  | custom m =>
    simp only [hheap, BlockMetadata.asVersioned_custom] at h
    refine ⟨(Except.error.inj h).symm, ?_⟩
    rw [hasForeignMetadata, hat, hheap]

/-- After the picks a run ends with an accepted challenge over them, or an output of the random
source had the wrong size, or a picked block has metadata of another class. -/
theorem buildChallenges_outcome {n : Nat} (hs : lib.LawfulScalars n)
    (hmul : ∀ P k, (lib.g2Mul P k).isSome) {fuel : Nat} {y : G2} {blockCount : SizeT}
    {picked : List SizeT} (hregistered : ∀ i ∈ picked, w.Registered fileId i)
    {random : Stream' Bytes} {result : Except Exception (DHTDynamicChallenges G2)}
    (h : w.buildChallenges lib fuel fileId y blockCount picked random = some result) :
    (∃ challenges, result = .ok challenges ∧ challenges.ScalarsAccepted n ∧
        w.Drawn lib fileId y picked challenges ∧ challenges.blockCount = blockCount) ∨
      (¬ RandomSized random ∧
        (result = .error .coefficientGeneration ∨ result = .error .blindScalarGeneration)) ∨
      ∃ i ∈ picked, w.hasForeignMetadata fileId i = true ∧
        result = .error (.challengeNotVersioned i) := by
  rcases buildChallenges_steps h with ⟨e, next, hcoefficients, rfl⟩ |
    ⟨items, next, hcoefficients, hdrawn⟩
  · -- no coefficient could be drawn
    obtain ⟨rfl, hsized⟩ := drawCoefficients_error hs hcoefficients
    exact Or.inr (Or.inl ⟨hsized, Or.inl rfl⟩)
  obtain ⟨haccepted, hnext⟩ := drawCoefficients_nu hs hcoefficients
  obtain ⟨hnonzero, hsum⟩ := haccepted items rfl
  have hpicked := drawCoefficients_indices hcoefficients
  rcases hdrawn with ⟨_, hr, rfl⟩ | ⟨r, _, hr, ⟨e, hitems, rfl⟩ | ⟨items', hitems, rfl⟩⟩
  · refine Or.inr (Or.inl ⟨fun hsized => ?_, Or.inr rfl⟩)
    cases ((drawScalar_ne_zero hs hr).2 (hnext hsized).2).1
  · obtain ⟨item, hitem, he⟩ := mapM_error hitems
    have hmem : item.blockIndex ∈ picked := hpicked ▸ List.mem_map_of_mem hitem
    obtain ⟨rfl, hforeign⟩ := attachMetadata_error (hregistered _ hmem) he
    exact Or.inr (Or.inr ⟨item.blockIndex, hmem, hforeign, rfl⟩)
  · obtain ⟨R, hR⟩ := Option.isSome_iff_exists.mp (hmul y r)
    obtain ⟨hindices, hnus, hmetadata⟩ := mapM_attachMetadata hitems
    obtain ⟨hnonzero', hsame⟩ := accepted_of_map_nu hnus hnonzero
    rw [hR, deref_some]
    exact Or.inl ⟨_, rfl, ⟨hnonzero', hsame ▸ hsum, (drawScalar_ne_zero hs hr).1 r rfl⟩,
      ⟨hR, hindices.trans hpicked, hmetadata⟩, rfl⟩

/-- A request for a challenge of a file whose blocks `1..blockCount` are registered, on any random
outcomes its loops end on: a well-formed challenge of the number of blocks asked for, or of one
drawn from that range. It throws only for a random output of the wrong size or for metadata of
another class. -/
theorem generateChallenges_wellFormed {n : Nat} (hs : lib.LawfulScalars n)
    (hmul : ∀ P k, (lib.g2Mul P k).isSome) (runtime : ChallengeRuntime) (fuel : Nat)
    (algorithm : SM9BLSAlgorithm G2) (ext : DHTDynamicChallengeRequestExt G1 G2)
    (publicParams : DHTDynamicPublicParams G1 G2) (hfile : ext.fileId ≠ [])
    (hpub : ext.userPublicParams = some publicParams) (hstore : ext.stateStore = true)
    (blockCount : SizeT) (hcount : w.resolveBlockCount ext = .ok blockCount) (hz : blockCount ≠ 0)
    (hregistered : ∀ i, 1 ≤ i → i ≤ blockCount → w.Registered ext.fileId i)
    (outcome : Except Exception (Option (DHTDynamicChallenges G2)))
    (h : w.generateChallenges lib runtime fuel (some algorithm) (.typed ext) = some outcome) :
    (∃ challenges count, outcome = .ok (some challenges) ∧
        w.WellFormedChallenge lib n ext.fileId publicParams.y blockCount count challenges ∧
        1 ≤ count ∧ count ≤ blockCount ∧
        (ext.challengeCount ≠ 0 →
          count.toNat = min ext.challengeCount.toNat blockCount.toNat) ∧
        (ext.challengeCount = 0 → count = (runtime.rng.uniform 1 blockCount
          (runtime.rng.seeded (ext.rngSeed runtime.entropy))).1)) ∨
      (¬ RandomSized algorithm.random ∧
        (outcome = .error .coefficientGeneration ∨ outcome = .error .blindScalarGeneration)) ∨
      ∃ i, 1 ≤ i ∧ i ≤ blockCount ∧ w.hasForeignMetadata ext.fileId i = true ∧
        outcome = .error (.challengeNotVersioned i) := by
  have hhas : w.hasFile ext.fileId = true := by
    obtain ⟨r, hr⟩ := hregistered 1 (UInt64.le_refl 1) (one_le_iff.mpr hz)
    exact hasFile_of_entry (getBlockMetadata_eq_ok.mp hr)
  simp only [generateChallenges, BasePtr.cast, List.isEmpty_iff, hfile, hpub, hstore, hhas, hcount,
    if_false, Bool.not_true, Bool.false_eq_true, Option.map_eq_some_iff] at h
  obtain ⟨drawn, hblocks, rfl⟩ := h
  rcases challengeBlocks_cases hblocks with ⟨hzero, _⟩ | ⟨picked, _, hselect, hbuild⟩
  · exact absurd hzero hz
  obtain ⟨hnodup, hlength⟩ := selectIndices_nodup hselect
  -- the hash set is walked in some order
  have hperm := runtime.setOrder_perm picked
  have hrange := (setOrder_selectIndices hz hselect).2
  rcases buildChallenges_outcome hs hmul
    (fun i hi => hregistered i (hrange i hi).1 (hrange i hi).2) hbuild with
    ⟨challenges, rfl, hscalars, hdrawn, htotal⟩ | ⟨hsized, he | he⟩ | ⟨i, hi, hforeign, rfl⟩
  · let s := runtime.rng.seeded (ext.rngSeed runtime.entropy)
    refine Or.inl ⟨challenges, (resolveCount runtime.rng ext.challengeCount blockCount s).1, rfl,
      ⟨hscalars, ?_, fun item hitem => ?_, ?_, hdrawn.blind, hdrawn.metadata, htotal⟩,
      one_le_resolveCount ext.challengeCount hz s, resolveCount_le ext.challengeCount hz s,
      fun hrequested => resolveCount_requested hrequested blockCount s, fun hzero => ?_⟩
    · rw [← hlength, ← hperm.length_eq, ← hdrawn.indices, List.length_map]
    · exact hrange _ (hdrawn.indices ▸ List.mem_map_of_mem hitem)
    · rw [hdrawn.indices]
      exact hperm.nodup_iff.mpr hnodup
    · rw [resolveCount, if_neg (not_not_intro hzero)]
  · exact Or.inr (Or.inl ⟨hsized, Or.inl (by rw [he]; rfl)⟩)
  · exact Or.inr (Or.inl ⟨hsized, Or.inr (by rw [he]; rfl)⟩)
  · exact Or.inr (Or.inr ⟨i, (hrange i hi).1, (hrange i hi).2, hforeign, rfl⟩)

/-- An algorithm object whose first two scalars add up to a multiple of five. -/
def redrawingAlgorithm : SM9BLSAlgorithm (ZMod 5) where
  keyPair := unitAlgorithm.keyPair
  random k := ([2, 3] : Bytes)[k]?.getD 1 :: List.replicate 31 0

/-- A challenge of two of three blocks. The second index comes up twice, and the first
coefficients add up to zero. -/
theorem generateChallenges_wellFormed_redrawn :
    let file : World Empty :=
      (empty defaultMetadataFactory (Stream'.const 0)).afterCalls byteSumLib updatedFile 3
    file.generateChallenges byteSumLib (.scripted [2, 2, 3]) 3 (some redrawingAlgorithm)
        (.typed (challengeRequest [7] 2)) = some (.ok (some updatedChallenge)) ∧
      file.WellFormedChallenge byteSumLib 5 [7] 1 3 2 updatedChallenge := by
  intro file
  refine ⟨rfl, ?_⟩
  have hregistered : ∀ i : SizeT, 1 ≤ i → i ≤ 3 → file.Registered [7] i := by
    refine forall_index fun k : Fin 3 => ?_
    match k with
    | 0 => exact ⟨0, rfl⟩
    | 1 => exact ⟨1, rfl⟩
    | 2 => exact ⟨2, rfl⟩
  rcases generateChallenges_wellFormed byteSumLib_lawfulScalars (fun _ _ => rfl)
    (.scripted [2, 2, 3]) 3 redrawingAlgorithm (challengeRequest [7] 2) unitPublicParams
    (by decide) rfl rfl 3 rfl (by decide) hregistered (.ok (some updatedChallenge)) rfl with
    ⟨challenges, count, hok, hformed, _, _, hrequested, _⟩ | ⟨_, he | he⟩ | ⟨_, _, _, _, he⟩
  · obtain rfl := Option.some.inj (Except.ok.inj hok)
    have htwo : count = 2 := UInt64.toNat_inj.mp (hrequested (by decide))
    rwa [htwo] at hformed
  · cases he
  · cases he
  · cases he

end World

end DHTDynamic
