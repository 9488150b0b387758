import DHTDynamicAudit.Store.Atomicity
import DHTDynamicAudit.Audit.ChallengeForm

/-!
# What a seed reproduces

The seed of a request feeds the index generator only. Two seeded challenges of
equal stores name the same blocks, but keys, coefficients and the blinding
scalar come from the cryptographic source, so no two runs need agree on them.
-/

namespace DHTDynamic

open Core

variable {G1 G2 GT κ : Type} {lib : CoreLib G1 G2 GT}

/-! ## The index generator -/

/-- More fuel does not change what is picked. -/
theorem pickIndices_mono {rng : IndexRng} {count blockCount : SizeT} {fuel fuel' : Nat}
    (hle : fuel ≤ fuel') {picked result : List SizeT} {s : rng.State}
    (h : pickIndices rng count blockCount fuel picked s = some result) :
    pickIndices rng count blockCount fuel' picked s = some result := by
  induction fuel generalizing fuel' picked s with
  | zero =>
    unfold pickIndices at h
    split_ifs at h with hmore
    cases fuel' with
    | zero => rw [pickIndices, if_neg hmore, h]
    | succ fuel' => rw [pickIndices, if_neg hmore, h]
  | succ fuel ih =>
    obtain ⟨fuel', rfl⟩ : ∃ m, fuel' = m + 1 := ⟨fuel' - 1, by omega⟩
    unfold pickIndices at h ⊢
    split_ifs at h ⊢ with hmore
    · exact ih (Nat.le_of_succ_le_succ hle) h
    · exact h

/-- Under a seed the selection does not depend on the entropy, nor on the fuel it ends with. -/
theorem selectIndices_unique {rng : IndexRng} {ext : DHTDynamicChallengeRequestExt G1 G2}
    (hpseudo : ext.usePseudoRandom = true) {seed : UInt64} (hseed : ext.seed = some seed)
    {entropy entropy' : UInt64} {blockCount : SizeT} {fuel fuel' : Nat}
    {picked picked' : List SizeT}
    (h : selectIndices rng fuel ext entropy blockCount = some picked)
    (h' : selectIndices rng fuel' ext entropy' blockCount = some picked') : picked = picked' := by
  have hrng : ∀ e, ext.rngSeed e = seed := by
    intro e
    rw [DHTDynamicChallengeRequestExt.rngSeed, hpseudo, hseed]
  rw [selectIndices, hrng] at h h'
  have hmax := pickIndices_mono (Nat.le_max_left fuel fuel') h
  have hmax' := pickIndices_mono (Nat.le_max_right fuel fuel') h'
  exact Option.some.inj (hmax.symm.trans hmax')

/-! ## The cryptographic source -/

/-- The bytes of the scalar two. -/
def twoBytes : Bytes := 2 :: List.replicate 31 0

/-- The scalar two. -/
def twoScalar : SM9CryptoData := .ofBytes twoBytes

/-- An output of the right size with a non-zero value ends a draw at once. -/
theorem drawScalar_cons {n : Nat} (hs : lib.LawfulScalars n) {bytes : Bytes}
    (hsize : bytes.length = SM9CryptoData.size) (hvalue : (SM9CryptoData.ofBytes bytes).value ≠ 0)
    (fuel : Nat) (random : Stream' Bytes) :
    drawScalar lib (fuel + 1) (Stream'.cons bytes random) =
      some (some (.ofBytes bytes), random) := by
  have hzero : ¬ lib.isZero (.ofBytes bytes) = true := fun h => hvalue ((hs.isZero _).mp h)
  rw [drawScalar, Stream'.head_cons, Stream'.tail_cons, if_neg (not_not_intro hsize),
    if_neg hzero]

theorem drawScalar_const {n : Nat} (hs : lib.LawfulScalars n) {bytes : Bytes}
    (hsize : bytes.length = SM9CryptoData.size) (hvalue : (SM9CryptoData.ofBytes bytes).value ≠ 0)
    (fuel : Nat) : drawScalar lib (fuel + 1) (Stream'.const bytes) =
      some (some (.ofBytes bytes), Stream'.const bytes) := by
  have hcons := drawScalar_cons hs hsize hvalue fuel (Stream'.const bytes)
  rwa [← Stream'.const_eq] at hcons

/-- Outputs of the right size with non-zero values are the coefficients, in order. -/
theorem drawItems_append {n : Nat} (hs : lib.LawfulScalars n) {outputs : List Bytes}
    (houtputs : ∀ bytes ∈ outputs, bytes.length = SM9CryptoData.size ∧
      (SM9CryptoData.ofBytes bytes).value ≠ 0) (picked : List SizeT)
    (hlength : outputs.length = picked.length) (fuel : Nat) (nu : SM9CryptoData) :
    ∃ nu' items, (∀ random, drawItems lib (fuel + 1) picked nu (outputs ++ₛ random) =
        some (.ok (nu', items), random)) ∧
      items.map ChallengeItem.nu = outputs.map SM9CryptoData.ofBytes := by
  induction picked generalizing outputs nu with
  | nil =>
    obtain rfl := List.length_eq_zero_iff.mp hlength
    exact ⟨nu, [], fun _ => rfl, rfl⟩
  | cons index rest ih =>
    obtain ⟨bytes, outputs, rfl⟩ : ∃ b bs, outputs = b :: bs :=
      List.exists_cons_of_length_eq_add_one hlength
    obtain ⟨⟨hsize, hvalue⟩, hrest⟩ := List.forall_mem_cons.mp houtputs
    obtain ⟨nu₁, hadd, _⟩ := hs.scalarAdd nu (.ofBytes bytes)
    obtain ⟨nu', items, hdraw, hnus⟩ := ih hrest (Nat.succ.inj hlength) nu₁
    refine ⟨nu', { blockIndex := index, nu := .ofBytes bytes } :: items, fun random => ?_, ?_⟩
    · rw [Stream'.cons_append_stream]
      simp only [drawItems, drawScalar_cons hs hsize hvalue, hadd, deref_some, hdraw]
    · rw [List.map_cons, List.map_cons, hnus]

/-- One or two completes any sum to one that does not vanish modulo `n`. -/
theorem exists_coefficient {n : Nat} (hn : 1 < n) (sum : Nat) : ∃ bytes : Bytes,
    (bytes.length = SM9CryptoData.size ∧ (SM9CryptoData.ofBytes bytes).value ≠ 0) ∧
      ((SM9CryptoData.ofBytes bytes).value + sum) % n ≠ 0 := by
  by_cases hone : (1 + sum) % n = 0
  · refine ⟨twoBytes, by decide, ?_⟩
    have htwo : (2 + sum) % n = 1 := by
      rw [show 2 + sum = 1 + sum + 1 from by omega, Nat.add_mod, hone, Nat.zero_add, Nat.mod_mod,
        Nat.mod_eq_of_lt hn]
    rw [show (SM9CryptoData.ofBytes twoBytes).value = 2 from rfl, htwo]
    exact Nat.one_ne_zero
  · exact ⟨oneBytes, by decide, hone⟩

/-- Some outputs are accepted as the coefficients of any picked indices. -/
theorem exists_drawCoefficients {n : Nat} (hs : lib.LawfulScalars n) {picked : List SizeT}
    (hne : picked ≠ []) (fuel rounds : Nat) : ∃ (outputs : List Bytes) (items : List ChallengeItem),
      ∀ random, drawCoefficients lib picked (fuel + 1) (rounds + 1) (outputs ++ₛ random) =
        some (.ok items, random) := by
  obtain ⟨index, rest, rfl⟩ := List.exists_cons_of_ne_nil hne
  obtain ⟨first, hfirst, hsum⟩ := exists_coefficient hs.one_lt rest.length
  have houtputs : ∀ bytes ∈ first :: List.replicate rest.length oneBytes,
      bytes.length = SM9CryptoData.size ∧ (SM9CryptoData.ofBytes bytes).value ≠ 0 := by
    refine List.forall_mem_cons.mpr ⟨hfirst, fun bytes hbytes => ?_⟩
    obtain rfl := List.eq_of_mem_replicate hbytes
    decide
  obtain ⟨nu, items, hdraw, hnus⟩ := drawItems_append hs houtputs
    (index :: rest) (by simp) fuel lib.scalarDefault
  have hstart : lib.scalarDefault.value < n := by
    rw [hs.scalarDefault]
    exact Nat.zero_lt_of_lt hs.one_lt
  have hvalue := ((drawItems_nu hs hstart (hdraw (Stream'.const []))).1 nu items rfl).2
  have hnuSum : nuSum items = (SM9CryptoData.ofBytes first).value + rest.length := by
    have hone : (SM9CryptoData.ofBytes oneBytes).value = 1 := rfl
    have hvalues := congrArg (fun l => (l.map SM9CryptoData.value).sum) hnus
    simpa [nuSum, Function.comp_def, hone] using hvalues
  have hzero : ¬ lib.isZero nu = true := by
    rw [hs.isZero, hvalue, hs.scalarDefault, Nat.zero_add, hnuSum]
    exact hsum
  refine ⟨first :: List.replicate rest.length oneBytes, items, fun random => ?_⟩
  simp only [drawCoefficients, hdraw]
  exact if_neg hzero

/-! ## Keys -/

/-- Two key generations with this seed that both succeed return equal parameters, whatever the
keys and the random outputs of the two algorithm objects. -/
def KeysReproducible (lib : CoreLib G1 G2 GT) (seed : UInt64) : Prop :=
  ∀ (fuel : Nat) (algorithm algorithm' : SM9BLSAlgorithm G2)
    (result result' : GenerateKeysResult G1 G2),
    generateKeys lib fuel (some algorithm) (.typed ⟨some seed⟩) = some (.ok result) →
    generateKeys lib fuel (some algorithm') (.typed ⟨some seed⟩) = some (.ok result') →
    result.ok = true → result'.ok = true →
    result.publicParams = result'.publicParams ∧ result.privateParams = result'.privateParams

/-- An algorithm object with a key pair, all of whose random scalars are the same. -/
def constantAlgorithm (pk : G2) (bytes : Bytes) : SM9BLSAlgorithm G2 :=
  ⟨.typed ⟨.typed oneScalar, .typed pk⟩, Stream'.const bytes⟩

/-- A source that repeats one non-zero scalar makes keys with it as the signing scalar. -/
theorem generateKeys_constant {n : Nat} (hs : lib.LawfulScalars n)
    (hg1 : ∀ P k, (lib.g1Mul P k).isSome) (hg2 : ∀ Q k, (lib.g2Mul Q k).isSome) (pk : G2)
    (bytes : Bytes) (hsize : bytes.length = SM9CryptoData.size)
    (hvalue : (SM9CryptoData.ofBytes bytes).value ≠ 0) (ext : DHTDynamicKeyGenRequestExt) :
    ∃ result, generateKeys lib 1 (some (constantAlgorithm pk bytes)) (.typed ext) =
        some (.ok result) ∧ result.ok = true ∧
      result.privateParams = some ⟨oneScalar, .ofBytes bytes⟩ := by
  have hdraw := drawScalar_const hs hsize hvalue 0
  obtain ⟨y, hy⟩ := Option.isSome_iff_exists.mp
    (hg2 (lib.g2FromScalar (.ofBytes bytes)) (.ofBytes bytes))
  obtain ⟨u, hu⟩ := Option.isSome_iff_exists.mp (hg1 lib.g1Generator (.ofBytes bytes))
  simp only [generateKeys, BasePtr.cast, deref_some, constantAlgorithm, generateTagKey, hdraw, hy,
    hu]
  exact ⟨_, rfl, rfl, rfl⟩

/-- The seed of a key request reproduces nothing. -/
theorem not_keysReproducible {n : Nat} (hs : lib.LawfulScalars n)
    (hg1 : ∀ P k, (lib.g1Mul P k).isSome) (hg2 : ∀ Q k, (lib.g2Mul Q k).isSome) (seed : UInt64) :
    ¬ KeysReproducible lib seed := by
  intro h
  obtain ⟨result, hrun, hok, hpriv⟩ := generateKeys_constant hs hg1 hg2 lib.g2Default
    oneBytes (by decide) (by decide) ⟨some seed⟩
  obtain ⟨result', hrun', hok', hpriv'⟩ := generateKeys_constant hs hg1 hg2 lib.g2Default
    twoBytes (by decide) (by decide) ⟨some seed⟩
  obtain ⟨_, hsame⟩ := h 1 _ _ _ _ hrun hrun' hok hok'
  rw [hpriv, hpriv'] at hsame
  have ha := congrArg DHTDynamicPrivateParams.a (Option.some.inj hsame)
  exact absurd ha (by decide)

/-! ## Challenges -/

namespace World

variable {w w' : World κ}

/-- Stores that show the same blocks count the same. -/
theorem SameBlocks.getBlockCount (h : w.SameBlocks w') (fileId : Bytes) :
    w'.getBlockCount fileId = w.getBlockCount fileId := by
  obtain ⟨hhas, hmetadata⟩ := h fileId
  unfold World.getBlockCount
  rw [hasFile, hasFile] at hhas
  cases hfile : w.files_[fileId]? with
  | none =>
    rw [hfile, Option.isSome_none, Option.isSome_eq_false_iff, Option.isNone_iff_eq_none] at hhas
    rw [hhas]
  | some files =>
    obtain ⟨files', hfile'⟩ := Option.isSome_iff_exists.mp
      (hhas.trans (by rw [hfile, Option.isSome_some]))
    have hsize : files'.size = files.size := by
      apply size_eq_of_isSome_eq
      intro key
      have hkey := congrArg Option.isSome (hmetadata key)
      rwa [metadataAt, metadataAt, Option.isSome_map, Option.isSome_map,
        entry_of_collection hfile, entry_of_collection hfile'] at hkey
    simp only [hfile', hsize]

theorem SameBlocks.resolveBlockCount (h : w.SameBlocks w')
    (ext : DHTDynamicChallengeRequestExt G1 G2) :
    w'.resolveBlockCount ext = w.resolveBlockCount ext := by
  rw [World.resolveBlockCount, World.resolveBlockCount, h.getBlockCount]

/-- The indices this run picks, in the order the hash set is walked. -/
def Picks (w : World κ) (runtime : ChallengeRuntime) (ext : DHTDynamicChallengeRequestExt G1 G2)
    (blockCount : SizeT) (picked : List SizeT) : Prop :=
  w.resolveBlockCount ext = .ok blockCount ∧ blockCount ≠ 0 ∧ ∃ fuel selected,
    selectIndices runtime.rng fuel ext runtime.entropy blockCount = some selected ∧
      picked = runtime.setOrder selected

/-- The request gets as far as drawing coefficients, and every block it picks can be challenged. -/
def DrawsChallenge (w : World κ) (runtime : ChallengeRuntime)
    (ext : DHTDynamicChallengeRequestExt G1 G2) : Prop :=
  ext.fileId ≠ [] ∧ ext.userPublicParams.isSome ∧ ext.stateStore = true ∧
    w.hasFile ext.fileId = true ∧ ∃ blockCount picked, w.Picks runtime ext blockCount picked ∧
      ∀ i ∈ picked, ∃ m, w.metadataAt ext.fileId (i - 1) = some (.versioned m)

/-- A returned challenge without a draw is the empty one of a missing or empty file; any other was
drawn over the picked indices. -/
theorem generateChallenges_picks {runtime : ChallengeRuntime} {fuel : Nat}
    {algorithm : SM9BLSAlgorithm G2} {ext : DHTDynamicChallengeRequestExt G1 G2}
    {challenges : DHTDynamicChallenges G2}
    (h : w.generateChallenges lib runtime fuel (some algorithm) (.typed ext) =
      some (.ok (some challenges))) :
    (w.hasFile ext.fileId = false ∧
        challenges = { R := lib.g2Default, r := lib.scalarDefault }) ∨
      (w.hasFile ext.fileId = true ∧ w.resolveBlockCount ext = .ok 0 ∧
        challenges = { R := lib.g2Default, r := lib.scalarDefault, blockCount := 0 }) ∨
      ∃ publicParams blockCount picked, ext.userPublicParams = some publicParams ∧
        w.DrawsChallenge runtime ext ∧ w.Picks runtime ext blockCount picked ∧
        w.Drawn lib ext.fileId publicParams.y picked challenges := by
  rcases generateChallenges_cases h with (hnone | he | ⟨_, _, he⟩) | ⟨hhas, hempty⟩ |
    ⟨publicParams, _, blockCount, drawn, hfile, hpub, hstore, hhas, hcount, _, hblocks, hdrawn⟩
  · cases hnone
  · cases he
  · cases he
  · exact Or.inl ⟨hhas, Option.some.inj (Except.ok.inj hempty)⟩
  cases drawn with
  | error e => cases hdrawn
  | ok drawn =>
    obtain rfl := Option.some.inj (Except.ok.inj hdrawn)
    rcases challengeBlocks_cases hblocks with ⟨rfl, hempty⟩ | ⟨selected, hz, hselect, hbuild⟩
    · exact Or.inr (Or.inl ⟨hhas, hcount, Except.ok.inj hempty⟩)
    have hpicks : w.Picks runtime ext blockCount (runtime.setOrder selected) :=
      ⟨hcount, hz, fuel, selected, hselect, rfl⟩
    rcases buildChallenges_cases hbuild with ⟨_, hok, hdrawn⟩ | (he | he | he) | ⟨_, _, _, _, he⟩
    · obtain rfl := Except.ok.inj hok
      refine Or.inr (Or.inr ⟨publicParams, blockCount, _, hpub, ⟨hfile, ?_, hstore, hhas,
        blockCount, _, hpicks, fun i hi => ?_⟩, hpicks, hdrawn⟩)
      · rw [hpub, Option.isSome_some]
      · rw [← hdrawn.indices] at hi
        obtain ⟨item, hitem, rfl⟩ := List.mem_map.mp hi
        exact ⟨item.metadata, hdrawn.metadata item hitem⟩
    · cases he
    · cases he
    · cases he
    · cases he

/-- Where a challenge can be drawn, the source can choose its blinding scalar. -/
theorem DrawsChallenge.exists_run {n : Nat} (hs : lib.LawfulScalars n)
    (hg2 : ∀ Q k, (lib.g2Mul Q k).isSome) {runtime : ChallengeRuntime}
    {ext : DHTDynamicChallengeRequestExt G1 G2} (h : w.DrawsChallenge runtime ext) :
    ∃ (fuel : Nat) (outputs : List Bytes), ∀ bytes : Bytes,
      bytes.length = SM9CryptoData.size → (SM9CryptoData.ofBytes bytes).value ≠ 0 →
      ∃ challenges, w.generateChallenges lib runtime fuel
          (some ⟨.null, outputs ++ₛ Stream'.const bytes⟩) (.typed ext) =
            some (.ok (some challenges)) ∧
        challenges.r = .ofBytes bytes := by
  obtain ⟨hfile, hparams, hstore, hhas, blockCount, picked, ⟨hcount, hz, fuel, selected, hselect,
    rfl⟩, hversioned⟩ := h
  obtain ⟨publicParams, hpub⟩ := Option.isSome_iff_exists.mp hparams
  have hne := (setOrder_selectIndices hz hselect).1
  have hselect' : selectIndices runtime.rng (fuel + 1) ext runtime.entropy blockCount =
      some selected := pickIndices_mono (Nat.le_succ fuel) hselect
  obtain ⟨outputs, items, hdraw⟩ := exists_drawCoefficients hs hne fuel fuel
  refine ⟨fuel + 1, outputs, fun bytes hsize hvalue => ?_⟩
  have hindices := drawCoefficients_indices (hdraw (Stream'.const bytes))
  have hattached : ∀ item ∈ items, ∃ item', w.attachMetadata ext.fileId item = .ok item' := by
    intro item hitem
    obtain ⟨m, hm⟩ := hversioned _ (hindices ▸ List.mem_map_of_mem hitem)
    exact ⟨_, attachMetadata_ok_iff.mpr ⟨m, hm, rfl⟩⟩
  obtain ⟨items', hitems⟩ := exists_mapM_ok hattached
  have hr := drawScalar_const hs hsize hvalue fuel
  obtain ⟨R, hR⟩ := Option.isSome_iff_exists.mp (hg2 publicParams.y (.ofBytes bytes))
  simp only [generateChallenges, BasePtr.cast, List.isEmpty_iff, hfile, hpub, hstore, hhas, hcount,
    if_false, Bool.not_true, Bool.false_eq_true, challengeBlocks, hz, hselect', buildChallenges,
    hdraw, hr, hitems, hR, deref_some]
  exact ⟨_, rfl, rfl⟩

/-- Two calls of this request, on this store and one that shows the same blocks, that both return
a challenge set return the same one, whatever the random sources put out. -/
def ChallengesReproducible (lib : CoreLib G1 G2 GT) (w : World κ) (runtime : ChallengeRuntime)
    (ext : DHTDynamicChallengeRequestExt G1 G2) : Prop :=
  ∀ (w' : World κ) (entropy' : UInt64) (fuel fuel' : Nat)
    (algorithm algorithm' : SM9BLSAlgorithm G2) (challenges challenges' : DHTDynamicChallenges G2),
    w.SameBlocks w' →
    w.generateChallenges lib runtime fuel (some algorithm) (.typed ext) =
      some (.ok (some challenges)) →
    w'.generateChallenges lib { runtime with entropy := entropy' } fuel' (some algorithm')
      (.typed ext) = some (.ok (some challenges')) →
    challenges = challenges'

/-- Two returned challenge sets of one seeded request: both empty and equal, or both drawn, over
the same indices. -/
theorem generateChallenges_indices {runtime : ChallengeRuntime} {entropy' : UInt64}
    {fuel fuel' : Nat} {algorithm algorithm' : SM9BLSAlgorithm G2}
    {ext : DHTDynamicChallengeRequestExt G1 G2} {challenges challenges' : DHTDynamicChallenges G2}
    (hpseudo : ext.usePseudoRandom = true) {seed : UInt64} (hseed : ext.seed = some seed)
    (hsame : w.SameBlocks w')
    (h : w.generateChallenges lib runtime fuel (some algorithm) (.typed ext) =
      some (.ok (some challenges)))
    (h' : w'.generateChallenges lib { runtime with entropy := entropy' } fuel' (some algorithm')
      (.typed ext) = some (.ok (some challenges'))) :
    challenges.items.map ChallengeItem.blockIndex =
        challenges'.items.map ChallengeItem.blockIndex ∧
      (challenges = challenges' ∨ w.DrawsChallenge runtime ext) := by
  have hhas := (hsame ext.fileId).1
  have hcount := hsame.resolveBlockCount ext
  rcases generateChallenges_picks h with ⟨hfile, rfl⟩ | ⟨hfile, hzero, rfl⟩ |
      ⟨publicParams, blockCount, picked, _, hdraws, hpicks, hdrawn⟩ <;>
    rcases generateChallenges_picks h' with ⟨hfile', rfl⟩ | ⟨hfile', hzero', rfl⟩ |
      ⟨publicParams', blockCount', picked', _, hdraws', hpicks', hdrawn'⟩
  · exact ⟨rfl, Or.inl rfl⟩
  · rw [hfile, hfile'] at hhas
    cases hhas
  · rw [hfile, hdraws'.2.2.2.1] at hhas
    cases hhas
  · rw [hfile, hfile'] at hhas
    cases hhas
  · exact ⟨rfl, Or.inl rfl⟩
  · rw [hzero, hpicks'.1] at hcount
    exact absurd (Except.ok.inj hcount) hpicks'.2.1
  · rw [hdraws.2.2.2.1, hfile'] at hhas
    cases hhas
  · rw [hzero', hpicks.1] at hcount
    exact absurd (Except.ok.inj hcount).symm hpicks.2.1
  · obtain ⟨hresolve, _, fuel₁, selected, hselect, rfl⟩ := hpicks
    obtain ⟨hresolve', _, fuel₂, selected', hselect', rfl⟩ := hpicks'
    rw [hresolve, hresolve'] at hcount
    obtain rfl := Except.ok.inj hcount
    obtain rfl := selectIndices_unique hpseudo hseed hselect hselect'
    exact ⟨hdrawn.indices.trans hdrawn'.indices.symm, Or.inr hdraws⟩

end World

/-- A seed never reproduces the keys, and it reproduces the challenge set of a request exactly when
none has to be drawn. -/
theorem seeded_reproducible_iff {n : Nat} (hs : lib.LawfulScalars n)
    (hg1 : ∀ P k, (lib.g1Mul P k).isSome) (hg2 : ∀ Q k, (lib.g2Mul Q k).isSome) (seed : UInt64) :
    ¬ KeysReproducible lib seed ∧
    ∀ (w : World κ) (runtime : ChallengeRuntime) (ext : DHTDynamicChallengeRequestExt G1 G2),
      ext.usePseudoRandom = true → ext.seed = some seed →
      (w.ChallengesReproducible lib runtime ext ↔ ¬ w.DrawsChallenge runtime ext) := by
  refine ⟨not_keysReproducible hs hg1 hg2 seed, fun w runtime ext hpseudo hseed => ⟨?_, ?_⟩⟩
  · intro h hdraws
    obtain ⟨fuel, outputs, hrun⟩ := hdraws.exists_run hs hg2
    obtain ⟨challenges, hone, hr⟩ := hrun oneBytes (by decide) (by decide)
    obtain ⟨challenges', htwo, hr'⟩ := hrun twoBytes (by decide) (by decide)
    have heq := h w runtime.entropy fuel fuel _ _ challenges challenges' (.refl w) hone htwo
    rw [heq, hr'] at hr
    exact absurd hr (by decide)
  · intro hnever w' entropy' fuel fuel' algorithm algorithm' challenges challenges' hsame h h'
    rcases (World.generateChallenges_indices hpseudo hseed hsame h h').2 with heq | hdraws
    · exact heq
    · exact absurd hdraws hnever

/-- A request for one block of a file, with a seed. -/
def seededRequest (seed : UInt64) : DHTDynamicChallengeRequestExt (ZMod 5) (ZMod 5) :=
  { singleRequest [7] unitPublicParams with seed := some seed }

/-- The rule for a challenge of a file of five blocks. -/
theorem seeded_reproducible_iff_five_blocks :
    let lib := zmodLib fun _ => 1
    ¬ KeysReproducible lib 42 ∧
      (World.fiveBlocks.ChallengesReproducible lib (.scripted [3]) (seededRequest 42) ↔
        ¬ World.fiveBlocks.DrawsChallenge (.scripted [3]) (seededRequest 42)) := by
  obtain ⟨hkeys, hchallenges⟩ := seeded_reproducible_iff (zmodLib_lawfulScalars fun _ => 1)
    (fun _ _ => rfl) (fun _ _ => rfl) 42
  exact ⟨hkeys, hchallenges World.fiveBlocks (.scripted [3]) (seededRequest 42) rfl rfl⟩

/-- Two key generations and two challenges under the seed 42, on a source of ones and on one of
twos: the indices agree, and nothing else that is drawn. -/
theorem seeded_runs_differ :
    let lib := zmodLib fun _ => 1
    let challenge (bytes : Bytes) := World.fiveBlocks.generateChallenges lib (.scripted [3]) 2
      (some ⟨.null, Stream'.const bytes⟩) (.typed (seededRequest 42))
    generateKeys lib 1 (some (constantAlgorithm 1 oneBytes)) (.typed ⟨some 42⟩) =
        some (.ok ⟨true, "DHTDynamic key pair generated", some ⟨1, 1, 1, 1⟩,
          some ⟨oneScalar, oneScalar⟩⟩) ∧
      generateKeys lib 1 (some (constantAlgorithm 1 twoBytes)) (.typed ⟨some 42⟩) =
        some (.ok ⟨true, "DHTDynamic key pair generated", some ⟨1, 2, 4, 2⟩,
          some ⟨oneScalar, twoScalar⟩⟩) ∧
      challenge oneBytes = some (.ok (some ⟨1, oneScalar, [⟨3, oneScalar, ⟨1, 0⟩⟩], 5⟩)) ∧
      challenge twoBytes = some (.ok (some ⟨2, twoScalar, [⟨3, twoScalar, ⟨1, 0⟩⟩], 5⟩)) :=
  ⟨rfl, rfl, rfl, rfl⟩

end DHTDynamic
