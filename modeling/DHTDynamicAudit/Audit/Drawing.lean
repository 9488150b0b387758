import DHTDynamicAudit.Core.Throw
import DHTDynamicAudit.Store.Objects
import DHTDynamicAudit.Strategy.Challenges

/-!
# What key generation and a challenge hand out

A key pair satisfies `y = [a]g`. A challenge with items names positive indices
in the range it was drawn from, carries the metadata of the store, and blinds
`y` by its own scalar.
-/

namespace DHTDynamic

open Core

variable {G1 G2 GT κ : Type} {lib : CoreLib G1 G2 GT}

/-! ## Keys -/

/-- The part of a key pair made from the algorithm's keys and that made from `a`. -/
structure KeysFrom (lib : CoreLib G1 G2 GT) (algorithm_ : Option (SM9BLSAlgorithm G2))
    (publicParams : DHTDynamicPublicParams G1 G2) (privateParams : DHTDynamicPrivateParams) :
    Prop where
  commitment : lib.g2Mul publicParams.g privateParams.a = some publicParams.y
  publicKey : ∃ algorithm keyPair, algorithm_ = some algorithm ∧
    algorithm.keyPair = .typed keyPair ∧ keyPair.publicKeyPtr = .typed publicParams.pk

theorem generateTagKey_spec {fuel : Nat} {random : Stream' Bytes} {sk : SM9CryptoData} {pk : G2}
    {result : GenerateKeysResult G1 G2}
    (h : generateTagKey lib fuel random sk pk = some (.ok result))
    {publicParams : DHTDynamicPublicParams G1 G2} (hpub : result.publicParams = some publicParams)
    {privateParams : DHTDynamicPrivateParams} (hpriv : result.privateParams = some privateParams) :
    publicParams.pk = pk ∧ lib.g2Mul publicParams.g privateParams.a = some publicParams.y := by
  unfold generateTagKey at h
  rcases ha : drawScalar lib fuel random with _ | ⟨_ | a, random₁⟩ <;> simp only [ha] at h
  · cases h
  · obtain rfl := Except.ok.inj (Option.some.inj h)
    cases hpub
  rcases hr : drawScalar lib fuel random₁ with _ | ⟨_ | r, random₂⟩ <;> simp only [hr] at h
  · cases h
  · obtain rfl := Except.ok.inj (Option.some.inj h)
    cases hpub
  cases hy : lib.g2Mul (lib.g2FromScalar r) a with
  | none =>
    simp only [hy, deref] at h
    cases h
  | some y =>
    simp only [hy, deref_some] at h
    rcases hr' : drawScalar lib fuel random₂ with _ | ⟨_ | r', random₃⟩ <;> simp only [hr'] at h
    · cases h
    · obtain rfl := Except.ok.inj (Option.some.inj h)
      cases hpub
    cases hu : lib.g1Mul lib.g1Generator r' with
    | none =>
      simp only [hu, deref] at h
      cases h
    | some u =>
      simp only [hu, deref_some] at h
      obtain rfl := Except.ok.inj (Option.some.inj h)
      obtain rfl := Option.some.inj hpub
      obtain rfl := Option.some.inj hpriv
      exact ⟨rfl, hy⟩

theorem generateKeys_keysFrom {fuel : Nat} {algorithm_ : Option (SM9BLSAlgorithm G2)}
    {input : BasePtr DHTDynamicKeyGenRequestExt} {result : GenerateKeysResult G1 G2}
    (h : generateKeys lib fuel algorithm_ input = some (.ok result))
    {publicParams : DHTDynamicPublicParams G1 G2} (hpub : result.publicParams = some publicParams)
    {privateParams : DHTDynamicPrivateParams} (hpriv : result.privateParams = some privateParams) :
    KeysFrom lib algorithm_ publicParams privateParams := by
  unfold generateKeys at h
  cases hinput : input.cast with
  | none =>
    simp only [hinput] at h
    obtain rfl := Except.ok.inj (Option.some.inj h)
    cases hpub
  | some _ =>
    cases halgorithm : algorithm_ with
    | none =>
      simp only [hinput, halgorithm, deref] at h
      cases h
    | some algorithm =>
      simp only [hinput, halgorithm, deref_some] at h
      cases hpair : algorithm.keyPair with
      | null =>
        simp only [hpair] at h
        obtain rfl := Except.ok.inj (Option.some.inj h)
        cases hpub
      | foreign =>
        simp only [hpair] at h
        obtain rfl := Except.ok.inj (Option.some.inj h)
        cases hpub
      | typed keyPair =>
        simp only [hpair] at h
        cases hsk : keyPair.privateKeyPtr.cast with
        | none =>
          simp only [hsk] at h
          obtain rfl := Except.ok.inj (Option.some.inj h)
          cases hpub
        | some sk =>
          cases hpk : keyPair.publicKeyPtr.cast with
          | none =>
            simp only [hsk, hpk] at h
            obtain rfl := Except.ok.inj (Option.some.inj h)
            cases hpub
          | some pk =>
            simp only [hsk, hpk] at h
            obtain ⟨rfl, hy⟩ := generateTagKey_spec h hpub hpriv
            exact ⟨hy, algorithm, keyPair, rfl, hpair, BasePtr.cast_eq_some.mp hpk⟩

/-! ## Indices and coefficients -/

section Picks

variable {rng : IndexRng} {count blockCount : SizeT} {fuel : Nat} {picked : List SizeT}
  {s : rng.State} {result : List SizeT}

/-- What every new index keeps holds of the indices picked, and they are as many as asked for. -/
theorem pickIndices_preserves {P : List SizeT → Prop}
    (hP : ∀ picked s, picked.length < count.toNat → (rng.uniform 1 blockCount s).1 ∉ picked →
      P picked → P ((rng.uniform 1 blockCount s).1 :: picked))
    (h : pickIndices rng count blockCount fuel picked s = some result) (hpicked : P picked) :
    P result ∧ count.toNat ≤ result.length := by
  induction fuel generalizing picked s with
  | zero =>
    unfold pickIndices at h
    split_ifs at h with hmore
    obtain rfl := Option.some.inj h
    exact ⟨hpicked, Nat.not_lt.mp hmore⟩
  | succ fuel ih =>
    unfold pickIndices at h
    split_ifs at h with hmore
    · apply ih h
      split_ifs with hdup
      · exact hpicked
      · exact hP picked s hmore hdup hpicked
    · obtain rfl := Option.some.inj h
      exact ⟨hpicked, Nat.not_lt.mp hmore⟩

/-- Every index picked lies in the range of the distribution. -/
theorem pickIndices_mem (hpos : 1 ≤ blockCount)
    (h : pickIndices rng count blockCount fuel picked s = some result)
    (hin : ∀ i ∈ picked, 1 ≤ i ∧ i ≤ blockCount) : ∀ i ∈ result, 1 ≤ i ∧ i ≤ blockCount :=
  (pickIndices_preserves (P := fun l => ∀ i ∈ l, 1 ≤ i ∧ i ≤ blockCount)
    (fun _ s _ _ hl => List.forall_mem_cons.mpr ⟨rng.uniform_mem 1 blockCount s hpos, hl⟩)
    h hin).1

/-- The loop ends with at least as many indices as it was asked for. -/
theorem le_length_pickIndices (h : pickIndices rng count blockCount fuel picked s = some result) :
    count.toNat ≤ result.length :=
  (pickIndices_preserves (P := fun _ => True) (fun _ _ _ _ _ => trivial) h trivial).2

end Picks

/-- A request never asks for zero blocks of a file that has some. -/
theorem one_le_resolveCount {rng : IndexRng} (challengeCount : SizeT) {blockCount : SizeT}
    (hz : blockCount ≠ 0) (s : rng.State) :
    1 ≤ (resolveCount rng challengeCount blockCount s).1 := by
  unfold resolveCount
  split_ifs with hcount
  · show 1 ≤ if challengeCount ≤ blockCount then challengeCount else blockCount
    split_ifs
    · exact one_le_iff.mpr hcount
    · exact one_le_iff.mpr hz
  · exact (rng.uniform_mem 1 blockCount s (one_le_iff.mpr hz)).1

theorem selectIndices_mem {rng : IndexRng} {fuel : Nat}
    {ext : DHTDynamicChallengeRequestExt G1 G2} {entropy : UInt64} {blockCount : SizeT}
    (hz : blockCount ≠ 0) {picked : List SizeT}
    (h : selectIndices rng fuel ext entropy blockCount = some picked) :
    ∀ i ∈ picked, 1 ≤ i ∧ i ≤ blockCount :=
  pickIndices_mem (one_le_iff.mpr hz) h fun _ hi => nomatch hi

theorem selectIndices_ne_nil {rng : IndexRng} {fuel : Nat}
    {ext : DHTDynamicChallengeRequestExt G1 G2} {entropy : UInt64} {blockCount : SizeT}
    (hz : blockCount ≠ 0) {picked : List SizeT}
    (h : selectIndices rng fuel ext entropy blockCount = some picked) : picked ≠ [] := by
  have hlength := le_length_pickIndices h
  have hone := UInt64.le_iff_toNat_le.mp
    (one_le_resolveCount ext.challengeCount hz
      (rng.seeded (ext.rngSeed entropy)))
  rintro rfl
  exact absurd (Nat.le_trans hone hlength) (by decide)

/-- A generator that follows a script as long as its entries are in range. -/
def IndexRng.scripted (script : List SizeT) : IndexRng where
  State := List SizeT
  seeded _ := script
  uniform lo hi s :=
    match s with
    | [] => (lo, [])
    | i :: rest => (if lo ≤ i ∧ i ≤ hi then i else lo, rest)
  uniform_mem := by
    intro lo hi s hle
    cases s with
    | nil => exact ⟨UInt64.le_refl lo, hle⟩
    | cons i rest =>
      simp only
      split_ifs with hi'
      · exact hi'
      · exact ⟨UInt64.le_refl lo, hle⟩

/-- A run on such a generator, with the picked indices walked as they are. -/
def ChallengeRuntime.scripted (script : List SizeT) : ChallengeRuntime where
  rng := .scripted script
  entropy := 0
  setOrder picked := picked
  setOrder_perm _ := .refl _

/-- What drawing an item can do: throw for the scalar or its sum, or go on with the rest. -/
theorem drawItems_cons_cases {fuel : Nat} {index : SizeT} {rest : List SizeT} {nu : SM9CryptoData}
    {random random' : Stream' Bytes}
    {result : Except Exception (SM9CryptoData × List ChallengeItem)}
    (h : drawItems lib fuel (index :: rest) nu random = some (result, random')) :
    (drawScalar lib fuel random = some (none, random') ∧
        result = .error .coefficientGeneration) ∨
      ∃ v next, drawScalar lib fuel random = some (some v, next) ∧
        ((lib.scalarAdd nu v = none ∧ result = .error .nullDereference) ∨
          ∃ sum, lib.scalarAdd nu v = some sum ∧ ∃ drawn,
            drawItems lib fuel rest sum next = some (drawn, random') ∧
              result = drawn.map fun drawn =>
                (drawn.1, { blockIndex := index, nu := v } :: drawn.2)) := by
  unfold drawItems at h
  rcases hv : drawScalar lib fuel random with _ | ⟨_ | v, next⟩ <;> simp only [hv] at h
  · cases h
  · obtain ⟨rfl, rfl⟩ := Prod.mk.inj (Option.some.inj h)
    exact Or.inl ⟨rfl, rfl⟩
  refine Or.inr ⟨v, next, rfl, ?_⟩
  cases hsum : lib.scalarAdd nu v with
  | none =>
    simp only [hsum, deref] at h
    obtain ⟨rfl, rfl⟩ := Prod.mk.inj (Option.some.inj h)
    exact Or.inl ⟨rfl, rfl⟩
  | some sum =>
    simp only [hsum, deref_some] at h
    rcases hrest : drawItems lib fuel rest sum next with _ | ⟨_ | ⟨nu', items⟩, last⟩ <;>
      simp only [hrest] at h
    · cases h
    · obtain ⟨rfl, rfl⟩ := Prod.mk.inj (Option.some.inj h)
      exact Or.inr ⟨sum, rfl, _, hrest, rfl⟩
    · obtain ⟨rfl, rfl⟩ := Prod.mk.inj (Option.some.inj h)
      exact Or.inr ⟨sum, rfl, _, hrest, rfl⟩

/-- Drawing items either names the picked indices in order or throws. -/
theorem drawItems_cases {fuel : Nat} {picked : List SizeT} {nu : SM9CryptoData}
    {random random' : Stream' Bytes}
    {result : Except Exception (SM9CryptoData × List ChallengeItem)}
    (h : drawItems lib fuel picked nu random = some (result, random')) :
    (∃ nu' items, result = .ok (nu', items) ∧ items.map ChallengeItem.blockIndex = picked) ∨
      result = .error .coefficientGeneration ∨ result = .error .nullDereference := by
  induction picked generalizing nu random random' result with
  | nil =>
    obtain ⟨rfl, _⟩ := Prod.mk.inj (Option.some.inj h)
    exact Or.inl ⟨nu, [], rfl, rfl⟩
  | cons index rest ih =>
    rcases drawItems_cons_cases h with
      ⟨_, rfl⟩ | ⟨v, next, _, ⟨_, rfl⟩ | ⟨sum, _, drawn, hrest, rfl⟩⟩
    · exact Or.inr (Or.inl rfl)
    · exact Or.inr (Or.inr rfl)
    · rcases ih hrest with ⟨nu', items, rfl, hitems⟩ | rfl | rfl
      · exact Or.inl ⟨nu', _, rfl, congrArg (index :: ·) hitems⟩
      · exact Or.inr (Or.inl rfl)
      · exact Or.inr (Or.inr rfl)

/-- The result is that of the last round: its exception, or its items under a sum that is not
zero. What every completed round keeps of the random source holds where the last one starts. -/
theorem drawCoefficients_last {picked : List SizeT} {fuel rounds : Nat}
    {random random' : Stream' Bytes} {result : Except Exception (List ChallengeItem)}
    {P : Stream' Bytes → Prop}
    (hP : ∀ start drawn next, P start →
      drawItems lib fuel picked lib.scalarDefault start = some (.ok drawn, next) → P next)
    (hrandom : P random)
    (h : drawCoefficients lib picked fuel rounds random = some (result, random')) :
    ∃ start, P start ∧
      ((∃ e, drawItems lib fuel picked lib.scalarDefault start = some (.error e, random') ∧
          result = .error e) ∨
        ∃ nu items, drawItems lib fuel picked lib.scalarDefault start =
          some (.ok (nu, items), random') ∧ ¬ lib.isZero nu = true ∧ result = .ok items) := by
  induction rounds generalizing random with
  | zero => cases h
  | succ rounds ih =>
    unfold drawCoefficients at h
    rcases hitems : drawItems lib fuel picked lib.scalarDefault random with
      _ | ⟨e | ⟨nu, items⟩, next⟩ <;> simp only [hitems] at h
    · cases h
    · obtain ⟨rfl, rfl⟩ := Prod.mk.inj (Option.some.inj h)
      exact ⟨random, hrandom, Or.inl ⟨e, hitems, rfl⟩⟩
    · split_ifs at h with hzero
      · -- the sum vanished: everything is drawn again
        exact ih (hP random _ next hrandom hitems) h
      · obtain ⟨rfl, rfl⟩ := Prod.mk.inj (Option.some.inj h)
        exact ⟨random, hrandom, Or.inr ⟨nu, items, hitems, hzero, rfl⟩⟩

theorem drawCoefficients_cases {picked : List SizeT} {fuel rounds : Nat}
    {random random' : Stream' Bytes} {result : Except Exception (List ChallengeItem)}
    (h : drawCoefficients lib picked fuel rounds random = some (result, random')) :
    (∃ items, result = .ok items ∧ items.map ChallengeItem.blockIndex = picked) ∨
      result = .error .coefficientGeneration ∨ result = .error .nullDereference := by
  obtain ⟨start, -, ⟨e, hitems, rfl⟩ | ⟨nu, items, hitems, _, rfl⟩⟩ :=
    drawCoefficients_last (P := fun _ => True) (fun _ _ _ _ _ => trivial) trivial h
  · rcases drawItems_cases hitems with ⟨_, _, hok, _⟩ | he | he
    · cases hok
    · exact Or.inr (Or.inl (by rw [Except.error.inj he]))
    · exact Or.inr (Or.inr (by rw [Except.error.inj he]))
  · rcases drawItems_cases hitems with ⟨_, _, hok, hindices⟩ | he | he
    · obtain ⟨_, rfl⟩ := Prod.mk.inj (Except.ok.inj hok)
      exact Or.inl ⟨_, rfl, hindices⟩
    · cases he
    · cases he

/-- Coefficients that are returned are those of the picked indices. -/
theorem drawCoefficients_indices {picked : List SizeT} {fuel rounds : Nat}
    {random random' : Stream' Bytes} {items : List ChallengeItem}
    (h : drawCoefficients lib picked fuel rounds random = some (.ok items, random')) :
    items.map ChallengeItem.blockIndex = picked := by
  rcases drawCoefficients_cases h with ⟨_, hok, hindices⟩ | he | he
  · rwa [Except.ok.inj hok]
  · cases he
  · cases he

/-! ## A request with known draws -/

/-- Scalars as the strategy relies on them: tests read the stored value and sums reduce it. -/
structure CoreLib.LawfulScalars (lib : CoreLib G1 G2 GT) (n : Nat) : Prop where
  one_lt : 1 < n
  isZero : ∀ x, lib.isZero x = true ↔ x.value = 0
  scalarDefault : lib.scalarDefault.value = 0
  scalarAdd : ∀ x y, ∃ z, lib.scalarAdd x y = some z ∧ z.value = (x.value + y.value) % n

/-- The bytes of the scalar one. -/
def oneBytes : Bytes := 1 :: List.replicate 31 0

/-- The scalar one. -/
def oneScalar : SM9CryptoData := .ofBytes oneBytes

@[simp] theorem oneScalar_value : oneScalar.value = 1 := rfl

/-- An algorithm object all of whose random scalars are one. -/
def onesAlgorithm : SM9BLSAlgorithm G2 := ⟨.null, Stream'.const oneBytes⟩

/-- A request for one block of a file. -/
def singleRequest (fileId : Bytes) (publicParams : DHTDynamicPublicParams G1 G2) :
    DHTDynamicChallengeRequestExt G1 G2 where
  fileId := fileId
  userPublicParams := some publicParams
  challengeCount := 1
  stateStore := true

theorem CoreLib.LawfulScalars.drawScalar_ones {n : Nat} (hs : lib.LawfulScalars n) (fuel : Nat) :
    drawScalar lib (fuel + 1) (Stream'.const oneBytes) =
      some (some oneScalar, Stream'.const oneBytes) := by
  have hone : ¬ lib.isZero oneScalar = true := by
    rw [hs.isZero, oneScalar_value]
    exact Nat.one_ne_zero
  have hhead : (Stream'.const oneBytes).head = oneBytes := rfl
  simp only [drawScalar, hhead]
  rw [if_neg (by decide)]
  exact if_neg hone

/-- Drawing coefficients for one index takes one pass. -/
theorem CoreLib.LawfulScalars.drawCoefficients_single {n : Nat} (hs : lib.LawfulScalars n)
    (i : SizeT) (fuel rounds : Nat) :
    drawCoefficients lib [i] (fuel + 1) (rounds + 1) (Stream'.const oneBytes) =
      some (.ok [{ blockIndex := i, nu := oneScalar }], Stream'.const oneBytes) := by
  obtain ⟨nu, hadd, hnu⟩ := hs.scalarAdd lib.scalarDefault oneScalar
  have hnonzero : ¬ lib.isZero nu = true := by
    rw [hs.isZero, hnu, hs.scalarDefault, Nat.zero_add, oneScalar_value,
      Nat.mod_eq_of_lt hs.one_lt]
    exact Nat.one_ne_zero
  simp only [drawCoefficients, drawItems, hs.drawScalar_ones, hadd, deref_some, hnonzero,
    Bool.false_eq_true, if_false]

/-! ## The challenge -/

namespace World

variable {w : World κ} {fileId : Bytes}

/-- An object is copied exactly if it is of the versioned class. -/
theorem copyMetadata_ok_iff {item item' : ChallengeItem} {r : Ref} :
    w.copyMetadata item r = .ok item' ↔
      ∃ m, w.heap r = .versioned m ∧ item' = { item with metadata := m } := by
  unfold copyMetadata
  cases hheap : w.heap r with
  | custom m => simp only [BlockMetadata.asVersioned_custom, reduceCtorEq, false_and, exists_false]
  | versioned m =>
    simp only [BlockMetadata.asVersioned_versioned, Except.ok.injEq, BlockMetadata.versioned.injEq,
      exists_eq_left', eq_comm]

/-- Metadata is attached exactly where the store holds metadata of the versioned class. -/
theorem attachMetadata_ok_iff {item item' : ChallengeItem} :
    w.attachMetadata fileId item = .ok item' ↔ ∃ m,
      w.metadataAt fileId (item.blockIndex - 1) = some (.versioned m) ∧
        item' = { item with metadata := m } := by
  simp only [attachMetadata, bind_eq_ok, getBlockMetadata_eq_ok, copyMetadata_ok_iff,
    metadataAt_eq_some]
  constructor
  · rintro ⟨r, hr, m, hm, rfl⟩
    exact ⟨m, ⟨r, hr, hm⟩, rfl⟩
  · rintro ⟨m, ⟨r, hr, hm⟩, rfl⟩
    exact ⟨r, hr, m, hm, rfl⟩

/-- Attaching metadata keeps the indices and coefficients and reads every record from the
store. -/
theorem mapM_attachMetadata {items items' : List ChallengeItem}
    (h : items.mapM (w.attachMetadata fileId) = .ok items') :
    items'.map ChallengeItem.blockIndex = items.map ChallengeItem.blockIndex ∧
      items'.map ChallengeItem.nu = items.map ChallengeItem.nu ∧
      ∀ item ∈ items',
        w.metadataAt fileId (item.blockIndex - 1) = some (.versioned item.metadata) := by
  induction mapM_eq_ok_iff.mp h with
  | nil => exact ⟨rfl, rfl, List.forall_mem_nil _⟩
  | cons hitem hrest ih =>
    obtain ⟨m, hm, rfl⟩ := attachMetadata_ok_iff.mp hitem
    obtain ⟨hindices, hnus, hall⟩ := ih (mapM_eq_ok_iff.mpr hrest)
    exact ⟨congrArg (List.cons _) hindices, congrArg (List.cons _) hnus,
      List.forall_mem_cons.mpr ⟨hm, hall⟩⟩

/-- What a challenge built over picked indices holds. -/
structure Drawn (lib : CoreLib G1 G2 GT) (w : World κ) (fileId : Bytes) (y : G2)
    (picked : List SizeT) (challenges : DHTDynamicChallenges G2) : Prop where
  blind : lib.g2Mul y challenges.r = some challenges.R
  indices : challenges.items.map ChallengeItem.blockIndex = picked
  metadata : ∀ item ∈ challenges.items,
    w.metadataAt fileId (item.blockIndex - 1) = some (.versioned item.metadata)

/-- The part after the picks throws in a draw, or its result is the metadata and the blinding
attached to what was drawn. -/
theorem buildChallenges_steps {fuel : Nat} {y : G2} {blockCount : SizeT} {picked : List SizeT}
    {random : Stream' Bytes} {result : Except Exception (DHTDynamicChallenges G2)}
    (h : w.buildChallenges lib fuel fileId y blockCount picked random = some result) :
    (∃ e next, drawCoefficients lib picked fuel fuel random = some (.error e, next) ∧
        result = .error e) ∨
      ∃ items next, drawCoefficients lib picked fuel fuel random = some (.ok items, next) ∧
        ((∃ last, drawScalar lib fuel next = some (none, last) ∧
            result = .error .blindScalarGeneration) ∨
          ∃ r last, drawScalar lib fuel next = some (some r, last) ∧
            ((∃ e, items.mapM (w.attachMetadata fileId) = .error e ∧ result = .error e) ∨
              ∃ items', items.mapM (w.attachMetadata fileId) = .ok items' ∧
                result = (deref (lib.g2Mul y r)).map fun R => ⟨R, r, items', blockCount⟩)) := by
  unfold buildChallenges at h
  rcases hcoefficients : drawCoefficients lib picked fuel fuel random with
    _ | ⟨e | items, next⟩ <;> simp only [hcoefficients] at h
  · cases h
  · exact Or.inl ⟨e, next, rfl, (Option.some.inj h).symm⟩
  refine Or.inr ⟨items, next, rfl, ?_⟩
  rcases hr : drawScalar lib fuel next with _ | ⟨_ | r, last⟩ <;> simp only [hr] at h
  · cases h
  · exact Or.inl ⟨last, rfl, (Option.some.inj h).symm⟩
  refine Or.inr ⟨r, last, rfl, ?_⟩
  obtain rfl := Option.some.inj h
  cases hitems : items.mapM (w.attachMetadata fileId) with
  | error e => exact Or.inl ⟨e, rfl, rfl⟩
  | ok items' =>
    refine Or.inr ⟨items', rfl, ?_⟩
    cases lib.g2Mul y r <;> rfl

/-- The part after the picks either builds a challenge over them or throws: in a draw, or where
the store has no usable metadata for a picked block. -/
theorem buildChallenges_cases {fuel : Nat} {y : G2} {blockCount : SizeT} {picked : List SizeT}
    {random : Stream' Bytes} {result : Except Exception (DHTDynamicChallenges G2)}
    (h : w.buildChallenges lib fuel fileId y blockCount picked random = some result) :
    (∃ challenges, result = .ok challenges ∧ w.Drawn lib fileId y picked challenges) ∨
      (result = .error .coefficientGeneration ∨ result = .error .blindScalarGeneration ∨
        result = .error .nullDereference) ∨
      ∃ (items : List ChallengeItem) (e : Exception),
        items.map ChallengeItem.blockIndex = picked ∧
        items.mapM (w.attachMetadata fileId) = .error e ∧ result = .error e := by
  rcases buildChallenges_steps h with ⟨e, next, hcoefficients, rfl⟩ |
    ⟨items, next, hcoefficients, ⟨_, _, rfl⟩ | ⟨r, _, _, ⟨e, hitems, rfl⟩ | ⟨items', hitems, rfl⟩⟩⟩
  · rcases drawCoefficients_cases hcoefficients with ⟨_, hok, _⟩ | he | he
    · cases hok
    · exact Or.inr (Or.inl (Or.inl (by rw [Except.error.inj he])))
    · exact Or.inr (Or.inl (Or.inr (Or.inr (by rw [Except.error.inj he]))))
  · exact Or.inr (Or.inl (Or.inr (Or.inl rfl)))
  · exact Or.inr (Or.inr ⟨items, e, drawCoefficients_indices hcoefficients, hitems, rfl⟩)
  · cases hR : lib.g2Mul y r with
    | none => exact Or.inr (Or.inl (Or.inr (Or.inr rfl)))
    | some R =>
      have hpicked := drawCoefficients_indices hcoefficients
      obtain ⟨hindices, _, hmetadata⟩ := mapM_attachMetadata hitems
      exact Or.inl ⟨_, rfl, hR, hindices.trans hpicked, hmetadata⟩

/-- The order the hash set is walked in is of indices in range, at least one. -/
theorem setOrder_selectIndices {runtime : ChallengeRuntime} {fuel : Nat}
    {ext : DHTDynamicChallengeRequestExt G1 G2} {blockCount : SizeT} (hz : blockCount ≠ 0)
    {selected : List SizeT}
    (h : selectIndices runtime.rng fuel ext runtime.entropy blockCount = some selected) :
    runtime.setOrder selected ≠ [] ∧
      ∀ i ∈ runtime.setOrder selected, 1 ≤ i ∧ i ≤ blockCount := by
  have hperm := runtime.setOrder_perm selected
  constructor
  · intro hnil
    rw [hnil] at hperm
    exact selectIndices_ne_nil hz h hperm.nil_eq.symm
  · exact fun i hi => selectIndices_mem hz h i (hperm.mem_iff.mp hi)

theorem challengeBlocks_cases {runtime : ChallengeRuntime} {fuel : Nat}
    {algorithm : SM9BLSAlgorithm G2} {ext : DHTDynamicChallengeRequestExt G1 G2} {y : G2}
    {blockCount : SizeT} {result : Except Exception (DHTDynamicChallenges G2)}
    (h : w.challengeBlocks lib runtime fuel algorithm ext y blockCount = some result) :
    (blockCount = 0 ∧ result =
        .ok { R := lib.g2Default, r := lib.scalarDefault, blockCount := blockCount }) ∨
      ∃ selected, blockCount ≠ 0 ∧
        selectIndices runtime.rng fuel ext runtime.entropy blockCount = some selected ∧
        w.buildChallenges lib fuel ext.fileId y blockCount (runtime.setOrder selected)
          algorithm.random = some result := by
  unfold challengeBlocks at h
  split_ifs at h with hz
  · exact Or.inl ⟨hz, (Option.some.inj h).symm⟩
  cases hselect : selectIndices runtime.rng fuel ext runtime.entropy blockCount with
  | none =>
    simp only [hselect] at h
    cases h
  | some selected =>
    simp only [hselect] at h
    exact Or.inr ⟨selected, hz, rfl, h⟩

/-- The outcomes of a request with public parameters: a guard stops it, or it challenges the
blocks of the file. -/
theorem generateChallenges_cases {runtime : ChallengeRuntime} {fuel : Nat}
    {algorithm_ : Option (SM9BLSAlgorithm G2)} {ext : DHTDynamicChallengeRequestExt G1 G2}
    {result : Except Exception (Option (DHTDynamicChallenges G2))}
    (h : w.generateChallenges lib runtime fuel algorithm_ (.typed ext) = some result) :
    (result = .ok none ∨ result = .error .algorithmMissing ∨
        ∃ e, w.resolveBlockCount ext = .error e ∧ result = .error e) ∨
      (w.hasFile ext.fileId = false ∧
        result = .ok (some { R := lib.g2Default, r := lib.scalarDefault })) ∨
      ∃ publicParams algorithm blockCount drawn, ext.fileId ≠ [] ∧
        ext.userPublicParams = some publicParams ∧ ext.stateStore = true ∧
        w.hasFile ext.fileId = true ∧ w.resolveBlockCount ext = .ok blockCount ∧
        algorithm_ = some algorithm ∧
        w.challengeBlocks lib runtime fuel algorithm ext publicParams.y blockCount = some drawn ∧
        result = drawn.map some := by
  cases hpub : ext.userPublicParams with
  | none =>
    simp only [generateChallenges, BasePtr.cast, hpub, ite_self] at h
    exact Or.inl (Or.inl (Option.some.inj h).symm)
  | some publicParams =>
    simp only [generateChallenges, BasePtr.cast, hpub, List.isEmpty_iff] at h
    split_ifs at h with hfile hstore hhas
    · exact Or.inl (Or.inl (Option.some.inj h).symm)
    · exact Or.inl (Or.inl (Option.some.inj h).symm)
    · exact Or.inr (Or.inl ⟨by simpa using hhas, (Option.some.inj h).symm⟩)
    have hstore' : ext.stateStore = true := by simpa using hstore
    have hhas' : w.hasFile ext.fileId = true := by simpa using hhas
    cases algorithm_ with
    | none => exact Or.inl (Or.inr (Or.inl (Option.some.inj h).symm))
    | some algorithm =>
      cases hcount : w.resolveBlockCount ext with
      | error e =>
        simp only [hcount] at h
        exact Or.inl (Or.inr (Or.inr ⟨e, rfl, (Option.some.inj h).symm⟩))
      | ok blockCount =>
        simp only [hcount, Option.map_eq_some_iff] at h
        obtain ⟨drawn, hdrawn, hresult⟩ := h
        exact Or.inr (Or.inr ⟨publicParams, algorithm, blockCount, drawn, hfile, rfl, hstore',
          hhas', rfl, rfl, hdrawn, hresult.symm⟩)

/-- A challenge without items is of a file the store does not have or that has no block. Any
other is built over indices picked from the file's range. -/
theorem generateChallenges_ok {runtime : ChallengeRuntime} {fuel : Nat}
    {algorithm_ : Option (SM9BLSAlgorithm G2)} {ext : DHTDynamicChallengeRequestExt G1 G2}
    {publicParams : DHTDynamicPublicParams G1 G2} {challenges : DHTDynamicChallenges G2}
    (hpub : ext.userPublicParams = some publicParams)
    (h : w.generateChallenges lib runtime fuel algorithm_ (.typed ext) =
      some (.ok (some challenges))) :
    (challenges.items = [] ∧
      (w.hasFile ext.fileId = false ∨ w.resolveBlockCount ext = .ok 0)) ∨
    (ext.fileId ≠ [] ∧ ∃ picked, picked ≠ [] ∧ (∀ i ∈ picked, i ≠ 0) ∧
      w.Drawn lib ext.fileId publicParams.y picked challenges) := by
  rcases generateChallenges_cases h with (hnone | herror | ⟨e, _, herror⟩) |
    ⟨hfile, hempty⟩ |
    ⟨publicParams', algorithm, blockCount, drawn, hfile, hpub', _, _, hcount, _, hblocks, hdrawn⟩
  · cases hnone
  · cases herror
  · cases herror
  · obtain rfl := Option.some.inj (Except.ok.inj hempty)
    exact Or.inl ⟨rfl, Or.inl hfile⟩
  obtain rfl := Option.some.inj (hpub.symm.trans hpub')
  cases drawn with
  | error e => cases hdrawn
  | ok drawn =>
    obtain rfl := Option.some.inj (Except.ok.inj hdrawn)
    rcases challengeBlocks_cases hblocks with ⟨rfl, hempty⟩ | ⟨selected, hz, hselect, hbuild⟩
    · obtain rfl := Except.ok.inj hempty
      exact Or.inl ⟨rfl, Or.inr hcount⟩
    obtain ⟨hne, hrange⟩ := setOrder_selectIndices hz hselect
    refine Or.inr ⟨hfile, _, hne, fun i hi => one_le_iff.mp (hrange i hi).1, ?_⟩
    rcases buildChallenges_cases hbuild with ⟨_, hok, hdrawn⟩ | (he | he | he) | ⟨_, _, _, _, he⟩
    · rwa [Except.ok.inj hok]
    · cases he
    · cases he
    · cases he
    · cases he

/-- A challenge with an item names a file and carries what the store holds of it. -/
theorem generateChallenges_drawn {runtime : ChallengeRuntime} {fuel : Nat}
    {algorithm_ : Option (SM9BLSAlgorithm G2)} {ext : DHTDynamicChallengeRequestExt G1 G2}
    {publicParams : DHTDynamicPublicParams G1 G2} {challenges : DHTDynamicChallenges G2}
    (hpub : ext.userPublicParams = some publicParams)
    (h : w.generateChallenges lib runtime fuel algorithm_ (.typed ext) =
      some (.ok (some challenges))) (hitems : challenges.items ≠ []) :
    ext.fileId ≠ [] ∧ lib.g2Mul publicParams.y challenges.r = some challenges.R ∧
      ∀ item ∈ challenges.items, item.blockIndex ≠ 0 ∧
        w.metadataAt ext.fileId (item.blockIndex - 1) = some (.versioned item.metadata) := by
  rcases generateChallenges_ok hpub h with ⟨hnil, _⟩ | ⟨hfile, picked, _, hpositive, hdrawn⟩
  · exact absurd hnil hitems
  · refine ⟨hfile, hdrawn.blind, fun item hitem => ⟨hpositive _ ?_, hdrawn.metadata item hitem⟩⟩
    rw [← hdrawn.indices]
    exact List.mem_map_of_mem hitem

/-! ## A challenge of one chosen block -/

theorem selectIndices_single (fileId : Bytes) (publicParams : DHTDynamicPublicParams G1 G2)
    {blockCount i : SizeT} (hi : 1 ≤ i ∧ i ≤ blockCount) :
    selectIndices (ChallengeRuntime.scripted [i]).rng 2 (singleRequest fileId publicParams)
      (ChallengeRuntime.scripted [i]).entropy blockCount = some [i] := by
  have hmin : (if (1 : SizeT) ≤ blockCount then (1 : SizeT) else blockCount) = 1 :=
    if_pos (UInt64.le_trans hi.1 hi.2)
  have hresolve : resolveCount (.scripted [i]) 1 blockCount [i] = (1, [i]) :=
    congrArg (·, [i]) hmin
  show pickIndices (.scripted [i]) (resolveCount (.scripted [i]) 1 blockCount [i]).1 blockCount
    2 [] (resolveCount (.scripted [i]) 1 blockCount [i]).2 = some [i]
  rw [hresolve]
  simp [pickIndices, IndexRng.scripted, hi]

/-- With the right draw the request challenges any given index in range, and reads its
metadata. -/
theorem generateChallenges_single {n : Nat} (hs : lib.LawfulScalars n) (hfile : fileId ≠ [])
    (publicParams : DHTDynamicPublicParams G1 G2) {blockCount : SizeT}
    (hcount : w.getBlockCount fileId = .ok blockCount) {i : SizeT}
    (hi : 1 ≤ i ∧ i ≤ blockCount) :
    w.generateChallenges lib (.scripted [i]) 2 (some onesAlgorithm)
      (.typed (singleRequest fileId publicParams)) =
        some (do
          let item ← w.attachMetadata fileId { blockIndex := i, nu := oneScalar }
          let R ← deref (lib.g2Mul publicParams.y oneScalar)
          return some { R := R, r := oneScalar, items := [item], blockCount := blockCount }) := by
  have hhas : w.hasFile fileId = true := by
    rw [hasFile]
    unfold getBlockCount at hcount
    cases hcollection : w.files_[fileId]? with
    | none =>
      rw [hcollection] at hcount
      cases hcount
    | some collection => rfl
  have hz := one_le_iff.mp (UInt64.le_trans hi.1 hi.2)
  have hbuild : w.buildChallenges lib 2 fileId publicParams.y blockCount [i]
      (Stream'.const oneBytes) = some (do
        let items ← [{ blockIndex := i, nu := oneScalar }].mapM (w.attachMetadata fileId)
        let R ← deref (lib.g2Mul publicParams.y oneScalar)
        return { R := R, r := oneScalar, items := items, blockCount := blockCount }) := by
    simp only [buildChallenges, hs.drawCoefficients_single, hs.drawScalar_ones]
  have hblocks : w.challengeBlocks lib (.scripted [i]) 2 onesAlgorithm
      (singleRequest fileId publicParams) publicParams.y blockCount =
        w.buildChallenges lib 2 fileId publicParams.y blockCount [i] (Stream'.const oneBytes) := by
    simp only [challengeBlocks, if_neg hz, selectIndices_single fileId publicParams hi]
    rfl
  have hresolve : w.resolveBlockCount (singleRequest fileId publicParams) = .ok blockCount := hcount
  simp only [generateChallenges, BasePtr.cast, singleRequest, List.isEmpty_iff, hfile, hhas,
    if_false, Bool.not_true, Bool.false_eq_true] at hresolve hblocks ⊢
  simp only [hresolve, hblocks, hbuild, List.mapM_cons, List.mapM_nil]
  cases w.attachMetadata fileId { blockIndex := i, nu := oneScalar } with
  | error e => rfl
  | ok item => cases deref (lib.g2Mul publicParams.y oneScalar) <;> rfl

end World

end DHTDynamic
