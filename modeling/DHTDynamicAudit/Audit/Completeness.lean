import DHTDynamicAudit.Audit.Drawing
import DHTDynamicAudit.Audit.Equation
import DHTDynamicAudit.Audit.Runs

/-!
# Current tags pass the audit

A challenge whose tags were made at other indices is accepted exactly when the
weighted hash points agree. Tags that are current in content, metadata and index
therefore pass, however the store got there, except that the prover skips a tag
that happens to be the point at infinity.
-/

namespace DHTDynamic

open Core

variable {G1 G2 GT κ : Type}

/-- A block source over the whole file, from global index zero. -/
def fullFile (contents : List Bytes) : AuditBlockSource where
  globalBlockStartIndex := 0
  availableBlockCount := UInt64.ofNat contents.length
  block localIndex :=
    match contents[localIndex.toNat]? with
    | some block => .ok block
    | none => .error []

theorem fullFile_block {contents : List Bytes} {localIndex : SizeT} {block : Bytes} :
    (fullFile contents).block localIndex = .ok block ↔
      contents[localIndex.toNat]? = some block := by
  simp only [fullFile]
  cases contents[localIndex.toNat]? <;> simp

/-! ## Tags made at other indices -/

section Relocation

variable [AddCommGroup G1]

/-- `Σ ν_j H_j` with every hash point taken at another index. -/
def relocatedSum (lib : CoreLib G1 G2 GT) (fileId : Bytes) (old : SizeT → SizeT)
    (items : List ChallengeItem) : G1 :=
  (items.map fun item =>
    item.nu.value • computeBlockHash lib fileId (old item.blockIndex) item.metadata).sum

@[simp] theorem relocatedSum_id (lib : CoreLib G1 G2 GT) (fileId : Bytes)
    (items : List ChallengeItem) : relocatedSum lib fileId id items = hashSum lib fileId items :=
  rfl

/-- Every challenged tag is in its place, not at infinity, and was made over the block and its
metadata under the index `old`. -/
def TaggedUnder (lib : CoreLib G1 G2 GT) (a : SM9CryptoData) (u : G1) (fileId : Bytes)
    (old : SizeT → SizeT) (tags : InMemoryTags G1) (content : SizeT → Bytes)
    (items : List ChallengeItem) : Prop :=
  ∀ item ∈ items, item.blockIndex ≠ 0 ∧ ∃ sigma, sigma ≠ 0 ∧
    tags[item.blockIndex - 1]? = some (.dhtDynamic sigma) ∧
    sigma = honestSigma lib a u fileId (old item.blockIndex) item.metadata
      (content item.blockIndex)

variable [AddCommGroup G2] [CommGroup GT] {lib : CoreLib G1 G2 GT} {n : Nat}
  {e : G1 →+ G2 →+ Additive GT} {a : SM9CryptoData} {u : G1} {fileId : Bytes}
  {old : SizeT → SizeT} {tags : InMemoryTags G1} {content : SizeT → Bytes}
  {items : List ChallengeItem}

/-- The prover uses each of these tags. -/
theorem TaggedUnder.usableSigma (h : lib.Lawful n e)
    (htags : TaggedUnder lib a u fileId old tags content items) {item : ChallengeItem}
    (hitem : item ∈ items) : usableSigma lib tags item =
      some (honestSigma lib a u fileId (old item.blockIndex) item.metadata
        (content item.blockIndex)) := by
  obtain ⟨hz, sigma, hne, htag, rfl⟩ := htags item hitem
  have hinf : ¬ lib.g1IsInfinity _ = true := fun hinf => hne ((h.g1IsInfinity _).mp hinf)
  simp only [DHTDynamic.usableSigma, hz, if_false, htag, hinf, Bool.false_eq_true]

/-- Only the hash points at the old and the new index remain. -/
theorem TaggedUnder.deviationSum (h : lib.Lawful n e)
    (htags : TaggedUnder lib a u fileId old tags content items) :
    deviationSum lib a u fileId tags content items =
      a.value • (relocatedSum lib fileId old items - hashSum lib fileId items) := by
  induction items with
  | nil => simp [DHTDynamic.deviationSum, relocatedSum, hashSum]
  | cons item items ih =>
    have hrest : TaggedUnder lib a u fileId old tags content items :=
      fun other hother => htags other (List.mem_cons_of_mem item hother)
    have hused := htags.usableSigma h (List.mem_cons_self : item ∈ item :: items)
    have ih := ih hrest
    simp only [DHTDynamic.deviationSum, relocatedSum, hashSum, List.map_cons,
      List.sum_cons] at ih ⊢
    rw [ih, hused]
    simp only [expectedSigma, hused, honestSigma, Option.isSome_some, if_true, Option.getD_some]
    module

/-- The prover returns a proof. It is accepted if the weighted hash points at the old indices sum
to those at the new ones, and, unless a scalar or `g` vanishes, only then. -/
theorem TaggedUnder.audit (h : lib.Lawful n e) (hfile : fileId ≠ [])
    {publicParams : DHTDynamicPublicParams G1 G2} (hy : publicParams.y = a.value • publicParams.g)
    (hpk : publicParams.pk ≠ 0) {challenges : DHTDynamicChallenges G2}
    (hR : challenges.R = challenges.r.value • publicParams.y)
    (hitems : challenges.items ≠ []) {blocks : AuditBlockSource}
    (hread : Readable lib tags blocks content challenges.items)
    (htags : TaggedUnder lib a publicParams.u fileId old tags content challenges.items) :
    ∃ proves ext result,
      generateProofs lib ⟨.typed ⟨some tags, some blocks, some publicParams⟩,
        .typed challenges⟩ = .ok ⟨some proves, ext⟩ ∧
      verifyProofs lib ⟨[.typed challenges], [.typed proves],
        .typed ⟨fileId, some publicParams⟩⟩ = .ok result ∧
      (relocatedSum lib fileId old challenges.items = hashSum lib fileId challenges.items →
        result.ok = true) ∧
      (Nondegenerate e → ¬ n ∣ a.value → ¬ n ∣ challenges.r.value → publicParams.g ≠ 0 →
        result.ok = true →
          relocatedSum lib fileId old challenges.items = hashSum lib fileId challenges.items) := by
  obtain ⟨item, hitem⟩ := List.exists_mem_of_ne_nil _ hitems
  have hsome : ∃ item ∈ challenges.items, (DHTDynamic.usableSigma lib tags item).isSome :=
    ⟨item, hitem, by rw [htags.usableSigma h hitem, Option.isSome_some]⟩
  obtain ⟨proves, result, hprove, hverify, hok⟩ := h.audit_ok_iff hfile hy hpk hR hread hsome
  rw [htags.deviationSum h] at hok
  refine ⟨proves, _, result, hprove, hverify, fun heq => ?_, fun he ha hr hg haccept => ?_⟩
  · rw [hok, heq, sub_self, nsmul_zero, map_zero, AddMonoidHom.zero_apply]
  · have hzero := hok.mp haccept
    rw [pairing_eq_zero_iff h.prime h.card_g1 h.card_g2 he,
      nsmul_eq_zero_iff_of_prime h.prime h.card_g1,
      nsmul_eq_zero_iff_of_prime h.prime h.card_g2, or_iff_right ha, or_iff_right hr,
      or_iff_left hg] at hzero
    exact sub_eq_zero.mp hzero

end Relocation

/-! ## Current tags -/

namespace World

variable [MetadataClass κ]

/-- In a run of requests, `generateTags` returned this tag under this key pair for a block whose
content and metadata were what they are at the end. -/
def CurrentTag (lib : CoreLib G1 G2 GT) (w : World κ) (calls : List (AuditCall G1 G2))
    (fileId : Bytes) (publicParams : DHTDynamicPublicParams G1 G2)
    (privateParams : DHTDynamicPrivateParams) (contents : List Bytes) (blockIndex : SizeT)
    (tag : Tag G1) : Prop :=
  ∃ k input ext blocks returned,
    calls[k]? = some (.generateTags input) ∧
    input.ext = .typed ext ∧ ext.fileId = fileId ∧ ext.userPublicParams = some publicParams ∧
    ext.userPrivateParams = some privateParams ∧ input.blocks = some blocks ∧
    ((w.afterCalls lib calls k).generateTags lib input).1 = .ok (some returned) ∧
    returned[blockIndex - 1]? = some tag ∧
    (∃ block, contents[(blockIndex - 1).toNat]? = some block ∧
      blocks.block (blockIndex - 1 - blocks.globalBlockStartIndex) = .ok block) ∧
    (w.afterCalls lib calls (k + 1)).metadataAt fileId (blockIndex - 1) =
      (w.afterCalls lib calls calls.length).metadataAt fileId (blockIndex - 1)

variable {lib : CoreLib G1 G2 GT} {w : World κ} {calls : List (AuditCall G1 G2)}
  {fileId : Bytes} {publicParams : DHTDynamicPublicParams G1 G2}
  {privateParams : DHTDynamicPrivateParams} {contents : List Bytes} {blockIndex : SizeT}
  {tag : Tag G1}

/-- A current tag is that of the present block under the present metadata. -/
theorem CurrentTag.taggedAt (hw : w.WellFormed)
    (h : CurrentTag lib w calls fileId publicParams privateParams contents blockIndex tag) :
    ∃ metadata block sigma, (w.afterCalls lib calls calls.length).metadataAt fileId
        (blockIndex - 1) = some (.versioned metadata) ∧
      contents[(blockIndex - 1).toNat]? = some block ∧
      computeTag lib privateParams.a publicParams.u fileId blockIndex metadata block =
        .ok sigma ∧ tag = .dhtDynamic sigma := by
  obtain ⟨k, input, ext, blocks, returned, hcall, hext, rfl, hpub, hpriv, hblocks, hreturned,
    htag, ⟨block, hcontent, hblock⟩, hmeta⟩ := h
  obtain ⟨_, htags⟩ := generateTags_tagging lib (hw.afterCalls calls k) input
  obtain ⟨_, _, _, _, _, hacc, hcurrent⟩ := htags returned hreturned
  have hext' := hacc.ext
  rw [hext, BasePtr.cast] at hext'
  obtain rfl := Option.some.inj hext'
  obtain rfl := Option.some.inj hpub
  obtain rfl := Option.some.inj hpriv
  obtain rfl := Option.some.inj (hacc.source.symm.trans hblocks)
  obtain ⟨metadata, block', sigma, hm, hblock', hsigma, htag'⟩ := hcurrent _ tag htag
  obtain rfl := Except.ok.inj (hblock.symm.trans hblock')
  rw [sub_add_cancel] at hsigma
  refine ⟨metadata, block, sigma, ?_, hcontent, hsigma, htag'⟩
  rw [← hmeta, afterCalls, stateAfter_succ hcall]
  exact hm

variable [AddCommGroup G1] [AddCommGroup G2] [CommGroup GT] {n : Nat}
  {e : G1 →+ G2 →+ Additive GT}

/-- The audit of a run: keys from `generateKeys`, a challenge with an item drawn from the store
the run left, and a current tag, not at infinity, for every challenged block. The prover returns
a proof and the verifier accepts it. -/
theorem audit_complete (h : lib.Lawful n e) (keyFuel : Nat)
    (algorithm_ : Option (SM9BLSAlgorithm G2)) (keyInput : BasePtr DHTDynamicKeyGenRequestExt)
    (keys : GenerateKeysResult G1 G2)
    (hkeys : generateKeys lib keyFuel algorithm_ keyInput = some (.ok keys))
    (publicParams : DHTDynamicPublicParams G1 G2) (hpub : keys.publicParams = some publicParams)
    (privateParams : DHTDynamicPrivateParams) (hpriv : keys.privateParams = some privateParams)
    (hpk : ∀ algorithm keyPair pk, algorithm_ = some algorithm →
      algorithm.keyPair = .typed keyPair → keyPair.publicKeyPtr = .typed pk → pk ≠ 0)
    (factory : BlockMetadataFactory κ) (clock : Stream' UInt64) (calls : List (AuditCall G1 G2))
    (runtime : ChallengeRuntime) (fuel : Nat) (challenger : Option (SM9BLSAlgorithm G2))
    (ext : DHTDynamicChallengeRequestExt G1 G2) (hext : ext.userPublicParams = some publicParams)
    (challenges : DHTDynamicChallenges G2)
    (hchallenge : ((empty factory clock).afterCalls lib calls calls.length).generateChallenges lib
      runtime fuel challenger (.typed ext) = some (.ok (some challenges)))
    (hitems : challenges.items ≠ []) (tags : InMemoryTags G1) (contents : List Bytes)
    (hcurrent : ∀ item ∈ challenges.items, ∃ sigma, sigma ≠ 0 ∧
      tags[item.blockIndex - 1]? = some (.dhtDynamic sigma) ∧
      CurrentTag lib (empty factory clock) calls ext.fileId publicParams privateParams contents
        item.blockIndex (.dhtDynamic sigma)) :
    ∃ proves proofExt result,
      generateProofs lib ⟨.typed ⟨some tags, some (fullFile contents), some publicParams⟩,
        .typed challenges⟩ = .ok ⟨some proves, proofExt⟩ ∧
      verifyProofs lib ⟨[.typed challenges], [.typed proves],
        .typed ⟨ext.fileId, some publicParams⟩⟩ = .ok result ∧ result.ok = true := by
  obtain ⟨hy, algorithm, keyPair, halgorithm, hpair, hkey⟩ := generateKeys_keysFrom hkeys hpub hpriv
  obtain ⟨hfile, hR, hdrawn⟩ := generateChallenges_drawn hext hchallenge hitems
  rw [h.g2Mul, Option.some.injEq] at hy hR
  -- the block contents by 1-based index
  let content : SizeT → Bytes := fun i => (contents[(i - 1).toNat]?).getD []
  have hwf := WellFormed.empty factory clock
  have hcontent : ∀ item ∈ challenges.items,
      contents[(item.blockIndex - 1).toNat]? = some (content item.blockIndex) := by
    intro item hitem
    obtain ⟨sigma, _, _, hcur⟩ := hcurrent item hitem
    obtain ⟨_, block, _, _, hblock, _⟩ := hcur.taggedAt hwf
    simp only [content, hblock, Option.getD_some]
  have htags : TaggedUnder lib privateParams.a publicParams.u ext.fileId id tags content
      challenges.items := by
    intro item hitem
    obtain ⟨sigma, hne, htag, hcur⟩ := hcurrent item hitem
    obtain ⟨metadata, block, sigma', hm, hblock, hsigma, heq⟩ := hcur.taggedAt hwf
    obtain rfl := Tag.dhtDynamic.inj heq
    obtain rfl := BlockMetadata.versioned.inj
      (Option.some.inj (hm.symm.trans (hdrawn item hitem).2))
    obtain rfl := Option.some.inj (hblock.symm.trans (hcontent item hitem))
    rw [h.computeTag] at hsigma
    exact ⟨(hdrawn item hitem).1, sigma, hne, htag, (Except.ok.inj hsigma).symm⟩
  have hread : Readable lib tags (fullFile contents) content challenges.items :=
    fun item hitem _ => fullFile_block.mpr (hcontent item hitem)
  obtain ⟨proves, proofExt, result, hprove, hverify, hok, _⟩ := htags.audit h hfile hy.symm
    (hpk algorithm keyPair _ halgorithm hpair hkey) hR.symm hitems hread
  exact ⟨proves, proofExt, result, hprove, hverify, hok (relocatedSum_id _ _ _)⟩

end World

/-! ## Tagged blocks -/

theorem zmodLib_lawfulScalars (hash : Bytes → ZMod 5) : (zmodLib hash).LawfulScalars 5 where
  one_lt := by decide
  isZero _ := beq_iff_eq
  scalarDefault := rfl
  scalarAdd _ _ := ⟨_, rfl, rfl⟩

/-- An algorithm object whose public key and random scalars are all one. -/
def unitAlgorithm : SM9BLSAlgorithm (ZMod 5) where
  keyPair := .typed ⟨.typed (.ofUInt64 1), .typed 1⟩
  random := Stream'.const (1 :: List.replicate 31 0)

/-- The keys generated from it. -/
def unitPublicParams : DHTDynamicPublicParams (ZMod 5) (ZMod 5) := ⟨1, 1, 1, 1⟩

/-- The scalars behind them. -/
def unitPrivateParams : DHTDynamicPrivateParams := ⟨.ofUInt64 1, .ofUInt64 1⟩

/-- A request to tag a file under these keys. -/
def tagRequest (fileId : Bytes) (contents : List Bytes) (targets : Option (List SizeT)) :
    GenerateTagsRequest (ZMod 5) (ZMod 5) where
  ext := .typed ⟨fileId, some unitPublicParams, some unitPrivateParams, true⟩
  blocks := some (fullFile contents)
  targetBlockIndices := targets

/-- A request to maintain one block of the file `[7]`. -/
def maintainRequest (opType : MaintenanceOpType) (blockIndex : SizeT) : DHTDynamicMaintainExt :=
  ⟨[7], opType, [blockIndex], true, Nat.one_lt_two_pow (by decide)⟩

/-- A request for a challenge of so many of its blocks. -/
def challengeRequest (fileId : Bytes) (challengeCount : SizeT) :
    DHTDynamicChallengeRequestExt (ZMod 5) (ZMod 5) where
  fileId := fileId
  userPublicParams := some unitPublicParams
  challengeCount := challengeCount
  stateStore := true

/-- The residues modulo five with the sum of the bytes as the hash. -/
def byteSumLib : CoreLib (ZMod 5) (ZMod 5) (Multiplicative (ZMod 5)) :=
  zmodLib fun input => (input.map UInt8.toNat).sum

theorem byteSumLib_lawful : byteSumLib.Lawful 5 zmodPairing := zmodLib_lawful _

theorem byteSumLib_lawfulScalars : byteSumLib.LawfulScalars 5 := zmodLib_lawfulScalars _

/-- The challenge of the only block of a file. -/
def unitChallenge : DHTDynamicChallenges (ZMod 5) where
  R := 1
  r := .ofUInt64 1
  items := [{ blockIndex := 1, nu := .ofUInt64 1, metadata := ⟨1, 0⟩ }]
  blockCount := 1

namespace World

/-- The second of three tagged blocks gets a new content: it is updated and tagged again. -/
def updatedFile : List (AuditCall (ZMod 5) (ZMod 5)) :=
  [.generateTags (tagRequest [7] [[2], [2], [3]] none),
    .maintenance ⟨.typed (maintainRequest .Update 2)⟩,
    .generateTags (tagRequest [7] [[2], [5], [3]] (some [2]))]

/-- A challenge of its second and third block. -/
def updatedChallenge : DHTDynamicChallenges (ZMod 5) where
  R := 1
  r := .ofUInt64 1
  items := [{ blockIndex := 3, nu := .ofUInt64 1, metadata := ⟨1, 0⟩ },
    { blockIndex := 2, nu := .ofUInt64 1, metadata := ⟨2, 0⟩ }]
  blockCount := 3

/-- The audit of this file: keys, challenge, proof from old and new tags, and verification. -/
theorem audit_complete_after_update :
    let lib := byteSumLib
    let start : World Empty := empty defaultMetadataFactory (Stream'.const 0)
    let tags : InMemoryTags (ZMod 5) :=
      setAll ∅ [(0, .dhtDynamic 1), (1, .dhtDynamic 1), (2, .dhtDynamic 4)]
    (start.afterCalls lib updatedFile 3).generateChallenges lib (.scripted [2, 3]) 3
        (some unitAlgorithm) (.typed (challengeRequest [7] 2)) =
          some (.ok (some updatedChallenge)) ∧
      ∃ proves proofExt result,
        generateProofs lib ⟨.typed ⟨some tags, some (fullFile [[2], [5], [3]]),
          some unitPublicParams⟩, .typed updatedChallenge⟩ = .ok ⟨some proves, proofExt⟩ ∧
        verifyProofs lib ⟨[.typed updatedChallenge], [.typed proves],
          .typed ⟨[7], some unitPublicParams⟩⟩ = .ok result ∧ result.ok = true := by
  refine ⟨rfl, audit_complete (κ := Empty) byteSumLib_lawful 1 (some unitAlgorithm) (.typed {})
    ⟨true, "DHTDynamic key pair generated", some unitPublicParams, some unitPrivateParams⟩ rfl
    unitPublicParams rfl unitPrivateParams rfl ?_ defaultMetadataFactory (Stream'.const 0)
    updatedFile (.scripted [2, 3]) 3 (some unitAlgorithm) (challengeRequest [7] 2) rfl
    updatedChallenge rfl (by decide) _ _ ?_⟩
  · rintro _ _ _ ⟨rfl⟩ ⟨rfl⟩ ⟨rfl⟩
    decide
  · intro item hitem
    rcases List.mem_pair.mp hitem with rfl | rfl
    · exact ⟨4, by decide, rfl, 0, _, _, _, _, rfl, rfl, rfl, rfl, rfl, rfl, rfl, rfl,
        ⟨[3], rfl, rfl⟩, rfl⟩
    · exact ⟨1, by decide, rfl, 2, _, _, _, _, rfl, rfl, rfl, rfl, rfl, rfl, rfl, rfl,
        ⟨[5], rfl, rfl⟩, rfl⟩

/-- The only tag of this file is current, but its hash point cancels its content: the prover
skips the point at infinity and returns no proof. -/
theorem no_proof_for_current_tag_at_infinity :
    let lib := zmodLib fun input => input.length
    let start : World Empty := empty defaultMetadataFactory (Stream'.const 0)
    let calls : List (AuditCall (ZMod 5) (ZMod 5)) :=
      [.generateTags (tagRequest [7, 7] [[4]] none)]
    let tags : InMemoryTags (ZMod 5) := setAll ∅ [(0, .dhtDynamic 0)]
    generateKeys lib 1 (some unitAlgorithm) (.typed {}) = some (.ok
        ⟨true, "DHTDynamic key pair generated", some unitPublicParams, some unitPrivateParams⟩) ∧
      (start.afterCalls lib calls 1).generateChallenges lib (.scripted [1]) 2
        (some unitAlgorithm) (.typed (challengeRequest [7, 7] 1)) =
          some (.ok (some unitChallenge)) ∧
      (∀ item ∈ unitChallenge.items, tags[item.blockIndex - 1]? = some (.dhtDynamic 0) ∧
        CurrentTag lib start calls [7, 7] unitPublicParams unitPrivateParams [[4]]
          item.blockIndex (.dhtDynamic 0)) ∧
      generateProofs lib ⟨.typed ⟨some tags, some (fullFile [[4]]), some unitPublicParams⟩,
        .typed unitChallenge⟩ = .ok ⟨none, .null⟩ := by
  refine ⟨rfl, rfl, fun item hitem => ?_, rfl⟩
  obtain rfl := List.mem_singleton.mp hitem
  exact ⟨rfl, 0, _, _, _, _, rfl, rfl, rfl, rfl, rfl, rfl, rfl, rfl, ⟨[4], rfl, rfl⟩, rfl⟩

end World

end DHTDynamic
