import DHTDynamicAudit.Audit.Aggregation
import DHTDynamicAudit.Core.Differences
import DHTDynamicAudit.Strategy.Artifacts

/-!
# Tags of two contents under one metadata

An owner who tags a block twice, over different contents and without an update
in between, makes two tags with one hash point. Their difference is a multiple
of `[a]u`. With the operators of tags alone it takes every tag made under the
same keys over to any other content, and such tags pass the audit.
-/

namespace DHTDynamic

open Core

variable {G1 G2 GT κ : Type}

/-! ## Tags carried over -/

section Operators

variable (lib : TagLib G1 G2 GT)

/-- `tag + (known - known') * k`, by the operators of tags. -/
def carryOver (known : G1) (known' : Tag G1) (k : SM9CryptoData) (sigma : G1) :
    Except TagException (Tag G1) := do
  let difference ← DHTDynamicTag.assign (← DHTDynamicTag.sub lib known known')
  DHTDynamicTag.add lib sigma (← DHTDynamicTag.mul lib difference (.typed k))

/-- The scalar that leads from the tag of `block` to that of `block'`, when the known tags were
made over `first` and `second`. -/
def carryScalar (n : Nat) (first second block block' : Bytes) : SM9CryptoData where
  value := (slope n (accumulateBlockSegmentsScalar lib.toCoreLib first).value
    (accumulateBlockSegmentsScalar lib.toCoreLib second).value
    (accumulateBlockSegmentsScalar lib.toCoreLib block).value
    (accumulateBlockSegmentsScalar lib.toCoreLib block').value).val % 2 ^ 256
  value_lt := Nat.mod_lt _ (by decide)

/-- A tag of a container carried over; a tag of another class stays. -/
def carryTag (n : Nat) (known : G1) (known' : Tag G1) (first second block block' : Bytes)
    (tag : Tag G1) : Tag G1 :=
  match tag with
  | .foreign => .foreign
  | .dhtDynamic sigma =>
    match carryOver lib known known' (carryScalar lib n first second block block') sigma with
    | .ok carried => carried
    | .error _ => tag

/-- The tags of a file carried over from some contents to others. -/
def carryTags (n : Nat) (known : G1) (known' : Tag G1) (first second : Bytes)
    (contents replaced : List Bytes) (tags : InMemoryTags G1) : InMemoryTags G1 :=
  tags.map fun key tag => carryTag lib n known known' first second
    ((contents[key.toNat]?).getD []) ((replaced[key.toNat]?).getD []) tag

end Operators

section Points

variable [AddCommGroup G1]

/-- An honest tag is a point on the line of `[a]u` through `[a]H`. -/
theorem honestSigma_eq (lib : CoreLib G1 G2 GT) (a : SM9CryptoData) (u : G1) (fileId : Bytes)
    (blockIndex : SizeT) (metadata : VersionedBlockMetadata) (block : Bytes) :
    honestSigma lib a u fileId blockIndex metadata block =
      a.value • computeBlockHash lib fileId blockIndex metadata +
        (accumulateBlockSegmentsScalar lib block).value • a.value • u := by
  rw [honestSigma, smul_add, smul_comm]

variable [AddCommGroup G2] [CommGroup GT]

/-- What the operators of tags rely on beyond the stages. -/
structure TagLib.LawfulTags (lib : TagLib G1 G2 GT) : Prop where
  g1Sub : ∀ P Q, lib.g1Sub P Q = some (P - Q)
  g1Eq : ∀ P Q, lib.g1Eq P Q = true ↔ P = Q

variable {lib : TagLib G1 G2 GT} {n : Nat} {e : G1 →+ G2 →+ Additive GT} {a : SM9CryptoData}
  {u : G1} {fileId fileId' : Bytes} {blockIndex blockIndex' : SizeT}
  {metadata metadata' : VersionedBlockMetadata} {first second : Bytes}

/-- The operators throw nothing and compute the point. -/
theorem TagLib.LawfulTags.carryOver (hl : lib.LawfulTags) (h : lib.toCoreLib.Lawful n e)
    (known known' : G1) (k : SM9CryptoData) (sigma : G1) :
    carryOver lib known (.dhtDynamic known') k sigma =
      .ok (.dhtDynamic (sigma + k.value • (known - known'))) := by
  simp only [DHTDynamic.carryOver, DHTDynamicTag.sub, hl.g1Sub, DHTDynamicTag.ofPoint,
    DHTDynamicTag.mul, BasePtr.cast, h.g1Mul, DHTDynamicTag.add, h.g1Add, DHTDynamicTag.assign]
  rfl

theorem cast_carryScalar (h : lib.toCoreLib.Lawful n e) (hn : n ≤ 2 ^ 256)
    (first second block block' : Bytes) :
    ((carryScalar lib n first second block block').value : ZMod n) =
      slope n (accumulateBlockSegmentsScalar lib.toCoreLib first).value
        (accumulateBlockSegmentsScalar lib.toCoreLib second).value
        (accumulateBlockSegmentsScalar lib.toCoreLib block).value
        (accumulateBlockSegmentsScalar lib.toCoreLib block').value := by
  have : NeZero n := ⟨h.prime.ne_zero⟩
  simp only [carryScalar]
  rw [Nat.mod_eq_of_lt (Nat.lt_of_lt_of_le (ZMod.val_lt _) hn), ZMod.natCast_zmod_val]

/-- Two tags under one metadata that differ carry any other tag over to any content. -/
theorem CoreLib.Lawful.carryOver (h : lib.toCoreLib.Lawful n e) (hl : lib.LawfulTags)
    (hn : n ≤ 2 ^ 256)
    (hne : honestSigma lib.toCoreLib a u fileId blockIndex metadata first ≠
      honestSigma lib.toCoreLib a u fileId blockIndex metadata second) (block block' : Bytes) :
    carryOver lib (honestSigma lib.toCoreLib a u fileId blockIndex metadata first)
        (.dhtDynamic (honestSigma lib.toCoreLib a u fileId blockIndex metadata second))
        (carryScalar lib n first second block block')
        (honestSigma lib.toCoreLib a u fileId' blockIndex' metadata' block) =
      .ok (.dhtDynamic (honestSigma lib.toCoreLib a u fileId' blockIndex' metadata' block')) := by
  simp only [honestSigma_eq] at hne ⊢
  rw [ne_eq, add_nsmul_eq_iff h.prime h.card_g1, not_or] at hne
  rw [hl.carryOver h, add_nsmul_sub h.prime h.card_g1 _ _ _ hne.1
    (cast_carryScalar h hn first second block block')]

end Points

/-! ## Audits of replaced contents -/

variable [MetadataClass κ] [AddCommGroup G1] [AddCommGroup G2] [CommGroup GT]
  {lib : TagLib G1 G2 GT} {n : Nat} {e : G1 →+ G2 →+ Additive GT}
  {publicParams : DHTDynamicPublicParams G1 G2} {privateParams : DHTDynamicPrivateParams}

namespace World

/-- Two current tags of one block over different contents carry every tag of a challenge over to
replaced contents, and the challenge is answered with them. -/
theorem carryTags_pass (h : lib.toCoreLib.Lawful n e) (hl : lib.LawfulTags) (hn : n ≤ 2 ^ 256)
    (hy : publicParams.y = privateParams.a.value • publicParams.g) (hpk : publicParams.pk ≠ 0)
    {fileId : Bytes} {blockIndex : SizeT} {metadata : VersionedBlockMetadata}
    {first second : Bytes}
    (hne : honestSigma lib.toCoreLib privateParams.a publicParams.u fileId blockIndex metadata
        first ≠
      honestSigma lib.toCoreLib privateParams.a publicParams.u fileId blockIndex metadata second)
    {w : World κ} (hw : w.WellFormed) {calls : List (AuditCall G1 G2)}
    {runtime : ChallengeRuntime} {fuel : Nat} {challenger : Option (SM9BLSAlgorithm G2)}
    {ext : DHTDynamicChallengeRequestExt G1 G2} (hext : ext.userPublicParams = some publicParams)
    {challenges : DHTDynamicChallenges G2}
    (hchallenge : (w.afterCalls lib.toCoreLib calls calls.length).generateChallenges lib.toCoreLib
      runtime fuel challenger (.typed ext) = some (.ok (some challenges)))
    (hitems : challenges.items ≠ []) {tags : InMemoryTags G1} {contents replaced : List Bytes}
    (hlength : replaced.length = contents.length)
    (hcurrent : ∀ item ∈ challenges.items, ∃ sigma,
      tags[item.blockIndex - 1]? = some (.dhtDynamic sigma) ∧
      CurrentTag lib.toCoreLib w calls ext.fileId publicParams privateParams contents
        item.blockIndex (.dhtDynamic sigma)) :
    let carried := carryTags lib n
      (honestSigma lib.toCoreLib privateParams.a publicParams.u fileId blockIndex metadata first)
      (.dhtDynamic (honestSigma lib.toCoreLib privateParams.a publicParams.u fileId blockIndex
        metadata second)) first second contents replaced tags
    (∀ item ∈ challenges.items, carried[item.blockIndex - 1]? ≠ some (.dhtDynamic 0)) →
      ∃ proves, Proves lib.toCoreLib publicParams carried (fullFile replaced) challenges
          (some proves) ∧
        Accepts lib.toCoreLib publicParams ext.fileId challenges proves := by
  intro carried hinfinity
  obtain ⟨hfile, hR, hdrawn⟩ := generateChallenges_drawn hext hchallenge hitems
  rw [h.g2Mul, Option.some.injEq] at hR
  -- the replaced contents by 1-based index
  let content : SizeT → Bytes := fun i => (replaced[(i - 1).toNat]?).getD []
  have hcontent : ∀ item ∈ challenges.items,
      replaced[(item.blockIndex - 1).toNat]? = some (content item.blockIndex) := by
    intro item hitem
    obtain ⟨_, _, hcur⟩ := hcurrent item hitem
    obtain ⟨_, block, _, _, hblock, _⟩ := hcur.taggedAt hw
    obtain ⟨hlt, _⟩ := List.getElem?_eq_some_iff.mp hblock
    simp only [content, List.getElem?_eq_getElem (hlength ▸ hlt), Option.getD_some]
  have htags : TaggedUnder lib.toCoreLib privateParams.a publicParams.u ext.fileId id carried
      content challenges.items := by
    intro item hitem
    obtain ⟨sigma, htag, hcur⟩ := hcurrent item hitem
    obtain ⟨metadata', block, sigma', hm, hblock, hsigma, heq⟩ := hcur.taggedAt hw
    obtain rfl := Tag.dhtDynamic.inj heq
    obtain rfl := BlockMetadata.versioned.inj
      (Option.some.inj (hm.symm.trans (hdrawn item hitem).2))
    rw [h.computeTag] at hsigma
    obtain rfl := Except.ok.inj hsigma
    have hcarried : carried[item.blockIndex - 1]? = some (.dhtDynamic (honestSigma lib.toCoreLib
        privateParams.a publicParams.u ext.fileId item.blockIndex item.metadata
        (content item.blockIndex))) := by
      simp only [carried, carryTags, Std.ExtTreeMap.getElem?_map, htag, Option.map_some, hblock,
        hcontent item hitem, Option.getD_some, carryTag, h.carryOver hl hn hne]
    exact ⟨(hdrawn item hitem).1, _, fun hzero => hinfinity item hitem (hzero ▸ hcarried),
      hcarried, rfl⟩
  have hread : Readable lib.toCoreLib carried (fullFile replaced) content challenges.items :=
    fun item hitem _ => fullFile_block.mpr (hcontent item hitem)
  obtain ⟨proves, proofExt, result, hprove, hverify, hok, _⟩ :=
    htags.audit h hfile hy hpk hR.symm hitems hread
  exact ⟨proves, ⟨proofExt, hprove⟩, result, hverify, hok (relocatedSum_id _ _ _)⟩

/-- Two tags an owner made of one block over two contents while its metadata stayed the same. If
`operator==` finds them equal, their difference leaves every tag as it is. Otherwise, in every run
under the same keys, on any store and file, it takes each current tag over to the tag of any other
content, and the challenges of a file whose contents were replaced are answered with an accepted
proof unless a carried tag is the point at infinity. -/
theorem reused_metadata (h : lib.toCoreLib.Lawful n e) (hl : lib.LawfulTags) (hn : n ≤ 2 ^ 256)
    (publicParams : DHTDynamicPublicParams G1 G2) (privateParams : DHTDynamicPrivateParams)
    (hy : publicParams.y = privateParams.a.value • publicParams.g) (hpk : publicParams.pk ≠ 0)
    (w : World κ) (hw : w.WellFormed) (calls : List (AuditCall G1 G2)) (fileId : Bytes)
    (contents contents' : List Bytes) (blockIndex : SizeT) (known known' : G1)
    (hknown : CurrentTag lib.toCoreLib w calls fileId publicParams privateParams contents
      blockIndex (.dhtDynamic known))
    (hknown' : CurrentTag lib.toCoreLib w calls fileId publicParams privateParams contents'
      blockIndex (.dhtDynamic known'))
    (first second : Bytes) (hfirst : contents[(blockIndex - 1).toNat]? = some first)
    (hsecond : contents'[(blockIndex - 1).toNat]? = some second) :
    (DHTDynamicTag.eq lib known (.dhtDynamic known') = true → ∀ k sigma,
      carryOver lib known (.dhtDynamic known') k sigma = .ok (.dhtDynamic sigma)) ∧
    (DHTDynamicTag.eq lib known (.dhtDynamic known') = false →
      ∀ (w' : World κ) (calls' : List (AuditCall G1 G2)) (old : List Bytes), w'.WellFormed →
        (∀ fileId' blockIndex' sigma block block', CurrentTag lib.toCoreLib w' calls' fileId'
            publicParams privateParams old blockIndex' (.dhtDynamic sigma) →
          old[(blockIndex' - 1).toNat]? = some block →
          ∃ metadata carried, (w'.afterCalls lib.toCoreLib calls' calls'.length).metadataAt fileId'
              (blockIndex' - 1) = some (.versioned metadata) ∧
            carryOver lib known (.dhtDynamic known') (carryScalar lib n first second block block')
              sigma = .ok (.dhtDynamic carried) ∧
            computeTag lib.toCoreLib privateParams.a publicParams.u fileId' blockIndex' metadata
              block' = .ok carried) ∧
        ∀ runtime fuel challenger ext challenges tags replaced,
          ext.userPublicParams = some publicParams →
          (w'.afterCalls lib.toCoreLib calls' calls'.length).generateChallenges lib.toCoreLib
            runtime fuel challenger (.typed ext) = some (.ok (some challenges)) →
          challenges.items ≠ [] → replaced.length = old.length →
          (∀ item ∈ challenges.items, ∃ sigma,
            tags[item.blockIndex - 1]? = some (.dhtDynamic sigma) ∧
            CurrentTag lib.toCoreLib w' calls' ext.fileId publicParams privateParams old
              item.blockIndex (.dhtDynamic sigma)) →
          let carried := carryTags lib n known (.dhtDynamic known') first second old replaced tags
          (∀ item ∈ challenges.items, carried[item.blockIndex - 1]? ≠ some (.dhtDynamic 0)) →
          ∃ proves, Proves lib.toCoreLib publicParams carried (fullFile replaced) challenges
              (some proves) ∧
            Accepts lib.toCoreLib publicParams ext.fileId challenges proves) := by
  obtain ⟨metadata, block, sigma, hm, hblock, hsigma, heq⟩ := hknown.taggedAt hw
  obtain ⟨metadata', block', sigma', hm', hblock', hsigma', heq'⟩ := hknown'.taggedAt hw
  obtain rfl := BlockMetadata.versioned.inj (Option.some.inj (hm.symm.trans hm'))
  obtain rfl := Option.some.inj (hfirst.symm.trans hblock)
  obtain rfl := Option.some.inj (hsecond.symm.trans hblock')
  obtain rfl := Tag.dhtDynamic.inj heq
  obtain rfl := Tag.dhtDynamic.inj heq'
  rw [h.computeTag] at hsigma hsigma'
  obtain rfl := Except.ok.inj hsigma
  obtain rfl := Except.ok.inj hsigma'
  rw [DHTDynamicTag.eq, hl.g1Eq, ← Bool.not_eq_true, hl.g1Eq]
  refine ⟨fun hsame k sigma => ?_, fun hne w' calls' old hw' => ⟨?_, ?_⟩⟩
  · rw [hl.carryOver h, hsame, sub_self, smul_zero, add_zero]
  · intro fileId' blockIndex' sigma block block' hcur hold
    obtain ⟨metadata, other, sigma', hm, hother, hsigma, heq⟩ := hcur.taggedAt hw'
    obtain rfl := Tag.dhtDynamic.inj heq
    obtain rfl := Option.some.inj (hold.symm.trans hother)
    rw [h.computeTag] at hsigma
    obtain rfl := Except.ok.inj hsigma
    exact ⟨metadata, _, hm, h.carryOver hl hn hne block block', h.computeTag ..⟩
  · intro runtime fuel challenger ext challenges tags replaced hext hchallenge hitems hlength
      hcurrent
    exact carryTags_pass h hl hn hy hpk hne hw' hext hchallenge hitems hlength hcurrent

/-- `zmodLib` with the operators of tags. -/
def zmodTagLib (hash : Bytes → ZMod 5) : TagLib (ZMod 5) (ZMod 5) (Multiplicative (ZMod 5)) where
  toCoreLib := zmodLib hash
  g1Sub P Q := some (P - Q)
  g1Eq P Q := P == Q

theorem zmodTagLib_lawful (hash : Bytes → ZMod 5) : (zmodTagLib hash).LawfulTags where
  g1Sub _ _ := rfl
  g1Eq _ _ := beq_iff_eq

/-- A file of one block is tagged, and tagged again over another content. -/
def retagCalls : List (AuditCall (ZMod 5) (ZMod 5)) :=
  [.generateTags (tagRequest [7] [[1]] none), .generateTags (tagRequest [7] [[2]] none)]

/-- The store it starts from. -/
def retagStart : World Empty := empty defaultMetadataFactory (Stream'.const 0)

/-- The two tags answer a challenge over a third content. -/
theorem reused_metadata_third_content :
    ∃ proves, Proves (zmodLib fun _ => 1) unitPublicParams
        (carryTags (zmodTagLib fun _ => 1) 5 2 (.dhtDynamic 3) [1] [2] [[1]] [[3]]
          (setAll ∅ [(0, .dhtDynamic 2)])) (fullFile [[3]]) unitChallenge (some proves) ∧
      Accepts (zmodLib fun _ => 1) unitPublicParams [7] unitChallenge proves := by
  have hwf : retagStart.WellFormed := WellFormed.empty _ _
  have hfirst : CurrentTag (zmodLib fun _ => 1) retagStart retagCalls [7]
      unitPublicParams unitPrivateParams [[1]] 1 (.dhtDynamic 2) :=
    ⟨0, _, _, _, _, rfl, rfl, rfl, rfl, rfl, rfl, rfl, rfl, ⟨[1], rfl, rfl⟩, rfl⟩
  have hsecond : CurrentTag (zmodLib fun _ => 1) retagStart retagCalls [7]
      unitPublicParams unitPrivateParams [[2]] 1 (.dhtDynamic 3) :=
    ⟨1, _, _, _, _, rfl, rfl, rfl, rfl, rfl, rfl, rfl, rfl, ⟨[2], rfl, rfl⟩, rfl⟩
  have hreused := reused_metadata (zmodLib_lawful fun _ => 1) (zmodTagLib_lawful fun _ => 1)
    (by decide) unitPublicParams unitPrivateParams (by decide) (by decide) _ hwf
    retagCalls [7] [[1]] [[2]] 1 2 3 hfirst hsecond [1] [2] rfl rfl
  obtain ⟨htags, hpass⟩ := hreused.2 rfl _ retagCalls [[1]] hwf
  refine hpass (.scripted [1]) 2 (some unitAlgorithm) (challengeRequest [7] 1) unitChallenge
    (setAll ∅ [(0, .dhtDynamic 2)]) [[3]] rfl rfl (by decide) rfl ?_ ?_
  · intro item hitem
    obtain rfl := List.mem_singleton.mp hitem
    exact ⟨2, rfl, hfirst⟩
  · intro item hitem hzero
    obtain rfl := List.mem_singleton.mp hitem
    obtain ⟨metadata, carried, _, hcarry, htag⟩ := htags [7] 1 2 [1] [3] hfirst rfl
    obtain rfl : 4 = carried := Except.ok.inj htag
    rw [carryTags, Std.ExtTreeMap.getElem?_map] at hzero
    have hcarried : carryTag (zmodTagLib fun _ => 1) 5 2 (.dhtDynamic 3) [1] [2] [1] [3]
        (.dhtDynamic 2) = .dhtDynamic 0 := Option.some.inj hzero
    rw [carryTag, hcarry] at hcarried
    cases Tag.dhtDynamic.inj hcarried

end World

end DHTDynamic
