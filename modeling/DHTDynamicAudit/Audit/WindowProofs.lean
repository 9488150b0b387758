import DHTDynamicAudit.Audit.Windows

/-!
# Proofs through a window of a file

A block source may start at any global index. `generateTags` subtracts that start
before it reads a block; `generateProofs` reads at the global index itself. Its
proof is that of the whole file only as far as the blocks it reads by mistake
have the segment scalars of the challenged ones.
-/

namespace DHTDynamic

open Core

variable {G1 G2 GT : Type}

/-! ## What the prover reads -/

/-- A 1-based global index is that of a block of the window. -/
def AuditBlockSource.Covers (blocks : AuditBlockSource) (blockIndex : SizeT) : Prop :=
  blocks.globalBlockStartIndex.toNat + 1 ≤ blockIndex.toNat ∧
    blockIndex.toNat ≤ blocks.globalBlockStartIndex.toNat + blocks.availableBlockCount.toNat

/-- What the prover takes for a block: it reads the source at the block's global index. -/
def AuditBlockSource.readAsGlobal (blocks : AuditBlockSource) (blockIndex : SizeT) : Bytes :=
  match blocks.block (blockIndex - 1) with
  | .ok block => block
  | .error _ => []

/-- The block of a file at a 1-based index. -/
def blockOf (contents : List Bytes) (blockIndex : SizeT) : Bytes :=
  (contents[(blockIndex - 1).toNat]?).getD []

/-- `Σ ν_j (m'_j - m_j)` over the used items, where the source shows `m'_j` for the file's `m_j`. -/
def misreadSum (lib : CoreLib G1 G2 GT) (tags : InMemoryTags G1) (shown content : SizeT → Bytes)
    (items : List ChallengeItem) : Int :=
  (items.map fun item => if (usableSigma lib tags item).isSome then
    (item.nu.value : Int) *
      ((accumulateBlockSegmentsScalar lib (shown item.blockIndex)).value -
        (accumulateBlockSegmentsScalar lib (content item.blockIndex)).value) else 0).sum

theorem misreadSum_eq (lib : CoreLib G1 G2 GT) (tags : InMemoryTags G1)
    (shown content : SizeT → Bytes) (items : List ChallengeItem) :
    misreadSum lib tags shown content items =
      (scalarSum lib tags shown items : Int) - scalarSum lib tags content items := by
  induction items with
  | nil => rfl
  | cons item items ih =>
    simp only [misreadSum, scalarSum, List.map_cons, List.sum_cons, Nat.cast_add] at ih ⊢
    rw [ih]
    split_ifs
    · push_cast
      ring
    · ring

variable {lib : CoreLib G1 G2 GT}

/-- The file itself shows every block inside it. -/
theorem readable_fullFile {tags : InMemoryTags G1} {contents : List Bytes}
    {items : List ChallengeItem}
    (h : ∀ item ∈ items, (item.blockIndex - 1).toNat < contents.length) :
    Readable lib tags (fullFile contents) (blockOf contents) items := by
  intro item hitem _
  rw [fullFile_block, blockOf, List.getElem?_eq_getElem (h item hitem), Option.getD_some]

/-- A used block that cannot be read ends the prover's loop. -/
theorem CoreLib.Lawful.forEach_proveOne_error [AddCommGroup G1] [AddCommGroup G2] [CommGroup GT]
    {n : Nat} {e : G1 →+ G2 →+ Additive GT} (h : lib.Lawful n e) (g : G2)
    {tags : InMemoryTags G1} {blocks : AuditBlockSource} {items : List ChallengeItem}
    (hfail : ∃ item ∈ items, (usableSigma lib tags item).isSome ∧
      ∃ what, blocks.block (item.blockIndex - 1) = .error what) (acc : Accumulator GT) :
    ∃ e, (forEach (proveOne lib g tags blocks) acc items).1 = .error e := by
  induction items generalizing acc with
  | nil => simp at hfail
  | cons item items ih =>
    cases hsigma : usableSigma lib tags item with
    | none =>
      have hskip : proveOne lib g tags blocks acc item = (.ok (), acc) := by
        simp only [proveOne, hsigma]
      rw [forEach_cons_ok hskip]
      apply ih
      obtain ⟨other, hother, hused, hread⟩ := hfail
      rcases List.mem_cons.mp hother with rfl | hother
      · rw [hsigma] at hused
        cases hused
      · exact ⟨other, hother, hused, hread⟩
    | some sigma =>
      cases hblock : blocks.block (item.blockIndex - 1) with
      | error what =>
        refine ⟨.blockSource what, ?_⟩
        rw [forEach_cons]
        simp only [proveOne, hsigma, h.pairing, h.gtPow, AuditBlockSource.read, hblock]
      | ok block =>
        obtain ⟨M, hpass, _⟩ := h.proveOne_used g hsigma hblock acc
        rw [forEach_cons_ok hpass]
        apply ih
        obtain ⟨other, hother, hused, what, hread⟩ := hfail
        rcases List.mem_cons.mp hother with rfl | hother
        · rw [hblock] at hread
          cases hread
        · exact ⟨other, hother, hused, what, hread⟩

/-! ## The proof through a window -/

section Window

variable [AddCommGroup G1] [AddCommGroup G2] [CommGroup GT] {n : Nat}
  {e : G1 →+ G2 →+ Additive GT}

/-- The proof a request gets, or the exception. -/
def provesOf (lib : CoreLib G1 G2 GT) (tags : InMemoryTags G1) (blocks : AuditBlockSource)
    (publicParams : DHTDynamicPublicParams G1 G2) (challenges : DHTDynamicChallenges G2) :
    Except Exception (Option (DHTDynamicProves GT)) :=
  (generateProofs lib ⟨.typed ⟨some tags, some blocks, some publicParams⟩,
    .typed challenges⟩).map GenerateProofsResult.proves

/-- Two sources whose used blocks can be read give the same proof exactly when what they show
differs by a multiple of the order, or the pairing of `u` with `R` is trivial. -/
theorem CoreLib.Lawful.provesOf_eq_iff (h : lib.Lawful n e) (he : Nondegenerate e)
    {tags : InMemoryTags G1} {blocks full : AuditBlockSource} {shown content : SizeT → Bytes}
    (publicParams : DHTDynamicPublicParams G1 G2) {challenges : DHTDynamicChallenges G2}
    (hshown : Readable lib tags blocks shown challenges.items)
    (hcontent : Readable lib tags full content challenges.items) :
    provesOf lib tags blocks publicParams challenges =
        provesOf lib tags full publicParams challenges ↔
      (n : Int) ∣ misreadSum lib tags shown content challenges.items ∨
        publicParams.u = 0 ∨ challenges.R = 0 := by
  rcases exists_usable_or_none lib tags challenges.items with hsome | hnone
  · simp only [provesOf, h.generateProofs_some hshown hsome, h.generateProofs_some hcontent hsome,
      Except.map, Except.ok.injEq, Option.some.injEq, DHTDynamicProves.mk.injEq, true_and,
      Additive.toMul.injective.eq_iff, map_nsmul, AddMonoidHom.nsmul_apply]
    rw [nsmul_eq_nsmul_iff_of_prime h.prime (G := Additive GT) h.card_gt,
      pairing_eq_zero_iff h.prime h.card_g1 h.card_g2 he, misreadSum_eq]
  · have hzero : misreadSum lib tags shown content challenges.items = 0 := by
      apply List.sum_eq_zero
      intro term hterm
      obtain ⟨item, hitem, rfl⟩ := List.mem_map.mp hterm
      rw [hnone item hitem, Option.isSome_none, if_neg Bool.false_ne_true]
    simp only [provesOf, h.generateProofs_none hshown hnone, h.generateProofs_none hcontent hnone,
      hzero, dvd_zero, true_or]

/-- Proving through a window gives the proof of the whole file exactly when every used block can be
read at its global index and what is read there has, weighted and modulo the order, the segment
scalars of the challenged blocks. -/
theorem generateProofs_window_iff (h : lib.Lawful n e) (he : Nondegenerate e)
    (contents : List Bytes) (blocks : AuditBlockSource) (hwindow : blocks.IsWindow contents)
    (publicParams : DHTDynamicPublicParams G1 G2) (challenges : DHTDynamicChallenges G2)
    (hcovered : ∀ item ∈ challenges.items, blocks.Covers item.blockIndex)
    (tags : InMemoryTags G1) :
    provesOf lib tags blocks publicParams challenges =
        provesOf lib tags (fullFile contents) publicParams challenges ↔
      (∀ item ∈ challenges.items, (usableSigma lib tags item).isSome →
        ∃ block, blocks.block (item.blockIndex - 1) = .ok block) ∧
      ((n : Int) ∣ misreadSum lib tags blocks.readAsGlobal (blockOf contents) challenges.items ∨
        publicParams.u = 0 ∨ challenges.R = 0) := by
  have hfull : Readable lib tags (fullFile contents) (blockOf contents) challenges.items := by
    apply readable_fullFile
    intro item hitem
    obtain ⟨hge, hle⟩ := hcovered item hitem
    have hinside := hwindow.inside
    rw [toNat_pred (one_le_toNat_iff.mp (by omega))]
    omega
  by_cases hread : ∀ item ∈ challenges.items, (usableSigma lib tags item).isSome →
      ∃ block, blocks.block (item.blockIndex - 1) = .ok block
  · have hshown : Readable lib tags blocks blocks.readAsGlobal challenges.items := by
      intro item hitem hused
      obtain ⟨block, hblock⟩ := hread item hitem hused
      simp only [AuditBlockSource.readAsGlobal, hblock]
    rw [h.provesOf_eq_iff he publicParams hshown hfull]
    exact (and_iff_right hread).symm
  · -- the window throws and the file does not
    refine iff_of_false (fun hsame => ?_) fun hcondition => hread hcondition.1
    push Not at hread
    obtain ⟨item, hitem, hused, hunread⟩ := hread
    have hfail : ∃ what, blocks.block (item.blockIndex - 1) = .error what := by
      cases hblock : blocks.block (item.blockIndex - 1) with
      | error what => exact ⟨what, rfl⟩
      | ok block => exact absurd hblock (hunread block)
    have hitems : challenges.items ≠ [] := List.ne_nil_of_mem hitem
    obtain ⟨err, herr⟩ := h.forEach_proveOne_error publicParams.g ⟨item, hitem, hused, hfail⟩
      ⟨lib.gtOne, SM9CryptoData.ofUInt64 0, false⟩
    have hthrow : provesOf lib tags blocks publicParams challenges = .error err := by
      unfold provesOf generateProofs
      rcases hloop : forEach (proveOne lib publicParams.g tags blocks)
        ⟨lib.gtOne, SM9CryptoData.ofUInt64 0, false⟩ challenges.items with ⟨_ | _, acc⟩
      · rw [hloop] at herr
        obtain rfl := Except.error.inj herr
        simp [BasePtr.cast, hitems, hloop, Except.map]
      · rw [hloop] at herr
        cases herr
    rw [hthrow, provesOf, h.generateProofs_some hfull ⟨item, hitem, hused⟩] at hsame
    cases hsame

/-- A window that starts with the file gives the proof of the file. -/
theorem generateProofs_window_from_start (h : lib.Lawful n e) (he : Nondegenerate e)
    {contents : List Bytes} {blocks : AuditBlockSource} (hwindow : blocks.IsWindow contents)
    (hstart : blocks.globalBlockStartIndex = 0) (publicParams : DHTDynamicPublicParams G1 G2)
    {challenges : DHTDynamicChallenges G2}
    (hcovered : ∀ item ∈ challenges.items, blocks.Covers item.blockIndex)
    (tags : InMemoryTags G1) :
    provesOf lib tags blocks publicParams challenges =
      provesOf lib tags (fullFile contents) publicParams challenges := by
  have hplace : ∀ item ∈ challenges.items, (item.blockIndex - 1).toNat < contents.length ∧
      item.blockIndex - 1 < blocks.availableBlockCount := by
    intro item hitem
    obtain ⟨hge, hle⟩ := hcovered item hitem
    have hinside := hwindow.inside
    rw [hstart, UInt64.toNat_zero] at hge hle hinside
    rw [UInt64.lt_iff_toNat_lt, toNat_pred (one_le_toNat_iff.mp (by omega))]
    omega
  have hshown : Readable lib tags blocks (blockOf contents) challenges.items := by
    intro item hitem _
    obtain ⟨block, hcontent, hblock⟩ := hwindow.block _ (hplace item hitem).2
    rw [hstart, UInt64.toNat_zero, Nat.zero_add] at hcontent
    rw [hblock, blockOf, hcontent, Option.getD_some]
  apply (h.provesOf_eq_iff he publicParams hshown
    (readable_fullFile fun item hitem => (hplace item hitem).1)).mpr
  rw [misreadSum_eq, sub_self]
  exact Or.inl (dvd_zero _)

end Window

/-! ## A window that starts after the first block -/

/-- A file of three blocks. -/
def threeBlocks : List Bytes := [[1], [2], [3]]

/-- The challenge of its second block. -/
def secondBlockChallenge : DHTDynamicChallenges (ZMod 5) where
  R := 1
  r := .ofUInt64 1
  items := [{ blockIndex := 2, nu := .ofUInt64 1, metadata := ⟨1, 0⟩ }]
  blockCount := 3

/-- The current tag of that block, when every hash point is one. -/
def secondBlockTags : InMemoryTags (ZMod 5) := setAll ∅ [(1, .dhtDynamic 3)]

/-- The rule for the window of the second and third blocks. -/
theorem generateProofs_window_iff_second :
    let lib := zmodLib fun _ => 1
    let blocks := windowOf threeBlocks 1 2
    provesOf lib secondBlockTags blocks unitPublicParams secondBlockChallenge =
        provesOf lib secondBlockTags (fullFile threeBlocks) unitPublicParams
          secondBlockChallenge ↔
      (∀ item ∈ secondBlockChallenge.items, (usableSigma lib secondBlockTags item).isSome →
        ∃ block, blocks.block (item.blockIndex - 1) = .ok block) ∧
      (((5 : Nat) : Int) ∣ misreadSum lib secondBlockTags blocks.readAsGlobal (blockOf threeBlocks)
          secondBlockChallenge.items ∨
        unitPublicParams.u = 0 ∨ secondBlockChallenge.R = 0) :=
  generateProofs_window_iff (zmodLib_lawful _) zmodPairing_nondegenerate threeBlocks
    (windowOf threeBlocks 1 2) (windowOf_isWindow (by decide)) unitPublicParams
    secondBlockChallenge
    (List.forall_mem_cons.mpr ⟨⟨by decide, by decide⟩, fun _ hitem => nomatch hitem⟩)
    secondBlockTags

/-- Through that window the prover reads the third block: its proof is another one, and the
verifier rejects it although tag and block are current. -/
theorem generateProofs_window_reads_third :
    let lib := zmodLib fun _ => 1
    let blocks := windowOf threeBlocks 1 2
    blocks.IsWindow threeBlocks ∧
      (∀ item ∈ secondBlockChallenge.items, blocks.Covers item.blockIndex) ∧
      provesOf lib secondBlockTags blocks unitPublicParams secondBlockChallenge ≠
        provesOf lib secondBlockTags (fullFile threeBlocks) unitPublicParams
          secondBlockChallenge ∧
      ∃ proves fullProves result fullResult,
        provesOf lib secondBlockTags blocks unitPublicParams secondBlockChallenge =
          .ok (some proves) ∧
        verifyProofs lib ⟨[.typed secondBlockChallenge], [.typed proves],
          .typed ⟨[7], some unitPublicParams⟩⟩ = .ok result ∧ result.ok = false ∧
        provesOf lib secondBlockTags (fullFile threeBlocks) unitPublicParams
          secondBlockChallenge = .ok (some fullProves) ∧
        verifyProofs lib ⟨[.typed secondBlockChallenge], [.typed fullProves],
          .typed ⟨[7], some unitPublicParams⟩⟩ = .ok fullResult ∧ fullResult.ok = true := by
  have hshown : provesOf (zmodLib fun _ => 1) secondBlockTags (windowOf threeBlocks 1 2)
      unitPublicParams secondBlockChallenge =
        .ok (some ⟨Multiplicative.ofAdd 3, Multiplicative.ofAdd 3⟩) := rfl
  have hfull : provesOf (zmodLib fun _ => 1) secondBlockTags (fullFile threeBlocks)
      unitPublicParams secondBlockChallenge =
        .ok (some ⟨Multiplicative.ofAdd 3, Multiplicative.ofAdd 2⟩) := rfl
  refine ⟨windowOf_isWindow (by decide),
    List.forall_mem_cons.mpr ⟨⟨by decide, by decide⟩, fun _ hitem => nomatch hitem⟩, ?_,
    _, _, _, _, hshown, rfl, rfl, hfull, rfl, rfl⟩
  intro hsame
  rw [hshown, hfull] at hsame
  have hlambda := congrArg DHTDynamicProves.lambda (Option.some.inj (Except.ok.inj hsame))
  exact absurd hlambda (by decide)

end DHTDynamic
