import DHTDynamicAudit.Audit.RoundTrip
import DHTDynamicAudit.Strategy.Artifacts

/-!
# Artifacts over the wire

An object the factory creates for a kind reads back any object of that kind from
its bytes, whatever follows them, and rejects the bytes when they are cut short.
-/

namespace DHTDynamic

open Core

variable {G1 G2 GT : Type}

/-- `SM9GTElement` reads back what it writes, and what it writes has a 64-bit size. -/
structure ArtifactLib.LawfulFormats (lib : ArtifactLib G1 G2 GT) : Prop where
  gtDeserialize : ∀ target x, lib.gtDeserialize target (lib.gtSerialize x) = some x
  gtSize : ∀ x, (lib.gtSerialize x).length < 2 ^ 64

/-- The bound a vector of items has as a `std::vector`. -/
def AuditArtifact.Sized : AuditArtifact G1 G2 GT → Prop
  | .challenges object => object.items.length < 2 ^ 64
  | _ => True

variable {lib : ArtifactLib G1 G2 GT}

/-! ## Reading back -/

theorem DHTDynamicPublicParams.decodes (lib : ArtifactLib G1 G2 GT)
    (target : DHTDynamicPublicParams G1 G2) :
    Decodes (target.do_deserialize lib) (DHTDynamicPublicParams.do_serialize lib)
      fun _ => True := by
  intro bytes params rest
  rw [DHTDynamicPublicParams.do_deserialize, lib.rawG2.decodes.run_bind]
  simp only [lib.rawG2.decodes.run_bind, lib.rawG1.decodes.run_bind, run_pure_eq_some, true_and,
    DHTDynamicPublicParams.do_serialize, List.append_assoc]
  constructor
  · rintro ⟨pk, _, rfl, g, _, rfl, y, _, rfl, u, _, rfl, rfl, rfl⟩
    rfl
  · rintro rfl
    exact ⟨params.pk, _, rfl, params.g, _, rfl, params.y, _, rfl, params.u, _, rfl, rfl, rfl⟩

theorem DHTDynamicPrivateParams.decodes (target : DHTDynamicPrivateParams) :
    Decodes target.do_deserialize DHTDynamicPrivateParams.do_serialize fun _ => True := by
  intro bytes params rest
  rw [DHTDynamicPrivateParams.do_deserialize, scalarField.decodes.run_bind]
  simp only [scalarField.decodes.run_bind, run_pure_eq_some, true_and,
    DHTDynamicPrivateParams.do_serialize, List.append_assoc]
  constructor
  · rintro ⟨sk, _, rfl, a, _, rfl, rfl, rfl⟩
    rfl
  · rintro rfl
    exact ⟨params.sk, _, rfl, params.a, _, rfl, rfl, rfl⟩

theorem VersionedBlockMetadata.decodes (target : VersionedBlockMetadata) :
    Decodes target.do_deserialize VersionedBlockMetadata.serialize fun _ => True := by
  intro bytes metadata rest
  rw [VersionedBlockMetadata.do_deserialize, uint64Field.decodes.run_bind]
  simp only [uint64Field.decodes.run_bind, run_pure_eq_some, true_and,
    VersionedBlockMetadata.serialize, List.append_assoc]
  constructor
  · rintro ⟨version, _, rfl, timestamp, _, rfl, rfl, rfl⟩
    rfl
  · rintro rfl
    exact ⟨metadata.version, _, rfl, metadata.timestamp, _, rfl, rfl, rfl⟩

/-- A length-prefixed vector of bytes is read whole. -/
theorem run_readBytes_bind {γ : Type} {data : Bytes} (h : data.length < 2 ^ 64) (rest : Bytes)
    (next : { as : Bytes // as.length < 2 ^ 64 } → Reader UInt8 γ) :
    (readCounted byteField.read >>= next).run (writeCounted byteField.encode data ++ rest) =
      (next ⟨data, h⟩).run rest := by
  have hread := (readCounted_decodes byteField.decodes
    (writeCounted byteField.encode data ++ rest) ⟨data, h⟩ rest).mpr ⟨fun _ _ => trivial, rfl⟩
  rw [StateT.run_bind, hread]
  rfl

/-- The two elements of a proof, each behind its length. -/
theorem DHTDynamicProves.run_do_deserialize (h : lib.LawfulFormats)
    (target proves : DHTDynamicProves GT) (rest : Bytes) :
    (target.do_deserialize lib).run (proves.do_serialize lib ++ rest) = some (proves, rest) := by
  rw [DHTDynamicProves.do_deserialize, DHTDynamicProves.do_serialize, List.append_assoc,
    run_readBytes_bind (h.gtSize proves.theta)]
  simp only [h.gtDeserialize, run_lift_bind]
  rw [run_readBytes_bind (h.gtSize proves.lambda)]
  simp only [h.gtDeserialize, run_lift_bind, StateT.run_pure]
  rfl

/-! ## Bytes cut short -/

theorem readCounted_streaming {α : Type} {read : Reader UInt8 α} (h : Streaming read) :
    Streaming (readCounted read) :=
  uint64Field.streaming.bind fun size => (h.many size.toNat).bind fun _ => .pure _

theorem ChallengeItem.streaming : Streaming ChallengeItem.do_deserialize :=
  uint64Field.streaming.bind fun _ => scalarField.streaming.bind fun _ =>
    uint64Field.streaming.bind fun _ => uint64Field.streaming.bind fun _ => .pure _

theorem DHTDynamicChallenges.streaming (raw : FixedWidth UInt8 G2)
    (target : DHTDynamicChallenges G2) : Streaming (target.do_deserialize raw) :=
  raw.streaming.bind fun _ => scalarField.streaming.bind fun _ =>
    uint64Field.streaming.bind fun _ => uint64Field.streaming.bind fun itemCount =>
      (ChallengeItem.streaming.many itemCount.toNat).bind fun _ => .pure _

theorem DHTDynamicProves.streaming (lib : ArtifactLib G1 G2 GT) (target : DHTDynamicProves GT) :
    Streaming (target.do_deserialize lib) :=
  (readCounted_streaming byteField.streaming).bind fun _ => (Streaming.lift _).bind fun _ =>
    (readCounted_streaming byteField.streaming).bind fun _ => (Streaming.lift _).bind fun _ =>
      .pure _

/-- No object looks past the bytes it takes. -/
theorem AuditArtifact.streaming (lib : ArtifactLib G1 G2 GT) (target : AuditArtifact G1 G2 GT) :
    Streaming (target.do_deserialize lib) := by
  have hmarker : Streaming DHTDynamicAlgoParams.do_deserialize :=
    byteField.streaming.bind fun _ => .pure _
  cases target with
  | algoPublicParams => exact hmarker.bind fun _ => .pure _
  | algoPrivateParams => exact hmarker.bind fun _ => .pure _
  | publicParams target =>
    have hparams : Streaming (target.do_deserialize lib) :=
      lib.rawG2.streaming.bind fun _ => lib.rawG2.streaming.bind fun _ =>
        lib.rawG2.streaming.bind fun _ => lib.rawG1.streaming.bind fun _ => .pure _
    exact hparams.bind fun _ => .pure _
  | privateParams target =>
    have hparams : Streaming target.do_deserialize :=
      scalarField.streaming.bind fun _ => scalarField.streaming.bind fun _ => .pure _
    exact hparams.bind fun _ => .pure _
  | tag sigma_ => exact lib.rawG1.streaming.bind fun _ => .pure _
  | challenges target => exact (target.streaming lib.rawG2).bind fun _ => .pure _
  | proves target => exact (target.streaming lib).bind fun _ => .pure _
  | blockMetadata target =>
    have hmetadata : Streaming target.do_deserialize :=
      uint64Field.streaming.bind fun _ => uint64Field.streaming.bind fun _ => .pure _
    exact hmetadata.bind fun _ => .pure _

/-! ## Every kind -/

theorem run_map_of_some {α β : Type} {read : Reader UInt8 α} {bytes rest : Bytes} {a : α}
    (h : read.run bytes = some (a, rest)) (f : α → β) :
    (do return f (← read) : Reader UInt8 β).run bytes = some (f a, rest) := by
  rw [StateT.run_bind, h]
  rfl

/-- An object of the kind reads the bytes of an artifact back, in front of anything. -/
theorem AuditArtifact.run_do_deserialize (h : lib.LawfulFormats)
    {artifact target : AuditArtifact G1 G2 GT} (hsized : artifact.Sized)
    (hkind : target.kind = artifact.kind) (rest : Bytes) :
    (target.do_deserialize lib).run (artifact.do_serialize lib ++ rest) =
      some (artifact, rest) := by
  cases artifact with
  | algoPublicParams =>
    cases target with
    | algoPublicParams => rfl
    | _ => cases hkind
  | algoPrivateParams =>
    cases target with
    | algoPrivateParams => rfl
    | _ => cases hkind
  | publicParams params =>
    cases target with
    | publicParams target =>
      exact run_map_of_some ((target.decodes lib _ params rest).mpr ⟨trivial, rfl⟩) _
    | _ => cases hkind
  | privateParams params =>
    cases target with
    | privateParams target =>
      exact run_map_of_some ((target.decodes _ params rest).mpr ⟨trivial, rfl⟩) _
    | _ => cases hkind
  | tag sigma_ =>
    cases target with
    | tag _ => exact run_map_of_some ((lib.rawG1.decodes _ sigma_ rest).mpr ⟨trivial, rfl⟩) _
    | _ => cases hkind
  | challenges object =>
    cases target with
    | challenges target =>
      exact run_map_of_some ((target.decodes lib.rawG2 _ object rest).mpr ⟨hsized, rfl⟩) _
    | _ => cases hkind
  | proves object =>
    cases target with
    | proves target => exact run_map_of_some (target.run_do_deserialize h object rest) _
    | _ => cases hkind
  | blockMetadata metadata =>
    cases target with
    | blockMetadata target =>
      exact run_map_of_some ((target.decodes _ metadata rest).mpr ⟨trivial, rfl⟩) _
    | _ => cases hkind

/-- The factory makes an object of every artifact's kind. Any object of that kind, whatever it held
before, reads the artifact's bytes back and leaves what follows them; reading bytes cut short
anywhere fails. -/
theorem artifact_round_trip (h : lib.LawfulFormats) (artifact : AuditArtifact G1 G2 GT)
    (hsized : artifact.Sized) :
    (∃ created, createArtifact lib artifact.kind = .ok created ∧
      created.kind = artifact.kind) ∧
    ∀ target : AuditArtifact G1 G2 GT, target.kind = artifact.kind →
      (∀ rest, (target.do_deserialize lib).run (artifact.do_serialize lib ++ rest) =
        some (artifact, rest)) ∧
      ∀ short, short <+: artifact.do_serialize lib → short ≠ artifact.do_serialize lib →
        (target.do_deserialize lib).run short = none := by
  refine ⟨?_, fun target hkind => ⟨fun rest => ?_, fun short hprefix hne => ?_⟩⟩
  · cases artifact <;> exact ⟨_, rfl, rfl⟩
  · exact AuditArtifact.run_do_deserialize h hsized hkind rest
  · have hwhole := AuditArtifact.run_do_deserialize h hsized hkind []
    rw [List.append_nil] at hwhole
    exact (target.streaming lib).fails_of_truncated hwhole hprefix hne

/-- Objects that are their bytes. -/
def rawBytes (size : Nat) : FixedWidth UInt8 { bytes : Bytes // bytes.length = size } where
  size := size
  encode := Subtype.val
  decode bytes :=
    if h : bytes.length = size then ⟨bytes, h⟩ else ⟨List.replicate size 0, List.length_replicate⟩
  length_encode object := object.2
  decode_encode object := dif_pos object.2
  encode_decode bytes h := by rw [dif_pos h]

/-- Points of 96 and 192 bytes and target elements of 384, without any arithmetic. -/
def byteLib : ArtifactLib { bytes : Bytes // bytes.length = 96 }
    { bytes : Bytes // bytes.length = 192 } { bytes : Bytes // bytes.length = 384 } where
  hashToCurve _ := (rawBytes 96).decode []
  g1Infinity := (rawBytes 96).decode []
  g1IsInfinity _ := false
  g1Generator := (rawBytes 96).decode []
  g1Add _ _ := none
  g1Mul _ _ := none
  g2Default := (rawBytes 192).decode []
  g2IsInfinity _ := false
  g2FromScalar _ := (rawBytes 192).decode []
  g2Mul _ _ := none
  pairing _ _ := none
  gtOne := (rawBytes 384).decode []
  gtMul _ _ := none
  gtPow _ _ := none
  gtEq _ _ := false
  scalarDefault := .ofUInt64 0
  isZero x := x.value == 0
  scalarAdd _ _ := none
  scalarMul _ _ := none
  g1Default := (rawBytes 96).decode []
  gtDefault := (rawBytes 384).decode []
  g1Sub _ _ := none
  g1Eq P Q := P == Q
  rawG1 := rawBytes 96
  rawG2 := rawBytes 192
  gtSerialize := Subtype.val
  gtDeserialize _ bytes := if h : bytes.length = 384 then some ⟨bytes, h⟩ else none

theorem byteLib_lawfulFormats : byteLib.LawfulFormats where
  gtDeserialize _ x := dif_pos x.2
  gtSize x := by
    have hsize : (byteLib.gtSerialize x).length = 384 := x.2
    omega

/-- A proof, read into the object the factory makes, and the same bytes without the last one. -/
theorem artifact_round_trip_proof :
    let element : { bytes : Bytes // bytes.length = 384 } := (rawBytes 384).decode []
    let artifact : AuditArtifact { bytes : Bytes // bytes.length = 96 }
      { bytes : Bytes // bytes.length = 192 } _ := .proves ⟨element, element⟩
    let target : AuditArtifact _ _ _ := .proves ⟨byteLib.gtDefault, byteLib.gtDefault⟩
    createArtifact byteLib .Proves = .ok target ∧
      (target.do_deserialize byteLib).run (artifact.do_serialize byteLib ++ [1]) =
        some (artifact, [1]) ∧
      (target.do_deserialize byteLib).run (artifact.do_serialize byteLib).dropLast = none := by
  intro element artifact target
  obtain ⟨_, hread⟩ := artifact_round_trip byteLib_lawfulFormats artifact trivial
  obtain ⟨hwhole, hshort⟩ := hread target rfl
  refine ⟨rfl, hwhole [1], hshort _ (List.dropLast_prefix _) fun heq => ?_⟩
  have hlength := congrArg List.length heq
  rw [List.length_dropLast] at hlength
  have hpos : 0 < (artifact.do_serialize byteLib).length := by
    simp only [artifact, AuditArtifact.do_serialize, DHTDynamicProves.do_serialize, writeCounted,
      List.length_append, length_nativeBytes]
    omega
  omega

end DHTDynamic
