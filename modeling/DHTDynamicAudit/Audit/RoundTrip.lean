import DHTDynamicAudit.Strategy.Common
import DHTDynamicAudit.Strategy.Wire

/-!
# Bytes that mean one thing

The decoders of challenges and maintenance requests read back exactly what the
encoders write, whatever follows. The input of a block hash determines the file,
the index and the metadata, although the file identifier in front of it has no
length: what follows it has a fixed one.
-/

namespace DHTDynamic

open Core

/-! ## Messages -/

/-- The loop over the items reads the fields in the order they are written. -/
theorem ChallengeItem.decodes :
    Decodes ChallengeItem.do_deserialize ChallengeItem.do_serialize fun _ => True := by
  intro bytes item rest
  rw [ChallengeItem.do_deserialize, uint64Field.decodes.run_bind]
  simp only [scalarField.decodes.run_bind, uint64Field.decodes.run_bind, run_pure_eq_some,
    true_and, ChallengeItem.do_serialize, List.append_assoc]
  constructor
  · rintro ⟨blockIndex, _, rfl, nu, _, rfl, version, _, rfl, timestamp, _, rfl, rfl, rfl⟩
    rfl
  · rintro rfl
    exact ⟨item.blockIndex, _, rfl, item.nu, _, rfl, item.metadata.version, _, rfl,
      item.metadata.timestamp, _, rfl, rfl, rfl⟩

/-- The item count is a `std::size_t`; nothing of the target survives. -/
theorem DHTDynamicChallenges.decodes {G2 : Type} (raw : FixedWidth UInt8 G2)
    (target : DHTDynamicChallenges G2) :
    Decodes (target.do_deserialize raw) (DHTDynamicChallenges.do_serialize raw)
      fun challenges => challenges.items.length < 2 ^ 64 := by
  intro bytes challenges rest
  rw [DHTDynamicChallenges.do_deserialize, raw.decodes.run_bind]
  simp only [scalarField.decodes.run_bind, uint64Field.decodes.run_bind,
    (ChallengeItem.decodes.many _).run_bind, run_pure_eq_some, true_and,
    DHTDynamicChallenges.do_serialize, List.append_assoc]
  constructor
  · rintro ⟨R, _, rfl, r, _, rfl, blockCount, _, rfl, itemCount, _, rfl, ⟨items, hcount⟩, _, _, rfl,
      rfl, rfl⟩
    refine ⟨hcount.trans_lt itemCount.toNat_lt, ?_⟩
    rw [hcount, UInt64.ofNat_toNat]
    rfl
  · rintro ⟨hlength, rfl⟩
    exact ⟨challenges.R, _, rfl, challenges.r, _, rfl, challenges.blockCount, _, rfl,
      UInt64.ofNat challenges.items.length, _, rfl,
      ⟨challenges.items, (toNat_ofNat_lt hlength).symm⟩, fun _ _ => trivial, _, rfl, rfl, rfl⟩

/-- The state store of the target stays. -/
theorem DHTDynamicMaintainExt.decodes (target : DHTDynamicMaintainExt) :
    Decodes target.do_deserialize DHTDynamicMaintainExt.do_serialize fun ext =>
      ext.fileId.length < 2 ^ 64 ∧ ext.stateStore = target.stateStore := by
  intro bytes ext rest
  rw [DHTDynamicMaintainExt.do_deserialize, (readCounted_decodes byteField.decodes).run_bind]
  simp only [byteField.decodes.run_bind, (readCounted_decodes uint64Field.decodes).run_bind,
    run_pure_eq_some, true_and, DHTDynamicMaintainExt.do_serialize, List.append_assoc]
  constructor
  · rintro ⟨⟨fileId, hlength⟩, _, _, rfl, opVal, _, rfl, ⟨blockIndices, hsized⟩, _, _, rfl, rfl,
      rfl⟩
    exact ⟨⟨hlength, rfl⟩, rfl⟩
  · rintro ⟨⟨hlength, hstore⟩, rfl⟩
    refine ⟨⟨ext.fileId, hlength⟩, fun _ _ => trivial, _, rfl, ext.opType.value, _, rfl,
      ⟨ext.blockIndices, ext.sized⟩, fun _ _ => trivial, _, rfl, ?_, rfl⟩
    simp only [← hstore]

/-- Decoding what was encoded, with anything after it and into any object, restores every written
field and leaves the rest; what decodes is the encoding of the result. -/
theorem wire_round_trip {G2 : Type} (raw : FixedWidth UInt8 G2) :
    (∀ (challenges target : DHTDynamicChallenges G2) (rest : Bytes),
        challenges.items.length < 2 ^ 64 →
        (target.do_deserialize raw).run (challenges.do_serialize raw ++ rest) =
          some (challenges, rest)) ∧
      (∀ (target challenges : DHTDynamicChallenges G2) (bytes rest : Bytes),
        (target.do_deserialize raw).run bytes = some (challenges, rest) →
          bytes = challenges.do_serialize raw ++ rest) ∧
      (∀ (ext target : DHTDynamicMaintainExt) (rest : Bytes), ext.fileId.length < 2 ^ 64 →
        target.do_deserialize.run (ext.do_serialize ++ rest) =
          some ({ ext with stateStore := target.stateStore }, rest)) ∧
      ∀ (target ext : DHTDynamicMaintainExt) (bytes rest : Bytes),
        target.do_deserialize.run bytes = some (ext, rest) → bytes = ext.do_serialize ++ rest := by
  refine ⟨fun challenges target rest hlength => ?_, fun target challenges bytes rest hread => ?_,
    fun ext target rest hlength => ?_, fun target ext bytes rest hread => ?_⟩
  · exact (DHTDynamicChallenges.decodes raw target _ challenges rest).mpr ⟨hlength, rfl⟩
  · exact ((DHTDynamicChallenges.decodes raw target bytes challenges rest).mp hread).2
  · exact (DHTDynamicMaintainExt.decodes target _ _ rest).mpr ⟨⟨hlength, rfl⟩, rfl⟩
  · exact ((DHTDynamicMaintainExt.decodes target bytes ext rest).mp hread).2

/-- Points that are their raw structs: three coordinates of 64 bytes. -/
def rawTwistPoint : FixedWidth UInt8 { bytes : Bytes // bytes.length = 192 } where
  size := 192
  encode := Subtype.val
  decode bytes :=
    if h : bytes.length = 192 then ⟨bytes, h⟩ else ⟨List.replicate 192 0, List.length_replicate⟩
  length_encode point := point.2
  decode_encode point := dif_pos point.2
  encode_decode bytes h := by rw [dif_pos h]

/-- A challenge of two items, decoded over the default object. -/
theorem wire_round_trip_two_items :
    let point := rawTwistPoint.decode []
    let challenges : DHTDynamicChallenges _ :=
      ⟨point, .ofUInt64 3, [⟨1, .ofUInt64 2, ⟨1, 5⟩⟩, ⟨2, .ofUInt64 7, ⟨4, 9⟩⟩], 2⟩
    (({ R := point, r := .ofUInt64 0 } : DHTDynamicChallenges _).do_deserialize rawTwistPoint).run
      (challenges.do_serialize rawTwistPoint ++ [1, 2]) = some (challenges, [1, 2]) :=
  (wire_round_trip rawTwistPoint).1 _ _ [1, 2] (by simp)

/-! ## The input of a block hash -/

/-- The shift loop writes the digits of the index, most significant first. -/
theorem bigEndianBytes_eq (blockIndex : SizeT) :
    bigEndianBytes blockIndex = (nativeBytes blockIndex).reverse := by
  rw [bigEndianBytes, nativeBytes, List.map_reverse]
  refine congrArg List.reverse (List.map_congr_left fun i _ => ?_)
  rw [← UInt8.toNat_inj, UInt64.toNat_toUInt8, UInt64.toNat_toUInt8, UInt64.toNat_and]
  exact congrArg (· % 2 ^ 8) (Nat.and_two_pow_sub_one_eq_mod _ 8) |>.trans (Nat.mod_mod _ _)

/-- The 24 bytes after the file identifier. -/
theorem length_hashSuffix (blockIndex : SizeT) (metadata : VersionedBlockMetadata) :
    (bigEndianBytes blockIndex ++ metadata.serialize).length = 24 := by
  simp only [bigEndianBytes_eq, VersionedBlockMetadata.serialize, List.length_append,
    List.length_reverse, length_nativeBytes]

theorem VersionedBlockMetadata.serialize_inj {metadata metadata' : VersionedBlockMetadata} :
    metadata.serialize = metadata'.serialize ↔
      metadata.version = metadata'.version ∧ metadata.timestamp = metadata'.timestamp := by
  refine uint64Field.encode_append_inj.trans (and_congr_right fun _ => ?_)
  exact uint64Field.encode_injective.eq_iff

/-- What is hashed to a block's point is `blockHashInput`, and nothing else. -/
theorem computeBlockHash_eq_hashToCurve {G1 G2 GT : Type} (lib : CoreLib G1 G2 GT) (fileId : Bytes)
    (blockIndex : SizeT) (metadata : VersionedBlockMetadata) :
    computeBlockHash lib fileId blockIndex metadata =
      lib.hashToCurve (blockHashInput fileId blockIndex metadata) := rfl

/-- Equal inputs of `computeBlockHash` have the same file, index, version and timestamp. -/
theorem blockHashInput_inj (fileId fileId' : Bytes) (blockIndex blockIndex' : SizeT)
    (metadata metadata' : VersionedBlockMetadata) :
    blockHashInput fileId blockIndex metadata = blockHashInput fileId' blockIndex' metadata' ↔
      fileId = fileId' ∧ blockIndex = blockIndex' ∧ metadata.version = metadata'.version ∧
        metadata.timestamp = metadata'.timestamp := by
  simp only [blockHashInput, List.append_assoc]
  constructor
  · intro h
    -- the file identifiers end where the last 24 bytes begin
    have hlength : (bigEndianBytes blockIndex ++ metadata.serialize).length =
        (bigEndianBytes blockIndex' ++ metadata'.serialize).length := by
      rw [length_hashSuffix, length_hashSuffix]
    obtain ⟨hfile, hsuffix⟩ := List.append_inj' h hlength
    have hdigits : (bigEndianBytes blockIndex).length = (bigEndianBytes blockIndex').length := by
      simp only [bigEndianBytes_eq, List.length_reverse, length_nativeBytes]
    obtain ⟨hindex, hmetadata⟩ := List.append_inj hsuffix hdigits
    rw [bigEndianBytes_eq, bigEndianBytes_eq, List.reverse_inj] at hindex
    exact ⟨hfile, uint64Field.encode_injective hindex,
      VersionedBlockMetadata.serialize_inj.mp hmetadata⟩
  · rintro ⟨rfl, rfl, hmetadata⟩
    rw [VersionedBlockMetadata.serialize_inj.mpr hmetadata]

end DHTDynamic
