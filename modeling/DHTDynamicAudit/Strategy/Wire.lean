import DHTDynamicAudit.Core.Archive
import DHTDynamicAudit.Strategy.Crypto
import DHTDynamicAudit.Strategy.Maintenance

/-!
# The binary archives

What cereal and the field macros write: scalars as raw bytes of fixed width,
strings and vectors as a 64-bit length and their elements. Encoder and decoder
of each message are two functions in the sources and stay two here.
-/

namespace DHTDynamic

open Core

/-! ## Little-endian bytes -/

/-- The `k` low bytes of a number, least significant first. -/
def toLittleEndian : Nat → Nat → Bytes
  | 0, _ => []
  | k + 1, n => UInt8.ofNat n :: toLittleEndian k (n / 256)

@[simp] theorem length_toLittleEndian (k n : Nat) : (toLittleEndian k n).length = k := by
  induction k generalizing n with
  | zero => rfl
  | succ k ih => rw [toLittleEndian, List.length_cons, ih]

theorem littleEndian_toLittleEndian {k n : Nat} (h : n < 256 ^ k) :
    littleEndian (toLittleEndian k n) = n := by
  induction k generalizing n with
  | zero => exact (Nat.lt_one_iff.mp h).symm
  | succ k ih =>
    have hhigh : n / 256 < 256 ^ k := Nat.div_lt_of_lt_mul (by rwa [← Nat.pow_succ'])
    rw [toLittleEndian, littleEndian, ih hhigh, UInt8.toNat_ofNat']
    exact Nat.mod_add_div n 256

theorem toLittleEndian_littleEndian (bytes : Bytes) :
    toLittleEndian bytes.length (littleEndian bytes) = bytes := by
  induction bytes with
  | nil => rfl
  | cons b bytes ih =>
    have hb := b.toNat_lt
    have hlow : (b.toNat + 256 * littleEndian bytes) % 256 = b.toNat := by omega
    have hhigh : (b.toNat + 256 * littleEndian bytes) / 256 = littleEndian bytes := by omega
    rw [List.length_cons, toLittleEndian, littleEndian, hhigh, ih, ← UInt8.ofNat_mod_size, hlow,
      UInt8.ofNat_toNat]

theorem toLittleEndian_eq_map (k n : Nat) :
    toLittleEndian k n = (List.range k).map fun i => UInt8.ofNat (n / 256 ^ i) := by
  induction k generalizing n with
  | zero => rfl
  | succ k ih =>
    rw [toLittleEndian, ih, List.range_succ_eq_map, List.map_cons, List.map_map, Nat.pow_zero,
      Nat.div_one]
    simp only [Function.comp_def, Nat.div_div_eq_div_mul, Nat.pow_succ']

/-! ## Scalars -/

/-- The bytes of a 64-bit field are its little-endian digits. -/
theorem nativeBytes_eq (n : UInt64) : nativeBytes n = toLittleEndian 8 n.toNat := by
  rw [toLittleEndian_eq_map, nativeBytes]
  apply List.map_congr_left
  intro i hi
  have hi := List.mem_range.mp hi
  rw [← UInt8.toNat_inj, UInt64.toNat_toUInt8, UInt64.toNat_shiftRight, UInt8.toNat_ofNat',
    toNat_ofNat_lt (by omega), Nat.mod_eq_of_lt (by omega : i * 8 < 64), Nat.shiftRight_eq_div_pow,
    Nat.mul_comm i 8, Nat.pow_mul]

@[simp] theorem length_nativeBytes (n : UInt64) : (nativeBytes n).length = 8 := by
  rw [nativeBytes_eq, length_toLittleEndian]

/-- A field of type `std::uint8_t`. -/
def byteField : FixedWidth UInt8 UInt8 where
  size := 1
  encode b := [b]
  decode bytes := bytes.headD 0
  length_encode _ := rfl
  decode_encode _ := rfl
  encode_decode bytes h := by
    obtain ⟨b, rfl⟩ := List.length_eq_one_iff.mp h
    rfl

/-- A field of type `std::uint64_t` or `std::size_t`. -/
def uint64Field : FixedWidth UInt8 UInt64 where
  size := 8
  encode := nativeBytes
  decode bytes := UInt64.ofNat (littleEndian bytes)
  length_encode := length_nativeBytes
  decode_encode n := by
    rw [nativeBytes_eq, littleEndian_toLittleEndian n.toNat_lt, UInt64.ofNat_toNat]
  encode_decode bytes h := by
    have hlt : littleEndian bytes < 2 ^ 64 := by
      have hbound := littleEndian_lt bytes
      rwa [h] at hbound
    rw [nativeBytes_eq, toNat_ofNat_lt hlt, ← h, toLittleEndian_littleEndian]

/-- `data()`: the 32 bytes of a scalar. -/
def SM9CryptoData.data (x : SM9CryptoData) : Bytes := toLittleEndian SM9CryptoData.size x.value

/-- A scalar written as binary data. -/
def scalarField : FixedWidth UInt8 SM9CryptoData where
  size := SM9CryptoData.size
  encode := SM9CryptoData.data
  decode := SM9CryptoData.ofBytes
  length_encode x := length_toLittleEndian _ _
  decode_encode x := by
    have hdata : littleEndian x.data = x.value := littleEndian_toLittleEndian x.value_lt
    have htake : x.data.take SM9CryptoData.size = x.data :=
      List.take_of_length_le (Nat.le_of_eq (length_toLittleEndian _ _))
    simp only [SM9CryptoData.ofBytes, htake, hdata]
  encode_decode bytes h := by
    have htake : bytes.take SM9CryptoData.size = bytes := List.take_of_length_le (Nat.le_of_eq h)
    simp only [SM9CryptoData.data, SM9CryptoData.ofBytes, htake]
    rw [← h, toLittleEndian_littleEndian]

/-! ## Strings and vectors -/

section Counted

variable {α : Type}

/-- A 64-bit length and the elements. -/
def writeCounted (write : α → Bytes) (as : List α) : Bytes :=
  nativeBytes (UInt64.ofNat as.length) ++ as.flatMap write

/-- A length, and as many elements as it says. -/
def readCounted (read : Reader UInt8 α) : Reader UInt8 { as : List α // as.length < 2 ^ 64 } := do
  let size ← uint64Field.read
  let as ← readMany read size.toNat
  return ⟨as.1, as.2.trans_lt size.toNat_lt⟩

theorem readCounted_decodes {read : Reader UInt8 α} {write : α → Bytes} {P : α → Prop}
    (h : Decodes read write P) : Decodes (readCounted read) (fun as => writeCounted write as.1)
      fun as => ∀ a ∈ as.1, P a := by
  rintro bytes ⟨as, has⟩ rest
  rw [readCounted, uint64Field.decodes.run_bind]
  simp only [(h.many _).run_bind, run_pure_eq_some, writeCounted]
  constructor
  · rintro ⟨size, _, _, rfl, ⟨as', hsize⟩, has', tail, rfl, hcons, rfl⟩
    cases hcons
    refine ⟨has', ?_⟩
    rw [hsize, UInt64.ofNat_toNat]
    exact (List.append_assoc _ _ _).symm
  · rintro ⟨has', rfl⟩
    exact ⟨UInt64.ofNat as.length, trivial, as.flatMap write ++ rest, List.append_assoc _ _ _,
      ⟨as, (toNat_ofNat_lt has).symm⟩, has', rest, rfl, rfl, rfl⟩

end Counted

/-! ## Messages -/

/-- What `do_serialize` of a challenge writes for one item. -/
def ChallengeItem.do_serialize (item : ChallengeItem) : Bytes :=
  nativeBytes item.blockIndex ++ item.nu.data ++ nativeBytes item.metadata.version ++
    nativeBytes item.metadata.timestamp

/-- One pass of the loop in `do_deserialize`. -/
def ChallengeItem.do_deserialize : Reader UInt8 ChallengeItem := do
  let blockIndex ← uint64Field.read
  let nu ← scalarField.read
  let version ← uint64Field.read
  let timestamp ← uint64Field.read
  return { blockIndex := blockIndex, nu := nu, metadata := ⟨version, timestamp⟩ }

/-- `DHTDynamicChallenges::do_serialize`; `raw` is the raw struct of a point. -/
def DHTDynamicChallenges.do_serialize {G2 : Type} (raw : FixedWidth UInt8 G2)
    (challenges : DHTDynamicChallenges G2) : Bytes :=
  let itemCount := UInt64.ofNat challenges.items.length
  raw.encode challenges.R ++ challenges.r.data ++ nativeBytes challenges.blockCount ++
    nativeBytes itemCount ++ challenges.items.flatMap ChallengeItem.do_serialize

/-- `DHTDynamicChallenges::do_deserialize` into an object with some content. -/
def DHTDynamicChallenges.do_deserialize {G2 : Type} (raw : FixedWidth UInt8 G2)
    (target : DHTDynamicChallenges G2) : Reader UInt8 (DHTDynamicChallenges G2) := do
  let R ← raw.read
  let target := { target with R := R }
  let r ← scalarField.read
  let target := { target with r := r }
  let blockCount ← uint64Field.read
  let target := { target with blockCount := blockCount }
  let itemCount ← uint64Field.read
  let items ← readMany ChallengeItem.do_deserialize itemCount.toNat
  return { target with items := items.1 }

/-- `DHTDynamicMaintainExt::do_serialize`; the state store is not written. -/
def DHTDynamicMaintainExt.do_serialize (ext : DHTDynamicMaintainExt) : Bytes :=
  writeCounted byteField.encode ext.fileId ++ byteField.encode ext.opType.value ++
    writeCounted nativeBytes ext.blockIndices

/-- `DHTDynamicMaintainExt::do_deserialize` into an object with some content. -/
def DHTDynamicMaintainExt.do_deserialize (target : DHTDynamicMaintainExt) :
    Reader UInt8 DHTDynamicMaintainExt := do
  let fileId ← readCounted byteField.read
  let target := { target with fileId := fileId.1 }
  let opVal ← byteField.read
  let target := { target with opType := ⟨opVal⟩ }
  let blockIndices ← readCounted uint64Field.read
  return { target with blockIndices := blockIndices.1, sized := blockIndices.2 }

end DHTDynamic
