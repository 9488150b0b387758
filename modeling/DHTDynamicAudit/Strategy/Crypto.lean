import Mathlib.Data.UInt
import DHTDynamicAudit.Core.SparseIndex
import DHTDynamicAudit.Strategy.Metadata

/-!
# The cryptographic library behind the strategy

The SM9BLS layer of CoreLib is a parameter. Operators that return a shared
pointer or a success flag return an option here: `none` is a null pointer or a
failure. What the strategy does with it is part of the model.
-/

namespace DHTDynamic

/-- The number a little-endian byte string stands for. -/
def littleEndian : Bytes → Nat
  | [] => 0
  | b :: bytes => b.toNat + 256 * littleEndian bytes

theorem littleEndian_lt (bytes : Bytes) : littleEndian bytes < 256 ^ bytes.length := by
  induction bytes with
  | nil => exact Nat.one_pos
  | cons b bytes ih =>
    have hb := b.toNat_lt
    rw [littleEndian, List.length_cons, Nat.pow_succ]
    omega

/-- A scalar: 32 bytes, read as a little-endian number. -/
structure SM9CryptoData where
  value : Nat
  value_lt : value < 2 ^ 256
  deriving DecidableEq, Repr

namespace SM9CryptoData

/-- `SM9CryptoData::size()`. -/
def size : Nat := 32

/-- The constructor from an unsigned 64-bit value. -/
def ofUInt64 (n : UInt64) : SM9CryptoData :=
  ⟨n.toNat, Nat.lt_trans n.toNat_lt (by decide)⟩

/-- `memcpy` of at most 32 bytes into the scalar, the rest set to zero. -/
def ofBytes (bytes : Bytes) : SM9CryptoData where
  value := littleEndian (bytes.take size)
  value_lt := by
    refine Nat.lt_of_lt_of_le (littleEndian_lt _) ?_
    have hlen : (bytes.take size).length ≤ 32 := List.length_take_le 32 bytes
    calc 256 ^ (bytes.take size).length ≤ 256 ^ 32 := Nat.pow_le_pow_right (by decide) hlen
      _ = 2 ^ 256 := by decide

@[simp] theorem ofUInt64_zero_value : (ofUInt64 0).value = 0 := rfl

end SM9CryptoData

/-- The SM9BLS classes the strategy calls. -/
structure CoreLib (G1 G2 GT : Type) where
  /-- `SM9BLS::hashToCurve`. -/
  hashToCurve : Bytes → G1
  /-- The point `G1Point::setInfinity()` leaves. -/
  g1Infinity : G1
  g1IsInfinity : G1 → Bool
  /-- `G1Point::generator()`. -/
  g1Generator : G1
  g1Add : G1 → G1 → Option G1
  g1Mul : G1 → SM9CryptoData → Option G1
  /-- A default-constructed `G2Point`. -/
  g2Default : G2
  g2IsInfinity : G2 → Bool
  /-- `G2Point::fromScalar`. -/
  g2FromScalar : SM9CryptoData → G2
  g2Mul : G2 → SM9CryptoData → Option G2
  /-- `SM9GTElement::pairing`; `none` when it reports failure. -/
  pairing : G1 → G2 → Option GT
  /-- The element `SM9GTElement::setOne()` leaves. -/
  gtOne : GT
  gtMul : GT → GT → Option GT
  /-- `SM9GTElement::operator^`. -/
  gtPow : GT → SM9CryptoData → Option GT
  gtEq : GT → GT → Bool
  /-- A default-constructed `SM9CryptoData`. -/
  scalarDefault : SM9CryptoData
  isZero : SM9CryptoData → Bool
  scalarAdd : SM9CryptoData → SM9CryptoData → Option SM9CryptoData
  scalarMul : SM9CryptoData → SM9CryptoData → Option SM9CryptoData

/-- Dereference a shared pointer the sources do not check. -/
def deref {α : Type} : Option α → Except Exception α
  | some a => .ok a
  | none => .error .nullDereference

@[simp] theorem deref_some {α : Type} (a : α) : deref (some a) = .ok a := rfl

/-- `DHTDynamicPublicParams`. -/
structure DHTDynamicPublicParams (G1 G2 : Type) where
  pk : G2
  g : G2
  y : G2
  u : G1

/-- `DHTDynamicPrivateParams`. -/
structure DHTDynamicPrivateParams where
  sk : SM9CryptoData
  a : SM9CryptoData

/-- `AuditBlockSource`: a window of a file; reading a block may throw. -/
structure AuditBlockSource where
  globalBlockStartIndex : SizeT
  availableBlockCount : SizeT
  block : SizeT → Except Bytes Bytes

/-- `blocks->block(localIndex)`; what it throws passes through the strategy. -/
def AuditBlockSource.read (source : AuditBlockSource) (localIndex : SizeT) :
    Except Exception Bytes :=
  match source.block localIndex with
  | .ok block => .ok block
  | .error what => .error (.blockSource what)

/-- A tag pointer of a container: a `DHTDynamicTag`, or another class or null. -/
inductive Tag (G1 : Type) where
  | dhtDynamic (sigma : G1)
  | foreign
  deriving DecidableEq

/-- The containers of CoreLib: tags by 0-based global index. -/
abbrev InMemoryTags (G1 : Type) := Core.IndexMap (Tag G1)

/-- One item of a challenge. -/
structure ChallengeItem where
  blockIndex : SizeT := 0
  nu : SM9CryptoData
  metadata : VersionedBlockMetadata := {}
  deriving DecidableEq

/-- `DHTDynamicChallenges`. -/
structure DHTDynamicChallenges (G2 : Type) where
  R : G2
  r : SM9CryptoData
  items : List ChallengeItem := []
  blockCount : SizeT := 0

/-- `DHTDynamicProves`. -/
structure DHTDynamicProves (GT : Type) where
  theta : GT
  lambda : GT

end DHTDynamic
