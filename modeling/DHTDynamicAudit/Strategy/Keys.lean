import Mathlib.Data.Stream.Defs
import DHTDynamicAudit.Strategy.Crypto

/-!
# Key generation

Scalars are drawn from the cryptographic random source until they are not zero.
The fuel bounds these loops; `none` means that a loop had not ended by then.
-/

namespace DHTDynamic

variable {G1 G2 GT : Type} (lib : CoreLib G1 G2 GT)

/-- `SM9BLSKeyPair`: the two key pointers and their `ks` and `ppubs`. -/
structure SM9BLSKeyPair (G2 : Type) where
  privateKeyPtr : BasePtr SM9CryptoData
  publicKeyPtr : BasePtr G2

/-- `SM9BLSAlgorithm`: what `generateKey` returns and the coming outputs of `generateRandom`. -/
structure SM9BLSAlgorithm (G2 : Type) where
  keyPair : BasePtr (SM9BLSKeyPair G2)
  random : Stream' Bytes

/-- The loop `do { … } while (v.isZero())` over random bytes: a scalar, or an output of the
wrong size. -/
def drawScalar : Nat → Stream' Bytes → Option (Option SM9CryptoData × Stream' Bytes)
  | 0, _ => none
  | fuel + 1, random =>
    let randomBytes := random.head
    if randomBytes.length ≠ SM9CryptoData.size then
      some (none, random.tail)
    else
      let v := SM9CryptoData.ofBytes randomBytes
      if lib.isZero v then drawScalar fuel random.tail else some (some v, random.tail)

/-- `DHTDynamicKeyGenRequestExt`. -/
structure DHTDynamicKeyGenRequestExt where
  seed : Option UInt64 := none

/-- `GenerateKeysResult`. -/
structure GenerateKeysResult (G1 G2 : Type) where
  ok : Bool
  reason : String
  publicParams : Option (DHTDynamicPublicParams G1 G2) := none
  privateParams : Option DHTDynamicPrivateParams := none

/-- Part B of `generateKeys`: the scalars `a`, `r`, `r'` and the points made from them. -/
def generateTagKey (fuel : Nat) (random : Stream' Bytes) (sk : SM9CryptoData) (pk : G2) :
    Option (Except Exception (GenerateKeysResult G1 G2)) :=
  match drawScalar lib fuel random with
  | none => none
  | some (none, _) =>
    some (.ok ⟨false, "DHTDynamic: random scalar a generation failed", none, none⟩)
  | some (some a, random) =>
    match drawScalar lib fuel random with
    | none => none
    | some (none, _) => some (.ok ⟨false, "DHTDynamic: random r generation failed", none, none⟩)
    | some (some r, random) =>
      let g := lib.g2FromScalar r
      match deref (lib.g2Mul g a) with
      | .error e => some (.error e)
      | .ok y =>
        match drawScalar lib fuel random with
        | none => none
        | some (none, _) =>
          some (.ok ⟨false, "DHTDynamic: random r' generation failed", none, none⟩)
        | some (some rPrime, _) =>
          match deref (lib.g1Mul lib.g1Generator rPrime) with
          | .error e => some (.error e)
          | .ok u => some (.ok ⟨true, "DHTDynamic key pair generated", some ⟨pk, g, y, u⟩,
              some ⟨sk, a⟩⟩)

/-- `generateKeys`; the request's seed is not used. -/
def generateKeys (fuel : Nat) (algorithm_ : Option (SM9BLSAlgorithm G2))
    (input : BasePtr DHTDynamicKeyGenRequestExt) :
    Option (Except Exception (GenerateKeysResult G1 G2)) :=
  match input.cast with
  | none => some (.ok ⟨false, "DHTDynamicKeyGenRequestExt required", none, none⟩)
  | some _ =>
    match deref algorithm_ with
    | .error e => some (.error e)
    | .ok algorithm =>
      match algorithm.keyPair with
      | .null => some (.ok ⟨false, "SM9BLS key generation failed for file ID key", none, none⟩)
      | .foreign => some (.ok ⟨false, "Invalid key pair type returned from SM9BLS", none, none⟩)
      | .typed keyPair =>
        match keyPair.privateKeyPtr.cast, keyPair.publicKeyPtr.cast with
        | some sk, some pk => generateTagKey lib fuel algorithm.random sk pk
        | _, _ => some (.ok ⟨false, "Invalid public/private key type from SM9BLS", none, none⟩)

end DHTDynamic
