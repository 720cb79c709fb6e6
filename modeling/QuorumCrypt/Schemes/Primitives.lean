import QuorumCrypt.Schemes.Types
import QuorumCrypt.Base.PrimeOrder
import Mathlib.Tactic.NormNum.Prime

/-!
# What the schemes are built on

The groups of `mcore`, the hash functions, the authenticated cipher, the DER writer and the base64
encoding. Nothing is assumed of the hash functions but the length of the digest, and of the cipher
only that it decrypts what it encrypted under the same key and nonce. A scalar is a natural number:
`SizedBigInt` values are non-negative, and whether one is reduced modulo the group order is up to
the code that computes it.
-/

namespace QuorumCrypt

/-- A number written with the given number of bytes, most significant first. -/
def toBytesBE : ℕ → ℕ → Bytes
  | 0, _ => []
  | len + 1, x => toBytesBE len (x / 256) ++ [UInt8.ofNat (x % 256)]

theorem length_toBytesBE (len x : ℕ) : (toBytesBE len x).length = len := by
  induction len generalizing x with
  | zero => rfl
  | succ len ih => rw [toBytesBE, List.length_append, ih, List.length_singleton]

/-- A number written with the given number of bytes, least significant first. -/
def toBytesLE (len x : ℕ) : Bytes := (toBytesBE len x).reverse

def ofBytesBE (b : Bytes) : ℕ := b.foldl (fun acc byte => acc * 256 + byte.toNat) 0

theorem ofBytesBE_toBytesBE (len x : ℕ) : ofBytesBE (toBytesBE len x) = x % 256 ^ len := by
  induction len generalizing x with
  | zero => simp [toBytesBE, ofBytesBE, Nat.mod_one]
  | succ len ih =>
      have hstep : ofBytesBE (toBytesBE (len + 1) x)
          = ofBytesBE (toBytesBE len (x / 256)) * 256 + x % 256 := by
        simp [ofBytesBE, toBytesBE, List.foldl_append]
      rw [hstep, ih, pow_succ', Nat.mod_mul, Nat.add_comm, Nat.mul_comm]

theorem ofBytesBE_append_singleton (b : Bytes) (byte : UInt8) :
    ofBytesBE (b ++ [byte]) = ofBytesBE b * 256 + byte.toNat := by
  simp [ofBytesBE, List.foldl_append]

theorem ofBytesBE_lt (b : Bytes) : ofBytesBE b < 256 ^ b.length := by
  induction b using List.reverseRecOn with
  | nil => decide
  | append_singleton b byte ih =>
      have hbyte : byte.toNat < 256 := byte.toNat_lt
      rw [ofBytesBE_append_singleton, List.length_append, List.length_singleton, pow_succ]
      omega

/-- Bytes are the number they stand for, at their own length. -/
theorem toBytesBE_ofBytesBE (b : Bytes) : toBytesBE b.length (ofBytesBE b) = b := by
  induction b using List.reverseRecOn with
  | nil => rfl
  | append_singleton b byte ih =>
      have hbyte : byte.toNat < 256 := byte.toNat_lt
      have hdiv : (ofBytesBE b * 256 + byte.toNat) / 256 = ofBytesBE b := by omega
      have hmod : (ofBytesBE b * 256 + byte.toNat) % 256 = byte.toNat := by omega
      rw [ofBytesBE_append_singleton, List.length_append, List.length_singleton, toBytesBE, hdiv, hmod,
        ih, UInt8.ofNat_toNat]

theorem ofBytesBE_cons (byte : UInt8) (b : Bytes) :
    ofBytesBE (byte :: b) = byte.toNat * 256 ^ b.length + ofBytesBE b := by
  induction b using List.reverseRecOn with
  | nil => simp [ofBytesBE]
  | append_singleton b last ih =>
      rw [← List.cons_append, ofBytesBE_append_singleton, ofBytesBE_append_singleton, ih,
        List.length_append, List.length_singleton, pow_succ, ← Nat.mul_assoc]
      omega

/-- An element of the DER sequences the code writes. -/
inductive Asn1Element where
  | int (value : ℤ)
  | octets (value : Bytes)
  deriving DecidableEq

/-- ChaCha20Poly1305. Encryption fails only on a message beyond its length limit. -/
structure Aead where
  encrypt : Bytes → Bytes → Bytes → Option Bytes
  decrypt : Bytes → Bytes → Bytes → Option Bytes
  decrypt_encrypt : ∀ key nonce msg ctxt, encrypt key nonce msg = some ctxt →
    decrypt key nonce ctxt = some msg

/-- The functions of other crates and of `mcore` that the schemes call. -/
structure Primitives where
  hash256 : Bytes → Bytes
  length_hash256 : ∀ b, (hash256 b).length = 32
  hash512 : Bytes → Bytes
  length_hash512 : ∀ b, (hash512 b).length = 64
  aead : Aead
  asn1Write : List Asn1Element → Bytes
  base64UrlSafe : Bytes → String

/-- A cipher that writes the key and the nonce in front of the message and checks them. -/
def Aead.tagging : Aead where
  encrypt key nonce msg := some (key ++ nonce ++ msg)
  decrypt key nonce ctxt :=
    if (key ++ nonce).isPrefixOf ctxt then some (ctxt.drop (key ++ nonce).length) else none
  decrypt_encrypt := by
    intro key nonce msg ctxt h
    obtain rfl := Option.some.inj h
    rw [if_pos (by rw [List.isPrefixOf_iff_prefix]; exact List.prefix_append _ _),
      List.drop_left]

/-- Primitives small enough to compute with: the digests are the padded first bytes. -/
def Primitives.truncating : Primitives where
  hash256 b := (b ++ List.replicate 32 0).take 32
  length_hash256 b := by simp
  hash512 b := (b ++ List.replicate 64 0).take 64
  length_hash512 b := by simp
  aead := Aead.tagging
  asn1Write elements := elements.flatMap fun
    | .int value => toBytesBE 8 value.toNat
    | .octets value => value
  base64UrlSafe _ := ""

namespace Primitives

variable (E : Primitives)

/-- `keys.rs`: the id of a key is the hash of its encoding. -/
def calcKeyId (bytes : Bytes) : String := E.base64UrlSafe (E.hash256 bytes)

/-- The buffer from which the schemes read a hashed scalar: the digest, followed by digests of the
digest and a counter when the scalars of the group are longer than 128 bits. `HASH256::hash` resets
the hash state, so every block is a digest of its own input alone. -/
def expandDigest (nbytes : ℕ) (digest : Bytes) : Bytes :=
  let nbits := nbytes * 8
  if nbits > digest.length * 4 then
    (List.range' 1 ((nbits - digest.length * 4) / digest.length * 8 - 1)).foldl
      (fun buf i => buf ++ E.hash256 (digest ++ toBytesLE 8 i)) digest
  else digest

end Primitives

/-- A group of points of a curve, of prime order, with the uncompressed encoding of its points. -/
structure EcGroup (G : Type) [CommGroup G] extends PrimeGroup G where
  /-- The tag of the curve. -/
  group : Group
  isDl_group : group.isDl = true
  /-- The length of an encoded scalar. -/
  modbytes : ℕ
  toBytes : G → Bytes
  /-- The length of an encoded point: the schemes take the first twelve bytes for a nonce. -/
  pointLength : ℕ
  length_toBytes : ∀ x, (toBytes x).length = pointLength
  twelve_le_pointLength : 12 ≤ pointLength

/-- The residues modulo a prime in the place of the points of a curve. -/
def EcGroup.residues (p : ℕ) (hp : p.Prime) (group : Group) (hgroup : group.isDl = true) :
    EcGroup (Multiplicative (ZMod p)) where
  toPrimeGroup := @PrimeGroup.residues p ⟨hp⟩
  group := group
  isDl_group := hgroup
  modbytes := 32
  toBytes x := toBytesBE 16 (Multiplicative.toAdd x).val
  pointLength := 16
  length_toBytes _ := length_toBytesBE _ _
  twelve_le_pointLength := by decide

theorem fact_prime_seven : Fact (Nat.Prime 7) := ⟨Nat.prime_seven⟩

/-- A group small enough to compute with. -/
def EcGroup.seven : EcGroup (Multiplicative (ZMod 7)) := EcGroup.residues 7 Nat.prime_seven .bn254 rfl

theorem prime_wide : Nat.Prime 65539 := by norm_num

/-- A group with more elements than there are ids of parties. -/
def EcGroup.wide : EcGroup (Multiplicative (ZMod 65539)) := EcGroup.residues 65539 prime_wide .bn254 rfl

namespace EcGroup

variable {G : Type} [CommGroup G] (C : EcGroup G)

/-- `SizedBigInt::from_bytes` reads the first `MODBYTES` bytes. -/
def scalarFromBytes (b : Bytes) : ℕ := ofBytesBE (b.take C.modbytes)

def scalarToBytes (x : ℕ) : Bytes := toBytesBE C.modbytes x

theorem scalarFromBytes_lt (b : Bytes) : C.scalarFromBytes b < 256 ^ C.modbytes :=
  (ofBytesBE_lt _).trans_le (Nat.pow_le_pow_right (by decide) (List.length_take_le _ _))

/-- `SizedBigInt::new_rand`: what the generator returns, reduced modulo the group order. -/
def newRand (drawn : ℕ) : ℕ := drawn % C.order

/-- `GroupElement::new_pow_big`. -/
def newPowBig (x : ℕ) : G := C.generator ^ x

end EcGroup

/-- A curve with a pairing: the second group comes first, as in `ddh`. -/
structure PairingCurve (G₂ G₁ Gt : Type) [CommGroup G₂] [CommGroup G₁] [CommGroup Gt] where
  ecp2 : EcGroup G₂
  ecp : EcGroup G₁
  pairing : BilinearPairing Gt ecp2.toPrimeGroup ecp.toPrimeGroup
  group_eq : ecp2.group = ecp.group
  supportsPairings_group : ecp.group.supportsPairings = true

namespace PairingCurve

/-- The residues modulo seven, paired by their product. -/
def seven : PairingCurve (Multiplicative (ZMod 7)) (Multiplicative (ZMod 7))
    (Multiplicative (ZMod 7)) where
  ecp2 := EcGroup.seven
  ecp := EcGroup.seven
  pairing := @BilinearPairing.residues 7 fact_prime_seven
  group_eq := rfl
  supportsPairings_group := rfl

/-- A pairing of groups with more elements than there are ids of parties. -/
def wide : PairingCurve (Multiplicative (ZMod 65539)) (Multiplicative (ZMod 65539))
    (Multiplicative (ZMod 65539)) where
  ecp2 := EcGroup.wide
  ecp := EcGroup.wide
  pairing := @BilinearPairing.residues 65539 ⟨prime_wide⟩
  group_eq := rfl
  supportsPairings_group := rfl

variable {G₂ G₁ Gt : Type} [CommGroup G₂] [CommGroup G₁] [CommGroup Gt]
  (C : PairingCurve G₂ G₁ Gt)

theorem order_ecp : C.ecp.order = C.ecp2.order := C.pairing.order_eq.symm

variable [DecidableEq Gt]

/-- `GroupElement::ddh` on points of one curve: whether the two pairings are equal. -/
def ddh (x : G₂) (y : G₁) (z : G₂) (w : G₁) : SchemeOutcome Bool :=
  .ok (C.pairing.pair x y == C.pairing.pair z w)

theorem ddh_eq_ok_true {x z : G₂} {y w : G₁} :
    C.ddh x y z w = .ok true ↔ C.pairing.pair x y = C.pairing.pair z w := by
  simp [ddh]

end PairingCurve

section HashToScalar

variable {G : Type} [CommGroup G] (E : Primitives) (C : EcGroup G)

/-- The scalar the schemes read from the digest of `buf`, before any reduction. -/
def hashToScalar (buf : Bytes) : ℕ :=
  C.scalarFromBytes (E.expandDigest C.modbytes (E.hash256 buf))

end HashToScalar

/-- `self.mul_mod(y, q)`. -/
def mulMod (x y q : ℕ) : ℕ := x * y % q

/-- `self.inv_mod(q)`, which returns zero on zero. -/
def invMod (x q : ℕ) : ℕ := ((x : ZMod q)⁻¹).val

@[simp] theorem cast_mulMod (x y q : ℕ) : ((mulMod x y q : ℕ) : ZMod q) = x * y := by
  simp [mulMod]

@[simp] theorem cast_invMod (x q : ℕ) [NeZero q] : ((invMod x q : ℕ) : ZMod q) = (x : ZMod q)⁻¹ := by
  simp [invMod]

end QuorumCrypt
