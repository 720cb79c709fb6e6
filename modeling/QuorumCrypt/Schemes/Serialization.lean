import QuorumCrypt.Schemes.Interface
import QuorumCrypt.Schemes.Der
import QuorumCrypt.Base.Reader

/-!
# Keys, ciphertexts, shares and signatures as bytes

The `Serializable` implementations of the schemes and of `interface.rs` and `keys.rs`. Every value is
one DER sequence; a value of the interface is the id of the scheme and the sequence of the scheme's
own value. The decoders read the elements in the order of the code and decode points and scalars
where the code does: there `mcore` indexes the bytes it is given, and panics when they are too short.
A value of another group than a curve panics at its first point or scalar. All errors become
`DeserializationFailed` before they reach a caller.
-/

namespace QuorumCrypt

open Rust

/-! ### Tags -/

/-- Generated from the protobuf enumeration. -/
def Group.fromI32 : ℤ → Option Group
  | 0 => some .bls12381
  | 1 => some .bn254
  | 2 => some .ed25519
  | 3 => some .rsa512
  | 4 => some .rsa1024
  | 5 => some .rsa2048
  | 6 => some .rsa4096
  | _ => none

@[simp] theorem Group.fromI32_asI32 (group : Group) : Group.fromI32 group.asI32 = some group := by
  cases group <;> rfl

def ThresholdScheme.fromId : ℕ → Option ThresholdScheme
  | 0 => some .bz03
  | 1 => some .sg02
  | 2 => some .bls04
  | 3 => some .cks05
  | 4 => some .frost
  | 5 => some .sh00
  | _ => none

/-- The group of an RSA modulus, by its length. -/
def mb2group : ℕ → SchemeOutcome Group
  | 512 => .ok .rsa512
  | 1024 => .ok .rsa1024
  | 2048 => .ok .rsa2048
  | 4096 => .ok .rsa4096
  | _ => .panic

/-! ### What the decoders call -/

/-- The reader of the `asn1` crate: it reads back what its writer wrote. -/
structure Asn1Reader (E : Primitives) where
  read : Bytes → Option Asn1Contents
  read_asn1Write : ∀ es, read (E.asn1Write es) = some ⟨es, true⟩

/-- How `mcore` reads a point. `coordinate` is the length of a coordinate; `modulus` is the bound on
the first one where there is such a check. -/
structure PointFormat where
  coordinate : ℕ
  modulus : Option ℕ

/-- Whether `frombytes` stays inside the bytes: a byte of type and one coordinate, and the second
coordinate when the type is `0x04` and the first coordinate is not rejected before. -/
def PointFormat.InBounds (format : PointFormat) (b : Bytes) : Prop :=
  format.coordinate + 1 ≤ b.length
    ∧ (b.head? = some 0x04
      → format.modulus.all (fun p => ofBytesBE ((b.drop 1).take format.coordinate) < p) = true
      → 2 * format.coordinate + 1 ≤ b.length)

instance (format : PointFormat) (b : Bytes) : Decidable (format.InBounds b) :=
  inferInstanceAs (Decidable (_ ∧ (_ → _ → _)))

/-- `frombytes` of a curve: it inverts `tobytes` on the elements of the group. What it makes of other
bytes is left open, as long as it can index them. -/
structure PointDecoder {G : Type} [CommGroup G] (C : EcGroup G) extends PointFormat where
  decode : Bytes → G
  inBounds_toBytes : ∀ x, toPointFormat.InBounds (C.toBytes x)
  decode_toBytes : ∀ x, decode (C.toBytes x) = x

/-- `GroupElement::from_bytes` on a curve. -/
def PointDecoder.fromBytes {G : Type} [CommGroup G] {C : EcGroup G} (D : PointDecoder C) (b : Bytes) :
    SchemeOutcome G :=
  if D.InBounds b then .ok (D.decode b) else .panic

@[simp] theorem PointDecoder.fromBytes_toBytes {G : Type} [CommGroup G] {C : EcGroup G}
    (D : PointDecoder C) (x : G) : D.fromBytes (C.toBytes x) = .ok x := by
  rw [fromBytes, if_pos (D.inBounds_toBytes x), D.decode_toBytes]

structure Decoders (E : Primitives) (K : Curves) where
  asn1 : Asn1Reader E
  ecp : ∀ c, PointDecoder (K.ecp c)
  ecp2 : ∀ c, PointDecoder (K.ecp2 c)
  /-- A reduced scalar fits in its encoding. -/
  order_le : ∀ c, (K.ecp c).order ≤ 256 ^ (K.ecp c).modbytes

/-- The primitives of the tests, with the writer of DER. -/
def Primitives.der : Primitives := { Primitives.truncating with asn1Write := Der.write }

def Asn1Reader.der : Asn1Reader .der := ⟨Der.read, Der.read_write⟩

/-- The residues modulo seven as points: a byte of type other than `0x04`, and one coordinate. -/
def PointDecoder.residues (group : Group) (hgroup : group.isDl = true) :
    PointDecoder (EcGroup.residues 7 Nat.prime_seven group hgroup) where
  coordinate := 15
  modulus := none
  decode b := Multiplicative.ofAdd (ofBytesBE b : ZMod 7)
  inBounds_toBytes := by
    change ∀ x : ZMod 7, PointFormat.InBounds ⟨15, none⟩ (toBytesBE 16 x.val)
    decide
  decode_toBytes := by
    change ∀ x : ZMod 7, ((ofBytesBE (toBytesBE 16 x.val) : ℕ) : ZMod 7) = x
    decide

def Decoders.seven : Decoders .der .seven where
  asn1 := .der
  ecp c := .residues c.group c.isDl_group
  ecp2 c := .residues c.group c.isDl_group
  order_le _ := by
    change 7 ≤ 256 ^ 32
    norm_num

/-- `SizedBigInt::from_bytes` on a curve: `BIG::frombytes` indexes `MODBYTES` bytes. -/
def Curves.scalarFromBytes (K : Curves) (c : Curve) (b : Bytes) : SchemeOutcome ℕ :=
  if (K.ecp c).modbytes ≤ b.length then .ok ((K.ecp c).scalarFromBytes b) else .panic

/-! ### Texts -/

/-- `String::from_utf8`. -/
def fromUtf8 (b : Bytes) : Option String := String.fromUTF8? ⟨b.toArray⟩

def utf8Bytes (s : String) : Bytes := s.toUTF8.data.toList

/-! ### Encoders -/

section

variable {G G₂ G₁ : Type} [CommGroup G] [CommGroup G₂] [CommGroup G₁] (E : Primitives)
  (C : EcGroup G) (ecp2 : EcGroup G₂) (ecp : EcGroup G₁)

/-- The private keys of the discrete logarithm schemes. -/
def privateKeyBytes (id : UInt16) (xi : ℕ) (pubkey : Bytes) : Bytes :=
  E.asn1Write [.int id.toNat, .octets (C.scalarToBytes xi), .octets pubkey]

def Sg02PrivateKey.toBytes (key : Sg02PrivateKey G) : Bytes :=
  privateKeyBytes E C key.id key.xi (key.pubkey.toBytes E C)

def Bz03PrivateKey.toBytes (key : Bz03PrivateKey G₂ G₁) : Bytes :=
  privateKeyBytes E ecp key.id key.xi (key.pubkey.toBytes E ecp2 ecp)

def Bls04PrivateKey.toBytes (key : Bls04PrivateKey G) : Bytes :=
  privateKeyBytes E C key.id key.xi (key.pubkey.toBytes E C)

def Cks05PrivateKey.toBytes (key : Cks05PrivateKey G) : Bytes :=
  privateKeyBytes E C key.id key.xi (key.pubkey.toBytes E C)

def FrostPrivateKey.toBytes (key : FrostPrivateKey G) : Bytes :=
  privateKeyBytes E C key.id key.x (key.pubkey.toBytes E C)

def Sh00PrivateKey.toBytes (key : Sh00PrivateKey) : Bytes :=
  E.asn1Write [.int key.id.toNat, .octets (BigInt.toBytes key.m), .octets (BigInt.toBytes key.si),
    .octets (key.pubkey.toBytes E)]

def Sg02Ciphertext.toBytes (ct : Sg02Ciphertext G) : Bytes :=
  E.asn1Write [.int C.group.asI32, .octets ct.label, .octets ct.ctxt, .octets (C.toBytes ct.u),
    .octets (C.toBytes ct.uBar), .octets (C.scalarToBytes ct.e), .octets (C.scalarToBytes ct.f),
    .octets ct.ck, .octets (utf8Bytes ct.keyId)]

def Bz03Ciphertext.toBytes (ct : Bz03Ciphertext G₂ G₁) : Bytes :=
  E.asn1Write [.int ecp.group.asI32, .octets ct.label, .octets ct.ctxt, .octets (ecp2.toBytes ct.u),
    .octets (ecp.toBytes ct.hr), .octets ct.ck, .octets (utf8Bytes ct.keyId)]

def Sg02DecryptionShare.toBytes (share : Sg02DecryptionShare G) : Bytes :=
  E.asn1Write [.int share.id.toNat, .int C.group.asI32, .octets share.label,
    .octets (C.toBytes share.data), .octets (C.scalarToBytes share.ei),
    .octets (C.scalarToBytes share.fi)]

def Bz03DecryptionShare.toBytes (share : Bz03DecryptionShare G) : Bytes :=
  E.asn1Write [.int share.id.toNat, .int C.group.asI32, .octets share.label,
    .octets (C.toBytes share.data)]

def Bls04SignatureShare.toBytes (share : Bls04SignatureShare G) : Bytes :=
  E.asn1Write [.int share.id.toNat, .int C.group.asI32, .octets share.label,
    .octets (C.toBytes share.data)]

def Sh00SignatureShare.toBytes (share : Sh00SignatureShare) : Bytes :=
  E.asn1Write [.int share.id.toNat, .int share.group.asI32, .octets share.label,
    .octets (BigInt.toBytes share.xi), .octets (BigInt.toBytes share.z),
    .octets (BigInt.toBytes share.c)]

def FrostSignatureShare.toBytes (share : FrostSignatureShare) : Bytes :=
  E.asn1Write [.int share.id.toNat, .int C.group.asI32, .octets (C.scalarToBytes share.data)]

def Cks05CoinShare.toBytes (share : Cks05CoinShare G) : Bytes :=
  E.asn1Write [.int share.id.toNat, .int C.group.asI32, .octets (C.toBytes share.data),
    .octets (C.scalarToBytes share.c), .octets (C.scalarToBytes share.z)]

/-- The encoders of `interface.rs` and `keys.rs`. -/
def schemeBytes (scheme : ThresholdScheme) (bytes : Bytes) : Bytes :=
  E.asn1Write [.int scheme.getId, .octets bytes]

end

section

variable {K : Curves} (E : Primitives)

/-- The bytes of the scheme's own key, of which the key id is the hash. -/
def PublicKey.innerBytes : PublicKey K → Bytes
  | sg02 c key => key.toBytes E (K.ecp c)
  | bz03 c key => key.toBytes E (K.ecp2 c) (K.ecp c)
  | bls04 c key => key.toBytes E (K.ecp c)
  | cks05 c key => key.toBytes E (K.ecp c)
  | sh00 key => key.toBytes E
  | frost c key => key.toBytes E (K.ecp c)

def PublicKey.toBytes (key : PublicKey K) : Bytes :=
  schemeBytes E key.getScheme (key.innerBytes E)

def PublicKey.getKeyId : PublicKey K → String
  | sg02 _ key => key.id
  | bz03 _ key => key.id
  | bls04 _ key => key.id
  | cks05 _ key => key.id
  | sh00 key => key.id
  | frost _ key => key.id

def PrivateKeyShare.toBytes : PrivateKeyShare K → Bytes
  | sg02 c key => schemeBytes E .sg02 (key.toBytes E (K.ecp c))
  | bz03 c key => schemeBytes E .bz03 (key.toBytes E (K.ecp2 c) (K.ecp c))
  | bls04 c key => schemeBytes E .bls04 (key.toBytes E (K.ecp c))
  | cks05 c key => schemeBytes E .cks05 (key.toBytes E (K.ecp c))
  | sh00 key => schemeBytes E .sh00 (key.toBytes E)
  | frost c key => schemeBytes E .frost (key.toBytes E (K.ecp c))

def Ciphertext.toBytes : Ciphertext K → Bytes
  | sg02 c ct => schemeBytes E .sg02 (ct.toBytes E (K.ecp c))
  | bz03 c ct => schemeBytes E .bz03 (ct.toBytes E (K.ecp2 c) (K.ecp c))

def DecryptionShare.toBytes : DecryptionShare K → Bytes
  | sg02 c share => schemeBytes E .sg02 (share.toBytes E (K.ecp c))
  | bz03 c share => schemeBytes E .bz03 (share.toBytes E (K.ecp2 c))

def SignatureShare.toBytes : SignatureShare K → Bytes
  | bls04 c share => schemeBytes E .bls04 (share.toBytes E (K.ecp2 c))
  | sh00 share => schemeBytes E .sh00 (share.toBytes E)
  | frost c share => schemeBytes E .frost (share.toBytes E (K.ecp c))

def CoinShare.toBytes : CoinShare K → Bytes
  | cks05 c share => schemeBytes E .cks05 (share.toBytes E (K.ecp c))

end

/-! ### Elements -/

abbrev Asn1Parser := Reader Asn1Element SchemeError

namespace Asn1Element

def asOctets : Asn1Element → Option Bytes
  | octets value => some value
  | int _ => none

def asUnsigned (bits : ℕ) : Asn1Element → Option ℕ
  | int value => if 0 ≤ value ∧ value < 2 ^ bits then some value.toNat else none
  | octets _ => none

def asSigned32 : Asn1Element → Option ℤ
  | int value => if -2 ^ 31 ≤ value ∧ value < 2 ^ 31 then some value else none
  | octets _ => none

end Asn1Element

/-- `d.read_element::<&[u8]>()?`. -/
def readOctets : Asn1Parser Bytes := Reader.next .deserializationFailed Asn1Element.asOctets

def readU8 : Asn1Parser ℕ := Reader.next .deserializationFailed (Asn1Element.asUnsigned 8)

def readU64 : Asn1Parser ℕ := Reader.next .deserializationFailed (Asn1Element.asUnsigned 64)

def readI32 : Asn1Parser ℤ := Reader.next .deserializationFailed Asn1Element.asSigned32

/-- `d.read_element::<u64>()? as u16`: the conversion wraps around. -/
def readU16 : Asn1Parser UInt16 := do
  let value ← readU64
  pure (UInt16.ofNat value)

/-- An unknown group is an error. -/
def known {α : Type} (x : Option α) : Asn1Parser α :=
  Reader.call (Outcome.okOr x .deserializationFailed)

def readGroup : Asn1Parser Group := do
  let g ← readI32
  known (Group.fromI32 g)

/-- The first point or scalar decides on the curve; on another group it panics. -/
def onCurveOf (group : Group) : Asn1Parser Curve := Reader.call (Outcome.unwrap group.curve)

/-- `asn1::parse` of one sequence: what comes after the elements the parser takes is an error, but
only once the parser is done. -/
def Asn1Reader.parse {E : Primitives} {α : Type} (R : Asn1Reader E) (bytes : Bytes)
    (p : Asn1Parser α) : SchemeOutcome α :=
  match R.read bytes with
  | none => .err .deserializationFailed
  | some contents => do
      let (a, rest) ← p.run contents.elements
      if rest = [] ∧ contents.complete = true then .ok a else .err .deserializationFailed

variable {E : Primitives} {K : Curves} (D : Decoders E K)

def readPoint (c : Curve) : Asn1Parser (K.Point c) := do
  let b ← readOctets
  Reader.call ((D.ecp c).fromBytes b)

variable (K) in
def readScalar (c : Curve) : Asn1Parser ℕ := do
  let b ← readOctets
  Reader.call (K.scalarFromBytes c b)

def readBigInt : Asn1Parser ℕ := do
  let b ← readOctets
  pure (ofBytesBE b)

/-! ### Public keys -/

/-- The decoders of Bz03, Bls04 and Cks05: `y` is a point of the given kind. -/
def publicKeyFromBytes {Y P : Curve → Type} (yFromBytes : ∀ c, Bytes → SchemeOutcome (Y c))
    (key : ∀ c, String → UInt16 → UInt16 → Y c → List (K.Point c) → P c) (bytes : Bytes) :
    SchemeOutcome (Σ c, P c) :=
  D.asn1.parse bytes do
    let group ← readGroup
    let n ← readU16
    let k ← readU16
    let b ← readOctets
    let c ← onCurveOf group
    let y ← Reader.call (yFromBytes c b)
    let verificationKey ← Reader.times n.toNat (readPoint D c)
    pure ⟨c, key c (E.calcKeyId bytes) n k y verificationKey⟩

def Bz03PublicKey.fromBytes :
    Bytes → SchemeOutcome (Σ c, Bz03PublicKey (K.Point2 c) (K.Point c)) :=
  publicKeyFromBytes D (fun c => (D.ecp2 c).fromBytes) fun _ id n k y verificationKey =>
    { id, n, k, y, verificationKey }

def Bls04PublicKey.fromBytes : Bytes → SchemeOutcome (Σ c, Bls04PublicKey (K.Point c)) :=
  publicKeyFromBytes D (fun c => (D.ecp c).fromBytes) fun _ id n k y verificationKey =>
    { id, n, k, y, verificationKey }

def Cks05PublicKey.fromBytes : Bytes → SchemeOutcome (Σ c, Cks05PublicKey (K.Point c)) :=
  publicKeyFromBytes D (fun c => (D.ecp c).fromBytes) fun _ id n k y verificationKey =>
    { id, n, k, y, verificationKey }

def Sg02PublicKey.fromBytes (bytes : Bytes) : SchemeOutcome (Σ c, Sg02PublicKey (K.Point c)) :=
  D.asn1.parse bytes do
    let group ← readGroup
    let n ← readU16
    let k ← readU16
    let b ← readOctets
    let c ← onCurveOf group
    let y ← Reader.call ((D.ecp c).fromBytes b)
    let verificationKey ← Reader.times n.toNat (readPoint D c)
    let gBar ← readPoint D c
    pure ⟨c, { id := E.calcKeyId bytes, n, k, y, verificationKey, gBar }⟩

/-- Here the group is looked up before and checked after the two numbers. -/
def FrostPublicKey.fromBytes (bytes : Bytes) : SchemeOutcome (Σ c, FrostPublicKey (K.Point c)) :=
  D.asn1.parse bytes do
    let g ← readI32
    let n ← readU16
    let k ← readU16
    let group ← known (Group.fromI32 g)
    let b ← readOctets
    let c ← onCurveOf group
    let y ← Reader.call ((D.ecp c).fromBytes b)
    let h ← Reader.times n.toNat (readPoint D c)
    pure ⟨c, { id := E.calcKeyId bytes, n, k, y, h }⟩

def Sh00VerificationKey.fromBytes (R : Asn1Reader E) (bytes : Bytes) :
    SchemeOutcome Sh00VerificationKey :=
  R.parse bytes do
    let v ← readBigInt
    let len ← readU16
    let vi ← Reader.times len.toNat readBigInt
    let u ← readBigInt
    pure { v, vi, u }

def Sh00PublicKey.fromBytes (R : Asn1Reader E) (bytes : Bytes) : SchemeOutcome Sh00PublicKey :=
  R.parse bytes do
    let n ← readU16
    let t ← readU16
    let N ← readBigInt
    let e ← readBigInt
    let verifyBytes ← readOctets
    let verificationKey ← Reader.call (Sh00VerificationKey.fromBytes R verifyBytes)
    let delta ← readBigInt
    let modbits ← readU64
    let group ← Reader.call (mb2group modbits)
    pure { id := E.calcKeyId bytes, n, t, N, e, verificationKey, delta, modbits, group }

/-- `keys.rs`: the id of a key, from its own encoding. -/
def key2id (R : Asn1Reader E) (key : PublicKey K) : SchemeOutcome String :=
  let innerBytes := R.parse (key.toBytes E) do
    let _ ← readU8
    readOctets
  match innerBytes with
  | .ok bytes => .ok (E.calcKeyId bytes)
  | _ => .panic

/-! ### Private keys -/

/-- The decoders of the discrete logarithm schemes: the public key is decoded before the scalar, in
the group it names. -/
def privateKeyFromBytes {P S : Curve → Type} (pubkeyFromBytes : Bytes → SchemeOutcome (Σ c, P c))
    (key : ∀ c, UInt16 → ℕ → P c → S c) (bytes : Bytes) : SchemeOutcome (Σ c, S c) :=
  D.asn1.parse bytes do
    let id ← readU16
    let b ← readOctets
    let pubbytes ← readOctets
    let pubkey ← Reader.call (pubkeyFromBytes pubbytes)
    let xi ← Reader.call (K.scalarFromBytes pubkey.1 b)
    pure ⟨pubkey.1, key pubkey.1 id xi pubkey.2⟩

def Sg02PrivateKey.fromBytes : Bytes → SchemeOutcome (Σ c, Sg02PrivateKey (K.Point c)) :=
  privateKeyFromBytes D (Sg02PublicKey.fromBytes D) fun _ id xi pubkey => { id, xi, pubkey }

def Bz03PrivateKey.fromBytes :
    Bytes → SchemeOutcome (Σ c, Bz03PrivateKey (K.Point2 c) (K.Point c)) :=
  privateKeyFromBytes D (Bz03PublicKey.fromBytes D) fun _ id xi pubkey => { id, xi, pubkey }

def Bls04PrivateKey.fromBytes : Bytes → SchemeOutcome (Σ c, Bls04PrivateKey (K.Point c)) :=
  privateKeyFromBytes D (Bls04PublicKey.fromBytes D) fun _ id xi pubkey => { id, xi, pubkey }

def Cks05PrivateKey.fromBytes : Bytes → SchemeOutcome (Σ c, Cks05PrivateKey (K.Point c)) :=
  privateKeyFromBytes D (Cks05PublicKey.fromBytes D) fun _ id xi pubkey => { id, xi, pubkey }

def FrostPrivateKey.fromBytes : Bytes → SchemeOutcome (Σ c, FrostPrivateKey (K.Point c)) :=
  privateKeyFromBytes D (FrostPublicKey.fromBytes D) fun _ id x pubkey => { id, x, pubkey }

def Sh00PrivateKey.fromBytes (R : Asn1Reader E) (bytes : Bytes) : SchemeOutcome Sh00PrivateKey :=
  R.parse bytes do
    let id ← readU16
    let mbytes ← readOctets
    let sibytes ← readOctets
    let pubbytes ← readOctets
    let pubkey ← Reader.call (Sh00PublicKey.fromBytes R pubbytes)
    pure { id, m := ofBytesBE mbytes, si := ofBytesBE sibytes, pubkey }

/-! ### Ciphertexts, shares and signatures -/

def Sg02Ciphertext.fromBytes (bytes : Bytes) : SchemeOutcome (Σ c, Sg02Ciphertext (K.Point c)) :=
  D.asn1.parse bytes do
    let group ← readGroup
    let label ← readOctets
    let ctxt ← readOctets
    let b ← readOctets
    let c ← onCurveOf group
    let u ← Reader.call ((D.ecp c).fromBytes b)
    let uBar ← readPoint D c
    let e ← readScalar K c
    let f ← readScalar K c
    let ck ← readOctets
    let b ← readOctets
    let keyId ← known (fromUtf8 b)
    pure ⟨c, { label, ctxt, u, uBar, e, f, ck, keyId }⟩

def Bz03Ciphertext.fromBytes (bytes : Bytes) :
    SchemeOutcome (Σ c, Bz03Ciphertext (K.Point2 c) (K.Point c)) :=
  D.asn1.parse bytes do
    let group ← readGroup
    let label ← readOctets
    let ctxt ← readOctets
    let b ← readOctets
    let c ← onCurveOf group
    let u ← Reader.call ((D.ecp2 c).fromBytes b)
    let hr ← readPoint D c
    let ck ← readOctets
    let b ← readOctets
    let keyId ← known (fromUtf8 b)
    pure ⟨c, { label, ctxt, u, ck, hr, keyId }⟩

def Sg02DecryptionShare.fromBytes (bytes : Bytes) :
    SchemeOutcome (Σ c, Sg02DecryptionShare (K.Point c)) :=
  D.asn1.parse bytes do
    let id ← readU16
    let group ← readGroup
    let label ← readOctets
    let b ← readOctets
    let c ← onCurveOf group
    let data ← Reader.call ((D.ecp c).fromBytes b)
    let ei ← readScalar K c
    let fi ← readScalar K c
    pure ⟨c, { id, label, data, ei, fi }⟩

/-- The decoders of the shares of Bz03 and Bls04. -/
def shareFromBytes {S : Curve → Type} (share : ∀ c, UInt16 → Bytes → K.Point2 c → S c) (bytes : Bytes) :
    SchemeOutcome (Σ c, S c) :=
  D.asn1.parse bytes do
    let id ← readU16
    let group ← readGroup
    let label ← readOctets
    let b ← readOctets
    let c ← onCurveOf group
    let data ← Reader.call ((D.ecp2 c).fromBytes b)
    pure ⟨c, share c id label data⟩

def Bz03DecryptionShare.fromBytes : Bytes → SchemeOutcome (Σ c, Bz03DecryptionShare (K.Point2 c)) :=
  shareFromBytes D fun _ id label data => { id, label, data }

def Bls04SignatureShare.fromBytes : Bytes → SchemeOutcome (Σ c, Bls04SignatureShare (K.Point2 c)) :=
  shareFromBytes D fun _ id label data => { id, label, data }

def Sh00SignatureShare.fromBytes (R : Asn1Reader E) (bytes : Bytes) :
    SchemeOutcome Sh00SignatureShare :=
  R.parse bytes do
    let id ← readU16
    let group ← readGroup
    let label ← readOctets
    let xi ← readBigInt
    let z ← readBigInt
    let c ← readBigInt
    pure { id, group, label, xi, z, c }

/-- The curve of the scalar is part of the value. -/
def FrostSignatureShare.fromBytes (bytes : Bytes) : SchemeOutcome (Curve × FrostSignatureShare) :=
  D.asn1.parse bytes do
    let id ← readU16
    let group ← readGroup
    let b ← readOctets
    let c ← onCurveOf group
    let data ← Reader.call (K.scalarFromBytes c b)
    pure (c, { id, data })

def Bls04Signature.fromBytes (bytes : Bytes) : SchemeOutcome (Σ c, Bls04Signature (K.Point2 c)) :=
  D.asn1.parse bytes do
    let group ← readGroup
    let b ← readOctets
    let c ← onCurveOf group
    let sig ← Reader.call ((D.ecp2 c).fromBytes b)
    pure ⟨c, { sig }⟩

def Sh00Signature.fromBytes (R : Asn1Reader E) (bytes : Bytes) : SchemeOutcome Sh00Signature :=
  R.parse bytes do
    let sig ← readBigInt
    pure { sig }

def FrostSignature.fromBytes (bytes : Bytes) : SchemeOutcome (Σ c, FrostSignature (K.Point c)) :=
  D.asn1.parse bytes do
    let group ← readGroup
    let b ← readOctets
    let c ← onCurveOf group
    let R ← Reader.call ((D.ecp c).fromBytes b)
    let z ← readScalar K c
    pure ⟨c, { R, z }⟩

def Cks05CoinShare.fromBytes (bytes : Bytes) : SchemeOutcome (Σ c, Cks05CoinShare (K.Point c)) :=
  D.asn1.parse bytes do
    let id ← readU16
    let group ← readGroup
    let b ← readOctets
    let c ← onCurveOf group
    let data ← Reader.call ((D.ecp c).fromBytes b)
    let challenge ← readScalar K c
    let z ← readScalar K c
    pure ⟨c, { id, data, c := challenge, z }⟩

/-! ### The interface -/

/-- The decoders of `interface.rs` and `keys.rs`: the id of the scheme and the bytes of its value. A
scheme without such values is an error. -/
def schemeFromBytes {α : Type} (R : Asn1Reader E) (bytes : Bytes)
    (value : ThresholdScheme → Option (Bytes → SchemeOutcome α)) : SchemeOutcome α :=
  R.parse bytes do
    let id ← readU8
    let b ← readOctets
    let scheme ← known (ThresholdScheme.fromId id)
    let decoder ← known (value scheme)
    Reader.call (decoder b)

def PublicKey.fromBytes (bytes : Bytes) : SchemeOutcome (PublicKey K) :=
  schemeFromBytes D.asn1 bytes fun
    | .sg02 => some fun b => (fun key => .sg02 key.1 key.2) <$> Sg02PublicKey.fromBytes D b
    | .bz03 => some fun b => (fun key => .bz03 key.1 key.2) <$> Bz03PublicKey.fromBytes D b
    | .bls04 => some fun b => (fun key => .bls04 key.1 key.2) <$> Bls04PublicKey.fromBytes D b
    | .cks05 => some fun b => (fun key => .cks05 key.1 key.2) <$> Cks05PublicKey.fromBytes D b
    | .frost => some fun b => (fun key => .frost key.1 key.2) <$> FrostPublicKey.fromBytes D b
    | .sh00 => some fun b => .sh00 <$> Sh00PublicKey.fromBytes D.asn1 b

def PrivateKeyShare.fromBytes (bytes : Bytes) : SchemeOutcome (PrivateKeyShare K) :=
  schemeFromBytes D.asn1 bytes fun
    | .sg02 => some fun b => (fun key => .sg02 key.1 key.2) <$> Sg02PrivateKey.fromBytes D b
    | .bz03 => some fun b => (fun key => .bz03 key.1 key.2) <$> Bz03PrivateKey.fromBytes D b
    | .bls04 => some fun b => (fun key => .bls04 key.1 key.2) <$> Bls04PrivateKey.fromBytes D b
    | .cks05 => some fun b => (fun key => .cks05 key.1 key.2) <$> Cks05PrivateKey.fromBytes D b
    | .frost => some fun b => (fun key => .frost key.1 key.2) <$> FrostPrivateKey.fromBytes D b
    | .sh00 => some fun b => .sh00 <$> Sh00PrivateKey.fromBytes D.asn1 b

def Ciphertext.fromBytes (bytes : Bytes) : SchemeOutcome (Ciphertext K) :=
  schemeFromBytes D.asn1 bytes fun
    | .sg02 => some fun b => (fun ct => .sg02 ct.1 ct.2) <$> Sg02Ciphertext.fromBytes D b
    | .bz03 => some fun b => (fun ct => .bz03 ct.1 ct.2) <$> Bz03Ciphertext.fromBytes D b
    | _ => none

def DecryptionShare.fromBytes (bytes : Bytes) : SchemeOutcome (DecryptionShare K) :=
  schemeFromBytes D.asn1 bytes fun
    | .sg02 => some fun b => (fun s => .sg02 s.1 s.2) <$> Sg02DecryptionShare.fromBytes D b
    | .bz03 => some fun b => (fun s => .bz03 s.1 s.2) <$> Bz03DecryptionShare.fromBytes D b
    | _ => none

def SignatureShare.fromBytes (bytes : Bytes) : SchemeOutcome (SignatureShare K) :=
  schemeFromBytes D.asn1 bytes fun
    | .bls04 => some fun b => (fun s => .bls04 s.1 s.2) <$> Bls04SignatureShare.fromBytes D b
    | .frost => some fun b => (fun s => .frost s.1 s.2) <$> FrostSignatureShare.fromBytes D b
    | .sh00 => some fun b => .sh00 <$> Sh00SignatureShare.fromBytes D.asn1 b
    | _ => none

def Signature.fromBytes (bytes : Bytes) : SchemeOutcome (Signature K) :=
  schemeFromBytes D.asn1 bytes fun
    | .bls04 => some fun b => (fun s => .bls04 s.1 s.2) <$> Bls04Signature.fromBytes D b
    | .frost => some fun b => (fun s => .frost s.1 s.2) <$> FrostSignature.fromBytes D b
    | .sh00 => some fun b => .sh00 <$> Sh00Signature.fromBytes D.asn1 b
    | _ => none

def CoinShare.fromBytes (bytes : Bytes) : SchemeOutcome (CoinShare K) :=
  schemeFromBytes D.asn1 bytes fun
    | .cks05 => some fun b => (fun s => .cks05 s.1 s.2) <$> Cks05CoinShare.fromBytes D b
    | _ => none

end QuorumCrypt
