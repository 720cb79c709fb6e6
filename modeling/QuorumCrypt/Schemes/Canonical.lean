import QuorumCrypt.Schemes.WrittenForm

/-!
# Bytes that are the encoding of what they decode to

The decoders accept more than the encoders write. A number of 64 bits is cut to 16, so an id of 65537
becomes 1; a scalar is read off the first `MODBYTES` bytes of a string of any length; `mcore` takes
other bytes than its own for points; and the integers of an RSA key may begin with zeros. Everything
else in a sequence is read off one encoding only: the tags of groups and schemes, strings, and the DER
around them.

So a byte string that is decoded is the encoding of its value exactly when its elements are of the
right form at these places.
-/

namespace QuorumCrypt

open Rust

variable {E : Primitives} {K : Curves}

/-! ### Keys -/

section KeyConditions

/-- The public keys of the discrete logarithm schemes: behind the numbers stand points. -/
def publicKeyCanonical (K : Curves) (yCanonical : Curve → Bytes → Prop) : List Asn1Element → Prop
  | .int g :: .int n :: .int k :: .octets y :: points =>
      FitsU16 n ∧ FitsU16 k
      ∧ OnCurveOf g fun c => yCanonical c y ∧ ∀ b, .octets b ∈ points → IsPoint (K.ecp c) b
  | _ => True

def sh00VerificationKeyCanonical : List Asn1Element → Prop
  | .octets v :: .int len :: integers =>
      IsBigInt v ∧ FitsU16 len ∧ ∀ b, .octets b ∈ integers → IsBigInt b
  | _ => True

def sh00PublicKeyCanonical (R : Asn1Reader E) : List Asn1Element → Prop
  | [.int n, .int t, .octets N, .octets e, .octets vk, .octets delta, _] =>
      FitsU16 n ∧ FitsU16 t ∧ IsBigInt N ∧ IsBigInt e ∧ R.Elements sh00VerificationKeyCanonical vk
      ∧ IsBigInt delta
  | _ => True

/-- The scalar has the length of the curve that the public key names. -/
def scalarCanonical (K : Curves) (b : Bytes) : List Asn1Element → Prop
  | .int g :: _ => OnCurveOf g fun c => IsScalar K c b
  | _ => True

def privateKeyCanonical (K : Curves) (R : Asn1Reader E) (pubkey : List Asn1Element → Prop) :
    List Asn1Element → Prop
  | [.int id, .octets b, .octets pubbytes] =>
      FitsU16 id ∧ R.Elements (scalarCanonical K b) pubbytes ∧ R.Elements pubkey pubbytes
  | _ => True

def sh00PrivateKeyCanonical (R : Asn1Reader E) : List Asn1Element → Prop
  | [.int id, .octets m, .octets si, .octets pubbytes] =>
      FitsU16 id ∧ IsBigInt m ∧ IsBigInt si ∧ R.Elements (sh00PublicKeyCanonical R) pubbytes
  | _ => True

end KeyConditions

/-- When the encoding of a public key is the given bytes, and where these name its curve. -/
structure Asn1Reader.ReadsKey (R : Asn1Reader E) (canonical : List Asn1Element → Prop) (bytes : Bytes)
    (c : Curve) (written : Bytes) : Prop where
  written_eq_iff : written = bytes ↔ R.Elements canonical bytes
  group : ∃ rest, R.read bytes = some ⟨.int c.group.asI32 :: rest, true⟩

theorem Asn1Reader.Strict.readsKey {R : Asn1Reader E} (hstrict : R.Strict) {bytes : Bytes}
    {es written : List Asn1Element} {c : Curve} {canonical : List Asn1Element → Prop}
    (hread : R.read bytes = some ⟨.int c.group.asI32 :: es, true⟩)
    (h : written = .int c.group.asI32 :: es ↔ canonical (.int c.group.asI32 :: es)) :
    R.ReadsKey canonical bytes c (E.asn1Write written) where
  written_eq_iff := by
    rw [hstrict.asn1Write_eq_iff hread, elements_iff hread]
    exact h
  group := ⟨es, hread⟩

section Keys

variable {D : Decoders E K} (hstrict : D.asn1.Strict) {bytes : Bytes}

include hstrict

theorem readsKey_publicKey {Y P : Curve → Type} {yFromBytes : ∀ c, Bytes → SchemeOutcome (Y c)}
    {key : ∀ c, String → UInt16 → UInt16 → Y c → List (K.Point c) → P c} (yToBytes : ∀ c, Y c → Bytes)
    {yCanonical : Curve → Bytes → Prop}
    (hy : ∀ {c b y}, yFromBytes c b = .ok y → (yToBytes c y = b ↔ yCanonical c b))
    (toBytes : ∀ c, P c → Bytes)
    (htoBytes : ∀ c id n k y vks, toBytes c (key c id n k y vks)
      = E.asn1Write ([.int (K.ecp c).group.asI32, .int n.toNat, .int k.toNat, .octets (yToBytes c y)]
        ++ vks.map fun vk => .octets ((K.ecp c).toBytes vk)))
    {value : Σ c, P c} (h : publicKeyFromBytes D yFromBytes key bytes = .ok value) :
    D.asn1.ReadsKey (publicKeyCanonical K yCanonical) bytes value.1 (toBytes value.1 value.2) := by
  obtain ⟨es, hread, h₀⟩ := Asn1Reader.exists_of_parse h
  obtain ⟨group, es₁, rfl, h₁⟩ := exists_of_readGroup h₀
  obtain ⟨n, es₂, rfl, hn, h₂⟩ := exists_of_readU16 h₁
  obtain ⟨k, es₃, rfl, hk, h₃⟩ := exists_of_readU16 h₂
  obtain ⟨yBytes, es₄, rfl, h₄⟩ := exists_of_readOctets h₃
  obtain ⟨c, rfl, h₅⟩ := exists_of_onCurveOf h₄
  obtain ⟨y, hyBytes, h₆⟩ := exists_of_call h₅
  obtain ⟨points, es₇, vks, -, rfl, h₇, hpoints⟩ := exists_of_readPoints h₆
  obtain ⟨rfl, rfl⟩ := eq_of_pure h₇
  rw [htoBytes]
  apply hstrict.readsKey hread
  simp only [publicKeyCanonical, K.group_ecp, List.cons_append, List.nil_append, List.append_nil,
    List.cons.injEq, Asn1Element.int.injEq, Asn1Element.octets.injEq, true_and,
    toNat_ofNat_eq_iff hn, toNat_ofNat_eq_iff hk, onCurveOf_iff, hy hyBytes, hpoints]

theorem Sg02PublicKey.readsKey {key : Σ c, Sg02PublicKey (K.Point c)}
    (h : Sg02PublicKey.fromBytes D bytes = .ok key) :
    D.asn1.ReadsKey (publicKeyCanonical K fun c => IsPoint (K.ecp c)) bytes key.1
      (key.2.toBytes E (K.ecp key.1)) := by
  obtain ⟨es, hread, h₀⟩ := Asn1Reader.exists_of_parse h
  obtain ⟨group, es₁, rfl, h₁⟩ := exists_of_readGroup h₀
  obtain ⟨n, es₂, rfl, hn, h₂⟩ := exists_of_readU16 h₁
  obtain ⟨k, es₃, rfl, hk, h₃⟩ := exists_of_readU16 h₂
  obtain ⟨yBytes, es₄, rfl, h₄⟩ := exists_of_readOctets h₃
  obtain ⟨c, rfl, h₅⟩ := exists_of_onCurveOf h₄
  obtain ⟨y, hy, h₆⟩ := exists_of_call h₅
  obtain ⟨points, es₇, vks, -, rfl, h₇, hpoints⟩ := exists_of_readPoints h₆
  obtain ⟨gBarBytes, es₈, gBar, rfl, hgBar, h₈⟩ := exists_of_readPoint h₇
  obtain ⟨rfl, rfl⟩ := eq_of_pure h₈
  have hend : vks.map (fun x => Asn1Element.octets ((K.ecp c).toBytes x))
        ++ [Asn1Element.octets ((K.ecp c).toBytes gBar)] = points ++ [Asn1Element.octets gBarBytes]
      ↔ ∀ b, Asn1Element.octets b ∈ points ++ [Asn1Element.octets gBarBytes] →
        IsPoint (K.ecp c) b := by
    rw [List.append_singleton_inj, hpoints, Asn1Element.octets.injEq, toBytes_point_eq_iff hgBar]
    simp [or_imp, forall_and]
  apply hstrict.readsKey hread
  simp only [publicKeyCanonical, K.group_ecp, List.cons_append, List.nil_append,
    List.cons.injEq, Asn1Element.int.injEq, Asn1Element.octets.injEq, true_and,
    toNat_ofNat_eq_iff hn, toNat_ofNat_eq_iff hk, onCurveOf_iff, toBytes_point_eq_iff hy, hend]

theorem FrostPublicKey.readsKey {key : Σ c, FrostPublicKey (K.Point c)}
    (h : FrostPublicKey.fromBytes D bytes = .ok key) :
    D.asn1.ReadsKey (publicKeyCanonical K fun c => IsPoint (K.ecp c)) bytes key.1
      (key.2.toBytes E (K.ecp key.1)) := by
  obtain ⟨es, hread, h₀⟩ := Asn1Reader.exists_of_parse h
  obtain ⟨g, es₁, rfl, h₁⟩ := exists_of_readI32 h₀
  obtain ⟨n, es₂, rfl, hn, h₂⟩ := exists_of_readU16 h₁
  obtain ⟨k, es₃, rfl, hk, h₃⟩ := exists_of_readU16 h₂
  obtain ⟨group, hgroup, h₄⟩ := exists_of_known h₃
  obtain ⟨yBytes, es₅, rfl, h₅⟩ := exists_of_readOctets h₄
  obtain ⟨c, rfl, h₆⟩ := exists_of_onCurveOf h₅
  obtain ⟨y, hy, h₇⟩ := exists_of_call h₆
  obtain ⟨points, es₈, vks, -, rfl, h₈, hpoints⟩ := exists_of_readPoints h₇
  obtain ⟨rfl, rfl⟩ := eq_of_pure h₈
  obtain rfl := asI32_of_fromI32 hgroup
  apply hstrict.readsKey hread
  simp only [publicKeyCanonical, K.group_ecp, List.cons_append, List.nil_append, List.append_nil,
    List.cons.injEq, Asn1Element.int.injEq, Asn1Element.octets.injEq, true_and,
    toNat_ofNat_eq_iff hn, toNat_ofNat_eq_iff hk, onCurveOf_iff, toBytes_point_eq_iff hy, hpoints]

theorem Bz03PublicKey.readsKey {key : Σ c, Bz03PublicKey (K.Point2 c) (K.Point c)}
    (h : Bz03PublicKey.fromBytes D bytes = .ok key) :
    D.asn1.ReadsKey (publicKeyCanonical K fun c => IsPoint (K.ecp2 c)) bytes key.1
      (key.2.toBytes E (K.ecp2 key.1) (K.ecp key.1)) :=
  readsKey_publicKey hstrict (fun c => (K.ecp2 c).toBytes) toBytes_point_eq_iff
    (fun c => Bz03PublicKey.toBytes E (K.ecp2 c) (K.ecp c)) (fun _ _ _ _ _ _ => rfl) h

theorem Bls04PublicKey.readsKey {key : Σ c, Bls04PublicKey (K.Point c)}
    (h : Bls04PublicKey.fromBytes D bytes = .ok key) :
    D.asn1.ReadsKey (publicKeyCanonical K fun c => IsPoint (K.ecp c)) bytes key.1
      (key.2.toBytes E (K.ecp key.1)) :=
  readsKey_publicKey hstrict (fun c => (K.ecp c).toBytes) toBytes_point_eq_iff
    (fun c => Bls04PublicKey.toBytes E (K.ecp c)) (fun _ _ _ _ _ _ => rfl) h

theorem Cks05PublicKey.readsKey {key : Σ c, Cks05PublicKey (K.Point c)}
    (h : Cks05PublicKey.fromBytes D bytes = .ok key) :
    D.asn1.ReadsKey (publicKeyCanonical K fun c => IsPoint (K.ecp c)) bytes key.1
      (key.2.toBytes E (K.ecp key.1)) :=
  readsKey_publicKey hstrict (fun c => (K.ecp c).toBytes) toBytes_point_eq_iff
    (fun c => Cks05PublicKey.toBytes E (K.ecp c)) (fun _ _ _ _ _ _ => rfl) h

theorem Sh00VerificationKey.toBytes_eq_iff {vk : Sh00VerificationKey}
    (h : Sh00VerificationKey.fromBytes D.asn1 bytes = .ok vk) :
    vk.toBytes E = bytes ↔ D.asn1.Elements sh00VerificationKeyCanonical bytes := by
  refine hstrict.toBytes_eq_iff (fun es h₀ => ?_) h
  obtain ⟨v, es₁, rfl, h₁⟩ := exists_of_readBigInt h₀
  obtain ⟨len, es₂, rfl, hlen, h₂⟩ := exists_of_readU16 h₁
  obtain ⟨integers, es₃, vi, hlength, rfl, h₃, hintegers⟩ := exists_of_readBigInts h₂
  obtain ⟨u, es₄, rfl, h₄⟩ := exists_of_readBigInt h₃
  obtain ⟨rfl, rfl⟩ := eq_of_pure h₄
  have hend : vi.map (fun x => Asn1Element.octets (BigInt.toBytes x))
        ++ [Asn1Element.octets (BigInt.toBytes (ofBytesBE u))] = integers ++ [Asn1Element.octets u]
      ↔ ∀ b, Asn1Element.octets b ∈ integers ++ [Asn1Element.octets u] → IsBigInt b := by
    rw [List.append_singleton_inj, hintegers, Asn1Element.octets.injEq,
      BigInt.toBytes_ofBytesBE_eq_iff]
    simp [or_imp, forall_and, IsBigInt]
  simp only [sh00VerificationKeyCanonical, List.cons_append, List.nil_append, List.cons.injEq,
    Asn1Element.int.injEq, Asn1Element.octets.injEq, BigInt.toBytes_ofBytesBE_eq_iff, hlength,
    toNat_ofNat_eq_iff hlen, hend]
  rfl

theorem Sh00PublicKey.toBytes_eq_iff {key : Sh00PublicKey}
    (h : Sh00PublicKey.fromBytes D.asn1 bytes = .ok key) :
    key.toBytes E = bytes ↔ D.asn1.Elements (sh00PublicKeyCanonical D.asn1) bytes := by
  refine hstrict.toBytes_eq_iff (fun es h₀ => ?_) h
  obtain ⟨n, es₁, rfl, hn, h₁⟩ := exists_of_readU16 h₀
  obtain ⟨t, es₂, rfl, ht, h₂⟩ := exists_of_readU16 h₁
  obtain ⟨N, es₃, rfl, h₃⟩ := exists_of_readBigInt h₂
  obtain ⟨e, es₄, rfl, h₄⟩ := exists_of_readBigInt h₃
  obtain ⟨verifyBytes, es₅, rfl, h₅⟩ := exists_of_readOctets h₄
  obtain ⟨vk, hvk, h₆⟩ := exists_of_call h₅
  obtain ⟨delta, es₇, rfl, h₇⟩ := exists_of_readBigInt h₆
  obtain ⟨modbits, es₈, rfl, hmodbits, h₈⟩ := exists_of_readU64 h₇
  obtain ⟨group, -, h₉⟩ := exists_of_call h₈
  obtain ⟨rfl, rfl⟩ := eq_of_pure h₉
  simp only [sh00PublicKeyCanonical, List.cons.injEq, Asn1Element.int.injEq, Asn1Element.octets.injEq,
    and_true, toNat_ofNat_eq_iff hn, toNat_ofNat_eq_iff ht, BigInt.toBytes_ofBytesBE_eq_iff,
    Sh00VerificationKey.toBytes_eq_iff hstrict hvk, Int.toNat_of_nonneg hmodbits, IsBigInt]

theorem privateKey_toBytes_eq_iff {P S : Curve → Type}
    {pubkeyFromBytes : Bytes → SchemeOutcome (Σ c, P c)} {key : ∀ c, UInt16 → ℕ → P c → S c}
    {pubkeyCanonical : List Asn1Element → Prop} (pubkeyToBytes : ∀ c, P c → Bytes)
    (hpubkey : ∀ {bytes pubkey}, pubkeyFromBytes bytes = .ok pubkey →
      D.asn1.ReadsKey pubkeyCanonical bytes pubkey.1 (pubkeyToBytes pubkey.1 pubkey.2))
    (toBytes : ∀ c, S c → Bytes)
    (htoBytes : ∀ c id xi pubkey, toBytes c (key c id xi pubkey)
      = privateKeyBytes E (K.ecp c) id xi (pubkeyToBytes c pubkey))
    {value : Σ c, S c} (h : privateKeyFromBytes D pubkeyFromBytes key bytes = .ok value) :
    toBytes value.1 value.2 = bytes
      ↔ D.asn1.Elements (privateKeyCanonical K D.asn1 pubkeyCanonical) bytes := by
  obtain ⟨es, hread, h₀⟩ := Asn1Reader.exists_of_parse h
  obtain ⟨id, es₁, rfl, hid, h₁⟩ := exists_of_readU16 h₀
  obtain ⟨b, es₂, rfl, h₂⟩ := exists_of_readOctets h₁
  obtain ⟨pubbytes, es₃, rfl, h₃⟩ := exists_of_readOctets h₂
  obtain ⟨pubkey, hpub, h₄⟩ := exists_of_call h₃
  obtain ⟨xi, hxi, h₅⟩ := exists_of_call h₄
  obtain ⟨rfl, rfl⟩ := eq_of_pure h₅
  obtain ⟨hpubbytes, rest, hpubread⟩ := hpubkey hpub
  rw [htoBytes, privateKeyBytes, hstrict.asn1Write_eq_iff hread, Asn1Reader.elements_iff hread]
  simp only [privateKeyCanonical, List.cons.injEq, Asn1Element.int.injEq, Asn1Element.octets.injEq,
    and_true, toNat_ofNat_eq_iff hid, scalarToBytes_eq_iff hxi, hpubbytes,
    Asn1Reader.elements_iff hpubread, scalarCanonical, onCurveOf_iff]

theorem Sh00PrivateKey.toBytes_eq_iff {key : Sh00PrivateKey}
    (h : Sh00PrivateKey.fromBytes D.asn1 bytes = .ok key) :
    key.toBytes E = bytes ↔ D.asn1.Elements (sh00PrivateKeyCanonical D.asn1) bytes := by
  refine hstrict.toBytes_eq_iff (fun es h₀ => ?_) h
  obtain ⟨id, es₁, rfl, hid, h₁⟩ := exists_of_readU16 h₀
  obtain ⟨m, es₂, rfl, h₂⟩ := exists_of_readOctets h₁
  obtain ⟨si, es₃, rfl, h₃⟩ := exists_of_readOctets h₂
  obtain ⟨pubbytes, es₄, rfl, h₄⟩ := exists_of_readOctets h₃
  obtain ⟨pubkey, hpub, h₅⟩ := exists_of_call h₄
  obtain ⟨rfl, rfl⟩ := eq_of_pure h₅
  simp only [sh00PrivateKeyCanonical, List.cons.injEq, Asn1Element.int.injEq, Asn1Element.octets.injEq,
    and_true, toNat_ofNat_eq_iff hid, BigInt.toBytes_ofBytesBE_eq_iff,
    Sh00PublicKey.toBytes_eq_iff hstrict hpub, IsBigInt]

end Keys

/-! ### Ciphertexts, shares and signatures -/

section Conditions

variable (K)

def sg02CiphertextCanonical : List Asn1Element → Prop
  | [.int g, _, _, .octets u, .octets uBar, .octets e, .octets f, _, _] =>
      OnCurveOf g fun c =>
        IsPoint (K.ecp c) u ∧ IsPoint (K.ecp c) uBar ∧ IsScalar K c e ∧ IsScalar K c f
  | _ => True

def bz03CiphertextCanonical : List Asn1Element → Prop
  | [.int g, _, _, .octets u, .octets hr, _, _] =>
      OnCurveOf g fun c => IsPoint (K.ecp2 c) u ∧ IsPoint (K.ecp c) hr
  | _ => True

def sg02DecryptionShareCanonical : List Asn1Element → Prop
  | [.int id, .int g, _, .octets data, .octets ei, .octets fi] =>
      FitsU16 id
      ∧ OnCurveOf g fun c => IsPoint (K.ecp c) data ∧ IsScalar K c ei ∧ IsScalar K c fi
  | _ => True

/-- The shares of Bz03 and Bls04. -/
def shareCanonical : List Asn1Element → Prop
  | [.int id, .int g, _, .octets data] =>
      FitsU16 id ∧ OnCurveOf g fun c => IsPoint (K.ecp2 c) data
  | _ => True

def sh00SignatureShareCanonical : List Asn1Element → Prop
  | [.int id, _, _, .octets xi, .octets z, .octets c] =>
      FitsU16 id ∧ IsBigInt xi ∧ IsBigInt z ∧ IsBigInt c
  | _ => True

def frostSignatureShareCanonical : List Asn1Element → Prop
  | [.int id, .int g, .octets data] => FitsU16 id ∧ OnCurveOf g fun c => IsScalar K c data
  | _ => True

def bls04SignatureCanonical : List Asn1Element → Prop
  | [.int g, .octets sig] => OnCurveOf g fun c => IsPoint (K.ecp2 c) sig
  | _ => True

def sh00SignatureCanonical : List Asn1Element → Prop
  | [.octets sig] => IsBigInt sig
  | _ => True

def frostSignatureCanonical : List Asn1Element → Prop
  | [.int g, .octets R, .octets z] =>
      OnCurveOf g fun c => IsPoint (K.ecp c) R ∧ IsScalar K c z
  | _ => True

def cks05CoinShareCanonical : List Asn1Element → Prop
  | [.int id, .int g, .octets data, .octets challenge, .octets z] =>
      FitsU16 id
      ∧ OnCurveOf g fun c => IsPoint (K.ecp c) data ∧ IsScalar K c challenge ∧ IsScalar K c z
  | _ => True

end Conditions

section Values

variable {D : Decoders E K} (hstrict : D.asn1.Strict) {bytes : Bytes}

include hstrict

theorem Sg02Ciphertext.toBytes_eq_iff {ct : Σ c, Sg02Ciphertext (K.Point c)}
    (h : Sg02Ciphertext.fromBytes D bytes = .ok ct) :
    ct.2.toBytes E (K.ecp ct.1) = bytes ↔ D.asn1.Elements (sg02CiphertextCanonical K) bytes := by
  refine hstrict.toBytes_eq_iff (fun es h₀ => ?_) h
  obtain ⟨group, es₁, rfl, h₁⟩ := exists_of_readGroup h₀
  obtain ⟨label, es₂, rfl, h₂⟩ := exists_of_readOctets h₁
  obtain ⟨ctxt, es₃, rfl, h₃⟩ := exists_of_readOctets h₂
  obtain ⟨uBytes, es₄, rfl, h₄⟩ := exists_of_readOctets h₃
  obtain ⟨c, rfl, h₅⟩ := exists_of_onCurveOf h₄
  obtain ⟨u, hu, h₆⟩ := exists_of_call h₅
  obtain ⟨uBarBytes, es₇, uBar, rfl, huBar, h₇⟩ := exists_of_readPoint h₆
  obtain ⟨eBytes, es₈, e, rfl, he, h₈⟩ := exists_of_readScalar h₇
  obtain ⟨fBytes, es₉, f, rfl, hf, h₉⟩ := exists_of_readScalar h₈
  obtain ⟨ck, es₁₀, rfl, h₁₀⟩ := exists_of_readOctets h₉
  obtain ⟨keyIdBytes, es₁₁, rfl, h₁₁⟩ := exists_of_readOctets h₁₀
  obtain ⟨keyId, hkeyId, h₁₂⟩ := exists_of_known h₁₁
  obtain ⟨rfl, rfl⟩ := eq_of_pure h₁₂
  simp only [sg02CiphertextCanonical, K.group_ecp, List.cons.injEq, Asn1Element.octets.injEq, and_true,
    true_and, onCurveOf_iff, toBytes_point_eq_iff hu, toBytes_point_eq_iff huBar,
    scalarToBytes_eq_iff he, scalarToBytes_eq_iff hf, utf8Bytes_of_fromUtf8 hkeyId]

theorem Bz03Ciphertext.toBytes_eq_iff {ct : Σ c, Bz03Ciphertext (K.Point2 c) (K.Point c)}
    (h : Bz03Ciphertext.fromBytes D bytes = .ok ct) :
    ct.2.toBytes E (K.ecp2 ct.1) (K.ecp ct.1) = bytes
      ↔ D.asn1.Elements (bz03CiphertextCanonical K) bytes := by
  refine hstrict.toBytes_eq_iff (fun es h₀ => ?_) h
  obtain ⟨group, es₁, rfl, h₁⟩ := exists_of_readGroup h₀
  obtain ⟨label, es₂, rfl, h₂⟩ := exists_of_readOctets h₁
  obtain ⟨ctxt, es₃, rfl, h₃⟩ := exists_of_readOctets h₂
  obtain ⟨uBytes, es₄, rfl, h₄⟩ := exists_of_readOctets h₃
  obtain ⟨c, rfl, h₅⟩ := exists_of_onCurveOf h₄
  obtain ⟨u, hu, h₆⟩ := exists_of_call h₅
  obtain ⟨hrBytes, es₇, hr, rfl, hhr, h₇⟩ := exists_of_readPoint h₆
  obtain ⟨ck, es₈, rfl, h₈⟩ := exists_of_readOctets h₇
  obtain ⟨keyIdBytes, es₉, rfl, h₉⟩ := exists_of_readOctets h₈
  obtain ⟨keyId, hkeyId, h₁₀⟩ := exists_of_known h₉
  obtain ⟨rfl, rfl⟩ := eq_of_pure h₁₀
  simp only [bz03CiphertextCanonical, K.group_ecp, List.cons.injEq, Asn1Element.octets.injEq, and_true,
    true_and, onCurveOf_iff, toBytes_point_eq_iff hu, toBytes_point_eq_iff hhr,
    utf8Bytes_of_fromUtf8 hkeyId]

theorem Sg02DecryptionShare.toBytes_eq_iff {share : Σ c, Sg02DecryptionShare (K.Point c)}
    (h : Sg02DecryptionShare.fromBytes D bytes = .ok share) :
    share.2.toBytes E (K.ecp share.1) = bytes
      ↔ D.asn1.Elements (sg02DecryptionShareCanonical K) bytes := by
  refine hstrict.toBytes_eq_iff (fun es h₀ => ?_) h
  obtain ⟨id, es₁, rfl, hid, h₁⟩ := exists_of_readU16 h₀
  obtain ⟨group, es₂, rfl, h₂⟩ := exists_of_readGroup h₁
  obtain ⟨label, es₃, rfl, h₃⟩ := exists_of_readOctets h₂
  obtain ⟨dataBytes, es₄, rfl, h₄⟩ := exists_of_readOctets h₃
  obtain ⟨c, rfl, h₅⟩ := exists_of_onCurveOf h₄
  obtain ⟨data, hdata, h₆⟩ := exists_of_call h₅
  obtain ⟨eiBytes, es₇, ei, rfl, hei, h₇⟩ := exists_of_readScalar h₆
  obtain ⟨fiBytes, es₈, fi, rfl, hfi, h₈⟩ := exists_of_readScalar h₇
  obtain ⟨rfl, rfl⟩ := eq_of_pure h₈
  simp only [sg02DecryptionShareCanonical, K.group_ecp, List.cons.injEq, Asn1Element.int.injEq,
    Asn1Element.octets.injEq, and_true, true_and, toNat_ofNat_eq_iff hid, onCurveOf_iff,
    toBytes_point_eq_iff hdata, scalarToBytes_eq_iff hei, scalarToBytes_eq_iff hfi]

theorem share_toBytes_eq_iff {S : Curve → Type} {share : ∀ c, UInt16 → Bytes → K.Point2 c → S c}
    (toBytes : ∀ c, S c → Bytes)
    (htoBytes : ∀ c id label data, toBytes c (share c id label data)
      = E.asn1Write [.int id.toNat, .int (K.ecp2 c).group.asI32, .octets label,
        .octets ((K.ecp2 c).toBytes data)])
    {value : Σ c, S c} (h : shareFromBytes D share bytes = .ok value) :
    toBytes value.1 value.2 = bytes ↔ D.asn1.Elements (shareCanonical K) bytes := by
  obtain ⟨es, hread, h₀⟩ := Asn1Reader.exists_of_parse h
  obtain ⟨id, es₁, rfl, hid, h₁⟩ := exists_of_readU16 h₀
  obtain ⟨group, es₂, rfl, h₂⟩ := exists_of_readGroup h₁
  obtain ⟨label, es₃, rfl, h₃⟩ := exists_of_readOctets h₂
  obtain ⟨dataBytes, es₄, rfl, h₄⟩ := exists_of_readOctets h₃
  obtain ⟨c, rfl, h₅⟩ := exists_of_onCurveOf h₄
  obtain ⟨data, hdata, h₆⟩ := exists_of_call h₅
  obtain ⟨rfl, rfl⟩ := eq_of_pure h₆
  rw [htoBytes, hstrict.asn1Write_eq_iff hread, Asn1Reader.elements_iff hread]
  simp only [shareCanonical, K.group_ecp2, List.cons.injEq, Asn1Element.int.injEq,
    Asn1Element.octets.injEq, and_true, true_and, toNat_ofNat_eq_iff hid, onCurveOf_iff,
    toBytes_point_eq_iff hdata]

theorem Bz03DecryptionShare.toBytes_eq_iff {share : Σ c, Bz03DecryptionShare (K.Point2 c)}
    (h : Bz03DecryptionShare.fromBytes D bytes = .ok share) :
    share.2.toBytes E (K.ecp2 share.1) = bytes ↔ D.asn1.Elements (shareCanonical K) bytes :=
  share_toBytes_eq_iff hstrict (fun c => Bz03DecryptionShare.toBytes E (K.ecp2 c)) (fun _ _ _ _ => rfl) h

theorem Bls04SignatureShare.toBytes_eq_iff {share : Σ c, Bls04SignatureShare (K.Point2 c)}
    (h : Bls04SignatureShare.fromBytes D bytes = .ok share) :
    share.2.toBytes E (K.ecp2 share.1) = bytes ↔ D.asn1.Elements (shareCanonical K) bytes :=
  share_toBytes_eq_iff hstrict (fun c => Bls04SignatureShare.toBytes E (K.ecp2 c)) (fun _ _ _ _ => rfl) h

theorem Sh00SignatureShare.toBytes_eq_iff {share : Sh00SignatureShare}
    (h : Sh00SignatureShare.fromBytes D.asn1 bytes = .ok share) :
    share.toBytes E = bytes ↔ D.asn1.Elements sh00SignatureShareCanonical bytes := by
  refine hstrict.toBytes_eq_iff (fun es h₀ => ?_) h
  obtain ⟨id, es₁, rfl, hid, h₁⟩ := exists_of_readU16 h₀
  obtain ⟨group, es₂, rfl, h₂⟩ := exists_of_readGroup h₁
  obtain ⟨label, es₃, rfl, h₃⟩ := exists_of_readOctets h₂
  obtain ⟨xi, es₄, rfl, h₄⟩ := exists_of_readBigInt h₃
  obtain ⟨z, es₅, rfl, h₅⟩ := exists_of_readBigInt h₄
  obtain ⟨c, es₆, rfl, h₆⟩ := exists_of_readBigInt h₅
  obtain ⟨rfl, rfl⟩ := eq_of_pure h₆
  simp only [sh00SignatureShareCanonical, List.cons.injEq, Asn1Element.int.injEq,
    Asn1Element.octets.injEq, and_true, true_and, toNat_ofNat_eq_iff hid,
    BigInt.toBytes_ofBytesBE_eq_iff, IsBigInt]

theorem FrostSignatureShare.toBytes_eq_iff {share : Curve × FrostSignatureShare}
    (h : FrostSignatureShare.fromBytes D bytes = .ok share) :
    share.2.toBytes E (K.ecp share.1) = bytes
      ↔ D.asn1.Elements (frostSignatureShareCanonical K) bytes := by
  refine hstrict.toBytes_eq_iff (fun es h₀ => ?_) h
  obtain ⟨id, es₁, rfl, hid, h₁⟩ := exists_of_readU16 h₀
  obtain ⟨group, es₂, rfl, h₂⟩ := exists_of_readGroup h₁
  obtain ⟨dataBytes, es₃, rfl, h₃⟩ := exists_of_readOctets h₂
  obtain ⟨c, rfl, h₄⟩ := exists_of_onCurveOf h₃
  obtain ⟨data, hdata, h₅⟩ := exists_of_call h₄
  obtain ⟨rfl, rfl⟩ := eq_of_pure h₅
  simp only [frostSignatureShareCanonical, K.group_ecp, List.cons.injEq, Asn1Element.int.injEq,
    Asn1Element.octets.injEq, and_true, true_and, toNat_ofNat_eq_iff hid, onCurveOf_iff,
    scalarToBytes_eq_iff hdata]

theorem Bls04Signature.toBytes_eq_iff {sig : Σ c, Bls04Signature (K.Point2 c)}
    (h : Bls04Signature.fromBytes D bytes = .ok sig) :
    sig.2.toBytes E (K.ecp2 sig.1) = bytes ↔ D.asn1.Elements (bls04SignatureCanonical K) bytes := by
  refine hstrict.toBytes_eq_iff (fun es h₀ => ?_) h
  obtain ⟨group, es₁, rfl, h₁⟩ := exists_of_readGroup h₀
  obtain ⟨sigBytes, es₂, rfl, h₂⟩ := exists_of_readOctets h₁
  obtain ⟨c, rfl, h₃⟩ := exists_of_onCurveOf h₂
  obtain ⟨sig, hsig, h₄⟩ := exists_of_call h₃
  obtain ⟨rfl, rfl⟩ := eq_of_pure h₄
  simp only [bls04SignatureCanonical, K.group_ecp2, List.cons.injEq, Asn1Element.octets.injEq, and_true,
    true_and, onCurveOf_iff, toBytes_point_eq_iff hsig]

theorem Sh00Signature.toBytes_eq_iff {sig : Sh00Signature}
    (h : Sh00Signature.fromBytes D.asn1 bytes = .ok sig) :
    sig.toBytes E = bytes ↔ D.asn1.Elements sh00SignatureCanonical bytes := by
  refine hstrict.toBytes_eq_iff (fun es h₀ => ?_) h
  obtain ⟨sig, es₁, rfl, h₁⟩ := exists_of_readBigInt h₀
  obtain ⟨rfl, rfl⟩ := eq_of_pure h₁
  simp only [sh00SignatureCanonical, List.cons.injEq, Asn1Element.octets.injEq, and_true,
    BigInt.toBytes_ofBytesBE_eq_iff, IsBigInt]

theorem FrostSignature.toBytes_eq_iff {sig : Σ c, FrostSignature (K.Point c)}
    (h : FrostSignature.fromBytes D bytes = .ok sig) :
    sig.2.toBytes E (K.ecp sig.1) = bytes ↔ D.asn1.Elements (frostSignatureCanonical K) bytes := by
  refine hstrict.toBytes_eq_iff (fun es h₀ => ?_) h
  obtain ⟨group, es₁, rfl, h₁⟩ := exists_of_readGroup h₀
  obtain ⟨RBytes, es₂, rfl, h₂⟩ := exists_of_readOctets h₁
  obtain ⟨c, rfl, h₃⟩ := exists_of_onCurveOf h₂
  obtain ⟨R, hR, h₄⟩ := exists_of_call h₃
  obtain ⟨zBytes, es₅, z, rfl, hz, h₅⟩ := exists_of_readScalar h₄
  obtain ⟨rfl, rfl⟩ := eq_of_pure h₅
  simp only [frostSignatureCanonical, K.group_ecp, List.cons.injEq, Asn1Element.octets.injEq, and_true,
    true_and, onCurveOf_iff, toBytes_point_eq_iff hR, scalarToBytes_eq_iff hz]

theorem Cks05CoinShare.toBytes_eq_iff {share : Σ c, Cks05CoinShare (K.Point c)}
    (h : Cks05CoinShare.fromBytes D bytes = .ok share) :
    share.2.toBytes E (K.ecp share.1) = bytes
      ↔ D.asn1.Elements (cks05CoinShareCanonical K) bytes := by
  refine hstrict.toBytes_eq_iff (fun es h₀ => ?_) h
  obtain ⟨id, es₁, rfl, hid, h₁⟩ := exists_of_readU16 h₀
  obtain ⟨group, es₂, rfl, h₂⟩ := exists_of_readGroup h₁
  obtain ⟨dataBytes, es₃, rfl, h₃⟩ := exists_of_readOctets h₂
  obtain ⟨c, rfl, h₄⟩ := exists_of_onCurveOf h₃
  obtain ⟨data, hdata, h₅⟩ := exists_of_call h₄
  obtain ⟨challengeBytes, es₆, challenge, rfl, hchallenge, h₆⟩ := exists_of_readScalar h₅
  obtain ⟨zBytes, es₇, z, rfl, hz, h₇⟩ := exists_of_readScalar h₆
  obtain ⟨rfl, rfl⟩ := eq_of_pure h₇
  simp only [cks05CoinShareCanonical, K.group_ecp, List.cons.injEq, Asn1Element.int.injEq,
    Asn1Element.octets.injEq, and_true, true_and, toNat_ofNat_eq_iff hid, onCurveOf_iff,
    toBytes_point_eq_iff hdata, scalarToBytes_eq_iff hchallenge, scalarToBytes_eq_iff hz]

end Values

/-! ### The interface -/

/-- What the elements of the value of each scheme must be. -/
abbrev SchemeCanonical := ThresholdScheme → List Asn1Element → Prop

/-- A value of the interface is of the right form when the value inside is. -/
def Asn1Reader.schemeCanonical (R : Asn1Reader E) (canonical : SchemeCanonical) :
    List Asn1Element → Prop
  | [.int id, .octets b] =>
      ∀ scheme, ThresholdScheme.fromId id.toNat = some scheme → R.Elements (canonical scheme) b
  | _ => True

section Tables

variable (K) (R : Asn1Reader E)

def PublicKey.canonical : SchemeCanonical
  | .sg02 => publicKeyCanonical K fun c => IsPoint (K.ecp c)
  | .bz03 => publicKeyCanonical K fun c => IsPoint (K.ecp2 c)
  | .bls04 => publicKeyCanonical K fun c => IsPoint (K.ecp c)
  | .cks05 => publicKeyCanonical K fun c => IsPoint (K.ecp c)
  | .frost => publicKeyCanonical K fun c => IsPoint (K.ecp c)
  | .sh00 => sh00PublicKeyCanonical R

def PrivateKeyShare.canonical : SchemeCanonical
  | .sh00 => sh00PrivateKeyCanonical R
  | scheme => privateKeyCanonical K R (PublicKey.canonical K R scheme)

def Ciphertext.canonical : SchemeCanonical
  | .sg02 => sg02CiphertextCanonical K
  | .bz03 => bz03CiphertextCanonical K
  | _ => fun _ => True

def DecryptionShare.canonical : SchemeCanonical
  | .sg02 => sg02DecryptionShareCanonical K
  | .bz03 => shareCanonical K
  | _ => fun _ => True

def SignatureShare.canonical : SchemeCanonical
  | .bls04 => shareCanonical K
  | .frost => frostSignatureShareCanonical K
  | .sh00 => sh00SignatureShareCanonical
  | _ => fun _ => True

def Signature.canonical : SchemeCanonical
  | .bls04 => bls04SignatureCanonical K
  | .frost => frostSignatureCanonical K
  | .sh00 => sh00SignatureCanonical
  | _ => fun _ => True

def CoinShare.canonical : SchemeCanonical
  | .cks05 => cks05CoinShareCanonical K
  | _ => fun _ => True

end Tables

theorem getId_of_fromId {id : ℤ} (hid : 0 ≤ id) {scheme : ThresholdScheme}
    (h : ThresholdScheme.fromId id.toNat = some scheme) : scheme.getId = id := by
  obtain ⟨n, rfl⟩ := Int.eq_ofNat_of_zero_le hid
  rw [Int.toNat_natCast] at h
  unfold ThresholdScheme.fromId at h
  split at h <;> cases h <;> rfl

section Interface

variable {R : Asn1Reader E} {α : Type}

/-- The id of the scheme is written as it was read, so all depends on the value inside. -/
theorem Asn1Reader.Strict.scheme_toBytes_eq_iff (hstrict : R.Strict)
    {value : ThresholdScheme → Option (Bytes → SchemeOutcome α)} {canonical : SchemeCanonical}
    {toBytes : α → Bytes}
    (hvalue : ∀ {scheme decoder b x}, value scheme = some decoder → decoder b = .ok x →
      ∃ written, toBytes x = schemeBytes E scheme written
        ∧ (written = b ↔ R.Elements (canonical scheme) b))
    {bytes : Bytes} {x : α} (h : schemeFromBytes R bytes value = .ok x) :
    toBytes x = bytes ↔ R.Elements (R.schemeCanonical canonical) bytes := by
  obtain ⟨es, hread, h₀⟩ := exists_of_parse h
  obtain ⟨e, es₁, n, rfl, hn, h₁⟩ := exists_of_next h₀
  obtain ⟨id, rfl, hid, rfl⟩ := exists_of_asUnsigned hn
  obtain ⟨b, es₂, rfl, h₂⟩ := exists_of_readOctets h₁
  obtain ⟨scheme, hscheme, h₃⟩ := exists_of_known h₂
  obtain ⟨decoder, hdecoder, h₄⟩ := exists_of_known h₃
  rw [← bind_pure (Reader.call (decoder b))] at h₄
  obtain ⟨x', hx, h₅⟩ := exists_of_call h₄
  obtain ⟨rfl, rfl⟩ := eq_of_pure h₅
  obtain ⟨written, htoBytes, hwritten⟩ := hvalue hdecoder hx
  rw [htoBytes, schemeBytes, hstrict.asn1Write_eq_iff hread, elements_iff hread,
    getId_of_fromId hid hscheme]
  simp [schemeCanonical, hscheme, hwritten]

/-- The decoder of a scheme wraps what it has decoded. -/
theorem exists_written {β γ : Type} {x : Bytes → SchemeOutcome β} {wrap : β → γ} {inner : β → Bytes}
    {canonical : List Asn1Element → Prop} {scheme : ThresholdScheme} {toBytes : γ → Bytes}
    {decoder : Bytes → SchemeOutcome γ} {b : Bytes} {value : γ}
    (h : some (fun b => wrap <$> x b) = some decoder) (hok : decoder b = .ok value)
    (hx : ∀ {b a}, x b = .ok a → (inner a = b ↔ R.Elements canonical b))
    (htoBytes : ∀ a, toBytes (wrap a) = schemeBytes E scheme (inner a)) :
    ∃ written, toBytes value = schemeBytes E scheme written
      ∧ (written = b ↔ R.Elements canonical b) := by
  obtain rfl := Option.some.inj h
  obtain ⟨a, ha, rfl⟩ := Outcome.map_eq_ok.mp hok
  exact ⟨inner a, htoBytes a, hx ha⟩

variable {D : Decoders E K} (hstrict : D.asn1.Strict) {bytes : Bytes}

include hstrict

theorem PublicKey.toBytes_eq_iff {key : PublicKey K} (h : PublicKey.fromBytes D bytes = .ok key) :
    key.toBytes E = bytes
      ↔ D.asn1.Elements (D.asn1.schemeCanonical (PublicKey.canonical K D.asn1)) bytes := by
  refine hstrict.scheme_toBytes_eq_iff ?_ h
  intro scheme decoder b key hdecoder hok
  cases scheme with
  | sg02 =>
      exact exists_written hdecoder hok
        (fun h => (Sg02PublicKey.readsKey hstrict h).written_eq_iff) fun _ => rfl
  | bz03 =>
      exact exists_written hdecoder hok
        (fun h => (Bz03PublicKey.readsKey hstrict h).written_eq_iff) fun _ => rfl
  | bls04 =>
      exact exists_written hdecoder hok
        (fun h => (Bls04PublicKey.readsKey hstrict h).written_eq_iff) fun _ => rfl
  | cks05 =>
      exact exists_written hdecoder hok
        (fun h => (Cks05PublicKey.readsKey hstrict h).written_eq_iff) fun _ => rfl
  | frost =>
      exact exists_written hdecoder hok
        (fun h => (FrostPublicKey.readsKey hstrict h).written_eq_iff) fun _ => rfl
  | sh00 =>
      exact exists_written hdecoder hok (Sh00PublicKey.toBytes_eq_iff hstrict) fun _ => rfl

theorem PrivateKeyShare.toBytes_eq_iff {key : PrivateKeyShare K}
    (h : PrivateKeyShare.fromBytes D bytes = .ok key) :
    key.toBytes E = bytes
      ↔ D.asn1.Elements (D.asn1.schemeCanonical (PrivateKeyShare.canonical K D.asn1)) bytes := by
  refine hstrict.scheme_toBytes_eq_iff ?_ h
  intro scheme decoder b key hdecoder hok
  cases scheme with
  | sg02 =>
      exact exists_written hdecoder hok
        (privateKey_toBytes_eq_iff hstrict _ (Sg02PublicKey.readsKey hstrict)
          (fun c => Sg02PrivateKey.toBytes E (K.ecp c)) fun _ _ _ _ => rfl) fun _ => rfl
  | bz03 =>
      exact exists_written hdecoder hok
        (privateKey_toBytes_eq_iff hstrict _ (Bz03PublicKey.readsKey hstrict)
          (fun c => Bz03PrivateKey.toBytes E (K.ecp2 c) (K.ecp c)) fun _ _ _ _ => rfl) fun _ => rfl
  | bls04 =>
      exact exists_written hdecoder hok
        (privateKey_toBytes_eq_iff hstrict _ (Bls04PublicKey.readsKey hstrict)
          (fun c => Bls04PrivateKey.toBytes E (K.ecp c)) fun _ _ _ _ => rfl) fun _ => rfl
  | cks05 =>
      exact exists_written hdecoder hok
        (privateKey_toBytes_eq_iff hstrict _ (Cks05PublicKey.readsKey hstrict)
          (fun c => Cks05PrivateKey.toBytes E (K.ecp c)) fun _ _ _ _ => rfl) fun _ => rfl
  | frost =>
      exact exists_written hdecoder hok
        (privateKey_toBytes_eq_iff hstrict _ (FrostPublicKey.readsKey hstrict)
          (fun c => FrostPrivateKey.toBytes E (K.ecp c)) fun _ _ _ _ => rfl) fun _ => rfl
  | sh00 =>
      exact exists_written hdecoder hok (Sh00PrivateKey.toBytes_eq_iff hstrict) fun _ => rfl

theorem Ciphertext.toBytes_eq_iff {ct : Ciphertext K} (h : Ciphertext.fromBytes D bytes = .ok ct) :
    ct.toBytes E = bytes
      ↔ D.asn1.Elements (D.asn1.schemeCanonical (Ciphertext.canonical K)) bytes := by
  refine hstrict.scheme_toBytes_eq_iff ?_ h
  intro scheme decoder b ct hdecoder hok
  cases scheme with
  | sg02 =>
      exact exists_written hdecoder hok (Sg02Ciphertext.toBytes_eq_iff hstrict) fun _ => rfl
  | bz03 =>
      exact exists_written hdecoder hok (Bz03Ciphertext.toBytes_eq_iff hstrict) fun _ => rfl
  | _ => cases hdecoder

theorem DecryptionShare.toBytes_eq_iff {share : DecryptionShare K}
    (h : DecryptionShare.fromBytes D bytes = .ok share) :
    share.toBytes E = bytes
      ↔ D.asn1.Elements (D.asn1.schemeCanonical (DecryptionShare.canonical K)) bytes := by
  refine hstrict.scheme_toBytes_eq_iff ?_ h
  intro scheme decoder b share hdecoder hok
  cases scheme with
  | sg02 =>
      exact exists_written hdecoder hok (Sg02DecryptionShare.toBytes_eq_iff hstrict) fun _ => rfl
  | bz03 =>
      exact exists_written hdecoder hok (Bz03DecryptionShare.toBytes_eq_iff hstrict) fun _ => rfl
  | _ => cases hdecoder

theorem SignatureShare.toBytes_eq_iff {share : SignatureShare K}
    (h : SignatureShare.fromBytes D bytes = .ok share) :
    share.toBytes E = bytes
      ↔ D.asn1.Elements (D.asn1.schemeCanonical (SignatureShare.canonical K)) bytes := by
  refine hstrict.scheme_toBytes_eq_iff ?_ h
  intro scheme decoder b share hdecoder hok
  cases scheme with
  | bls04 =>
      exact exists_written hdecoder hok (Bls04SignatureShare.toBytes_eq_iff hstrict) fun _ => rfl
  | frost =>
      exact exists_written hdecoder hok (FrostSignatureShare.toBytes_eq_iff hstrict) fun _ => rfl
  | sh00 =>
      exact exists_written hdecoder hok (Sh00SignatureShare.toBytes_eq_iff hstrict) fun _ => rfl
  | _ => cases hdecoder

theorem Signature.toBytes_eq_iff {sig : Signature K} (h : Signature.fromBytes D bytes = .ok sig) :
    sig.toBytes E = bytes ↔ D.asn1.Elements (D.asn1.schemeCanonical (Signature.canonical K)) bytes := by
  refine hstrict.scheme_toBytes_eq_iff ?_ h
  intro scheme decoder b sig hdecoder hok
  cases scheme with
  | bls04 =>
      exact exists_written hdecoder hok (Bls04Signature.toBytes_eq_iff hstrict) fun _ => rfl
  | frost =>
      exact exists_written hdecoder hok (FrostSignature.toBytes_eq_iff hstrict) fun _ => rfl
  | sh00 =>
      exact exists_written hdecoder hok (Sh00Signature.toBytes_eq_iff hstrict) fun _ => rfl
  | _ => cases hdecoder

theorem CoinShare.toBytes_eq_iff {share : CoinShare K} (h : CoinShare.fromBytes D bytes = .ok share) :
    share.toBytes E = bytes
      ↔ D.asn1.Elements (D.asn1.schemeCanonical (CoinShare.canonical K)) bytes := by
  refine hstrict.scheme_toBytes_eq_iff ?_ h
  intro scheme decoder b share hdecoder hok
  cases scheme with
  | cks05 =>
      exact exists_written hdecoder hok (Cks05CoinShare.toBytes_eq_iff hstrict) fun _ => rfl
  | _ => cases hdecoder

end Interface

/-- Bytes that are decoded are the encoding of their value exactly when they are of the right form. Two
byte strings of this form are not decoded to one value. -/
structure DecodesCanonically {α : Type} (fromBytes : Bytes → SchemeOutcome α) (toBytes : α → Bytes)
    (canonical : Bytes → Prop) : Prop where
  toBytes_iff : ∀ bytes x, fromBytes bytes = .ok x → (toBytes x = bytes ↔ canonical bytes)
  unique : ∀ bytes bytes' x, fromBytes bytes = .ok x → fromBytes bytes' = .ok x →
    canonical bytes → canonical bytes' → bytes = bytes'

theorem decodesCanonically {α : Type} {fromBytes : Bytes → SchemeOutcome α} {toBytes : α → Bytes}
    {canonical : Bytes → Prop}
    (h : ∀ {bytes x}, fromBytes bytes = .ok x → (toBytes x = bytes ↔ canonical bytes)) :
    DecodesCanonically fromBytes toBytes canonical where
  toBytes_iff _ _ hok := h hok
  unique _ _ _ hok hok' hcanonical hcanonical' :=
    ((h hok).mpr hcanonical).symm.trans ((h hok').mpr hcanonical')

/-- A byte string that is decoded is the encoding of its value exactly when the ids, `n` and `k` in it
are below 65536, its scalars have `MODBYTES` bytes, its points are written as `mcore` writes them, its
integers have no leading zero, and so on inside the public key of a private key. -/
theorem decoding_canonical_iff {D : Decoders E K} (hstrict : D.asn1.Strict) :
    DecodesCanonically (PublicKey.fromBytes D) (PublicKey.toBytes E)
      (D.asn1.Elements (D.asn1.schemeCanonical (PublicKey.canonical K D.asn1)))
    ∧ DecodesCanonically (PrivateKeyShare.fromBytes D) (PrivateKeyShare.toBytes E)
      (D.asn1.Elements (D.asn1.schemeCanonical (PrivateKeyShare.canonical K D.asn1)))
    ∧ DecodesCanonically (Ciphertext.fromBytes D) (Ciphertext.toBytes E)
      (D.asn1.Elements (D.asn1.schemeCanonical (Ciphertext.canonical K)))
    ∧ DecodesCanonically (DecryptionShare.fromBytes D) (DecryptionShare.toBytes E)
      (D.asn1.Elements (D.asn1.schemeCanonical (DecryptionShare.canonical K)))
    ∧ DecodesCanonically (SignatureShare.fromBytes D) (SignatureShare.toBytes E)
      (D.asn1.Elements (D.asn1.schemeCanonical (SignatureShare.canonical K)))
    ∧ DecodesCanonically (Signature.fromBytes D) (Signature.toBytes E)
      (D.asn1.Elements (D.asn1.schemeCanonical (Signature.canonical K)))
    ∧ DecodesCanonically (CoinShare.fromBytes D) (CoinShare.toBytes E)
      (D.asn1.Elements (D.asn1.schemeCanonical (CoinShare.canonical K))) := by
  refine ⟨?_, ?_, ?_, ?_, ?_, ?_, ?_⟩
  · exact decodesCanonically (PublicKey.toBytes_eq_iff hstrict)
  · exact decodesCanonically (PrivateKeyShare.toBytes_eq_iff hstrict)
  · exact decodesCanonically (Ciphertext.toBytes_eq_iff hstrict)
  · exact decodesCanonically (DecryptionShare.toBytes_eq_iff hstrict)
  · exact decodesCanonically (SignatureShare.toBytes_eq_iff hstrict)
  · exact decodesCanonically (Signature.toBytes_eq_iff hstrict)
  · exact decodesCanonically (CoinShare.toBytes_eq_iff hstrict)

/-- The elements of an Sh00 share of a party: an empty label and three ones. -/
def sh00ShareElements (id : ℤ) : List Asn1Element :=
  [.int id, .int Group.rsa512.asI32, .octets [], .octets [1], .octets [1], .octets [1]]

/-- The bytes of such a share. -/
def sh00ShareBytes (id : ℤ) : Bytes :=
  Der.write [.int ThresholdScheme.sh00.getId, .octets (Der.write (sh00ShareElements id))]

theorem canonical_sh00ShareBytes_iff (id : ℤ) :
    Asn1Reader.der.Elements (Asn1Reader.der.schemeCanonical (SignatureShare.canonical .seven))
      (sh00ShareBytes id) ↔ FitsU16 id := by
  have hscheme : ThresholdScheme.fromId ThresholdScheme.sh00.getId.toNat = some .sh00 := rfl
  have hinner : Asn1Reader.der.read (Der.write (sh00ShareElements id))
      = some ⟨sh00ShareElements id, true⟩ := Asn1Reader.der.read_asn1Write _
  have houter : Asn1Reader.der.read (sh00ShareBytes id)
      = some ⟨[.int ThresholdScheme.sh00.getId, .octets (Der.write (sh00ShareElements id))], true⟩ := by
    rw [sh00ShareBytes]
    exact Asn1Reader.der.read_asn1Write _
  rw [Asn1Reader.elements_iff houter]
  simp only [Asn1Reader.schemeCanonical, hscheme, Option.some.injEq, forall_eq',
    Asn1Reader.elements_iff hinner]
  simp [SignatureShare.canonical, sh00ShareElements, sh00SignatureShareCanonical, IsBigInt]

/-- The value of such a share. -/
def sh00ShareSeven (id : UInt16) : SignatureShare Curves.seven :=
  .sh00 { id, group := .rsa512, label := [], xi := 1, z := 1, c := 1 }

theorem fromBytes_sh00ShareBytes_one :
    SignatureShare.fromBytes .seven (sh00ShareBytes 1) = .ok (sh00ShareSeven 1) := rfl

/-- The share of party 1 is the encoding of its value. -/
theorem decoding_canonical_seven :
    SignatureShare.fromBytes .seven (sh00ShareBytes 1) = .ok (sh00ShareSeven 1)
      ∧ (sh00ShareSeven 1).toBytes .der = sh00ShareBytes 1 := by
  obtain ⟨-, -, -, -, hshare, -⟩ := decoding_canonical_iff (D := Decoders.seven) Asn1Reader.strict_der
  have hone : FitsU16 1 := by norm_num [FitsU16]
  refine ⟨fromBytes_sh00ShareBytes_one, ?_⟩
  exact (hshare.toBytes_iff _ _ fromBytes_sh00ShareBytes_one).mpr
    ((canonical_sh00ShareBytes_iff 1).mpr hone)

/-- A share with the id 65537 is decoded as well, to the value of the share of party 1. -/
theorem wide_id_not_canonical :
    sh00ShareBytes 65537 ≠ sh00ShareBytes 1
      ∧ SignatureShare.fromBytes .seven (sh00ShareBytes 65537) = .ok (sh00ShareSeven 1)
      ∧ SignatureShare.fromBytes .seven (sh00ShareBytes 1) = .ok (sh00ShareSeven 1)
      ∧ (sh00ShareSeven 1).toBytes .der ≠ sh00ShareBytes 65537 := by
  refine ⟨by decide, rfl, fromBytes_sh00ShareBytes_one, by decide⟩

end QuorumCrypt
