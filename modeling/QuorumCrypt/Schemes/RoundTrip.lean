import QuorumCrypt.Schemes.Serialization
import QuorumCrypt.Keys.RandomStream

/-!
# Decoding inverts encoding

For every value the schemes produce, the decoder reads back what the encoder wrote, in every field and
with the same key id. A public key must have as many verification keys as it says and the id of its
own encoding; a scalar must fit in `MODBYTES` bytes. Key generation, encryption, signing and coin
shares guarantee both.
-/

namespace QuorumCrypt

open Rust

variable {E : Primitives} {K : Curves}

/-! ### Elements -/

section Elements

variable {α β : Type} {es : List Asn1Element}

@[simp] theorem run_readOctets (b : Bytes) (f : Bytes → Asn1Parser α) :
    (readOctets >>= f).run (.octets b :: es) = (f b).run es := rfl

@[simp] theorem run_readU16 (x : UInt16) (f : UInt16 → Asn1Parser α) :
    (readU16 >>= f).run (.int x.toNat :: es) = (f x).run es := by
  have hlt : (x.toNat : ℤ) < 2 ^ 64 := by
    have := x.toNat_lt
    omega
  have hread : Asn1Element.asUnsigned 64 (.int x.toNat) = some x.toNat := by
    rw [Asn1Element.asUnsigned, if_pos ⟨by omega, hlt⟩, Int.toNat_natCast]
  rw [readU16, bind_assoc, Reader.run_bind, readU64, Reader.run_next_cons_some hread, Outcome.ok_bind,
    pure_bind, UInt16.ofNat_toNat]

@[simp] theorem run_readU64 {x : ℕ} (hx : x < 2 ^ 64) (f : ℕ → Asn1Parser α) :
    (readU64 >>= f).run (.int x :: es) = (f x).run es := by
  have hread : Asn1Element.asUnsigned 64 (.int x) = some x := by
    rw [Asn1Element.asUnsigned, if_pos ⟨by omega, by exact_mod_cast hx⟩, Int.toNat_natCast]
  rw [Reader.run_bind, readU64, Reader.run_next_cons_some hread, Outcome.ok_bind]

theorem asSigned32_group (group : Group) :
    Asn1Element.asSigned32 (.int group.asI32) = some group.asI32 := by
  cases group <;> rfl

@[simp] theorem run_readI32 (group : Group) (f : ℤ → Asn1Parser α) :
    (readI32 >>= f).run (.int group.asI32 :: es) = (f group.asI32).run es := by
  rw [Reader.run_bind, readI32, Reader.run_next_cons_some (asSigned32_group group), Outcome.ok_bind]

@[simp] theorem run_known (x : α) (f : α → Asn1Parser β) (es : List Asn1Element) :
    (known (some x) >>= f).run es = (f x).run es := rfl

@[simp] theorem run_readGroup (group : Group) (f : Group → Asn1Parser α) :
    (readGroup >>= f).run (.int group.asI32 :: es) = (f group).run es := by
  rw [readGroup, bind_assoc, run_readI32, Group.fromI32_asI32, run_known]

@[simp] theorem run_readBigInt (x : ℕ) (f : ℕ → Asn1Parser α) :
    (readBigInt >>= f).run (.octets (BigInt.toBytes x) :: es) = (f x).run es := by
  rw [readBigInt, bind_assoc, run_readOctets, pure_bind, BigInt.ofBytesBE_toBytes]

theorem run_call_ok {x : SchemeOutcome β} {b : β} (hx : x = .ok b) (f : β → Asn1Parser α) :
    (Reader.call x >>= f).run es = (f b).run es := by
  rw [hx]
  rfl

@[simp] theorem run_onCurveOf (c : Curve) (f : Curve → Asn1Parser α) :
    (onCurveOf c.group >>= f).run es = (f c).run es :=
  run_call_ok (by rw [Group.curve_group, Outcome.unwrap_some]) f

variable (D : Decoders E K) (c : Curve)

@[simp] theorem run_readPoint (x : K.Point c) (f : K.Point c → Asn1Parser α) :
    (readPoint D c >>= f).run (.octets ((K.ecp c).toBytes x) :: es) = (f x).run es := by
  rw [readPoint, bind_assoc, run_readOctets]
  exact run_call_ok ((D.ecp c).fromBytes_toBytes x) f

theorem scalarFromBytes_scalarToBytes {x : ℕ} (hx : x < 256 ^ (K.ecp c).modbytes) :
    K.scalarFromBytes c ((K.ecp c).scalarToBytes x) = .ok x := by
  have hlength : ((K.ecp c).scalarToBytes x).length = (K.ecp c).modbytes := length_toBytesBE _ _
  rw [Curves.scalarFromBytes, if_pos hlength.ge, EcGroup.scalarFromBytes,
    List.take_of_length_le hlength.le, EcGroup.scalarToBytes, ofBytesBE_toBytesBE,
    Nat.mod_eq_of_lt hx]

theorem run_readScalar {x : ℕ} (hx : x < 256 ^ (K.ecp c).modbytes) (f : ℕ → Asn1Parser α) :
    (readScalar K c >>= f).run (.octets ((K.ecp c).scalarToBytes x) :: es) = (f x).run es := by
  rw [readScalar, bind_assoc, run_readOctets]
  exact run_call_ok (scalarFromBytes_scalarToBytes c hx) f

/-- All verification keys of a key are read, when there are as many as the key says. -/
theorem run_readPoints {xs : List (K.Point c)} {n : UInt16} (hn : xs.length = n.toNat)
    (f : List (K.Point c) → Asn1Parser α) :
    (Reader.times n.toNat (readPoint D c) >>= f).run
      (xs.map (fun x => .octets ((K.ecp c).toBytes x)) ++ es) = (f xs).run es := by
  have hread : ∀ x ∈ xs, ∀ es, (readPoint D c).run (.octets ((K.ecp c).toBytes x) :: es)
      = .ok (x, es) := by
    intro x _ es
    rw [← bind_pure (readPoint D c), run_readPoint, Reader.run_pure]
  rw [Reader.run_bind, ← hn, Reader.run_times hread, Outcome.ok_bind]

/-- A sequence is decoded when the parser takes all its elements. -/
theorem parse_asn1Write (R : Asn1Reader E) {p : Asn1Parser α} {a : α}
    (h : p.run es = .ok (a, [])) : R.parse (E.asn1Write es) p = .ok a := by
  rw [Asn1Reader.parse, R.read_asn1Write]
  simp [h]

end Elements

theorem fromUtf8_utf8Bytes (s : String) : fromUtf8 (utf8Bytes s) = some s := by
  have hbytes : (⟨(utf8Bytes s).toArray⟩ : ByteArray) = s.toUTF8 := rfl
  rw [fromUtf8, hbytes]
  unfold String.fromUTF8?
  split
  · rfl
  · rename_i h
    exact absurd s.isValidUTF8 (by simpa using h)

/-! ### Public keys -/

section Keys

variable (D : Decoders E K) {c : Curve}

theorem publicKeyFromBytes_asn1Write {Y P : Curve → Type}
    (yFromBytes : ∀ c, Bytes → SchemeOutcome (Y c))
    (key : ∀ c, String → UInt16 → UInt16 → Y c → List (K.Point c) → P c) {yBytes : Bytes} {y : Y c}
    (hy : yFromBytes c yBytes = .ok y) {n : UInt16} (k : UInt16) {vks : List (K.Point c)}
    (hn : vks.length = n.toNat) {bytes : Bytes}
    (hbytes : bytes = E.asn1Write ([.int (K.ecp c).group.asI32, .int n.toNat, .int k.toNat,
      .octets yBytes] ++ vks.map fun vk => .octets ((K.ecp c).toBytes vk)))
    {id : String} (hid : id = E.calcKeyId bytes) :
    publicKeyFromBytes D yFromBytes key bytes = .ok ⟨c, key c id n k y vks⟩ := by
  rw [publicKeyFromBytes, ← hid, hbytes]
  apply parse_asn1Write
  rw [← List.append_nil (List.map _ vks), K.group_ecp]
  simp only [List.cons_append, List.nil_append, run_readGroup, run_readU16, run_readOctets,
    run_onCurveOf, run_call_ok hy, run_readPoints D c hn, Reader.run_pure]

theorem Bz03PublicKey.fromBytes_toBytes {key : Bz03PublicKey (K.Point2 c) (K.Point c)}
    (hid : key.id = E.calcKeyId (key.toBytes E (K.ecp2 c) (K.ecp c)))
    (hn : key.verificationKey.length = key.n.toNat) :
    Bz03PublicKey.fromBytes D (key.toBytes E (K.ecp2 c) (K.ecp c)) = .ok ⟨c, key⟩ := by
  have hy : (fun c => (D.ecp2 c).fromBytes) c ((K.ecp2 c).toBytes key.y) = .ok key.y :=
    (D.ecp2 c).fromBytes_toBytes key.y
  exact publicKeyFromBytes_asn1Write D _ _ hy key.k hn rfl hid

theorem Bls04PublicKey.fromBytes_toBytes {key : Bls04PublicKey (K.Point c)}
    (hid : key.id = E.calcKeyId (key.toBytes E (K.ecp c)))
    (hn : key.verificationKey.length = key.n.toNat) :
    Bls04PublicKey.fromBytes D (key.toBytes E (K.ecp c)) = .ok ⟨c, key⟩ := by
  have hy : (fun c => (D.ecp c).fromBytes) c ((K.ecp c).toBytes key.y) = .ok key.y :=
    (D.ecp c).fromBytes_toBytes key.y
  exact publicKeyFromBytes_asn1Write D _ _ hy key.k hn rfl hid

theorem Cks05PublicKey.fromBytes_toBytes {key : Cks05PublicKey (K.Point c)}
    (hid : key.id = E.calcKeyId (key.toBytes E (K.ecp c)))
    (hn : key.verificationKey.length = key.n.toNat) :
    Cks05PublicKey.fromBytes D (key.toBytes E (K.ecp c)) = .ok ⟨c, key⟩ := by
  have hy : (fun c => (D.ecp c).fromBytes) c ((K.ecp c).toBytes key.y) = .ok key.y :=
    (D.ecp c).fromBytes_toBytes key.y
  exact publicKeyFromBytes_asn1Write D _ _ hy key.k hn rfl hid

theorem Sg02PublicKey.fromBytes_toBytes {key : Sg02PublicKey (K.Point c)}
    (hid : key.id = E.calcKeyId (key.toBytes E (K.ecp c)))
    (hn : key.verificationKey.length = key.n.toNat) :
    Sg02PublicKey.fromBytes D (key.toBytes E (K.ecp c)) = .ok ⟨c, key⟩ := by
  have hy := (D.ecp c).fromBytes_toBytes key.y
  rw [Sg02PublicKey.fromBytes, ← hid, Sg02PublicKey.toBytes, K.group_ecp]
  apply parse_asn1Write
  simp only [List.cons_append, List.nil_append, run_readGroup, run_readU16, run_readOctets,
    run_onCurveOf, run_call_ok hy, run_readPoints D c hn, run_readPoint, Reader.run_pure]

theorem FrostPublicKey.fromBytes_toBytes {key : FrostPublicKey (K.Point c)}
    (hid : key.id = E.calcKeyId (key.toBytes E (K.ecp c)))
    (hn : key.h.length = key.n.toNat) :
    FrostPublicKey.fromBytes D (key.toBytes E (K.ecp c)) = .ok ⟨c, key⟩ := by
  have hy := (D.ecp c).fromBytes_toBytes key.y
  rw [FrostPublicKey.fromBytes, ← hid, FrostPublicKey.toBytes, K.group_ecp]
  apply parse_asn1Write
  rw [← List.append_nil (List.map _ key.h)]
  simp only [List.cons_append, List.nil_append, run_readI32, run_readU16, Group.fromI32_asI32,
    run_known, run_readOctets, run_onCurveOf, run_call_ok hy, run_readPoints D c hn, Reader.run_pure]

theorem Sh00VerificationKey.fromBytes_toBytes (R : Asn1Reader E) {vk : Sh00VerificationKey}
    (hlength : vk.vi.length < 65536) :
    Sh00VerificationKey.fromBytes R (vk.toBytes E) = .ok vk := by
  have hcount : (UInt16.ofNat vk.vi.length).toNat = vk.vi.length := UInt16.toNat_ofNat_of_lt' hlength
  have hread : ∀ x ∈ vk.vi, ∀ es, readBigInt.run (.octets (BigInt.toBytes x) :: es) = .ok (x, es) := by
    intro x _ es
    rw [← bind_pure readBigInt, run_readBigInt, Reader.run_pure]
  rw [Sh00VerificationKey.fromBytes, Sh00VerificationKey.toBytes]
  apply parse_asn1Write
  rw [← hcount]
  simp only [List.cons_append, List.nil_append, run_readBigInt, run_readU16]
  rw [Reader.run_bind, hcount, Reader.run_times hread, Outcome.ok_bind, run_readBigInt, Reader.run_pure]

theorem Sh00PublicKey.fromBytes_toBytes (R : Asn1Reader E) {key : Sh00PublicKey}
    (hid : key.id = E.calcKeyId (key.toBytes E)) (hlength : key.verificationKey.vi.length < 65536)
    (hgroup : mb2group key.modbits = .ok key.group) (hmodbits : key.modbits < 2 ^ 64) :
    Sh00PublicKey.fromBytes R (key.toBytes E) = .ok key := by
  have hvk := Sh00VerificationKey.fromBytes_toBytes R hlength
  rw [Sh00PublicKey.fromBytes, ← hid, Sh00PublicKey.toBytes]
  apply parse_asn1Write
  simp only [run_readU16, run_readBigInt, run_readOctets, run_call_ok hvk, run_readU64 hmodbits,
    run_call_ok hgroup, Reader.run_pure]

/-! ### Private keys -/

theorem privateKeyFromBytes_privateKeyBytes {P S : Curve → Type}
    {pubkeyFromBytes : Bytes → SchemeOutcome (Σ c, P c)} (key : ∀ c, UInt16 → ℕ → P c → S c)
    (id : UInt16) {xi : ℕ} (hxi : xi < 256 ^ (K.ecp c).modbytes) {pubbytes : Bytes} {pubkey : P c}
    (hpub : pubkeyFromBytes pubbytes = .ok ⟨c, pubkey⟩) :
    privateKeyFromBytes D pubkeyFromBytes key (privateKeyBytes E (K.ecp c) id xi pubbytes)
      = .ok ⟨c, key c id xi pubkey⟩ := by
  have hscalar := scalarFromBytes_scalarToBytes c hxi
  rw [privateKeyFromBytes, privateKeyBytes]
  apply parse_asn1Write
  simp only [run_readU16, run_readOctets, run_call_ok hpub, run_call_ok hscalar, Reader.run_pure]

theorem Sh00PrivateKey.fromBytes_toBytes (R : Asn1Reader E) {key : Sh00PrivateKey}
    (hpub : Sh00PublicKey.fromBytes R (key.pubkey.toBytes E) = .ok key.pubkey) :
    Sh00PrivateKey.fromBytes R (key.toBytes E) = .ok key := by
  rw [Sh00PrivateKey.fromBytes, Sh00PrivateKey.toBytes]
  apply parse_asn1Write
  simp only [run_readU16, run_readOctets, run_call_ok hpub, BigInt.ofBytesBE_toBytes, Reader.run_pure]

end Keys

/-! ### Ciphertexts, shares and signatures -/

section Values

variable (D : Decoders E K) {c : Curve}

theorem Sg02Ciphertext.fromBytes_toBytes {ct : Sg02Ciphertext (K.Point c)}
    (he : ct.e < 256 ^ (K.ecp c).modbytes) (hf : ct.f < 256 ^ (K.ecp c).modbytes) :
    Sg02Ciphertext.fromBytes D (ct.toBytes E (K.ecp c)) = .ok ⟨c, ct⟩ := by
  have hu := (D.ecp c).fromBytes_toBytes ct.u
  rw [Sg02Ciphertext.fromBytes, Sg02Ciphertext.toBytes, K.group_ecp]
  apply parse_asn1Write
  simp only [run_readGroup, run_readOctets, run_onCurveOf, run_call_ok hu, run_readPoint,
    run_readScalar c he, run_readScalar c hf, fromUtf8_utf8Bytes, run_known, Reader.run_pure]

theorem Bz03Ciphertext.fromBytes_toBytes (ct : Bz03Ciphertext (K.Point2 c) (K.Point c)) :
    Bz03Ciphertext.fromBytes D (ct.toBytes E (K.ecp2 c) (K.ecp c)) = .ok ⟨c, ct⟩ := by
  have hu := (D.ecp2 c).fromBytes_toBytes ct.u
  rw [Bz03Ciphertext.fromBytes, Bz03Ciphertext.toBytes, K.group_ecp]
  apply parse_asn1Write
  simp only [run_readGroup, run_readOctets, run_onCurveOf, run_call_ok hu, run_readPoint,
    fromUtf8_utf8Bytes, run_known, Reader.run_pure]

theorem Sg02DecryptionShare.fromBytes_toBytes {share : Sg02DecryptionShare (K.Point c)}
    (hei : share.ei < 256 ^ (K.ecp c).modbytes) (hfi : share.fi < 256 ^ (K.ecp c).modbytes) :
    Sg02DecryptionShare.fromBytes D (share.toBytes E (K.ecp c)) = .ok ⟨c, share⟩ := by
  have hdata := (D.ecp c).fromBytes_toBytes share.data
  rw [Sg02DecryptionShare.fromBytes, Sg02DecryptionShare.toBytes, K.group_ecp]
  apply parse_asn1Write
  simp only [run_readU16, run_readGroup, run_readOctets, run_onCurveOf, run_call_ok hdata,
    run_readScalar c hei, run_readScalar c hfi, Reader.run_pure]

theorem shareFromBytes_asn1Write {S : Curve → Type} (share : ∀ c, UInt16 → Bytes → K.Point2 c → S c)
    (id : UInt16) (label : Bytes) (data : K.Point2 c) :
    shareFromBytes D share (E.asn1Write [.int id.toNat, .int (K.ecp2 c).group.asI32, .octets label,
      .octets ((K.ecp2 c).toBytes data)]) = .ok ⟨c, share c id label data⟩ := by
  have hdata := (D.ecp2 c).fromBytes_toBytes data
  rw [shareFromBytes, K.group_ecp2]
  apply parse_asn1Write
  simp only [run_readU16, run_readGroup, run_readOctets, run_onCurveOf, run_call_ok hdata,
    Reader.run_pure]

theorem Sh00SignatureShare.fromBytes_toBytes (R : Asn1Reader E) (share : Sh00SignatureShare) :
    Sh00SignatureShare.fromBytes R (share.toBytes E) = .ok share := by
  rw [Sh00SignatureShare.fromBytes, Sh00SignatureShare.toBytes]
  apply parse_asn1Write
  simp only [run_readU16, run_readGroup, run_readOctets, run_readBigInt, Reader.run_pure]

theorem FrostSignatureShare.fromBytes_toBytes {share : FrostSignatureShare}
    (hdata : share.data < 256 ^ (K.ecp c).modbytes) :
    FrostSignatureShare.fromBytes D (share.toBytes E (K.ecp c)) = .ok (c, share) := by
  have hscalar := scalarFromBytes_scalarToBytes c hdata
  rw [FrostSignatureShare.fromBytes, FrostSignatureShare.toBytes, K.group_ecp]
  apply parse_asn1Write
  simp only [run_readU16, run_readGroup, run_readOctets, run_onCurveOf, run_call_ok hscalar,
    Reader.run_pure]

theorem Bls04Signature.fromBytes_toBytes (sig : Bls04Signature (K.Point2 c)) :
    Bls04Signature.fromBytes D (sig.toBytes E (K.ecp2 c)) = .ok ⟨c, sig⟩ := by
  have hsig := (D.ecp2 c).fromBytes_toBytes sig.sig
  rw [Bls04Signature.fromBytes, Bls04Signature.toBytes, K.group_ecp2]
  apply parse_asn1Write
  simp only [run_readGroup, run_readOctets, run_onCurveOf, run_call_ok hsig, Reader.run_pure]

theorem Sh00Signature.fromBytes_toBytes (R : Asn1Reader E) (sig : Sh00Signature) :
    Sh00Signature.fromBytes R (sig.toBytes E) = .ok sig := by
  rw [Sh00Signature.fromBytes, Sh00Signature.toBytes]
  apply parse_asn1Write
  simp only [run_readBigInt, Reader.run_pure]

theorem FrostSignature.fromBytes_toBytes {sig : FrostSignature (K.Point c)}
    (hz : sig.z < 256 ^ (K.ecp c).modbytes) :
    FrostSignature.fromBytes D (sig.toBytes E (K.ecp c)) = .ok ⟨c, sig⟩ := by
  have hR := (D.ecp c).fromBytes_toBytes sig.R
  rw [FrostSignature.fromBytes, FrostSignature.toBytes, K.group_ecp]
  apply parse_asn1Write
  simp only [run_readGroup, run_readOctets, run_onCurveOf, run_call_ok hR, run_readScalar c hz,
    Reader.run_pure]

theorem Cks05CoinShare.fromBytes_toBytes {share : Cks05CoinShare (K.Point c)}
    (hc : share.c < 256 ^ (K.ecp c).modbytes) (hz : share.z < 256 ^ (K.ecp c).modbytes) :
    Cks05CoinShare.fromBytes D (share.toBytes E (K.ecp c)) = .ok ⟨c, share⟩ := by
  have hdata := (D.ecp c).fromBytes_toBytes share.data
  rw [Cks05CoinShare.fromBytes, Cks05CoinShare.toBytes, K.group_ecp]
  apply parse_asn1Write
  simp only [run_readU16, run_readGroup, run_readOctets, run_onCurveOf, run_call_ok hdata,
    run_readScalar c hc, run_readScalar c hz, Reader.run_pure]

end Values

/-! ### The interface -/

/-- A value of the interface is decoded when the value of its scheme is. -/
theorem schemeFromBytes_schemeBytes {α β : Type} (R : Asn1Reader E) {scheme : ThresholdScheme}
    {bytes : Bytes} {value : ThresholdScheme → Option (Bytes → SchemeOutcome α)} {wrap : β → α}
    {decoder : Bytes → SchemeOutcome β} (hdecoder : value scheme = some fun b => wrap <$> decoder b)
    {b : β} (h : decoder bytes = .ok b) {a : α} (ha : wrap b = a) :
    schemeFromBytes R (schemeBytes E scheme bytes) value = .ok a := by
  have hread : Asn1Element.asUnsigned 8 (.int scheme.getId) = some scheme.getId.toNat := by
    cases scheme <;> rfl
  have hid : ThresholdScheme.fromId scheme.getId.toNat = some scheme := by cases scheme <;> rfl
  rw [schemeFromBytes, schemeBytes]
  apply parse_asn1Write
  rw [Reader.run_bind, readU8, Reader.run_next_cons_some hread, Outcome.ok_bind]
  simp only [run_readOctets, hid, run_known, hdecoder, Reader.run_call, h, Outcome.map_ok, ha,
    Outcome.ok_bind]

namespace PublicKey

/-- The counts in the encoding are those of the key, and the length of an RSA modulus names its
group. -/
def Counted : PublicKey K → Prop
  | sg02 _ key => key.verificationKey.length = key.n.toNat
  | bz03 _ key => key.verificationKey.length = key.n.toNat
  | bls04 _ key => key.verificationKey.length = key.n.toNat
  | cks05 _ key => key.verificationKey.length = key.n.toNat
  | sh00 key => key.verificationKey.vi.length < 65536 ∧ mb2group key.modbits = .ok key.group
  | frost _ key => key.h.length = key.n.toNat

/-- A key as its constructor makes it. -/
structure WellFormed (E : Primitives) (key : PublicKey K) : Prop where
  id_eq : key.getKeyId = E.calcKeyId (key.innerBytes E)
  counted : key.Counted

theorem modbits_lt {modbits : ℕ} {group : Group} (h : mb2group modbits = .ok group) :
    modbits < 2 ^ 64 := by
  unfold mb2group at h
  split at h <;> first | decide | cases h

variable (D : Decoders E K)

theorem fromBytes_toBytes {key : PublicKey K} (hkey : key.WellFormed E) :
    PublicKey.fromBytes D (key.toBytes E) = .ok key := by
  obtain ⟨hid, hcounted⟩ := hkey
  cases key with
  | sg02 c key =>
      exact schemeFromBytes_schemeBytes D.asn1 rfl
        (Sg02PublicKey.fromBytes_toBytes D hid hcounted) rfl
  | bz03 c key =>
      exact schemeFromBytes_schemeBytes D.asn1 rfl
        (Bz03PublicKey.fromBytes_toBytes D hid hcounted) rfl
  | bls04 c key =>
      exact schemeFromBytes_schemeBytes D.asn1 rfl
        (Bls04PublicKey.fromBytes_toBytes D hid hcounted) rfl
  | cks05 c key =>
      exact schemeFromBytes_schemeBytes D.asn1 rfl
        (Cks05PublicKey.fromBytes_toBytes D hid hcounted) rfl
  | sh00 key =>
      obtain ⟨hlength, hgroup⟩ := hcounted
      exact schemeFromBytes_schemeBytes D.asn1 rfl
        (Sh00PublicKey.fromBytes_toBytes D.asn1 hid hlength hgroup (modbits_lt hgroup)) rfl
  | frost c key =>
      exact schemeFromBytes_schemeBytes D.asn1 rfl
        (FrostPublicKey.fromBytes_toBytes D hid hcounted) rfl

/-- The id of a key is the hash of its own encoding, without the tag of the scheme. -/
theorem key2id_eq_calcKeyId (R : Asn1Reader E) (key : PublicKey K) :
    key2id R key = .ok (E.calcKeyId (key.innerBytes E)) := by
  have hread : Asn1Element.asUnsigned 8 (.int key.getScheme.getId) = some key.getScheme.getId.toNat := by
    cases key.getScheme <;> rfl
  have hinner : R.parse (key.toBytes E) (do let _ ← readU8; readOctets) = .ok (key.innerBytes E) := by
    rw [PublicKey.toBytes, schemeBytes]
    apply parse_asn1Write
    rw [Reader.run_bind, readU8, Reader.run_next_cons_some hread, Outcome.ok_bind]
    rfl
  rw [key2id, hinner]

/-- The id computed from the encoding is the one in the key. -/
theorem key2id_eq (R : Asn1Reader E) {key : PublicKey K} (hkey : key.WellFormed E) :
    key2id R key = .ok key.getKeyId := by
  rw [key2id_eq_calcKeyId, hkey.id_eq]

end PublicKey

namespace PrivateKeyShare

/-- The secret fits in its encoding. -/
def ScalarFits : PrivateKeyShare K → Prop
  | sg02 c key => key.xi < 256 ^ (K.ecp c).modbytes
  | bz03 c key => key.xi < 256 ^ (K.ecp c).modbytes
  | bls04 c key => key.xi < 256 ^ (K.ecp c).modbytes
  | cks05 c key => key.xi < 256 ^ (K.ecp c).modbytes
  | sh00 _ => True
  | frost c key => key.x < 256 ^ (K.ecp c).modbytes

variable (D : Decoders E K)

theorem fromBytes_toBytes {key : PrivateKeyShare K} (hpub : key.getPublicKey.WellFormed E)
    (hscalar : key.ScalarFits) : PrivateKeyShare.fromBytes D (key.toBytes E) = .ok key := by
  obtain ⟨hid, hcounted⟩ := hpub
  cases key with
  | sg02 c key =>
      exact schemeFromBytes_schemeBytes D.asn1 rfl
        (privateKeyFromBytes_privateKeyBytes D _ _ hscalar
        (Sg02PublicKey.fromBytes_toBytes D hid hcounted)) rfl
  | bz03 c key =>
      exact schemeFromBytes_schemeBytes D.asn1 rfl
        (privateKeyFromBytes_privateKeyBytes D _ _ hscalar
        (Bz03PublicKey.fromBytes_toBytes D hid hcounted)) rfl
  | bls04 c key =>
      exact schemeFromBytes_schemeBytes D.asn1 rfl
        (privateKeyFromBytes_privateKeyBytes D _ _ hscalar
        (Bls04PublicKey.fromBytes_toBytes D hid hcounted)) rfl
  | cks05 c key =>
      exact schemeFromBytes_schemeBytes D.asn1 rfl
        (privateKeyFromBytes_privateKeyBytes D _ _ hscalar
        (Cks05PublicKey.fromBytes_toBytes D hid hcounted)) rfl
  | sh00 key =>
      obtain ⟨hlength, hgroup⟩ := hcounted
      exact schemeFromBytes_schemeBytes D.asn1 rfl
        (Sh00PrivateKey.fromBytes_toBytes D.asn1 (Sh00PublicKey.fromBytes_toBytes D.asn1 hid
        hlength hgroup (PublicKey.modbits_lt hgroup))) rfl
  | frost c key =>
      exact schemeFromBytes_schemeBytes D.asn1 rfl
        (privateKeyFromBytes_privateKeyBytes D _ _ hscalar
        (FrostPublicKey.fromBytes_toBytes D hid hcounted)) rfl

end PrivateKeyShare

namespace KeyGenerator

theorem wellFormed_of_eq {key : PrivateKeyShare K} {pk : PublicKey K} (hpub : key.getPublicKey = pk)
    (hid : pk.getKeyId = E.calcKeyId (pk.innerBytes E)) (hcounted : pk.Counted) :
    key.getPublicKey.WellFormed E := by
  rw [hpub]
  exact ⟨hid, hcounted⟩

/-- `generate_keys` makes keys that can be decoded, for at most `u16::MAX` parties. -/
theorem wellFormed_of_mem (D : Decoders E K) {k n : ℕ} (hn : n ≤ 65535) {key : PrivateKeyShare K}
    (hkey : OfScheme E k n key) : key.getPublicKey.WellFormed E ∧ key.ScalarFits := by
  have hcount : n = (UInt16.ofNat n).toNat := (UInt16.toNat_ofNat_of_lt' (by change _ < 65536; omega)).symm
  have hscalar : ∀ (c : Curve) (rng : ℕ → ℕ) (id : UInt16),
      dealtShare (K.ecp c).order k rng id < 256 ^ (K.ecp c).modbytes := fun c rng id =>
    (dealtShare_lt (K.ecp c).prime.pos k rng id).trans_le (D.order_le c)
  cases hkey with
  | @bz03 c hc rng keys key hkeys hkey =>
      have hpub := Bz03ThresholdCipher.pubkey_of_mem hkeys hkey
      obtain ⟨-, -, hxi⟩ := Bz03ThresholdCipher.exists_party_of_mem hn hkeys hkey
      refine ⟨wellFormed_of_eq (congrArg (PublicKey.bz03 c) hpub) ?_ ?_,
        hxi.trans_lt (hscalar c rng key.id)⟩
      · rfl
      · simpa [PublicKey.Counted, Bz03ThresholdCipher.publicKey, Bz03PublicKey.new] using hcount
  | @sg02 c rng keys key hkeys hkey =>
      obtain ⟨-, -, hxi, hpub⟩ := Sg02ThresholdCipher.exists_party_of_mem hkeys hkey
      refine ⟨wellFormed_of_eq (congrArg (PublicKey.sg02 c) hpub) rfl ?_,
        hxi.trans_lt (hscalar c rng key.id)⟩
      simpa [PublicKey.Counted, Sg02ThresholdCipher.publicKey, Sg02PublicKey.new] using hcount
  | @bls04 c hc rng keys key hkeys hkey =>
      have hpub := Bls04ThresholdSignature.pubkey_of_mem hkeys hkey
      obtain ⟨-, -, hxi⟩ := Bls04ThresholdSignature.exists_party_of_mem hn hkeys hkey
      refine ⟨wellFormed_of_eq (congrArg (PublicKey.bls04 c) hpub) ?_ ?_,
        hxi.trans_lt (hscalar c rng key.id)⟩
      · rfl
      · simpa [PublicKey.Counted, Bls04ThresholdSignature.publicKey, Bls04PublicKey.new] using hcount
  | @cks05 c rng keys key hkeys hkey =>
      have hpub := Cks05ThresholdCoin.pubkey_of_mem hkeys hkey
      obtain ⟨-, -, hxi⟩ := Cks05ThresholdCoin.exists_party_of_mem hn hkeys hkey
      refine ⟨wellFormed_of_eq (congrArg (PublicKey.cks05 c) hpub) rfl ?_,
        hxi.trans_lt (hscalar c rng key.id)⟩
      simpa [PublicKey.Counted, Cks05ThresholdCoin.publicKey, Cks05PublicKey.new] using hcount
  | @frost c rng keys key hkeys hkey =>
      have hpub := Frost.pubkey_of_mem hkeys hkey
      obtain ⟨-, -, hx⟩ := Frost.exists_party_of_mem hn hkeys hkey
      refine ⟨wellFormed_of_eq (congrArg (PublicKey.frost c) hpub) rfl ?_,
        hx.trans_lt (hscalar c rng key.id)⟩
      simpa [PublicKey.Counted, Frost.publicKey, FrostPublicKey.new] using hcount
  | @sh00 group N e delta verificationKey key hdl hlength hpub =>
      have hgroup : mb2group group.modsize = .ok group := by
        cases group <;> first | rfl | cases hdl
      have hshort : verificationKey.vi.length < 65536 := by omega
      exact ⟨wellFormed_of_eq (congrArg PublicKey.sh00 hpub) rfl ⟨hshort, hgroup⟩, trivial⟩

end KeyGenerator

/-! ### What the operations return -/

section Operations

/-- A reduced scalar fits in its encoding. -/
theorem Decoders.lt_of_mod (D : Decoders E K) (c : Curve) (x : ℕ) :
    x % (K.ecp c).order < 256 ^ (K.ecp c).modbytes :=
  (Nat.mod_lt x (K.ecp c).prime.pos).trans_le (D.order_le c)

variable (D : Decoders E K)

theorem ThresholdCipher.fromBytes_of_encrypt {msg label : Bytes} {pk : PublicKey K} {params : Drawn}
    {ct : Ciphertext K} (h : ThresholdCipher.encrypt E msg label pk params = .ok ct) :
    Ciphertext.fromBytes D (ct.toBytes E) = .ok ct := by
  cases pk with
  | sg02 c key =>
      obtain ⟨inner, hinner, rfl⟩ := Outcome.map_eq_ok.mp h
      obtain ⟨-, -, -, he, hf⟩ := Sg02ThresholdCipher.encrypt_eq_ok hinner
      have he' : inner.e < 256 ^ (K.ecp c).modbytes := by
        rw [he]
        exact D.lt_of_mod c _
      have hf' : inner.f < 256 ^ (K.ecp c).modbytes := by
        rw [hf]
        exact D.lt_of_mod c _
      exact schemeFromBytes_schemeBytes D.asn1 rfl (Sg02Ciphertext.fromBytes_toBytes D he' hf') rfl
  | bz03 c key =>
      rw [ThresholdCipher.encrypt] at h
      obtain ⟨hc, h⟩ := withPairing_eq_ok.mp h
      obtain ⟨inner, -, rfl⟩ := Outcome.map_eq_ok.mp h
      exact schemeFromBytes_schemeBytes D.asn1 rfl (Bz03Ciphertext.fromBytes_toBytes D inner) rfl
  | _ => cases h

theorem ThresholdCipher.fromBytes_of_partialDecrypt {ct : Ciphertext K} {sk : PrivateKeyShare K}
    {params : Drawn} {share : DecryptionShare K}
    (h : ThresholdCipher.partialDecrypt E ct sk params = .ok share) :
    DecryptionShare.fromBytes D (share.toBytes E) = .ok share := by
  cases ct with
  | sg02 c ct =>
      cases sk with
      | sg02 c' key =>
          rw [ThresholdCipher.partialDecrypt] at h
          obtain ⟨rfl, h⟩ := onCurve_eq_ok.mp h
          obtain rfl := Outcome.ok.inj h
          exact schemeFromBytes_schemeBytes D.asn1 rfl (Sg02DecryptionShare.fromBytes_toBytes D
            (D.lt_of_mod c' _) (D.lt_of_mod c' _)) rfl
      | _ => cases h
  | bz03 c ct =>
      cases sk with
      | bz03 c' key =>
          rw [ThresholdCipher.partialDecrypt] at h
          obtain ⟨rfl, h⟩ := onCurve_eq_ok.mp h
          obtain rfl := Outcome.ok.inj h
          exact schemeFromBytes_schemeBytes D.asn1 rfl (shareFromBytes_asn1Write D _ _ _ _) rfl
      | _ => cases h

theorem ThresholdCoin.fromBytes_of_createShare {name : Bytes} {sk : PrivateKeyShare K} {rng : Drawn}
    {share : CoinShare K} (h : ThresholdCoin.createShare E name sk rng = .ok share) :
    CoinShare.fromBytes D (share.toBytes E) = .ok share := by
  cases sk with
  | cks05 c key =>
      obtain ⟨inner, hinner, rfl⟩ := Outcome.map_eq_ok.mp h
      obtain ⟨vk, hvk, -⟩ := Outcome.bind_eq_ok.mp hinner
      obtain ⟨-, -, hc, hz⟩ := Cks05ThresholdCoin.of_createShare_eq_ok hvk hinner
      -- the challenge is not reduced, but it was read from as many bytes
      have hc' : inner.c < 256 ^ (K.ecp c).modbytes := by
        rw [hc]
        exact (K.ecp c).scalarFromBytes_lt _
      have hz' : inner.z < 256 ^ (K.ecp c).modbytes := by
        rw [hz]
        exact D.lt_of_mod c _
      exact schemeFromBytes_schemeBytes D.asn1 rfl (Cks05CoinShare.fromBytes_toBytes D hc' hz') rfl
  | _ => cases h

theorem ThresholdSignature.fromBytes_of_partialSign {msg label : Bytes} {sk : PrivateKeyShare K}
    {params : Drawn} {share : SignatureShare K}
    (h : ThresholdSignature.partialSign E msg label sk params = .ok share) :
    SignatureShare.fromBytes D (share.toBytes E) = .ok share := by
  cases sk with
  | bls04 c key =>
      rw [ThresholdSignature.partialSign] at h
      obtain ⟨hc, h⟩ := withPairing_eq_ok.mp h
      obtain rfl := Outcome.ok.inj h
      exact schemeFromBytes_schemeBytes D.asn1 rfl (shareFromBytes_asn1Write D _ _ _ _) rfl
  | sh00 key =>
      obtain ⟨inner, -, rfl⟩ := Outcome.map_eq_ok.mp h
      exact schemeFromBytes_schemeBytes D.asn1 rfl
        (Sh00SignatureShare.fromBytes_toBytes D.asn1 inner) rfl
  | _ => cases h

theorem Frost.fromBytes_of_partialSign {c : Curve} {hash : FrostHashes} {nonce : Nonce}
    {commitments : List (PublicCommitment (K.Point c))} {msg : Bytes}
    {key : FrostPrivateKey (K.Point c)} {id : UInt16} {share : FrostSignatureShare} {R : K.Point c}
    (h : Frost.partialSign (K.ecp c) hash nonce commitments msg key id = .ok (share, R)) :
    SignatureShare.fromBytes D ((SignatureShare.frost c share : SignatureShare K).toBytes E)
      = .ok (.frost c share) := by
  obtain ⟨factor, -, h⟩ := Outcome.bind_eq_ok.mp h
  obtain ⟨commitment, -, h⟩ := Outcome.bind_eq_ok.mp h
  obtain ⟨rfl, -⟩ := Prod.ext_iff.mp (Outcome.ok.inj h)
  exact schemeFromBytes_schemeBytes D.asn1 rfl
    (FrostSignatureShare.fromBytes_toBytes D (D.lt_of_mod c _)) rfl

theorem ThresholdSignature.fromBytes_of_assemble {shares : List (SignatureShare K)} {msg : Bytes}
    {pk : PublicKey K} {sig : Signature K}
    (h : ThresholdSignature.assemble E shares msg pk = .ok sig) :
    Signature.fromBytes D (sig.toBytes E) = .ok sig := by
  cases pk with
  | bls04 c key =>
      obtain ⟨inner, -, h⟩ := Outcome.bind_eq_ok.mp h
      unfold onOneCurve at h
      split at h
      · cases h
      · obtain ⟨onCurve, -, h⟩ := Outcome.bind_eq_ok.mp h
        obtain ⟨value, -, rfl⟩ := Outcome.map_eq_ok.mp h
        exact schemeFromBytes_schemeBytes D.asn1 rfl (Bls04Signature.fromBytes_toBytes D value) rfl
  | sh00 key =>
      obtain ⟨inner, -, h⟩ := Outcome.bind_eq_ok.mp h
      obtain ⟨value, -, rfl⟩ := Outcome.map_eq_ok.mp h
      exact schemeFromBytes_schemeBytes D.asn1 rfl (Sh00Signature.fromBytes_toBytes D.asn1 value) rfl
  | _ => cases h

theorem Frost.fromBytes_of_assemble {c : Curve} {R : K.Point c} {key : FrostPrivateKey (K.Point c)}
    {shares : List FrostSignatureShare} {sig : FrostSignature (K.Point c)}
    (h : Frost.assemble (K.ecp c) R key shares = .ok sig) :
    Signature.fromBytes D ((Signature.frost c sig : Signature K).toBytes E) = .ok (.frost c sig) := by
  have hz : sig.z < 256 ^ (K.ecp c).modbytes := by
    rw [Frost.assemble] at h
    split at h
    · cases h
    · obtain rfl := Outcome.ok.inj h
      obtain hnil | ⟨rest, share, hshares⟩ := List.eq_nil_or_concat (shares.take key.pubkey.k.toNat)
      · simp only [hnil, List.foldl_nil]
        exact Nat.pow_pos (by decide)
      · simp only [hshares, List.concat_eq_append, List.foldl_append, List.foldl_cons, List.foldl_nil]
        exact D.lt_of_mod c _
  exact schemeFromBytes_schemeBytes D.asn1 rfl (FrostSignature.fromBytes_toBytes D hz) rfl

end Operations

/-- A key of one of the schemes is read back, private and public, with the id its constructor computed. -/
theorem KeyGenerator.decodes_of_ofScheme (D : Decoders E K) {k n : ℕ} (hn : n ≤ 65535)
    {key : PrivateKeyShare K} (hkey : KeyGenerator.OfScheme E k n key) :
    PrivateKeyShare.fromBytes D (key.toBytes E) = .ok key
      ∧ PublicKey.fromBytes D (key.getPublicKey.toBytes E) = .ok key.getPublicKey
      ∧ (PublicKey.fromBytes D (key.getPublicKey.toBytes E) >>= key2id D.asn1) = .ok key.getKeyId := by
  obtain ⟨hpub, hscalar⟩ := KeyGenerator.wellFormed_of_mem D hn hkey
  have hdecoded := PublicKey.fromBytes_toBytes D hpub
  refine ⟨PrivateKeyShare.fromBytes_toBytes D hpub hscalar, hdecoded, ?_⟩
  rw [hdecoded, Outcome.ok_bind, PublicKey.key2id_eq D.asn1 hpub]
  cases key <;> rfl

/-- Decoding inverts encoding on everything that is produced: the keys of `generate_keys` for at most
`u16::MAX` parties, whatever the scheme and the group, with the id their constructor computed, whether
the RSA primes are given or drawn from a stream of bytes, prime or not; and the ciphertexts, shares and
signatures of all operations, whatever keys, labels and messages they are given. -/
theorem decodes_what_it_encodes (D : Decoders E K) :
    (∀ k n rng scheme group e draw keys,
      KeyGenerator.generateKeys E k n rng scheme group e draw = .ok keys → n ≤ 65535 →
      ∀ key ∈ keys, PrivateKeyShare.fromBytes D (key.toBytes E) = .ok key
        ∧ PublicKey.fromBytes D (key.getPublicKey.toBytes E) = .ok key.getPublicKey
        ∧ (PublicKey.fromBytes D (key.getPublicKey.toBytes E) >>= key2id D.asn1) = .ok key.getKeyId)
    ∧ (∀ isPrime bytes rounds k n rng scheme group params keys,
      KeyGenerator.generateKeysFrom E isPrime bytes rounds k n rng scheme group params
        = some (.ok keys) → n ≤ 65535 →
      ∀ key ∈ keys, PrivateKeyShare.fromBytes D (key.toBytes E) = .ok key
        ∧ PublicKey.fromBytes D (key.getPublicKey.toBytes E) = .ok key.getPublicKey
        ∧ (PublicKey.fromBytes D (key.getPublicKey.toBytes E) >>= key2id D.asn1) = .ok key.getKeyId)
    ∧ (∀ msg label pk params ct, ThresholdCipher.encrypt E msg label pk params = .ok ct →
      Ciphertext.fromBytes D (ct.toBytes E) = .ok ct)
    ∧ (∀ ct sk params share, ThresholdCipher.partialDecrypt E ct sk params = .ok share →
      DecryptionShare.fromBytes D (share.toBytes E) = .ok share)
    ∧ (∀ msg label sk params share, ThresholdSignature.partialSign E msg label sk params = .ok share →
      SignatureShare.fromBytes D (share.toBytes E) = .ok share)
    ∧ (∀ c hash nonce commitments msg key id share R,
      Frost.partialSign (K.ecp c) hash nonce commitments msg key id = .ok (share, R) →
      SignatureShare.fromBytes D ((SignatureShare.frost c share : SignatureShare K).toBytes E)
        = .ok (.frost c share))
    ∧ (∀ shares msg pk sig, ThresholdSignature.assemble E shares msg pk = .ok sig →
      Signature.fromBytes D (sig.toBytes E) = .ok sig)
    ∧ (∀ c R key shares sig, Frost.assemble (K.ecp c) R key shares = .ok sig →
      Signature.fromBytes D ((Signature.frost c sig : Signature K).toBytes E) = .ok (.frost c sig))
    ∧ (∀ name sk rng share, ThresholdCoin.createShare E name sk rng = .ok share →
      CoinShare.fromBytes D (share.toBytes E) = .ok share) := by
  refine ⟨?_, ?_, fun _ _ _ _ _ => ThresholdCipher.fromBytes_of_encrypt D,
    fun _ _ _ _ => ThresholdCipher.fromBytes_of_partialDecrypt D,
    fun _ _ _ _ _ => ThresholdSignature.fromBytes_of_partialSign D,
    fun _ _ _ _ _ _ _ _ _ => Frost.fromBytes_of_partialSign D,
    fun _ _ _ _ => ThresholdSignature.fromBytes_of_assemble D,
    fun _ _ _ _ _ => Frost.fromBytes_of_assemble D,
    fun _ _ _ _ => ThresholdCoin.fromBytes_of_createShare D⟩
  · intro k n rng scheme group e draw keys hkeys hn key hkey
    exact KeyGenerator.decodes_of_ofScheme D hn (KeyGenerator.ofScheme_of_mem hkeys hkey)
  · intro isPrime bytes rounds k n rng scheme group params keys hkeys hn key hkey
    exact KeyGenerator.decodes_of_ofScheme D hn (KeyGenerator.ofScheme_of_mem_from hkeys hkey)

/-- One party over the residues modulo seven, in DER: its Sg02 key, and a ciphertext under it. -/
theorem decodes_what_it_encodes_seven :
    ∃ keys, KeyGenerator.generateKeys .der 1 1 id .sg02 .bn254 65537 (fun h => nomatch h) = .ok keys
      ∧ ∃ key ∈ keys, PrivateKeyShare.fromBytes .seven (key.toBytes .der) = .ok key
        ∧ PublicKey.fromBytes .seven (key.getPublicKey.toBytes .der) = .ok key.getPublicKey
        ∧ ∃ ct, ThresholdCipher.encrypt .der [104, 105] [] key.getPublicKey .counting = .ok ct
          ∧ Ciphertext.fromBytes .seven (ct.toBytes .der) = .ok ct := by
  obtain ⟨hgenerated, -, hencrypted, -⟩ := decodes_what_it_encodes Decoders.seven
  refine ⟨_, rfl, _, List.mem_cons_self, ?_⟩
  obtain ⟨hprivate, hpublic, -⟩ := hgenerated 1 1 id .sg02 .bn254 65537 (fun h => by cases h) _ rfl
    (by decide) _ List.mem_cons_self
  refine ⟨hprivate, hpublic, _, rfl, ?_⟩
  exact hencrypted [104, 105] [] (.sg02 .bn254 _) .counting _ rfl

end QuorumCrypt
