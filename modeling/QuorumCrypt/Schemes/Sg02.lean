import QuorumCrypt.Schemes.Common

/-!
# The Sg02 threshold cipher

`ciphers/sg02.rs` and the Sg02 arm of `generate_keys`, over one curve. A ciphertext and a share each
carry a proof that two discrete logarithms are equal, made with a hash of the commitments; the
verifier recomputes the commitments from the response. The end of the module puts the parts
together: what `encrypt` returns is accepted, the shares of the parties are accepted, and enough of
them decrypt.
-/

namespace QuorumCrypt

open Rust

/-- The curve, a field in the code, is the type parameter here. -/
structure Sg02PublicKey (G : Type) where
  n : UInt16
  k : UInt16
  y : G
  verificationKey : List G
  gBar : G
  id : String
  deriving DecidableEq

structure Sg02PrivateKey (G : Type) where
  id : UInt16
  xi : ℕ
  pubkey : Sg02PublicKey G
  deriving DecidableEq

structure Sg02Ciphertext (G : Type) where
  label : Bytes
  ctxt : Bytes
  u : G
  uBar : G
  e : ℕ
  f : ℕ
  ck : Bytes
  keyId : String
  deriving DecidableEq

structure Sg02DecryptionShare (G : Type) where
  id : UInt16
  label : Bytes
  data : G
  ei : ℕ
  fi : ℕ
  deriving DecidableEq

instance {G : Type} : DlShare (Sg02DecryptionShare G) G where
  getId := Sg02DecryptionShare.id
  getData := Sg02DecryptionShare.data

section

variable {G : Type} [CommGroup G] (E : Primitives) (C : EcGroup G)

namespace Sg02PublicKey

def toBytes (pk : Sg02PublicKey G) : Bytes :=
  E.asn1Write ([.int C.group.asI32, .int pk.n.toNat, .int pk.k.toNat, .octets (C.toBytes pk.y)]
    ++ pk.verificationKey.map (fun vk => .octets (C.toBytes vk)) ++ [.octets (C.toBytes pk.gBar)])

def new (n k : ℕ) (y : G) (verificationKey : List G) (gBar : G) : Sg02PublicKey G :=
  let key : Sg02PublicKey G :=
    { n := UInt16.ofNat n, k := UInt16.ofNat k, y, verificationKey, gBar, id := "" }
  { key with id := E.calcKeyId (key.toBytes E C) }

end Sg02PublicKey

namespace Sg02ThresholdCipher

/-- The Sg02 arm of `generate_keys`. -/
def generateKeys (k n : ℕ) (rng : ℕ → ℕ) : SchemeOutcome (List (Sg02PrivateKey G)) := do
  checkParams k n
  let x := C.newRand (rng 0)
  let y := C.newPowBig x
  let (shares, h) ← shamirShare C x k n fun i => rng (i + 1)
  let gBar := C.newPowBig (C.newRand (rng k))
  let publicKey := Sg02PublicKey.new E C n k y h gBar
  tryNumberShares shares fun id xi => { id, xi, pubkey := publicKey }

def h1 (m1 m2 : Bytes) (g1 g2 g3 g4 : G) : ℕ :=
  hashToScalar E C (m1 ++ m2 ++ C.toBytes g1 ++ C.toBytes g2 ++ C.toBytes g3 ++ C.toBytes g4)
    % C.order

def h2 (g1 g2 g3 : G) : ℕ :=
  hashToScalar E C (C.toBytes g1 ++ C.toBytes g2 ++ C.toBytes g3) % C.order

def encrypt (msg label : Bytes) (pk : Sg02PublicKey G) (params : Drawn) :
    SchemeOutcome (Sg02Ciphertext G) := do
  let r := C.newRand (params.scalar 0)
  let u := C.newPowBig r
  let ry := pk.y ^ r
  let (encryption, ck) ← sealMessage E (C.toBytes ry) params.symmKey msg
  let s := C.newRand (params.scalar 1)
  let w := C.newPowBig s
  let wBar := pk.gBar ^ s
  let uBar := pk.gBar ^ r
  let e := h1 E C ck label u w uBar wBar
  let f := (s + mulMod e r C.order) % C.order
  .ok { label, ctxt := encryption, ck, u, uBar, e, f, keyId := pk.id }

def verifyCiphertext (ct : Sg02Ciphertext G) (pk : Sg02PublicKey G) : Bool :=
  let w := C.newPowBig ct.f / ct.u ^ ct.e
  let wBar := pk.gBar ^ ct.f / ct.uBar ^ ct.e
  let e2 := h1 E C ct.ck ct.label ct.u w ct.uBar wBar
  ct.e == e2

def partialDecrypt (ct : Sg02Ciphertext G) (sk : Sg02PrivateKey G) (params : Drawn) :
    Sg02DecryptionShare G :=
  let data := ct.u ^ sk.xi
  let si := C.newRand (params.scalar 0)
  let uiBar := ct.u ^ si
  let hiBar := C.generator ^ si
  let ei := h2 E C data uiBar hiBar
  let fi := (si + mulMod sk.xi ei C.order) % C.order
  { id := sk.id, data, label := ct.label, ei, fi }

def verifyShare (share : Sg02DecryptionShare G) (ct : Sg02Ciphertext G) (pk : Sg02PublicKey G) :
    SchemeOutcome Bool := do
  let uiBar := ct.u ^ share.fi / share.data ^ share.ei
  let vk ← verificationKeyAt pk.verificationKey share.id
  let hiBar := C.generator ^ share.fi / vk ^ share.ei
  let ei2 := h2 E C share.data uiBar hiBar
  .ok (share.ei == ei2)

/-- Only the bytes of the ciphertext are read, not its points. -/
def assemble {H : Type} (shares : List (Sg02DecryptionShare G)) (ct : Sg02Ciphertext H) :
    SchemeOutcome Bytes := do
  let ry ← interpolate C shares
  openMessage E (C.toBytes ry) ct.ck ct.ctxt

/-! ### The keys of the parties -/

/-- The public key of a dealing. -/
def publicKey (k n : ℕ) (rng : ℕ → ℕ) : Sg02PublicKey G :=
  Sg02PublicKey.new E C n k (C.generator ^ dealtSecret C.order rng)
    ((dealtShares C.order (dealtSecret C.order rng) k n fun i => rng (i + 1)).map
      fun xi => C.generator ^ xi)
    (C.newPowBig (C.newRand (rng k)))

variable {E C}
variable {k n : ℕ} {rng : ℕ → ℕ}

theorem generateKeys_eq_ok {keys : List (Sg02PrivateKey G)} :
    generateKeys E C k n rng = .ok keys ↔ 1 ≤ k ∧ k ≤ n ∧ n ≤ 65535 ∧
      keys = numberShares (dealtShares C.order (dealtSecret C.order rng) k n fun i => rng (i + 1))
        fun id xi => { id, xi, pubkey := publicKey E C k n rng } := by
  refine (deal_eq_ok C _ k n _).trans ?_
  refine and_congr_right fun _ => and_congr_right fun _ => ?_
  exact (tryNumberShares_eq_ok _ _ _ _ _).trans Iff.rfl

/-- Every key has the id and the share of one party, and the same public key. -/
theorem exists_party_of_mem {keys : List (Sg02PrivateKey G)}
    (hkeys : generateKeys E C k n rng = .ok keys) {sk : Sg02PrivateKey G} (hsk : sk ∈ keys) :
    1 ≤ sk.id.toNat ∧ sk.id.toNat ≤ n ∧ sk.xi = dealtShare C.order k rng sk.id
      ∧ sk.pubkey = publicKey E C k n rng := by
  obtain ⟨-, -, hn, rfl⟩ := generateKeys_eq_ok.mp hkeys
  obtain ⟨id, hpos, hle, rfl⟩ := exists_id_of_mem_numberShares _ _ _ _ _ hn hsk
  exact ⟨hpos, hle, rfl, rfl⟩

theorem verificationKeyAt_publicKey {id : UInt16} (hpos : 1 ≤ id.toNat) (hle : id.toNat ≤ n) :
    verificationKeyAt (publicKey E C k n rng).verificationKey id
      = .ok (C.generator ^ dealtShare C.order k rng id) :=
  verificationKeyAt_dealtShares C _ _ _ _ hpos hle

/-! ### Acceptance and decryption -/

section

variable {msg label : Bytes} {pk : Sg02PublicKey G} {params : Drawn} {ct : Sg02Ciphertext G}

/-- What `encrypt` returns, part by part. -/
theorem encrypt_eq_ok (h : encrypt E C msg label pk params = .ok ct) :
    sealMessage E (C.toBytes (pk.y ^ C.newRand (params.scalar 0))) params.symmKey msg
        = .ok (ct.ctxt, ct.ck)
      ∧ ct.u = C.generator ^ C.newRand (params.scalar 0)
      ∧ ct.uBar = pk.gBar ^ C.newRand (params.scalar 0)
      ∧ ct.e = h1 E C ct.ck ct.label ct.u (C.generator ^ C.newRand (params.scalar 1)) ct.uBar
          (pk.gBar ^ C.newRand (params.scalar 1))
      ∧ ct.f = (C.newRand (params.scalar 1)
          + mulMod ct.e (C.newRand (params.scalar 0)) C.order) % C.order := by
  obtain ⟨⟨encryption, ck⟩, hseal, hct⟩ := Outcome.bind_eq_ok.mp h
  obtain rfl := Outcome.ok.inj hct
  exact ⟨hseal, rfl, rfl, rfl, rfl⟩

/-- The proof of a fresh ciphertext verifies. -/
theorem verifyCiphertext_encrypt (h : encrypt E C msg label pk params = .ok ct) :
    verifyCiphertext E C ct pk = true := by
  obtain ⟨-, hu, huBar, he, hf⟩ := encrypt_eq_ok h
  have hw : C.newPowBig ct.f / ct.u ^ ct.e = C.generator ^ C.newRand (params.scalar 1) := by
    rw [hf, hu]
    exact C.pow_response_div _ _ _ _
  have hwBar : pk.gBar ^ ct.f / ct.uBar ^ ct.e = pk.gBar ^ C.newRand (params.scalar 1) := by
    rw [hf, huBar]
    exact C.pow_response_div _ _ _ _
  rw [verifyCiphertext, hw, hwBar, ← he]
  exact beq_self_eq_true _

/-- The proof of a fresh share verifies under the key of its party. -/
theorem verifyShare_partialDecrypt {sk : Sg02PrivateKey G}
    (hvk : verificationKeyAt pk.verificationKey sk.id = .ok (C.generator ^ sk.xi)) :
    verifyShare E C (partialDecrypt E C ct sk params) ct pk = .ok true := by
  have hresponse : ∀ x : G, x ^ (partialDecrypt E C ct sk params).fi
      / (x ^ sk.xi) ^ (partialDecrypt E C ct sk params).ei = x ^ C.newRand (params.scalar 0) := by
    intro x
    have hfi : (partialDecrypt E C ct sk params).fi = (C.newRand (params.scalar 0)
        + (partialDecrypt E C ct sk params).ei * sk.xi % C.order) % C.order := by
      rw [Nat.mul_comm]
      rfl
    rw [hfi]
    exact C.pow_response_div _ _ _ _
  have hu : ct.u ^ (partialDecrypt E C ct sk params).fi
      / (partialDecrypt E C ct sk params).data ^ (partialDecrypt E C ct sk params).ei
        = ct.u ^ C.newRand (params.scalar 0) := hresponse ct.u
  rw [verifyShare, hu]
  change (verificationKeyAt pk.verificationKey sk.id >>= _) = _
  rw [hvk, Outcome.ok_bind, hresponse]
  exact congrArg Outcome.ok (beq_self_eq_true _)

end

/-- A share that is accepted has the id of a party. -/
theorem toNat_of_verifyShare_eq_ok_true {s : Sg02DecryptionShare G} {ct : Sg02Ciphertext G}
    (haccept : verifyShare E C s ct (publicKey E C k n rng) = .ok true) :
    1 ≤ s.id.toNat ∧ s.id.toNat ≤ n := by
  obtain ⟨vk, hvk, -⟩ := Outcome.bind_eq_ok.mp haccept
  have hid := toNat_of_verificationKeyAt hvk
  simpa [publicKey, Sg02PublicKey.new] using hid

/-- Enough shares with the right data decrypt, whatever proofs they carry. -/
theorem assemble_eq_ok {msg label : Bytes} {params : Drawn} {ct : Sg02Ciphertext G} (hk : 1 ≤ k)
    (hn : n < C.order)
    (hct : encrypt E C msg label (publicKey E C k n rng) params = .ok ct)
    {shares : List (Sg02DecryptionShare G)}
    (hdata : ∀ s ∈ shares, s.data = ct.u ^ dealtShare C.order k rng s.id)
    (hlength : k ≤ shares.length) (hnodup : (shares.map Sg02DecryptionShare.id).Nodup)
    (hids : ∀ s ∈ shares, s.id.toNat ≤ n) :
    assemble E C shares ct = .ok msg := by
  obtain ⟨hseal, hu, -⟩ := encrypt_eq_ok hct
  have hinterpolate := interpolate_dealtShare C ct.u hk hn rng hdata hlength hnodup hids
  -- the point of the ciphertext raised to the secret is the public key raised to `r`
  have hpoint : ct.u ^ dealtSecret C.order rng
      = (publicKey E C k n rng).y ^ C.newRand (params.scalar 0) := by
    change _ = (C.generator ^ dealtSecret C.order rng) ^ C.newRand (params.scalar 0)
    rw [hu, ← pow_mul, ← pow_mul, Nat.mul_comm]
  rw [assemble, hinterpolate, Outcome.ok_bind, hpoint]
  exact openMessage_of_sealMessage hseal

/-- `encrypt` returns whenever the cipher takes the message. -/
theorem encrypt_returns {msg label : Bytes} {pk : Sg02PublicKey G} {params : Drawn}
    (haead : ∀ key nonce, ∃ ctxt, E.aead.encrypt key nonce msg = some ctxt) :
    ∃ ct, encrypt E C msg label pk params = .ok ct := by
  obtain ⟨ctxt, hctxt⟩ := haead params.symmKey.val
    (nonceOf (C.toBytes (pk.y ^ C.newRand (params.scalar 0))))
  simp only [encrypt, sealMessage, hctxt, Outcome.unwrap_some, Outcome.ok_bind]
  exact ⟨_, rfl⟩

/-- Sg02 from the dealer to the plaintext: every dealing, message, label and randomness. -/
theorem decrypts_what_it_encrypts (E : Primitives) (C : EcGroup G) {k n : ℕ} (hk : 1 ≤ k)
    (hkn : k ≤ n) (hn : n < C.order) (rng : ℕ → ℕ) (msg label : Bytes) :
    (n ≤ 65535 → ∃ keys, generateKeys E C k n rng = .ok keys)
    ∧ ∀ keys, generateKeys E C k n rng = .ok keys → ∀ dealt ∈ keys, ∀ params : Drawn,
      ((∀ key nonce, ∃ ctxt, E.aead.encrypt key nonce msg = some ctxt) →
        ∃ ct, encrypt E C msg label dealt.pubkey params = .ok ct)
      ∧ ∀ ct, encrypt E C msg label dealt.pubkey params = .ok ct →
        verifyCiphertext E C ct dealt.pubkey = true
        ∧ (∀ sk ∈ keys, ∀ params' : Drawn,
            (partialDecrypt E C ct sk params').id = sk.id
            ∧ verifyShare E C (partialDecrypt E C ct sk params') ct dealt.pubkey = .ok true)
        ∧ ∀ shares : List (Sg02DecryptionShare G),
            (∀ s ∈ shares, ∃ sk ∈ keys, ∃ params' : Drawn, s = partialDecrypt E C ct sk params') →
            k ≤ shares.length → (shares.map Sg02DecryptionShare.id).Nodup →
            assemble E C shares ct = .ok msg := by
  refine ⟨fun hmax => ⟨_, generateKeys_eq_ok.mpr ⟨hk, hkn, hmax, rfl⟩⟩, ?_⟩
  intro keys hkeys dealt hdealt params
  refine ⟨encrypt_returns, fun ct hct => ⟨verifyCiphertext_encrypt hct, ?_, ?_⟩⟩
  · intro sk hsk params'
    obtain ⟨hpos, hle, hxi, -⟩ := exists_party_of_mem hkeys hsk
    refine ⟨rfl, verifyShare_partialDecrypt ?_⟩
    rw [(exists_party_of_mem hkeys hdealt).2.2.2, hxi]
    exact verificationKeyAt_publicKey hpos hle
  · intro shares hshares hlength hnodup
    rw [(exists_party_of_mem hkeys hdealt).2.2.2] at hct
    refine assemble_eq_ok hk hn hct ?_ hlength hnodup ?_
    · intro s hs
      obtain ⟨sk, hsk, params', rfl⟩ := hshares s hs
      change ct.u ^ sk.xi = ct.u ^ dealtShare C.order k rng sk.id
      rw [(exists_party_of_mem hkeys hsk).2.2.1]
    · intro s hs
      obtain ⟨sk, hsk, params', rfl⟩ := hshares s hs
      exact (exists_party_of_mem hkeys hsk).2.1

/-- Three parties with threshold two, over the residues modulo seven. -/
theorem decrypts_what_it_encrypts_seven :
    3 < EcGroup.seven.order ∧ ∃ keys, generateKeys .truncating .seven 2 3 id = .ok keys
      ∧ ∃ dealt ∈ keys, ∃ ct, encrypt .truncating .seven [104, 105] [] dealt.pubkey .counting = .ok ct
        ∧ verifyCiphertext .truncating .seven ct dealt.pubkey = true
        ∧ assemble .truncating .seven
          (keys.map fun sk => partialDecrypt .truncating .seven ct sk .counting) ct
            = .ok [104, 105] := by
  obtain ⟨-, hall⟩ := decrypts_what_it_encrypts .truncating .seven (k := 2) (n := 3) (by decide)
    (by decide) (by decide) id [104, 105] []
  refine ⟨by decide, _, rfl, _, List.mem_cons_self, ?_⟩
  obtain ⟨hencrypt, hall⟩ := hall _ rfl _ List.mem_cons_self .counting
  obtain ⟨ct, hct⟩ := hencrypt fun key nonce => ⟨_, rfl⟩
  obtain ⟨hverify, -, hassemble⟩ := hall ct hct
  have hids : ([1, 2, 3] : List UInt16).Nodup := by decide
  refine ⟨ct, hct, hverify, hassemble _ ?_ (by rw [List.length_map]; decide) hids⟩
  intro s hs
  obtain ⟨sk, hsk, rfl⟩ := List.mem_map.mp hs
  exact ⟨sk, hsk, .counting, rfl⟩

end Sg02ThresholdCipher

end

end QuorumCrypt
