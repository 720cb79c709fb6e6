import QuorumCrypt.Schemes.Common

/-!
# The Bz03 threshold cipher

`ciphers/bz03.rs` and the Bz03 arm of `generate_keys`, over one curve with a pairing. The public key,
the ciphertext point and the shares are in the second group, the verification keys in the first. A
share carries no proof: the pairing of its data with the generator is compared with the pairing of
the ciphertext point with the verification key, and this holds for one group element only.
-/

namespace QuorumCrypt

open Rust

structure Bz03PublicKey (G₂ G₁ : Type) where
  id : String
  n : UInt16
  k : UInt16
  y : G₂
  verificationKey : List G₁
  deriving DecidableEq

structure Bz03PrivateKey (G₂ G₁ : Type) where
  id : UInt16
  xi : ℕ
  pubkey : Bz03PublicKey G₂ G₁
  deriving DecidableEq

structure Bz03Ciphertext (G₂ G₁ : Type) where
  label : Bytes
  ctxt : Bytes
  u : G₂
  ck : Bytes
  hr : G₁
  keyId : String
  deriving DecidableEq

structure Bz03DecryptionShare (G₂ : Type) where
  id : UInt16
  data : G₂
  label : Bytes
  deriving DecidableEq

instance {G₂ : Type} : DlShare (Bz03DecryptionShare G₂) G₂ where
  getId := Bz03DecryptionShare.id
  getData := Bz03DecryptionShare.data

section

variable {G₂ G₁ Gt : Type} [CommGroup G₂] [CommGroup G₁] [CommGroup Gt]
  (E : Primitives) (C : PairingCurve G₂ G₁ Gt)

namespace Bz03PublicKey

/-- The encoding needs no pairing: the code writes such a key on every curve. -/
def toBytes (ecp2 : EcGroup G₂) (ecp : EcGroup G₁) (pk : Bz03PublicKey G₂ G₁) : Bytes :=
  E.asn1Write ([.int ecp.group.asI32, .int pk.n.toNat, .int pk.k.toNat, .octets (ecp2.toBytes pk.y)]
    ++ pk.verificationKey.map fun vk => .octets (ecp.toBytes vk))

def new (n k : ℕ) (y : G₂) (verificationKey : List G₁) : Bz03PublicKey G₂ G₁ :=
  let key : Bz03PublicKey G₂ G₁ :=
    { id := "", n := UInt16.ofNat n, k := UInt16.ofNat k, y, verificationKey }
  { key with id := E.calcKeyId (key.toBytes E C.ecp2 C.ecp) }

end Bz03PublicKey

namespace Bz03ThresholdCipher

/-- The Bz03 arm of `generate_keys`. -/
def generateKeys (k n : ℕ) (rng : ℕ → ℕ) : SchemeOutcome (List (Bz03PrivateKey G₂ G₁)) := do
  checkParams k n
  let x := C.ecp.newRand (rng 0)
  let y := C.ecp2.newPowBig x
  let (shares, h) ← shamirShare C.ecp x k n fun i => rng (i + 1)
  let publicKey := Bz03PublicKey.new E C n k y h
  .ok (numberShares shares fun id xi => { id, xi, pubkey := publicKey })

/-- The padding is the one of the curve Bls12381, 48 bytes less the digest, on both curves. -/
def h (g : G₂) (m : Bytes) : G₁ :=
  let digest := List.replicate (48 - 32) 0 ++ E.hash256 (C.ecp2.toBytes g ++ m)
  let s := C.ecp.scalarFromBytes digest % C.ecp.order
  C.ecp.generator ^ s

def encrypt (msg label : Bytes) (pk : Bz03PublicKey G₂ G₁) (params : Drawn) :
    SchemeOutcome (Bz03Ciphertext G₂ G₁) := do
  let r := C.ecp.newRand (params.scalar 0)
  let u := C.ecp2.generator ^ r
  let rY := pk.y ^ r
  let (encryption, ck) ← sealMessage E (C.ecp2.toBytes rY) params.symmKey msg
  let hr := h E C u ck ^ r
  .ok { label, ctxt := encryption, ck, u, hr, keyId := pk.id }

section Pairing

variable [DecidableEq Gt]

def verifyCiphertext {H₂ H₁ : Type} (ct : Bz03Ciphertext G₂ G₁) (_pk : Bz03PublicKey H₂ H₁) :
    SchemeOutcome Bool :=
  let h := h E C ct.u ct.ck
  C.ddh ct.u h C.ecp2.generator ct.hr

def verifyShare (share : Bz03DecryptionShare G₂) (ct : Bz03Ciphertext G₂ G₁)
    (pk : Bz03PublicKey G₂ G₁) : SchemeOutcome Bool := do
  let vk ← verificationKeyAt pk.verificationKey share.id
  C.ddh share.data C.ecp.generator ct.u vk

end Pairing

def partialDecrypt (ct : Bz03Ciphertext G₂ G₁) (sk : Bz03PrivateKey G₂ G₁) :
    Bz03DecryptionShare G₂ :=
  { label := ct.label, id := sk.id, data := ct.u ^ sk.xi }

/-- Only the bytes of the ciphertext are read, not its points. -/
def assemble {H₂ H₁ : Type} (ecp2 : EcGroup G₂) (shares : List (Bz03DecryptionShare G₂))
    (ct : Bz03Ciphertext H₂ H₁) : SchemeOutcome Bytes := do
  let rY ← interpolate ecp2 shares
  openMessage E (ecp2.toBytes rY) ct.ck ct.ctxt

/-! ### The keys of the parties -/

/-- The public key of a dealing. -/
def publicKey (k n : ℕ) (rng : ℕ → ℕ) : Bz03PublicKey G₂ G₁ :=
  Bz03PublicKey.new E C n k (C.ecp2.generator ^ dealtSecret C.ecp.order rng)
    ((dealtShares C.ecp.order (dealtSecret C.ecp.order rng) k n fun i => rng (i + 1)).map
      fun xi => C.ecp.generator ^ xi)

variable {E C}
variable {k n : ℕ} {rng : ℕ → ℕ}

theorem generateKeys_eq_ok {keys : List (Bz03PrivateKey G₂ G₁)} :
    generateKeys E C k n rng = .ok keys ↔ 1 ≤ k ∧ k ≤ n ∧
      keys = numberShares
        (dealtShares C.ecp.order (dealtSecret C.ecp.order rng) k n fun i => rng (i + 1))
        fun id xi => { id, xi, pubkey := publicKey E C k n rng } := by
  refine (deal_eq_ok C.ecp _ k n _).trans ?_
  refine and_congr_right fun _ => and_congr_right fun _ => ?_
  rw [Outcome.ok.injEq, eq_comm]
  rfl

theorem pubkey_of_mem {keys : List (Bz03PrivateKey G₂ G₁)}
    (hkeys : generateKeys E C k n rng = .ok keys) {sk : Bz03PrivateKey G₂ G₁} (hsk : sk ∈ keys) :
    sk.pubkey = publicKey E C k n rng := by
  obtain ⟨-, -, rfl⟩ := generateKeys_eq_ok.mp hkeys
  obtain ⟨i, -, rfl⟩ := (mem_numberShares _ _ _ _ _).mp hsk
  rfl

/-- With at most `u16::MAX` parties every key has the id and the share of one party. -/
theorem exists_party_of_mem (hn : n ≤ 65535) {keys : List (Bz03PrivateKey G₂ G₁)}
    (hkeys : generateKeys E C k n rng = .ok keys) {sk : Bz03PrivateKey G₂ G₁} (hsk : sk ∈ keys) :
    1 ≤ sk.id.toNat ∧ sk.id.toNat ≤ n ∧ sk.xi = dealtShare C.ecp.order k rng sk.id := by
  obtain ⟨-, -, rfl⟩ := generateKeys_eq_ok.mp hkeys
  obtain ⟨id, hpos, hle, rfl⟩ := exists_id_of_mem_numberShares _ _ _ _ _ hn hsk
  exact ⟨hpos, hle, rfl⟩

theorem verificationKeyAt_publicKey {id : UInt16} (hpos : 1 ≤ id.toNat) (hle : id.toNat ≤ n) :
    verificationKeyAt (publicKey E C k n rng).verificationKey id
      = .ok (C.ecp.generator ^ dealtShare C.ecp.order k rng id) :=
  verificationKeyAt_dealtShares C.ecp _ _ _ _ hpos hle

/-! ### Acceptance and decryption -/

section

variable {msg label : Bytes} {pk : Bz03PublicKey G₂ G₁} {params : Drawn}
  {ct : Bz03Ciphertext G₂ G₁}

/-- What `encrypt` returns, part by part. -/
theorem encrypt_eq_ok (hct : encrypt E C msg label pk params = .ok ct) :
    sealMessage E (C.ecp2.toBytes (pk.y ^ C.ecp.newRand (params.scalar 0))) params.symmKey msg
        = .ok (ct.ctxt, ct.ck)
      ∧ ct.u = C.ecp2.generator ^ C.ecp.newRand (params.scalar 0)
      ∧ ct.hr = h E C ct.u ct.ck ^ C.ecp.newRand (params.scalar 0) := by
  obtain ⟨⟨encryption, ck⟩, hseal, hct⟩ := Outcome.bind_eq_ok.mp hct
  obtain rfl := Outcome.ok.inj hct
  exact ⟨hseal, rfl, rfl⟩

/-- `encrypt` returns whenever the cipher takes the message. -/
theorem encrypt_returns (haead : ∀ key nonce, ∃ ctxt, E.aead.encrypt key nonce msg = some ctxt) :
    ∃ ct, encrypt E C msg label pk params = .ok ct := by
  obtain ⟨ctxt, hctxt⟩ := haead params.symmKey.val
    (nonceOf (C.ecp2.toBytes (pk.y ^ C.ecp.newRand (params.scalar 0))))
  simp only [encrypt, sealMessage, hctxt, Outcome.unwrap_some, Outcome.ok_bind]
  exact ⟨_, rfl⟩

/-- Enough shares with the right data decrypt. -/
theorem assemble_eq_ok (hk : 1 ≤ k) (hn : n < C.ecp.order)
    (hct : encrypt E C msg label (publicKey E C k n rng) params = .ok ct)
    {shares : List (Bz03DecryptionShare G₂)}
    (hdata : ∀ s ∈ shares, s.data = ct.u ^ dealtShare C.ecp.order k rng s.id)
    (hlength : k ≤ shares.length) (hnodup : (shares.map Bz03DecryptionShare.id).Nodup)
    (hids : ∀ s ∈ shares, s.id.toNat ≤ n) :
    assemble E C.ecp2 shares ct = .ok msg := by
  obtain ⟨hseal, hu, -⟩ := encrypt_eq_ok hct
  rw [C.order_ecp] at hn hdata
  have hinterpolate := interpolate_dealtShare C.ecp2 ct.u hk hn rng hdata hlength hnodup hids
  -- the point of the ciphertext raised to the secret is the public key raised to `r`
  have hpoint : ct.u ^ dealtSecret C.ecp2.order rng
      = (publicKey E C k n rng).y ^ C.ecp.newRand (params.scalar 0) := by
    change _ = (C.ecp2.generator ^ dealtSecret C.ecp.order rng) ^ C.ecp.newRand (params.scalar 0)
    rw [hu, ← pow_mul, ← pow_mul, Nat.mul_comm, C.order_ecp]
  rw [assemble, hinterpolate, Outcome.ok_bind, hpoint]
  exact openMessage_of_sealMessage hseal

variable [DecidableEq Gt]

theorem verifyCiphertext_encrypt (hct : encrypt E C msg label pk params = .ok ct) :
    verifyCiphertext E C ct pk = .ok true := by
  obtain ⟨-, hu, hhr⟩ := encrypt_eq_ok hct
  refine C.ddh_eq_ok_true.mpr ?_
  rw [hhr, ← C.pairing.pow_comm, ← hu]

/-- The pairing equation pins the data of a share. -/
theorem ddh_share_iff {data u : G₂} {x : ℕ} :
    C.ddh data C.ecp.generator u (C.ecp.generator ^ x) = .ok true ↔ data = u ^ x := by
  rw [C.ddh_eq_ok_true, ← C.pairing.pow_comm, C.pairing.pair_generator_inj]

theorem verifyShare_eq_ok_true_iff {s : Bz03DecryptionShare G₂} (hpos : 1 ≤ s.id.toNat)
    (hle : s.id.toNat ≤ n) :
    verifyShare C s ct (publicKey E C k n rng) = .ok true
      ↔ s.data = ct.u ^ dealtShare C.ecp.order k rng s.id := by
  rw [verifyShare, verificationKeyAt_publicKey hpos hle, Outcome.ok_bind, ddh_share_iff]

theorem verifyShare_partialDecrypt {sk : Bz03PrivateKey G₂ G₁} (hpos : 1 ≤ sk.id.toNat)
    (hle : sk.id.toNat ≤ n) (hxi : sk.xi = dealtShare C.ecp.order k rng sk.id) :
    verifyShare C (partialDecrypt ct sk) ct (publicKey E C k n rng) = .ok true :=
  (verifyShare_eq_ok_true_iff hpos hle).mpr (congrArg (ct.u ^ ·) hxi)

/-- A share that is accepted has the id of a party and the data of that party. -/
theorem of_verifyShare_eq_ok_true {s : Bz03DecryptionShare G₂}
    (haccept : verifyShare C s ct (publicKey E C k n rng) = .ok true) :
    1 ≤ s.id.toNat ∧ s.id.toNat ≤ n ∧ s.data = ct.u ^ dealtShare C.ecp.order k rng s.id := by
  obtain ⟨vk, hvk, -⟩ := Outcome.bind_eq_ok.mp haccept
  obtain ⟨hpos, hle⟩ := toNat_of_verificationKeyAt hvk
  have hle : s.id.toNat ≤ n := by simpa [publicKey, Bz03PublicKey.new] using hle
  exact ⟨hpos, hle, (verifyShare_eq_ok_true_iff hpos hle).mp haccept⟩

end

/-- Bz03 from the dealer to the plaintext. A share is accepted under an id exactly when it is the
share of that party for this ciphertext, and any list of enough accepted shares decrypts. -/
theorem accepts_exactly_and_decrypts [DecidableEq Gt] (E : Primitives) (C : PairingCurve G₂ G₁ Gt)
    {k n : ℕ} (hk : 1 ≤ k) (hkn : k ≤ n) (hn : n < C.ecp.order) (rng : ℕ → ℕ) (msg label : Bytes) :
    ∃ keys, generateKeys E C k n rng = .ok keys ∧ ∀ dealt ∈ keys, ∀ params : Drawn,
      ((∀ key nonce, ∃ ctxt, E.aead.encrypt key nonce msg = some ctxt) →
        ∃ ct, encrypt E C msg label dealt.pubkey params = .ok ct)
      ∧ (∀ (ct : Bz03Ciphertext G₂ G₁) (s : Bz03DecryptionShare G₂), 1 ≤ s.id.toNat →
          s.id.toNat ≤ n → ∃ sk, keys[s.id.toNat - 1]? = some sk ∧ sk.id = s.id
            ∧ (verifyShare C s ct dealt.pubkey = .ok true ↔ s.data = ct.u ^ sk.xi))
      ∧ ∀ ct, encrypt E C msg label dealt.pubkey params = .ok ct →
        verifyCiphertext E C ct dealt.pubkey = .ok true
        ∧ ∀ shares : List (Bz03DecryptionShare G₂),
            (∀ s ∈ shares, verifyShare C s ct dealt.pubkey = .ok true) →
            k ≤ shares.length → (shares.map Bz03DecryptionShare.id).Nodup →
            assemble E C.ecp2 shares ct = .ok msg := by
  refine ⟨_, generateKeys_eq_ok.mpr ⟨hk, hkn, rfl⟩, ?_⟩
  intro dealt hdealt params
  rw [pubkey_of_mem (generateKeys_eq_ok.mpr ⟨hk, hkn, rfl⟩) hdealt]
  refine ⟨encrypt_returns, ?_, fun ct hct => ⟨verifyCiphertext_encrypt hct, ?_⟩⟩
  · intro ct s hpos hle
    exact ⟨_, getElem?_numberShares _ _ _ _ _ hpos hle, rfl, verifyShare_eq_ok_true_iff hpos hle⟩
  · intro shares haccept hlength hnodup
    exact assemble_eq_ok hk hn hct (fun s hs => (of_verifyShare_eq_ok_true (haccept s hs)).2.2)
      hlength hnodup fun s hs => (of_verifyShare_eq_ok_true (haccept s hs)).2.1

/-- Three parties with threshold two, over the residues modulo seven. -/
theorem accepts_exactly_and_decrypts_seven :
    3 < PairingCurve.seven.ecp.order ∧ ∃ keys, generateKeys .truncating .seven 2 3 id = .ok keys
      ∧ ∃ dealt ∈ keys, ∃ ct, encrypt .truncating .seven [104, 105] [] dealt.pubkey .counting = .ok ct
        ∧ verifyCiphertext .truncating .seven ct dealt.pubkey = .ok true
        ∧ assemble .truncating PairingCurve.seven.ecp2 (keys.map (partialDecrypt ct)) ct
          = .ok [104, 105] := by
  obtain ⟨keys, hkeys, hall⟩ := accepts_exactly_and_decrypts .truncating .seven (k := 2) (n := 3)
    (by decide) (by decide) (by decide) id [104, 105] []
  have hparty : ∀ sk ∈ keys, _ := fun sk hsk => exists_party_of_mem (by decide) hkeys hsk
  obtain ⟨-, -, rfl⟩ := generateKeys_eq_ok.mp hkeys
  obtain ⟨hencrypt, hiff, hall⟩ := hall _ List.mem_cons_self .counting
  obtain ⟨ct, hct⟩ := hencrypt fun key nonce => ⟨_, rfl⟩
  obtain ⟨hverify, hassemble⟩ := hall ct hct
  have hids : ([1, 2, 3] : List UInt16).Nodup := by decide
  refine ⟨by decide, _, hkeys, _, List.mem_cons_self, ct, hct, hverify,
    hassemble _ ?_ (by rw [List.length_map]; decide) hids⟩
  intro s hs
  obtain ⟨sk, hsk, rfl⟩ := List.mem_map.mp hs
  obtain ⟨hpos, hle, hxi⟩ := hparty sk hsk
  exact verifyShare_partialDecrypt hpos hle hxi

end Bz03ThresholdCipher

end

end QuorumCrypt
