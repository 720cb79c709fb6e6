import QuorumCrypt.Schemes.Common

/-!
# The Bls04 threshold signature

`signatures/bls04.rs` and the Bls04 arm of `generate_keys`, over one curve with a pairing. Here the
public key and the verification keys are in the first group, the hashed message, the shares and the
signature in the second. The three pairing equations (of a share, of the signature, of the public
key) all compare a power of the hashed message, so a signature is unique.
-/

namespace QuorumCrypt

open Rust

structure Bls04PublicKey (G₁ : Type) where
  id : String
  n : UInt16
  k : UInt16
  y : G₁
  verificationKey : List G₁
  deriving DecidableEq

structure Bls04PrivateKey (G₁ : Type) where
  id : UInt16
  xi : ℕ
  pubkey : Bls04PublicKey G₁
  deriving DecidableEq

structure Bls04SignatureShare (G₂ : Type) where
  id : UInt16
  label : Bytes
  data : G₂
  deriving DecidableEq

structure Bls04Signature (G₂ : Type) where
  sig : G₂
  deriving DecidableEq

instance {G₂ : Type} : DlShare (Bls04SignatureShare G₂) G₂ where
  getId := Bls04SignatureShare.id
  getData := Bls04SignatureShare.data

section

variable {G₂ G₁ Gt : Type} [CommGroup G₂] [CommGroup G₁] [CommGroup Gt]
  (E : Primitives) (C : PairingCurve G₂ G₁ Gt)

namespace Bls04PublicKey

/-- The encoding needs no pairing: the code writes such a key on every curve. -/
def toBytes (ecp : EcGroup G₁) (pk : Bls04PublicKey G₁) : Bytes :=
  E.asn1Write ([.int ecp.group.asI32, .int pk.n.toNat, .int pk.k.toNat, .octets (ecp.toBytes pk.y)]
    ++ pk.verificationKey.map fun vk => .octets (ecp.toBytes vk))

def new (n k : ℕ) (y : G₁) (verificationKey : List G₁) : Bls04PublicKey G₁ :=
  let key : Bls04PublicKey G₁ :=
    { id := "", n := UInt16.ofNat n, k := UInt16.ofNat k, y, verificationKey }
  { key with id := E.calcKeyId (key.toBytes E C.ecp) }

end Bls04PublicKey

def Bls04Signature.toBytes (ecp2 : EcGroup G₂) (sig : Bls04Signature G₂) : Bytes :=
  E.asn1Write [.int ecp2.group.asI32, .octets (ecp2.toBytes sig.sig)]

namespace Bls04ThresholdSignature

/-- The Bls04 arm of `generate_keys`. -/
def generateKeys (k n : ℕ) (rng : ℕ → ℕ) : SchemeOutcome (List (Bls04PrivateKey G₁)) := do
  checkParams k n
  let x := C.ecp.newRand (rng 0)
  let y := C.ecp.newPowBig x
  let (shares, h) ← shamirShare C.ecp x k n fun i => rng (i + 1)
  let publicKey := Bls04PublicKey.new E C n k y h
  .ok (numberShares shares fun id xi => { id, xi, pubkey := publicKey })

/-- The hash of a message. The code drops the result of `rmod`, so the exponent is not reduced. -/
def H (m : Bytes) : G₂ := C.ecp2.newPowBig (hashToScalar E C.ecp m)

def partialSign (msg label : Bytes) (sk : Bls04PrivateKey G₁) : Bls04SignatureShare G₂ :=
  { id := sk.id, label, data := H E C msg ^ sk.xi }

def assemble (ecp2 : EcGroup G₂) (shares : List (Bls04SignatureShare G₂)) (_msg : Bytes)
    (_pk : Bls04PublicKey G₁) : SchemeOutcome (Bls04Signature G₂) := do
  let sig ← interpolate ecp2 shares
  .ok { sig }

section Pairing

variable [DecidableEq Gt]

def verify (sig : Bls04Signature G₂) (pk : Bls04PublicKey G₁) (msg : Bytes) : SchemeOutcome Bool :=
  C.ddh (H E C msg) pk.y sig.sig C.ecp.generator

def verifyShare (share : Bls04SignatureShare G₂) (msg : Bytes) (pk : Bls04PublicKey G₁) :
    SchemeOutcome Bool := do
  let vk ← verificationKeyAt pk.verificationKey share.id
  C.ddh (H E C msg) vk share.data C.ecp.generator

end Pairing

/-! ### The keys of the parties -/

/-- The public key of a dealing. -/
def publicKey (k n : ℕ) (rng : ℕ → ℕ) : Bls04PublicKey G₁ :=
  Bls04PublicKey.new E C n k (C.ecp.generator ^ dealtSecret C.ecp.order rng)
    ((dealtShares C.ecp.order (dealtSecret C.ecp.order rng) k n fun i => rng (i + 1)).map
      fun xi => C.ecp.generator ^ xi)

variable {E C}
variable {k n : ℕ} {rng : ℕ → ℕ}

theorem generateKeys_eq_ok {keys : List (Bls04PrivateKey G₁)} :
    generateKeys E C k n rng = .ok keys ↔ 1 ≤ k ∧ k ≤ n ∧
      keys = numberShares
        (dealtShares C.ecp.order (dealtSecret C.ecp.order rng) k n fun i => rng (i + 1))
        fun id xi => { id, xi, pubkey := publicKey E C k n rng } := by
  refine (deal_eq_ok C.ecp _ k n _).trans ?_
  refine and_congr_right fun _ => and_congr_right fun _ => ?_
  rw [Outcome.ok.injEq, eq_comm]
  rfl

/-- The keys of a dealing. Their ids wrap around after `u16::MAX` parties. -/
theorem mem_keys_iff {keys : List (Bls04PrivateKey G₁)} (hkeys : generateKeys E C k n rng = .ok keys)
    {sk : Bls04PrivateKey G₁} :
    sk ∈ keys ↔ ∃ i < n, sk = { id := UInt16.ofNat (i + 1)
                                xi := shareOf C.ecp.order (dealtSecret C.ecp.order rng) k
                                  (fun i => rng (i + 1)) (i + 1)
                                pubkey := publicKey E C k n rng } := by
  obtain ⟨-, -, rfl⟩ := generateKeys_eq_ok.mp hkeys
  exact mem_numberShares _ _ _ _ _

theorem pubkey_of_mem {keys : List (Bls04PrivateKey G₁)}
    (hkeys : generateKeys E C k n rng = .ok keys) {sk : Bls04PrivateKey G₁} (hsk : sk ∈ keys) :
    sk.pubkey = publicKey E C k n rng := by
  obtain ⟨i, -, rfl⟩ := (mem_keys_iff hkeys).mp hsk
  rfl

/-- With at most `u16::MAX` parties every key has the id and the share of one party. -/
theorem exists_party_of_mem (hn : n ≤ 65535) {keys : List (Bls04PrivateKey G₁)}
    (hkeys : generateKeys E C k n rng = .ok keys) {sk : Bls04PrivateKey G₁} (hsk : sk ∈ keys) :
    1 ≤ sk.id.toNat ∧ sk.id.toNat ≤ n ∧ sk.xi = dealtShare C.ecp.order k rng sk.id := by
  obtain ⟨-, -, rfl⟩ := generateKeys_eq_ok.mp hkeys
  obtain ⟨id, hpos, hle, rfl⟩ := exists_id_of_mem_numberShares _ _ _ _ _ hn hsk
  exact ⟨hpos, hle, rfl⟩

theorem verificationKeyAt_publicKey {id : UInt16} (hpos : 1 ≤ id.toNat) (hle : id.toNat ≤ n) :
    verificationKeyAt (publicKey E C k n rng).verificationKey id
      = .ok (C.ecp.generator ^ dealtShare C.ecp.order k rng id) :=
  verificationKeyAt_dealtShares C.ecp _ _ _ _ hpos hle

/-! ### Acceptance and uniqueness -/

section

variable {msg : Bytes}

/-- Enough shares with the right data give the signature. -/
theorem assemble_eq_ok (hk : 1 ≤ k) (hn : n < C.ecp.order)
    {shares : List (Bls04SignatureShare G₂)}
    (hdata : ∀ s ∈ shares, s.data = H E C msg ^ dealtShare C.ecp.order k rng s.id)
    (hlength : k ≤ shares.length) (hnodup : (shares.map Bls04SignatureShare.id).Nodup)
    (hids : ∀ s ∈ shares, s.id.toNat ≤ n) (pk : Bls04PublicKey G₁) :
    assemble C.ecp2 shares msg pk = .ok ⟨H E C msg ^ dealtSecret C.ecp.order rng⟩ := by
  rw [C.order_ecp] at hn hdata ⊢
  have hinterpolate :=
    interpolate_dealtShare C.ecp2 (H E C msg) hk hn rng hdata hlength hnodup hids
  rw [assemble, hinterpolate, Outcome.ok_bind]

variable [DecidableEq Gt]

/-- The pairing equation pins the element of the second group. -/
theorem ddh_hash_iff {h data : G₂} {x : ℕ} :
    C.ddh h (C.ecp.generator ^ x) data C.ecp.generator = .ok true ↔ data = h ^ x := by
  rw [C.ddh_eq_ok_true, ← C.pairing.pow_comm, C.pairing.pair_generator_inj, eq_comm]

theorem verifyShare_eq_ok_true_iff {s : Bls04SignatureShare G₂} (hpos : 1 ≤ s.id.toNat)
    (hle : s.id.toNat ≤ n) :
    verifyShare E C s msg (publicKey E C k n rng) = .ok true
      ↔ s.data = H E C msg ^ dealtShare C.ecp.order k rng s.id := by
  rw [verifyShare, verificationKeyAt_publicKey hpos hle, Outcome.ok_bind, ddh_hash_iff]

theorem verifyShare_partialSign {sk : Bls04PrivateKey G₁} (hpos : 1 ≤ sk.id.toNat)
    (hle : sk.id.toNat ≤ n) (hxi : sk.xi = dealtShare C.ecp.order k rng sk.id) (label : Bytes) :
    verifyShare E C (partialSign E C msg label sk) msg (publicKey E C k n rng) = .ok true :=
  (verifyShare_eq_ok_true_iff hpos hle).mpr (congrArg (H E C msg ^ ·) hxi)

/-- A share that is accepted has the id of a party and the data of that party. -/
theorem of_verifyShare_eq_ok_true {s : Bls04SignatureShare G₂}
    (haccept : verifyShare E C s msg (publicKey E C k n rng) = .ok true) :
    1 ≤ s.id.toNat ∧ s.id.toNat ≤ n
      ∧ s.data = H E C msg ^ dealtShare C.ecp.order k rng s.id := by
  obtain ⟨vk, hvk, -⟩ := Outcome.bind_eq_ok.mp haccept
  obtain ⟨hpos, hle⟩ := toNat_of_verificationKeyAt hvk
  have hle : s.id.toNat ≤ n := by simpa [publicKey, Bls04PublicKey.new] using hle
  exact ⟨hpos, hle, (verifyShare_eq_ok_true_iff hpos hle).mp haccept⟩

theorem verify_eq_ok_true_iff {sig : Bls04Signature G₂} :
    verify E C sig (publicKey E C k n rng) msg = .ok true
      ↔ sig = ⟨H E C msg ^ dealtSecret C.ecp.order rng⟩ := by
  refine (ddh_hash_iff (C := C)).trans ?_
  cases sig
  rw [Bls04Signature.mk.injEq]

end

/-- For the ids that there are: a share is accepted under an id exactly when it is the share of that
party, and whichever accepted shares are combined, the one signature that verifies comes out. The secret
`x` is the one of the public key. -/
theorem unique_signature [DecidableEq Gt] (E : Primitives) (C : PairingCurve G₂ G₁ Gt) {k n : ℕ}
    (hk : 1 ≤ k) (hkn : k ≤ n) (hn : n < C.ecp.order) (rng : ℕ → ℕ) (msg : Bytes) :
    ∃ keys, generateKeys E C k n rng = .ok keys ∧ ∃ x : ℕ, ∀ dealt ∈ keys,
      dealt.pubkey.y = C.ecp.generator ^ x
      ∧ (∀ s : Bls04SignatureShare G₂, 1 ≤ s.id.toNat → s.id.toNat ≤ n →
          ∃ sk, keys[s.id.toNat - 1]? = some sk ∧ sk.id = s.id
            ∧ (verifyShare E C s msg dealt.pubkey = .ok true ↔ s.data = H E C msg ^ sk.xi)
            ∧ ∀ label, verifyShare E C (partialSign E C msg label sk) msg dealt.pubkey = .ok true)
      ∧ (∀ shares : List (Bls04SignatureShare G₂),
          (∀ s ∈ shares, verifyShare E C s msg dealt.pubkey = .ok true) →
          k ≤ shares.length → (shares.map Bls04SignatureShare.id).Nodup →
          assemble C.ecp2 shares msg dealt.pubkey = .ok ⟨H E C msg ^ x⟩)
      ∧ ∀ sig, verify E C sig dealt.pubkey msg = .ok true ↔ sig = ⟨H E C msg ^ x⟩ := by
  refine ⟨_, generateKeys_eq_ok.mpr ⟨hk, hkn, rfl⟩, dealtSecret C.ecp.order rng, ?_⟩
  intro dealt hdealt
  rw [pubkey_of_mem (generateKeys_eq_ok.mpr ⟨hk, hkn, rfl⟩) hdealt]
  refine ⟨rfl, ?_, ?_, fun sig => verify_eq_ok_true_iff⟩
  · intro s hpos hle
    exact ⟨_, getElem?_numberShares _ _ _ _ _ hpos hle, rfl, verifyShare_eq_ok_true_iff hpos hle,
      verifyShare_partialSign hpos hle rfl⟩
  · intro shares haccept hlength hnodup
    exact assemble_eq_ok hk hn (fun s hs => (of_verifyShare_eq_ok_true (haccept s hs)).2.2)
      hlength hnodup (fun s hs => (of_verifyShare_eq_ok_true (haccept s hs)).2.1) _

/-- Bls04 from the dealer to the signature, for all keys of a dealing: a share is accepted under an id
exactly when it is the share of that party, what a key signs is accepted, and whichever accepted shares
are combined, the one signature that verifies comes out. -/
def SignsUniquely [DecidableEq Gt] (E : Primitives) (C : PairingCurve G₂ G₁ Gt) (k n : ℕ)
    (rng : ℕ → ℕ) (msg : Bytes) : Prop :=
  ∃ keys, generateKeys E C k n rng = .ok keys ∧ ∃ x : ℕ, ∀ dealt ∈ keys,
    dealt.pubkey.y = C.ecp.generator ^ x
    ∧ (∀ s : Bls04SignatureShare G₂, 1 ≤ s.id.toNat → s.id.toNat ≤ n →
        ∃ sk, keys[s.id.toNat - 1]? = some sk ∧ sk.id = s.id
          ∧ (verifyShare E C s msg dealt.pubkey = .ok true ↔ s.data = H E C msg ^ sk.xi))
    ∧ (∀ sk ∈ keys, ∀ label,
        verifyShare E C (partialSign E C msg label sk) msg dealt.pubkey = .ok true)
    ∧ (∀ shares : List (Bls04SignatureShare G₂),
        (∀ s ∈ shares, verifyShare E C s msg dealt.pubkey = .ok true) →
        k ≤ shares.length → (shares.map Bls04SignatureShare.id).Nodup →
        assemble C.ecp2 shares msg dealt.pubkey = .ok ⟨H E C msg ^ x⟩)
    ∧ ∀ sig, verify E C sig dealt.pubkey msg = .ok true ↔ sig = ⟨H E C msg ^ x⟩

/-- The key after `u16::MAX` others has the id zero, under which nothing is accepted. -/
theorem not_signsUniquely [DecidableEq Gt] (hn : 65535 < n) : ¬ SignsUniquely E C k n rng msg := by
  rintro ⟨keys, hkeys, x, hall⟩
  have hsk := (mem_keys_iff hkeys).mpr ⟨65535, hn, rfl⟩
  obtain ⟨-, -, haccept, -⟩ := hall _ hsk
  have hid := haccept _ hsk []
  rw [pubkey_of_mem hkeys hsk] at hid
  have hpos : 1 ≤ (UInt16.ofNat (65535 + 1)).toNat := (of_verifyShare_eq_ok_true hid).1
  exact absurd hpos (by decide)

/-- All keys of a dealing sign together exactly when each of them has an id of its own. -/
theorem signsUniquely_iff [DecidableEq Gt] (E : Primitives) (C : PairingCurve G₂ G₁ Gt) {k n : ℕ}
    (hk : 1 ≤ k) (hkn : k ≤ n) (hn : n < C.ecp.order) (rng : ℕ → ℕ) (msg : Bytes) :
    SignsUniquely E C k n rng msg ↔ n ≤ 65535 := by
  constructor
  · intro h
    by_contra hwide
    exact not_signsUniquely (by omega) h
  · intro hwidth
    obtain ⟨keys, hkeys, x, hall⟩ := unique_signature E C hk hkn hn rng msg
    refine ⟨keys, hkeys, x, fun dealt hdealt => ?_⟩
    obtain ⟨hy, hshares, hassemble, hverify⟩ := hall dealt hdealt
    refine ⟨hy, fun s hpos hle => ?_, fun sk hsk label => ?_, hassemble, hverify⟩
    · obtain ⟨sk, hsk, hid, haccept, -⟩ := hshares s hpos hle
      exact ⟨sk, hsk, hid, haccept⟩
    · obtain ⟨hpos, hle, hxi⟩ := exists_party_of_mem hwidth hkeys hsk
      rw [pubkey_of_mem hkeys hdealt]
      exact verifyShare_partialSign hpos hle hxi label

/-- Three parties with threshold two, over the residues modulo seven. -/
theorem signsUniquely_seven :
    3 < PairingCurve.seven.ecp.order ∧ SignsUniquely .truncating PairingCurve.seven 2 3 id [5] :=
  ⟨by decide, (signsUniquely_iff .truncating .seven (by decide) (by decide) (by decide) id [5]).mpr
    (by decide)⟩

/-- Among 65537 parties with threshold two the last key has the id of the first and another share, and
what it signs is not accepted. -/
theorem not_signsUniquely_wide :
    1 ≤ 2 ∧ 2 ≤ 65537 ∧ 65537 < PairingCurve.wide.ecp.order
      ∧ ¬ SignsUniquely .truncating PairingCurve.wide 2 65537 (fun i => i) [1] := by
  refine ⟨by decide, by decide, by change 65537 < 65539; omega, ?_⟩
  rintro ⟨keys, hkeys, x, hall⟩
  have hsk := (mem_keys_iff hkeys).mpr ⟨65536, by omega, rfl⟩
  obtain ⟨-, -, haccept, -⟩ := hall _ hsk
  have hid := haccept _ hsk []
  rw [pubkey_of_mem hkeys hsk] at hid
  -- the secret is zero and the drawn coefficient one, so the share of party `j` is `j`
  have hdata : H .truncating PairingCurve.wide [1] ^ shareOf 65539 0 2 (fun i => i + 1) 65537
      = H .truncating PairingCurve.wide [1] ^ shareOf 65539 0 2 (fun i => i + 1) 1 :=
    (of_verifyShare_eq_ok_true hid).2.2
  rw [H, EcGroup.newPowBig, ← pow_mul, ← pow_mul, PrimeGroup.generator_pow_inj,
    ZMod.natCast_eq_natCast_iff'] at hdata
  revert hdata
  decide +kernel

/-! ### The hash to the group is a known power of the generator -/

/-- The scalar behind the hash of a message. -/
def hashExponent (E : Primitives) (C : PairingCurve G₂ G₁ Gt) (m : Bytes) : ℕ :=
  hashToScalar E C.ecp m

/-- A signature on `m` raised to the quotient of the two hash exponents. No key is needed for it. -/
def transfer (E : Primitives) (C : PairingCurve G₂ G₁ Gt) (m m' : Bytes) (sig : Bls04Signature G₂) :
    Bls04Signature G₂ :=
  let q := C.ecp.order
  { sig := sig.sig ^ mulMod (hashExponent E C m') (invMod (hashExponent E C m) q) q }

/-- The same quotient turns the hash of one message into the hash of the other. -/
theorem H_pow_quotient {E : Primitives} {C : PairingCurve G₂ G₁ Gt} {m m' : Bytes}
    (hm : (hashExponent E C m : ZMod C.ecp.order) ≠ 0) :
    H E C m ^ mulMod (hashExponent E C m') (invMod (hashExponent E C m) C.ecp.order) C.ecp.order
      = H E C m' := by
  have hquotient : hashExponent E C m * mulMod (hashExponent E C m')
      (invMod (hashExponent E C m) C.ecp.order) C.ecp.order
        ≡ hashExponent E C m' [MOD C.ecp.order] := by
    rw [← ZMod.natCast_eq_natCast_iff, Nat.cast_mul, cast_mulMod, cast_invMod, mul_comm, mul_assoc,
      inv_mul_cancel₀ hm, mul_one]
  change (C.ecp2.generator ^ hashExponent E C m) ^ _ = C.ecp2.generator ^ hashExponent E C m'
  rw [← pow_mul, pow_eq_pow_iff_modEq, C.ecp2.orderOf_generator, ← C.order_ecp]
  exact hquotient

/-- What comes out is the signature the key holders would have made. -/
theorem transfer_signature {E : Primitives} {C : PairingCurve G₂ G₁ Gt} {m m' : Bytes}
    (hm : (hashExponent E C m : ZMod C.ecp.order) ≠ 0) (x : ℕ) :
    transfer E C m m' ⟨H E C m ^ x⟩ = ⟨H E C m' ^ x⟩ := by
  apply congrArg Bls04Signature.mk
  change (H E C m ^ x) ^ _ = H E C m' ^ x
  rw [← pow_mul, Nat.mul_comm, pow_mul, H_pow_quotient hm]

/-- A signature on one message is a signature on every other, for every key: raised to the quotient
of the hash exponents it is accepted on the other message. -/
theorem verify_transfer [DecidableEq Gt] (E : Primitives) (C : PairingCurve G₂ G₁ Gt)
    (pk : Bls04PublicKey G₁) (m m' : Bytes) (sig : Bls04Signature G₂)
    (hverify : verify E C sig pk m = .ok true)
    (hm : (hashExponent E C m : ZMod C.ecp.order) ≠ 0) :
    verify E C (transfer E C m m' sig) pk m' = .ok true := by
  have hpair : C.pairing.pair (H E C m) pk.y = C.pairing.pair sig.sig C.ecp.generator :=
    C.ddh_eq_ok_true.mp hverify
  apply C.ddh_eq_ok_true.mpr
  rw [← H_pow_quotient hm, C.pairing.pow_left, hpair, ← C.pairing.pow_left]
  rfl

/-- One party over the residues modulo seven: its signature on `[1]`, accepted on `[2]`. -/
theorem verify_transfer_seven :
    (hashExponent .truncating .seven [1] : ZMod 7) ≠ 0
      ∧ verify .truncating .seven ⟨H .truncating .seven [1] ^ 3⟩
          (publicKey .truncating .seven 1 1 fun _ => 3) [1] = .ok true
      ∧ verify .truncating .seven
          (transfer .truncating .seven [1] [2] ⟨H .truncating .seven [1] ^ 3⟩)
          (publicKey .truncating .seven 1 1 fun _ => 3) [2] = .ok true := by
  have hm : (hashExponent .truncating .seven [1] : ZMod PairingCurve.seven.ecp.order) ≠ 0 := by
    decide +kernel
  have hverify : verify .truncating .seven ⟨H .truncating .seven [1] ^ 3⟩
      (publicKey .truncating .seven 1 1 fun _ => 3) [1] = .ok true := verify_eq_ok_true_iff.mpr rfl
  exact ⟨hm, hverify, verify_transfer _ _ _ [1] [2] _ hverify hm⟩

/-- So it is not true that a transferred signature is refused whenever the two messages have
different exponents other than zero. -/
theorem transfer_accepted_seven :
    ¬ ∀ (pk : Bls04PublicKey (Multiplicative (ZMod 7))) (m m' : Bytes)
        (sig : Bls04Signature (Multiplicative (ZMod 7))),
      verify .truncating .seven sig pk m = .ok true →
      (hashExponent .truncating .seven m : ZMod 7) ≠ 0 →
      (hashExponent .truncating .seven m' : ZMod 7) ≠ 0 →
      (hashExponent .truncating .seven m : ZMod 7) ≠ hashExponent .truncating .seven m' →
      verify .truncating .seven (transfer .truncating .seven m m' sig) pk m' ≠ .ok true := by
  intro hrefused
  apply hrefused (publicKey .truncating .seven 1 1 fun _ => 3) [1] [2]
    ⟨H .truncating .seven [1] ^ 3⟩
  · exact verify_eq_ok_true_iff.mpr rfl
  · decide +kernel
  · decide +kernel
  · decide +kernel
  · have hm : (hashExponent .truncating .seven [1] : ZMod PairingCurve.seven.ecp.order) ≠ 0 := by
      decide +kernel
    exact verify_eq_ok_true_iff.mpr (transfer_signature hm 3)

end Bls04ThresholdSignature

end

end QuorumCrypt
