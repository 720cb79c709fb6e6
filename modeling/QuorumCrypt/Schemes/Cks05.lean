import QuorumCrypt.Schemes.Common

/-!
# The Cks05 threshold coin

`coins/cks05.rs` and the Cks05 arm of `generate_keys`, over one curve. A share is a power of the hashed
name with a proof that its exponent is the one of the verification key, and the coin is one bit of
the name raised to the secret.
-/

namespace QuorumCrypt

open Rust

structure Cks05PublicKey (G : Type) where
  id : String
  n : UInt16
  k : UInt16
  y : G
  verificationKey : List G
  deriving DecidableEq

structure Cks05PrivateKey (G : Type) where
  id : UInt16
  xi : ℕ
  pubkey : Cks05PublicKey G
  deriving DecidableEq

structure Cks05CoinShare (G : Type) where
  id : UInt16
  data : G
  c : ℕ
  z : ℕ
  deriving DecidableEq

instance {G : Type} : DlShare (Cks05CoinShare G) G where
  getId := Cks05CoinShare.id
  getData := Cks05CoinShare.data

section

variable {G : Type} [CommGroup G] (E : Primitives) (C : EcGroup G)

namespace Cks05PublicKey

def toBytes (pk : Cks05PublicKey G) : Bytes :=
  E.asn1Write ([.int C.group.asI32, .int pk.n.toNat, .int pk.k.toNat, .octets (C.toBytes pk.y)]
    ++ pk.verificationKey.map fun vk => .octets (C.toBytes vk))

def new (n k : ℕ) (y : G) (verificationKey : List G) : Cks05PublicKey G :=
  let key : Cks05PublicKey G :=
    { id := "", n := UInt16.ofNat n, k := UInt16.ofNat k, y, verificationKey }
  { key with id := E.calcKeyId (key.toBytes E C) }

end Cks05PublicKey

namespace Cks05ThresholdCoin

/-- The Cks05 arm of `generate_keys`. -/
def generateKeys (k n : ℕ) (rng : ℕ → ℕ) : SchemeOutcome (List (Cks05PrivateKey G)) := do
  checkParams k n
  let x := C.newRand (rng 0)
  let y := C.newPowBig x
  let (shares, h) ← shamirShare C x k n fun i => rng (i + 1)
  let publicKey := Cks05PublicKey.new E C n k y h
  .ok (numberShares shares fun id xi => { id, xi, pubkey := publicKey })

/-- The hash of a name. The code drops the result of `rmod`, so the exponent is not reduced. -/
def H (name : Bytes) : G := C.newPowBig (hashToScalar E C name)

/-- The hash of a proof, not reduced either. -/
def H1 (g1 g2 g3 g4 g5 g6 : G) : ℕ :=
  hashToScalar E C (C.toBytes g1 ++ C.toBytes g2 ++ C.toBytes g3 ++ C.toBytes g4 ++ C.toBytes g5
    ++ C.toBytes g6)

/-- The random bits the coin is masked with. -/
def mask : List UInt8 := [
  0b11011100, 0b01010111, 0b00100110, 0b01110100, 0b00100011, 0b00011101, 0b10101101, 0b10010101,
  0b11101001, 0b10011101, 0b00100100, 0b10000000, 0b01100001, 0b00011110, 0b01011001, 0b00100110,
  0b10111101, 0b01010100, 0b10011010, 0b00011000, 0b01111100, 0b00000000, 0b10101101, 0b10011001,
  0b10101011, 0b00111000, 0b11100111, 0b01000110, 0b11010010, 0b10101010, 0b11110101, 0b01010110,
  0b00111010, 0b11101001, 0b01011000, 0b10011000, 0b11110010, 0b00000110, 0b10001100, 0b00000110,
  0b10011101, 0b11001110, 0b11010111, 0b01001101, 0b10000010, 0b11010010, 0b10110000, 0b01101111,
  0b10101110, 0b10111011, 0b10110001, 0b10101010, 0b11010010, 0b10011010, 0b00110111, 0b11001100,
  0b11011100, 0b11001111, 0b11110100, 0b00000001, 0b00000111, 0b11001010, 0b10101110, 0b11100100,
  0b10001001, 0b10011111, 0b00110100, 0b10101111, 0b11000111, 0b10000111, 0b10001101, 0b00000001,
  0b01011100, 0b11101101, 0b10111100, 0b11001000, 0b10000010, 0b01110101, 0b10011111, 0b10010111,
  0b01101010, 0b11011110, 0b10100101, 0b00110000, 0b11010010, 0b01011110, 0b00111111, 0b01001010,
  0b11011001, 0b01011010, 0b01010110, 0b01001100, 0b10011000, 0b11100100, 0b00110100, 0b01100001,
  0b00110110, 0b11000100, 0b11110110, 0b11001011, 0b00101100, 0b11010001, 0b00110000, 0b11011010,
  0b10011001, 0b01101100, 0b10110110, 0b01110100, 0b11000000, 0b00101011, 0b00111101, 0b01111010,
  0b11100100, 0b10101101, 0b00010001, 0b00111000, 0b11000110, 0b00110110, 0b00110010, 0b00010000,
  0b00001100, 0b11001100, 0b11011111, 0b10100001, 0b01000001, 0b10010010, 0b11101011, 0b11101001,
  0b11101001, 0b00101111, 0b01001010, 0b11101110, 0b11001010, 0b01100101, 0b10001100, 0b11101111,
  0b11101100, 0b11101101, 0b10101111, 0b10000001, 0b00001110, 0b00110001, 0b01101100, 0b00100001,
  0b01111101, 0b11110011, 0b11110011, 0b00011011, 0b00011001, 0b10000101, 0b01010110, 0b01001000,
  0b11110000, 0b10011101, 0b11000010, 0b01000001, 0b11001100, 0b11010101, 0b11010001, 0b10000110,
  0b10000010, 0b10000011, 0b10101101, 0b00110110, 0b10010001, 0b11110110, 0b10100110, 0b01000011,
  0b10010010, 0b10101110, 0b00001100, 0b00111001, 0b11110001, 0b10001001, 0b00000100, 0b11100100,
  0b11001000, 0b11000010, 0b11110101, 0b11010100, 0b00111010, 0b10011110, 0b11000100, 0b11111001,
  0b00000010, 0b00101111, 0b00111101, 0b10110011, 0b01001001, 0b11001010, 0b00101011, 0b10100100,
  0b00011110, 0b10011101, 0b01000010, 0b00010011, 0b10111000, 0b11111111, 0b01110000, 0b10001010,
  0b10010111, 0b01111111, 0b00111010, 0b10110110, 0b00010101, 0b00110110, 0b11011110, 0b10001100,
  0b11011000, 0b11011100, 0b10110111, 0b01011101, 0b01001101, 0b00011110, 0b10011101, 0b01110110,
  0b10011101, 0b10001000, 0b10100000, 0b00101110, 0b11100101, 0b10101011, 0b11010011, 0b10101110,
  0b01000011, 0b11010101, 0b00100010, 0b00100010, 0b11111111, 0b11101101, 0b11011010, 0b01001000,
  0b00101011, 0b00010000, 0b01101101, 0b01001010, 0b11011010, 0b00110111, 0b00001000, 0b01101100,
  0b11110011, 0b11011100, 0b00001101, 0b00100010, 0b00111000, 0b10001000, 0b01000101, 0b01111000,
  0b01001100, 0b11001001, 0b10100101, 0b01100011, 0b10111011, 0b01110011, 0b10010000, 0b01010110]

theorem length_mask : mask.length = 256 := by decide +kernel

def countOnes (b : UInt8) : ℕ := ((List.range 8).filter fun i => b.toNat.testBit i).length

/-- The inner product of the mask with the bits of the point. `MASK[i]` is out of bounds on a point
longer than the mask. -/
def H2 (g : G) : SchemeOutcome UInt8 :=
  let bytes := C.toBytes g
  if mask.length < bytes.length then .panic
  else
    .ok ((List.zip bytes mask).foldl
      (fun bit pair => bit ^^^ UInt8.ofNat (countOnes (pair.1 &&& pair.2) % 2)) 0)

def createShare (name : Bytes) (sk : Cks05PrivateKey G) (drawn : ℕ → ℕ) :
    SchemeOutcome (Cks05CoinShare G) := do
  let cBar := H E C name
  let data := cBar ^ sk.xi
  let s := C.newRand (drawn 0)
  let h := C.generator ^ s
  let hBar := cBar ^ s
  let vk ← verificationKeyAt sk.pubkey.verificationKey sk.id
  let c := H1 E C C.generator vk h cBar data hBar
  let z := (s + mulMod c sk.xi C.order) % C.order
  .ok { id := sk.id, data, c, z }

def verifyShare (share : Cks05CoinShare G) (name : Bytes) (pk : Cks05PublicKey G) :
    SchemeOutcome Bool := do
  let cBar := H E C name
  let vk ← verificationKeyAt pk.verificationKey share.id
  let h := C.generator ^ share.z / vk ^ share.c
  let hBar := cBar ^ share.z / share.data ^ share.c
  let c := H1 E C C.generator vk h cBar share.data hBar
  .ok (share.c == c)

def assemble (shares : List (Cks05CoinShare G)) : SchemeOutcome UInt8 := do
  let coin ← interpolate C shares
  H2 C coin

/-! ### The keys of the parties -/

/-- The public key of a dealing. -/
def publicKey (k n : ℕ) (rng : ℕ → ℕ) : Cks05PublicKey G :=
  Cks05PublicKey.new E C n k (C.generator ^ dealtSecret C.order rng)
    ((dealtShares C.order (dealtSecret C.order rng) k n fun i => rng (i + 1)).map
      fun xi => C.generator ^ xi)

variable {E C}
variable {k n : ℕ} {rng : ℕ → ℕ}

theorem generateKeys_eq_ok {keys : List (Cks05PrivateKey G)} :
    generateKeys E C k n rng = .ok keys ↔ 1 ≤ k ∧ k ≤ n ∧
      keys = numberShares (dealtShares C.order (dealtSecret C.order rng) k n fun i => rng (i + 1))
        fun id xi => { id, xi, pubkey := publicKey E C k n rng } := by
  refine (deal_eq_ok C _ k n _).trans ?_
  refine and_congr_right fun _ => and_congr_right fun _ => ?_
  rw [Outcome.ok.injEq, eq_comm]
  rfl

/-- The keys of a dealing. Their ids wrap around after `u16::MAX` parties. -/
theorem mem_keys_iff {keys : List (Cks05PrivateKey G)} (hkeys : generateKeys E C k n rng = .ok keys)
    {sk : Cks05PrivateKey G} :
    sk ∈ keys ↔ ∃ i < n, sk = { id := UInt16.ofNat (i + 1)
                                xi := shareOf C.order (dealtSecret C.order rng) k
                                  (fun i => rng (i + 1)) (i + 1)
                                pubkey := publicKey E C k n rng } := by
  obtain ⟨-, -, rfl⟩ := generateKeys_eq_ok.mp hkeys
  exact mem_numberShares _ _ _ _ _

theorem pubkey_of_mem {keys : List (Cks05PrivateKey G)}
    (hkeys : generateKeys E C k n rng = .ok keys) {sk : Cks05PrivateKey G} (hsk : sk ∈ keys) :
    sk.pubkey = publicKey E C k n rng := by
  obtain ⟨i, -, rfl⟩ := (mem_keys_iff hkeys).mp hsk
  rfl

/-- With at most `u16::MAX` parties every key has the id and the share of one party. -/
theorem exists_party_of_mem (hn : n ≤ 65535) {keys : List (Cks05PrivateKey G)}
    (hkeys : generateKeys E C k n rng = .ok keys) {sk : Cks05PrivateKey G} (hsk : sk ∈ keys) :
    1 ≤ sk.id.toNat ∧ sk.id.toNat ≤ n ∧ sk.xi = dealtShare C.order k rng sk.id := by
  obtain ⟨-, -, rfl⟩ := generateKeys_eq_ok.mp hkeys
  obtain ⟨id, hpos, hle, rfl⟩ := exists_id_of_mem_numberShares _ _ _ _ _ hn hsk
  exact ⟨hpos, hle, rfl⟩

theorem verificationKeyAt_publicKey {id : UInt16} (hpos : 1 ≤ id.toNat) (hle : id.toNat ≤ n) :
    verificationKeyAt (publicKey E C k n rng).verificationKey id
      = .ok (C.generator ^ dealtShare C.order k rng id) :=
  verificationKeyAt_dealtShares C _ _ _ _ hpos hle

/-- A share that is accepted has the id of a party. -/
theorem toNat_of_verifyShare_eq_ok_true {s : Cks05CoinShare G} {name : Bytes}
    (haccept : verifyShare E C s name (publicKey E C k n rng) = .ok true) :
    1 ≤ s.id.toNat ∧ s.id.toNat ≤ n := by
  obtain ⟨vk, hvk, -⟩ := Outcome.bind_eq_ok.mp haccept
  have hid := toNat_of_verificationKeyAt hvk
  simpa [publicKey, Cks05PublicKey.new] using hid

/-- Enough shares with the right data give the coin. -/
theorem assemble_eq (hk : 1 ≤ k) (hn : n < C.order) {name : Bytes}
    {shares : List (Cks05CoinShare G)}
    (hdata : ∀ s ∈ shares, s.data = H E C name ^ dealtShare C.order k rng s.id)
    (hlength : k ≤ shares.length) (hnodup : (shares.map Cks05CoinShare.id).Nodup)
    (hids : ∀ s ∈ shares, s.id.toNat ≤ n) :
    assemble C shares = H2 C (H E C name ^ dealtSecret C.order rng) := by
  rw [assemble, interpolate_dealtShare C (H E C name) hk hn rng hdata hlength hnodup hids,
    Outcome.ok_bind]

/-! ### Acceptance and agreement -/

section

variable {name : Bytes} {sk : Cks05PrivateKey G} {drawn : ℕ → ℕ} {vk : G} {s : Cks05CoinShare G}

theorem createShare_returns (hvk : verificationKeyAt sk.pubkey.verificationKey sk.id = .ok vk) :
    ∃ s, createShare E C name sk drawn = .ok s := by
  rw [createShare, hvk, Outcome.ok_bind]
  exact ⟨_, rfl⟩

/-- What `createShare` returns, part by part. -/
theorem of_createShare_eq_ok (hvk : verificationKeyAt sk.pubkey.verificationKey sk.id = .ok vk)
    (hs : createShare E C name sk drawn = .ok s) :
    s.id = sk.id ∧ s.data = H E C name ^ sk.xi
      ∧ s.c = H1 E C C.generator vk (C.generator ^ C.newRand (drawn 0)) (H E C name) s.data
          (H E C name ^ C.newRand (drawn 0))
      ∧ s.z = (C.newRand (drawn 0) + mulMod s.c sk.xi C.order) % C.order := by
  rw [createShare, hvk, Outcome.ok_bind] at hs
  obtain rfl := Outcome.ok.inj hs
  exact ⟨rfl, rfl, rfl, rfl⟩

/-- The proof of a fresh share verifies. The challenge is compared as it was hashed and multiplied
modulo the order, and the response cancels it whether it is reduced or not. -/
theorem verifyShare_createShare
    (hvk : verificationKeyAt sk.pubkey.verificationKey sk.id = .ok (C.generator ^ sk.xi))
    (hs : createShare E C name sk drawn = .ok s) :
    verifyShare E C s name sk.pubkey = .ok true := by
  obtain ⟨hid, hdata, hc, hz⟩ := of_createShare_eq_ok hvk hs
  have hresponse : ∀ x : G, x ^ s.z / (x ^ sk.xi) ^ s.c = x ^ C.newRand (drawn 0) := by
    intro x
    rw [hz]
    exact C.pow_response_div _ _ _ _
  have hhBar : H E C name ^ s.z / s.data ^ s.c = H E C name ^ C.newRand (drawn 0) := by
    rw [hdata]
    exact hresponse _
  rw [verifyShare, hid, hvk, Outcome.ok_bind, hresponse, hhBar]
  change Outcome.ok (s.c == H1 E C C.generator (C.generator ^ sk.xi)
    (C.generator ^ C.newRand (drawn 0)) (H E C name) s.data (H E C name ^ C.newRand (drawn 0))) = _
  rw [← hc, beq_self_eq_true]

end

/-- `H2` returns a bit on every point that fits the mask. -/
theorem H2_returns (hmask : C.pointLength ≤ mask.length) (g : G) :
    ∃ bit, H2 C g = .ok bit ∧ (bit = 0 ∨ bit = 1) := by
  have hfold : ∀ (pairs : List (UInt8 × UInt8)) (bit : UInt8), bit = 0 ∨ bit = 1 →
      pairs.foldl (fun bit pair => bit ^^^ UInt8.ofNat (countOnes (pair.1 &&& pair.2) % 2)) bit = 0
      ∨ pairs.foldl
        (fun bit pair => bit ^^^ UInt8.ofNat (countOnes (pair.1 &&& pair.2) % 2)) bit = 1 := by
    intro pairs
    induction pairs with
    | nil => exact fun _ hbit => hbit
    | cons pair pairs ih =>
        intro bit hbit
        rw [List.foldl_cons]
        apply ih
        have hparity : countOnes (pair.1 &&& pair.2) % 2 = 0
            ∨ countOnes (pair.1 &&& pair.2) % 2 = 1 := by omega
        obtain hzero | hone := hparity
        · rw [hzero]
          exact UInt8.xor_zero.symm ▸ hbit
        · rw [hone]
          obtain rfl | rfl := hbit
          · exact .inr (by decide)
          · exact .inl (by decide)
  have hlength : ¬ mask.length < (C.toBytes g).length := by
    rw [C.length_toBytes]
    omega
  rw [H2, if_neg hlength]
  exact ⟨_, rfl, hfold _ 0 (.inl rfl)⟩

/-- The name raised to the secret is the public key raised to the exponent of the name. -/
theorem H_pow_dealtSecret (name : Bytes) :
    H E C name ^ dealtSecret C.order rng
      = (publicKey E C k n rng).y ^ hashToScalar E C name := by
  change (C.generator ^ hashToScalar E C name) ^ dealtSecret C.order rng
    = (C.generator ^ dealtSecret C.order rng) ^ hashToScalar E C name
  rw [← pow_mul, ← pow_mul, Nat.mul_comm]

/-- A key is the one of a party when it stands at the place its id names. -/
def OfParty (keys : List (Cks05PrivateKey G)) (sk : Cks05PrivateKey G) : Prop :=
  1 ≤ sk.id.toNat ∧ keys[sk.id.toNat - 1]? = some sk

/-- The key of a party has its share and the common public key, and there the verification key of
the share. -/
theorem of_ofParty {keys : List (Cks05PrivateKey G)} (hkeys : generateKeys E C k n rng = .ok keys)
    {sk : Cks05PrivateKey G} (hsk : OfParty keys sk) :
    sk.id.toNat ≤ n ∧ sk.xi = dealtShare C.order k rng sk.id
      ∧ sk.pubkey = publicKey E C k n rng
      ∧ verificationKeyAt sk.pubkey.verificationKey sk.id = .ok (C.generator ^ sk.xi) := by
  obtain ⟨-, -, rfl⟩ := generateKeys_eq_ok.mp hkeys
  obtain ⟨hpos, hsk⟩ := hsk
  have hlt := (List.getElem?_eq_some_iff.mp hsk).1
  have hle : sk.id.toNat ≤ n := by
    simp only [numberShares, List.length_mapIdx, length_dealtShares] at hlt
    omega
  rw [getElem?_numberShares _ _ _ _ _ hpos hle] at hsk
  have hxi : dealtShare C.order k rng sk.id = sk.xi :=
    congrArg Cks05PrivateKey.xi (Option.some.inj hsk)
  have hpubkey : publicKey E C k n rng = sk.pubkey :=
    congrArg Cks05PrivateKey.pubkey (Option.some.inj hsk)
  refine ⟨hle, hxi.symm, hpubkey.symm, ?_⟩
  rw [← hpubkey, ← hxi]
  exact verificationKeyAt_publicKey hpos hle

/-- For the keys that stand at the place of their id: every id of a party has its key, and with at most
`u16::MAX` parties every key is the one of a party. The share of a party is accepted under its id, and
whichever shares of the parties are combined, the coin is one bit, which the public key and the name
determine. -/
theorem coin_agreement (E : Primitives) (C : EcGroup G) {k n : ℕ} (hk : 1 ≤ k) (hkn : k ≤ n)
    (hn : n < C.order) (hmask : C.pointLength ≤ mask.length) (rng : ℕ → ℕ) (name : Bytes) :
    ∃ keys, generateKeys E C k n rng = .ok keys
      ∧ (∀ id : UInt16, 1 ≤ id.toNat → id.toNat ≤ n → ∃ sk, OfParty keys sk ∧ sk.id = id)
      ∧ (n ≤ 65535 → ∀ sk ∈ keys, OfParty keys sk)
      ∧ ∀ dealt ∈ keys,
        (∀ sk, OfParty keys sk → ∀ drawn : ℕ → ℕ, ∃ s, createShare E C name sk drawn = .ok s
          ∧ s.id = sk.id ∧ verifyShare E C s name dealt.pubkey = .ok true)
        ∧ ∃ bit, (bit = 0 ∨ bit = 1)
          ∧ H2 C (dealt.pubkey.y ^ hashToScalar E C name) = .ok bit
          ∧ ∀ shares : List (Cks05CoinShare G),
            (∀ s ∈ shares, ∃ sk, OfParty keys sk
              ∧ ∃ drawn : ℕ → ℕ, createShare E C name sk drawn = .ok s) →
            k ≤ shares.length → (shares.map Cks05CoinShare.id).Nodup →
            assemble C shares = .ok bit := by
  have hkeys : generateKeys E C k n rng = .ok _ := generateKeys_eq_ok.mpr ⟨hk, hkn, rfl⟩
  refine ⟨_, hkeys, ?_, ?_, ?_⟩
  · intro id hpos hle
    refine ⟨{ id, xi := dealtShare C.order k rng id, pubkey := publicKey E C k n rng },
      ⟨hpos, ?_⟩, rfl⟩
    exact getElem?_numberShares _ _ _ _ _ hpos hle
  · intro hwidth sk hsk
    obtain ⟨id, hpos, hle, rfl⟩ := exists_id_of_mem_numberShares _ _ _ _ _ hwidth hsk
    exact ⟨hpos, getElem?_numberShares _ _ _ _ _ hpos hle⟩
  intro dealt hdealt
  rw [pubkey_of_mem hkeys hdealt]
  refine ⟨?_, ?_⟩
  · intro sk hsk drawn
    obtain ⟨hle, hxi, hpubkey, hvk⟩ := of_ofParty hkeys hsk
    obtain ⟨s, hs⟩ : ∃ s, createShare E C name sk drawn = .ok s := createShare_returns hvk
    refine ⟨s, hs, (of_createShare_eq_ok hvk hs).1, ?_⟩
    rw [← hpubkey]
    exact verifyShare_createShare hvk hs
  · obtain ⟨bit, hbit, hrange⟩ :=
      H2_returns hmask ((publicKey E C k n rng).y ^ hashToScalar E C name)
    refine ⟨bit, hrange, hbit, ?_⟩
    intro shares hshares hlength hnodup
    rw [← hbit, ← H_pow_dealtSecret]
    refine assemble_eq hk hn ?_ hlength hnodup ?_
    · intro s hs
      obtain ⟨sk, hsk, drawn, hcreate⟩ := hshares s hs
      obtain ⟨hle, hxi, -, hvk⟩ := of_ofParty hkeys hsk
      obtain ⟨hid, hdata, -⟩ := of_createShare_eq_ok hvk hcreate
      rw [hid, hdata, hxi]
    · intro s hs
      obtain ⟨sk, hsk, drawn, hcreate⟩ := hshares s hs
      obtain ⟨hle, -, -, hvk⟩ := of_ofParty hkeys hsk
      rw [(of_createShare_eq_ok hvk hcreate).1]
      exact hle

/-- Cks05 from the dealer to the coin, for all keys of a dealing: each of them makes a share that is
accepted under its id, and whichever shares are combined, the coin is one bit, which the public key and
the name determine. -/
def CoinsAgree (E : Primitives) (C : EcGroup G) (k n : ℕ) (rng : ℕ → ℕ) (name : Bytes) : Prop :=
  ∃ keys, generateKeys E C k n rng = .ok keys ∧ ∀ dealt ∈ keys,
    (∀ sk ∈ keys, ∀ drawn : ℕ → ℕ, ∃ s, createShare E C name sk drawn = .ok s
      ∧ s.id = sk.id ∧ verifyShare E C s name dealt.pubkey = .ok true)
    ∧ ∃ bit, (bit = 0 ∨ bit = 1)
      ∧ H2 C (dealt.pubkey.y ^ hashToScalar E C name) = .ok bit
      ∧ ∀ shares : List (Cks05CoinShare G),
        (∀ s ∈ shares, ∃ sk ∈ keys, ∃ drawn : ℕ → ℕ, createShare E C name sk drawn = .ok s) →
        k ≤ shares.length → (shares.map Cks05CoinShare.id).Nodup →
        assemble C shares = .ok bit

/-- The key after `u16::MAX` others has the id zero, for which there is no verification key. -/
theorem not_coinsAgree {name : Bytes} (hn : 65535 < n) : ¬ CoinsAgree E C k n rng name := by
  rintro ⟨keys, hkeys, hall⟩
  have hsk := (mem_keys_iff hkeys).mpr ⟨65535, hn, rfl⟩
  obtain ⟨s, hs, -⟩ := (hall _ hsk).1 _ hsk fun i => i
  obtain ⟨vk, hvk, -⟩ := Outcome.bind_eq_ok.mp hs
  have hpos : 1 ≤ (UInt16.ofNat (65535 + 1)).toNat := (toNat_of_verificationKeyAt hvk).1
  exact absurd hpos (by decide)

/-- All keys of a dealing toss coins together exactly when each of them has an id of its own. -/
theorem coinsAgree_iff (E : Primitives) (C : EcGroup G) {k n : ℕ} (hk : 1 ≤ k) (hkn : k ≤ n)
    (hn : n < C.order) (hmask : C.pointLength ≤ mask.length) (rng : ℕ → ℕ) (name : Bytes) :
    CoinsAgree E C k n rng name ↔ n ≤ 65535 := by
  constructor
  · intro h
    by_contra hwide
    exact not_coinsAgree (by omega) h
  · intro hwidth
    obtain ⟨keys, hkeys, -, hparties, hall⟩ := coin_agreement E C hk hkn hn hmask rng name
    have hparty := hparties hwidth
    refine ⟨keys, hkeys, fun dealt hdealt => ?_⟩
    obtain ⟨haccept, bit, hrange, hbit, hassemble⟩ := hall dealt hdealt
    refine ⟨fun sk hsk => haccept sk (hparty sk hsk), bit, hrange, hbit, fun shares hshares => ?_⟩
    apply hassemble
    intro s hs
    obtain ⟨sk, hsk, drawn, hcreate⟩ := hshares s hs
    exact ⟨sk, hparty sk hsk, drawn, hcreate⟩

/-- Three parties with threshold two, over the residues modulo seven. -/
theorem coinsAgree_seven :
    3 < EcGroup.seven.order ∧ EcGroup.seven.pointLength ≤ mask.length
      ∧ CoinsAgree .truncating .seven 2 3 id [5] := by
  have hmask : EcGroup.seven.pointLength ≤ mask.length := by
    rw [length_mask]
    decide
  exact ⟨by decide, hmask, (coinsAgree_iff .truncating .seven (by decide) (by decide) (by decide) hmask
    id [5]).mpr (by decide)⟩

/-- Among 65537 parties with threshold two the last key but one has the id zero, and `createShare` panics
on it. -/
theorem not_coinsAgree_wide :
    1 ≤ 2 ∧ 2 ≤ 65537 ∧ 65537 < EcGroup.wide.order ∧ EcGroup.wide.pointLength ≤ mask.length
      ∧ ¬ CoinsAgree .truncating .wide 2 65537 (fun i => i) [5] := by
  have hmask : EcGroup.wide.pointLength ≤ mask.length := by
    rw [length_mask]
    decide
  exact ⟨by decide, by decide, by change 65537 < 65539; omega, hmask, not_coinsAgree (by omega)⟩

end Cks05ThresholdCoin

end

end QuorumCrypt
