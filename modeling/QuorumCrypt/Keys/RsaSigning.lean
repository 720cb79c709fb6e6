import QuorumCrypt.Keys.RandomStream

/-!
# Signing with keys from a stream of random bytes

The keys that the generator returns for Sh00 do sign. Its loops check enough of the primes; what they
leave to chance is that `v`, `u` and the hash of the message are prime to the modulus.
-/

namespace QuorumCrypt

open Rust BigInt

variable {E : Primitives} {isPrime : ℕ → Bool} {bytes : ℕ → UInt8}

/-- The parties have one public key. -/
theorem pubkey_eq_of_mem_keys {draw : RsaDraw} {group : Group} {k n e : ℕ} {key key' : Sh00PrivateKey}
    (hkey : key ∈ draw.keys E group k n e) (hkey' : key' ∈ draw.keys E group k n e) :
    key.pubkey = key'.pubkey := by
  obtain ⟨i, hi, rfl⟩ := List.mem_mapIdx.mp hkey
  obtain ⟨j, hj, rfl⟩ := List.mem_mapIdx.mp hkey'
  rfl

theorem verificationKey_of_mem_keys {draw : RsaDraw} {group : Group} {k n e : ℕ} {key : Sh00PrivateKey}
    (hkey : key ∈ draw.keys E group k n e) :
    key.pubkey.verificationKey.v = draw.v ^ 2 % (draw.p * draw.q)
      ∧ key.pubkey.verificationKey.u = draw.u := by
  obtain ⟨i, hi, rfl⟩ := List.mem_mapIdx.mp hkey
  exact ⟨rfl, rfl⟩

/-- The halves of the primes are too long for the number of parties, or for a short exponent. -/
theorem le_halves {group : Group} (hgroup : group.isDl = false) (draw : Sh00Draw group.modsize) :
    2 ^ 253 ≤ draw.primes.half₁ ∧ 2 ^ 253 ≤ draw.primes.half₂ := by
  have hmodsize := (modsize_le group hgroup).1
  have hle : 2 ^ 253 ≤ 2 ^ (group.modsize / 2 - 3) := Nat.pow_le_pow_right (by decide) (by omega)
  exact ⟨hle.trans draw.size₁, hle.trans draw.size₂⟩

/-- An exponent below two primes is prime to their product. -/
theorem SafePrimes.coprime_order {P : SafePrimes} {e : ℕ} (hpos : 0 < e) (hhalf₁ : e < P.half₁)
    (hhalf₂ : e < P.half₂) : e.Coprime P.order := by
  apply Nat.Coprime.mul_right
  · exact (Nat.coprime_of_lt_prime hpos.ne' hhalf₁ P.prime_half₁).symm
  · exact (Nat.coprime_of_lt_prime hpos.ne' hhalf₂ P.prime_half₂).symm

/-- Whatever the bytes, Sh00 keys for at most 255 parties sign every message whose hash is prime to the
modulus, as long as `v` and `u` are prime to it too: every share is accepted, and whichever `k` are
combined, the one signature that verifies comes out. The exponent is odd and shorter than the primes, as
the default is. -/
theorem generated_rsa_keys_sign {K : Curves} (hisPrime : ∀ x, isPrime x = true → x.Prime)
    {group : Group} {rounds k n : ℕ} {rng : ℕ → ℕ} {params : Option KeyParams} (hk : 1 ≤ k)
    (hwidth : n ≤ 255) (hodd : Odd (publicExponent params)) (hshort : publicExponent params < 2 ^ 253)
    {keys : List (PrivateKeyShare K)}
    (h : KeyGenerator.generateKeysFrom E isPrime bytes rounds k n rng .sh00 group params
      = some (.ok keys)) :
    ∃ (sks : List Sh00PrivateKey) (pk : Sh00PublicKey),
      keys = sks.map .sh00 ∧ sks.length = n ∧ (∀ sk ∈ sks, sk.pubkey = pk)
      ∧ ∀ (msg : Bytes) (hash : ℕ),
        Sh00ThresholdSignature.H1 E msg pk.N pk.modbits = .ok hash → hash.Coprime pk.N →
        pk.verificationKey.v.Coprime pk.N → pk.verificationKey.u.Coprime pk.N →
        (∀ sk ∈ sks, ∀ label drawn,
          ∃ s, Sh00ThresholdSignature.partialSign E msg label sk drawn = .ok s ∧ s.id = sk.id
            ∧ Sh00ThresholdSignature.verifyShare E s msg pk = .ok true)
        ∧ ∃ sig, sig.sig < pk.N
          ∧ (∀ sig', Sh00ThresholdSignature.verify E sig' pk msg = .ok true
            ↔ sig'.sig % pk.N = sig.sig)
          ∧ ∀ shares : List Sh00SignatureShare,
            (∀ s ∈ shares, ∃ sk ∈ sks, ∃ label drawn,
              Sh00ThresholdSignature.partialSign E msg label sk drawn = .ok s) →
            (shares.map Sh00SignatureShare.id).Nodup → k ≤ shares.length →
            Sh00ThresholdSignature.assemble E shares msg pk = .ok sig := by
  obtain ⟨-, heq⟩ | ⟨-, -, -, heq⟩ | ⟨hkn, hn, hgroup, draw, hdraw, heq⟩ :=
    KeyGenerator.generateKeysFrom_sh00_eq_some.mp h
  · cases heq
  · cases heq
  obtain rfl := Outcome.ok.inj heq
  set e := publicExponent params
  have hlength := length_keys (E := E) draw group k n e
  obtain ⟨first, hfirst⟩ := List.exists_mem_of_length_pos (hlength.symm ▸ hn)
  obtain ⟨hN, hmodbits⟩ := keys_pubkey hfirst
  obtain ⟨-, hu⟩ := verificationKey_of_mem_keys hfirst
  refine ⟨_, first.pubkey, rfl, hlength, fun sk hsk => pubkey_eq_of_mem_keys hsk hfirst, ?_⟩
  intro msg hash hhash hunit hvCoprime huCoprime
  -- with `u` prime to the modulus, what was drawn is a dealing
  rw [hu, hN] at huCoprime
  obtain ⟨dealt, hdealt⟩ := exists_sh00Draw hisPrime hgroup hkn hn hdraw huCoprime
  have hkeys := Sh00ThresholdSignature.eq_dealingKeys dealt hdealt
  rw [hkeys] at hfirst ⊢
  obtain ⟨-, -, -, hpubkey⟩ := Sh00ThresholdSignature.party_of_mem_dealingKeys (by omega) hfirst
  rw [hpubkey] at hhash hunit hvCoprime ⊢
  obtain ⟨hhalf₁, hhalf₂⟩ := le_halves hgroup dealt
  have hparties : n < 2 ^ 253 := by omega
  exact Sh00ThresholdSignature.signs_of_dealing dealt.dealing hk hwidth (hparties.trans_le hhalf₁)
    (hparties.trans_le hhalf₂) hodd
    (SafePrimes.coprime_order hodd.pos (hshort.trans_le hhalf₁) (hshort.trans_le hhalf₂)) hvCoprime
    hhash hunit

/-! ### A key of 512 bits -/

/-- The test that the stream is made for lets primes pass only. -/
theorem prime_halfRsa512 {x : ℕ} (hx : (x == halfRsa512₁ || x == halfRsa512₂) = true) : x.Prime := by
  rw [Bool.or_eq_true, beq_iff_eq, beq_iff_eq] at hx
  obtain rfl | rfl := hx
  · exact prime_halfRsa512₁
  · exact prime_halfRsa512₂

/-- The stream for a threshold of two: there is a coefficient before `u`. -/
def bytesTwo : Bytes :=
  List.replicate 64 0 ++ toBytesBE 32 halfRsa512₁ ++ toBytesBE 32 halfRsa512₂
    ++ List.replicate 128 0 ++ toBytesBE 64 (2 ^ 510 + 1)

def drawnTwo : RsaDraw := { drawnRsa512 with coeff := [2 ^ 511] }

/-- The hash of the message `[5]`, which the truncating primitives repeat up to its length. -/
def hashDrawnTwo : ℕ :=
  ofBytesBE (List.replicate 12 (5 :: List.replicate 31 0)).flatten % (drawnTwo.p * drawnTwo.q)

theorem generateKeysFrom_two :
    KeyGenerator.generateKeysFrom (K := Curves.seven) .truncating
        (fun x => x == halfRsa512₁ || x == halfRsa512₂) (fun i => bytesTwo.getD i 0) 1 2 3 id .sh00
        .rsa512 none
      = some (.ok ((drawnTwo.keys .truncating .rsa512 2 3 65537).map .sh00)) := by
  have hdraw : drawRsa (fun x => x == halfRsa512₁ || x == halfRsa512₂)
      (fun i => bytesTwo.getD i 0) 1 2 512 65537 = some drawnTwo := by
    decide +kernel
  exact KeyGenerator.generateKeysFrom_sh00_eq_some.mpr
    (.inr (.inr ⟨by decide, by decide, rfl, drawnTwo, hdraw, rfl⟩))

/-- Two of three parties, whose key is drawn from the stream, sign one byte. -/
theorem generated_rsa_keys_sign_rsa512 :
    ∃ keys, KeyGenerator.generateKeysFrom (K := Curves.seven) .truncating
        (fun x => x == halfRsa512₁ || x == halfRsa512₂) (fun i => bytesTwo.getD i 0) 1 2 3 id .sh00
        .rsa512 none = some (.ok keys)
      ∧ ∃ (sks : List Sh00PrivateKey) (pk : Sh00PublicKey) (sig : Sh00Signature),
        keys = sks.map .sh00 ∧ sks.length = 3 ∧ (∀ sk ∈ sks, sk.pubkey = pk)
        ∧ Sh00ThresholdSignature.verify .truncating sig pk [5] = .ok true := by
  refine ⟨_, generateKeysFrom_two, ?_⟩
  obtain ⟨sks, pk, hkeys, hlength, hpubkey, hsign⟩ := generated_rsa_keys_sign
    (fun x => prime_halfRsa512) (by decide) (by decide) (by decide) (by decide +kernel)
    generateKeysFrom_two
  obtain ⟨sk, hsk⟩ := List.exists_mem_of_length_pos (hlength.symm ▸ (by decide : 0 < 3))
  have hmem : sk ∈ drawnTwo.keys .truncating .rsa512 2 3 65537 := by
    rw [List.map_injective_iff.mpr (fun _ _ h => PrivateKeyShare.sh00.inj h) hkeys]
    exact hsk
  obtain ⟨hN, hmodbits⟩ := keys_pubkey hmem
  obtain ⟨hv, hu⟩ := verificationKey_of_mem_keys hmem
  rw [hpubkey sk hsk] at hN hmodbits hv hu
  obtain ⟨-, sig, hlt, hverify, -⟩ := hsign [5] hashDrawnTwo (by rw [hN, hmodbits]; decide +kernel)
    (by rw [hN]; decide +kernel) (by rw [hN, hv]; decide +kernel) (by rw [hN, hu]; decide +kernel)
  exact ⟨sks, pk, sig, hkeys, hlength, hpubkey, (hverify sig).mpr (Nat.mod_eq_of_lt hlt)⟩

end QuorumCrypt
