import QuorumCrypt.Keys.KeyGenerator
import QuorumCrypt.Schemes.StrongPrime

/-!
# Key generation from a stream of random bytes

`generate_keys` with the loops of its Sh00 arm. They end when the stream brings candidates that pass, so
the function is run for a number of rounds and may not have returned. The scalars of the curves come
from `mcore` and are given apart. With `u` prime to the modulus, which the code does not check, the keys
are those of a dealing.

The primes are taken two bits shorter than half of the modulus and are then lengthened by one bit only, so
the modulus never has the bits that the key says it has.
-/

namespace QuorumCrypt

open Rust BigInt

structure KeyParams where
  e : ℕ
  deriving DecidableEq

def KeyParams.new : KeyParams := ⟨65537⟩

/-- The public exponent: the one of the parameters, if there are any. -/
def publicExponent : Option KeyParams → ℕ
  | none => 65537
  | some params => params.e

/-- What the Sh00 arm draws, under its names. -/
structure RsaDraw where
  p1 : ℕ
  p : ℕ
  q1 : ℕ
  q : ℕ
  v : ℕ
  coeff : List ℕ
  u : ℕ
  deriving DecidableEq

/-- The loop for `u` ends on a number that is a square modulo one of the primes only. -/
def separates (p1 p q1 q u : ℕ) : Bool := (powModNat u p1 p == 1) != (powModNat u q1 q == 1)

section Stream

variable (E : Primitives) (isPrime : ℕ → Bool) (bytes : ℕ → UInt8)

/-- The two strong primes with their halves, and the position after them. -/
def drawPrimes (rounds modsize : ℕ) (e : ℤ) : Option ((ℕ × ℕ) × (ℕ × ℕ) × ℕ) := do
  let plen := modsize / 2 - 2
  let (p1, pos) := rand bytes 0 plen
  let (q1, pos) := rand bytes pos plen
  let (p1, p, pos) ← genStrongPrime isPrime bytes e plen rounds p1 0 pos
  let (q1, q, pos) ← genStrongPrime isPrime bytes e plen rounds q1 0 pos
  return ((p1, p), (q1, q), pos)

/-- The loop for `u`. -/
def drawU (rounds modsize p1 p q1 q pos : ℕ) : Option ℕ :=
  (whileLoop (fun s => !separates p1 p q1 q s.1) (fun s => rand bytes s.2 (modsize - 1)) rounds
    (rand bytes pos (modsize - 1))).map Prod.fst

def drawRsa (rounds k modsize : ℕ) (e : ℤ) : Option RsaDraw := do
  let ((p1, p), (q1, q), pos) ← drawPrimes isPrime bytes rounds modsize e
  let (v, pos) := rand bytes pos (modsize - 1)
  let (coeff, pos) := randMany bytes modsize (k - 1) pos
  let u ← drawU bytes rounds modsize p1 p q1 q pos
  return { p1, p, q1, q, v, coeff, u }

/-- The keys that the Sh00 arm makes of what it drew. -/
def RsaDraw.keys (draw : RsaDraw) (group : Group) (k n e : ℕ) : List Sh00PrivateKey :=
  let N := draw.p * draw.q
  let m := draw.p1 * draw.q1
  let v := draw.v ^ 2 % N
  let d := BigInt.invMod e m
  let delta := fac n
  let (xi, vi) := Sh00ThresholdSignature.shamirShareRsa d k n N m v fun j => draw.coeff.getD j 0
  let pubkey := Sh00PublicKey.new E (UInt16.ofNat n) (UInt16.ofNat k) N e ⟨v, vi, draw.u⟩ delta group
  numberShares xi fun id si => { id, m, si, pubkey }

/-- The Sh00 arm. -/
def Sh00ThresholdSignature.generateKeysFrom (rounds k n : ℕ) (group : Group)
    (params : Option KeyParams) : Option (SchemeOutcome (List Sh00PrivateKey)) :=
  if group.isDl then some (.err .incompatibleGroup)
  else
    let e := publicExponent params
    (drawRsa isPrime bytes rounds k group.modsize e).map fun draw => .ok (draw.keys E group k n e)

variable {K : Curves}

/-- `generate_keys`, if it returns within so many rounds of each of its loops. -/
def KeyGenerator.generateKeysFrom (rounds k n : ℕ) (rng : ℕ → ℕ) (scheme : ThresholdScheme)
    (group : Group) (params : Option KeyParams) : Option (SchemeOutcome (List (PrivateKeyShare K))) :=
  if k > n ∨ n < 1 then some (.err (.invalidParams none))
  else
    match scheme with
    | .bz03 =>
        match group.curve with
        | none => some (.err .curveDoesNotSupportPairings)
        | some c =>
            if hc : c.group.supportsPairings = true then
              some (List.map (.bz03 c)
                <$> Bz03ThresholdCipher.generateKeys E (K.pairingCurve c hc) k n rng)
            else some (.err .curveDoesNotSupportPairings)
    | .sg02 =>
        match group.curve with
        | none => some (.err .incompatibleGroup)
        | some c => some (List.map (.sg02 c) <$> Sg02ThresholdCipher.generateKeys E (K.ecp c) k n rng)
    | .bls04 =>
        match group.curve with
        | none => some (.err .curveDoesNotSupportPairings)
        | some c =>
            if hc : c.group.supportsPairings = true then
              some (List.map (.bls04 c)
                <$> Bls04ThresholdSignature.generateKeys E (K.pairingCurve c hc) k n rng)
            else some (.err .curveDoesNotSupportPairings)
    | .cks05 =>
        match group.curve with
        | none => some (.err .incompatibleGroup)
        | some c => some (List.map (.cks05 c) <$> Cks05ThresholdCoin.generateKeys E (K.ecp c) k n rng)
    | .frost =>
        -- there is no check: an RSA group has no order
        match group.curve with
        | none => some .panic
        | some c => some (List.map (.frost c) <$> Frost.generateKeys E (K.ecp c) k n rng)
    | .sh00 =>
        (Sh00ThresholdSignature.generateKeysFrom E isPrime bytes rounds k n group params).map
          fun outcome => List.map .sh00 <$> outcome

end Stream

/-! ### What was drawn -/

variable {E : Primitives} {isPrime : ℕ → Bool} {bytes : ℕ → UInt8}

theorem of_drawPrimes {rounds modsize : ℕ} {e : ℤ} {p1 p q1 q pos : ℕ}
    (h : drawPrimes isPrime bytes rounds modsize e = some ((p1, p), (q1, q), pos)) :
    ∃ first second mid start start',
      genStrongPrime isPrime bytes e (modsize / 2 - 2) rounds first 0 start = some (p1, p, mid)
        ∧ genStrongPrime isPrime bytes e (modsize / 2 - 2) rounds second 0 start' = some (q1, q, pos) := by
  simp only [drawPrimes, Option.bind_eq_bind, Option.bind_eq_some_iff] at h
  obtain ⟨⟨p1', p', mid⟩, hp, ⟨q1', q', pos'⟩, hq, heq⟩ := h
  simp only [Option.pure_def, Option.some.injEq, Prod.mk.injEq] at heq
  obtain ⟨⟨rfl, rfl⟩, ⟨rfl, rfl⟩, rfl⟩ := heq
  exact ⟨_, _, _, _, _, hp, hq⟩

theorem of_drawRsa {rounds k modsize : ℕ} {e : ℤ} {draw : RsaDraw}
    (h : drawRsa isPrime bytes rounds k modsize e = some draw) :
    ∃ pos, drawPrimes isPrime bytes rounds modsize e = some ((draw.p1, draw.p), (draw.q1, draw.q), pos)
      ∧ separates draw.p1 draw.p draw.q1 draw.q draw.u = true := by
  simp only [drawRsa, Option.bind_eq_bind, Option.bind_eq_some_iff] at h
  obtain ⟨⟨⟨p1, p⟩, ⟨q1, q⟩, pos⟩, hprimes, u, hu, heq⟩ := h
  simp only [Option.pure_def, Option.some.injEq] at heq
  subst heq
  refine ⟨pos, hprimes, ?_⟩
  obtain ⟨⟨u', pos'⟩, hloop, rfl⟩ := Option.map_eq_some_iff.mp hu
  have hend := (whileLoop_induction (motive := fun _ => True) hloop trivial fun _ _ _ => trivial).2
  simpa using hend

/-- More rounds do not change what is drawn. -/
theorem drawRsa_mono {rounds rounds' : ℕ} (hle : rounds ≤ rounds') {k modsize : ℕ} {e : ℤ}
    {draw : RsaDraw} (h : drawRsa isPrime bytes rounds k modsize e = some draw) :
    drawRsa isPrime bytes rounds' k modsize e = some draw := by
  have hprime : ∀ {plen p1 p pos : ℕ} {r}, genStrongPrime isPrime bytes e plen rounds p1 p pos = some r →
      genStrongPrime isPrime bytes e plen rounds' p1 p pos = some r := by
    intro plen p1 p pos r hr
    obtain ⟨s, hs, rfl⟩ := Option.map_eq_some_iff.mp hr
    exact Option.map_eq_some_iff.mpr ⟨s, whileLoop_mono hle hs, rfl⟩
  simp only [drawRsa, drawPrimes, Option.bind_eq_bind, Option.bind_eq_some_iff] at h ⊢
  obtain ⟨primes, ⟨first, hfirst, second, hsecond, heq⟩, u, hu, hdraw⟩ := h
  obtain ⟨s, hs, hsu⟩ := Option.map_eq_some_iff.mp hu
  exact ⟨primes, ⟨first, hprime hfirst, second, hprime hsecond, heq⟩, u,
    Option.map_eq_some_iff.mpr ⟨s, whileLoop_mono hle hs, hsu⟩, hdraw⟩

/-- The sizes of the primes of a draw. -/
theorem primes_bounds {rounds modsize : ℕ} (hmodsize : 6 ≤ modsize) {e : ℤ} {p1 p q1 q pos : ℕ}
    (h : drawPrimes isPrime bytes rounds modsize e = some ((p1, p), (q1, q), pos)) :
    (p = 2 * p1 + 1 ∧ 2 ^ (modsize / 2 - 3) ≤ p1 ∧ p1 < 2 ^ (modsize / 2 - 2))
      ∧ q = 2 * q1 + 1 ∧ 2 ^ (modsize / 2 - 3) ≤ q1 ∧ q1 < 2 ^ (modsize / 2 - 2) := by
  obtain ⟨_, _, _, _, _, hp, hq⟩ := of_drawPrimes h
  have hplen : modsize / 2 - 2 ≠ 0 := by omega
  exact ⟨genStrongPrime_bounds hplen hp, genStrongPrime_bounds hplen hq⟩

/-! ### The keys are those of a dealing -/

/-- The two primes differ, since the loop for `u` ended. -/
theorem halves_ne {p1 p q1 q u : ℕ} (hp : p = 2 * p1 + 1) (hq : q = 2 * q1 + 1)
    (hu : separates p1 p q1 q u = true) : p1 ≠ q1 := by
  rintro rfl
  rw [hp, hq, separates, bne_self_eq_false] at hu
  cases hu

theorem modsize_le (group : Group) (hgroup : group.isDl = false) :
    512 ≤ group.modsize ∧ group.modsize % 2 = 0 := by
  cases group <;> simp [Group.isDl] at hgroup <;> simp [Group.modsize]

/-- When only primes pass GMP's test, the keys of a stream are dealt from two different safe primes, as
long as `u` is prime to the modulus. -/
theorem exists_sh00Draw (hisPrime : ∀ x, isPrime x = true → x.Prime) {group : Group}
    (hgroup : group.isDl = false) {rounds k n e : ℕ} (hkn : k ≤ n) (hn : 1 ≤ n) {draw : RsaDraw}
    (h : drawRsa isPrime bytes rounds k group.modsize e = some draw)
    (hu : draw.u.Coprime (draw.p * draw.q)) :
    ∃ dealt : Sh00Draw group.modsize,
      Sh00ThresholdSignature.generateKeys E group k n e dealt = .ok (draw.keys E group k n e) := by
  obtain ⟨pos, hprimes, hseparates⟩ := of_drawRsa h
  have hmodsize := (modsize_le group hgroup).1
  obtain ⟨⟨hp, hsize₁, -⟩, hq, hsize₂, -⟩ := primes_bounds (by omega) hprimes
  obtain ⟨_, _, _, _, _, hp', hq'⟩ := of_drawPrimes hprimes
  obtain ⟨hp1, hpPrime⟩ := primes_of_genStrongPrime hisPrime hp'
  obtain ⟨hq1, hqPrime⟩ := primes_of_genStrongPrime hisPrime hq'
  let primes : SafePrimes :=
    { half₁ := draw.p1, half₂ := draw.q1, prime_half₁ := hp1, prime_half₂ := hq1
      prime₁ := hp ▸ hpPrime, prime₂ := hq ▸ hqPrime, half_ne := halves_ne hp hq hseparates }
  have hmodulus : primes.modulus = draw.p * draw.q := by
    rw [SafePrimes.modulus, hp, hq]
  let dealt : Sh00Draw group.modsize :=
    { primes, size₁ := hsize₁, size₂ := hsize₂, v := draw.v, coeff := fun j => draw.coeff.getD j 0
      u := draw.u
      u_found := by
        rw [separates, bne_iff_ne, hp, hq] at hseparates
        intro heq
        apply hseparates
        rw [Bool.eq_iff_iff, beq_iff_eq, beq_iff_eq]
        exact iff_of_eq heq
      u_coprime := by rw [hmodulus]; exact hu }
  refine ⟨dealt, ?_⟩
  rw [Sh00ThresholdSignature.generateKeys, checkParams, if_neg (by omega), Outcome.ok_bind,
    if_neg (by simp [hgroup])]
  simp only [RsaDraw.keys]
  rw [← hmodulus]
  rfl

namespace KeyGenerator

variable {K : Curves} {k n rounds : ℕ} {rng : ℕ → ℕ} {scheme : ThresholdScheme} {group : Group}
  {params : Option KeyParams}

/-- The other schemes draw no primes. -/
theorem generateKeysFrom_eq (hscheme : scheme ≠ .sh00) (e : ℕ)
    (draw : group.isDl = false → Sh00Draw group.modsize) :
    generateKeysFrom (K := K) E isPrime bytes rounds k n rng scheme group params
      = some (generateKeys E k n rng scheme group e draw) := by
  unfold generateKeysFrom generateKeys checkParams
  split
  · rfl
  · cases scheme with
    | sh00 => exact absurd rfl hscheme
    | bz03 | sg02 | bls04 | cks05 | frost => cases group <;> rfl

/-- A result of the Sh00 arm comes from what was drawn, or from the checks before. -/
theorem generateKeysFrom_sh00_eq_some {outcome : SchemeOutcome (List (PrivateKeyShare K))} :
    generateKeysFrom E isPrime bytes rounds k n rng .sh00 group params = some outcome ↔
      ((k > n ∨ n < 1) ∧ outcome = .err (.invalidParams none))
      ∨ (k ≤ n ∧ 1 ≤ n ∧ group.isDl = true ∧ outcome = .err .incompatibleGroup)
      ∨ (k ≤ n ∧ 1 ≤ n ∧ group.isDl = false ∧ ∃ draw,
          drawRsa isPrime bytes rounds k group.modsize (publicExponent params) = some draw
            ∧ outcome = .ok ((draw.keys E group k n (publicExponent params)).map .sh00)) := by
  by_cases hparams : k > n ∨ n < 1
  · rw [generateKeysFrom, if_pos hparams, Option.some.injEq]
    constructor
    · rintro rfl
      exact .inl ⟨hparams, rfl⟩
    · rintro (⟨-, rfl⟩ | ⟨hkn, hn, -⟩ | ⟨hkn, hn, -⟩)
      · rfl
      · omega
      · omega
  · have hkn : k ≤ n ∧ 1 ≤ n := by omega
    rw [generateKeysFrom, if_neg hparams]
    simp only [Sh00ThresholdSignature.generateKeysFrom, hparams, false_and, false_or, hkn, true_and]
    by_cases hgroup : group.isDl = true
    · rw [if_pos hgroup]
      simp [hgroup, eq_comm]
    · rw [if_neg hgroup]
      simp [hgroup, eq_comm]

/-- Every key comes from the arm of its scheme. -/
theorem ofScheme_of_mem_from {keys : List (PrivateKeyShare K)}
    (hkeys : generateKeysFrom E isPrime bytes rounds k n rng scheme group params = some (.ok keys))
    {key : PrivateKeyShare K} (hkey : key ∈ keys) : OfScheme E k n key := by
  by_cases hscheme : scheme = .sh00
  · subst hscheme
    obtain ⟨-, heq⟩ | ⟨-, -, -, heq⟩ | ⟨-, -, hgroup, draw, -, heq⟩ :=
      generateKeysFrom_sh00_eq_some.mp hkeys
    · cases heq
    · cases heq
    · obtain rfl := Outcome.ok.inj heq
      obtain ⟨sk, hsk, rfl⟩ := List.mem_map.mp hkey
      obtain ⟨i, hi, rfl⟩ := List.mem_mapIdx.mp hsk
      exact .sh00 hgroup (by simp) rfl
  · by_cases hgroup : group.isDl = true
    · rw [generateKeysFrom_eq hscheme 0 fun hrsa => absurd hgroup (by simp [hrsa])] at hkeys
      exact ofScheme_of_mem (Option.some.inj hkeys) hkey
    · -- the other schemes have no keys on an RSA group
      unfold generateKeysFrom at hkeys
      split at hkeys
      · cases hkeys
      · cases scheme with
        | sh00 => exact absurd rfl hscheme
        | bz03 | sg02 | bls04 | cks05 | frost =>
            cases group <;> first | exact absurd rfl hgroup | cases hkeys

/-- More rounds do not change the result. -/
theorem generateKeysFrom_mono {rounds' : ℕ} (hle : rounds ≤ rounds')
    {outcome : SchemeOutcome (List (PrivateKeyShare K))}
    (h : generateKeysFrom E isPrime bytes rounds k n rng scheme group params = some outcome) :
    generateKeysFrom E isPrime bytes rounds' k n rng scheme group params = some outcome := by
  cases scheme with
  | sh00 =>
      rw [generateKeysFrom_sh00_eq_some] at h ⊢
      obtain h | h | ⟨hkn, hn, hgroup, draw, hdraw, houtcome⟩ := h
      · exact .inl h
      · exact .inr (.inl h)
      · exact .inr (.inr ⟨hkn, hn, hgroup, draw, drawRsa_mono hle hdraw, houtcome⟩)
  | bz03 | sg02 | bls04 | cks05 | frost =>
      rw [← h]
      rfl

end KeyGenerator

/-! ### The size of the modulus -/

theorem keys_pubkey {draw : RsaDraw} {group : Group} {k n e : ℕ} {key : Sh00PrivateKey}
    (hkey : key ∈ draw.keys E group k n e) :
    key.pubkey.N = draw.p * draw.q ∧ key.pubkey.modbits = group.modsize := by
  obtain ⟨i, hi, rfl⟩ := List.mem_mapIdx.mp hkey
  exact ⟨rfl, rfl⟩

theorem length_keys (draw : RsaDraw) (group : Group) (k n e : ℕ) :
    (draw.keys E group k n e).length = n := by
  simp [RsaDraw.keys, numberShares, Sh00ThresholdSignature.shamirShareRsa]

/-- Two primes of one bit less than half of the length. -/
theorem modulus_lt {rounds k : ℕ} {group : Group} (hgroup : group.isDl = false) {e : ℤ} {draw : RsaDraw}
    (h : drawRsa isPrime bytes rounds k group.modsize e = some draw) :
    draw.p * draw.q < 2 ^ (group.modsize - 2) := by
  obtain ⟨pos, hprimes, -⟩ := of_drawRsa h
  obtain ⟨hmodsize, heven⟩ := modsize_le group hgroup
  obtain ⟨⟨hp, -, hlt₁⟩, hq, -, hlt₂⟩ := primes_bounds (by omega) hprimes
  have hpow : 2 ^ (group.modsize / 2 - 1) = 2 * 2 ^ (group.modsize / 2 - 2) := by
    rw [← pow_succ']
    congr 1
    omega
  calc draw.p * draw.q < 2 ^ (group.modsize / 2 - 1) * 2 ^ (group.modsize / 2 - 1) :=
        Nat.mul_lt_mul'' (by omega) (by omega)
    _ = 2 ^ (group.modsize - 2) := by
        rw [← pow_add]
        congr 1
        omega

/-- Whatever the bytes, no key has a modulus of the length that it states. -/
theorem modulus_never_full {K : Curves} {rounds k n : ℕ} {rng : ℕ → ℕ} {group : Group}
    {params : Option KeyParams} {keys : List (PrivateKeyShare K)}
    (h : KeyGenerator.generateKeysFrom E isPrime bytes rounds k n rng .sh00 group params
      = some (.ok keys)) :
    keys ≠ [] ∧ ∀ key ∈ keys, ∃ sk, key = .sh00 sk ∧ sk.pubkey.modbits = group.modsize
      ∧ sk.pubkey.N < 2 ^ (group.modsize - 2)
      ∧ ¬ (2 ^ (group.modsize - 1) ≤ sk.pubkey.N ∧ sk.pubkey.N < 2 ^ group.modsize) := by
  obtain ⟨-, heq⟩ | ⟨-, -, -, heq⟩ | ⟨hkn, hn, hgroup, draw, hdraw, heq⟩ :=
    KeyGenerator.generateKeysFrom_sh00_eq_some.mp h
  · cases heq
  · cases heq
  obtain rfl := Outcome.ok.inj heq
  constructor
  · rw [← List.length_pos_iff_ne_nil, List.length_map, length_keys]
    exact hn
  · intro key hkey
    obtain ⟨sk, hsk, rfl⟩ := List.mem_map.mp hkey
    obtain ⟨hN, hmodbits⟩ := keys_pubkey hsk
    have hlt := modulus_lt hgroup hdraw
    rw [← hN] at hlt
    refine ⟨sk, rfl, hmodbits, hlt, fun hfull => ?_⟩
    have hle : 2 ^ (group.modsize - 2) ≤ 2 ^ (group.modsize - 1) :=
      Nat.pow_le_pow_right (by decide) (by omega)
    omega

/-- A stream that brings the two halves at once, and a `u` that separates the primes. -/
def bytesRsa512 : Bytes :=
  List.replicate 64 0 ++ toBytesBE 32 halfRsa512₁ ++ toBytesBE 32 halfRsa512₂
    ++ List.replicate 64 0 ++ toBytesBE 64 (2 ^ 510 + 1)

/-- What is drawn from it for one party. -/
def drawnRsa512 : RsaDraw :=
  { p1 := halfRsa512₁, p := 2 * halfRsa512₁ + 1, q1 := halfRsa512₂, q := 2 * halfRsa512₂ + 1
    v := 2 ^ 510, coeff := [], u := 2 ^ 510 + 1 }

theorem drawRsa_rsa512 :
    drawRsa (fun x => x == halfRsa512₁ || x == halfRsa512₂) (fun i => bytesRsa512.getD i 0) 1 1 512 65537
      = some drawnRsa512 := by
  decide +kernel

theorem generateKeysFrom_rsa512 :
    KeyGenerator.generateKeysFrom (K := Curves.seven) .truncating
        (fun x => x == halfRsa512₁ || x == halfRsa512₂) (fun i => bytesRsa512.getD i 0) 1 1 1 id .sh00
        .rsa512 none
      = some (.ok ((drawnRsa512.keys .truncating .rsa512 1 1 65537).map .sh00)) :=
  KeyGenerator.generateKeysFrom_sh00_eq_some.mpr
    (.inr (.inr ⟨le_rfl, le_rfl, rfl, drawnRsa512, drawRsa_rsa512, rfl⟩))

/-- The key of one party that is drawn from the stream. -/
theorem modulus_never_full_rsa512 :
    ∃ keys, KeyGenerator.generateKeysFrom (K := Curves.seven) .truncating
        (fun x => x == halfRsa512₁ || x == halfRsa512₂) (fun i => bytesRsa512.getD i 0) 1 1 1 id .sh00
        .rsa512 none = some (.ok keys)
      ∧ keys ≠ [] ∧ ∀ key ∈ keys, ∃ sk, key = .sh00 sk ∧ sk.pubkey.N < 2 ^ 510 := by
  refine ⟨_, generateKeysFrom_rsa512, ?_⟩
  obtain ⟨hne, hall⟩ := modulus_never_full generateKeysFrom_rsa512
  refine ⟨hne, fun key hkey => ?_⟩
  obtain ⟨sk, hsk, -, hlt, -⟩ := hall key hkey
  exact ⟨sk, hsk, hlt⟩

/-- Its modulus has 510 bits, and the key says 512. -/
theorem modulus_of_510_bits :
    ∃ sk : Sh00PrivateKey, KeyGenerator.generateKeysFrom (K := Curves.seven) .truncating
        (fun x => x == halfRsa512₁ || x == halfRsa512₂) (fun i => bytesRsa512.getD i 0) 1 1 1 id .sh00
        .rsa512 none = some (.ok [.sh00 sk])
      ∧ sk.pubkey.modbits = 512 ∧ 2 ^ 509 ≤ sk.pubkey.N ∧ sk.pubkey.N < 2 ^ 510
      ∧ ¬ (2 ^ (512 - 1) ≤ sk.pubkey.N ∧ sk.pubkey.N < 2 ^ 512) := by
  obtain ⟨sk, hsk⟩ := List.length_eq_one_iff.mp
    (length_keys (E := .truncating) drawnRsa512 .rsa512 1 1 65537)
  obtain ⟨hN, hmodbits⟩ := keys_pubkey (hsk ▸ List.mem_singleton_self sk)
  refine ⟨sk, by rw [generateKeysFrom_rsa512, hsk]; rfl, hmodbits, ?_⟩
  rw [hN]
  decide +kernel

end QuorumCrypt
