import QuorumCrypt.Schemes.BigInt
import QuorumCrypt.Base.SafePrimes
import QuorumCrypt.Base.WhileLoop
import Mathlib.NumberTheory.LucasPrimality
import Mathlib.Tactic.NormNum.Prime

/-!
# The strong primes of an RSA key

`gen_strong_prime` of `rsa_schemes/common.rs` over `BigInt::rand` of `integers/bigint.rs`. The loop draws
a candidate `p1` until it passes all tests, and `p` is `2 * p1 + 1`. That `p` is prime is never tested:
it follows from `2 ^ p1 = ±1` modulo `p`, together with the sieve, which leaves no multiple of three.

The random bytes are any stream, read from a position on. GMP's test of primality is a parameter.
-/

namespace QuorumCrypt

open Rust

namespace BigInt

/-! ### Random integers -/

/-- The byte above the full ones: cut to its lowest `rem` bits, of which the top one is set. -/
def topByte (byte : UInt8) (rem : ℕ) : UInt8 :=
  let mask := (List.range rem).foldl (fun mask i => mask + 1 <<< UInt8.ofNat i) 0
  (byte ||| 1 <<< UInt8.ofNat (rem - 1)) &&& mask

/-- The first of the full bytes, when there is none above them. -/
def setTopBit (byte : UInt8) : UInt8 := byte ||| (1 : UInt8) <<< 7

/-- The bytes that `rand` collects, most significant first. -/
def randBytes (bytes : ℕ → UInt8) (pos bits : ℕ) : Bytes :=
  let bytelen := bits / 8
  let rem := bits % 8
  if rem ≠ 0 then
    topByte (bytes pos) rem :: (List.range bytelen).map fun i => bytes (pos + 1 + i)
  else
    (List.range bytelen).map fun i => if i = 0 then setTopBit (bytes (pos + i)) else bytes (pos + i)

/-- `rand`: a number of exactly so many bits, and the position after the bytes that were read. -/
def rand (bytes : ℕ → UInt8) (pos bits : ℕ) : ℕ × ℕ :=
  let drawn := randBytes bytes pos bits
  (ofBytesBE drawn, pos + drawn.length)

/-- One random integer after the other. -/
def randMany (bytes : ℕ → UInt8) (bits : ℕ) : ℕ → ℕ → List ℕ × ℕ
  | 0, pos => ([], pos)
  | count + 1, pos =>
      let (x, pos) := rand bytes pos bits
      let (xs, pos) := randMany bytes bits count pos
      (x :: xs, pos)

theorem topByte_bounds (byte : UInt8) {rem : ℕ} (hpos : rem ≠ 0) (hlt : rem < 8) :
    2 ^ (rem - 1) ≤ (topByte byte rem).toNat ∧ (topByte byte rem).toNat < 2 ^ rem := by
  have hall : ∀ rem < 8, rem ≠ 0 → ∀ n < 256, 2 ^ (rem - 1) ≤ (topByte (UInt8.ofNat n) rem).toNat
      ∧ (topByte (UInt8.ofNat n) rem).toNat < 2 ^ rem := by
    decide +kernel
  have hbyte := hall rem hlt hpos byte.toNat (UInt8.toNat_lt byte)
  rwa [UInt8.ofNat_toNat] at hbyte

theorem setTopBit_bounds (byte : UInt8) :
    2 ^ (8 - 1) ≤ (setTopBit byte).toNat ∧ (setTopBit byte).toNat < 2 ^ 8 := by
  have hall : ∀ n < 256, 2 ^ (8 - 1) ≤ (setTopBit (UInt8.ofNat n)).toNat := by
    decide +kernel
  have hbyte := hall byte.toNat (UInt8.toNat_lt byte)
  rw [UInt8.ofNat_toNat] at hbyte
  exact ⟨hbyte, UInt8.toNat_lt _⟩

/-- The bits of a number are those of its first byte and eight for each of the others. -/
theorem ofBytesBE_cons_bounds {byte : UInt8} {rem : ℕ} (hpos : rem ≠ 0)
    (hbyte : 2 ^ (rem - 1) ≤ byte.toNat ∧ byte.toNat < 2 ^ rem) (b : Bytes) :
    2 ^ (8 * b.length + rem - 1) ≤ ofBytesBE (byte :: b)
      ∧ ofBytesBE (byte :: b) < 2 ^ (8 * b.length + rem) := by
  have hrest : ofBytesBE b < 2 ^ (8 * b.length) := by
    rw [pow_mul]
    exact ofBytesBE_lt b
  have hweight : (256 : ℕ) ^ b.length = 2 ^ (8 * b.length) := by
    rw [pow_mul]
    norm_num
  rw [ofBytesBE_cons, hweight]
  constructor
  · calc 2 ^ (8 * b.length + rem - 1) = 2 ^ (rem - 1) * 2 ^ (8 * b.length) := by
          rw [← pow_add]
          congr 1
          omega
      _ ≤ byte.toNat * 2 ^ (8 * b.length) := Nat.mul_le_mul_right _ hbyte.1
      _ ≤ byte.toNat * 2 ^ (8 * b.length) + ofBytesBE b := Nat.le_add_right _ _
  · calc byte.toNat * 2 ^ (8 * b.length) + ofBytesBE b
        < byte.toNat * 2 ^ (8 * b.length) + 2 ^ (8 * b.length) := Nat.add_lt_add_left hrest _
      _ = (byte.toNat + 1) * 2 ^ (8 * b.length) := by ring
      _ ≤ 2 ^ rem * 2 ^ (8 * b.length) := Nat.mul_le_mul_right _ hbyte.2
      _ = 2 ^ (8 * b.length + rem) := by rw [← pow_add, Nat.add_comm]

/-- Whatever the bytes, the number has exactly the bits that were asked for. -/
theorem rand_bounds (bytes : ℕ → UInt8) (pos : ℕ) {bits : ℕ} (hbits : bits ≠ 0) :
    2 ^ (bits - 1) ≤ (rand bytes pos bits).1 ∧ (rand bytes pos bits).1 < 2 ^ bits := by
  simp only [rand, randBytes]
  split
  · rename_i hrem
    have hbounds := ofBytesBE_cons_bounds hrem
      (topByte_bounds (bytes pos) hrem (Nat.mod_lt bits (by decide)))
      ((List.range (bits / 8)).map fun i => bytes (pos + 1 + i))
    rw [List.length_map, List.length_range, Nat.div_add_mod] at hbounds
    exact hbounds
  · rename_i hrem
    obtain ⟨len, hlen⟩ : ∃ len, bits / 8 = len + 1 := ⟨bits / 8 - 1, by omega⟩
    have hbounds := ofBytesBE_cons_bounds (Nat.succ_ne_zero 7) (setTopBit_bounds (bytes pos))
      ((List.range len).map fun i => bytes (pos + (i + 1)))
    rw [List.length_map, List.length_range, show 8 * len + 8 = bits by omega] at hbounds
    rw [hlen, List.range_succ_eq_map, List.map_cons, List.map_map]
    exact hbounds

end BigInt

/-! ### `gen_strong_prime` -/

/-- The first primes of the table, up to `BOUND`. -/
def PRIMES : List ℕ := [
  2, 3, 5, 7, 11, 13, 17, 19, 23, 29, 31, 37, 41, 43, 47, 53, 59, 61, 67, 71, 73, 79, 83, 89, 97,
  101, 103, 107, 109, 113, 127, 131, 137, 139, 149, 151, 157, 163, 167, 173, 179, 181, 191, 193,
  197, 199, 211, 223, 227, 229, 233, 239, 241, 251, 257, 263, 269, 271, 277, 281, 283, 293, 307,
  311, 313, 317, 331, 337, 347, 349, 353, 359, 367, 373, 379, 383, 389, 397, 401, 409, 419, 421,
  431, 433, 439, 443, 449, 457, 461, 463, 467, 479, 487, 491, 499, 503, 509, 521, 523, 541]

def BOUND : ℕ := 100

/-- `coprime`: the number is no multiple of `i`. -/
def BigInt.coprime (x i : ℕ) : Bool := x % i != 0

/-- No prime of the table from the second on divides the number. -/
def passesSieve (x : ℕ) : Bool := ((PRIMES.take BOUND).drop 1).all fun i => BigInt.coprime x i

/-- A candidate is made odd. -/
def oddCandidate (drawn : ℕ) : ℕ := if drawn % 2 = 0 then drawn + 1 else drawn

/-- The variables of the loop, with the position in the random bytes. -/
structure StrongPrimeSearch where
  p1 : ℕ
  p : ℕ
  prime : Bool
  pos : ℕ
  deriving DecidableEq

theorem oddCandidate_odd (drawn : ℕ) : oddCandidate drawn % 2 = 1 := by
  unfold oddCandidate
  split <;> omega

section Search

variable (isPrime : ℕ → Bool) (bytes : ℕ → UInt8) (e : ℤ) (psize : ℕ)

/-- One round of the loop. When `p1` fails the sieve, `p` keeps the value of the round before. -/
def StrongPrimeSearch.round (s : StrongPrimeSearch) : StrongPrimeSearch :=
  let (drawn, pos) := BigInt.rand bytes s.pos psize
  let p1 := oddCandidate drawn
  let prime := passesSieve p1
  let p := if prime then p1 + p1 + 1 else s.p
  let prime := prime && passesSieve p
  let prime := if (p : ℤ) = e then false else prime
  let prime := prime && BigInt.powModNat 2 p1 p1 == 2
  let prime := prime && (BigInt.powModNat 2 p1 p == 1 || BigInt.powModNat 2 p1 p == p - 1)
  let prime := prime && isPrime p1
  { p1, p, prime, pos }

/-- `gen_strong_prime` for so many rounds at most: `p1`, `p` and the position after them. -/
def genStrongPrime (rounds p1 p pos : ℕ) : Option (ℕ × ℕ × ℕ) :=
  (whileLoop (fun s => !s.prime) (StrongPrimeSearch.round isPrime bytes e psize) rounds
    { p1, p, prime := false, pos }).map fun s => (s.p1, s.p, s.pos)

variable {isPrime bytes e psize}

/-- What a round that ends the loop has checked. -/
theorem StrongPrimeSearch.of_prime_round {s : StrongPrimeSearch}
    (h : (s.round isPrime bytes e psize).prime = true) :
    let s' := s.round isPrime bytes e psize
    s'.p = 2 * s'.p1 + 1 ∧ s'.p1 % 2 = 1 ∧ passesSieve s'.p = true ∧ (s'.p : ℤ) ≠ e
      ∧ (BigInt.powModNat 2 s'.p1 s'.p = 1 ∨ BigInt.powModNat 2 s'.p1 s'.p = s'.p - 1)
      ∧ isPrime s'.p1 = true := by
  intro s'
  have hround : s'.prime = true := h
  simp only [s', StrongPrimeSearch.round] at hround ⊢
  have hodd : oddCandidate (BigInt.rand bytes s.pos psize).1 % 2 = 1 := oddCandidate_odd _
  generalize oddCandidate (BigInt.rand bytes s.pos psize).1 = p1 at hround hodd ⊢
  by_cases hsieve : passesSieve p1 = true
  · simp only [if_pos hsieve] at hround ⊢
    by_cases heq : ((p1 + p1 + 1 : ℕ) : ℤ) = e
    · simp [heq] at hround
    · simp only [if_neg heq, Bool.and_eq_true, Bool.or_eq_true, beq_iff_eq] at hround
      obtain ⟨⟨⟨⟨-, hsieve'⟩, -⟩, hpow⟩, hisPrime⟩ := hround
      exact ⟨by omega, hodd, hsieve', heq, hpow, hisPrime⟩
  · simp [hsieve] at hround

variable (isPrime bytes e) in
/-- Every candidate is odd and has the bits that were asked for. -/
theorem StrongPrimeSearch.round_bounds (s : StrongPrimeSearch) (hpsize : psize ≠ 0) :
    2 ^ (psize - 1) ≤ (s.round isPrime bytes e psize).p1
      ∧ (s.round isPrime bytes e psize).p1 < 2 ^ psize := by
  obtain ⟨hle, hlt⟩ := BigInt.rand_bounds bytes s.pos hpsize
  simp only [StrongPrimeSearch.round, oddCandidate]
  split
  · rename_i heven
    -- an even number below an even bound is not the last one below it
    have htwo : 2 ^ psize % 2 = 0 := by
      rw [← Nat.sub_add_cancel (Nat.pos_of_ne_zero hpsize), pow_succ, Nat.mul_mod_left]
    omega
  · exact ⟨hle, hlt⟩

/-- A search that returns ends with a round that passed every test. -/
theorem exists_round_of_genStrongPrime {rounds p1₀ p₀ pos p1 p pos' : ℕ}
    (h : genStrongPrime isPrime bytes e psize rounds p1₀ p₀ pos = some (p1, p, pos')) :
    ∃ s : StrongPrimeSearch, s.round isPrime bytes e psize = { p1, p, prime := true, pos := pos' } := by
  obtain ⟨last, hloop, hlast⟩ := Option.map_eq_some_iff.mp h
  obtain ⟨⟨s, rfl⟩, hprime⟩ := exists_round_of_whileLoop rfl hloop
  refine ⟨s, ?_⟩
  simp only [Prod.mk.injEq] at hlast
  obtain ⟨rfl, rfl, rfl⟩ := hlast
  rw [show true = (s.round isPrime bytes e psize).prime by simpa using hprime]

/-- The candidate of a search that returns has exactly the bits that were asked for. -/
theorem genStrongPrime_bounds (hpsize : psize ≠ 0) {rounds p1₀ p₀ pos p1 p pos' : ℕ}
    (h : genStrongPrime isPrime bytes e psize rounds p1₀ p₀ pos = some (p1, p, pos')) :
    p = 2 * p1 + 1 ∧ 2 ^ (psize - 1) ≤ p1 ∧ p1 < 2 ^ psize := by
  obtain ⟨s, hs⟩ := exists_round_of_genStrongPrime h
  have hbounds := StrongPrimeSearch.round_bounds isPrime bytes e s hpsize
  obtain ⟨hp, -⟩ := StrongPrimeSearch.of_prime_round (s := s) (by rw [hs])
  rw [hs] at hbounds hp
  exact ⟨hp, hbounds⟩

end Search

/-- Three is in the sieve. -/
theorem not_three_dvd_of_passesSieve {x : ℕ} (h : passesSieve x = true) : ¬ 3 ∣ x := by
  have hcoprime := List.all_eq_true.mp h 3 (by decide)
  intro hdvd
  rw [BigInt.coprime, bne_iff_ne] at hcoprime
  exact hcoprime (Nat.mod_eq_zero_of_dvd hdvd)

/-- The power of two in the round is one or minus one modulo `p`. -/
theorem two_pow_of_powModNat {q p : ℕ} (hp : 1 ≤ p)
    (h : BigInt.powModNat 2 q p = 1 ∨ BigInt.powModNat 2 q p = p - 1) :
    (2 : ZMod p) ^ q = 1 ∨ (2 : ZMod p) ^ q = -1 := by
  have hcast := BigInt.cast_powModNat 2 q p
  rw [Nat.cast_ofNat] at hcast
  rw [← hcast]
  obtain h | h := h
  · left
    rw [h, Nat.cast_one]
  · right
    rw [h, Nat.cast_sub hp, ZMod.natCast_self, Nat.cast_one, zero_sub]

section Soundness

variable {isPrime : ℕ → Bool} (hisPrime : ∀ x, isPrime x = true → x.Prime) {bytes : ℕ → UInt8} {e : ℤ}
  {psize rounds p1₀ p₀ pos p1 p pos' : ℕ}

include hisPrime in
theorem primes_of_genStrongPrime
    (h : genStrongPrime isPrime bytes e psize rounds p1₀ p₀ pos = some (p1, p, pos')) :
    p1.Prime ∧ p.Prime := by
  obtain ⟨s, hs⟩ := exists_round_of_genStrongPrime h
  have hround := StrongPrimeSearch.of_prime_round (s := s) (by rw [hs])
  simp only [hs] at hround
  obtain ⟨hp, hodd, hsieve, -, hpow, htest⟩ := hround
  have hprime := hisPrime p1 htest
  refine ⟨hprime, ?_⟩
  have hpowers := two_pow_of_powModNat (by omega) hpow
  rw [hp] at hsieve hpowers ⊢
  exact prime_two_mul_add_one_of_two_pow hprime hodd (not_three_dvd_of_passesSieve hsieve) hpowers

include hisPrime in
/-- Whatever the bytes, a search that returns ends with a prime `p1` and the prime `p = 2 * p1 + 1`,
which is not `e`, provided that only primes pass GMP's test. -/
theorem gen_strong_prime_sound
    (h : genStrongPrime isPrime bytes e psize rounds p1₀ p₀ pos = some (p1, p, pos')) :
    p1.Prime ∧ p = 2 * p1 + 1 ∧ p.Prime ∧ (p : ℤ) ≠ e := by
  obtain ⟨hp1, hprime⟩ := primes_of_genStrongPrime hisPrime h
  obtain ⟨s, hs⟩ := exists_round_of_genStrongPrime h
  have hround := StrongPrimeSearch.of_prime_round (s := s) (by rw [hs])
  simp only [hs] at hround
  obtain ⟨hp, -, -, hne, -⟩ := hround
  exact ⟨hp1, hp, hprime, hne⟩

end Soundness

/-- Ten bits from the bytes 2, 0, 2, 81: 513 fails the sieve and 593 passes. -/
theorem gen_strong_prime_593 :
    genStrongPrime (fun x => x == 593) (fun i => [2, 0, 2, 81].getD i 0) 65537 10 2 0 0 0
        = some (593, 1187, 4)
      ∧ Nat.Prime 593 ∧ Nat.Prime 1187 := by
  have hreturns : genStrongPrime (fun x => x == 593) (fun i => [2, 0, 2, 81].getD i 0) 65537 10 2 0 0 0
      = some (593, 1187, 4) := by
    decide +kernel
  have hprime : ∀ x, (x == 593) = true → x.Prime := by
    intro x hx
    rw [beq_iff_eq] at hx
    rw [hx]
    norm_num
  obtain ⟨hp1, -, hp, -⟩ := gen_strong_prime_sound hprime hreturns
  exact ⟨hreturns, hp1, hp⟩

/-! ### Two safe primes -/

/-- Lucas's test for a number one above a prime times a power of two. -/
theorem prime_mul_two_pow_add_one {c a g : ℕ} (hc : c.Prime)
    (hone : BigInt.powModNat g (c * 2 ^ (a + 1)) (c * 2 ^ (a + 1) + 1) = 1)
    (htwo : BigInt.powModNat g (c * 2 ^ a) (c * 2 ^ (a + 1) + 1) ≠ 1)
    (hfactor : BigInt.powModNat g (2 ^ (a + 1)) (c * 2 ^ (a + 1) + 1) ≠ 1) :
    (c * 2 ^ (a + 1) + 1).Prime := by
  set p := c * 2 ^ (a + 1) + 1 with hp
  have hpos : 1 < p := by
    have := Nat.mul_pos hc.pos (Nat.two_pow_pos (a + 1))
    omega
  have hcast : ∀ e, (g : ZMod p) ^ e = 1 → BigInt.powModNat g e p = 1 := by
    intro e he
    rw [← BigInt.cast_powModNat, ← Nat.cast_one, ZMod.natCast_eq_natCast_iff',
      Nat.mod_eq_of_lt (BigInt.powModNat_lt _ _ (by omega)), Nat.mod_eq_of_lt hpos] at he
    exact he
  refine lucas_primality p g ?_ ?_
  · rw [hp, Nat.add_sub_cancel, ← hp, ← BigInt.cast_powModNat, hone, Nat.cast_one]
  · intro q hq hdvd
    rw [hp, Nat.add_sub_cancel] at hdvd ⊢
    rw [← hp]
    rcases (hq.dvd_mul).mp hdvd with hqc | hqtwo
    · obtain rfl := (Nat.prime_dvd_prime_iff_eq hq hc).mp hqc
      rw [Nat.mul_div_cancel_left _ hq.pos]
      exact fun h => hfactor (hcast _ h)
    · obtain rfl := (Nat.prime_dvd_prime_iff_eq hq Nat.prime_two).mp (hq.dvd_of_dvd_pow hqtwo)
      rw [pow_succ, ← mul_assoc, Nat.mul_div_cancel _ two_pos]
      exact fun h => htwo (hcast _ h)

/-- A prime whose double has a prime next to it. -/
theorem prime_two_mul_add_one {p g : ℕ} (hp : p.Prime)
    (hone : BigInt.powModNat g (p * 2) (p * 2 + 1) = 1)
    (htwo : BigInt.powModNat g p (p * 2 + 1) ≠ 1) (hfactor : BigInt.powModNat g 2 (p * 2 + 1) ≠ 1) :
    (2 * p + 1).Prime := by
  rw [mul_comm]
  exact prime_mul_two_pow_add_one (a := 0) (g := g) hp hone (by rwa [pow_zero, mul_one]) hfactor

/-- The halves of two safe primes, of 254 bits each. -/
def halfRsa512₁ : ℕ := 64633 * 2 ^ 238 + 1

def halfRsa512₂ : ℕ := 96479 * 2 ^ 237 + 1

theorem prime_halfRsa512₁ : halfRsa512₁.Prime :=
  prime_mul_two_pow_add_one (a := 237) (g := 3) (by norm_num) (by decide +kernel) (by decide +kernel)
    (by decide +kernel)

theorem prime_halfRsa512₂ : halfRsa512₂.Prime :=
  prime_mul_two_pow_add_one (a := 236) (g := 3) (by norm_num) (by decide +kernel) (by decide +kernel)
    (by decide +kernel)

/-- The safe primes with these halves. -/
def safePrimesRsa512 : SafePrimes where
  half₁ := halfRsa512₁
  half₂ := halfRsa512₂
  prime_half₁ := prime_halfRsa512₁
  prime_half₂ := prime_halfRsa512₂
  prime₁ := prime_two_mul_add_one (g := 2) prime_halfRsa512₁ (by decide +kernel) (by decide +kernel)
    (by decide +kernel)
  prime₂ := prime_two_mul_add_one (g := 2) prime_halfRsa512₂ (by decide +kernel) (by decide +kernel)
    (by decide +kernel)
  half_ne := by decide +kernel

end QuorumCrypt
