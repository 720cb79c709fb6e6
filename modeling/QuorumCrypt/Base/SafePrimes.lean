import Mathlib.FieldTheory.Finite.Basic
import Mathlib.Data.Nat.ModEq
import Mathlib.Tactic.LinearCombination

/-!
# Moduli made of two safe primes

A prime is safe when it is `2 * p + 1` for a prime `p`. Modulo the product of two different safe
primes every unit raised to twice the product of the two halves is one, so a square only sees its
exponent modulo the product of the halves.
-/

/-- When two raised to `q` is one or minus one modulo `2 * q + 1`, every prime factor other than three
is one above a multiple of `q`. -/
theorem dvd_sub_one_of_two_pow {q r : ℕ} (hq : q.Prime) (hr : r.Prime) (hthree : r ≠ 3)
    (hdvd : r ∣ 2 * q + 1)
    (hpow : (2 : ZMod (2 * q + 1)) ^ q = 1 ∨ (2 : ZMod (2 * q + 1)) ^ q = -1) : q ∣ r - 1 := by
  have : Fact r.Prime := ⟨hr⟩
  -- the order of two modulo `r` divides `2 * q`
  have hsquare : (2 : ZMod r) ^ (2 * q) = 1 := by
    have hmod : (2 : ZMod (2 * q + 1)) ^ (2 * q) = 1 := by
      rw [pow_mul']
      obtain h | h := hpow
      · rw [h, one_pow]
      · rw [h, neg_one_sq]
    have hcast := congrArg (ZMod.castHom hdvd (ZMod r)) hmod
    rwa [map_pow, map_one, map_ofNat] at hcast
  have htwo : (2 : ZMod r) ≠ 0 := by
    intro hzero
    have hrtwo : r ∣ 2 := (ZMod.natCast_eq_zero_iff 2 r).mp (by exact_mod_cast hzero)
    have hrone : r ∣ 1 := (Nat.dvd_add_right (hrtwo.mul_right q)).mp hdvd
    exact hr.one_lt.ne' (Nat.dvd_one.mp hrone)
  -- it is not a divisor of two, so it is a multiple of `q`
  have horder : q ∣ orderOf (2 : ZMod r) := by
    by_contra hndvd
    have hcoprime : (orderOf (2 : ZMod r)).Coprime q :=
      ((Nat.Prime.coprime_iff_not_dvd hq).mpr hndvd).symm
    have hfour : (2 : ZMod r) ^ 2 = 1 := orderOf_dvd_iff_pow_eq_one.mp
      (hcoprime.dvd_of_dvd_mul_right (orderOf_dvd_of_pow_eq_one hsquare))
    have hzero : ((3 : ℕ) : ZMod r) = 0 := by
      push_cast
      linear_combination hfour
    exact hthree ((Nat.prime_dvd_prime_iff_eq hr Nat.prime_three).mp
      ((ZMod.natCast_eq_zero_iff 3 r).mp hzero))
  exact horder.trans (orderOf_dvd_of_pow_eq_one (ZMod.pow_card_sub_one_eq_one htwo))

/-- A number one above twice an odd prime is prime as soon as two raised to that prime is one or minus
one modulo it, and three does not divide it. -/
theorem prime_two_mul_add_one_of_two_pow {q : ℕ} (hq : q.Prime) (hodd : q % 2 = 1)
    (hthree : ¬ 3 ∣ 2 * q + 1)
    (hpow : (2 : ZMod (2 * q + 1)) ^ q = 1 ∨ (2 : ZMod (2 * q + 1)) ^ q = -1) :
    (2 * q + 1).Prime := by
  set r := (2 * q + 1).minFac with hr
  have hqpos := hq.pos
  have hrprime : r.Prime := Nat.minFac_prime (by omega)
  have hrdvd : r ∣ 2 * q + 1 := Nat.minFac_dvd _
  have hrone := hrprime.one_lt
  obtain ⟨c, hc⟩ := dvd_sub_one_of_two_pow hq hrprime (fun h => hthree (h ▸ hrdvd)) hrdvd hpow
  -- the least factor is odd, so it is one above an even multiple of `q`
  have hrodd : r % 2 = 1 := by
    rcases hrprime.eq_two_or_odd with heq | hmod
    · rw [heq] at hrdvd
      omega
    · exact hmod
  have hceven : c % 2 = 0 := by
    by_contra hne
    have hprod : (q * c) % 2 = 1 := by
      rw [Nat.mul_mod, hodd, Nat.mod_two_ne_zero.mp hne]
    omega
  have hctwo : 2 ≤ c := by
    have hcpos : c ≠ 0 := by
      rintro rfl
      omega
    omega
  have hle : 2 * q + 1 ≤ r := by
    have hmul := Nat.mul_le_mul_left q hctwo
    omega
  have heq : r = 2 * q + 1 := Nat.le_antisymm (Nat.le_of_dvd (Nat.succ_pos _) hrdvd) hle
  rwa [heq] at hrprime

/-- Two different safe primes, given by their halves. -/
structure SafePrimes where
  half₁ : ℕ
  half₂ : ℕ
  prime_half₁ : half₁.Prime
  prime_half₂ : half₂.Prime
  prime₁ : (2 * half₁ + 1).Prime
  prime₂ : (2 * half₂ + 1).Prime
  half_ne : half₁ ≠ half₂

namespace SafePrimes

variable (P : SafePrimes)

def modulus : ℕ := (2 * P.half₁ + 1) * (2 * P.half₂ + 1)

/-- The product of the halves. -/
def order : ℕ := P.half₁ * P.half₂

theorem one_lt_modulus : 1 < P.modulus :=
  lt_of_lt_of_le P.prime₁.one_lt (Nat.le_mul_of_pos_right _ P.prime₂.pos)

instance : NeZero P.modulus := ⟨Nat.ne_of_gt (Nat.lt_of_succ_lt P.one_lt_modulus)⟩

theorem coprime_primes : Nat.Coprime (2 * P.half₁ + 1) (2 * P.half₂ + 1) := by
  rw [Nat.coprime_primes P.prime₁ P.prime₂]
  intro h
  exact P.half_ne (by omega)

/-- Fermat's little theorem modulo one safe prime, for a multiple of the exponent. -/
theorem pow_two_mul_modEq_one {half c : ℕ} (hprime : (2 * half + 1).Prime) {x : ℕ}
    (hx : x.Coprime (2 * half + 1)) : x ^ (2 * (half * c)) ≡ 1 [MOD 2 * half + 1] := by
  have hfermat := Nat.ModEq.pow_totient hx
  rw [Nat.totient_prime hprime, Nat.add_sub_cancel] at hfermat
  have hpow := hfermat.pow c
  rwa [one_pow, ← pow_mul, Nat.mul_assoc] at hpow

/-- Twice the product of the halves is an exponent of the units. -/
theorem unit_pow_eq_one (x : (ZMod P.modulus)ˣ) : x ^ (2 * P.order) = 1 := by
  have hcoprime : (x : ZMod P.modulus).val.Coprime P.modulus := ZMod.val_coe_unit_coprime x
  have h₁ : (x : ZMod P.modulus).val ^ (2 * P.order) ≡ 1 [MOD 2 * P.half₁ + 1] :=
    pow_two_mul_modEq_one P.prime₁ (hcoprime.coprime_dvd_right (Nat.dvd_mul_right _ _))
  have h₂ : (x : ZMod P.modulus).val ^ (2 * P.order) ≡ 1 [MOD 2 * P.half₂ + 1] := by
    rw [order, Nat.mul_comm P.half₁]
    exact pow_two_mul_modEq_one P.prime₂ (hcoprime.coprime_dvd_right (Nat.dvd_mul_left _ _))
  have h : (x : ZMod P.modulus).val ^ (2 * P.order) ≡ 1 [MOD P.modulus] :=
    (Nat.modEq_and_modEq_iff_modEq_mul P.coprime_primes).mp ⟨h₁, h₂⟩
  ext
  rw [Units.val_pow_eq_pow_val, Units.val_one, ← ZMod.natCast_zmod_val (x : ZMod P.modulus),
    ← Nat.cast_pow, ← Nat.cast_one, ZMod.natCast_eq_natCast_iff]
  exact h

/-- A fourth power only sees its exponent modulo the product of the halves. -/
theorem pow_four_zpow_congr (x : (ZMod P.modulus)ˣ) {a b : ℤ} (h : a ≡ b [ZMOD P.order]) :
    (x ^ 4) ^ a = (x ^ 4) ^ b := by
  rw [zpow_eq_zpow_iff_modEq]
  refine h.of_dvd (Int.natCast_dvd_natCast.mpr (orderOf_dvd_of_pow_eq_one ?_))
  rw [← pow_mul, show 4 * P.order = 2 * P.order * 2 by omega, pow_mul, P.unit_pow_eq_one, one_pow]

/-- Powers with an exponent prime to the order of the units have one root. -/
theorem eq_of_pow_eq {e : ℕ} (he : e.Coprime (2 * P.order)) {x y : (ZMod P.modulus)ˣ}
    (h : x ^ e = y ^ e) : x = y := by
  have hquotient : (x / y) ^ e = 1 := by rw [div_pow, h, div_self']
  have horder : orderOf (x / y) ∣ 1 := by
    rw [← he.gcd_eq_one]
    exact Nat.dvd_gcd (orderOf_dvd_of_pow_eq_one hquotient)
      (orderOf_dvd_of_pow_eq_one (P.unit_pow_eq_one _))
  rw [Nat.dvd_one, orderOf_eq_one_iff, div_eq_one] at horder
  exact horder

end SafePrimes
