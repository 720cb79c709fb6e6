import QuorumCrypt.Schemes.Primitives
import Mathlib.Data.Nat.Factorial.Basic
import Mathlib.Tactic.Ring
import Mathlib.Tactic.LinearCombination

/-!
# Integers of arbitrary size

`integers/bigint.rs`, over GMP, and the arithmetic of `rsa_schemes/common.rs` that needs no key. The
values the code stores are not negative; exponents and Lagrange coefficients may be.
-/

namespace QuorumCrypt

open Rust

namespace BigInt

/-- `mpz_export`: as many bytes as the number needs, most significant first. -/
def toBytes (x : ℕ) : Bytes := if x = 0 then [] else toBytesBE (x.log2 / 8 + 1) x

theorem ofBytesBE_toBytes (x : ℕ) : ofBytesBE (toBytes x) = x := by
  unfold toBytes
  split
  · rename_i hzero
    rw [hzero]
    rfl
  · rw [ofBytesBE_toBytesBE, Nat.mod_eq_of_lt]
    calc x < 2 ^ (x.log2 + 1) := Nat.lt_log2_self
      _ ≤ 2 ^ (8 * (x.log2 / 8 + 1)) := Nat.pow_le_pow_right (by decide) (by omega)
      _ = 256 ^ (x.log2 / 8 + 1) := by rw [pow_mul]; norm_num

/-- The bytes of a number are those without a leading zero. -/
theorem toBytes_ofBytesBE_eq_iff (b : Bytes) : toBytes (ofBytesBE b) = b ↔ b.head? ≠ some 0 := by
  cases b with
  | nil => exact iff_of_true rfl fun h => by cases h
  | cons byte b =>
      have hrest := ofBytesBE_lt b
      rw [List.head?_cons, Ne, Option.some.injEq, toBytes]
      constructor
      · rintro heq rfl
        have hlength := congrArg List.length heq
        rw [ofBytesBE_cons, UInt8.toNat_zero, Nat.zero_mul, Nat.zero_add] at hlength
        split at hlength
        · cases hlength
        · rename_i hzero
          rw [length_toBytesBE, List.length_cons, Nat.add_right_cancel_iff] at hlength
          have hlog : ofBytesBE b < 2 ^ (8 * b.length) := by rwa [pow_mul]
          have hlt := (Nat.log2_lt hzero).mpr hlog
          omega
      · intro hbyte
        have hpos : 0 < byte.toNat := by
          rw [Nat.pos_iff_ne_zero]
          exact fun hzero => hbyte (UInt8.toNat_inj.mp hzero)
        have hge : 2 ^ (8 * b.length) ≤ ofBytesBE (byte :: b) := by
          rw [ofBytesBE_cons, pow_mul]
          exact (Nat.le_mul_of_pos_left _ hpos).trans (Nat.le_add_right _ _)
        have hlt : ofBytesBE (byte :: b) < 2 ^ (8 * (b.length + 1)) := by
          rw [pow_mul]
          exact ofBytesBE_lt (byte :: b)
        have hzero : ofBytesBE (byte :: b) ≠ 0 :=
          (Nat.two_pow_pos _ |>.trans_le hge).ne'
        have hlog : (ofBytesBE (byte :: b)).log2 / 8 + 1 = (byte :: b).length := by
          have hle := (Nat.le_log2 hzero).mpr hge
          have hup := (Nat.log2_lt hzero).mpr hlt
          rw [List.length_cons]
          omega
        rw [if_neg hzero, hlog, toBytesBE_ofBytesBE]

/-- Square and multiply, from the lowest bit on. -/
def powModFrom (m : ℕ) : ℕ → ℕ → ℕ → ℕ → ℕ
  | 0, _, _, acc => acc % m
  | bits + 1, x, e, acc =>
      powModFrom m bits (x * x % m) (e / 2) (if e % 2 = 1 then acc * x % m else acc)

/-- `self.pow_mod(e, m)` for an exponent that is not negative. -/
def powModNat (x e m : ℕ) : ℕ := powModFrom m (e.log2 + 1) x e 1

/-- `self.inv_mod(m)`: GMP leaves the zero it started from when there is no inverse. -/
def invMod (x m : ℕ) : ℕ := if x.Coprime m then QuorumCrypt.invMod x m else 0

/-- `self.pow_mod(e, m).unwrap()`: a negative power of a number without inverse panics. -/
def powMod (x : ℕ) (e : ℤ) (m : ℕ) : SchemeOutcome ℕ :=
  match e with
  | .ofNat e => .ok (powModNat x e m)
  | .negSucc e => if x.Coprime m then .ok (powModNat (invMod x m) (e + 1) m) else .panic

theorem powModFrom_eq (m : ℕ) {bits x e acc : ℕ} (he : e < 2 ^ bits) :
    powModFrom m bits x e acc = acc * x ^ e % m := by
  induction bits generalizing x e acc with
  | zero =>
      obtain rfl : e = 0 := by simpa using he
      rw [powModFrom, pow_zero, mul_one]
  | succ bits ih =>
      have hhalf : e / 2 < 2 ^ bits := by rw [pow_succ] at he; omega
      rw [powModFrom, ih hhalf]
      have hsquare : (x * x % m) ^ (e / 2) ≡ x ^ (2 * (e / 2)) [MOD m] := by
        rw [pow_mul, pow_two]
        exact (Nat.mod_modEq _ _).pow _
      have hbit := Nat.div_add_mod e 2
      split
      · rename_i hodd
        calc acc * x % m * (x * x % m) ^ (e / 2) % m
            = acc * x * x ^ (2 * (e / 2)) % m := ((Nat.mod_modEq _ _).mul hsquare)
          _ = acc * x ^ e % m := by
              rw [hodd] at hbit
              rw [mul_assoc, ← pow_succ', hbit]
      · rename_i heven
        have hexp : 2 * (e / 2) = e := by omega
        rw [hexp] at hsquare
        exact hsquare.mul_left acc

theorem powModNat_eq (x e m : ℕ) : powModNat x e m = x ^ e % m := by
  rw [powModNat, powModFrom_eq m Nat.lt_log2_self, one_mul]

theorem powModNat_lt (x e : ℕ) {m : ℕ} (hm : 0 < m) : powModNat x e m < m := by
  rw [powModNat_eq]
  exact Nat.mod_lt _ hm

theorem cast_powModNat (x e m : ℕ) : ((powModNat x e m : ℕ) : ZMod m) = (x : ZMod m) ^ e := by
  rw [powModNat_eq, ZMod.natCast_mod, Nat.cast_pow]

theorem invMod_of_coprime {x m : ℕ} [NeZero m] (hx : x.Coprime m) :
    ((invMod x m : ℕ) : ZMod m) = (x : ZMod m)⁻¹ := by
  rw [invMod, if_pos hx, cast_invMod]

/-- On a unit `pow_mod` returns the power in the group of units, for exponents of either sign. -/
theorem powMod_eq_ok {m : ℕ} [NeZero m] (x : (ZMod m)ˣ) {a : ℕ} (ha : (a : ZMod m) = x) (e : ℤ) :
    powMod a e m = .ok ((x ^ e : (ZMod m)ˣ) : ZMod m).val := by
  have hcoprime : a.Coprime m := by
    rw [← ZMod.isUnit_iff_coprime, ha]
    exact x.isUnit
  have hval : ∀ {b : ℕ} {y : (ZMod m)ˣ} (n : ℕ), (b : ZMod m) = y →
      powModNat b n m = ((y ^ n : (ZMod m)ˣ) : ZMod m).val := by
    intro b y n hb
    rw [Units.val_pow_eq_pow_val, ← hb, ← cast_powModNat, ZMod.val_natCast,
      Nat.mod_eq_of_lt (powModNat_lt _ _ (NeZero.pos m))]
  cases e with
  | ofNat e =>
      rw [powMod, hval e ha]
      simp
  | negSucc e =>
      have hinv : ((invMod a m : ℕ) : ZMod m) = (x⁻¹ : (ZMod m)ˣ) := by
        rw [invMod_of_coprime hcoprime, ha, ZMod.inv_coe_unit]
      simp only [powMod, if_pos hcoprime]
      rw [hval (e + 1) hinv, zpow_negSucc, inv_pow]

end BigInt

/-! ### `rsa_schemes/common.rs` -/

def fac : ℕ → ℕ
  | 0 => 1
  | 1 => 1
  | x + 2 => (x + 2) * fac (x + 1)

theorem fac_eq_factorial (x : ℕ) : fac x = x.factorial := by
  induction x using fac.induct with
  | case1 => rfl
  | case2 => rfl
  | case3 x ih => rw [fac, ih, Nat.factorial_succ (x + 1)]

/-- The extended Euclidean algorithm. -/
def extEuclid (x y : ℕ) : ℤ × ℤ :=
  if _h : x = 0 then (0, 1)
  else
    let r := extEuclid (y % x) x
    (r.2 - (y / x : ℕ) * r.1, r.1)
termination_by x
decreasing_by exact Nat.mod_lt _ (Nat.pos_of_ne_zero ‹_›)

/-- Bézout's identity. -/
theorem extEuclid_spec (x y : ℕ) :
    (x : ℤ) * (extEuclid x y).1 + (y : ℤ) * (extEuclid x y).2 = Nat.gcd x y := by
  induction x, y using extEuclid.induct with
  | case1 y => simp [extEuclid]
  | case2 x y hx ih =>
      rw [extEuclid, dif_neg hx]
      have hdiv : ((y : ℕ) : ℤ) = x * (y / x : ℕ) + (y % x : ℕ) := by
        exact_mod_cast (Nat.div_add_mod y x).symm
      rw [Nat.gcd_rec, ← ih]
      linear_combination (extEuclid (y % x) x).1 * hdiv

end QuorumCrypt
