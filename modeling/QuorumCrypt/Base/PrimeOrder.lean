import Mathlib.Algebra.Field.ZMod
import Mathlib.GroupTheory.OrderOfElement

/-!
# Groups of prime order

A cyclic group with a fixed generator of prime order, written multiplicatively, and a bilinear
pairing between two of them. Exponents are natural numbers, as the programs that compute with such
groups have them: they may or may not be reduced. What the proofs use is that only the residue of an
exponent modulo the order counts (`pow_congr`), and that powers of the generator with different
residues are different (`generator_pow_inj`).
-/

/-- A group generated by one element of prime order. -/
structure PrimeGroup (G : Type) [CommGroup G] where
  order : ℕ
  prime : order.Prime
  generator : G
  orderOf_generator : orderOf generator = order
  exists_pow : ∀ x : G, ∃ k : ℕ, generator ^ k = x

namespace PrimeGroup

variable {G : Type} [CommGroup G] (P : PrimeGroup G)

instance : Fact P.order.Prime := ⟨P.prime⟩

theorem pow_order (x : G) : x ^ P.order = 1 := by
  obtain ⟨k, rfl⟩ := P.exists_pow x
  rw [← pow_mul, mul_comm, pow_mul, ← P.orderOf_generator, pow_orderOf_eq_one, one_pow]

/-- Exponents with the same residue give the same power. -/
theorem pow_congr (x : G) {a b : ℕ} (h : (a : ZMod P.order) = b) : x ^ a = x ^ b := by
  rw [pow_eq_pow_iff_modEq]
  exact ((ZMod.natCast_eq_natCast_iff a b P.order).mp h).of_dvd
    (orderOf_dvd_of_pow_eq_one (P.pow_order x))

@[simp] theorem pow_mod (x : G) (a : ℕ) : x ^ (a % P.order) = x ^ a :=
  P.pow_congr x (by simp)

theorem generator_pow_inj {a b : ℕ} :
    P.generator ^ a = P.generator ^ b ↔ (a : ZMod P.order) = b := by
  rw [pow_eq_pow_iff_modEq, P.orderOf_generator, ZMod.natCast_eq_natCast_iff]

/-- Raising every element of a product to its own power adds up the exponents. -/
theorem prod_pow_eq {ι : Type} (xs : List ι) (x : G) (e c : ι → ℕ) :
    (xs.map fun i => (x ^ e i) ^ c i).prod = x ^ (xs.map fun i => e i * c i).sum := by
  induction xs with
  | nil => simp
  | cons i xs ih => rw [List.map_cons, List.prod_cons, ih, List.map_cons, List.sum_cons, pow_add, pow_mul]

/-- The response `s + e * r` to the challenge `e` verifies against the commitment to `s`. -/
theorem pow_response_div (x : G) (s e r : ℕ) :
    x ^ ((s + e * r % P.order) % P.order) / (x ^ r) ^ e = x ^ s := by
  rw [div_eq_iff_eq_mul, ← pow_mul, ← pow_add]
  refine P.pow_congr x ?_
  simp [mul_comm]

/-- The residues modulo a prime, written multiplicatively. -/
def residues (p : ℕ) [hp : Fact p.Prime] : PrimeGroup (Multiplicative (ZMod p)) where
  order := p
  prime := hp.out
  generator := Multiplicative.ofAdd 1
  orderOf_generator := by rw [orderOf_ofAdd_eq_addOrderOf, ZMod.addOrderOf_one]
  exists_pow := by
    intro x
    refine ⟨(Multiplicative.toAdd x).val, ?_⟩
    rw [← ofAdd_nsmul, nsmul_one, ZMod.natCast_zmod_val, ofAdd_toAdd]

end PrimeGroup

/-- A bilinear map of two groups of the same prime order that is not constant. -/
structure BilinearPairing {G₂ G₁ : Type} (Gt : Type) [CommGroup G₂] [CommGroup G₁] [CommGroup Gt]
    (P₂ : PrimeGroup G₂) (P₁ : PrimeGroup G₁) where
  pair : G₂ → G₁ → Gt
  mul_left : ∀ x x' y, pair (x * x') y = pair x y * pair x' y
  mul_right : ∀ x y y', pair x (y * y') = pair x y * pair x y'
  order_eq : P₂.order = P₁.order
  nondegenerate : pair P₂.generator P₁.generator ≠ 1

namespace BilinearPairing

variable {G₂ G₁ Gt : Type} [CommGroup G₂] [CommGroup G₁] [CommGroup Gt]
  {P₂ : PrimeGroup G₂} {P₁ : PrimeGroup G₁} (e : BilinearPairing Gt P₂ P₁)

theorem pair_one_left (y : G₁) : e.pair 1 y = 1 := by
  have h := e.mul_left 1 1 y
  rwa [one_mul, right_eq_mul] at h

theorem pair_one_right (x : G₂) : e.pair x 1 = 1 := by
  have h := e.mul_right x 1 1
  rwa [one_mul, right_eq_mul] at h

theorem pow_left (x : G₂) (y : G₁) (a : ℕ) : e.pair (x ^ a) y = e.pair x y ^ a := by
  induction a with
  | zero => rw [pow_zero, pow_zero, pair_one_left]
  | succ a ih => rw [pow_succ, pow_succ, e.mul_left, ih]

theorem pow_right (x : G₂) (y : G₁) (a : ℕ) : e.pair x (y ^ a) = e.pair x y ^ a := by
  induction a with
  | zero => rw [pow_zero, pow_zero, pair_one_right]
  | succ a ih => rw [pow_succ, pow_succ, e.mul_right, ih]

/-- An exponent moves from one argument to the other. -/
theorem pow_comm (x : G₂) (y : G₁) (a : ℕ) : e.pair (x ^ a) y = e.pair x (y ^ a) := by
  rw [pow_left, pow_right]

/-- The pairing of the two generators has the order of the groups. -/
theorem orderOf_pair_generators : orderOf (e.pair P₂.generator P₁.generator) = P₂.order := by
  apply orderOf_eq_prime
  · rw [← e.pow_left, P₂.pow_order, e.pair_one_left]
  · exact e.nondegenerate

/-- The residues modulo a prime, paired by their product. -/
def residues (p : ℕ) [Fact p.Prime] :
    BilinearPairing (Multiplicative (ZMod p)) (PrimeGroup.residues p) (PrimeGroup.residues p) where
  pair x y := Multiplicative.ofAdd (Multiplicative.toAdd x * Multiplicative.toAdd y)
  mul_left x x' y := by rw [toAdd_mul, add_mul, ofAdd_add]
  mul_right x y y' := by rw [toAdd_mul, mul_add, ofAdd_add]
  order_eq := rfl
  nondegenerate := by
    change Multiplicative.ofAdd ((1 : ZMod p) * 1) ≠ 1
    rw [mul_one, Ne, ofAdd_eq_one]
    exact one_ne_zero

/-- Pairing with the generator of the second group is injective. -/
theorem pair_generator_inj {x x' : G₂} : e.pair x P₁.generator = e.pair x' P₁.generator ↔ x = x' := by
  refine ⟨fun h => ?_, fun h => h ▸ rfl⟩
  obtain ⟨a, rfl⟩ := P₂.exists_pow x
  obtain ⟨b, rfl⟩ := P₂.exists_pow x'
  rw [e.pow_left, e.pow_left, pow_eq_pow_iff_modEq, e.orderOf_pair_generators] at h
  rw [P₂.generator_pow_inj, ZMod.natCast_eq_natCast_iff]
  exact h

/-- Pairing with anything but the neutral element is injective in the other argument. -/
theorem pair_right_inj {x : G₂} (hx : x ≠ 1) {y y' : G₁} : e.pair x y = e.pair x y' ↔ y = y' := by
  refine ⟨fun h => ?_, fun h => h ▸ rfl⟩
  obtain ⟨a, rfl⟩ := P₂.exists_pow x
  obtain ⟨b, rfl⟩ := P₁.exists_pow y
  obtain ⟨b', rfl⟩ := P₁.exists_pow y'
  have hcoprime : P₂.order.Coprime a := by
    rw [P₂.prime.coprime_iff_not_dvd, ← P₂.orderOf_generator, orderOf_dvd_iff_pow_eq_one]
    exact hx
  rw [e.pow_right, e.pow_right, e.pow_left, ← pow_mul, ← pow_mul, pow_eq_pow_iff_modEq,
    e.orderOf_pair_generators] at h
  rw [P₁.generator_pow_inj, ZMod.natCast_eq_natCast_iff, ← e.order_eq]
  exact Nat.ModEq.cancel_left_of_coprime hcoprime h

end BilinearPairing
