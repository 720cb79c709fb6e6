import QuorumCrypt.Schemes.Common
import QuorumCrypt.Schemes.BigInt
import Mathlib.Algebra.BigOperators.Fin
import Mathlib.Data.List.GetD

/-!
# The two evaluations of a polynomial

`dl_schemes/common.rs`: `horner`, which the dealer uses, and `eval_pol`, which only the tests use. The
one multiplies by the point at every coefficient, the other raises the point to a power for every
coefficient but the last. Both walk over the coefficients from the highest on, so each is described by
what it has after the first ones.

`eval_pol` casts the number of coefficients to `i32`. Of `2 ^ 31` coefficients or more it takes too few,
or it panics.
-/

namespace QuorumCrypt

open Rust BigInt

/-! ### The value -/

/-- The value at `x` of the polynomial with coefficients `a`, highest first. -/
def coefficientSum (x : ℕ) (a : List ℕ) : ℕ := ∑ i : Fin a.length, a[i] * x ^ (a.length - 1 - i)

def polynomialValue (q x : ℕ) (a : List ℕ) : ℕ := coefficientSum x a % q

theorem coefficientSum_eq_sum_range (x : ℕ) (a : List ℕ) :
    coefficientSum x a = ∑ i ∈ Finset.range a.length, a.getD i 0 * x ^ (a.length - 1 - i) := by
  rw [coefficientSum, ← Fin.sum_univ_eq_sum_range (fun i => a.getD i 0 * x ^ (a.length - 1 - i))]
  refine Finset.sum_congr rfl fun i _ => ?_
  rw [List.getD_eq_getElem _ _ i.isLt, Fin.getElem_fin]

theorem coefficientSum_nil (x : ℕ) : coefficientSum x [] = 0 := rfl

theorem coefficientSum_singleton (x c : ℕ) : coefficientSum x [c] = c := by
  rw [coefficientSum_eq_sum_range]
  simp

/-- One more coefficient at the end. -/
theorem coefficientSum_append_singleton (x : ℕ) (a : List ℕ) (c : ℕ) :
    coefficientSum x (a ++ [c]) = coefficientSum x a * x + c := by
  rw [coefficientSum_eq_sum_range, coefficientSum_eq_sum_range, List.length_append,
    List.length_singleton, Finset.sum_range_succ, Finset.sum_mul]
  congr 1
  · refine Finset.sum_congr rfl fun i hi => ?_
    rw [Finset.mem_range] at hi
    have hexponent : a.length + 1 - 1 - i = a.length - 1 - i + 1 := by omega
    rw [List.getD_append _ _ _ _ hi, hexponent, pow_succ, mul_assoc]
  · rw [List.getD_append_right _ _ _ _ le_rfl]
    simp

theorem coefficientSum_take_succ (x : ℕ) {a : List ℕ} {i : ℕ} (hi : i < a.length) :
    coefficientSum x (a.take (i + 1)) = coefficientSum x (a.take i) * x + a[i] := by
  rw [List.take_succ_eq_append_getElem hi, coefficientSum_append_singleton]

/-! ### `horner` -/

/-- What `horner` has after so many turns of its loop. -/
def hornerAfter (q x : ℕ) (a : List ℕ) (ha : a ≠ []) (turns : ℕ) : ℕ :=
  (a.tail.take turns).foldl (fun result c => (mulMod result x q + c) % q) (a.head ha)

theorem horner_eq_hornerAfter (q x : ℕ) (a : List ℕ) (ha : a ≠ []) :
    horner q x a ha = hornerAfter q x a ha (a.length - 1) := by
  rw [horner, hornerAfter, List.take_of_length_le (List.length_tail).le]

/-- After so many turns `horner` has the value of the coefficients it has met. -/
theorem hornerAfter_eq {q x : ℕ} {a : List ℕ} (ha : a ≠ []) (hhead : a.head ha < q) {turns : ℕ}
    (hturns : turns < a.length) :
    hornerAfter q x a ha turns = polynomialValue q x (a.take (turns + 1)) := by
  induction turns with
  | zero =>
      obtain ⟨c, rest, rfl⟩ := List.exists_cons_of_ne_nil ha
      rw [hornerAfter, List.take_zero, List.foldl_nil, List.head_cons, polynomialValue,
        List.take_succ_cons, List.take_zero, coefficientSum_singleton]
      exact (Nat.mod_eq_of_lt hhead).symm
  | succ turns ih =>
      have hlast : turns < a.tail.length := by rw [List.length_tail]; omega
      have hprevious := ih (by omega)
      rw [hornerAfter] at hprevious
      rw [hornerAfter, List.take_succ_eq_append_getElem hlast, List.foldl_append, hprevious,
        List.foldl_cons, List.foldl_nil, List.getElem_tail, mulMod, polynomialValue, polynomialValue,
        coefficientSum_take_succ x hturns, Nat.mod_add_mod]
      exact ((Nat.mod_modEq _ _).mul_right x).add_right _

theorem hornerAfter_lt {q x : ℕ} {a : List ℕ} (ha : a ≠ []) (hhead : a.head ha < q) (turns : ℕ) :
    hornerAfter q x a ha turns < q := by
  have hfold : ∀ (coeffs : List ℕ) {result : ℕ}, result < q →
      coeffs.foldl (fun result c => (mulMod result x q + c) % q) result < q := by
    intro coeffs
    induction coeffs with
    | nil =>
        intro result hresult
        exact hresult
    | cons c coeffs ih =>
        intro result hresult
        exact ih (Nat.mod_lt _ (Nat.zero_lt_of_lt hresult))
  exact hfold _ hhead

theorem horner_eq_value {q x : ℕ} {a : List ℕ} (ha : a ≠ []) (hhead : a.head ha < q) :
    horner q x a ha = polynomialValue q x a := by
  have hpos := List.length_pos_iff.mpr ha
  rw [horner_eq_hornerAfter, hornerAfter_eq ha hhead (by omega), Nat.sub_add_cancel hpos,
    List.take_length]

/-! ### `eval_pol` -/

/-- `n as i32`. -/
def asI32 (n : ℕ) : ℤ := Int.bmod n (2 ^ 32)

/-- One turn of the loop. -/
def evalPolTurn (q x : ℕ) (a : List ℕ) (len : ℤ) (val i : ℕ) : SchemeOutcome ℕ := do
  let tmp ← Outcome.index a i
  let xi := powModNat x (len - i - 1).toNat q
  .ok ((val + mulMod tmp xi q) % q)

/-- What `eval_pol` has after so many turns of its loop. -/
def evalPolAfter (q x : ℕ) (a : List ℕ) (turns : ℕ) : SchemeOutcome ℕ :=
  (List.range turns).foldlM (evalPolTurn q x a (asI32 a.length)) 0

/-- Evaluate the polynomial with coefficients `a`, highest first. The subtraction overflows on the
least `i32`, and a negative index is beyond the end of every vector. -/
def evalPol (q x : ℕ) (a : List ℕ) : SchemeOutcome ℕ :=
  let len := asI32 a.length
  if len = -2 ^ 31 then .panic
  else do
    let val ← evalPolAfter q x a (len - 1).toNat
    if len - 1 < 0 then .panic
    else do
      let last ← Outcome.index a (len - 1).toNat
      .ok ((val + last) % q)

/-! ### What `eval_pol` returns -/

theorem asI32_of_lt {n : ℕ} (h : n < 2 ^ 31) : asI32 n = n := by
  unfold asI32 Int.bmod
  dsimp only
  push_cast
  split <;> omega

theorem asI32_le (n : ℕ) : asI32 n ≤ n := by
  unfold asI32 Int.bmod
  dsimp only
  push_cast
  split <;> omega

theorem evalPolTurn_eq (q x : ℕ) {a : List ℕ} {w i : ℕ} (hi : i < a.length) (hturn : i < w) (val : ℕ) :
    evalPolTurn q x a w val i = .ok ((val + a[i] * x ^ (w - (i + 1))) % q) := by
  have hindex : (Outcome.index a i : SchemeOutcome ℕ) = .ok a[i] :=
    Outcome.index_eq_ok.mpr (List.getElem?_eq_getElem hi)
  have hexponent : ((w : ℤ) - i - 1).toNat = w - (i + 1) := by omega
  rw [evalPolTurn, hindex, Outcome.ok_bind, hexponent]
  dsimp only
  rw [mulMod, powModNat_eq, Nat.mul_mod_mod, Nat.add_mod_mod]

/-- After so many turns `eval_pol` has the terms of the coefficients it has met. -/
theorem evalPolAfter_eq (q x : ℕ) {a : List ℕ} {w : ℕ} (hw : asI32 a.length = w) {turns : ℕ}
    (hturns : turns < w) :
    evalPolAfter q x a turns = .ok (coefficientSum x (a.take turns) * x ^ (w - turns) % q) := by
  have hle : w ≤ a.length := by
    have hcast := asI32_le a.length
    omega
  induction turns with
  | zero =>
      rw [List.take_zero, coefficientSum_nil, Nat.zero_mul, Nat.zero_mod]
      rfl
  | succ turns ih =>
      have hprevious := ih (by omega)
      have hexponent : w - turns = w - (turns + 1) + 1 := by omega
      rw [evalPolAfter, List.range_succ]
      refine Outcome.foldlM_append_singleton.mpr ⟨_, hprevious, ?_⟩
      have hlast : turns < a.length := by omega
      have hsum : coefficientSum x (a.take turns) * x ^ (w - turns) + a[turns] * x ^ (w - (turns + 1))
          = coefficientSum x (a.take (turns + 1)) * x ^ (w - (turns + 1)) := by
        rw [coefficientSum_take_succ x hlast, hexponent, add_mul, mul_assoc, ← pow_succ']
      rw [hw, evalPolTurn_eq q x hlast (by omega), Nat.mod_add_mod, hsum]

/-- `eval_pol` evaluates the first coefficients, as many as the cast says, and panics unless it says that
there is one. -/
theorem evalPol_eq (q x : ℕ) (a : List ℕ) :
    evalPol q x a
      = if 0 < asI32 a.length then .ok (polynomialValue q x (a.take (asI32 a.length).toNat))
        else .panic := by
  by_cases hpos : 0 < asI32 a.length
  · obtain ⟨w, hw⟩ := Int.eq_ofNat_of_zero_le hpos.le
    have hle := asI32_le a.length
    rw [hw] at hpos hle
    have hturns : ((w : ℤ) - 1).toNat = w - 1 := by omega
    have hlast : w - 1 < a.length := by omega
    have hindex : (Outcome.index a (w - 1) : SchemeOutcome ℕ) = .ok a[w - 1] :=
      Outcome.index_eq_ok.mpr (List.getElem?_eq_getElem hlast)
    have htake := coefficientSum_take_succ x hlast
    have hone : w - (w - 1) = 1 := by omega
    rw [Nat.sub_add_cancel (by omega)] at htake
    rw [evalPol, hw, if_neg (by omega), hturns, evalPolAfter_eq q x hw (by omega), Outcome.ok_bind,
      if_neg (by omega), hindex, Outcome.ok_bind, if_pos hpos, Int.toNat_natCast, polynomialValue,
      htake, Nat.mod_add_mod, hone, pow_one]
  · have hnegative : asI32 a.length - 1 < 0 := by omega
    have hturns : (asI32 a.length - 1).toNat = 0 := Int.toNat_of_nonpos hnegative.le
    have hnone : evalPolAfter q x a 0 = .ok 0 := rfl
    rw [if_neg hpos, evalPol, hturns, hnone, Outcome.ok_bind, if_pos hnegative, ite_self]

theorem evalPolAfter_lt {q x : ℕ} {a : List ℕ} (hq : 0 < q) {turns val : ℕ}
    (h : evalPolAfter q x a turns = .ok val) : val < q := by
  cases turns with
  | zero =>
      obtain rfl := Outcome.ok.inj h
      exact hq
  | succ turns =>
      rw [evalPolAfter, List.range_succ] at h
      obtain ⟨previous, -, hturn⟩ := Outcome.foldlM_append_singleton.mp h
      obtain ⟨tmp, -, heq⟩ := Outcome.bind_eq_ok.mp hturn
      obtain rfl := Outcome.ok.inj heq
      exact Nat.mod_lt _ hq

/-! ### When they agree -/

/-- Both evaluations return the value of the polynomial, and whatever they have on the way is reduced. -/
structure EvaluationsAgree (q x : ℕ) (a : List ℕ) (ha : a ≠ []) : Prop where
  horner_eq : horner q x a ha = polynomialValue q x a
  evalPol_eq : evalPol q x a = .ok (polynomialValue q x a)
  horner_reduced : ∀ turns, hornerAfter q x a ha turns < q
  evalPol_reduced : ∀ turns val, evalPolAfter q x a turns = .ok val → val < q

/-- They agree on fewer than `2 ^ 31` coefficients. On more they do only if the cast leaves a positive
number of them, and those that are cut off make no difference. -/
theorem evaluations_agree_iff {q : ℕ} (hq : q.Prime) (x : ℕ) {a : List ℕ} (ha : a ≠ [])
    (hcoeffs : ∀ c ∈ a, c < q) :
    EvaluationsAgree q x a ha
      ↔ a.length < 2 ^ 31
        ∨ (0 < asI32 a.length
          ∧ polynomialValue q x (a.take (asI32 a.length).toNat) = polynomialValue q x a) := by
  have hhead : a.head ha < q := hcoeffs _ (List.head_mem ha)
  have hagree : EvaluationsAgree q x a ha ↔ 0 < asI32 a.length
      ∧ polynomialValue q x (a.take (asI32 a.length).toNat) = polynomialValue q x a := by
    constructor
    · intro h
      have heval := h.evalPol_eq
      rw [evalPol_eq] at heval
      by_cases hpos : 0 < asI32 a.length
      · rw [if_pos hpos] at heval
        exact ⟨hpos, Outcome.ok.inj heval⟩
      · rw [if_neg hpos] at heval
        cases heval
    · rintro ⟨hpos, hvalue⟩
      exact
        { horner_eq := horner_eq_value ha hhead
          evalPol_eq := by rw [evalPol_eq, if_pos hpos, hvalue]
          horner_reduced := hornerAfter_lt ha hhead
          evalPol_reduced := fun _ _ h => evalPolAfter_lt hq.pos h }
  rw [hagree]
  refine ⟨Or.inr, ?_⟩
  rintro (hshort | hcut)
  · have hlength := List.length_pos_iff.mpr ha
    rw [asI32_of_lt hshort, Int.toNat_natCast, List.take_length]
    exact ⟨by omega, rfl⟩
  · exact hcut

/-- The coefficients of the tests. -/
theorem evaluations_agree_four :
    EvaluationsAgree 7 2 [1, 2, 3] (List.cons_ne_nil _ _) ∧ polynomialValue 7 2 [1, 2, 3] = 4 :=
  ⟨(evaluations_agree_iff Nat.prime_seven 2 _ (by decide)).mpr (.inl (by decide)), by decide⟩

def zeros (n : ℕ) : List ℕ := List.replicate n 0

theorem zeros_succ_ne_nil (n : ℕ) : zeros (n + 1) ≠ [] := List.cons_ne_nil _ _

/-- There are two more zeros than an `i32` can count. Whatever the order of the group, `eval_pol` panics on
them, and `horner` does not. -/
theorem evaluations_disagree_on_zeros :
    (zeros (2 ^ 31 + 1)).length = 2 ^ 31 + 1 ∧ ∀ q : ℕ, q.Prime →
      (∀ c ∈ zeros (2 ^ 31 + 1), c < q)
        ∧ horner q 0 (zeros (2 ^ 31 + 1)) (zeros_succ_ne_nil _)
          = polynomialValue q 0 (zeros (2 ^ 31 + 1))
        ∧ evalPol q 0 (zeros (2 ^ 31 + 1)) = .panic
        ∧ ¬ EvaluationsAgree q 0 (zeros (2 ^ 31 + 1)) (zeros_succ_ne_nil _) := by
  have hlength : (zeros (2 ^ 31 + 1)).length = 2 ^ 31 + 1 := List.length_replicate
  refine ⟨hlength, fun q hq => ?_⟩
  have hcoeffs : ∀ c ∈ zeros (2 ^ 31 + 1), c < q := by
    intro c hc
    rw [List.eq_of_mem_replicate hc]
    exact hq.pos
  have hcast : ¬ 0 < asI32 (zeros (2 ^ 31 + 1)).length := by
    rw [hlength]
    decide
  have hpanic : evalPol q 0 (zeros (2 ^ 31 + 1)) = .panic := by rw [evalPol_eq, if_neg hcast]
  refine ⟨hcoeffs, horner_eq_value _ (hcoeffs _ (List.head_mem _)), hpanic, fun h => ?_⟩
  rw [h.evalPol_eq] at hpanic
  cases hpanic

end QuorumCrypt
