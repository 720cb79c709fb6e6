import Mathlib.LinearAlgebra.Lagrange
import Mathlib.Data.Nat.Choose.Basic
import Mathlib.Algebra.BigOperators.Intervals

/-!
# Sharing a secret by a polynomial

The field mathematics of a threshold sharing. The secret is the value at zero of a polynomial of
degree below the threshold, a share is its value at a nonzero point, and any list of enough distinct
points gives the secret back as a combination of the shares whose coefficients depend on the points
alone. When the shares are integers and no division is possible, the coefficients are scaled by `n!`.
The polynomial is given by the list of its coefficients, highest first, because that is the order in
which it is evaluated by Horner's rule.
-/

open Polynomial

namespace Sharing

variable {F : Type} [Field F]

/-- The polynomial with these coefficients, highest first. -/
noncomputable def polynomial (a : List F) : F[X] := a.foldl (fun p c => p * X + C c) 0

theorem polynomial_append (a : List F) (c : F) : polynomial (a ++ [c]) = polynomial a * X + C c := by
  rw [polynomial, List.foldl_append]
  rfl

theorem degree_polynomial_lt (a : List F) : (polynomial a).degree < a.length := by
  induction a using List.reverseRecOn with
  | nil =>
      rw [polynomial, List.foldl_nil, degree_zero]
      exact WithBot.bot_lt_coe _
  | append_singleton a c ih =>
      rw [polynomial_append, List.length_append, List.length_singleton]
      refine lt_of_le_of_lt (degree_add_le _ _) (max_lt ?_ ?_)
      · by_cases hzero : polynomial a = 0
        · rw [hzero, zero_mul, degree_zero]
          exact WithBot.bot_lt_coe _
        · rw [Polynomial.degree_eq_natDegree hzero] at ih
          rw [degree_mul, degree_X, Polynomial.degree_eq_natDegree hzero]
          have hnat : (polynomial a).natDegree < a.length := by exact_mod_cast ih
          exact_mod_cast Nat.add_lt_add_right hnat 1
      · exact lt_of_le_of_lt degree_C_le (by exact_mod_cast Nat.succ_pos _)

theorem eval_polynomial (a : List F) (x : F) :
    (polynomial a).eval x = a.foldl (fun r c => r * x + c) 0 := by
  induction a using List.reverseRecOn with
  | nil => simp [polynomial]
  | append_singleton a c ih =>
      rw [polynomial_append, List.foldl_append, List.foldl_cons, List.foldl_nil, ← ih]
      simp

/-- The value at zero is the last coefficient. -/
theorem eval_zero_polynomial (a : List F) (c : F) : (polynomial (a ++ [c])).eval 0 = c := by
  rw [polynomial_append]
  simp

/-! ### What fewer shares than the threshold leave open -/

/-- A polynomial has one list of coefficients of a given length. -/
theorem eq_of_polynomial_eq {a b : List F} (hlength : a.length = b.length)
    (h : polynomial a = polynomial b) : a = b := by
  induction a using List.reverseRecOn generalizing b with
  | nil => exact (List.length_eq_zero_iff.mp hlength.symm).symm
  | append_singleton a c ih =>
      obtain rfl | ⟨b, d, rfl⟩ := List.eq_nil_or_concat b
      · simp at hlength
      rw [List.concat_eq_append] at hlength h ⊢
      have hlast : c = d := by
        have heval := congrArg (eval 0) h
        rwa [eval_zero_polynomial, eval_zero_polynomial] at heval
      rw [polynomial_append, polynomial_append, hlast] at h
      have hrest : polynomial a = polynomial b := mul_right_cancel₀ X_ne_zero (add_right_cancel h)
      rw [ih (by simpa using hlength) hrest, hlast]

/-- Once the secret is fixed, as many shares as there are other coefficients determine these. -/
theorem eq_of_shares_eq {ι : Type} [Fintype ι] {v : ι → F} (hinj : Function.Injective v)
    (hne : ∀ i, v i ≠ 0) {a b : List F} (ha : a.length = Fintype.card ι)
    (hb : b.length = Fintype.card ι) {x : F}
    (h : ∀ i, (polynomial (a ++ [x])).eval (v i) = (polynomial (b ++ [x])).eval (v i)) : a = b := by
  classical
  -- the points of the shares and zero, where both have the secret
  set points : Finset F := insert 0 (Finset.univ.image v) with hpoints
  have hcard : points.card = Fintype.card ι + 1 := by
    rw [hpoints, Finset.card_insert_of_notMem, Finset.card_image_of_injective _ hinj,
      Finset.card_univ]
    intro hzero
    obtain ⟨i, -, hi⟩ := Finset.mem_image.mp hzero
    exact hne i hi
  have hdegree : ∀ c : List F, c.length = Fintype.card ι →
      (polynomial (c ++ [x])).degree < points.card := by
    intro c hc
    rw [hcard, ← hc]
    simpa using degree_polynomial_lt (c ++ [x])
  have heq : polynomial (a ++ [x]) = polynomial (b ++ [x]) := by
    apply Polynomial.eq_of_degrees_lt_of_eval_finset_eq points (hdegree a ha) (hdegree b hb)
    intro y hy
    obtain rfl | hy := Finset.mem_insert.mp hy
    · rw [eval_zero_polynomial, eval_zero_polynomial]
    · obtain ⟨i, -, rfl⟩ := Finset.mem_image.mp hy
      exact h i
  have happend := eq_of_polynomial_eq (by simp [ha, hb]) heq
  exact List.append_cancel_right happend

/-! ### The coefficients that recover the value at zero -/

variable {ι : Type} [DecidableEq ι]

/-- The weight of point `i` among the points `ids`. -/
def weight (ids : List ι) (v : ι → F) (i : ι) : F :=
  ((ids.filter fun j => i ≠ j).map fun j => v j * (v j - v i)⁻¹).prod

theorem weight_eq_eval_basis {ids : List ι} (hnodup : ids.Nodup) (v : ι → F) (i : ι) :
    weight ids v i = (Lagrange.basis ids.toFinset v i).eval 0 := by
  have hset : (ids.filter fun j => i ≠ j).toFinset = ids.toFinset.erase i := by
    ext j
    simp only [List.mem_toFinset, List.mem_filter, Finset.mem_erase, decide_eq_true_eq, ne_eq]
    tauto
  rw [weight, ← List.prod_toFinset _ (hnodup.filter _), hset, Lagrange.basis, eval_prod]
  refine Finset.prod_congr rfl fun j _ => ?_
  simp only [Lagrange.basisDivisor, eval_mul, eval_C, eval_sub, eval_X, zero_sub]
  rw [← neg_sub (v j) (v i), inv_neg, neg_mul_neg, mul_comm]

/-- Enough shares at distinct points recover the value at zero. -/
theorem sum_weight_eq_eval_zero {ids : List ι} (hnodup : ids.Nodup) {v : ι → F}
    (hinj : ∀ i ∈ ids, ∀ j ∈ ids, v i = v j → i = j) {p : F[X]} (hdegree : p.degree < ids.length) :
    (ids.map fun i => p.eval (v i) * weight ids v i).sum = p.eval 0 := by
  have hinjOn : Set.InjOn v ids.toFinset := by
    intro i hi j hj h
    exact hinj i (List.mem_toFinset.mp hi) j (List.mem_toFinset.mp hj) h
  have hcard : p.degree < ids.toFinset.card := by rwa [List.toFinset_card_of_nodup hnodup]
  conv_rhs => rw [Lagrange.eq_interpolate hinjOn hcard, Lagrange.interpolate_apply, eval_finsetSum]
  rw [← List.sum_toFinset _ hnodup]
  refine Finset.sum_congr rfl fun i _ => ?_
  rw [weight_eq_eval_basis hnodup, eval_mul, eval_C]

/-! ### Integer weights -/

/-- The distances of `i` to the other points of `1..n` multiply up to a divisor of `n!`. -/
theorem prod_sub_dvd_factorial {n i : ℕ} (hpos : 1 ≤ i) (hle : i ≤ n) :
    (∏ j ∈ (Finset.Icc 1 n).erase i, ((i : ℤ) - j)) ∣ (n.factorial : ℤ) := by
  have hsplit : (Finset.Icc 1 n).erase i = Finset.Ico 1 i ∪ Finset.Ico (i + 1) (n + 1) := by
    ext j
    simp only [Finset.mem_erase, Finset.mem_Icc, Finset.mem_union, Finset.mem_Ico]
    omega
  have hdisjoint : Disjoint (Finset.Ico 1 i) (Finset.Ico (i + 1) (n + 1)) := by
    rw [Finset.disjoint_left]
    intro j hj hj'
    rw [Finset.mem_Ico] at hj hj'
    omega
  have hbelow : ∏ j ∈ Finset.Ico 1 i, ((i : ℤ) - j) = ((i - 1).factorial : ℤ) := by
    rw [Finset.prod_Ico_eq_prod_range, ← Finset.prod_range_reflect,
      ← Finset.prod_range_add_one_eq_factorial, Nat.cast_prod]
    refine Finset.prod_congr rfl fun j hj => ?_
    rw [Finset.mem_range] at hj
    omega
  have habove : ∏ j ∈ Finset.Ico (i + 1) (n + 1), ((i : ℤ) - j) ∣ ((n - i).factorial : ℤ) := by
    rw [Finset.prod_Ico_eq_prod_range, ← Finset.prod_range_add_one_eq_factorial, Nat.cast_prod,
      Nat.add_sub_add_right]
    refine Finset.prod_dvd_prod_of_dvd _ _ fun j _ => ?_
    exact ⟨-1, by push_cast; ring⟩
  rw [hsplit, Finset.prod_union hdisjoint, hbelow]
  refine (mul_dvd_mul_left _ habove).trans ?_
  have hdvd : (i - 1).factorial * (n - i).factorial ∣ n.factorial :=
    (Nat.factorial_mul_factorial_dvd_factorial_add (i - 1) (n - i)).trans
      (Nat.factorial_dvd_factorial (by omega))
  exact_mod_cast hdvd

/-- Those to some of the other points do as well. -/
theorem prod_others_dvd_factorial {n i : ℕ} {ids : List ℕ} (hnodup : ids.Nodup)
    (hids : ∀ j ∈ ids, 1 ≤ j ∧ j ≤ n) (hpos : 1 ≤ i) (hle : i ≤ n) :
    ((ids.filter fun j => i ≠ j).map fun j : ℕ => (i : ℤ) - j).prod ∣ (n.factorial : ℤ) := by
  rw [← List.prod_toFinset _ (hnodup.filter _)]
  refine (Finset.prod_dvd_prod_of_subset _ _ _ ?_).trans (prod_sub_dvd_factorial hpos hle)
  intro j hj
  simp only [List.mem_toFinset, List.mem_filter, decide_eq_true_eq] at hj
  rw [Finset.mem_erase, Finset.mem_Icc]
  exact ⟨fun h => hj.2 h.symm, hids j hj.1⟩

theorem prod_others_ne_zero (ids : List ℕ) (i : ℕ) :
    ((ids.filter fun j => i ≠ j).map fun j : ℕ => (i : ℤ) - j).prod ≠ 0 := by
  intro hzero
  obtain ⟨j, hj, hj'⟩ := List.mem_map.mp (List.prod_eq_zero_iff.mp hzero)
  simp only [List.mem_filter, decide_eq_true_eq] at hj
  omega

/-- The weight of point `i`, scaled by `δ` to an integer. The division truncates. -/
def scaledWeight (δ : ℤ) (ids : List ℕ) (i : ℕ) : ℤ :=
  (δ * ((ids.filter fun j => i ≠ j).map fun j : ℕ => -(j : ℤ)).prod).tdiv
    ((ids.filter fun j => i ≠ j).map fun j : ℕ => (i : ℤ) - j).prod

/-- Scaling by `n!` makes the weights of points of `1..n` integral. -/
theorem cast_scaledWeight {n i : ℕ} {ids : List ℕ} (hnodup : ids.Nodup)
    (hids : ∀ j ∈ ids, 1 ≤ j ∧ j ≤ n) (hpos : 1 ≤ i) (hle : i ≤ n) :
    ((scaledWeight n.factorial ids i : ℤ) : ℚ)
      = n.factorial * weight ids (fun j : ℕ => (j : ℚ)) i := by
  have hdvd := prod_others_dvd_factorial hnodup hids hpos hle
  have hne := prod_others_ne_zero ids i
  rw [scaledWeight, Int.tdiv_eq_ediv_of_dvd (hdvd.mul_right _), Int.cast_div (hdvd.mul_right _)
    (by exact_mod_cast hne), Int.cast_mul, Int.cast_natCast, mul_div_assoc, weight]
  congr 1
  rw [Int.cast_list_prod, Int.cast_list_prod, List.map_map, List.map_map]
  clear hdvd hne
  generalize hothers : ids.filter (fun j => i ≠ j) = others
  have hmem : ∀ j ∈ others, i ≠ j := by
    intro j hj
    rw [← hothers] at hj
    simpa using (List.mem_filter.mp hj).2
  clear hothers
  induction others with
  | nil => simp
  | cons j others ih =>
      have hsub : (i : ℚ) - j ≠ 0 := by
        intro h
        exact hmem j List.mem_cons_self (by exact_mod_cast sub_eq_zero.mp h)
      have hsub' : (j : ℚ) - i ≠ 0 := by
        intro h
        exact hsub (by rw [← neg_sub, h, neg_zero])
      rw [List.map_cons, List.map_cons, List.map_cons, List.prod_cons, List.prod_cons,
        List.prod_cons, mul_div_mul_comm, ih fun j hj => hmem j (List.mem_cons_of_mem _ hj)]
      congr 1
      simp only [Function.comp_apply, Int.cast_neg, Int.cast_natCast, Int.cast_sub]
      field_simp
      ring

/-- Enough values of an integer polynomial recover its value at zero, scaled by `n!`. -/
theorem sum_scaledWeight_eq {n : ℕ} {ids : List ℕ} (hnodup : ids.Nodup)
    (hids : ∀ j ∈ ids, 1 ≤ j ∧ j ≤ n) {p : ℤ[X]} (hdegree : p.degree < ids.length) :
    (ids.map fun i : ℕ => p.eval (i : ℤ) * scaledWeight n.factorial ids i).sum
      = n.factorial * p.eval 0 := by
  have hinj : ∀ i ∈ ids, ∀ j ∈ ids, ((i : ℕ) : ℚ) = (j : ℚ) → i = j := by
    intro i _ j _ h
    exact_mod_cast h
  have hdegree' : (p.map (Int.castRingHom ℚ)).degree < ids.length :=
    lt_of_le_of_lt degree_map_le hdegree
  have hrational := sum_weight_eq_eval_zero hnodup hinj hdegree'
  have hcast : ∀ x : ℤ, (p.map (Int.castRingHom ℚ)).eval (x : ℚ) = ((p.eval x : ℤ) : ℚ) := by
    intro x
    rw [eval_map, eval₂_at_intCast, Int.cast_id]
    rfl
  apply (Int.cast_injective : Function.Injective (Int.cast : ℤ → ℚ))
  rw [Int.cast_mul, Int.cast_natCast, ← hcast, Int.cast_zero, ← hrational, Int.cast_list_sum,
    List.map_map, ← List.sum_map_mul_left]
  refine congrArg List.sum (List.map_congr_left fun i hi => ?_)
  rw [Function.comp_apply, Int.cast_mul, cast_scaledWeight hnodup hids (hids i hi).1 (hids i hi).2,
    ← hcast, Int.cast_natCast]
  ring
end Sharing
