import QuorumCrypt.Schemes.Sh00

/-!
# The exponents of the RSA interpolation

`rsa_schemes/common.rs`: `lag_coeff` multiplies up a numerator and a denominator of either sign and
divides once. For indices of `1..n` and the factor `n!` the division is exact.

`interpolate` casts the ids of the shares to `u8` and hands them to `lag_coeff`, which compares them with
the `u16` id of one share. As long as every id is a byte, the exponents are those of Lagrange
interpolation. With a larger id they are not: at the largest id of the list no other id is skipped, so
there is one factor too many and the exponent has the wrong sign, or is zero.
-/

namespace QuorumCrypt

open Rust BigInt

namespace Sh00ThresholdSignature

/-! ### The sign of an exponent -/

theorem prod_sign_of_neg {xs : List ℚ} (hneg : ∀ x ∈ xs, x < 0) : 0 < (-1) ^ xs.length * xs.prod := by
  induction xs with
  | nil => simp
  | cons x xs ih =>
      have hx : 0 < -x := neg_pos.mpr (hneg x List.mem_cons_self)
      have hrest := ih fun y hy => hneg y (List.mem_cons_of_mem _ hy)
      calc (0 : ℚ) < -x * ((-1) ^ xs.length * xs.prod) := mul_pos hx hrest
        _ = (-1) ^ (x :: xs).length * (x :: xs).prod := by
            rw [List.length_cons, List.prod_cons, pow_succ]
            ring

theorem prod_sign_of_nonpos {xs : List ℤ} (hneg : ∀ x ∈ xs, x ≤ 0) :
    0 ≤ (-1) ^ xs.length * xs.prod := by
  induction xs with
  | nil => simp
  | cons x xs ih =>
      have hx : 0 ≤ -x := neg_nonneg.mpr (hneg x List.mem_cons_self)
      have hrest := ih fun y hy => hneg y (List.mem_cons_of_mem _ hy)
      calc (0 : ℤ) ≤ -x * ((-1) ^ xs.length * xs.prod) := mul_nonneg hx hrest
        _ = (-1) ^ (x :: xs).length * (x :: xs).prod := by
            rw [List.length_cons, List.prod_cons, pow_succ]
            ring

/-- A scaled weight at a point above all the others has one sign for each of them, or is zero. -/
theorem scaledWeight_sign {δ : ℤ} (hδ : 0 ≤ δ) {ids : List ℕ} {i : ℕ} (hlt : ∀ j ∈ ids, j < i) :
    0 ≤ (-1) ^ ids.length * Sharing.scaledWeight δ ids i := by
  have hall : ids.filter (fun j => i ≠ j) = ids := by
    rw [List.filter_eq_self]
    intro j hj
    simpa using (hlt j hj).ne'
  have hdenominator : 0 < (ids.map fun j : ℕ => (i : ℤ) - j).prod := by
    apply List.prod_pos
    intro x hx
    obtain ⟨j, hj, rfl⟩ := List.mem_map.mp hx
    have := hlt j hj
    omega
  have hnumerator : 0 ≤ (-1) ^ ids.length * (δ * (ids.map fun j : ℕ => -(j : ℤ)).prod) := by
    have hneg : ∀ x ∈ ids.map fun j : ℕ => -(j : ℤ), x ≤ 0 := by
      intro x hx
      obtain ⟨j, -, rfl⟩ := List.mem_map.mp hx
      omega
    have hsign := prod_sign_of_nonpos hneg
    rw [List.length_map] at hsign
    rw [mul_left_comm]
    exact mul_nonneg hδ hsign
  rw [Sharing.scaledWeight, hall]
  obtain heven | hodd := neg_one_pow_eq_or ℤ ids.length
  · rw [heven, one_mul] at hnumerator ⊢
    exact Int.tdiv_nonneg hnumerator hdenominator.le
  · rw [hodd, neg_one_mul] at hnumerator ⊢
    rw [← Int.neg_tdiv]
    exact Int.tdiv_nonneg hnumerator hdenominator.le

/-! ### The exponents that interpolation needs -/

/-- The exponent that belongs to party `i` among the parties `ids`. -/
def exponentOf (n : ℕ) (ids : List ℕ) (i : ℕ) : ℚ :=
  2 * n.factorial * ((ids.filter fun j => i ≠ j).map fun j : ℕ => -(j : ℚ) / (i - j)).prod

/-- What correct interpolation of a list of shares under `n` parties is. Every exponent is the one that
belongs to the ids of the list, and whatever key the shares are correct for, the result is the fourth
power of the hashed message, raised to the secret exponent. -/
structure InterpolatesRight (n : ℕ) (shares : List Sh00SignatureShare) : Prop where
  exponents : ∀ s ∈ shares,
    (lagCoeff (shares.map fun share => share.id.toUInt8) s.id.toNat (fac n) : ℚ)
      = exponentOf n (shares.map fun share => share.id.toNat) s.id.toNat
  result : ∀ {group : Group}, group.isDl = false → ∀ (draw : Sh00Draw group.modsize) (e : ℕ) {k x : ℕ},
    1 ≤ k → k ≤ shares.length → x.Coprime draw.primes.modulus →
    (∀ s ∈ shares, s.xi ≡ x ^ (2 * dealtRsaShare k n e draw s.id) [MOD draw.primes.modulus]) →
    ∃ w, interpolate shares draw.primes.modulus (fac n) = .ok w
      ∧ w ≡ x ^ (4 * BigInt.invMod e draw.primes.order) [MOD draw.primes.modulus]

theorem exponentOf_eq_weight (n : ℕ) (ids : List ℕ) (i : ℕ) :
    exponentOf n ids i = 2 * (n.factorial * Sharing.weight ids (fun j : ℕ => (j : ℚ)) i) := by
  rw [exponentOf, Sharing.weight, mul_assoc]
  congr 3
  apply List.map_congr_left
  intro j _
  rw [← neg_sub (j : ℚ), neg_div_neg_eq, div_eq_mul_inv]

/-- At the largest id every factor is negative. -/
theorem exponentOf_sign (n : ℕ) {ids : List ℕ} (hnodup : ids.Nodup) {i : ℕ} (hi : i ∈ ids)
    (hpos : ∀ j ∈ ids, 1 ≤ j) (hmax : ∀ j ∈ ids, j ≤ i) :
    (-1) ^ ids.length * exponentOf n ids i < 0 := by
  have hlength : ids.length = (ids.filter fun j => i ≠ j).length + 1 := by
    have hcount := List.length_eq_length_filter_add (l := ids) fun j => decide (i ≠ j)
    have hone : (ids.filter fun j => !decide (i ≠ j)).length = 1 := by
      rw [← List.countP_eq_length_filter, ← List.count_eq_one_of_mem hnodup hi, List.count]
      congr 1
      ext j
      rw [← Bool.coe_iff_coe, beq_iff_eq]
      simp [eq_comm]
    omega
  have hneg : ∀ x ∈ (ids.filter fun j => i ≠ j).map fun j : ℕ => -(j : ℚ) / (i - j), x < 0 := by
    intro x hx
    obtain ⟨j, hj, rfl⟩ := List.mem_map.mp hx
    obtain ⟨hj, hne⟩ := List.mem_filter.mp hj
    have hlt : j < i := lt_of_le_of_ne (hmax j hj) fun h => by simp [h] at hne
    have hjpos : 0 < (j : ℚ) := by exact_mod_cast hpos j hj
    have hsub : 0 < (i : ℚ) - j := sub_pos.mpr (by exact_mod_cast hlt)
    exact div_neg_of_neg_of_pos (neg_neg_of_pos hjpos) hsub
  have hsign := prod_sign_of_neg hneg
  rw [List.length_map] at hsign
  have hfactor : (0 : ℚ) < 2 * n.factorial := by positivity
  have hprod := mul_pos hfactor hsign
  rw [hlength, pow_succ, exponentOf]
  linarith

/-! ### The division in `lag_coeff` -/

/-- What `lag_coeff` divides, and what by. -/
def lagTerms (indices : List UInt8) (i d : ℤ) : ℤ × ℤ :=
  indices.foldl (fun (acc : ℤ × ℤ) index =>
    let j : ℤ := index.toNat
    if i ≠ j then (acc.1 * -j, acc.2 * (i - j)) else acc) (d, 1)

theorem lagCoeff_eq_lagTerms (indices : List UInt8) (i d : ℤ) :
    lagCoeff indices i d
      = (lagTerms indices i d).1.tdiv (lagTerms indices i d).2
        + (lagTerms indices i d).1.tdiv (lagTerms indices i d).2 := rfl

def otherIndices (indices : List UInt8) (i : UInt8) : List ℕ :=
  (indices.map UInt8.toNat).filter fun j => i.toNat ≠ j

/-- Among different indices of `1..n` the division has no remainder, whatever the signs, so the
coefficient is the exponent that belongs to its index. -/
theorem lagCoeff_divides_exactly {n : ℕ} {indices : List UInt8} (hnodup : indices.Nodup)
    (hrange : ∀ j ∈ indices, 1 ≤ j.toNat ∧ j.toNat ≤ n) {i : UInt8} (hi : i ∈ indices) :
    ∃ numerator denominator : ℤ,
      lagTerms indices i.toNat (fac n) = (numerator, denominator)
        ∧ numerator = fac n * ((otherIndices indices i).map fun j : ℕ => -(j : ℤ)).prod
        ∧ denominator = ((otherIndices indices i).map fun j : ℕ => (i.toNat : ℤ) - j).prod
        ∧ denominator ≠ 0 ∧ denominator ∣ numerator ∧ numerator.tmod denominator = 0
        ∧ (∃ quotient, numerator = denominator * quotient
          ∧ lagCoeff indices i.toNat (fac n) = quotient + quotient)
        ∧ (lagCoeff indices i.toNat (fac n) : ℚ)
          = 2 * n.factorial
            * ((otherIndices indices i).map fun j : ℕ => -(j : ℚ) / (i.toNat - j)).prod := by
  have hids : (indices.map UInt8.toNat).Nodup := hnodup.map fun _ _ => UInt8.toNat_inj.mp
  have hbounds : ∀ j ∈ indices.map UInt8.toNat, 1 ≤ j ∧ j ≤ n := by
    intro j hj
    obtain ⟨index, hindex, rfl⟩ := List.mem_map.mp hj
    exact hrange index hindex
  obtain ⟨hpos, hle⟩ := hrange i hi
  have hterms : lagTerms indices i.toNat (fac n)
      = (fac n * ((otherIndices indices i).map fun j : ℕ => -(j : ℤ)).prod,
          ((otherIndices indices i).map fun j : ℕ => (i.toNat : ℤ) - j).prod) := by
    rw [lagTerms, foldl_lagCoeff, one_mul, otherIndices]
  have hdvd : ((otherIndices indices i).map fun j : ℕ => (i.toNat : ℤ) - j).prod
      ∣ fac n * ((otherIndices indices i).map fun j : ℕ => -(j : ℤ)).prod := by
    apply Dvd.dvd.mul_right
    rw [fac_eq_factorial]
    exact Sharing.prod_others_dvd_factorial hids hbounds hpos hle
  have hcoeff := lagCoeff_eq_lagTerms indices i.toNat (fac n)
  rw [hterms] at hcoeff
  refine ⟨_, _, hterms, rfl, rfl, Sharing.prod_others_ne_zero _ _, hdvd,
    Int.tmod_eq_zero_of_dvd hdvd, ⟨_, (Int.mul_tdiv_cancel' hdvd).symm, hcoeff⟩, ?_⟩
  have hweight := exponentOf_eq_weight n (indices.map UInt8.toNat) i.toNat
  rw [← Sharing.cast_scaledWeight hids hbounds hpos hle, ← fac_eq_factorial] at hweight
  rw [lagCoeff_eq_scaledWeight, Int.cast_mul, Int.cast_ofNat]
  exact hweight.symm

/-- The second of three parties of five. Its denominator is negative, its numerator is not. -/
theorem lagCoeff_divides_exactly_five :
    ∃ numerator denominator : ℤ, lagTerms [1, 3, 5] (3 : UInt8).toNat (fac 5) = (numerator, denominator)
      ∧ numerator.tmod denominator = 0 := by
  have hrange : ∀ j ∈ ([1, 3, 5] : List UInt8), 1 ≤ j.toNat ∧ j.toNat ≤ 5 := by simp
  have hthree : (3 : UInt8) ∈ ([1, 3, 5] : List UInt8) := by decide
  obtain ⟨numerator, denominator, hterms, -, -, -, -, hremainder, -⟩ :=
    lagCoeff_divides_exactly (by decide) hrange hthree
  exact ⟨numerator, denominator, hterms, hremainder⟩

section Shares

variable {n : ℕ} {shares : List Sh00SignatureShare}
  (hnodup : (shares.map Sh00SignatureShare.id).Nodup)
  (hids : ∀ s ∈ shares, 1 ≤ s.id.toNat ∧ s.id.toNat ≤ n)

include hnodup in
theorem nodup_toNat : (shares.map fun share => share.id.toNat).Nodup := by
  have hmap := hnodup.map (f := UInt16.toNat) fun _ _ => UInt16.toNat_inj.mp
  rwa [List.map_map] at hmap

include hids in
theorem pos_of_mem_toNat : ∀ j ∈ shares.map fun share => share.id.toNat, 1 ≤ j ∧ j ≤ n := by
  intro j hj
  obtain ⟨s, hs, rfl⟩ := List.mem_map.mp hj
  exact hids s hs

include hnodup hids in
/-- Ids that are bytes keep their values. -/
theorem lagCoeff_eq_exponentOf (hbytes : ∀ s ∈ shares, s.id.toNat ≤ 255) {s : Sh00SignatureShare}
    (hs : s ∈ shares) :
    (lagCoeff (shares.map fun share => share.id.toUInt8) s.id.toNat (fac n) : ℚ)
      = exponentOf n (shares.map fun share => share.id.toNat) s.id.toNat := by
  have hnarrow : ∀ id ∈ shares.map Sh00SignatureShare.id, id.toNat ≤ 255 := by
    intro id hid
    obtain ⟨t, ht, rfl⟩ := List.mem_map.mp hid
    exact hbytes t ht
  have hcoeff := lagCoeff_eq hnarrow s.id (fac n)
  rw [List.map_map, List.map_map] at hcoeff
  obtain ⟨hpos, hle⟩ := hids s hs
  rw [exponentOf_eq_weight, ← Sharing.cast_scaledWeight (nodup_toNat hnodup) (pos_of_mem_toNat hids)
    hpos hle, ← fac_eq_factorial]
  exact_mod_cast congrArg (Int.cast : ℤ → ℚ) hcoeff

include hnodup hids in
/-- With a larger id among them, the exponent of the largest one has the wrong sign. -/
theorem exists_lagCoeff_ne (hwide : ∃ s ∈ shares, 255 < s.id.toNat) :
    ∃ s ∈ shares, (lagCoeff (shares.map fun share => share.id.toUInt8) s.id.toNat (fac n) : ℚ)
      ≠ exponentOf n (shares.map fun share => share.id.toNat) s.id.toNat := by
  obtain ⟨t, ht, hwide⟩ := hwide
  obtain ⟨s, hs, hmax⟩ := shares.toFinset.exists_max_image (fun share => share.id.toNat)
    ⟨t, List.mem_toFinset.mpr ht⟩
  rw [List.mem_toFinset] at hs
  refine ⟨s, hs, fun heq => ?_⟩
  have hbelow : ∀ j ∈ (shares.map fun share => share.id.toUInt8).map UInt8.toNat, j < s.id.toNat := by
    intro j hj
    rw [List.map_map] at hj
    obtain ⟨r, -, rfl⟩ := List.mem_map.mp hj
    have hbyte : r.id.toUInt8.toNat < 256 := UInt8.toNat_lt _
    have hle := hmax t (List.mem_toFinset.mpr ht)
    exact lt_of_lt_of_le hbyte (by omega)
  have hcode := scaledWeight_sign (Int.natCast_nonneg (fac n)) hbelow
  have htrue := exponentOf_sign n (nodup_toNat hnodup) (List.mem_map_of_mem hs)
    (fun j hj => (pos_of_mem_toNat hids j hj).1) (fun j hj => by
      obtain ⟨r, hr, rfl⟩ := List.mem_map.mp hj
      exact hmax r (List.mem_toFinset.mpr hr))
  rw [← heq, lagCoeff_eq_scaledWeight, List.length_map] at htrue
  rw [List.length_map, List.length_map] at hcode
  have hcast : (0 : ℚ) ≤ (-1) ^ shares.length * (Sharing.scaledWeight (fac n)
      ((shares.map fun share => share.id.toUInt8).map UInt8.toNat) s.id.toNat : ℤ) := by
    exact_mod_cast hcode
  push_cast at htrue hcast
  linarith

include hnodup hids in
/-- Correct shares of parties whose ids are bytes interpolate to the power of the hashed message. -/
theorem exists_interpolate (hn : n ≤ 65535) (hbytes : ∀ s ∈ shares, s.id.toNat ≤ 255) {group : Group}
    (hgroup : group.isDl = false) (draw : Sh00Draw group.modsize) (e : ℕ) {k x : ℕ} (hk : 1 ≤ k)
    (hlength : k ≤ shares.length) (hx : x.Coprime draw.primes.modulus)
    (hdata : ∀ s ∈ shares,
      s.xi ≡ x ^ (2 * dealtRsaShare k n e draw s.id) [MOD draw.primes.modulus]) :
    ∃ w, interpolate shares draw.primes.modulus (fac n) = .ok w
      ∧ w ≡ x ^ (4 * BigInt.invMod e draw.primes.order) [MOD draw.primes.modulus] := by
  have hlarge : n < 2 ^ (group.modsize / 2 - 3) := by
    have hmodsize : 512 ≤ group.modsize := by
      cases group <;> simp [Group.isDl] at hgroup <;> simp [Group.modsize]
    calc n < 2 ^ 16 := by omega
      _ ≤ 2 ^ (group.modsize / 2 - 3) := Nat.pow_le_pow_right (by decide) (by omega)
  obtain ⟨xUnit, hxUnit⟩ := (ZMod.isUnit_iff_coprime x draw.primes.modulus).mpr hx
  have hpowers : ∀ s ∈ shares, (s.xi : ZMod draw.primes.modulus)
      = (xUnit ^ (2 * dealingShare k n e draw.dealing s.id) : (ZMod draw.primes.modulus)ˣ) := by
    intro s hs
    rw [(ZMod.natCast_eq_natCast_iff _ _ _).mpr (hdata s hs), Nat.cast_pow, ← hxUnit,
      Units.val_pow_eq_pow_val]
  refine ⟨_, interpolate_eq_ok draw.dealing hk (coprime_fac draw hlarge) xUnit hpowers hnodup
    (fun s hs => ⟨(hids s hs).1, (hids s hs).2, hbytes s hs⟩) hlength, ?_⟩
  rw [← ZMod.natCast_eq_natCast_iff, ZMod.natCast_zmod_val, ← pow_mul, Units.val_pow_eq_pow_val,
    hxUnit, Nat.cast_pow]

end Shares

/-- Interpolation of shares of different parties is right exactly when every id is a byte. -/
theorem interpolates_right_iff {n : ℕ} (hn : 1 ≤ n ∧ n ≤ 65535) {shares : List Sh00SignatureShare}
    (hnodup : (shares.map Sh00SignatureShare.id).Nodup)
    (hids : ∀ s ∈ shares, 1 ≤ s.id.toNat ∧ s.id.toNat ≤ n) :
    InterpolatesRight n shares ↔ ∀ s ∈ shares, s.id.toNat ≤ 255 := by
  constructor
  · intro hright
    by_contra hwide
    push Not at hwide
    obtain ⟨s, hs, hne⟩ := exists_lagCoeff_ne hnodup hids hwide
    exact hne (hright.exponents s hs)
  · intro hbytes
    exact
      { exponents := fun s hs => lagCoeff_eq_exponentOf hnodup hids hbytes hs
        result := fun hgroup draw e _ _ hk hlength hx hdata =>
          exists_interpolate hnodup hids hn.2 hbytes hgroup draw e hk hlength hx hdata }

/-- The share of a party, without its proof. -/
def bareShare (id : UInt16) (xi : ℕ) : Sh00SignatureShare :=
  { group := .rsa512, id, label := [], xi, z := 0, c := 0 }

/-- Parties 1 and 255 of 255. -/
theorem interpolates_right_255 :
    InterpolatesRight 255 [bareShare 1 5, bareShare 255 7]
      ∧ ∀ s ∈ [bareShare 1 5, bareShare 255 7], s.id.toNat ≤ 255 := by
  have hbytes : ∀ s ∈ [bareShare 1 5, bareShare 255 7], s.id.toNat ≤ 255 := by decide
  exact ⟨(interpolates_right_iff (by decide) (by decide) (by decide)).mpr hbytes, hbytes⟩

/-- Party 256 of 256 signs alone: its id is cast to zero, and so is its exponent, which should be
`2 * 256!`. -/
theorem exponent_of_256_zero :
    lagCoeff ([bareShare 256 5].map fun share => share.id.toUInt8) 256 (fac 256) = 0
      ∧ exponentOf 256 ([bareShare 256 5].map fun share => share.id.toNat) 256 = 2 * Nat.factorial 256
      ∧ ¬ InterpolatesRight 256 [bareShare 256 5] := by
  have hcode : ∀ d, lagCoeff ([bareShare 256 5].map fun share => share.id.toUInt8) 256 d = 0 := by
    intro d
    simp [lagCoeff, bareShare]
  have htrue : ∀ n, exponentOf n ([bareShare 256 5].map fun share => share.id.toNat) 256
      = 2 * Nat.factorial n := by
    intro n
    simp [exponentOf, bareShare]
  refine ⟨hcode _, htrue _, fun hright => ?_⟩
  have hshare := hright.exponents (bareShare 256 5) List.mem_cons_self
  change ((lagCoeff _ 256 _ : ℤ) : ℚ) = exponentOf 256 _ 256 at hshare
  rw [hcode, htrue, Int.cast_zero] at hshare
  have hpos : (0 : ℚ) < 2 * Nat.factorial 256 := by positivity
  exact hpos.ne hshare

end Sh00ThresholdSignature

end QuorumCrypt
