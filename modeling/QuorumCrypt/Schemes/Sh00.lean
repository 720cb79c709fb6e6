import QuorumCrypt.Schemes.BigInt
import QuorumCrypt.Schemes.Common
import QuorumCrypt.Base.SafePrimes
import Mathlib.NumberTheory.LegendreSymbol.JacobiSymbol
import Mathlib.Data.Nat.Prime.Factorial
import Mathlib.Tactic.NormNum.LegendreSymbol

/-!
# The Sh00 threshold RSA signature

`rsa_schemes/signatures/sh00.rs` with the sharing of `rsa_schemes/common.rs` and the Sh00 arm of
`generate_keys`. The secret exponent is shared modulo the product of the halves of two safe primes,
and the shares are combined with integer weights scaled by `n!`. The function `interpolate` keeps the
ids of the shares as `u8`, so the weights are right only when every id is below 256.
-/

namespace QuorumCrypt

open Rust BigInt Polynomial

structure Sh00VerificationKey where
  v : ℕ
  vi : List ℕ
  u : ℕ
  deriving DecidableEq

structure Sh00PublicKey where
  id : String
  t : UInt16
  n : UInt16
  N : ℕ
  e : ℕ
  verificationKey : Sh00VerificationKey
  delta : ℕ
  modbits : ℕ
  group : Group
  deriving DecidableEq

structure Sh00PrivateKey where
  id : UInt16
  m : ℕ
  si : ℕ
  pubkey : Sh00PublicKey
  deriving DecidableEq

structure Sh00SignatureShare where
  group : Group
  id : UInt16
  label : Bytes
  xi : ℕ
  z : ℕ
  c : ℕ
  deriving DecidableEq

structure Sh00Signature where
  sig : ℕ
  deriving DecidableEq

variable (E : Primitives)

def Sh00VerificationKey.toBytes (vk : Sh00VerificationKey) : Bytes :=
  E.asn1Write ([.octets (BigInt.toBytes vk.v), .int vk.vi.length]
    ++ vk.vi.map (fun x => .octets (BigInt.toBytes x)) ++ [.octets (BigInt.toBytes vk.u)])

def Sh00PublicKey.toBytes (pk : Sh00PublicKey) : Bytes :=
  E.asn1Write [.int pk.n.toNat, .int pk.t.toNat, .octets (BigInt.toBytes pk.N),
    .octets (BigInt.toBytes pk.e), .octets (pk.verificationKey.toBytes E),
    .octets (BigInt.toBytes pk.delta), .int pk.modbits]

def Sh00Signature.toBytes (sig : Sh00Signature) : Bytes :=
  E.asn1Write [.octets (BigInt.toBytes sig.sig)]

/-- The length of the modulus; the curves have none. -/
def Group.modsize : Group → ℕ
  | .rsa512 => 512
  | .rsa1024 => 1024
  | .rsa2048 => 2048
  | .rsa4096 => 4096
  | .bls12381 | .bn254 | .ed25519 => 0

def Sh00PublicKey.new (n t : UInt16) (N e : ℕ) (verificationKey : Sh00VerificationKey) (delta : ℕ)
    (group : Group) : Sh00PublicKey :=
  let key : Sh00PublicKey :=
    { id := "", t, n, N, e, verificationKey, delta, modbits := group.modsize, group }
  { key with id := E.calcKeyId (key.toBytes E) }

/-- What the dealer draws for a modulus of the given length. `gen_strong_prime` returns halves of
`modsize / 2 - 2` bits; the two are taken to differ, and `u` to share no factor with the modulus. -/
structure Sh00Draw (modsize : ℕ) where
  primes : SafePrimes
  size₁ : 2 ^ (modsize / 2 - 3) ≤ primes.half₁
  size₂ : 2 ^ (modsize / 2 - 3) ≤ primes.half₂
  v : ℕ
  coeff : ℕ → ℕ
  u : ℕ
  /-- The loop that draws `u` ends when it is a square modulo one of the primes only. -/
  u_found : (powModNat u primes.half₁ (2 * primes.half₁ + 1) = 1)
    ≠ (powModNat u primes.half₂ (2 * primes.half₂ + 1) = 1)
  u_coprime : u.Coprime primes.modulus

/-- The numbers a key is made of, whatever their sizes and wherever they come from. -/
structure Sh00Dealing where
  primes : SafePrimes
  v : ℕ
  coeff : ℕ → ℕ
  u : ℕ
  u_coprime : u.Coprime primes.modulus

/-- The dealing of what was drawn: the key has the square of the drawn `v`. -/
abbrev Sh00Draw.dealing {modsize : ℕ} (draw : Sh00Draw modsize) : Sh00Dealing where
  primes := draw.primes
  v := draw.v ^ 2 % draw.primes.modulus
  coeff := draw.coeff
  u := draw.u
  u_coprime := draw.u_coprime

namespace Sh00ThresholdSignature

/-! ### Sharing -/

/-- The coefficients of the dealer's polynomial, lowest first: the secret exponent, then drawn ones. -/
def coefficients (d : ℕ) (coeff : ℕ → ℕ) : ℕ → ℕ
  | 0 => d
  | j + 1 => coeff j

/-- The share of party `i`: the value of the polynomial, divided by `n!` modulo `m`. -/
def rsaShareOf (m k dInv : ℕ) (fk : ℕ → ℕ) (i : ℕ) : ℕ :=
  let t := (List.range k).foldl (fun t j => mulMod (powModNat i j m) (fk j) m + t) 0
  mulMod t dInv m

def shamirShareRsa (d k n N m v : ℕ) (coeff : ℕ → ℕ) : List ℕ × List ℕ :=
  let dInv := BigInt.invMod (fac n) m
  let shares := (List.range n).map fun i => rsaShareOf m k dInv (coefficients d coeff) (i + 1)
  (shares, shares.map fun val => powModNat v val N)

/-- The Sh00 arm of `generate_keys`. -/
def generateKeys (group : Group) (k n e : ℕ) (draw : Sh00Draw group.modsize) :
    SchemeOutcome (List Sh00PrivateKey) := do
  checkParams k n
  if group.isDl then .err .incompatibleGroup
  else
    let N := draw.primes.modulus
    let m := draw.primes.order
    let v := draw.v ^ 2 % N
    let d := BigInt.invMod e m
    let delta := fac n
    let (xi, vi) := shamirShareRsa d k n N m v draw.coeff
    let pubkey := Sh00PublicKey.new E (UInt16.ofNat n) (UInt16.ofNat k) N e ⟨v, vi, draw.u⟩ delta group
    .ok (numberShares xi fun id si => { id, m, si, pubkey })

/-! ### Signing -/

/-- The hash of a message below `n`. A modulus of zero aborts in GMP. -/
def H1 (m : Bytes) (n modbits : ℕ) : SchemeOutcome ℕ :=
  if modbits < 128 ∨ n = 0 then .panic
  else
    let h := E.hash256 m
    let max := (modbits - 128) / 32
    let buf := (List.range' 1 (max - 1)).foldl (fun buf i => buf ++ E.hash256 (h ++ toBytesLE 8 i)) h
    .ok (ofBytesBE buf % n)

def H2 (g1 g2 g3 g4 g5 g6 : ℕ) : ℕ :=
  ofBytesBE (E.hash256 (BigInt.toBytes g1 ++ BigInt.toBytes g2 ++ BigInt.toBytes g3
    ++ BigInt.toBytes g4 ++ BigInt.toBytes g5 ++ BigInt.toBytes g6))

/-- The hash of a message, moved by `u ^ e` when its Jacobi symbol is `-1`. -/
def H (m : Bytes) (pk : Sh00PublicKey) : SchemeOutcome (ℕ × ℤ) := do
  let x ← H1 E m pk.N pk.modbits
  let j := jacobiSym x pk.N
  if j = -1 then .ok (mulMod (powModNat pk.verificationKey.u pk.e pk.N) x pk.N, j)
  else if j = 0 then .panic
  else .ok (x, j)

def verify (sig : Sh00Signature) (pk : Sh00PublicKey) (msg : Bytes) : SchemeOutcome Bool := do
  let x ← H1 E msg pk.N pk.modbits
  .ok (powModNat sig.sig pk.e pk.N == x)

def partialSign (msg label : Bytes) (sk : Sh00PrivateKey) (drawn : ℕ → ℕ) :
    SchemeOutcome Sh00SignatureShare := do
  let N := sk.pubkey.N
  let v := sk.pubkey.verificationKey.v
  let vi ← verificationKeyAt sk.pubkey.verificationKey.vi sk.id
  let (x, _) ← H E msg sk.pubkey
  let xi := powModNat x (sk.si + sk.si) N
  let xHat := powModNat x 4 N
  let r := drawn 0
  let v1 := powModNat v r N
  let x1 := powModNat xHat r N
  let xi2 := xi ^ 2 % N
  let c := H2 E v xHat vi xi2 v1 x1
  let z := sk.si * c + r
  .ok { id := sk.id, group := sk.pubkey.group, label, xi, z, c }

def verifyShare (share : Sh00SignatureShare) (msg : Bytes) (pk : Sh00PublicKey) :
    SchemeOutcome Bool := do
  let N := pk.N
  let v := pk.verificationKey.v
  let vi ← verificationKeyAt pk.verificationKey.vi share.id
  let (x, _) ← H E msg pk
  let xHat := powModNat x 4 N
  let xi2 := share.xi ^ 2 % N
  let v1 := mulMod (powModNat v share.z N) (BigInt.invMod (powModNat vi share.c N) N) N
  let x1 := mulMod (powModNat xHat share.z N)
    (BigInt.invMod (powModNat share.xi (share.c + share.c) N) N) N
  let c2 := H2 E v xHat vi xi2 v1 x1
  .ok (c2 == share.c)

/-- Twice the weight of `i`, scaled by `d`. -/
def lagCoeff (indices : List UInt8) (i d : ℤ) : ℤ :=
  let (ln, ld) := indices.foldl (fun (acc : ℤ × ℤ) index =>
    let j : ℤ := index.toNat
    if i ≠ j then (acc.1 * -j, acc.2 * (i - j)) else acc) (d, 1)
  ln.tdiv ld + ln.tdiv ld

/-- Interpolation in the exponent. The ids are cast to `u8`. -/
def interpolate (shares : List Sh00SignatureShare) (N delta : ℕ) : SchemeOutcome ℕ :=
  let ids := shares.map fun share => share.id.toUInt8
  shares.foldlM (fun w share => do
    let wj ← powMod share.xi (lagCoeff ids share.id.toNat delta) N
    .ok (mulMod w wj N)) 1

def assemble (shares : List Sh00SignatureShare) (msg : Bytes) (pk : Sh00PublicKey) :
    SchemeOutcome Sh00Signature := do
  let ab := extEuclid 4 pk.e
  let (x, j) ← H E msg pk
  let w ← interpolate shares pk.N pk.delta
  let w ← powMod w ab.1 pk.N
  let xb ← powMod x ab.2 pk.N
  let y := mulMod w xb pk.N
  if j = -1 then .ok ⟨mulMod (BigInt.invMod pk.verificationKey.u pk.N) y pk.N⟩ else .ok ⟨y⟩

/-! ### The shares of the parties -/

/-- The dealer's polynomial over the integers. -/
noncomputable def rsaPolynomial (k : ℕ) (fk : ℕ → ℕ) : ℤ[X] :=
  ∑ j ∈ Finset.range k, C (fk j : ℤ) * X ^ j

theorem degree_rsaPolynomial_lt (k : ℕ) (fk : ℕ → ℕ) : (rsaPolynomial k fk).degree < k := by
  refine lt_of_le_of_lt (degree_sum_le _ _) ?_
  refine (Finset.sup_lt_iff (WithBot.bot_lt_coe k)).mpr fun j hj => ?_
  exact lt_of_le_of_lt (degree_C_mul_X_pow_le j _)
    (WithBot.coe_lt_coe.mpr (Finset.mem_range.mp hj))

theorem eval_zero_rsaPolynomial {k : ℕ} (hk : 1 ≤ k) (fk : ℕ → ℕ) :
    (rsaPolynomial k fk).eval 0 = fk 0 := by
  obtain ⟨k, rfl⟩ := Nat.exists_eq_add_of_le' hk
  rw [rsaPolynomial, eval_finsetSum, Finset.sum_range_succ']
  simp

theorem cast_rsaSum (m i : ℕ) (fk : ℕ → ℕ) (k : ℕ) :
    (((List.range k).foldl (fun t j => mulMod (powModNat i j m) (fk j) m + t) 0 : ℕ) : ZMod m)
      = ((rsaPolynomial k fk).eval (i : ℤ) : ℤ) := by
  induction k with
  | zero => simp [rsaPolynomial]
  | succ k ih =>
      rw [List.range_succ, List.foldl_append, List.foldl_cons, List.foldl_nil, Nat.cast_add, ih,
        rsaPolynomial, rsaPolynomial, eval_finsetSum, eval_finsetSum, Finset.sum_range_succ,
        cast_mulMod, cast_powModNat]
      push_cast
      simp
      ring

/-- A share times `n!` is the value of the polynomial. -/
theorem rsaShareOf_mul_fac {m n k : ℕ} [NeZero m] (hcoprime : (fac n).Coprime m) (fk : ℕ → ℕ)
    (i : ℕ) :
    ((rsaShareOf m k (BigInt.invMod (fac n) m) fk i : ℕ) : ℤ) * (fac n : ℕ)
      ≡ (rsaPolynomial k fk).eval (i : ℤ) [ZMOD m] := by
  rw [← ZMod.intCast_eq_intCast_iff]
  push_cast
  rw [rsaShareOf, cast_mulMod, cast_rsaSum, invMod_of_coprime hcoprime, mul_assoc,
    mul_comm (_⁻¹), ZMod.coe_mul_inv_eq_one _ hcoprime, mul_one]

/-! ### Interpolation -/

/-- The fold of `lag_coeff` collects the numerator and the denominator of the weight. -/
theorem foldl_lagCoeff (i : ℕ) (indices : List UInt8) (acc : ℤ × ℤ) :
    indices.foldl (fun (acc : ℤ × ℤ) index =>
        if ((i : ℕ) : ℤ) ≠ ((index.toNat : ℕ) : ℤ) then
          (acc.1 * -((index.toNat : ℕ) : ℤ), acc.2 * ((i : ℤ) - ((index.toNat : ℕ) : ℤ)))
        else acc) acc
      = (acc.1 * (((indices.map UInt8.toNat).filter fun j => i ≠ j).map fun j : ℕ => -(j : ℤ)).prod,
          acc.2 * (((indices.map UInt8.toNat).filter fun j => i ≠ j).map
            fun j : ℕ => (i : ℤ) - j).prod) := by
  induction indices generalizing acc with
  | nil => simp
  | cons index indices ih =>
      rw [List.foldl_cons, ih, List.map_cons]
      by_cases heq : i = index.toNat
      · simp [heq]
      · have hne : ((i : ℕ) : ℤ) ≠ ((index.toNat : ℕ) : ℤ) := by exact_mod_cast heq
        rw [if_pos hne, List.filter_cons, if_pos (by simpa using heq), List.map_cons,
          List.map_cons, List.prod_cons, List.prod_cons, mul_assoc, mul_assoc]

/-- The coefficient is twice the scaled weight among the bytes that it is given. -/
theorem lagCoeff_eq_scaledWeight (indices : List UInt8) (i : ℕ) (d : ℤ) :
    lagCoeff indices i d = 2 * Sharing.scaledWeight d (indices.map UInt8.toNat) i := by
  rw [lagCoeff, foldl_lagCoeff, one_mul, Sharing.scaledWeight, two_mul]

theorem lagCoeff_eq {ids : List UInt16} (hids : ∀ id ∈ ids, id.toNat ≤ 255) (i : UInt16) (d : ℤ) :
    lagCoeff (ids.map UInt16.toUInt8) i.toNat d
      = 2 * Sharing.scaledWeight d (ids.map UInt16.toNat) i.toNat := by
  have hbytes : (ids.map UInt16.toUInt8).map UInt8.toNat = ids.map UInt16.toNat := by
    rw [List.map_map]
    apply List.map_congr_left
    intro id hid
    have hle := hids id hid
    rw [Function.comp_apply, UInt16.toNat_toUInt8, Nat.mod_eq_of_lt (by omega)]
  rw [lagCoeff_eq_scaledWeight, hbytes]

/-- On units the fold of `interpolate` multiplies the powers. -/
theorem foldlM_powMod {N : ℕ} [NeZero N] {T : Type} (data : T → ℕ) (unit : T → (ZMod N)ˣ)
    (exponent : T → ℤ) :
    ∀ (shares : List T) (w : (ZMod N)ˣ), (∀ s ∈ shares, (data s : ZMod N) = unit s) →
      shares.foldlM (fun w s => do
        let wj ← powMod (data s) (exponent s) N
        (.ok (mulMod w wj N) : SchemeOutcome ℕ)) (w : ZMod N).val
      = .ok ((w * (shares.map fun s => unit s ^ exponent s).prod : (ZMod N)ˣ) : ZMod N).val := by
  intro shares
  induction shares with
  | nil => intro w _; simp
  | cons s shares ih =>
      intro w hunits
      have hstep : mulMod (w : ZMod N).val ((unit s ^ exponent s : (ZMod N)ˣ) : ZMod N).val N
          = ((w * unit s ^ exponent s : (ZMod N)ˣ) : ZMod N).val := by
        rw [Units.val_mul, ZMod.val_mul, mulMod]
      rw [List.foldlM_cons, powMod_eq_ok _ (hunits s List.mem_cons_self), Outcome.ok_bind,
        Outcome.ok_bind, hstep, ih _ fun s hs => hunits s (List.mem_cons_of_mem _ hs),
        List.map_cons, List.prod_cons, mul_assoc]

/-- The share of party `id` of a dealing. -/
def dealingShare (k n e : ℕ) (deal : Sh00Dealing) (id : UInt16) : ℕ :=
  rsaShareOf deal.primes.order k (BigInt.invMod (fac n) deal.primes.order)
    (coefficients (BigInt.invMod e deal.primes.order) deal.coeff) id.toNat

/-- The share of party `id` of what was drawn. -/
abbrev dealtRsaShare {modsize : ℕ} (k n e : ℕ) (draw : Sh00Draw modsize) (id : UInt16) : ℕ :=
  dealingShare k n e draw.dealing id

/-- No prime of the order divides `n!` when the parties are fewer than both. -/
theorem coprime_fac_of_lt {P : SafePrimes} {n : ℕ} (hhalf₁ : n < P.half₁) (hhalf₂ : n < P.half₂) :
    (fac n).Coprime P.order := by
  have hprime : ∀ {p : ℕ}, p.Prime → n < p → (fac n).Coprime p := by
    intro p hp hlt
    rw [Nat.coprime_comm, hp.coprime_iff_not_dvd, fac_eq_factorial,
      Nat.Prime.dvd_factorial hp]
    omega
  exact Nat.Coprime.mul_right (hprime P.prime_half₁ hhalf₁) (hprime P.prime_half₂ hhalf₂)

theorem coprime_fac {modsize n : ℕ} (draw : Sh00Draw modsize) (hn : n < 2 ^ (modsize / 2 - 3)) :
    (fac n).Coprime draw.primes.order :=
  coprime_fac_of_lt (lt_of_lt_of_le hn draw.size₁) (lt_of_lt_of_le hn draw.size₂)

section Dealt

variable {k n e : ℕ} (deal : Sh00Dealing)

/-- The shares combine to the secret exponent. -/
theorem sum_dealingShare (hk : 1 ≤ k) (hcoprime : (fac n).Coprime deal.primes.order) {ids : List UInt16}
    (hnodup : ids.Nodup) (hids : ∀ id ∈ ids, 1 ≤ id.toNat ∧ id.toNat ≤ n)
    (hlength : k ≤ ids.length) :
    (ids.map fun id => (dealingShare k n e deal id : ℤ)
        * Sharing.scaledWeight (fac n) (ids.map UInt16.toNat) id.toNat).sum
      ≡ (BigInt.invMod e deal.primes.order : ℕ) [ZMOD deal.primes.order] := by
  have : NeZero deal.primes.order :=
    ⟨Nat.mul_ne_zero deal.primes.prime_half₁.ne_zero deal.primes.prime_half₂.ne_zero⟩
  have hunit : IsUnit ((fac n : ℕ) : ZMod deal.primes.order) :=
    (ZMod.isUnit_iff_coprime _ _).mpr hcoprime
  set p := rsaPolynomial k (coefficients (BigInt.invMod e deal.primes.order) deal.coeff) with hp
  have hweights := Sharing.sum_scaledWeight_eq (hnodup.map fun _ _ => UInt16.toNat_inj.mp)
    (p := p) (n := n) (fun j hj => by
      obtain ⟨id, hid, rfl⟩ := List.mem_map.mp hj
      exact hids id hid)
    (lt_of_lt_of_le (degree_rsaPolynomial_lt k _) (by
      rw [List.length_map]
      exact_mod_cast hlength))
  rw [hp, eval_zero_rsaPolynomial hk, ← hp, ← fac_eq_factorial, List.map_map] at hweights
  rw [← ZMod.intCast_eq_intCast_iff]
  refine hunit.mul_left_cancel ?_
  have hcast := congrArg (Int.cast : ℤ → ZMod deal.primes.order) hweights
  rw [Int.cast_mul, Int.cast_natCast] at hcast
  refine Eq.trans ?_ hcast
  rw [Int.cast_list_sum, Int.cast_list_sum, ← List.sum_map_mul_left, List.map_map, List.map_map]
  refine congrArg List.sum (List.map_congr_left fun id _ => ?_)
  have hshare := (ZMod.intCast_eq_intCast_iff _ _ _).mpr
    (rsaShareOf_mul_fac hcoprime (coefficients (BigInt.invMod e deal.primes.order) deal.coeff)
      (k := k) id.toNat)
  rw [Int.cast_mul, Int.cast_natCast] at hshare
  simp only [Function.comp_apply, Int.cast_mul]
  rw [← hshare, ← mul_assoc, mul_comm ((fac n : ℕ) : ZMod deal.primes.order), Int.cast_natCast,
    Int.cast_natCast]
  rfl

theorem prod_zpow_eq {G ι : Type} [CommGroup G] (x : G) (s : ι → ℕ) (l : ι → ℤ) (xs : List ι) :
    (xs.map fun i => (x ^ (2 * s i)) ^ (2 * l i)).prod
      = (x ^ 4) ^ (xs.map fun i => (s i : ℤ) * l i).sum := by
  induction xs with
  | nil => simp
  | cons i xs ih =>
      rw [List.map_cons, List.map_cons, List.prod_cons, List.sum_cons, zpow_add, ih]
      congr 1
      rw [← zpow_natCast, ← zpow_natCast, ← zpow_mul, ← zpow_mul]
      congr 1
      push_cast
      ring

/-- Enough correct shares with ids below 256 interpolate to the fourth power of the hashed message,
raised to the secret exponent. -/
theorem interpolate_eq_ok (hk : 1 ≤ k) (hcoprime : (fac n).Coprime deal.primes.order)
    (x : (ZMod deal.primes.modulus)ˣ) {shares : List Sh00SignatureShare}
    (hdata : ∀ s ∈ shares, (s.xi : ZMod deal.primes.modulus)
      = (x ^ (2 * dealingShare k n e deal s.id) : (ZMod deal.primes.modulus)ˣ))
    (hnodup : (shares.map Sh00SignatureShare.id).Nodup)
    (hids : ∀ s ∈ shares, 1 ≤ s.id.toNat ∧ s.id.toNat ≤ n ∧ s.id.toNat ≤ 255)
    (hlength : k ≤ shares.length) :
    interpolate shares deal.primes.modulus (fac n)
      = .ok (((x ^ 4) ^ BigInt.invMod e deal.primes.order : (ZMod deal.primes.modulus)ˣ)
          : ZMod deal.primes.modulus).val := by
  have hone : 1 = ((1 : (ZMod deal.primes.modulus)ˣ) : ZMod deal.primes.modulus).val := by
    rw [Units.val_one, ZMod.val_one_eq_one_mod, Nat.mod_eq_of_lt deal.primes.one_lt_modulus]
  have hcoeff : ∀ s : Sh00SignatureShare,
      lagCoeff (shares.map fun share => share.id.toUInt8) s.id.toNat (fac n)
        = 2 * Sharing.scaledWeight (fac n)
            ((shares.map Sh00SignatureShare.id).map UInt16.toNat) s.id.toNat := by
    intro s
    rw [← lagCoeff_eq _ s.id (fac n), List.map_map]
    · rfl
    · intro id hid
      obtain ⟨s, hs, rfl⟩ := List.mem_map.mp hid
      exact (hids s hs).2.2
  have hsum := sum_dealingShare (e := e) deal hk hcoprime hnodup (fun id hid => by
    obtain ⟨s, hs, rfl⟩ := List.mem_map.mp hid
    exact ⟨(hids s hs).1, (hids s hs).2.1⟩) (by rwa [List.length_map])
  simp only [interpolate, hcoeff]
  rw [hone]
  refine (foldlM_powMod Sh00SignatureShare.xi
    (fun s => x ^ (2 * dealingShare k n e deal s.id)) _ shares 1 hdata).trans ?_
  rw [one_mul, prod_zpow_eq x (fun s : Sh00SignatureShare => dealingShare k n e deal s.id)
    (fun s => Sharing.scaledWeight (fac n)
      ((shares.map Sh00SignatureShare.id).map UInt16.toNat) s.id.toNat)]
  rw [List.map_map] at hsum
  rw [← zpow_natCast (x ^ 4)]
  exact congrArg (fun y : (ZMod deal.primes.modulus)ˣ => Outcome.ok (y : ZMod deal.primes.modulus).val)
    (deal.primes.pow_four_zpow_congr x hsum)

end Dealt

/-! ### The signature -/

theorem H1_eq_ok {msg : Bytes} {N modbits h : ℕ} (hh : H1 E msg N modbits = .ok h) : h < N := by
  unfold H1 at hh
  split at hh
  · simp at hh
  · rename_i hpanic
    rw [← Outcome.ok.inj hh]
    exact Nat.mod_lt _ (by omega)

/-- The hashed message is a unit, and `H` returns it or its product with `u ^ e`. -/
theorem H_eq_ok {msg : Bytes} {pk : Sh00PublicKey} [NeZero pk.N] {x : ℕ} {j : ℤ}
    (hx : H E msg pk = .ok (x, j)) :
    ∃ (h : ℕ) (hUnit : (ZMod pk.N)ˣ), H1 E msg pk.N pk.modbits = .ok h ∧ (h : ZMod pk.N) = hUnit
      ∧ (j = -1 ∧ x = mulMod (powModNat pk.verificationKey.u pk.e pk.N) h pk.N ∨ j ≠ -1 ∧ x = h) := by
  obtain ⟨h, hh, hrest⟩ := Outcome.bind_eq_ok.mp hx
  have hunit : jacobiSym h pk.N ≠ 0 → IsUnit (h : ZMod pk.N) := by
    intro hne
    rw [ZMod.isUnit_iff_coprime]
    by_contra hcoprime
    exact hne (jacobiSym.eq_zero_iff_not_coprime.mpr (by simpa using hcoprime))
  by_cases hj : jacobiSym h pk.N = -1
  · simp only [hj, if_true, Outcome.ok.injEq, Prod.mk.injEq] at hrest
    obtain ⟨rfl, rfl⟩ := hrest
    exact ⟨h, (hunit (by rw [hj]; decide)).unit, hh, rfl, .inl ⟨rfl, rfl⟩⟩
  · by_cases hzero : jacobiSym h pk.N = 0
    · simp [hzero] at hrest
    · simp only [hj, if_false, hzero, Outcome.ok.injEq, Prod.mk.injEq] at hrest
      obtain ⟨rfl, rfl⟩ := hrest
      exact ⟨h, (hunit hzero).unit, hh, rfl, .inr ⟨hj, rfl⟩⟩

theorem mulMod_eq_val {N a b : ℕ} {x y : (ZMod N)ˣ} (ha : (a : ZMod N) = x)
    (hb : (b : ZMod N) = y) : mulMod a b N = ((x * y : (ZMod N)ˣ) : ZMod N).val := by
  rw [Units.val_mul, ← ha, ← hb, ← Nat.cast_mul, ZMod.val_natCast, mulMod]

/-- The root that `assemble` computes from the interpolated value. -/
theorem root_pow {P : SafePrimes} {e d : ℕ} (he : e.Coprime (2 * P.order))
    (hd : (d : ℤ) * e ≡ 1 [ZMOD P.order]) (x : (ZMod P.modulus)ˣ) :
    (((x ^ 4) ^ d) ^ (extEuclid 4 e).1 * x ^ (extEuclid 4 e).2) ^ e = x := by
  have hgcd : Nat.gcd 4 e = 1 := by
    have htwo : Nat.Coprime 2 e := (Nat.Coprime.coprime_dvd_right (Nat.dvd_mul_right 2 _) he).symm
    exact Nat.Coprime.pow_left 2 htwo
  have hbezout := extEuclid_spec 4 e
  rw [hgcd] at hbezout
  have hpow : ((x ^ 4) ^ (d : ℤ)) ^ (e : ℤ) = x ^ 4 := by
    rw [← zpow_mul, P.pow_four_zpow_congr x hd, zpow_one]
  rw [mul_pow, ← zpow_natCast (_ ^ (extEuclid 4 e).1), ← zpow_natCast (x ^ (extEuclid 4 e).2),
    ← zpow_natCast (x ^ 4) d, zpow_comm, hpow, ← zpow_natCast x 4, ← zpow_mul, ← zpow_mul,
    ← zpow_add]
  have hexponent : ((4 : ℕ) : ℤ) * (extEuclid 4 e).1 + (extEuclid 4 e).2 * e = 1 := by
    rw [mul_comm _ (e : ℤ)]
    exact_mod_cast hbezout
  rw [hexponent, zpow_one]

section Key

variable {E} {group : Group} {k n e : ℕ}

variable (E group k n e) in
/-- The public key of a dealing. -/
def dealingKey (deal : Sh00Dealing) : Sh00PublicKey :=
  let shares := shamirShareRsa (BigInt.invMod e deal.primes.order) k n deal.primes.modulus
    deal.primes.order deal.v deal.coeff
  Sh00PublicKey.new E (UInt16.ofNat n) (UInt16.ofNat k) deal.primes.modulus e
    ⟨deal.v, shares.2, deal.u⟩ (fac n) group

variable (E group k n e) in
/-- The keys of the parties of a dealing. -/
def dealingKeys (deal : Sh00Dealing) : List Sh00PrivateKey :=
  let shares := shamirShareRsa (BigInt.invMod e deal.primes.order) k n deal.primes.modulus
    deal.primes.order deal.v deal.coeff
  numberShares shares.1 fun id si =>
    { id, m := deal.primes.order, si, pubkey := dealingKey E group k n e deal }

theorem party_of_mem_dealingKeys {deal : Sh00Dealing} (hn : n ≤ 65535) {sk : Sh00PrivateKey}
    (hsk : sk ∈ dealingKeys E group k n e deal) :
    1 ≤ sk.id.toNat ∧ sk.id.toNat ≤ n ∧ sk.si = dealingShare k n e deal sk.id
      ∧ sk.pubkey = dealingKey E group k n e deal := by
  simp only [dealingKeys, shamirShareRsa, numberShares, List.mem_mapIdx, List.length_map,
    List.length_range, List.getElem_map, List.getElem_range] at hsk
  obtain ⟨i, hi, rfl⟩ := hsk
  have hid : (UInt16.ofNat (i + 1)).toNat = i + 1 := toNat_ofNat_of_le (by omega)
  refine ⟨by simp only [hid]; omega, by simp only [hid]; omega, ?_, rfl⟩
  simp only [dealingShare, hid]

variable (E group k n e) in
/-- The public key of what was drawn. -/
abbrev publicKey (draw : Sh00Draw group.modsize) : Sh00PublicKey :=
  dealingKey E group k n e draw.dealing

section Draw

variable (draw : Sh00Draw group.modsize)

/-- The parties are fewer than the primes of the modulus allow. -/
theorem lt_of_generateKeys (hn : n ≤ 65535) {keys : List Sh00PrivateKey}
    (hkeys : generateKeys E group k n e draw = .ok keys) : n < 2 ^ (group.modsize / 2 - 3) := by
  obtain ⟨_, _, hgroup⟩ := Outcome.bind_eq_ok.mp hkeys
  have hmodsize : 512 ≤ group.modsize := by
    cases group <;> simp [Group.isDl] at hgroup <;> simp [Group.modsize]
  calc n < 2 ^ 16 := by omega
    _ ≤ 2 ^ (group.modsize / 2 - 3) := Nat.pow_le_pow_right (by decide) (by omega)

theorem eq_dealingKeys {keys : List Sh00PrivateKey}
    (hkeys : generateKeys E group k n e draw = .ok keys) :
    keys = dealingKeys E group k n e draw.dealing := by
  obtain ⟨-, -, hkeys⟩ := Outcome.bind_eq_ok.mp hkeys
  by_cases hgroup : group.isDl = true
  · simp [hgroup] at hkeys
  · rw [if_neg hgroup] at hkeys
    exact (Outcome.ok.inj hkeys).symm

/-- With at most `u16::MAX` parties every key has the id and the share of one party, and the same
public key. -/
theorem exists_party_of_mem (hn : n ≤ 65535) {keys : List Sh00PrivateKey}
    (hkeys : generateKeys E group k n e draw = .ok keys) {sk : Sh00PrivateKey} (hsk : sk ∈ keys) :
    1 ≤ sk.id.toNat ∧ sk.id.toNat ≤ n ∧ sk.si = dealtRsaShare k n e draw sk.id
      ∧ sk.pubkey = publicKey E group k n e draw := by
  rw [eq_dealingKeys draw hkeys] at hsk
  exact party_of_mem_dealingKeys hn hsk

end Draw

variable (deal : Sh00Dealing)

/-- A share that is accepted has the id of a party. -/
theorem toNat_of_verifyShare_eq_ok_true {s : Sh00SignatureShare} {msg : Bytes}
    (haccept : verifyShare E s msg (dealingKey E group k n e deal) = .ok true) :
    1 ≤ s.id.toNat ∧ s.id.toNat ≤ n := by
  obtain ⟨vk, hvk, -⟩ := Outcome.bind_eq_ok.mp haccept
  have hid := toNat_of_verificationKeyAt hvk
  simpa [dealingKey, Sh00PublicKey.new, shamirShareRsa] using hid

/-- A hash prime to the modulus is used as it is or moved by `u ^ e`. -/
theorem exists_H {h : ℕ} {msg : Bytes} (hh : H1 E msg deal.primes.modulus group.modsize = .ok h)
    (hcoprime : h.Coprime deal.primes.modulus) :
    ∃ x j, H E msg (dealingKey E group k n e deal) = .ok (x, j)
      ∧ (x = h ∨ x = mulMod (powModNat deal.u e deal.primes.modulus) h deal.primes.modulus) := by
  have hkey : H1 E msg (dealingKey E group k n e deal).N (dealingKey E group k n e deal).modbits
      = .ok h := hh
  rw [H, hkey, Outcome.ok_bind]
  by_cases hneg : jacobiSym h (dealingKey E group k n e deal).N = -1
  · exact ⟨_, _, if_pos hneg, .inr rfl⟩
  · have hzero : jacobiSym h (dealingKey E group k n e deal).N ≠ 0 := by
      have : NeZero (dealingKey E group k n e deal).N :=
        inferInstanceAs (NeZero deal.primes.modulus)
      rw [ne_eq, jacobiSym.eq_zero_iff_not_coprime, not_not, Int.gcd_natCast_natCast]
      exact hcoprime
    exact ⟨_, _, (if_neg hneg).trans (if_neg hzero), .inl rfl⟩

/-- What `H` returns, in the units modulo `N`. -/
theorem exists_unit_of_H {msg : Bytes} {x : ℕ} {j : ℤ}
    (hx : H E msg (dealingKey E group k n e deal) = .ok (x, j)) :
    ∃ (h : ℕ) (hUnit u xUnit : (ZMod deal.primes.modulus)ˣ),
      H1 E msg deal.primes.modulus group.modsize = .ok h
      ∧ (h : ZMod deal.primes.modulus) = hUnit ∧ (deal.u : ZMod deal.primes.modulus) = u
      ∧ (x : ZMod deal.primes.modulus) = xUnit
      ∧ (j = -1 ∧ xUnit = u ^ e * hUnit ∨ j ≠ -1 ∧ xUnit = hUnit) := by
  have hne : NeZero (dealingKey E group k n e deal).N :=
    inferInstanceAs (NeZero deal.primes.modulus)
  obtain ⟨h, hUnit, hh, hcast, hcases⟩ :
      ∃ (h : ℕ) (hUnit : (ZMod deal.primes.modulus)ˣ),
        H1 E msg deal.primes.modulus group.modsize = .ok h
        ∧ (h : ZMod deal.primes.modulus) = hUnit
        ∧ (j = -1 ∧ x = mulMod (powModNat deal.u e deal.primes.modulus) h deal.primes.modulus
          ∨ j ≠ -1 ∧ x = h) := H_eq_ok E hx
  obtain ⟨u, hu⟩ : IsUnit (deal.u : ZMod deal.primes.modulus) :=
    (ZMod.isUnit_iff_coprime _ _).mpr deal.u_coprime
  obtain ⟨hj, rfl⟩ | ⟨hj, rfl⟩ := hcases
  · refine ⟨h, hUnit, u, u ^ e * hUnit, hh, hcast, hu.symm, ?_, .inl ⟨hj, rfl⟩⟩
    rw [Units.val_mul, Units.val_pow_eq_pow_val, hu, ← hcast, cast_mulMod, cast_powModNat]
  · exact ⟨x, hUnit, u, hUnit, hh, hcast, hu.symm, hcast, .inr ⟨hj, rfl⟩⟩

/-- The signature as a unit, from the interpolated value `w`: the root of `x`, divided by `u` when `x`
was moved. -/
def signatureUnit {N : ℕ} (e : ℕ) (u x w : (ZMod N)ˣ) (j : ℤ) : (ZMod N)ˣ :=
  let y := w ^ (extEuclid 4 e).1 * x ^ (extEuclid 4 e).2
  if j = -1 then u⁻¹ * y else y

/-- What `assemble` does once the shares are interpolated. -/
theorem assemble_of_interpolate {msg : Bytes} {x : ℕ} {j : ℤ}
    (hx : H E msg (dealingKey E group k n e deal) = .ok (x, j))
    {u xUnit w : (ZMod deal.primes.modulus)ˣ} (hu : (deal.u : ZMod deal.primes.modulus) = u)
    (hxUnit : (x : ZMod deal.primes.modulus) = xUnit) {shares : List Sh00SignatureShare}
    (hw : interpolate shares deal.primes.modulus (fac n)
      = .ok (w : ZMod deal.primes.modulus).val) :
    assemble E shares msg (dealingKey E group k n e deal)
      = .ok ⟨(signatureUnit e u xUnit w j : ZMod deal.primes.modulus).val⟩ := by
  have hinv : ((BigInt.invMod deal.u deal.primes.modulus : ℕ) : ZMod deal.primes.modulus)
      = (u⁻¹ : (ZMod deal.primes.modulus)ˣ) := by
    rw [invMod_of_coprime deal.u_coprime, hu, ZMod.inv_coe_unit]
  rw [assemble, hx, Outcome.ok_bind]
  change (interpolate shares deal.primes.modulus (fac n) >>= fun w =>
    powMod w (extEuclid 4 e).1 deal.primes.modulus >>= fun w =>
    powMod x (extEuclid 4 e).2 deal.primes.modulus >>= fun xb => _) = _
  rw [hw, Outcome.ok_bind, powMod_eq_ok w (ZMod.natCast_zmod_val _), Outcome.ok_bind,
    powMod_eq_ok xUnit hxUnit, Outcome.ok_bind]
  change (if j = -1 then Outcome.ok (Sh00Signature.mk (mulMod
      (BigInt.invMod deal.u deal.primes.modulus) (mulMod _ _ deal.primes.modulus)
      deal.primes.modulus)) else .ok ⟨mulMod _ _ deal.primes.modulus⟩) = _
  rw [mulMod_eq_val (ZMod.natCast_zmod_val _) (ZMod.natCast_zmod_val _), signatureUnit]
  split
  · rw [mulMod_eq_val hinv (ZMod.natCast_zmod_val _)]
  · rfl

theorem assemble_eq_ok (hk : 1 ≤ k) (hfac : (fac n).Coprime deal.primes.order) {msg : Bytes} {x : ℕ}
    {j : ℤ} (hx : H E msg (dealingKey E group k n e deal) = .ok (x, j))
    {u xUnit : (ZMod deal.primes.modulus)ˣ} (hu : (deal.u : ZMod deal.primes.modulus) = u)
    (hxUnit : (x : ZMod deal.primes.modulus) = xUnit) {shares : List Sh00SignatureShare}
    (hdata : ∀ s ∈ shares, s.xi ≡ x ^ (2 * dealingShare k n e deal s.id) [MOD deal.primes.modulus])
    (hids : ∀ s ∈ shares, 1 ≤ s.id.toNat ∧ s.id.toNat ≤ n ∧ s.id.toNat ≤ 255)
    (hnodup : (shares.map Sh00SignatureShare.id).Nodup) (hlength : k ≤ shares.length) :
    assemble E shares msg (dealingKey E group k n e deal)
      = .ok ⟨(signatureUnit e u xUnit ((xUnit ^ 4) ^ BigInt.invMod e deal.primes.order) j
          : ZMod deal.primes.modulus).val⟩ := by
  refine assemble_of_interpolate deal hx hu hxUnit (interpolate_eq_ok deal hk hfac xUnit ?_ hnodup
    hids hlength)
  intro s hs
  rw [(ZMod.natCast_eq_natCast_iff _ _ _).mpr (hdata s hs), Nat.cast_pow, hxUnit,
    Units.val_pow_eq_pow_val]

theorem invMod_mul_modEq_one (he : e.Coprime deal.primes.order) :
    ((BigInt.invMod e deal.primes.order : ℕ) : ℤ) * e ≡ 1 [ZMOD deal.primes.order] := by
  have : NeZero deal.primes.order :=
    ⟨Nat.mul_ne_zero deal.primes.prime_half₁.ne_zero deal.primes.prime_half₂.ne_zero⟩
  rw [← ZMod.intCast_eq_intCast_iff]
  push_cast
  rw [invMod_of_coprime he, mul_comm, ZMod.coe_mul_inv_eq_one _ he]

/-- The verification equation in the units modulo `N`. -/
theorem verify_eq_ok_true_iff {msg : Bytes} {h : ℕ} {hUnit : (ZMod deal.primes.modulus)ˣ}
    (hh : H1 E msg deal.primes.modulus group.modsize = .ok h)
    (hcast : (h : ZMod deal.primes.modulus) = hUnit) (sig : Sh00Signature) :
    verify E sig (dealingKey E group k n e deal) msg = .ok true
      ↔ (sig.sig : ZMod deal.primes.modulus) ^ e = hUnit := by
  have hkey : H1 E msg (dealingKey E group k n e deal).N (dealingKey E group k n e deal).modbits
      = .ok h := hh
  rw [verify, hkey, Outcome.ok_bind, Outcome.ok.injEq, beq_iff_eq, ← cast_powModNat, ← hcast,
    ZMod.natCast_eq_natCast_iff', Nat.mod_eq_of_lt (powModNat_lt _ _ (NeZero.pos _)),
    Nat.mod_eq_of_lt (H1_eq_ok E hh)]
  rfl

/-- Whichever correct shares with ids below 256 are combined, one signature comes out, and it is the
only one that verifies. -/
theorem exists_signature (hk : 1 ≤ k) (hfac : (fac n).Coprime deal.primes.order) {msg : Bytes} {x : ℕ}
    {j : ℤ} (hx : H E msg (dealingKey E group k n e deal) = .ok (x, j)) :
    ∃ sig, sig.sig < deal.primes.modulus
      ∧ (∀ shares : List Sh00SignatureShare,
        (∀ s ∈ shares, s.xi ≡ x ^ (2 * dealingShare k n e deal s.id) [MOD deal.primes.modulus]) →
        (∀ s ∈ shares, 1 ≤ s.id.toNat ∧ s.id.toNat ≤ n ∧ s.id.toNat ≤ 255) →
        (shares.map Sh00SignatureShare.id).Nodup → k ≤ shares.length →
        assemble E shares msg (dealingKey E group k n e deal) = .ok sig)
      ∧ (e.Coprime (2 * deal.primes.order) →
        ∀ sig', verify E sig' (dealingKey E group k n e deal) msg = .ok true
          ↔ sig'.sig % deal.primes.modulus = sig.sig) := by
  obtain ⟨h, hUnit, u, xUnit, hh, hcast, hu, hxUnit, hcases⟩ := exists_unit_of_H deal hx
  set root := signatureUnit e u xUnit ((xUnit ^ 4) ^ BigInt.invMod e deal.primes.order) j with hroot
  refine ⟨⟨(root : ZMod deal.primes.modulus).val⟩, ZMod.val_lt (root : ZMod deal.primes.modulus), ?_, ?_⟩
  · intro shares hdata hids hnodup hlength
    exact assemble_eq_ok deal hk hfac hx hu hxUnit hdata hids hnodup hlength
  · intro he sig'
    have hyroot := root_pow he (invMod_mul_modEq_one deal
      (Nat.Coprime.coprime_dvd_right (Nat.dvd_mul_left _ 2) he)) xUnit
    have hrootpow : root ^ e = hUnit := by
      obtain ⟨hj, hxu⟩ | ⟨hj, hxu⟩ := hcases
      · rw [hroot, signatureUnit, if_pos hj, mul_pow, hyroot, hxu, inv_pow, inv_mul_cancel_left]
      · rw [hroot, signatureUnit, if_neg hj, hyroot, hxu]
    have hepos : e ≠ 0 := by
      rintro rfl
      rw [Nat.coprime_zero_left] at he
      omega
    rw [verify_eq_ok_true_iff deal hh hcast]
    constructor
    · intro hpow
      obtain ⟨s, hs⟩ : IsUnit (sig'.sig : ZMod deal.primes.modulus) := by
        rw [← isUnit_pow_iff hepos, hpow]
        exact hUnit.isUnit
      have hseq : s = root := deal.primes.eq_of_pow_eq he (by
        rw [hrootpow]
        ext
        rw [Units.val_pow_eq_pow_val, hs, hpow])
      rw [← hseq, hs, ZMod.val_natCast]
    · intro hmod
      have hsig : (sig'.sig : ZMod deal.primes.modulus) = root := by
        rw [← ZMod.natCast_mod, hmod, ZMod.natCast_zmod_val]
      rw [hsig, ← Units.val_pow_eq_pow_val, hrootpow]

/-! ### The proof of a share -/

theorem coprime_powModNat {a N : ℕ} (ha : a.Coprime N) (e : ℕ) : (powModNat a e N).Coprime N := by
  rw [← ZMod.isUnit_iff_coprime, cast_powModNat]
  exact ((ZMod.isUnit_iff_coprime a N).mpr ha).pow e

/-- The response to the challenge `c` cancels it, with exponents that are not reduced. -/
theorem response_cancels {N : ℕ} [NeZero N] {a b z c r : ℕ} (hb : b.Coprime N)
    (h : (a : ZMod N) ^ z = (a : ZMod N) ^ r * (b : ZMod N) ^ c) :
    mulMod (powModNat a z N) (BigInt.invMod (powModNat b c N) N) N = powModNat a r N := by
  have hunit : IsUnit ((b : ZMod N) ^ c) := ((ZMod.isUnit_iff_coprime b N).mpr hb).pow c
  have hcast : ((mulMod (powModNat a z N) (BigInt.invMod (powModNat b c N) N) N : ℕ) : ZMod N)
      = (powModNat a r N : ℕ) := by
    rw [cast_mulMod, invMod_of_coprime (coprime_powModNat hb c), cast_powModNat, cast_powModNat,
      cast_powModNat, h,
      mul_assoc, ZMod.mul_inv_of_unit _ hunit, mul_one]
  have hlt : mulMod (powModNat a z N) (BigInt.invMod (powModNat b c N) N) N < N :=
    Nat.mod_lt _ (NeZero.pos N)
  rwa [ZMod.natCast_eq_natCast_iff', Nat.mod_eq_of_lt hlt,
    Nat.mod_eq_of_lt (powModNat_lt _ _ (NeZero.pos N))] at hcast

/-- Party `id` finds the power of its own share under its id. -/
theorem verificationKeyAt_dealingKey {id : UInt16} (hpos : 1 ≤ id.toNat) (hle : id.toNat ≤ n) :
    verificationKeyAt (dealingKey E group k n e deal).verificationKey.vi id
      = .ok (powModNat deal.v (dealingShare k n e deal id) deal.primes.modulus) := by
  rw [verificationKeyAt_eq_ok]
  have hne : id ≠ 0 := by
    rintro rfl
    simp at hpos
  have hlt : id.toNat - 1 < n := by omega
  have hsucc : id.toNat - 1 + 1 = id.toNat := by omega
  refine ⟨hne, ?_⟩
  simp only [dealingKey, Sh00PublicKey.new, shamirShareRsa, List.getElem?_map, List.getElem?_range hlt,
    Option.map_some, hsucc]
  rfl

section PartialSign

variable {sk : Sh00PrivateKey} {msg : Bytes} {x : ℕ} {j : ℤ}

/-- What a party signs with, part by part. -/
theorem exists_partialSign (hpos : 1 ≤ sk.id.toNat) (hle : sk.id.toNat ≤ n)
    (hsi : sk.si = dealingShare k n e deal sk.id) (hpubkey : sk.pubkey = dealingKey E group k n e deal)
    (hx : H E msg (dealingKey E group k n e deal) = .ok (x, j)) (label : Bytes) (drawn : ℕ → ℕ) :
    ∃ s, partialSign E msg label sk drawn = .ok s ∧ s.id = sk.id
      ∧ s.xi = powModNat x (2 * dealingShare k n e deal sk.id) deal.primes.modulus
      ∧ s.c = H2 E deal.v (powModNat x 4 deal.primes.modulus)
          (powModNat deal.v (dealingShare k n e deal sk.id) deal.primes.modulus)
          (s.xi ^ 2 % deal.primes.modulus) (powModNat deal.v (drawn 0) deal.primes.modulus)
          (powModNat (powModNat x 4 deal.primes.modulus) (drawn 0) deal.primes.modulus)
      ∧ s.z = dealingShare k n e deal sk.id * s.c + drawn 0 := by
  rw [partialSign, hpubkey, verificationKeyAt_dealingKey deal hpos hle, Outcome.ok_bind, hx,
    Outcome.ok_bind, hsi, ← Nat.two_mul]
  exact ⟨_, rfl, rfl, rfl, rfl, rfl⟩

/-- The proof of a fresh share verifies under the key of its party. -/
theorem verifyShare_partialSign (hpos : 1 ≤ sk.id.toNat) (hle : sk.id.toNat ≤ n)
    (hsi : sk.si = dealingShare k n e deal sk.id) (hpubkey : sk.pubkey = dealingKey E group k n e deal)
    (hx : H E msg (dealingKey E group k n e deal) = .ok (x, j))
    (hv : deal.v.Coprime deal.primes.modulus) (hxUnit : x.Coprime deal.primes.modulus)
    {label : Bytes} {drawn : ℕ → ℕ} {s : Sh00SignatureShare}
    (hs : partialSign E msg label sk drawn = .ok s) :
    verifyShare E s msg (dealingKey E group k n e deal) = .ok true := by
  obtain ⟨s', hs', hid, hxi, hc, hz⟩ := exists_partialSign deal hpos hle hsi hpubkey hx label drawn
  obtain rfl := Outcome.ok.inj (hs.symm.trans hs')
  set N := deal.primes.modulus with hN
  set si := dealingShare k n e deal sk.id with hsi'
  have hv1 : mulMod (powModNat deal.v s.z N) (BigInt.invMod (powModNat (powModNat deal.v si N) s.c N) N)
      N = powModNat deal.v (drawn 0) N := by
    apply response_cancels
    · exact coprime_powModNat hv si
    · rw [hz, cast_powModNat, ← pow_mul, ← pow_add, Nat.add_comm]
  have hx1 : mulMod (powModNat (powModNat x 4 N) s.z N)
      (BigInt.invMod (powModNat s.xi (s.c + s.c) N) N) N
        = powModNat (powModNat x 4 N) (drawn 0) N := by
    apply response_cancels
    · rw [hxi]
      exact coprime_powModNat hxUnit _
    · rw [hz, hxi, cast_powModNat, cast_powModNat, ← pow_mul, ← pow_mul, ← pow_mul, ← pow_add]
      congr 1
      ring
  rw [verifyShare, hid, verificationKeyAt_dealingKey deal hpos hle, Outcome.ok_bind, hx,
    Outcome.ok_bind]
  change Outcome.ok (H2 E deal.v (powModNat x 4 N) (powModNat deal.v si N) (s.xi ^ 2 % N)
    (mulMod (powModNat deal.v s.z N) (BigInt.invMod (powModNat (powModNat deal.v si N) s.c N) N) N)
    (mulMod (powModNat (powModNat x 4 N) s.z N) (BigInt.invMod (powModNat s.xi (s.c + s.c) N) N) N)
      == s.c) = _
  rw [hv1, hx1, ← hc, beq_self_eq_true]

end PartialSign

/-- The parties of a dealing, at most 255 of them, sign a message: their shares are accepted, and whichever
are combined, the same signature comes out, the only one below the modulus that verifies. -/
theorem signs_of_dealing (hk : 1 ≤ k) (hwidth : n ≤ 255) (hhalf₁ : n < deal.primes.half₁)
    (hhalf₂ : n < deal.primes.half₂) (hodd : Odd e) (he : e.Coprime deal.primes.order)
    (hv : deal.v.Coprime deal.primes.modulus) {msg : Bytes} {h : ℕ}
    (hh : H1 E msg deal.primes.modulus group.modsize = .ok h)
    (hunit : h.Coprime deal.primes.modulus) :
    (∀ sk ∈ dealingKeys E group k n e deal, ∀ label drawn,
      ∃ s, partialSign E msg label sk drawn = .ok s ∧ s.id = sk.id
        ∧ verifyShare E s msg (dealingKey E group k n e deal) = .ok true)
    ∧ ∃ sig, sig.sig < deal.primes.modulus
      ∧ (∀ sig', verify E sig' (dealingKey E group k n e deal) msg = .ok true
        ↔ sig'.sig % deal.primes.modulus = sig.sig)
      ∧ ∀ shares : List Sh00SignatureShare,
        (∀ s ∈ shares, ∃ sk ∈ dealingKeys E group k n e deal, ∃ label drawn,
          partialSign E msg label sk drawn = .ok s) →
        (shares.map Sh00SignatureShare.id).Nodup → k ≤ shares.length →
        assemble E shares msg (dealingKey E group k n e deal) = .ok sig := by
  obtain ⟨x, j, hx, -⟩ := exists_H (k := k) (n := n) (e := e) deal hh hunit
  obtain ⟨-, -, -, xUnit, -, -, -, hxUnit, -⟩ := exists_unit_of_H deal hx
  have hxCoprime : x.Coprime deal.primes.modulus := by
    rw [← ZMod.isUnit_iff_coprime, hxUnit]
    exact xUnit.isUnit
  have hn : n ≤ 65535 := by omega
  refine ⟨?_, ?_⟩
  · intro sk hsk label drawn
    obtain ⟨hpos, hle, hsi, hpubkey⟩ := party_of_mem_dealingKeys hn hsk
    obtain ⟨s, hs, hid, -⟩ := exists_partialSign deal hpos hle hsi hpubkey hx label drawn
    exact ⟨s, hs, hid, verifyShare_partialSign deal hpos hle hsi hpubkey hx hv hxCoprime hs⟩
  · obtain ⟨sig, hlt, hassemble, hverify⟩ :=
      exists_signature deal hk (coprime_fac_of_lt hhalf₁ hhalf₂) hx
    refine ⟨sig, hlt, hverify (Nat.Coprime.mul_right hodd.coprime_two_right he), ?_⟩
    intro shares hshares hnodup hlength
    have hparty : ∀ s ∈ shares, (1 ≤ s.id.toNat ∧ s.id.toNat ≤ n)
        ∧ s.xi = powModNat x (2 * dealingShare k n e deal s.id) deal.primes.modulus := by
      intro s hs
      obtain ⟨sk, hsk, label, drawn, hsign⟩ := hshares s hs
      obtain ⟨hpos, hle, hsi, hpubkey⟩ := party_of_mem_dealingKeys hn hsk
      obtain ⟨s', hs', hid, hxi, -⟩ := exists_partialSign deal hpos hle hsi hpubkey hx label drawn
      obtain rfl := Outcome.ok.inj (hsign.symm.trans hs')
      rw [hid]
      exact ⟨⟨hpos, hle⟩, hxi⟩
    apply hassemble shares _ _ hnodup hlength
    · intro s hs
      rw [(hparty s hs).2, powModNat_eq]
      exact Nat.mod_modEq _ _
    · intro s hs
      obtain ⟨⟨hpos, hle⟩, -⟩ := hparty s hs
      exact ⟨hpos, hle, hle.trans hwidth⟩

end Key

/-- A number with Jacobi symbol `-1` has no factor in common with the modulus. -/
theorem coprime_of_jacobiSym {u N : ℕ} [NeZero N] (hu : jacobiSym u N = -1) : u.Coprime N := by
  have hne : jacobiSym u N ≠ 0 := by
    rw [hu]
    decide
  rwa [ne_eq, jacobiSym.eq_zero_iff_not_coprime, not_not, Int.gcd_natCast_natCast] at hne

/-- Sh00 from the dealer to the signature, for at most 255 parties and whatever safe primes,
coefficients, square `w ^ 2` and `u` the key is made of. The share of a party is accepted, and
whichever shares of the parties are combined, the one signature that comes out verifies. -/
theorem signs_and_agrees (E : Primitives) (group : Group) (P : SafePrimes) {k n e : ℕ} (hk : 1 ≤ k)
    (hwidth : n ≤ 255) (hhalf₁ : n < P.half₁) (hhalf₂ : n < P.half₂) (hodd : Odd e)
    (he : e.Coprime P.order) (coeff : ℕ → ℕ) {w u : ℕ} (hw : w.Coprime P.modulus)
    (hu : jacobiSym u P.modulus = -1) {msg : Bytes} {h : ℕ}
    (hh : H1 E msg P.modulus group.modsize = .ok h) (hunit : h.Coprime P.modulus) :
    let deal : Sh00Dealing := ⟨P, w ^ 2 % P.modulus, coeff, u, coprime_of_jacobiSym hu⟩
    let pk := dealingKey E group k n e deal
    (∀ sk ∈ dealingKeys E group k n e deal, sk.pubkey = pk ∧ ∀ label drawn,
      ∃ s, partialSign E msg label sk drawn = .ok s ∧ s.id = sk.id
        ∧ verifyShare E s msg pk = .ok true)
    ∧ ∃ sig, verify E sig pk msg = .ok true
      ∧ ∀ shares : List Sh00SignatureShare,
        (∀ s ∈ shares, ∃ sk ∈ dealingKeys E group k n e deal, ∃ label drawn,
          partialSign E msg label sk drawn = .ok s) →
        (shares.map Sh00SignatureShare.id).Nodup → k ≤ shares.length →
        assemble E shares msg pk = .ok sig := by
  intro deal pk
  have hv : (w ^ 2 % P.modulus).Coprime P.modulus := by
    rw [← powModNat_eq]
    exact coprime_powModNat hw 2
  obtain ⟨hsign, sig, hlt, hverify, hassemble⟩ :=
    signs_of_dealing deal hk hwidth hhalf₁ hhalf₂ hodd he hv hh hunit
  refine ⟨?_, sig, (hverify sig).mpr (Nat.mod_eq_of_lt hlt), hassemble⟩
  intro sk hsk
  obtain ⟨-, -, -, hpubkey⟩ := party_of_mem_dealingKeys (by omega) hsk
  exact ⟨hpubkey, hsign sk hsk⟩

/-- The safe primes 11 and 23. -/
def safePrimesTwoDigits : SafePrimes where
  half₁ := 5
  half₂ := 11
  prime_half₁ := by decide
  prime_half₂ := by decide
  prime₁ := by decide
  prime₂ := by decide
  half_ne := by decide

/-- Three parties with threshold two, the modulus 253 and the exponent 3. -/
theorem signs_and_agrees_small :
    H1 .truncating [5] safePrimesTwoDigits.modulus Group.rsa512.modsize = .ok 205
      ∧ ∃ pk sig, verify .truncating sig pk [5] = .ok true := by
  have hh : H1 .truncating [5] safePrimesTwoDigits.modulus Group.rsa512.modsize = .ok 205 := by
    decide +kernel
  have hu : jacobiSym 2 safePrimesTwoDigits.modulus = -1 := by
    change jacobiSym 2 253 = -1
    norm_num
  obtain ⟨-, sig, hverify, -⟩ := signs_and_agrees .truncating .rsa512 safePrimesTwoDigits (k := 2)
    (n := 3) (e := 3) (w := 2) (u := 2) (by decide) (by decide) (by decide) (by decide) (by decide)
    (by decide) id (by decide) hu hh (by decide)
  exact ⟨hh, _, sig, hverify⟩

end Sh00ThresholdSignature

end QuorumCrypt
