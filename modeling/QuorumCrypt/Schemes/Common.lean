import QuorumCrypt.Schemes.Primitives
import QuorumCrypt.Base.Sharing
import Mathlib.Algebra.Field.ZMod
import Mathlib.Tactic.Ring

/-!
# Secret sharing and interpolation in the exponent

`dl_schemes/common.rs`. The functions come first, as the code computes them on unsigned scalars. The
rest of the module reads them in the field of the group order: a share is a value of the dealer's
polynomial, `lagrangeCoeff` is the weight of an id among the ids of the list, and `interpolate`
therefore raises the common base to the secret.
-/

namespace QuorumCrypt

open Rust Polynomial

/-- Evaluate the polynomial with coefficients `a`, highest first. `a[0]` panics on an empty list, so
the caller shows that there is a coefficient. -/
def horner (q x : ℕ) (a : List ℕ) (ha : a ≠ []) : ℕ :=
  a.tail.foldl (fun result c => (mulMod result x q + c) % q) (a.head ha)

/-- The coefficients of the dealer's polynomial: `k - 1` drawn ones, then the secret. -/
def sharingCoeffs (q x k : ℕ) (rng : ℕ → ℕ) : List ℕ :=
  (List.range (k - 1)).map (fun i => rng i % q) ++ [x]

theorem sharingCoeffs_ne_nil (q x k : ℕ) (rng : ℕ → ℕ) : sharingCoeffs q x k rng ≠ [] := by
  simp [sharingCoeffs]

/-- The share of party `j`. -/
def shareOf (q x k : ℕ) (rng : ℕ → ℕ) (j : ℕ) : ℕ :=
  horner q j (sharingCoeffs q x k rng) (sharingCoeffs_ne_nil q x k rng)

/-- The shares of the parties `1..n`. -/
def dealtShares (q x k n : ℕ) (rng : ℕ → ℕ) : List ℕ :=
  (List.range n).map fun j => shareOf q x k rng (j + 1)

/-- Share the secret `x` among `n` parties with threshold `k`; the second list is the verification
keys. The range `0..k - 1` overflows on the threshold zero. -/
def shamirShare {G : Type} [CommGroup G] (C : EcGroup G) (x k n : ℕ) (rng : ℕ → ℕ) :
    SchemeOutcome (List ℕ × List G) :=
  if k = 0 then .panic
  else
    let shares := dealtShares C.order x k n rng
    .ok (shares, shares.map fun xi => C.generator ^ xi)

/-- `verification_key[(id - 1) as usize]`. The subtraction overflows on the id zero. -/
def verificationKeyAt {α : Type} (verificationKey : List α) (id : UInt16) : SchemeOutcome α :=
  if id = 0 then .panic else Outcome.index verificationKey (id.toNat - 1)

/-- Byte-wise xor, as long as the shorter argument. -/
def xor (v1 v2 : Bytes) : Bytes := List.zipWith (fun x1 x2 => x1 ^^^ x2) v1 v2

/-- A symmetric key, as `gen_symm_key` returns it. -/
abbrev SymmKey := { key : Bytes // key.length = 32 }

/-- What the random generator of a call returns, in the order in which the code asks for it. -/
structure Drawn where
  scalar : ℕ → ℕ
  symmKey : SymmKey

/-- A source that counts. -/
def Drawn.counting : Drawn := ⟨id, List.replicate 32 7, rfl⟩

/-- The first twelve bytes of the point are the nonce. -/
def nonceOf (point : Bytes) : Bytes := point.take 12

/-- The symmetric part of both `encrypt` functions: the message under the key, and the key under the
hash of the point. `expect` panics when the message is too long for the cipher. -/
def sealMessage (E : Primitives) (point : Bytes) (k : SymmKey) (msg : Bytes) :
    SchemeOutcome (Bytes × Bytes) := do
  let encryption ← Outcome.unwrap (E.aead.encrypt k.val (nonceOf point) msg)
  .ok (encryption, xor (E.hash256 point) k.val)

/-- The symmetric part of both `assemble` functions. `Key::from_slice` panics on a key of the wrong
length, which is what a short `c_k` gives. -/
def openMessage (E : Primitives) (point ck ctxt : Bytes) : SchemeOutcome Bytes :=
  let k := xor (E.hash256 point) ck
  if k.length ≠ 32 then .panic
  else
    match E.aead.decrypt k (nonceOf point) ctxt with
    | none => .err .macFailure
    | some msg => .ok msg

/-! `key_generator.rs`: what the arms of `generate_keys` share. -/

def checkParams (k n : ℕ) : SchemeOutcome Unit :=
  if k > n ∨ n < 1 then .err (.invalidParams none) else .ok ()

/-- Number the shares from one on. The conversion `as u16` wraps around. -/
def numberShares {K : Type} (shares : List ℕ) (key : UInt16 → ℕ → K) : List K :=
  shares.mapIdx fun i xi => key (UInt16.ofNat (i + 1)) xi

/-- Number the shares with `try_into().unwrap()`, which panics on the first id above `u16::MAX`. -/
def tryNumberShares {K : Type} (shares : List ℕ) (key : UInt16 → ℕ → K) :
    SchemeOutcome (List K) :=
  if 65535 < shares.length then .panic else .ok (numberShares shares key)

/-- The factor of index `j` in the coefficient of `i`: `j / (j - i)` modulo `q`. -/
def lagrangeFactor (q : ℕ) (i j : ℤ) : ℕ :=
  let val := (j - i).natAbs
  let ij := if i > j then q - val else val
  mulMod (invMod ij q) j.toNat q

def lagrangeCoeff (q : ℕ) (indices : List UInt16) (i : ℤ) : ℕ :=
  indices.foldl (fun prod index =>
    let j : ℤ := index.toNat
    if i ≠ j then mulMod (prod % q) (lagrangeFactor q i j) q else prod) 1 % q

/-- A share with a group element. -/
class DlShare (T : Type) (G : outParam Type) where
  getId : T → UInt16
  getData : T → G

section Interpolate

variable {G T : Type} [CommGroup G] [DlShare T G]

/-- The factor a share contributes, given the ids of all shares. -/
def interpolationTerm (q : ℕ) (ids : List UInt16) (share : T) : G :=
  DlShare.getData share ^ lagrangeCoeff q ids (DlShare.getId share).toNat

/-- Lagrange interpolation in the exponent. `shares[0]` panics on an empty vector. -/
def interpolate (C : EcGroup G) : List T → SchemeOutcome G
  | [] => .panic
  | share :: rest =>
      let ids := (share :: rest).map DlShare.getId
      .ok (rest.foldl (fun ry s => ry * interpolationTerm C.order ids s)
        (interpolationTerm C.order ids share))

theorem interpolate_eq_prod (C : EcGroup G) {shares : List T} (hne : shares ≠ []) :
    interpolate C shares =
      .ok (shares.map (interpolationTerm C.order (shares.map DlShare.getId))).prod := by
  cases shares with
  | nil => exact absurd rfl hne
  | cons share rest =>
      have hfold : ∀ (ids : List UInt16) (xs : List T) (ry : G),
          xs.foldl (fun ry s => ry * interpolationTerm C.order ids s) ry =
            ry * (xs.map (interpolationTerm C.order ids)).prod := by
        intro ids xs
        induction xs with
        | nil => simp
        | cons s xs ih =>
            intro ry
            rw [List.foldl_cons, ih, List.map_cons, List.prod_cons, mul_assoc]
      simp only [interpolate, hfold, List.map_cons, List.prod_cons]

end Interpolate

/-- Ids and thresholds that fit in `u16` pass through it unchanged. -/
theorem toNat_ofNat_of_le {k : ℕ} (hk : k ≤ 65535) : (UInt16.ofNat k).toNat = k :=
  UInt16.toNat_ofNat'.trans (Nat.mod_eq_of_lt (by omega))

theorem verificationKeyAt_eq_ok {α : Type} {keys : List α} {id : UInt16} {key : α} :
    verificationKeyAt keys id = .ok key ↔ id ≠ 0 ∧ keys[id.toNat - 1]? = some key := by
  unfold verificationKeyAt
  split <;> simp_all [Outcome.index_eq_ok]

/-- The ids with a verification key are those of the parties. -/
theorem toNat_of_verificationKeyAt {α : Type} {keys : List α} {id : UInt16} {key : α}
    (h : verificationKeyAt keys id = .ok key) : 1 ≤ id.toNat ∧ id.toNat ≤ keys.length := by
  obtain ⟨hne, hkey⟩ := verificationKeyAt_eq_ok.mp h
  have hpos : id.toNat ≠ 0 := fun hzero => hne (UInt16.toNat_inj.mp hzero)
  have hlt := (List.getElem?_eq_some_iff.mp hkey).1
  omega

/-- A one-time pad is its own inverse. -/
theorem xor_xor_cancel_left {pad key : Bytes} (h : key.length = pad.length) :
    xor pad (xor pad key) = key := by
  induction pad generalizing key with
  | nil => exact (List.length_eq_zero_iff.mp h).symm
  | cons p pad ih =>
      cases key with
      | nil => simp at h
      | cons b key =>
          have hrest : xor pad (xor pad key) = key := ih (by simpa using h)
          simp only [xor, List.zipWith_cons_cons] at hrest ⊢
          rw [hrest, ← UInt8.xor_assoc, UInt8.xor_self, UInt8.zero_xor]

/-- The hash of the same point opens what it sealed. -/
theorem openMessage_of_sealMessage {E : Primitives} {point msg encryption ck : Bytes} {k : SymmKey}
    (h : sealMessage E point k msg = .ok (encryption, ck)) :
    openMessage E point ck encryption = .ok msg := by
  obtain ⟨ctxt, hctxt, hpair⟩ := Outcome.bind_eq_ok.mp h
  obtain ⟨rfl, rfl⟩ := Prod.mk.inj (Outcome.ok.inj hpair)
  have hkey : xor (E.hash256 point) (xor (E.hash256 point) k.val) = k.val :=
    xor_xor_cancel_left (by rw [k.property, E.length_hash256])
  have hdecrypt := E.aead.decrypt_encrypt _ _ _ _ (Outcome.unwrap_eq_ok.mp hctxt)
  rw [openMessage, hkey, if_neg (by simp [k.property]), hdecrypt]

/-! ### The shares of the parties -/

section Dealing

variable {G : Type} [CommGroup G] (C : EcGroup G) (x k n : ℕ) (rng : ℕ → ℕ)

/-- What every arm of `generate_keys` begins with succeeds exactly on `1 ≤ k ≤ n`. -/
theorem deal_eq_ok {α : Type} {next : List ℕ × List G → SchemeOutcome α} {a : α} :
    (checkParams k n >>= fun _ => shamirShare C x k n rng >>= next) = .ok a
      ↔ 1 ≤ k ∧ k ≤ n ∧ next (dealtShares C.order x k n rng,
          (dealtShares C.order x k n rng).map fun xi => C.generator ^ xi) = .ok a := by
  by_cases hparams : k > n ∨ n < 1
  · simp only [checkParams, if_pos hparams, Outcome.err_bind, reduceCtorEq, false_iff]
    omega
  by_cases hk : k = 0
  · simp only [checkParams, if_neg hparams, Outcome.ok_bind, shamirShare, if_pos hk,
      Outcome.panic_bind, reduceCtorEq, false_iff]
    omega
  rw [checkParams, if_neg hparams, Outcome.ok_bind, shamirShare, if_neg hk]
  have hrange : 1 ≤ k ∧ k ≤ n := by omega
  simp only [hrange, true_and, Outcome.ok_bind]

@[simp] theorem length_dealtShares (q : ℕ) : (dealtShares q x k n rng).length = n := by
  simp [dealtShares]

theorem getElem?_dealtShares (q : ℕ) {i : ℕ} (hi : i < n) :
    (dealtShares q x k n rng)[i]? = some (shareOf q x k rng (i + 1)) := by
  simp [dealtShares, hi]

theorem mem_numberShares {K : Type} (q : ℕ) {key : UInt16 → ℕ → K} {sk : K} :
    sk ∈ numberShares (dealtShares q x k n rng) key
      ↔ ∃ i < n, sk = key (UInt16.ofNat (i + 1)) (shareOf q x k rng (i + 1)) := by
  simp only [numberShares, List.mem_mapIdx, length_dealtShares]
  refine exists_congr fun i => ⟨?_, ?_⟩
  · rintro ⟨hi, rfl⟩
    exact ⟨hi, by simp [dealtShares]⟩
  · rintro ⟨hi, rfl⟩
    exact ⟨hi, by simp [dealtShares]⟩

theorem tryNumberShares_eq_ok {K : Type} (q : ℕ) {key : UInt16 → ℕ → K} {keys : List K} :
    tryNumberShares (dealtShares q x k n rng) key = .ok keys
      ↔ n ≤ 65535 ∧ keys = numberShares (dealtShares q x k n rng) key := by
  rw [tryNumberShares, length_dealtShares]
  by_cases hn : 65535 < n
  · simp only [if_pos hn, reduceCtorEq, false_iff]
    omega
  · rw [if_neg hn, Outcome.ok.injEq, eq_comm]
    exact ⟨fun h => ⟨by omega, h⟩, fun h => h.2⟩

/-- With at most `u16::MAX` parties every key carries the id of its share. -/
theorem exists_id_of_mem_numberShares {K : Type} (q : ℕ) {key : UInt16 → ℕ → K} {sk : K}
    (hn : n ≤ 65535) (hsk : sk ∈ numberShares (dealtShares q x k n rng) key) :
    ∃ id : UInt16, 1 ≤ id.toNat ∧ id.toNat ≤ n ∧ sk = key id (shareOf q x k rng id.toNat) := by
  obtain ⟨i, hi, rfl⟩ := (mem_numberShares x k n rng q).mp hsk
  have hid : (UInt16.ofNat (i + 1)).toNat = i + 1 := by
    exact toNat_ofNat_of_le (by omega)
  exact ⟨UInt16.ofNat (i + 1), by omega, by omega, by rw [hid]⟩

/-- The key of party `id`. -/
theorem getElem?_numberShares {K : Type} (q : ℕ) {key : UInt16 → ℕ → K} {id : UInt16}
    (hpos : 1 ≤ id.toNat) (hle : id.toNat ≤ n) :
    (numberShares (dealtShares q x k n rng) key)[id.toNat - 1]?
      = some (key id (shareOf q x k rng id.toNat)) := by
  have hlt : id.toNat - 1 < n := by omega
  have hsucc : id.toNat - 1 + 1 = id.toNat := by omega
  rw [numberShares, List.getElem?_mapIdx, getElem?_dealtShares x k n rng q hlt, Option.map_some,
    hsucc, UInt16.ofNat_toNat]

/-- Party `id` finds the power of its own share under its id. -/
theorem verificationKeyAt_dealtShares {id : UInt16} (hpos : 1 ≤ id.toNat) (hle : id.toNat ≤ n) :
    verificationKeyAt ((dealtShares C.order x k n rng).map fun xi => C.generator ^ xi) id
      = .ok (C.generator ^ shareOf C.order x k rng id.toNat) := by
  rw [verificationKeyAt_eq_ok]
  have hne : id ≠ 0 := by
    rintro rfl
    simp at hpos
  have hlt : id.toNat - 1 < n := by omega
  have hsucc : id.toNat - 1 + 1 = id.toNat := by omega
  refine ⟨hne, ?_⟩
  rw [List.getElem?_map, getElem?_dealtShares x k n rng C.order hlt, hsucc, Option.map_some]

end Dealing

/-! ### The functions read modulo the group order -/

section Residues

variable {q : ℕ} [Fact q.Prime]

theorem cast_horner (x : ℕ) (a : List ℕ) (ha : a ≠ []) :
    ((horner q x a ha : ℕ) : ZMod q)
      = (Sharing.polynomial (a.map fun c : ℕ => (c : ZMod q))).eval (x : ZMod q) := by
  have hfold : ∀ (rest : List ℕ) (result : ℕ),
      ((rest.foldl (fun result c => (mulMod result x q + c) % q) result : ℕ) : ZMod q)
        = (rest.map fun c : ℕ => (c : ZMod q)).foldl (fun r c : ZMod q => r * x + c) result := by
    intro rest
    induction rest with
    | nil => intro result; rfl
    | cons c rest ih =>
        intro result
        rw [List.foldl_cons, ih, List.map_cons, List.foldl_cons]
        simp
  cases a with
  | nil => exact absurd rfl ha
  | cons a₀ rest =>
      rw [Sharing.eval_polynomial, horner, List.head_cons, List.tail_cons, hfold]
      simp

/-- The dealer's polynomial over the field of the group order. -/
noncomputable def sharingPolynomial (q x k : ℕ) [Fact q.Prime] (rng : ℕ → ℕ) : (ZMod q)[X] :=
  Sharing.polynomial ((sharingCoeffs q x k rng).map fun c : ℕ => (c : ZMod q))

theorem cast_shareOf (x k : ℕ) (rng : ℕ → ℕ) (j : ℕ) :
    ((shareOf q x k rng j : ℕ) : ZMod q) = (sharingPolynomial q x k rng).eval (j : ZMod q) :=
  cast_horner j _ _

theorem eval_zero_sharingPolynomial (x k : ℕ) (rng : ℕ → ℕ) :
    (sharingPolynomial q x k rng).eval 0 = (x : ZMod q) := by
  rw [sharingPolynomial, sharingCoeffs, List.map_append, List.map_cons, List.map_nil,
    Sharing.eval_zero_polynomial]

theorem degree_sharingPolynomial_lt (x : ℕ) {k : ℕ} (hk : 1 ≤ k) (rng : ℕ → ℕ) :
    (sharingPolynomial q x k rng).degree < k := by
  have hdegree := Sharing.degree_polynomial_lt ((sharingCoeffs q x k rng).map fun c : ℕ => (c : ZMod q))
  have hlength : ((sharingCoeffs q x k rng).map fun c : ℕ => (c : ZMod q)).length = k := by
    simp only [sharingCoeffs, List.length_map, List.length_append, List.length_range,
      List.length_singleton]
    omega
  rwa [hlength] at hdegree

theorem cast_lagrangeFactor {i j : ℕ} (hi : i < q) :
    ((lagrangeFactor q i j : ℕ) : ZMod q) = (j : ZMod q) * ((j : ZMod q) - i)⁻¹ := by
  have hdifference : (((if (i : ℤ) > j then q - ((j : ℤ) - i).natAbs
      else ((j : ℤ) - i).natAbs) : ℕ) : ZMod q) = (j : ZMod q) - i := by
    -- the code takes `q - |j - i|` for a negative difference
    split
    · rename_i hlt
      have habs : ((j : ℤ) - i).natAbs = i - j := by omega
      rw [habs, Nat.cast_sub (by omega), Nat.cast_sub (by omega), ZMod.natCast_self]
      ring
    · rename_i hle
      have habs : ((j : ℤ) - i).natAbs = j - i := by omega
      rw [habs, Nat.cast_sub (by omega)]
  rw [lagrangeFactor, cast_mulMod, cast_invMod, hdifference, Int.toNat_natCast, mul_comm]

/-- The coefficient the code computes is the weight of the id. -/
theorem cast_lagrangeCoeff {ids : List UInt16} (hids : ∀ j ∈ ids, j.toNat < q) {i : UInt16}
    (hi : i.toNat < q) :
    ((lagrangeCoeff q ids i.toNat : ℕ) : ZMod q)
      = Sharing.weight ids (fun j : UInt16 => (j.toNat : ZMod q)) i := by
  have hfold : ∀ (xs : List UInt16) (acc : ℕ), (∀ j ∈ xs, j.toNat < q) →
      ((xs.foldl (fun prod index =>
        if ((i.toNat : ℕ) : ℤ) ≠ ((index.toNat : ℕ) : ℤ) then
          mulMod (prod % q) (lagrangeFactor q i.toNat index.toNat) q else prod) acc : ℕ) : ZMod q)
        = acc * Sharing.weight xs (fun j : UInt16 => (j.toNat : ZMod q)) i := by
    intro xs
    induction xs with
    | nil => simp [Sharing.weight]
    | cons j xs ih =>
        intro acc hxs
        rw [List.foldl_cons, ih _ fun j hj => hxs j (List.mem_cons_of_mem _ hj)]
        by_cases heq : i = j
        · subst heq
          simp [Sharing.weight]
        · have hne : ((i.toNat : ℕ) : ℤ) ≠ ((j.toNat : ℕ) : ℤ) := by
            intro h
            exact heq (UInt16.toNat_inj.mp (by exact_mod_cast h))
          rw [if_pos hne, cast_mulMod, cast_lagrangeFactor hi]
          simp only [Sharing.weight, ZMod.natCast_mod, List.filter_cons, heq, ne_eq,
            not_false_eq_true, decide_true, if_true, List.map_cons, List.prod_cons, mul_assoc]
  rw [lagrangeCoeff, ZMod.natCast_mod, hfold ids 1 hids, Nat.cast_one, one_mul]

end Residues

/-! ### Fewer shares than the threshold -/

section Privacy

/-- A generator that returns the coefficients `a`. -/
def drawnCoeffs {k q : ℕ} (a : Fin (k - 1) → Fin q) (i : ℕ) : ℕ :=
  if hi : i < k - 1 then a ⟨i, hi⟩ else 0

theorem sharingCoeffs_drawnCoeffs {q : ℕ} (x k : ℕ) (a : Fin (k - 1) → Fin q) :
    sharingCoeffs q x k (drawnCoeffs a) = List.ofFn (fun i => (a i : ℕ)) ++ [x] := by
  apply congrArg (· ++ [x])
  refine List.ext_getElem (by simp) fun i hi _ => ?_
  have hi : i < k - 1 := by simpa using hi
  rw [List.getElem_map, List.getElem_range, List.getElem_ofFn, drawnCoeffs, dif_pos hi]
  exact Nat.mod_eq_of_lt (a ⟨i, hi⟩).isLt

/-- Every step of the evaluation after the first coefficient reduces. -/
theorem horner_lt {q : ℕ} (hq : 0 < q) (x : ℕ) (a : List ℕ) (ha : a ≠ []) (htail : a.tail ≠ []) :
    horner q x a ha < q := by
  obtain hnil | ⟨rest, c, hrest⟩ := List.eq_nil_or_concat a.tail
  · exact absurd hnil htail
  · rw [horner, hrest, List.concat_eq_append, List.foldl_append]
    exact Nat.mod_lt _ hq

theorem shareOf_lt {q k : ℕ} (hq : 0 < q) (hk : 2 ≤ k) (x : ℕ) (rng : ℕ → ℕ) (j : ℕ) :
    shareOf q x k rng j < q := by
  apply horner_lt hq
  rw [Ne, ← List.length_eq_zero_iff, List.length_tail, sharingCoeffs, List.length_append,
    List.length_map, List.length_range, List.length_singleton]
  omega

/-- The shares of the parties `ids`, one fewer than the threshold, for the coefficients `a`. -/
def coalitionShares (q x k : ℕ) (hq : 0 < q) (ids : Fin (k - 1) → ℕ) (a : Fin (k - 1) → Fin q) :
    Fin (k - 1) → Fin q :=
  fun t => ⟨shareOf q x k (drawnCoeffs a) (ids t), shareOf_lt hq (by have := t.isLt; omega) _ _ _⟩

/-- For a fixed secret, different coefficients give the coalition different shares. -/
theorem coalitionShares_injective {q : ℕ} [Fact q.Prime] (x : ℕ) {k : ℕ} (hq : 0 < q)
    {ids : Fin (k - 1) → ℕ} (hinj : Function.Injective ids)
    (hids : ∀ t, 1 ≤ ids t ∧ ids t < q) :
    Function.Injective (coalitionShares q x k hq ids) := by
  intro a b hab
  have heval : ∀ (c : Fin (k - 1) → Fin q) t, ((coalitionShares q x k hq ids c t : ℕ) : ZMod q)
      = (Sharing.polynomial (List.ofFn (fun i => ((c i : ℕ) : ZMod q)) ++ [(x : ZMod q)])).eval
        (ids t : ZMod q) := by
    intro c t
    refine (cast_shareOf x k (drawnCoeffs c) (ids t)).trans ?_
    rw [sharingPolynomial, sharingCoeffs_drawnCoeffs, List.map_append, List.map_ofFn]
    rfl
  have hpoints : Function.Injective fun t => (ids t : ZMod q) := by
    intro t t' h
    apply hinj
    rwa [ZMod.natCast_eq_natCast_iff', Nat.mod_eq_of_lt (hids t).2,
      Nat.mod_eq_of_lt (hids t').2] at h
  have hne : ∀ t, (ids t : ZMod q) ≠ 0 := by
    intro t hzero
    rw [ZMod.natCast_eq_zero_iff] at hzero
    have hle := Nat.le_of_dvd (hids t).1 hzero
    have hlt := (hids t).2
    omega
  have hcoeffs : List.ofFn (fun i => ((a i : ℕ) : ZMod q))
      = List.ofFn fun i => ((b i : ℕ) : ZMod q) := by
    refine Sharing.eq_of_shares_eq hpoints hne (by simp) (by simp) (x := (x : ZMod q)) fun t => ?_
    rw [← heval a t, ← heval b t, hab]
  funext i
  have hi := congrFun (List.ofFn_injective hcoeffs) i
  rw [ZMod.natCast_eq_natCast_iff', Nat.mod_eq_of_lt (a i).isLt, Nat.mod_eq_of_lt (b i).isLt] at hi
  exact Fin.ext hi

/-- Parties one short of the threshold learn nothing. Their places in the list that `shamirShare`
returns hold what `coalitionShares` says; for every secret this is a bijection from the drawn
coefficients to the shares, and so over all coefficients the shares are the same collection of tuples
for any two secrets. -/
theorem coalition_learns_nothing {G : Type} [CommGroup G] (C : EcGroup G) {k n : ℕ} (hk : 1 ≤ k)
    (hn : n < C.order) (ids : Fin (k - 1) → ℕ) (hinj : Function.Injective ids)
    (hids : ∀ t, 1 ≤ ids t ∧ ids t ≤ n) :
    (∀ x a, ∃ shares keys, shamirShare C x k n (drawnCoeffs a) = .ok (shares, keys)
      ∧ ∀ t, shares[ids t - 1]? = some (coalitionShares C.order x k C.prime.pos ids a t : ℕ))
    ∧ (∀ x, Function.Bijective (coalitionShares C.order x k C.prime.pos ids))
    ∧ ∀ x x', (Finset.univ.val.map (coalitionShares C.order x k C.prime.pos ids))
      = Finset.univ.val.map (coalitionShares C.order x' k C.prime.pos ids) := by
  have hbijective : ∀ x, Function.Bijective (coalitionShares C.order x k C.prime.pos ids) := by
    intro x
    rw [← Finite.injective_iff_bijective]
    exact coalitionShares_injective x C.prime.pos hinj fun t =>
      ⟨(hids t).1, lt_of_le_of_lt (hids t).2 hn⟩
  refine ⟨?_, hbijective, ?_⟩
  · intro x a
    refine ⟨_, _, by rw [shamirShare, if_neg (by omega)], ?_⟩
    intro t
    have hlt : ids t - 1 < n := by
      have := hids t
      omega
    rw [getElem?_dealtShares _ _ _ _ _ hlt, Nat.sub_add_cancel (hids t).1]
    rfl
  · intro x x'
    rw [(Multiset.bijective_iff_map_univ_eq_univ _).mp (hbijective x),
      (Multiset.bijective_iff_map_univ_eq_univ _).mp (hbijective x')]

/-- Parties two and four of four, with threshold three, over the residues modulo seven. -/
theorem coalition_learns_nothing_seven :
    4 < EcGroup.seven.order ∧ ∀ x x' : ℕ,
      (Finset.univ.val.map (coalitionShares 7 x 3 (by decide) ![2, 4]))
        = Finset.univ.val.map (coalitionShares 7 x' 3 (by decide) ![2, 4]) :=
  ⟨by decide, (coalition_learns_nothing EcGroup.seven (k := 3) (n := 4) (by decide) (by decide)
    ![2, 4] (by decide) (by decide)).2.2⟩

end Privacy

/-! ### What the dealer of a key hands out -/

/-- The secret of a key: the first scalar `generate_keys` draws. -/
def dealtSecret (q : ℕ) (rng : ℕ → ℕ) : ℕ := rng 0 % q

/-- The secret share of party `id`. -/
def dealtShare (q k : ℕ) (rng : ℕ → ℕ) (id : UInt16) : ℕ :=
  shareOf q (dealtSecret q rng) k (fun i => rng (i + 1)) id.toNat

/-- A share is reduced, also when the threshold is one and the secret is its own share. -/
theorem dealtShare_lt {q : ℕ} (hq : 0 < q) (k : ℕ) (rng : ℕ → ℕ) (id : UInt16) :
    dealtShare q k rng id < q := by
  by_cases hk : 2 ≤ k
  · exact shareOf_lt hq hk _ _ _
  · have hzero : k - 1 = 0 := by omega
    have hcoeffs : sharingCoeffs q (dealtSecret q rng) k (fun i => rng (i + 1))
        = [dealtSecret q rng] := by
      rw [sharingCoeffs, hzero]
      rfl
    simp only [dealtShare, shareOf, hcoeffs, horner, List.head_cons, List.tail_cons, List.foldl_nil]
    exact Nat.mod_lt _ hq

/-! ### Interpolation recovers the secret -/

section Recovery

variable {G : Type} [CommGroup G] (C : EcGroup G) (u : G)

/-- Powers of `u` by the values of one polynomial, raised to the coefficients of their ids, multiply
up to `u` raised to its value at zero, for every list of enough distinct ids and in every order. -/
theorem prod_pow_lagrangeCoeff {p : (ZMod C.order)[X]} {ids : List UInt16} {x : ℕ}
    {exponent : UInt16 → ℕ} (hdegree : p.degree < ids.length) (hsecret : p.eval 0 = x)
    (hexponent : ∀ id ∈ ids, ((exponent id : ℕ) : ZMod C.order) = p.eval (id.toNat : ZMod C.order))
    (hnodup : ids.Nodup) (hbound : ∀ id ∈ ids, id.toNat < C.order) :
    (ids.map fun id => (u ^ exponent id) ^ lagrangeCoeff C.order ids id.toNat).prod = u ^ x := by
  rw [PrimeGroup.prod_pow_eq]
  refine C.pow_congr u ?_
  rw [← hsecret, Nat.cast_list_sum, List.map_map]
  have hinj : ∀ i ∈ ids, ∀ j ∈ ids,
      ((i : UInt16).toNat : ZMod C.order) = (j.toNat : ZMod C.order) → i = j := by
    intro i hi j hj h
    rw [ZMod.natCast_eq_natCast_iff', Nat.mod_eq_of_lt (hbound i hi),
      Nat.mod_eq_of_lt (hbound j hj)] at h
    exact UInt16.toNat_inj.mp h
  rw [← Sharing.sum_weight_eq_eval_zero hnodup hinj hdegree]
  refine congrArg List.sum (List.map_congr_left fun id hid => ?_)
  rw [Function.comp_apply, Nat.cast_mul, hexponent id hid, cast_lagrangeCoeff hbound (hbound id hid)]

/-- The shares of a key in the exponent of `u` give `u` raised to the secret. -/
theorem prod_pow_dealtShare {k n : ℕ} (hk : 1 ≤ k) (hn : n < C.order) (rng : ℕ → ℕ)
    {ids : List UInt16} (hlength : k ≤ ids.length) (hnodup : ids.Nodup)
    (hids : ∀ id ∈ ids, id.toNat ≤ n) :
    (ids.map fun id => (u ^ dealtShare C.order k rng id)
        ^ lagrangeCoeff C.order ids id.toNat).prod = u ^ dealtSecret C.order rng := by
  refine prod_pow_lagrangeCoeff C u
    (p := sharingPolynomial C.order (dealtSecret C.order rng) k fun i => rng (i + 1))
    ?_ (eval_zero_sharingPolynomial _ _ _) (fun _ _ => cast_shareOf _ _ _ _) hnodup
    fun id hid => lt_of_le_of_lt (hids id hid) hn
  exact lt_of_lt_of_le (degree_sharingPolynomial_lt _ hk _) (by exact_mod_cast hlength)

/-- Enough shares of a key in the exponent of `u` interpolate to `u` raised to the secret. -/
theorem interpolate_dealtShare {T : Type} [DlShare T G] {k n : ℕ} (hk : 1 ≤ k) (hn : n < C.order)
    (rng : ℕ → ℕ) {shares : List T}
    (hdata : ∀ s ∈ shares, DlShare.getData s = u ^ dealtShare C.order k rng (DlShare.getId s))
    (hlength : k ≤ shares.length) (hnodup : (shares.map DlShare.getId).Nodup)
    (hids : ∀ s ∈ shares, (DlShare.getId s).toNat ≤ n) :
    interpolate C shares = .ok (u ^ dealtSecret C.order rng) := by
  have hne : shares ≠ [] := by
    rintro rfl
    simp only [List.length_nil] at hlength
    omega
  rw [interpolate_eq_prod C hne, ← prod_pow_dealtShare C u hk hn rng
    (by rwa [List.length_map]) hnodup, List.map_map]
  · refine congrArg (fun terms => Outcome.ok (List.prod terms)) (List.map_congr_left fun s hs => ?_)
    rw [interpolationTerm, hdata s hs, Function.comp_apply]
  · intro id hid
    obtain ⟨s, hs, rfl⟩ := List.mem_map.mp hid
    exact hids s hs

end Recovery

end QuorumCrypt
