import QuorumCrypt.Keys.RandomStream

/-!
# Which parameters `generate_keys` accepts

The one check that all schemes share is `k ≤ n` and `1 ≤ n`. What the schemes should have besides, they
have only in part: the threshold zero, more than `u16::MAX` parties, the group of a Frost key and the
public exponent of an Sh00 key are never checked. A threshold of zero panics on the curves and gives
keys without a secret for RSA; too many parties panic for Sg02 and get ids that wrap around in the other
schemes; Frost panics on an RSA group and makes keys on every curve; and an exponent without inverse
gives the secret exponent zero.
-/

namespace QuorumCrypt

open Rust

/-- `check_valid_group`. -/
def ThresholdScheme.checkValidGroup (scheme : ThresholdScheme) (group : Group) : Bool :=
  match scheme with
  | .bls04 => group.isDl && group.supportsPairings
  | .bz03 => group.isDl && group.supportsPairings
  | .cks05 => group.isDl
  | .frost => [Group.ed25519].contains group
  | .sg02 => group.isDl
  | .sh00 => !group.isDl

variable {K : Curves}

/-- How many verification keys a public key has. -/
def PublicKey.verificationKeyCount : PublicKey K → ℕ
  | .sg02 _ key => key.verificationKey.length
  | .bz03 _ key => key.verificationKey.length
  | .bls04 _ key => key.verificationKey.length
  | .cks05 _ key => key.verificationKey.length
  | .sh00 key => key.verificationKey.vi.length
  | .frost _ key => key.h.length

/-- The keys of a dealing for `n` parties with threshold `k`. -/
structure WellShaped (k n : ℕ) (keys : List (PrivateKeyShare K)) : Prop where
  ids : keys.map (fun key => key.getShareId.toNat) = List.range' 1 n
  public_key : ∃ pk, ∀ key ∈ keys, key.getPublicKey = pk
  threshold : ∀ key ∈ keys, key.getThreshold.toNat = k
  verification_keys : ∀ key ∈ keys, key.getPublicKey.verificationKeyCount = n

/-- Shares that are numbered from one on, under one public key. -/
theorem wellShaped_numberShares {S : Type} {k n : ℕ} (hn : n ≤ 65535) {shares : List ℕ}
    (hlength : shares.length = n) {key : UInt16 → ℕ → S} {wrap : S → PrivateKeyShare K}
    (pk : PublicKey K) (hid : ∀ id xi, (wrap (key id xi)).getShareId = id)
    (hpk : ∀ id xi, (wrap (key id xi)).getPublicKey = pk)
    (hthreshold : ∀ id xi, (wrap (key id xi)).getThreshold.toNat = k)
    (hcount : pk.verificationKeyCount = n) :
    WellShaped k n ((numberShares shares key).map wrap) := by
  have hmem : ∀ sk ∈ (numberShares shares key).map wrap, ∃ id xi, sk = wrap (key id xi) := by
    intro sk hsk
    obtain ⟨inner, hinner, rfl⟩ := List.mem_map.mp hsk
    obtain ⟨i, hi, rfl⟩ := List.mem_mapIdx.mp hinner
    exact ⟨_, _, rfl⟩
  refine ⟨?_, ⟨pk, ?_⟩, ?_, ?_⟩
  · apply List.ext_getElem
    · simp [numberShares, hlength]
    · intro i hi hi'
      rw [List.length_range'] at hi'
      simp only [numberShares, List.getElem_map, List.getElem_mapIdx, hid, List.getElem_range']
      rw [toNat_ofNat_of_le (by omega)]
      omega
  · intro sk hsk
    obtain ⟨id, xi, rfl⟩ := hmem sk hsk
    exact hpk id xi
  · intro sk hsk
    obtain ⟨id, xi, rfl⟩ := hmem sk hsk
    exact hthreshold id xi
  · intro sk hsk
    obtain ⟨id, xi, rfl⟩ := hmem sk hsk
    rw [hpk id xi, hcount]

/-! ### The dealings on a curve -/

/-- What a dealing on a curve can come to once `k ≤ n` and `1 ≤ n`. Only Sg02 is strict about the ids. -/
inductive Dealing (k n : ℕ) (strict : Bool) : SchemeOutcome (List (PrivateKeyShare K)) → Prop
  | panics (h : k = 0 ∨ strict = true ∧ 65535 < n) : Dealing k n strict .panic
  | deals {keys : List (PrivateKeyShare K)} (hk : 1 ≤ k) (hstrict : strict = true → n ≤ 65535)
      (hshape : n ≤ 65535 → WellShaped k n keys) : Dealing k n strict (.ok keys)

section Deal

variable {G α : Type} [CommGroup G] (C : EcGroup G) (x : ℕ) {k n : ℕ} (rng : ℕ → ℕ)
  {next : List ℕ × List G → SchemeOutcome α}

/-- The sharing of a secret panics on the threshold zero. -/
theorem deal_zero (hk : k = 0) (hn : 1 ≤ n) :
    (checkParams k n >>= fun _ => shamirShare C x k n rng >>= next) = .panic := by
  rw [checkParams, if_neg (by omega), Outcome.ok_bind, shamirShare, if_pos hk, Outcome.panic_bind]

theorem deal_of_pos (hk : 1 ≤ k) (hkn : k ≤ n) :
    (checkParams k n >>= fun _ => shamirShare C x k n rng >>= next)
      = next (dealtShares C.order x k n rng,
          (dealtShares C.order x k n rng).map fun xi => C.generator ^ xi) := by
  rw [checkParams, if_neg (by omega), Outcome.ok_bind, shamirShare, if_neg (by omega), Outcome.ok_bind]

end Deal

section Arms

variable {E : Primitives} {k n : ℕ} {rng : ℕ → ℕ}

/-- An arm that panics without a threshold, and numbers its shares otherwise. -/
theorem dealing_of_numberShares (hkn : k ≤ n) {S : Type} {strict : Bool} {arm : SchemeOutcome (List S)}
    {wrap : S → PrivateKeyShare K} (hzero : k = 0 → arm = .panic)
    (hmany : 1 ≤ k → strict = true → 65535 < n → arm = .panic) {keys : List S}
    (hok : 1 ≤ k → (strict = true → n ≤ 65535) → arm = .ok keys)
    (hshape : k ≤ 65535 → n ≤ 65535 → WellShaped k n (keys.map wrap)) :
    Dealing k n strict (List.map wrap <$> arm) := by
  by_cases hk : k = 0
  · rw [hzero hk]
    exact .panics (.inl hk)
  · by_cases hlarge : strict = true ∧ 65535 < n
    · rw [hmany (by omega) hlarge.1 hlarge.2]
      exact .panics (.inr hlarge)
    · have hstrict : strict = true → n ≤ 65535 := by
        intro hstrict
        by_contra hle
        exact hlarge ⟨hstrict, by omega⟩
      rw [hok (by omega) hstrict]
      exact .deals (by omega) hstrict fun hle => hshape (hkn.trans hle) hle

/-- The verification keys of a dealing are as many as the parties. -/
theorem length_verificationKey {G : Type} [CommGroup G] (C : EcGroup G) (x k n : ℕ) (rng : ℕ → ℕ) :
    ((dealtShares C.order x k n rng).map fun xi => C.generator ^ xi).length = n := by
  rw [List.length_map, length_dealtShares]

variable (hkn : k ≤ n) (hn : 1 ≤ n)

include hkn hn

theorem dealing_bz03 (c : Curve) (hc : c.group.supportsPairings = true) :
    Dealing k n false (List.map (PrivateKeyShare.bz03 c)
      <$> Bz03ThresholdCipher.generateKeys E (K.pairingCurve c hc) k n rng) := by
  refine dealing_of_numberShares hkn (fun hk => deal_zero _ _ _ hk hn) (fun _ h => by cases h)
    (fun hk _ => Bz03ThresholdCipher.generateKeys_eq_ok.mpr ⟨hk, hkn, rfl⟩) ?_
  intro hk hle
  exact wellShaped_numberShares hle (length_dealtShares ..)
    (.bz03 c (Bz03ThresholdCipher.publicKey E (K.pairingCurve c hc) k n rng)) (fun _ _ => rfl)
    (fun _ _ => rfl) (fun _ _ => toNat_ofNat_of_le hk) (length_verificationKey ..)

theorem dealing_bls04 (c : Curve) (hc : c.group.supportsPairings = true) :
    Dealing k n false (List.map (PrivateKeyShare.bls04 c)
      <$> Bls04ThresholdSignature.generateKeys E (K.pairingCurve c hc) k n rng) := by
  refine dealing_of_numberShares hkn (fun hk => deal_zero _ _ _ hk hn) (fun _ h => by cases h)
    (fun hk _ => Bls04ThresholdSignature.generateKeys_eq_ok.mpr ⟨hk, hkn, rfl⟩) ?_
  intro hk hle
  exact wellShaped_numberShares hle (length_dealtShares ..)
    (.bls04 c (Bls04ThresholdSignature.publicKey E (K.pairingCurve c hc) k n rng)) (fun _ _ => rfl)
    (fun _ _ => rfl) (fun _ _ => toNat_ofNat_of_le hk) (length_verificationKey ..)

theorem dealing_cks05 (c : Curve) :
    Dealing k n false (List.map (PrivateKeyShare.cks05 c)
      <$> Cks05ThresholdCoin.generateKeys E (K.ecp c) k n rng) := by
  refine dealing_of_numberShares hkn (fun hk => deal_zero _ _ _ hk hn) (fun _ h => by cases h)
    (fun hk _ => Cks05ThresholdCoin.generateKeys_eq_ok.mpr ⟨hk, hkn, rfl⟩) ?_
  intro hk hle
  exact wellShaped_numberShares hle (length_dealtShares ..)
    (.cks05 c (Cks05ThresholdCoin.publicKey E (K.ecp c) k n rng)) (fun _ _ => rfl)
    (fun _ _ => rfl) (fun _ _ => toNat_ofNat_of_le hk) (length_verificationKey ..)

theorem dealing_frost (c : Curve) :
    Dealing k n false (List.map (PrivateKeyShare.frost c)
      <$> Frost.generateKeys E (K.ecp c) k n rng) := by
  refine dealing_of_numberShares hkn (fun hk => deal_zero _ _ _ hk hn) (fun _ h => by cases h)
    (fun hk _ => Frost.generateKeys_eq_ok.mpr ⟨hk, hkn, rfl⟩) ?_
  intro hk hle
  exact wellShaped_numberShares hle (length_dealtShares ..)
    (.frost c (Frost.publicKey E (K.ecp c) k n rng)) (fun _ _ => rfl)
    (fun _ _ => rfl) (fun _ _ => toNat_ofNat_of_le hk) (length_verificationKey ..)

/-- Sg02 converts the ids with `try_into().unwrap()`. -/
theorem dealing_sg02 (c : Curve) :
    Dealing k n true (List.map (PrivateKeyShare.sg02 c)
      <$> Sg02ThresholdCipher.generateKeys E (K.ecp c) k n rng) := by
  refine dealing_of_numberShares hkn (fun hk => deal_zero _ _ _ hk hn) ?_
    (fun hk hle => Sg02ThresholdCipher.generateKeys_eq_ok.mpr ⟨hk, hkn, hle rfl, rfl⟩) ?_
  · intro hk _ hlarge
    refine (deal_of_pos _ _ _ hk hkn).trans ?_
    exact if_pos (by rwa [length_dealtShares])
  · intro hk hle
    exact wellShaped_numberShares hle (length_dealtShares ..)
      (.sg02 c (Sg02ThresholdCipher.publicKey E (K.ecp c) k n rng)) (fun _ _ => rfl)
      (fun _ _ => rfl) (fun _ _ => toNat_ofNat_of_le hk) (length_verificationKey ..)

end Arms

theorem wellShaped_keys {E : Primitives} {k n : ℕ} (hkn : k ≤ n) (hn : n ≤ 65535) (draw : RsaDraw)
    (group : Group) (e : ℕ) :
    WellShaped k n ((draw.keys E group k n e).map (PrivateKeyShare.sh00 (K := K))) := by
  simp only [RsaDraw.keys]
  refine wellShaped_numberShares hn ?_ (.sh00 _) (fun _ _ => rfl) (fun _ _ => rfl)
    (fun _ _ => toNat_ofNat_of_le (hkn.trans hn)) ?_
  · simp [Sh00ThresholdSignature.shamirShareRsa]
  · simp [PublicKey.verificationKeyCount, Sh00ThresholdSignature.shamirShareRsa]

/-! ### What the function returns -/

theorem Group.eq_group_of_curve {group : Group} {c : Curve} (h : group.curve = some c) :
    group = c.group := by
  cases group <;> cases h <;> rfl

theorem Group.isDl_of_curve_eq_none {group : Group} (h : group.curve = none) : group.isDl = false := by
  cases group <;> first | rfl | cases h

namespace KeyGenerator

section Request

variable (E : Primitives) (isPrime : ℕ → Bool) (bytes : ℕ → UInt8) (k n : ℕ) (rng : ℕ → ℕ)
  (scheme : ThresholdScheme) (group : Group) (params : Option KeyParams)

/-- The function returns, however many rounds its loops take. -/
def Returns (outcome : SchemeOutcome (List (PrivateKeyShare K))) : Prop :=
  ∃ rounds, generateKeysFrom E isPrime bytes rounds k n rng scheme group params = some outcome

/-- The exponent is odd and has an inverse modulo the product of the halves that are drawn. -/
def ExponentFits : Prop :=
  ∃ rounds p1 p q1 q pos,
    drawPrimes isPrime bytes rounds group.modsize (publicExponent params) = some ((p1, p), (q1, q), pos)
      ∧ Odd (publicExponent params) ∧ (publicExponent params).Coprime (p1 * q1)

/-- What the parameters of a key should be. -/
structure ValidParams : Prop where
  one_le : 1 ≤ k
  le_parties : k ≤ n
  parties_le : n ≤ 65535
  group_valid : scheme.checkValidGroup group = true
  exponent : scheme = .sh00 → ExponentFits isPrime bytes group params

/-- The function tells valid parameters from others. -/
structure Validates (K : Curves) : Prop where
  ok_iff : (∃ keys : List (PrivateKeyShare K),
    Returns E isPrime bytes k n rng scheme group params (.ok keys))
      ↔ ValidParams isPrime bytes k n scheme group params
  err : ¬ ValidParams isPrime bytes k n scheme group params →
    ∃ error, Returns (K := K) E isPrime bytes k n rng scheme group params (.err error)
  no_panic : ¬ Returns (K := K) E isPrime bytes k n rng scheme group params .panic
  shape : ∀ keys : List (PrivateKeyShare K),
    Returns E isPrime bytes k n rng scheme group params (.ok keys) → WellShaped k n keys

variable {E isPrime bytes k n rng scheme group params}

theorem Returns.unique {a b : SchemeOutcome (List (PrivateKeyShare K))}
    (ha : Returns E isPrime bytes k n rng scheme group params a)
    (hb : Returns E isPrime bytes k n rng scheme group params b) : a = b := by
  obtain ⟨rounds, ha⟩ := ha
  obtain ⟨rounds', hb⟩ := hb
  have hmax := generateKeysFrom_mono (Nat.le_max_left rounds rounds') ha
  rw [generateKeysFrom_mono (Nat.le_max_right rounds rounds') hb] at hmax
  exact (Option.some.inj hmax).symm

/-- An arm that needs pairings rejects a group without them. -/
theorem exists_pairing_outcome {pairings : Bool}
    {deal : pairings = true → SchemeOutcome (List (PrivateKeyShare K))} (error : SchemeError)
    (hdeal : ∀ hc, Dealing k n false (deal hc)) :
    ∃ outcome, (if hc : pairings = true then some (deal hc) else some (.err error)) = some outcome
      ∧ (pairings = false ∧ (∃ error, outcome = .err error)
        ∨ pairings = true ∧ Dealing k n false outcome) := by
  by_cases hc : pairings = true
  · exact ⟨deal hc, dif_pos hc, .inr ⟨hc, hdeal hc⟩⟩
  · exact ⟨.err error, dif_neg hc, .inl ⟨Bool.eq_false_iff.mpr hc, error, rfl⟩⟩

variable (K E isPrime bytes rng group params) in
/-- Past the first check, a scheme on a curve rejects the group, deals, or, for Frost without a curve,
panics. -/
theorem exists_curve_outcome (hkn : k ≤ n) (hn : 1 ≤ n) (hscheme : scheme ≠ .sh00) :
    ∃ outcome : SchemeOutcome (List (PrivateKeyShare K)),
      (∀ rounds, generateKeysFrom E isPrime bytes rounds k n rng scheme group params = some outcome)
      ∧ ((scheme ≠ .frost ∧ scheme.checkValidGroup group = false ∧ ∃ error, outcome = .err error)
        ∨ (scheme = .frost ∧ scheme.checkValidGroup group = false ∧ outcome = .panic)
        ∨ ((scheme = .frost ∨ scheme.checkValidGroup group = true)
          ∧ Dealing k n (scheme == .sg02) outcome)) := by
  have hparams : ¬ (k > n ∨ n < 1) := by omega
  simp only [generateKeysFrom, if_neg hparams]
  cases hcurve : group.curve with
  | none =>
      have hdl := Group.isDl_of_curve_eq_none hcurve
      cases scheme with
      | sh00 => exact absurd rfl hscheme
      | bz03 | sg02 | bls04 | cks05 =>
          refine ⟨_, fun _ => rfl, .inl ⟨(fun h => by cases h), ?_, _, rfl⟩⟩
          simp [ThresholdScheme.checkValidGroup, hdl]
      | frost =>
          refine ⟨_, fun _ => rfl, .inr (.inl ⟨rfl, ?_, rfl⟩)⟩
          cases group <;> first | rfl | cases hcurve
  | some c =>
      obtain rfl := Group.eq_group_of_curve hcurve
      have hdl := c.isDl_group
      cases scheme with
      | sh00 => exact absurd rfl hscheme
      | sg02 => exact ⟨_, fun _ => rfl, .inr (.inr ⟨.inr hdl, dealing_sg02 hkn hn c⟩)⟩
      | cks05 => exact ⟨_, fun _ => rfl, .inr (.inr ⟨.inr hdl, dealing_cks05 hkn hn c⟩)⟩
      | frost => exact ⟨_, fun _ => rfl, .inr (.inr ⟨.inl rfl, dealing_frost hkn hn c⟩)⟩
      | bz03 =>
          have hvalid : ThresholdScheme.bz03.checkValidGroup c.group = c.group.supportsPairings := by
            simp [ThresholdScheme.checkValidGroup, hdl]
          have hdeal : ∀ hc, Dealing k n false (List.map (PrivateKeyShare.bz03 c)
              <$> Bz03ThresholdCipher.generateKeys E (K.pairingCurve c hc) k n rng) :=
            dealing_bz03 hkn hn c
          obtain ⟨outcome, houtcome, hcases⟩ :=
            exists_pairing_outcome .curveDoesNotSupportPairings hdeal
          obtain ⟨hnone, herror⟩ | ⟨hpairs, hdealing⟩ := hcases
          · exact ⟨outcome, fun _ => houtcome, .inl ⟨by decide, hvalid.trans hnone, herror⟩⟩
          · exact ⟨outcome, fun _ => houtcome, .inr (.inr ⟨.inr (hvalid.trans hpairs), hdealing⟩)⟩
      | bls04 =>
          have hvalid : ThresholdScheme.bls04.checkValidGroup c.group = c.group.supportsPairings := by
            simp [ThresholdScheme.checkValidGroup, hdl]
          have hdeal : ∀ hc, Dealing k n false (List.map (PrivateKeyShare.bls04 c)
              <$> Bls04ThresholdSignature.generateKeys E (K.pairingCurve c hc) k n rng) :=
            dealing_bls04 hkn hn c
          obtain ⟨outcome, houtcome, hcases⟩ :=
            exists_pairing_outcome .curveDoesNotSupportPairings hdeal
          obtain ⟨hnone, herror⟩ | ⟨hpairs, hdealing⟩ := hcases
          · exact ⟨outcome, fun _ => houtcome, .inl ⟨by decide, hvalid.trans hnone, herror⟩⟩
          · exact ⟨outcome, fun _ => houtcome, .inr (.inr ⟨.inr (hvalid.trans hpairs), hdealing⟩)⟩

variable (K E isPrime bytes rng params) in
/-- An error comes from the first check or from the check of the group. -/
theorem returns_err_iff :
    (∃ error, Returns (K := K) E isPrime bytes k n rng scheme group params (.err error))
      ↔ (k > n ∨ n < 1) ∨ (scheme ≠ .frost ∧ scheme.checkValidGroup group = false) := by
  by_cases hparams : k > n ∨ n < 1
  · exact iff_of_true ⟨_, 0, if_pos hparams⟩ (.inl hparams)
  have hkn : k ≤ n ∧ 1 ≤ n := by omega
  simp only [hparams, false_or]
  by_cases hscheme : scheme = .sh00
  · subst hscheme
    constructor
    · rintro ⟨error, rounds, h⟩
      obtain ⟨h, -⟩ | ⟨-, -, hgroup, -⟩ | ⟨-, -, -, draw, -, heq⟩ := generateKeysFrom_sh00_eq_some.mp h
      · exact absurd h hparams
      · exact ⟨(fun h => by cases h), by simp [ThresholdScheme.checkValidGroup, hgroup]⟩
      · cases heq
    · rintro ⟨-, hgroup⟩
      refine ⟨_, 0, generateKeysFrom_sh00_eq_some.mpr (.inr (.inl ⟨hkn.1, hkn.2, ?_, rfl⟩))⟩
      simpa [ThresholdScheme.checkValidGroup] using hgroup
  · obtain ⟨outcome, houtcome, hcases⟩ := exists_curve_outcome K E isPrime bytes
      rng group params hkn.1 hkn.2 hscheme
    constructor
    · rintro ⟨error, hreturns⟩
      obtain rfl := Returns.unique hreturns ⟨0, houtcome 0⟩
      obtain ⟨hfrost, hgroup, -⟩ | ⟨-, -, heq⟩ | ⟨-, hdealing⟩ := hcases
      · exact ⟨hfrost, hgroup⟩
      · cases heq
      · cases hdealing
    · rintro ⟨hfrost, hgroup⟩
      obtain ⟨-, -, error, rfl⟩ | ⟨heq, -⟩ | ⟨heq | heq, -⟩ := hcases
      · exact ⟨error, 0, houtcome 0⟩
      · exact absurd heq hfrost
      · exact absurd heq hfrost
      · rw [hgroup] at heq
        cases heq

/-- Keys that are returned for at most `u16::MAX` parties have the form they should have. -/
theorem wellShaped_of_returns (hn : n ≤ 65535) {keys : List (PrivateKeyShare K)}
    (h : Returns E isPrime bytes k n rng scheme group params (.ok keys)) : WellShaped k n keys := by
  by_cases hparams : k > n ∨ n < 1
  · cases Returns.unique h ⟨0, if_pos hparams⟩
  have hkn : k ≤ n ∧ 1 ≤ n := by omega
  by_cases hscheme : scheme = .sh00
  · subst hscheme
    obtain ⟨rounds, h⟩ := h
    obtain ⟨-, heq⟩ | ⟨-, -, -, heq⟩ | ⟨-, -, -, draw, -, heq⟩ := generateKeysFrom_sh00_eq_some.mp h
    · cases heq
    · cases heq
    · rw [Outcome.ok.inj heq]
      exact wellShaped_keys hkn.1 hn draw group _
  · obtain ⟨outcome, houtcome, hcases⟩ := exists_curve_outcome K E isPrime bytes
      rng group params hkn.1 hkn.2 hscheme
    obtain rfl := Returns.unique h ⟨0, houtcome 0⟩
    obtain ⟨-, -, error, heq⟩ | ⟨-, -, heq⟩ | ⟨-, hdealing⟩ := hcases
    · cases heq
    · cases heq
    · cases hdealing with
      | deals hk hstrict hshape => exact hshape hn

variable (K E rng) in
/-- With valid parameters the function returns keys as soon as the loops of Sh00 end. -/
theorem exists_returns_ok_iff (hvalid : ValidParams isPrime bytes k n scheme group params) :
    (∃ keys : List (PrivateKeyShare K),
      Returns E isPrime bytes k n rng scheme group params (.ok keys))
      ↔ (scheme = .sh00 → ∃ rounds draw,
          drawRsa isPrime bytes rounds k group.modsize (publicExponent params) = some draw) := by
  have hone := hvalid.one_le
  have hkn := hvalid.le_parties
  have hn := hvalid.parties_le
  by_cases hscheme : scheme = .sh00
  · subst hscheme
    have hgroup : group.isDl = false := by
      simpa [ThresholdScheme.checkValidGroup] using hvalid.group_valid
    constructor
    · rintro ⟨keys, rounds, h⟩ -
      obtain ⟨hparams, -⟩ | ⟨-, -, -, heq⟩ | ⟨-, -, -, draw, hdraw, -⟩ :=
        generateKeysFrom_sh00_eq_some.mp h
      · omega
      · cases heq
      · exact ⟨rounds, draw, hdraw⟩
    · intro hends
      obtain ⟨rounds, draw, hdraw⟩ := hends rfl
      exact ⟨_, rounds, generateKeysFrom_sh00_eq_some.mpr
        (.inr (.inr ⟨hkn, hone.trans hkn, hgroup, draw, hdraw, rfl⟩))⟩
  · refine iff_of_true ?_ fun heq => absurd heq hscheme
    obtain ⟨outcome, houtcome, hcases⟩ := exists_curve_outcome K E isPrime bytes
      rng group params hkn (hone.trans hkn) hscheme
    rw [hvalid.group_valid] at hcases
    obtain ⟨-, heq, -⟩ | ⟨-, heq, -⟩ | ⟨-, hdealing⟩ := hcases
    · cases heq
    · cases heq
    · cases hdealing with
      | panics h => omega
      | deals _ _ _ => exact ⟨_, 0, houtcome 0⟩

/-- The function tells valid parameters from others exactly when the first check or the check of the
group rejects them, or when they are valid and, for Sh00, the loops end. -/
theorem validates_params_iff :
    Validates E isPrime bytes k n rng scheme group params K
      ↔ (k > n ∨ n < 1) ∨ (scheme ≠ .frost ∧ scheme.checkValidGroup group = false)
        ∨ (ValidParams isPrime bytes k n scheme group params
          ∧ (scheme = .sh00 → ∃ rounds draw,
            drawRsa isPrime bytes rounds k group.modsize (publicExponent params) = some draw)) := by
  rw [← or_assoc, ← returns_err_iff K E isPrime bytes rng params]
  constructor
  · intro h
    by_cases hvalid : ValidParams isPrime bytes k n scheme group params
    · exact .inr ⟨hvalid, (exists_returns_ok_iff K E rng hvalid).mp (h.ok_iff.mpr hvalid)⟩
    · exact .inl (h.err hvalid)
  · rintro (⟨error, herror⟩ | ⟨hvalid, hends⟩)
    · have hinvalid : ¬ ValidParams isPrime bytes k n scheme group params := by
        intro hvalid
        have hone := hvalid.one_le
        have hkn := hvalid.le_parties
        obtain hparams | ⟨-, hgroup⟩ := (returns_err_iff K E isPrime bytes rng params).mp ⟨error, herror⟩
        · omega
        · rw [hvalid.group_valid] at hgroup
          cases hgroup
      exact
        { ok_iff := by
            refine iff_of_false ?_ hinvalid
            rintro ⟨keys, hkeys⟩
            cases Returns.unique hkeys herror
          err := fun _ => ⟨error, herror⟩
          no_panic := fun hpanic => by cases Returns.unique hpanic herror
          shape := fun keys hkeys => by cases Returns.unique hkeys herror }
    · obtain ⟨keys, hkeys⟩ := (exists_returns_ok_iff K E rng hvalid).mpr hends
      exact
        { ok_iff := iff_of_true ⟨keys, hkeys⟩ hvalid
          err := fun hinvalid => absurd hvalid hinvalid
          no_panic := fun hpanic => by cases Returns.unique hpanic hkeys
          shape := fun _ => wellShaped_of_returns hvalid.parties_le }

end Request

/-- The threshold zero for three parties is a panic and no error. -/
theorem threshold_zero_panics :
    Returns (K := Curves.seven) .truncating (fun _ => false) (fun _ => 0) 0 3 id .sg02 .bls12381 none
        .panic
      ∧ ¬ Validates .truncating (fun _ => false) (fun _ => 0) 0 3 id .sg02 .bls12381 none
        Curves.seven := by
  have hpanic : Returns (K := Curves.seven) .truncating (fun _ => false) (fun _ => 0) 0 3 id .sg02
      .bls12381 none .panic := ⟨0, rfl⟩
  exact ⟨hpanic, fun h => h.no_panic hpanic⟩

end KeyGenerator

end QuorumCrypt
