import QuorumCrypt.Keys.FileRoundTrip

/-!
# The key for a scheme and a group

`get_key_by_scheme_and_group` takes the only entry of the scheme and the group, and among several the one
that is marked as default. The marks are per operation, so there may be none among the matches, or more
than one, or one on an entry without a private share. Here is for which stores the lookup does what its
callers expect.
-/

namespace QuorumCrypt

open Rust

variable {E : Primitives} {K : Curves}

namespace KeyStore

variable (R : Asn1Reader E) {self : KeyStore K}

def Matches (scheme : ThresholdScheme) (group : Group) (entry : KeyEntry K) : Prop :=
  entry.pk.getScheme = scheme ∧ group = entry.pk.getGroup

variable {scheme : ThresholdScheme} {group : Group} {order order' : IterationOrder String (KeyEntry K)}

theorem Matches.operation_eq {entry : KeyEntry K} (h : Matches scheme group entry) :
    entry.operation = scheme.getOperation := congrArg ThresholdScheme.getOperation h.1

/-- How the lookup chooses among the entries that match. -/
def selectKey (matching : List (KeyEntry K)) : Except String (KeyEntry K) :=
  match matching with
  | [] => .error "No key matches the given scheme and group."
  | [entry] => .ok entry
  | _ =>
      match matching.filter KeyEntry.isDefault with
      | [] => .error "Could not find a default key for this scheme. Please specify a key id."
      | [entry] => .ok entry
      | _ => .error "Could not select a default key for this scheme. Please specify a key id."

theorem getKeyBySchemeAndGroup_eq (order : IterationOrder String (KeyEntry K)) :
    self.getKeyBySchemeAndGroup order scheme group
      = selectKey ((self.keyEntries.values order).filter fun entry =>
        entry.pk.getScheme = scheme ∧ group = entry.pk.getGroup) := rfl

theorem selectKey_eq_ok_iff {matching : List (KeyEntry K)} {entry : KeyEntry K} :
    selectKey matching = .ok entry
      ↔ matching = [entry]
        ∨ ((¬ ∃ entry, matching = [entry]) ∧ matching.filter KeyEntry.isDefault = [entry]) := by
  match matching with
  | [] => simp [selectKey]
  | [first] => simp [selectKey]
  | first :: second :: rest =>
      rw [selectKey]
      · generalize (first :: second :: rest).filter KeyEntry.isDefault = marked
        match marked with
        | [] => simp
        | [_] => simp
        | _ :: _ :: _ => simp
      · simp
      · simp

theorem selectKey_perm {matching matching' : List (KeyEntry K)} (h : matching.Perm matching') :
    selectKey matching = selectKey matching' := by
  match matching, h with
  | [], h => rw [h.nil_eq]
  | [entry], h => rw [List.perm_singleton.mp h.symm]
  | first :: second :: rest, h =>
      have hmarked := h.filter KeyEntry.isDefault
      match matching', h with
      | [], h => simp at h
      | [_], h => simp at h
      | first' :: second' :: rest', _ =>
          simp only [selectKey]
          revert hmarked
          generalize (first :: second :: rest).filter KeyEntry.isDefault = marked
          generalize (first' :: second' :: rest').filter KeyEntry.isDefault = marked'
          intro hmarked
          match marked, hmarked with
          | [], hmarked => rw [hmarked.nil_eq]
          | [entry], hmarked => rw [List.perm_singleton.mp hmarked.symm]
          | _ :: _ :: _, hmarked =>
              match marked', hmarked with
              | [], hmarked => simp at hmarked
              | [_], hmarked => simp at hmarked
              | _ :: _ :: _, _ => rfl

/-- The order in which the map is read does not matter. -/
theorem getKeyBySchemeAndGroup_order (order order' : IterationOrder String (KeyEntry K)) :
    self.getKeyBySchemeAndGroup order scheme group
      = self.getKeyBySchemeAndGroup order' scheme group :=
  selectKey_perm ((HashMap.values_perm order order' _).filter _)

/-- The lookup finds the only match, or else the only match that is marked. -/
theorem getKeyBySchemeAndGroup_eq_ok_iff {entry : KeyEntry K} :
    self.getKeyBySchemeAndGroup order scheme group = .ok entry
      ↔ (∃ id, self.keyEntries.Only (Matches scheme group) id entry)
        ∨ ((¬ ∃ entry id, self.keyEntries.Only (Matches scheme group) id entry)
          ∧ ∃ id, self.keyEntries.Only
            (fun entry => entry.isDefault = true ∧ Matches scheme group entry) id entry) := by
  rw [getKeyBySchemeAndGroup_eq, selectKey_eq_ok_iff]
  simp only [List.filter_filter, HashMap.filter_values_eq_singleton, Bool.and_eq_true,
    decide_eq_true_eq]
  rfl

/-- What the lookup should do: find a key whenever there is one of the scheme and the group, always the
same one, and one with a private share if there is such a match. -/
structure FindsKey (store : KeyStore K) (scheme : ThresholdScheme) (group : Group) : Prop where
  found_iff : ∀ order, (∃ entry, store.getKeyBySchemeAndGroup order scheme group = .ok entry)
    ↔ ∃ id entry, store.keyEntries.lookup id = some entry ∧ Matches scheme group entry
  matches_found : ∀ order entry, store.getKeyBySchemeAndGroup order scheme group = .ok entry →
    Matches scheme group entry
  same : ∀ order order', store.getKeyBySchemeAndGroup order scheme group
    = store.getKeyBySchemeAndGroup order' scheme group
  has_private : ∀ order entry, store.getKeyBySchemeAndGroup order scheme group = .ok entry →
    (∃ id other, store.keyEntries.lookup id = some other ∧ Matches scheme group other
      ∧ other.sk.isSome = true) → entry.sk.isSome = true

/-- The condition for that, in terms of the keys and of when they were inserted: there is at most one
match; or no match has a private share, and one of them was the first key of its operation; or the one
private share of the operation is a match, and no match without one was the first key of the
operation. -/
def Selectable (xs : List (Insertion K)) (store : KeyStore K) (scheme : ThresholdScheme)
    (group : Group) : Prop :=
  (∀ id entry id' entry', store.keyEntries.lookup id = some entry → Matches scheme group entry →
    store.keyEntries.lookup id' = some entry' → Matches scheme group entry' → id = id')
  ∨ ((∀ id entry, store.keyEntries.lookup id = some entry → Matches scheme group entry →
      entry.sk = none)
    ∧ ∃ id entry, store.keyEntries.lookup id = some entry ∧ Matches scheme group entry
      ∧ Founds R xs id)
  ∨ ∃ id entry, store.keyEntries.lookup id = some entry ∧ Matches scheme group entry
    ∧ entry.sk.isSome = true ∧ store.IsOnlyPrivate id scheme.getOperation
    ∧ ∀ id' entry', store.keyEntries.lookup id' = some entry' → Matches scheme group entry' →
      entry'.sk = none → ¬ Founds R xs id'

/-- When some match stands out, the lookup finds it. -/
theorem findsKey_of_only {id : String} {entry : KeyEntry K}
    (honly : self.keyEntries.Only
      (fun entry => entry.isDefault = true ∧ Matches scheme group entry) id entry)
    (hprivate : entry.sk = none → ∀ id' entry', self.keyEntries.lookup id' = some entry' →
      Matches scheme group entry' → entry'.sk = none) : FindsKey self scheme group := by
  have hmatch := honly.holds.2
  have hfound : ∀ order, self.getKeyBySchemeAndGroup order scheme group = .ok entry := by
    intro order
    rw [getKeyBySchemeAndGroup_eq_ok_iff]
    by_cases hsingle : ∃ entry id, self.keyEntries.Only (Matches scheme group) id entry
    · obtain ⟨entry', id', honly'⟩ := hsingle
      obtain rfl := honly'.key_eq id entry honly.lookup_eq hmatch
      obtain rfl := Option.some.inj (honly'.lookup_eq.symm.trans honly.lookup_eq)
      exact .inl ⟨id, honly'⟩
    · exact .inr ⟨hsingle, id, honly⟩
  refine ⟨?_, ?_, getKeyBySchemeAndGroup_order, ?_⟩
  · intro order
    exact iff_of_true ⟨entry, hfound order⟩ ⟨id, entry, honly.lookup_eq, hmatch⟩
  · intro order entry' h
    obtain rfl := Except.ok.inj ((hfound order).symm.trans h)
    exact hmatch
  · rintro order entry' h ⟨id', other, hlookup', hmatch', hsome⟩
    obtain rfl := Except.ok.inj ((hfound order).symm.trans h)
    rw [Option.isSome_iff_ne_none]
    intro hnone
    rw [hprivate hnone id' other hlookup' hmatch'] at hsome
    cases hsome

theorem findsKey_of_atMostOne
    (hone : ∀ id entry id' entry', self.keyEntries.lookup id = some entry →
      Matches scheme group entry → self.keyEntries.lookup id' = some entry' →
      Matches scheme group entry' → id = id') : FindsKey self scheme group := by
  have honly : ∀ {id entry}, self.keyEntries.lookup id = some entry → Matches scheme group entry →
      self.keyEntries.Only (Matches scheme group) id entry := by
    intro id entry hlookup hmatch
    refine ⟨hlookup, hmatch, ?_⟩
    intro id' entry' hlookup' hmatch'
    exact hone id' entry' id entry hlookup' hmatch' hlookup hmatch
  have hmem : ∀ {order entry}, self.getKeyBySchemeAndGroup order scheme group = .ok entry →
      ∃ id, self.keyEntries.lookup id = some entry ∧ Matches scheme group entry := by
    intro order entry h
    rcases getKeyBySchemeAndGroup_eq_ok_iff.mp h with ⟨id, h⟩ | ⟨-, id, h⟩
    · exact ⟨id, h.lookup_eq, h.holds⟩
    · exact ⟨id, h.lookup_eq, h.holds.2⟩
  refine ⟨?_, fun order entry h => (hmem h).elim fun _ h => h.2, getKeyBySchemeAndGroup_order, ?_⟩
  · intro order
    constructor
    · rintro ⟨entry, h⟩
      obtain ⟨id, h⟩ := hmem h
      exact ⟨id, entry, h⟩
    · rintro ⟨id, entry, hlookup, hmatch⟩
      exact ⟨entry, getKeyBySchemeAndGroup_eq_ok_iff.mpr (.inl ⟨id, honly hlookup hmatch⟩)⟩
  · rintro order entry h ⟨id', other, hlookup', hmatch', hsome⟩
    obtain ⟨id, hlookup, hmatch⟩ := hmem h
    obtain rfl := hone id entry id' other hlookup hmatch hlookup' hmatch'
    obtain rfl := Option.some.inj (hlookup.symm.trans hlookup')
    exact hsome

/-- After any insertions, the lookup does what it should exactly under that condition. -/
theorem findsKey_insertAll_iff (xs : List (Insertion K)) :
    FindsKey (new.insertAll R xs) scheme group
      ↔ Selectable R xs (new.insertAll R xs) scheme group := by
  have hprivate := isDefault_private_iff R xs
  constructor
  · intro h
    by_cases hone : ∀ id entry id' entry', (new.insertAll R xs).keyEntries.lookup id = some entry →
      Matches scheme group entry → (new.insertAll R xs).keyEntries.lookup id' = some entry' →
      Matches scheme group entry' → id = id'
    · exact .inl hone
    right
    push Not at hone
    obtain ⟨id₁, entry₁, id₂, entry₂, hlookup₁, hmatch₁, hlookup₂, hmatch₂, hne⟩ := hone
    obtain ⟨entry, hfound⟩ := (h.found_iff (.latest _ _)).mpr ⟨id₁, entry₁, hlookup₁, hmatch₁⟩
    rcases getKeyBySchemeAndGroup_eq_ok_iff.mp hfound with ⟨id, honly⟩ | ⟨-, id, honly⟩
    · exact absurd ((honly.key_eq _ _ hlookup₁ hmatch₁).trans
        (honly.key_eq _ _ hlookup₂ hmatch₂).symm) hne
    obtain ⟨hdefault, hmatch⟩ := honly.holds
    cases hsk : entry.sk with
    | none =>
        refine .inl ⟨?_, id, entry, honly.lookup_eq, hmatch, ?_⟩
        · intro id' entry' hlookup' hmatch'
          by_contra hsome
          have := h.has_private _ entry hfound
            ⟨id', entry', hlookup', hmatch', Option.isSome_iff_ne_none.mpr hsome⟩
          rw [hsk] at this
          cases this
        · exact (isDefault_public_iff R honly.lookup_eq hsk).mp hdefault
    | some sk =>
        have hsome : entry.sk.isSome = true := by rw [hsk]; rfl
        refine .inr ⟨id, entry, honly.lookup_eq, hmatch, hsome, ?_, ?_⟩
        · rw [← hmatch.operation_eq]
          exact (hprivate id entry honly.lookup_eq hsome).mp hdefault
        · intro id' entry' hlookup' hmatch' hnone hfounds
          have hdefault' := (isDefault_public_iff R hlookup' hnone).mpr hfounds
          obtain rfl := honly.key_eq id' entry' hlookup' ⟨hdefault', hmatch'⟩
          obtain rfl := Option.some.inj (hlookup'.symm.trans honly.lookup_eq)
          rw [hnone] at hsome
          cases hsome
  · rintro (hone | ⟨hnone, id, entry, hlookup, hmatch, hfounds⟩
      | ⟨id, entry, hlookup, hmatch, hsome, honly, hpublic⟩)
    · exact findsKey_of_atMostOne hone
    · have hsk := hnone id entry hlookup hmatch
      have hdefault := (isDefault_public_iff R hlookup hsk).mpr hfounds
      refine findsKey_of_only ⟨hlookup, ⟨hdefault, hmatch⟩, ?_⟩ fun _ => hnone
      rintro id' entry' hlookup' ⟨hdefault', hmatch'⟩
      exact publicMarkUnique_insertAll R xs id' entry' id entry hlookup' hlookup
        (hnone id' entry' hlookup' hmatch') hsk hdefault' hdefault
        (hmatch'.operation_eq.trans hmatch.operation_eq.symm)
    · have hdefault := (hprivate id entry hlookup hsome).mpr (hmatch.operation_eq ▸ honly)
      refine findsKey_of_only ⟨hlookup, ⟨hdefault, hmatch⟩, ?_⟩ fun hnone => ?_
      · rintro id' entry' hlookup' ⟨hdefault', hmatch'⟩
        cases hsk' : entry'.sk with
        | none =>
            exact absurd ((isDefault_public_iff R hlookup' hsk').mp hdefault')
              (hpublic id' entry' hlookup' hmatch' hsk')
        | some sk => exact honly id' entry' hlookup' (by rw [hsk']; rfl) hmatch'.operation_eq
      · rw [hnone] at hsome
        cases hsome

/-- In every store that insertions, imports and loads lead to, a scheme and a group find their key
exactly when it can be selected. -/
theorem lookup_finds_key_iff (F : FileFormat) (D : Decoders E K) (calls : List (KeyStoreCall K))
    (scheme : ThresholdScheme) (group : Group) :
    FindsKey (runCalls F D calls) scheme group
      ↔ Selectable D.asn1 (history F D calls) (runCalls F D calls) scheme group := by
  rw [runCalls_eq]
  exact findsKey_insertAll_iff D.asn1 _

/-- Of two public keys of the scheme and the group, the first one is found. -/
theorem lookup_finds_key_iff_seven :
    let calls : List (KeyStoreCall .seven) := [.update (.insertPublicKey (sg02ShareSeven 1).getPublicKey),
      .update (.insertPublicKey (sg02ShareSeven 2).getPublicKey)]
    (runCalls (FileFormat.seven []) Decoders.base64 calls).keyEntries.entries.length = 2
      ∧ FindsKey (runCalls (FileFormat.seven []) Decoders.base64 calls) .sg02 .bn254 := by
  intro calls
  have hrun : runCalls (FileFormat.seven []) Decoders.base64 calls = twoPublicSeven := rfl
  have hlookup := lookup_twoPublicSeven_first
  refine ⟨?_, (lookup_finds_key_iff _ Decoders.base64 calls .sg02 .bn254).mpr (.inr (.inl ⟨?_, ?_⟩))⟩
  · rw [hrun, entries_twoPublicSeven]
    rfl
  · intro id entry hentry _
    rcases of_lookup_twoPublicSeven hentry with rfl | rfl <;> rfl
  · exact ⟨_, _, hlookup, ⟨rfl, rfl⟩, (isDefault_public_iff Decoders.base64.asn1 hlookup rfl).mp rfl⟩

/-- With two private shares of the scheme and the group, none is found. -/
theorem two_private_shares_not_found :
    ¬ FindsKey (runCalls (FileFormat.seven []) Decoders.base64
      [.update (.insertPrivateKey (sg02ShareSeven 1)),
        .update (.insertPrivateKey (sg02ShareSeven 2))]) .sg02 .bn254 := by
  obtain ⟨entry, entry', -, -, hpk, hpk', hlookup⟩ := lookup_two_shares
  intro h
  have hmatch : Matches .sg02 .bn254 entry := by
    rw [Matches, hpk]
    exact ⟨rfl, rfl⟩
  have hmatch' : Matches .sg02 .bn254 entry' := by
    rw [Matches, hpk']
    exact ⟨rfl, rfl⟩
  have hfirst := hlookup ((sg02ShareSeven 1).getPublicKey.hashId .base64)
  rw [if_neg hashId_sg02ShareSeven_ne, if_pos rfl] at hfirst
  have hsecond := hlookup ((sg02ShareSeven 2).getPublicKey.hashId .base64)
  rw [if_pos rfl] at hsecond
  obtain ⟨found, hfound⟩ := (h.found_iff (.latest _ _)).mpr ⟨_, entry, hfirst, hmatch⟩
  rcases getKeyBySchemeAndGroup_eq_ok_iff.mp hfound with ⟨id, honly⟩ | ⟨-, id, honly⟩
  · exact hashId_sg02ShareSeven_ne ((honly.key_eq _ _ hfirst hmatch).trans
      (honly.key_eq _ _ hsecond hmatch').symm)
  · have hmarked := honly.holds.1
    rw [isDefault_two_shares honly.lookup_eq] at hmarked
    cases hmarked

end KeyStore

end QuorumCrypt
