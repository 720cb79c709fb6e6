import QuorumCrypt.Keys.KeyFile

/-!
# The default key

Which entries of a store are marked as default, after any sequence of calls. A private share is marked
exactly while it is the only one of its operation (`isDefault_private_iff`). An entry without a private
share is marked exactly when the store held no key of its operation at the time it was inserted
(`isDefault_public_iff`). So an operation need not have one default key: a second private share takes
the mark from the first and is not marked itself, and a private share next to a public key that was
there before is marked as well.
-/

namespace QuorumCrypt

open Rust

variable {E : Primitives} {K : Curves}

namespace KeyStore

variable (R : Asn1Reader E) {self : KeyStore K} {x : Insertion K} {xs : List (Insertion K)}

theorem insertAll_append_singleton (self : KeyStore K) (xs : List (Insertion K)) (x : Insertion K) :
    self.insertAll R (xs ++ [x]) = ((self.insertAll R xs).insert R x).2 := by
  rw [insertAll, List.foldl_append]
  rfl

/-! ### Entries before and after -/

/-- Which mark an entry has is all that can change about it, unless it is the new one. -/
theorem lookup_put_cases {id : String} {entry : KeyEntry K}
    (h : (self.put E x).keyEntries.lookup id = some entry) :
    (id = x.id E ∧ entry = self.entryOf E x)
      ∨ (id ≠ x.id E ∧ ∃ old, self.keyEntries.lookup id = some old
        ∧ entry = if x.clears old then { old with isDefault := false } else old) := by
  rw [lookup_put] at h
  split at h
  · rename_i heq
    exact .inl ⟨heq, (Option.some.inj h).symm⟩
  · rename_i hne
    obtain ⟨old, hold, heq⟩ := Option.map_eq_some_iff.mp h
    exact .inr ⟨hne, old, hold, heq.symm⟩

theorem lookup_put_self (self : KeyStore K) (x : Insertion K) :
    (self.put E x).keyEntries.lookup (x.id E) = some (self.entryOf E x) := by
  rw [lookup_put, if_pos rfl]

/-- What is read off the keys of an entry is the same before and after, under another id. -/
theorem exists_lookup_put_iff {p : PublicKey K → Option (PrivateKeyShare K) → Prop} {id : String}
    (hne : id ≠ x.id E) :
    (∃ entry, (self.put E x).keyEntries.lookup id = some entry ∧ p entry.pk entry.sk)
      ↔ ∃ entry, self.keyEntries.lookup id = some entry ∧ p entry.pk entry.sk := by
  rw [lookup_put, if_neg hne]
  cases self.keyEntries.lookup id with
  | none => simp
  | some old =>
      simp only [Option.map_some, Option.some.injEq, exists_eq_left']
      split <;> rfl

/-! ### The mark of a private share -/

/-- No other private share is for the same operation. -/
def IsOnlyPrivate (self : KeyStore K) (id : String) (operation : ThresholdOperation) : Prop :=
  ∀ id' entry, self.keyEntries.lookup id' = some entry → entry.sk.isSome = true →
    entry.operation = operation → id' = id

def PrivateMarked (self : KeyStore K) : Prop :=
  ∀ id entry, self.keyEntries.lookup id = some entry → entry.sk.isSome = true →
    (entry.isDefault = true ↔ self.IsOnlyPrivate id entry.operation)

/-- Another entry does not stand in the way of a private share unless it is one for the same
operation. -/
theorem isOnlyPrivate_put_iff {id : String} {operation : ThresholdOperation} (hne : id ≠ x.id E)
    (hvacant : ∀ entry, self.keyEntries.lookup (x.id E) = some entry → entry.sk = none) :
    (self.put E x).IsOnlyPrivate id operation
      ↔ self.IsOnlyPrivate id operation ∧ ¬ (x.sk.isSome = true ∧ x.operation = operation) := by
  constructor
  · intro h
    refine ⟨?_, ?_⟩
    · intro id' entry hlookup hsk hoperation
      have hid' : id' ≠ x.id E := by
        rintro rfl
        rw [hvacant entry hlookup] at hsk
        cases hsk
      obtain ⟨entry', hlookup', hsk', hoperation'⟩ := (exists_lookup_put_iff
        (p := fun pk sk => sk.isSome = true ∧ pk.getOperation = operation) hid').mpr
        ⟨entry, hlookup, hsk, hoperation⟩
      exact h id' entry' hlookup' hsk' hoperation'
    · rintro ⟨hsk, hoperation⟩
      exact hne (h (x.id E) _ (lookup_put_self self x) hsk hoperation).symm
  · rintro ⟨h, hx⟩ id' entry hlookup hsk hoperation
    rcases lookup_put_cases hlookup with ⟨rfl, rfl⟩ | ⟨hid', -⟩
    · exact absurd ⟨hsk, hoperation⟩ hx
    · obtain ⟨old, hold, hsk', hoperation'⟩ := (exists_lookup_put_iff
        (p := fun pk sk => sk.isSome = true ∧ pk.getOperation = operation) hid').mp
        ⟨entry, hlookup, hsk, hoperation⟩
      exact h id' old hold hsk' hoperation'

theorem vacant_private (haccepts : self.Accepts E x) :
    ∀ entry, self.keyEntries.lookup (x.id E) = some entry → entry.sk = none := by
  have hvacant := haccepts.vacant
  cases x with
  | privateKey key => exact hvacant
  | publicKey key =>
      intro entry hlookup
      exact absurd (HashMap.mem_of_lookup hlookup) hvacant

theorem clears_iff (hself : self.Sound E) {id : String} {entry : KeyEntry K}
    (hlookup : self.keyEntries.lookup id = some entry) :
    x.clears entry = true
      ↔ x.sk.isSome = true ∧ entry.sk.isSome = true ∧ entry.operation = x.operation := by
  cases x with
  | privateKey key =>
      rw [Insertion.clears, (hself id entry hlookup).isPrivateFor_iff, Insertion.operation,
        Insertion.pk, PublicKey.getOperation, PrivateKeyShare.getScheme_getPublicKey]
      simp [Insertion.sk]
  | publicKey key => simp [Insertion.clears, Insertion.sk]

theorem precedes_iff (hself : self.Sound E) {id : String} {entry : KeyEntry K}
    (hlookup : self.keyEntries.lookup id = some entry) :
    x.precedes entry = true
      ↔ (x.sk.isSome = true → entry.sk.isSome = true) ∧ entry.operation = x.operation := by
  cases x with
  | privateKey key =>
      rw [Insertion.precedes, (hself id entry hlookup).isPrivateFor_iff, Insertion.operation,
        Insertion.pk, PublicKey.getOperation, PrivateKeyShare.getScheme_getPublicKey]
      simp [Insertion.sk]
  | publicKey key => simp [Insertion.precedes, Insertion.sk, Insertion.operation, Insertion.pk]

/-- The new entry is the default unless there is a key of its operation, or for a private share another
private share. -/
theorem isDefault_entryOf_iff (hself : self.Sound E) :
    (self.entryOf E x).isDefault = true
      ↔ ∀ id entry, self.keyEntries.lookup id = some entry →
        (x.sk.isSome = true → entry.sk.isSome = true) → entry.operation ≠ x.operation := by
  rw [isDefault_entryOf]
  refine forall_congr' fun id => forall_congr' fun entry => forall_congr' fun hlookup => ?_
  rw [Bool.eq_false_iff, Ne, precedes_iff hself hlookup, not_and]

theorem privateMarked_put (hself : self.Sound E) (hmarked : self.PrivateMarked)
    (haccepts : self.Accepts E x) : (self.put E x).PrivateMarked := by
  have hvacant := vacant_private haccepts
  intro id entry hlookup hsk
  rcases lookup_put_cases hlookup with ⟨rfl, rfl⟩ | ⟨hne, old, hold, heq⟩
  · rw [isDefault_entryOf_iff hself]
    -- only the private shares that were there before can precede the new one
    constructor
    · intro h id' entry' hlookup' hsk' hoperation'
      by_contra hid'
      obtain ⟨old, hold, hsk, hoperation⟩ := (exists_lookup_put_iff
        (p := fun pk sk => sk.isSome = true ∧ pk.getOperation = x.operation) hid').mp
        ⟨entry', hlookup', hsk', hoperation'⟩
      exact h id' old hold (fun _ => hsk) hoperation
    · intro h id' old hold hprivate hoperation
      have hid' : id' ≠ x.id E := by
        rintro rfl
        have hnone := hprivate hsk
        rw [hvacant old hold] at hnone
        cases hnone
      obtain ⟨entry', hlookup', hsk', hoperation'⟩ := (exists_lookup_put_iff
        (p := fun pk sk => sk.isSome = true ∧ pk.getOperation = x.operation) hid').mpr
        ⟨old, hold, hprivate hsk, hoperation⟩
      exact hid' (h id' entry' hlookup' hsk' hoperation')
  · have hkeys : entry.sk = old.sk ∧ entry.operation = old.operation := by
      rw [heq]
      split <;> exact ⟨rfl, rfl⟩
    rw [hkeys.2, isOnlyPrivate_put_iff hne hvacant]
    rw [hkeys.1] at hsk
    by_cases hclears : x.clears old = true
    · rw [heq, if_pos hclears]
      obtain ⟨hx, -, hoperation⟩ := (clears_iff hself hold).mp hclears
      simp [hx, hoperation]
    · rw [heq, if_neg hclears, hmarked id old hold hsk]
      rw [clears_iff hself hold] at hclears
      constructor
      · intro h
        exact ⟨h, fun hx => hclears ⟨hx.1, hsk, hx.2.symm⟩⟩
      · exact And.left

/-- A private share is marked exactly while it is the only one of its operation. -/
theorem isDefault_private_iff (xs : List (Insertion K)) :
    (new.insertAll R xs : KeyStore K).PrivateMarked := by
  have hboth : (new.insertAll R xs : KeyStore K).Sound E
      ∧ (new.insertAll R xs : KeyStore K).PrivateMarked := by
    apply insertAll_induction (P := fun store => store.Sound E ∧ store.PrivateMarked)
    · refine ⟨?_, ?_⟩ <;> intro id entry hlookup <;> cases hlookup
    · rintro store x ⟨hsound, hmarked⟩ haccepts
      exact ⟨sound_put hsound haccepts, privateMarked_put hsound hmarked haccepts⟩
  exact hboth.2

/-! ### The mark of a public key -/

/-- The public key with this id was inserted when the store held no key of its operation. -/
def Founds (xs : List (Insertion K)) (id : String) : Prop :=
  ∃ before key after, xs = before ++ .publicKey key :: after ∧ key.hashId E = id
    ∧ (new.insertAll R before).Accepts E (.publicKey key)
    ∧ ∀ id' entry, (new.insertAll R before).keyEntries.lookup id' = some entry →
      entry.operation ≠ key.getOperation

theorem founds_append_singleton {id : String} :
    Founds R (xs ++ [x]) id ↔ Founds R xs id
      ∨ ∃ key, x = .publicKey key ∧ key.hashId E = id
        ∧ (new.insertAll R xs).Accepts E (.publicKey key)
        ∧ ∀ id' entry, (new.insertAll R xs).keyEntries.lookup id' = some entry →
          entry.operation ≠ key.getOperation := by
  constructor
  · rintro ⟨before, key, after, heq, hrest⟩
    rcases List.eq_nil_or_concat after with rfl | ⟨after, y, rfl⟩
    · obtain ⟨rfl, hx⟩ := List.append_inj' heq rfl
      obtain rfl := (List.cons.inj hx).1
      exact .inr ⟨key, rfl, hrest⟩
    · rw [List.concat_eq_append, ← List.cons_append, ← List.append_assoc] at heq
      obtain ⟨rfl, -⟩ := List.append_inj' heq rfl
      exact .inl ⟨before, key, after, rfl, hrest⟩
  · rintro (⟨before, key, after, rfl, hrest⟩ | ⟨key, rfl, hrest⟩)
    · exact ⟨before, key, after ++ [x], by simp, hrest⟩
    · exact ⟨xs, key, [], rfl, hrest⟩

/-- A key that was inserted is there. -/
theorem mem_of_founds {id : String} (h : Founds R xs id) :
    id ∈ (new.insertAll R xs : KeyStore K).keyEntries := by
  obtain ⟨before, key, after, rfl, rfl, haccepts, -⟩ := h
  have hgrows := grows_insertAll R ((new.insertAll R before).put E (.publicKey key)) after
  obtain ⟨entry, hlookup, -⟩ := hgrows _ _ (lookup_put_self _ (.publicKey key))
  have hrun : new.insertAll R (before ++ .publicKey key :: after)
      = ((new.insertAll R before).put E (.publicKey key)).insertAll R after := by
    rw [insertAll, List.foldl_append, List.foldl_cons]
    change insertAll R ((new.insertAll R before).insert R (.publicKey key)).2 after = _
    rw [insert_of_accepts R haccepts]
  rw [hrun]
  exact HashMap.mem_of_lookup hlookup

/-- An entry without a private share is marked exactly when it was the first of its operation. -/
theorem isDefault_public_iff {id : String} {entry : KeyEntry K}
    (hlookup : (new.insertAll R xs).keyEntries.lookup id = some entry) (hsk : entry.sk = none) :
    entry.isDefault = true ↔ Founds R xs id := by
  induction xs using List.reverseRecOn generalizing entry with
  | nil => cases hlookup
  | append_singleton xs x ih =>
      rw [founds_append_singleton]
      rw [insertAll_append_singleton] at hlookup
      rcases insert_cases R (new.insertAll R xs) x with ⟨hrefused, heq⟩ | ⟨haccepts, heq⟩
      · rw [heq] at hlookup
        rw [ih hlookup hsk]
        refine ⟨.inl, ?_⟩
        rintro (h | ⟨key, rfl, -, haccepts, -⟩)
        · exact h
        · exact absurd haccepts hrefused
      · rw [heq] at hlookup
        rcases lookup_put_cases hlookup with ⟨rfl, rfl⟩ | ⟨hne, old, hold, hentry⟩
        · cases x with
          | privateKey key => cases hsk
          | publicKey key =>
              have hnew : ¬ Founds R xs (Insertion.id E (.publicKey key)) := by
                intro h
                exact haccepts.vacant (mem_of_founds R h)
              rw [isDefault_entryOf, or_iff_right hnew]
              simp only [Insertion.precedes, decide_eq_false_iff_not]
              constructor
              · intro h
                exact ⟨key, rfl, rfl, haccepts, h⟩
              · rintro ⟨key', hkey, -, -, h⟩
                cases hkey
                exact h
        · -- under another id nothing happens to an entry without a private share
          have hold' : old.sk = none := by
            rw [hentry] at hsk
            split at hsk <;> exact hsk
          have hclears : ¬ x.clears old = true := by
            rw [clears_iff (sound_insertAll R xs) hold, hold']
            simp
          rw [hentry, if_neg hclears, ih hold hold']
          refine ⟨.inl, ?_⟩
          rintro (h | ⟨key, rfl, hid, -⟩)
          · exact h
          · exact absurd hid.symm hne

/-- No two entries without a private share are marked for one operation. -/
def PublicMarkUnique (self : KeyStore K) : Prop :=
  ∀ id entry id' entry', self.keyEntries.lookup id = some entry →
    self.keyEntries.lookup id' = some entry' → entry.sk = none → entry'.sk = none →
    entry.isDefault = true → entry'.isDefault = true → entry.operation = entry'.operation → id = id'

theorem publicMarkUnique_put (hself : self.Sound E) (hunique : self.PublicMarkUnique) :
    (self.put E x).PublicMarkUnique := by
  -- an entry without a private share that is not the new one has not changed
  have hold : ∀ {id : String} {entry : KeyEntry K},
      (self.put E x).keyEntries.lookup id = some entry → entry.sk = none → id ≠ x.id E →
      self.keyEntries.lookup id = some entry := by
    intro id entry hlookup hsk hid
    rcases lookup_put_cases hlookup with ⟨heq, -⟩ | ⟨-, old, hold, heq⟩
    · exact absurd heq hid
    · have hclears : ¬ x.clears old = true := by
        rw [clears_iff hself hold]
        rintro ⟨-, hsome, -⟩
        rw [heq] at hsk
        split at hsk <;> simp_all
      rw [if_neg hclears] at heq
      exact heq ▸ hold
  -- the new one is marked only if there was none of its operation
  have hnew : ∀ {id : String} {entry : KeyEntry K},
      (self.put E x).keyEntries.lookup id = some entry → entry.sk = none →
      (self.entryOf E x).sk = none → (self.entryOf E x).isDefault = true →
      (self.entryOf E x).operation = entry.operation → id = x.id E := by
    intro id entry hlookup hsk hsk' hdefault hoperation
    by_contra hid
    refine (isDefault_entryOf_iff hself).mp hdefault id entry (hold hlookup hsk hid) ?_ hoperation.symm
    intro hx
    change x.sk = none at hsk'
    rw [hsk'] at hx
    cases hx
  intro id entry id' entry' hlookup hlookup' hsk hsk' hdefault hdefault' hoperation
  by_cases hid : id = x.id E
  · subst hid
    obtain rfl := Option.some.inj ((lookup_put_self self x).symm.trans hlookup)
    exact (hnew hlookup' hsk' hsk hdefault hoperation).symm
  · by_cases hid' : id' = x.id E
    · subst hid'
      obtain rfl := Option.some.inj ((lookup_put_self self x).symm.trans hlookup')
      exact hnew hlookup hsk hsk' hdefault' hoperation.symm
    · exact hunique id entry id' entry' (hold hlookup hsk hid) (hold hlookup' hsk' hid') hsk hsk'
        hdefault hdefault' hoperation

theorem publicMarkUnique_insertAll (xs : List (Insertion K)) :
    (new.insertAll R xs : KeyStore K).PublicMarkUnique := by
  have hboth : (new.insertAll R xs : KeyStore K).Sound E
      ∧ (new.insertAll R xs : KeyStore K).PublicMarkUnique := by
    apply insertAll_induction (P := fun store => store.Sound E ∧ store.PublicMarkUnique)
    · refine ⟨?_, ?_⟩
      · intro id entry hlookup
        cases hlookup
      · intro id entry id' entry' hlookup
        cases hlookup
    · rintro store x ⟨hsound, hunique⟩ haccepts
      exact ⟨sound_put hsound haccepts, publicMarkUnique_put hsound hunique⟩
  exact hboth.2

/-! ### One default key for every operation -/

/-- Of the keys of an operation that the store holds now, none was there when this one was inserted for
the operation. -/
def IsFirst (xs : List (Insertion K)) (operation : ThresholdOperation) (id : String) : Prop :=
  ∃ before x after, xs = before ++ x :: after ∧ x.id E = id ∧ x.operation = operation
    ∧ (new.insertAll R before).Accepts E x
    ∧ ∀ id' entry, (new.insertAll R xs).keyEntries.lookup id' = some entry →
      entry.operation = operation →
      ∀ old, (new.insertAll R before).keyEntries.lookup id' = some old → old.operation ≠ operation

def Holds (self : KeyStore K) (operation : ThresholdOperation) : Prop :=
  ∃ id entry, self.keyEntries.lookup id = some entry ∧ entry.operation = operation

/-- The entries that are marked for an operation. -/
def MarkedFor (operation : ThresholdOperation) (entry : KeyEntry K) : Prop :=
  entry.isDefault = true ∧ entry.operation = operation

/-- An operation with a key has exactly one that is marked, and it is the first one inserted. -/
def OneDefault (xs : List (Insertion K)) : Prop :=
  ∀ operation, (new.insertAll R xs).Holds operation →
    ∃ id entry, (new.insertAll R xs).keyEntries.Only (MarkedFor operation) id entry
      ∧ IsFirst R xs operation id

/-- With all private shares marked, which is how it is as long as every operation has one default. -/
structure Orderly (xs : List (Insertion K)) : Prop where
  oneDefault : OneDefault R xs
  marked : ∀ id entry, (new.insertAll R xs).keyEntries.lookup id = some entry →
    entry.sk.isSome = true → entry.isDefault = true

/-- What a private share must find when it is accepted: no other key is the default of its operation,
and the entry it takes the place of is not the default of an operation with further keys. -/
structure KeepsDefault (E : Primitives) (store : KeyStore K) (x : Insertion K) : Prop where
  default_eq : ∀ id entry, store.keyEntries.lookup id = some entry → MarkedFor x.operation entry →
    id = x.id E
  replaced : ∀ old, store.keyEntries.lookup (x.id E) = some old → old.isDefault = true →
    old.operation ≠ x.operation →
    ∀ id entry, store.keyEntries.lookup id = some entry → entry.operation = old.operation →
      id = x.id E

section Step

variable {R}

theorem insertAll_accepted (haccepts : (new.insertAll R xs).Accepts E x) :
    new.insertAll R (xs ++ [x]) = (new.insertAll R xs).put E x := by
  rw [insertAll_append_singleton, insert_of_accepts R haccepts]

theorem lookup_insertAll_self (haccepts : (new.insertAll R xs).Accepts E x) :
    (new.insertAll R (xs ++ [x])).keyEntries.lookup (x.id E)
      = some ((new.insertAll R xs).entryOf E x) := by
  rw [insertAll_accepted haccepts, lookup_put_self]

theorem isFirst_append {operation : ThresholdOperation} {id : String}
    (haccepts : (new.insertAll R xs).Accepts E x) (h : IsFirst R xs operation id) :
    IsFirst R (xs ++ [x]) operation id := by
  obtain ⟨before, y, after, heq, hid, hoperation, hbefore, hfirst⟩ := h
  refine ⟨before, y, after ++ [x], by rw [heq]; simp, hid, hoperation, hbefore, ?_⟩
  intro id' entry hlookup hentry old hold hold'
  have hlater : Grows (new.insertAll R before) (new.insertAll R xs) := by
    have hrun : new.insertAll R xs = (new.insertAll R before).insertAll R (y :: after) := by
      rw [heq, insertAll, List.foldl_append]
      rfl
    rw [hrun]
    exact grows_insertAll R _ _
  obtain ⟨now, hnow, hevolves⟩ := hlater id' old hold
  -- an entry that could be replaced now has had no private share before
  rcases hevolves with ⟨hpk, -⟩ | ⟨-, sk, hsk, hpk, -⟩
  · exact hfirst id' now hnow ((congrArg PublicKey.getOperation hpk).trans hold') old hold hold'
  · rw [insertAll_accepted haccepts] at hlookup
    rcases lookup_put_cases hlookup with ⟨rfl, -⟩ | ⟨-, now', hnow', hentry'⟩
    · rw [vacant_private haccepts now hnow] at hsk
      cases hsk
    · obtain rfl := Option.some.inj (hnow.symm.trans hnow')
      have hsame : entry.operation = now.operation := by
        rw [hentry']
        split <;> rfl
      exact hfirst id' now hnow (hsame ▸ hentry) old hold hold'

theorem isFirst_new (haccepts : (new.insertAll R xs).Accepts E x)
    (hnone : ¬ (new.insertAll R xs).Holds x.operation) :
    IsFirst R (xs ++ [x]) x.operation (x.id E) := by
  refine ⟨xs, x, [], rfl, rfl, rfl, haccepts, ?_⟩
  intro id' entry _ _ old hold hoperation
  exact hnone ⟨id', old, hold, hoperation⟩

/-- The keys of the operations other than that of the new key are those that were there, less the one
that was replaced. -/
theorem oneDefault_other {operation : ThresholdOperation} (hne : operation ≠ x.operation)
    (haccepts : (new.insertAll R xs).Accepts E x) (hdefault : OneDefault R xs)
    (hreplaced : ∀ old, (new.insertAll R xs).keyEntries.lookup (x.id E) = some old →
      MarkedFor operation old →
      ∀ id entry, (new.insertAll R xs).keyEntries.lookup id = some entry →
        entry.operation = operation → id = x.id E)
    (hholds : (new.insertAll R (xs ++ [x])).Holds operation) :
    ∃ id entry, (new.insertAll R (xs ++ [x])).keyEntries.Only (MarkedFor operation) id entry
      ∧ IsFirst R (xs ++ [x]) operation id := by
  have hrun := insertAll_accepted haccepts
  -- an entry of the operation has not changed
  have hold : ∀ {id : String} {entry : KeyEntry K},
      (new.insertAll R (xs ++ [x])).keyEntries.lookup id = some entry → entry.operation = operation →
      id ≠ x.id E ∧ (new.insertAll R xs).keyEntries.lookup id = some entry := by
    intro id entry hlookup hoperation
    rw [hrun] at hlookup
    rcases lookup_put_cases hlookup with ⟨-, rfl⟩ | ⟨hid, old, hold, heq⟩
    · exact absurd hoperation.symm hne
    · have hclears : ¬ x.clears old = true := by
        rw [clears_iff (sound_insertAll R xs) hold]
        rintro ⟨-, -, hold'⟩
        rw [heq] at hoperation
        split at hoperation <;> exact hne (hoperation.symm.trans hold')
      rw [if_neg hclears] at heq
      exact ⟨hid, heq ▸ hold⟩
  obtain ⟨id₁, entry₁, hlookup₁, hoperation₁⟩ := hholds
  obtain ⟨hid₁, hold₁⟩ := hold hlookup₁ hoperation₁
  obtain ⟨id, entry, honly, hfirst⟩ := hdefault operation ⟨id₁, entry₁, hold₁, hoperation₁⟩
  have hid : id ≠ x.id E := by
    rintro rfl
    exact hid₁ (hreplaced entry honly.lookup_eq honly.holds id₁ entry₁ hold₁ hoperation₁)
  refine ⟨id, entry, ⟨?_, honly.holds, ?_⟩, isFirst_append haccepts hfirst⟩
  · have hclears : ¬ x.clears entry = true := by
      rw [clears_iff (sound_insertAll R xs) honly.lookup_eq]
      rintro ⟨-, -, hentry⟩
      exact hne (honly.holds.2.symm.trans hentry)
    rw [hrun, lookup_put, if_neg hid, honly.lookup_eq, Option.map_some, if_neg hclears]
  · intro id' entry' hlookup' hmarked'
    exact honly.key_eq id' entry' (hold hlookup' hmarked'.2).2 hmarked'

/-- A public key disturbs nothing. -/
theorem orderly_publicKey {key : PublicKey K} (h : Orderly R xs)
    (haccepts : (new.insertAll R xs).Accepts E (.publicKey key)) :
    Orderly R (xs ++ [.publicKey key]) := by
  have hrun := insertAll_accepted haccepts
  have hnew : ∀ entry, (new.insertAll R xs).keyEntries.lookup (Insertion.id E (.publicKey key))
      ≠ some entry := by
    intro entry hlookup
    exact haccepts.vacant (HashMap.mem_of_lookup hlookup)
  have hlookup : ∀ id, id ≠ Insertion.id E (.publicKey key) →
      (new.insertAll R (xs ++ [.publicKey key])).keyEntries.lookup id
        = (new.insertAll R xs).keyEntries.lookup id := by
    intro id hid
    rw [hrun, lookup_put, if_neg hid]
    simp [Insertion.clears]
  have hself := lookup_insertAll_self haccepts
  refine ⟨?_, ?_⟩
  · intro operation hholds
    by_cases hne : operation = Insertion.operation (.publicKey key)
    · subst hne
      by_cases hsome : (new.insertAll R xs).Holds (Insertion.operation (.publicKey key))
      · -- the default stays what it is, since the new key is not marked
        obtain ⟨id, entry, honly, hfirst⟩ := h.oneDefault _ hsome
        have hid : id ≠ Insertion.id E (.publicKey key) := by
          rintro rfl
          exact hnew entry honly.lookup_eq
        refine ⟨id, entry, ⟨(hlookup id hid).trans honly.lookup_eq, honly.holds, ?_⟩,
          isFirst_append haccepts hfirst⟩
        intro id' entry' hlookup' hmarked'
        by_cases hid' : id' = Insertion.id E (.publicKey key)
        · subst hid'
          obtain rfl := Option.some.inj (hself.symm.trans hlookup')
          have hother := (isDefault_entryOf_iff (sound_insertAll R xs)).mp hmarked'.1 id entry
            honly.lookup_eq fun hsk => by cases hsk
          exact absurd honly.holds.2 hother
        · exact honly.key_eq id' entry' ((hlookup id' hid').symm.trans hlookup') hmarked'
      · refine ⟨_, _, ⟨hself, ⟨?_, rfl⟩, ?_⟩, isFirst_new haccepts hsome⟩
        · rw [isDefault_entryOf_iff (sound_insertAll R xs)]
          intro id entry hentry _ hoperation
          exact hsome ⟨id, entry, hentry, hoperation⟩
        · intro id' entry' hlookup' hmarked'
          by_contra hid'
          rw [hlookup id' hid'] at hlookup'
          exact hsome ⟨id', entry', hlookup', hmarked'.2⟩
    · exact oneDefault_other hne haccepts h.oneDefault (fun old hold => absurd hold (hnew old)) hholds
  · intro id entry hentry hsk
    by_cases hid : id = Insertion.id E (.publicKey key)
    · subst hid
      obtain rfl := Option.some.inj (hself.symm.trans hentry)
      cases hsk
    · exact h.marked id entry ((hlookup id hid).symm.trans hentry) hsk

/-- A private share that finds what it must keeps the order. -/
theorem orderly_privateKey (h : Orderly R xs) (haccepts : (new.insertAll R xs).Accepts E x)
    (hkeeps : KeepsDefault E (new.insertAll R xs) x) (hx : x.sk.isSome = true) :
    Orderly R (xs ++ [x]) := by
  have hrun := insertAll_accepted haccepts
  have hsound := sound_insertAll R xs
  have hvacant := vacant_private haccepts
  -- any private share of the operation would be the default one
  have hnone : ∀ id entry, (new.insertAll R xs).keyEntries.lookup id = some entry →
      entry.sk.isSome = true → entry.operation ≠ x.operation := by
    intro id entry hlookup hsk hoperation
    obtain rfl := hkeeps.default_eq id entry hlookup ⟨h.marked id entry hlookup hsk, hoperation⟩
    rw [hvacant entry hlookup] at hsk
    cases hsk
  have hlookup : ∀ id, id ≠ x.id E → (new.insertAll R (xs ++ [x])).keyEntries.lookup id
      = (new.insertAll R xs).keyEntries.lookup id := by
    intro id hid
    rw [hrun, lookup_put, if_neg hid]
    cases hentry : (new.insertAll R xs).keyEntries.lookup id with
    | none => rfl
    | some entry =>
        rw [Option.map_some, if_neg]
        rw [clears_iff hsound hentry]
        rintro ⟨-, hsk, hoperation⟩
        exact hnone id entry hentry hsk hoperation
  have hself := lookup_insertAll_self haccepts
  have hmark : ((new.insertAll R xs).entryOf E x).isDefault = true := by
    rw [isDefault_entryOf_iff hsound]
    intro id entry hentry hsk
    exact hnone id entry hentry (hsk hx)
  refine ⟨?_, ?_⟩
  · intro operation hholds
    by_cases hne : operation = x.operation
    · subst hne
      refine ⟨_, _, ⟨hself, ⟨hmark, rfl⟩, ?_⟩, ?_⟩
      · intro id' entry' hlookup' hmarked'
        by_contra hid'
        rw [hlookup id' hid'] at hlookup'
        exact hid' (hkeeps.default_eq id' entry' hlookup' hmarked')
      · by_cases hsome : (new.insertAll R xs).Holds x.operation
        · obtain ⟨id, entry, honly, hfirst⟩ := h.oneDefault _ hsome
          obtain rfl := hkeeps.default_eq id entry honly.lookup_eq honly.holds
          exact isFirst_append haccepts hfirst
        · exact isFirst_new haccepts hsome
    · refine oneDefault_other hne haccepts h.oneDefault ?_ hholds
      intro old hold hmarked id entry hentry hoperation
      exact hkeeps.replaced old hold hmarked.1 (hmarked.2 ▸ hne) id entry hentry
        (hoperation.trans hmarked.2.symm)
  · intro id entry hentry hsk
    by_cases hid : id = x.id E
    · subst hid
      obtain rfl := Option.some.inj (hself.symm.trans hentry)
      exact hmark
    · exact h.marked id entry ((hlookup id hid).symm.trans hentry) hsk

/-- A mark is never given to an entry that was there. -/
theorem lookup_of_markedFor (haccepts : (new.insertAll R xs).Accepts E x) {id : String}
    {entry : KeyEntry K} {operation : ThresholdOperation}
    (hlookup : (new.insertAll R (xs ++ [x])).keyEntries.lookup id = some entry)
    (hmarked : MarkedFor operation entry) (hid : id ≠ x.id E) :
    (new.insertAll R xs).keyEntries.lookup id = some entry ∧ ¬ x.clears entry = true := by
  rw [insertAll_accepted haccepts] at hlookup
  rcases lookup_put_cases hlookup with ⟨heq, -⟩ | ⟨-, old, hold, heq⟩
  · exact absurd heq hid
  · split at heq
    · rw [heq] at hmarked
      cases hmarked.1
    · rename_i hclears
      exact heq ▸ ⟨hold, hclears⟩

/-- If the order is kept, then no other key was the default of the operation. -/
theorem default_eq_of_oneDefault (h : Orderly R xs) (haccepts : (new.insertAll R xs).Accepts E x)
    (hx : x.sk.isSome = true) (hnext : OneDefault R (xs ++ [x])) {id : String} {entry : KeyEntry K}
    (hlookup : (new.insertAll R xs).keyEntries.lookup id = some entry)
    (hmarked : MarkedFor x.operation entry) : id = x.id E := by
  have hsound := sound_insertAll R xs
  have hself := lookup_insertAll_self haccepts
  by_contra hid
  obtain ⟨id', entry', honly', -⟩ := hnext x.operation ⟨x.id E, _, hself, rfl⟩
  obtain ⟨id₀, entry₀, honly₀, -⟩ := h.oneDefault x.operation ⟨id, entry, hlookup, hmarked.2⟩
  obtain rfl := honly₀.key_eq id entry hlookup hmarked
  cases hsk : entry.sk with
  | none =>
      -- an old default without a private share keeps its mark, and the new key is marked too
      have hclears : ¬ x.clears entry = true := by
        rw [clears_iff hsound hlookup, hsk]
        simp
      have hkept : (new.insertAll R (xs ++ [x])).keyEntries.lookup id = some entry := by
        rw [insertAll_accepted haccepts, lookup_put, if_neg hid, hlookup, Option.map_some,
          if_neg hclears]
      have hmark : ((new.insertAll R xs).entryOf E x).isDefault = true := by
        rw [isDefault_entryOf_iff hsound]
        intro id₁ entry₁ hlookup₁ hsk₁ hoperation₁
        obtain rfl := honly₀.key_eq id₁ entry₁ hlookup₁
          ⟨h.marked id₁ entry₁ hlookup₁ (hsk₁ hx), hoperation₁⟩
        obtain rfl := Option.some.inj (hlookup.symm.trans hlookup₁)
        have hsome := hsk₁ hx
        rw [hsk] at hsome
        cases hsome
      have hnew := honly'.key_eq (x.id E) _ hself ⟨hmark, rfl⟩
      exact hid ((honly'.key_eq id entry hkept hmarked).trans hnew.symm)
  | some sk =>
      -- an old default with a private share loses its mark, and nothing gets one
      have hsome : entry.sk.isSome = true := by rw [hsk]; rfl
      have hid' : id' ≠ x.id E := by
        rintro rfl
        obtain rfl := Option.some.inj (hself.symm.trans honly'.lookup_eq)
        exact (isDefault_entryOf_iff hsound).mp honly'.holds.1 id entry hlookup (fun _ => hsome)
          hmarked.2
      obtain ⟨hlookup', hclears⟩ :=
        lookup_of_markedFor haccepts honly'.lookup_eq honly'.holds hid'
      obtain rfl := honly₀.key_eq id' entry' hlookup' honly'.holds
      obtain rfl := Option.some.inj (hlookup.symm.trans hlookup')
      exact hclears ((clears_iff hsound hlookup).mpr ⟨hx, hsome, hmarked.2⟩)

/-- And the entry that is replaced was not the default of an operation with further keys. -/
theorem replaced_of_oneDefault (h : Orderly R xs) (haccepts : (new.insertAll R xs).Accepts E x)
    (hnext : OneDefault R (xs ++ [x])) {old : KeyEntry K}
    (hlookup : (new.insertAll R xs).keyEntries.lookup (x.id E) = some old)
    (hmark : old.isDefault = true) (hne : old.operation ≠ x.operation) {id : String}
    {entry : KeyEntry K} (hentry : (new.insertAll R xs).keyEntries.lookup id = some entry)
    (hoperation : entry.operation = old.operation) : id = x.id E := by
  by_contra hid
  obtain ⟨now, hnow, hnow'⟩ := (exists_lookup_put_iff
    (p := fun pk _ => pk.getOperation = old.operation) hid).mpr ⟨entry, hentry, hoperation⟩
  rw [← insertAll_accepted haccepts] at hnow
  obtain ⟨id', entry', honly', -⟩ := hnext old.operation ⟨id, now, hnow, hnow'⟩
  have hid' : id' ≠ x.id E := by
    rintro rfl
    obtain rfl := Option.some.inj ((lookup_insertAll_self haccepts).symm.trans honly'.lookup_eq)
    exact hne honly'.holds.2.symm
  obtain ⟨id₀, entry₀, honly₀, -⟩ := h.oneDefault old.operation ⟨_, old, hlookup, rfl⟩
  have hreplaced := honly₀.key_eq _ old hlookup ⟨hmark, rfl⟩
  have hmarked := (lookup_of_markedFor haccepts honly'.lookup_eq honly'.holds hid').1
  have hkept := honly₀.key_eq id' entry' hmarked honly'.holds
  exact hid' (hkept.trans hreplaced.symm)

theorem keepsDefault_of_oneDefault (h : Orderly R xs)
    (haccepts : (new.insertAll R xs).Accepts E x) (hx : x.sk.isSome = true)
    (hnext : OneDefault R (xs ++ [x])) : KeepsDefault E (new.insertAll R xs) x where
  default_eq _ _ := default_eq_of_oneDefault h haccepts hx hnext
  replaced _ hlookup hmark hne _ _ := replaced_of_oneDefault h haccepts hnext hlookup hmark hne

/-- A key that is refused changes nothing. -/
theorem orderly_refused (h : Orderly R xs) (hrefused : ¬ (new.insertAll R xs).Accepts E x) :
    Orderly R (xs ++ [x]) := by
  have hrun : new.insertAll R (xs ++ [x]) = new.insertAll R xs := by
    rw [insertAll_append_singleton]
    rcases insert_cases R (new.insertAll R xs) x with ⟨-, heq⟩ | ⟨haccepts, -⟩
    · exact heq
    · exact absurd haccepts hrefused
  refine ⟨?_, ?_⟩
  · intro operation hholds
    rw [hrun] at hholds
    obtain ⟨id, entry, honly, before, y, after, heq, hid, hoperation, hbefore, hfirst⟩ :=
      h.oneDefault operation hholds
    refine ⟨id, entry, hrun.symm ▸ honly, before, y, after ++ [x], ?_, hid, hoperation, hbefore, ?_⟩
    · rw [heq]
      simp
    · rw [hrun]
      exact hfirst
  · rw [hrun]
    exact h.marked

/-- Public keys, accepted or not, keep the order. -/
theorem orderly_decodedKeys (D : Decoders E K) (h : Orderly R xs) (keys : List Bytes) :
    Orderly R (xs ++ decodedKeys D keys) := by
  induction keys generalizing xs with
  | nil => simpa [decodedKeys] using h
  | cons bytes rest ih =>
      rw [decodedKeys]
      cases PublicKey.fromBytes D bytes with
      | err e => simpa using h
      | panic => simpa using h
      | ok key =>
          have hnext : Orderly R (xs ++ [.publicKey key]) := by
            by_cases haccepts : (new.insertAll R xs).Accepts E (.publicKey key)
            · exact orderly_publicKey h haccepts
            · exact orderly_refused h haccepts
          have hrest := ih hnext
          rwa [List.append_assoc] at hrest

end Step

section Calls

variable (D : Decoders E K) {updates : List (KeyStoreUpdate K)}

/-- Every private share that is accepted in the course of the calls finds what it must. -/
def PrivateKeepsDefault (updates : List (KeyStoreUpdate K)) : Prop :=
  ∀ before key, before ++ [.insertPrivateKey key] <+: updates →
    (run D before).Accepts E (.privateKey key) → KeepsDefault E (run D before) (.privateKey key)

theorem orderly_run (h : PrivateKeepsDefault D updates) :
    Orderly D.asn1 (updates.flatMap (insertions D)) := by
  induction updates using List.reverseRecOn with
  | nil =>
      refine ⟨?_, ?_⟩
      · rintro operation ⟨id, entry, hlookup, -⟩
        cases hlookup
      · intro id entry hlookup
        cases hlookup
  | append_singleton updates u ih =>
      have hbefore := ih fun before key hpre =>
        h before key (hpre.trans (List.prefix_append _ _))
      rw [List.flatMap_append, List.flatMap_singleton]
      cases u with
      | importPublicKeys keys => exact orderly_decodedKeys D hbefore keys
      | insertPublicKey key =>
          by_cases haccepts :
              (new.insertAll D.asn1 (updates.flatMap (insertions D))).Accepts E (.publicKey key)
          · exact orderly_publicKey hbefore haccepts
          · exact orderly_refused hbefore haccepts
      | insertPrivateKey key =>
          by_cases haccepts :
              (new.insertAll D.asn1 (updates.flatMap (insertions D))).Accepts E (.privateKey key)
          · refine orderly_privateKey hbefore haccepts ?_ rfl
            have hkeeps := h updates key (List.prefix_refl _)
            rw [run_eq] at hkeeps
            exact hkeeps haccepts
          · exact orderly_refused hbefore haccepts

theorem privateKeepsDefault_of_oneDefault
    (h : ∀ before, before <+: updates → OneDefault D.asn1 (before.flatMap (insertions D))) :
    PrivateKeepsDefault D updates := by
  induction updates using List.reverseRecOn with
  | nil =>
      intro before key hpre
      simp at hpre
  | append_singleton updates u ih =>
      have hbefore := ih fun before hpre => h before (hpre.trans (List.prefix_append _ _))
      intro before key hpre haccepts
      rcases List.prefix_concat_iff.mp hpre with heq | hpre
      · obtain ⟨rfl, hu⟩ := List.append_inj' heq rfl
        have horderly := orderly_run D hbefore
        rw [run_eq] at haccepts ⊢
        refine keepsDefault_of_oneDefault horderly haccepts rfl ?_
        have hlast := h (before ++ [.insertPrivateKey key]) hpre
        rwa [List.flatMap_append, List.flatMap_singleton] at hlast
      · exact hbefore before key hpre haccepts

/-- After every call, each operation with a key has exactly one default key, the first one inserted for
it, if and only if every private share that is accepted finds no other default key of its operation and
does not take the place of the default key of another operation that has further keys. -/
theorem one_default_per_operation_iff (updates : List (KeyStoreUpdate K)) :
    (∀ before, before <+: updates → ∀ operation, (run D before).Holds operation →
      ∃ id entry, (run D before).keyEntries.Only (MarkedFor operation) id entry
        ∧ IsFirst D.asn1 (before.flatMap (insertions D)) operation id)
      ↔ ∀ before key, before ++ [.insertPrivateKey key] <+: updates →
        (run D before).Accepts E (.privateKey key) →
        KeepsDefault E (run D before) (.privateKey key) := by
  constructor
  · intro h
    apply privateKeepsDefault_of_oneDefault
    intro before hpre
    have hdefault := h before hpre
    rw [run_eq] at hdefault
    exact hdefault
  · intro h before hpre
    rw [run_eq]
    refine (orderly_run D ?_).oneDefault
    intro earlier key hearlier
    exact h earlier key (hearlier.trans hpre)

end Calls

/-- Two private shares of one operation take the mark from each other. -/
theorem not_isDefault_of_two_private {key key' : PrivateKeyShare K}
    (hoperation : key'.getPublicKey.getOperation = key.getPublicKey.getOperation)
    (hid : key.getPublicKey.hashId E = key.getKeyId)
    (hid' : key'.getPublicKey.hashId E = key'.getKeyId)
    (hne : key.getPublicKey.hashId E ≠ key'.getPublicKey.hashId E) :
    ∃ entry entry', entry.isDefault = false ∧ entry'.isDefault = false
      ∧ entry.pk = key.getPublicKey ∧ entry'.pk = key'.getPublicKey
      ∧ ∀ id, (new.insertAll R [.privateKey key, .privateKey key']).keyEntries.lookup id
        = if id = key'.getPublicKey.hashId E then some entry'
          else if id = key.getPublicKey.hashId E then some entry else none := by
  have haccepts : (new.insertAll R []).Accepts E (.privateKey key) := by
    refine ⟨hid.trans (PrivateKeyShare.getKeyId_getPublicKey key).symm, ?_⟩
    intro entry hlookup
    cases hlookup
  have hlookup : ∀ id, (new.put E (.privateKey key)).keyEntries.lookup id
      = if id = key.getPublicKey.hashId E then some (entryOf E new (.privateKey key)) else none :=
    lookup_put new (.privateKey key)
  have haccepts' : (new.put E (.privateKey key)).Accepts E (.privateKey key') := by
    refine ⟨hid'.trans (PrivateKeyShare.getKeyId_getPublicKey key').symm, ?_⟩
    intro entry hentry
    change (new.put E (.privateKey key)).keyEntries.lookup (key'.getPublicKey.hashId E) = _ at hentry
    rw [hlookup, if_neg hne.symm] at hentry
    cases hentry
  have hrun : new.insertAll R [.privateKey key, .privateKey key']
      = (new.put E (.privateKey key)).put E (.privateKey key') := by
    have hfirst : new.insertAll R [.privateKey key] = new.put E (.privateKey key) :=
      insertAll_accepted haccepts
    rw [← hfirst] at haccepts' ⊢
    exact insertAll_accepted haccepts'
  have hsound := sound_put (x := .privateKey key) (sound_insertAll R []) haccepts
  have hprivate := hlookup (key.getPublicKey.hashId E)
  rw [if_pos rfl] at hprivate
  have hclears : Insertion.clears (.privateKey key') (entryOf E new (.privateKey key)) = true :=
    (clears_iff hsound hprivate).mpr ⟨rfl, rfl, hoperation.symm⟩
  refine ⟨{ entryOf E new (.privateKey key) with isDefault := false },
    entryOf E (new.put E (.privateKey key)) (.privateKey key'), rfl, ?_, rfl, rfl, ?_⟩
  · rw [Bool.eq_false_iff]
    intro h
    exact (isDefault_entryOf_iff hsound).mp h _ _ hprivate (fun _ => rfl) hoperation.symm
  · intro id
    rw [hrun, lookup_put, hlookup]
    change (if id = key'.getPublicKey.hashId E then _ else _) = _
    split
    · rfl
    · split
      · rw [Option.map_some, if_pos hclears]
      · rfl

end KeyStore

/-! ### Two private shares over the residues modulo seven -/

/-- The primitives of the tests, with texts in base64. -/
def Primitives.base64 : Primitives := { Primitives.der with base64UrlSafe := Base64.encode }

def Decoders.base64 : Decoders .base64 .seven where
  asn1 := ⟨Der.read, Der.read_write⟩
  ecp := Decoders.seven.ecp
  ecp2 := Decoders.seven.ecp2
  order_le := Decoders.seven.order_le

/-- The key of the only party of a dealing over the residues modulo seven. -/
def sg02ShareSeven (secret : ℕ) : PrivateKeyShare .seven :=
  let C := Curves.seven.ecp .bn254
  .sg02 .bn254 ⟨1, secret, Sg02PublicKey.new .base64 C 1 1 (C.generator ^ secret)
    [C.generator ^ secret] C.generator⟩

theorem hashId_base64_ne {key key' : PublicKey K}
    (h : Primitives.der.hash256 (key.innerBytes .base64)
      ≠ Primitives.der.hash256 (key'.innerBytes .base64)) :
    key.hashId .base64 ≠ key'.hashId .base64 :=
  fun heq => h (Base64.encode_injective heq)

theorem hashId_sg02ShareSeven_ne :
    (sg02ShareSeven 1).getPublicKey.hashId .base64
      ≠ (sg02ShareSeven 2).getPublicKey.hashId .base64 := by
  apply hashId_base64_ne
  decide

/-- Both shares are stored, and neither is the default. -/
theorem lookup_two_shares :
    ∃ entry entry', entry.isDefault = false ∧ entry'.isDefault = false
      ∧ entry.pk = (sg02ShareSeven 1).getPublicKey ∧ entry'.pk = (sg02ShareSeven 2).getPublicKey
      ∧ ∀ id, (KeyStore.run Decoders.base64
          [.insertPrivateKey (sg02ShareSeven 1), .insertPrivateKey (sg02ShareSeven 2)]).keyEntries.lookup
            id
        = if id = (sg02ShareSeven 2).getPublicKey.hashId .base64 then some entry'
          else if id = (sg02ShareSeven 1).getPublicKey.hashId .base64 then some entry else none :=
  KeyStore.not_isDefault_of_two_private Decoders.base64.asn1 rfl rfl rfl hashId_sg02ShareSeven_ne

theorem isDefault_two_shares {id : String} {entry : KeyEntry .seven}
    (h : (KeyStore.run Decoders.base64
      [.insertPrivateKey (sg02ShareSeven 1),
        .insertPrivateKey (sg02ShareSeven 2)]).keyEntries.lookup id = some entry) :
    entry.isDefault = false := by
  obtain ⟨first, second, hfirst, hsecond, -, -, hlookup⟩ := lookup_two_shares
  rw [hlookup] at h
  split at h
  · rw [← Option.some.inj h]
    exact hsecond
  · split at h
    · rw [← Option.some.inj h]
      exact hfirst
    · cases h

/-- An operation with two keys and no default. -/
theorem two_private_shares_no_default :
    (KeyStore.run Decoders.base64
      [.insertPrivateKey (sg02ShareSeven 1), .insertPrivateKey (sg02ShareSeven 2)]).Holds .encryption
    ∧ ¬ ∃ id entry, (KeyStore.run Decoders.base64
      [.insertPrivateKey (sg02ShareSeven 1),
        .insertPrivateKey (sg02ShareSeven 2)]).keyEntries.Only (KeyStore.MarkedFor .encryption)
          id entry := by
  obtain ⟨_, entry', -, -, -, hpk', hlookup⟩ := lookup_two_shares
  refine ⟨⟨(sg02ShareSeven 2).getPublicKey.hashId .base64, entry', ?_, ?_⟩, ?_⟩
  · rw [hlookup, if_pos rfl]
  · rw [KeyEntry.operation, hpk']
    rfl
  · rintro ⟨id, marked, honly⟩
    have hmarked := honly.holds.1
    rw [isDefault_two_shares honly.lookup_eq] at hmarked
    cases hmarked

end QuorumCrypt
