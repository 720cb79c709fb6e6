import QuorumCrypt.Keys.DefaultKey

/-!
# Writing a key file and reading it

The file has every key, so the store that is read back has the same entries apart from the default
marks. The marks are set anew, by the insertions in the order of the file. For private shares this comes
to the same (`isDefault_private_iff`). A public key is marked in the new store exactly when its record
comes before the others of its operation (`founds_insertions_iff`), so the marks agree for every order
only if each public key without a private share is marked and alone in its operation.
-/

namespace QuorumCrypt

open Rust

variable {E : Primitives} {K : Curves}

namespace KeyEntry

/-- The key that is inserted when the record of the entry is read. -/
def insertion (entry : KeyEntry K) : Insertion K :=
  match entry.sk with
  | some sk => .privateKey sk
  | none => .publicKey entry.pk

/-- The entry apart from its mark. -/
def unmarked (entry : KeyEntry K) : KeyEntry K := { entry with isDefault := false }

/-- The encoded key of the record decodes to the key. -/
structure Decodes (D : Decoders E K) (entry : KeyEntry K) : Prop where
  private_eq : ∀ sk, entry.sk = some sk → PrivateKeyShare.fromBytes D (sk.toBytes E) = .ok sk
  public_eq : entry.sk = none → PublicKey.fromBytes D (entry.pk.toBytes E) = .ok entry.pk

variable {id : String} {entry entry' : KeyEntry K}

theorem sk_insertion (entry : KeyEntry K) : entry.insertion.sk = entry.sk := by
  rw [insertion]
  cases entry.sk <;> rfl

theorem pk_insertion (h : KeyStore.Filed E id entry) : entry.insertion.pk = entry.pk := by
  rw [insertion]
  cases hsk : entry.sk with
  | none => rfl
  | some sk => exact h.getPublicKey_eq sk hsk

theorem insertion_eq_publicKey_iff {key : PublicKey K} :
    entry.insertion = .publicKey key ↔ entry.sk = none ∧ entry.pk = key := by
  rw [insertion]
  cases entry.sk with
  | none => simp
  | some sk => simp

theorem keys_eq_of_unmarked (h : entry.unmarked = entry'.unmarked) :
    entry.pk = entry'.pk ∧ entry.sk = entry'.sk := by
  simp only [unmarked, mk.injEq] at h
  exact ⟨h.2.2.2, h.2.2.1⟩

theorem eq_of_unmarked (h : entry.unmarked = entry'.unmarked)
    (hdefault : entry.isDefault = true ↔ entry'.isDefault = true) : entry = entry' := by
  obtain ⟨id, isDefault, sk, pk⟩ := entry
  obtain ⟨id', isDefault', sk', pk'⟩ := entry'
  simp only [unmarked, mk.injEq] at h
  obtain ⟨rfl, -, rfl, rfl⟩ := h
  obtain rfl : isDefault = isDefault' := Bool.eq_iff_iff.mpr hdefault
  rfl

end KeyEntry

namespace KeyStore

/-! ### The keys of the file -/

section Records

variable {F : FileFormat} {D : Decoders E K} {entries : List ((_ : String) × KeyEntry K)}

theorem fromRecord_serialize (hpem : ∀ bytes, F.urlSafeDecode (E.base64UrlSafe bytes) = some bytes)
    {entry : KeyEntry K} (h : entry.Decodes D) (id : String) :
    fromRecord F D (serialize E id entry) = .ok entry.insertion := by
  cases hsk : entry.sk with
  | some sk =>
      rw [fromRecord, if_pos (by simp [serialize, hsk])]
      have hkey : (serialize E id entry).key = sk.pem E := by simp [serialize, hsk]
      rw [hkey, PrivateKeyShare.fromPem, PrivateKeyShare.pem, hpem]
      simp [h.private_eq sk hsk, KeyEntry.insertion, hsk]
  | none =>
      rw [fromRecord, if_neg (by simp [serialize, hsk])]
      have hkey : (serialize E id entry).key = entry.pk.pem E := by simp [serialize, hsk]
      rw [hkey, PublicKey.fromPem, PublicKey.pem, hpem]
      simp [h.public_eq hsk, KeyEntry.insertion, hsk]

theorem recordedKeys_serialize
    (hpem : ∀ bytes, F.urlSafeDecode (E.base64UrlSafe bytes) = some bytes)
    (h : ∀ e ∈ entries, e.2.Decodes D) :
    recordedKeys F D (entries.map fun e => serialize E e.1 e.2)
      = some (entries.map fun e => e.2.insertion) := by
  induction entries with
  | nil => rfl
  | cons e entries ih =>
      rw [List.map_cons, recordedKeys, fromRecord_serialize hpem (h e List.mem_cons_self)]
      simp only [ih fun e' he' => h e' (List.mem_cons_of_mem _ he'), Option.map_some, List.map_cons]

end Records

/-! ### Inserting the entries of a store into a new one -/

section Entries

variable (R : Asn1Reader E) {entries : List ((_ : String) × KeyEntry K)}

def insertEntries (entries : List ((_ : String) × KeyEntry K)) : KeyStore K :=
  new.insertAll R (entries.map fun e => e.2.insertion)

/-- Entries with different ids, each filed under its own, are all accepted. -/
theorem lookup_insertEntries (hnodup : entries.NodupKeys) (hfiled : ∀ e ∈ entries, Filed E e.1 e.2)
    (id : String) :
    ((insertEntries R entries).keyEntries.lookup id).map KeyEntry.unmarked
      = (entries.dlookup id).map KeyEntry.unmarked := by
  induction entries using List.reverseRecOn generalizing id with
  | nil => rfl
  | append_singleton entries e ih =>
      rw [List.nodupKeys_middle, List.append_nil, List.nodupKeys_cons] at hnodup
      obtain ⟨hnew, hnodup'⟩ := hnodup
      rw [← List.dlookup_eq_none] at hnew
      have hlookup := ih hnodup' (fun e' he' => hfiled e' (List.mem_append_left _ he'))
      have hself : Filed E e.1 e.2 := hfiled e (by simp)
      have hid : e.2.insertion.id E = e.1 := by
        rw [Insertion.id, KeyEntry.pk_insertion hself, hself.hashId_eq]
      have hvacant : (insertEntries R entries).keyEntries.lookup e.1 = none := by
        rw [← Option.map_eq_none_iff, hlookup, hnew, Option.map_none]
      have haccepts : (insertEntries R entries).Accepts E e.2.insertion := by
        refine ⟨?_, ?_⟩
        · rw [hid, KeyEntry.pk_insertion hself, hself.getKeyId_eq]
        · rw [hid]
          cases e.2.insertion with
          | privateKey key =>
              intro entry hentry
              rw [hvacant] at hentry
              cases hentry
          | publicKey key => exact AList.lookup_eq_none.mp hvacant
      have hrun : insertEntries R (entries ++ [e]) = (insertEntries R entries).put E e.2.insertion := by
        rw [insertEntries, List.map_append]
        exact insertAll_accepted haccepts
      rw [hrun, lookup_put, hid, List.dlookup_append]
      split
      · rename_i heq
        rw [heq, hnew, Option.none_or, Option.map_some, List.dlookup_cons_eq, Option.map_some]
        simp only [KeyEntry.unmarked, entryOf, KeyEntry.sk_insertion, KeyEntry.pk_insertion hself, hid,
          hself.id_eq]
      · rename_i hne
        rw [List.dlookup_cons_ne _ _ hne, List.dlookup_nil, Option.or_none, ← hlookup, Option.map_map]
        congr 1
        funext entry
        simp only [Function.comp_apply, KeyEntry.unmarked]
        split <;> rfl

/-- The entry comes before all others of its operation. -/
def LeadsOperation (entries : List ((_ : String) × KeyEntry K)) (id : String) : Prop :=
  ∃ before entry after, entries = before ++ ⟨id, entry⟩ :: after
    ∧ ∀ e ∈ before, e.2.operation ≠ entry.operation

variable {id : String} {entry : KeyEntry K}

/-- The first entry of the list is of another operation than one that leads its own further on. -/
theorem LeadsOperation.operation_ne {first : (_ : String) × KeyEntry K}
    {rest : List ((_ : String) × KeyEntry K)} (h : LeadsOperation (first :: rest) id)
    (hnodup : (first :: rest).NodupKeys) (hmem : ⟨id, entry⟩ ∈ first :: rest) (hne : first.1 ≠ id) :
    first.2.operation ≠ entry.operation := by
  obtain ⟨before, found, after, heq, hbefore⟩ := h
  obtain rfl : found = entry := hnodup.eq_of_mk_mem (by rw [heq]; simp) hmem
  cases before with
  | nil => exact absurd (congrArg Sigma.fst (List.cons.inj heq).1) hne
  | cons first' before =>
      obtain rfl := (List.cons.inj heq).1
      exact hbefore first List.mem_cons_self

/-- In the new store a public key is marked when its entry comes before all others of its operation. -/
theorem founds_insertions_iff (hnodup : entries.NodupKeys)
    (hfiled : ∀ e ∈ entries, Filed E e.1 e.2) (hmem : ⟨id, entry⟩ ∈ entries) (hsk : entry.sk = none) :
    Founds R (entries.map fun e => e.2.insertion) id ↔ LeadsOperation entries id := by
  -- the operations in the store after a part of the list are those of the entries in it
  have hbefore : ∀ {before after}, entries = before ++ after → ∀ operation,
      (∃ id' entry', (insertEntries R before).keyEntries.lookup id' = some entry'
        ∧ entry'.operation = operation) ↔ ∃ e ∈ before, e.2.operation = operation := by
    intro before after heq operation
    have hnodup' : before.NodupKeys :=
      List.NodupKeys.sublist (List.sublist_append_left _ _) (heq ▸ hnodup)
    have hlookup := lookup_insertEntries R hnodup'
      (fun e he => hfiled e (heq ▸ List.mem_append_left _ he))
    constructor
    · rintro ⟨id', entry', hentry, hoperation⟩
      have hsome := hlookup id'
      rw [hentry, Option.map_some] at hsome
      obtain ⟨found, hfound, hunmarked⟩ := Option.map_eq_some_iff.mp hsome.symm
      refine ⟨⟨id', found⟩, List.of_mem_dlookup hfound, ?_⟩
      have hpk : found.pk = entry'.pk := (KeyEntry.keys_eq_of_unmarked hunmarked).1
      rw [← hoperation, KeyEntry.operation, KeyEntry.operation, hpk]
    · rintro ⟨⟨id', found⟩, hfound, hoperation⟩
      have hsome := hlookup id'
      rw [List.mem_dlookup hnodup' hfound, Option.map_some] at hsome
      obtain ⟨entry', hentry, hunmarked⟩ := Option.map_eq_some_iff.mp hsome
      refine ⟨id', entry', hentry, ?_⟩
      have hpk : entry'.pk = found.pk := (KeyEntry.keys_eq_of_unmarked hunmarked).1
      rw [← hoperation, KeyEntry.operation, KeyEntry.operation, hpk]
  constructor
  · rintro ⟨before', key, after', heq, hid, -, hoperation⟩
    obtain ⟨before, rest, rfl, rfl, hrest⟩ := List.map_eq_append_iff.mp heq
    obtain ⟨⟨id', entry'⟩, after, rfl, hkey, -⟩ := List.map_eq_cons_iff.mp hrest
    obtain ⟨-, rfl⟩ := KeyEntry.insertion_eq_publicKey_iff.mp hkey
    have hself : Filed E id' entry' := hfiled ⟨id', entry'⟩ (by simp)
    obtain rfl : id' = id := hself.hashId_eq.symm.trans hid
    refine ⟨before, entry', after, rfl, ?_⟩
    intro e he hop
    obtain ⟨id'', entry'', hentry, hop'⟩ := (hbefore rfl entry'.operation).mpr ⟨e, he, hop⟩
    exact hoperation id'' entry'' hentry hop'
  · rintro ⟨before, entry', after, rfl, hoperation⟩
    obtain rfl : entry' = entry := hnodup.eq_of_mk_mem (by simp) hmem
    have hself : Filed E id entry' := hfiled ⟨id, entry'⟩ (by simp)
    refine ⟨before.map fun e => e.2.insertion, entry'.pk, after.map fun e => e.2.insertion, ?_,
      hself.hashId_eq, ⟨?_, ?_⟩, ?_⟩
    · rw [List.map_append, List.map_cons, KeyEntry.insertion_eq_publicKey_iff.mpr ⟨hsk, rfl⟩]
    · exact hself.hashId_eq.trans hself.getKeyId_eq.symm
    · -- no entry before has the id
      rw [List.nodupKeys_middle, List.nodupKeys_cons] at hnodup
      have hnew : before.dlookup id = none := by
        rw [List.dlookup_eq_none]
        intro hkeys
        exact hnodup.1 (by simp [List.keys] at hkeys ⊢; exact .inl hkeys)
      have hlookup := lookup_insertEntries R
        (List.NodupKeys.sublist (List.sublist_append_left _ _) hnodup.2)
        (fun e he => hfiled e (List.mem_append_left _ he)) id
      rw [hnew, Option.map_none, Option.map_eq_none_iff] at hlookup
      change Insertion.id E (.publicKey entry'.pk) ∉ (insertEntries R before).keyEntries
      rw [Insertion.id, Insertion.pk, hself.hashId_eq]
      exact AList.lookup_eq_none.mp hlookup
    · intro id' found hfound hop
      obtain ⟨e, he, hop'⟩ := (hbefore rfl _).mp ⟨id', found, hfound, hop⟩
      exact hoperation e he hop'

end Entries

/-! ### The store that is read back -/

theorem isOnlyPrivate_congr {self other : KeyStore K} {id : String} {operation : ThresholdOperation}
    (h : ∀ id, (self.keyEntries.lookup id).map KeyEntry.unmarked
      = (other.keyEntries.lookup id).map KeyEntry.unmarked)
    (honly : self.IsOnlyPrivate id operation) : other.IsOnlyPrivate id operation := by
  intro id' entry' hlookup hsk hoperation
  have hsome := h id'
  rw [hlookup, Option.map_some] at hsome
  obtain ⟨entry, hentry, hunmarked⟩ := Option.map_eq_some_iff.mp hsome
  have hpk : entry.pk = entry'.pk := (KeyEntry.keys_eq_of_unmarked hunmarked).1
  have hsk' : entry.sk = entry'.sk := (KeyEntry.keys_eq_of_unmarked hunmarked).2
  refine honly id' entry hentry (hsk'.symm ▸ hsk) ?_
  rw [KeyEntry.operation, hpk]
  exact hoperation

section Reload

variable (R : Asn1Reader E) (xs : List (Insertion K)) (order : IterationOrder String (KeyEntry K))

/-- The entries of the store, inserted in the order of the file, give the store exactly when the public
keys without a private share are marked as the order marks them. -/
theorem lookup_reload_iff :
    (∀ id, (insertEntries R
        (order.arrange (new.insertAll R xs : KeyStore K).keyEntries.entries)).keyEntries.lookup id
      = (new.insertAll R xs).keyEntries.lookup id)
      ↔ ∀ id entry, (new.insertAll R xs).keyEntries.lookup id = some entry → entry.sk = none →
        (entry.isDefault = true
          ↔ LeadsOperation (order.arrange (new.insertAll R xs).keyEntries.entries) id) := by
  let store : KeyStore K := new.insertAll R xs
  let entries := order.arrange store.keyEntries.entries
  have hperm : entries.Perm store.keyEntries.entries := order.perm _
  have hnodup : entries.NodupKeys := (List.perm_nodupKeys hperm).mpr store.keyEntries.nodupKeys
  have hfiled : ∀ e ∈ entries, Filed E e.1 e.2 := by
    intro e he
    exact sound_insertAll R xs e.1 e.2 (AList.mem_lookup_iff.mpr (hperm.mem_iff.mp he))
  have hsame : ∀ id, ((insertEntries R entries).keyEntries.lookup id).map KeyEntry.unmarked
      = (store.keyEntries.lookup id).map KeyEntry.unmarked := by
    intro id
    rw [lookup_insertEntries R hnodup hfiled, List.perm_dlookup id hnodup hperm]
    rfl
  have hpublic : ∀ {id entry entry'}, store.keyEntries.lookup id = some entry →
      (insertEntries R entries).keyEntries.lookup id = some entry' → entry'.sk = entry.sk →
      entry.sk = none → (entry'.isDefault = true ↔ LeadsOperation entries id) := by
    intro id entry entry' hlookup hlookup' hsk hnone
    rw [isDefault_public_iff R hlookup' (hsk.trans hnone)]
    exact founds_insertions_iff R hnodup hfiled
      (hperm.mem_iff.mpr (AList.mem_lookup_iff.mp hlookup)) hnone
  constructor
  · intro h id entry hlookup hsk
    exact hpublic hlookup ((h id).trans hlookup) rfl hsk
  · intro h id
    have hid := hsame id
    cases hlookup : store.keyEntries.lookup id with
    | none =>
        rw [hlookup, Option.map_none, Option.map_eq_none_iff] at hid
        exact hid
    | some entry =>
        rw [hlookup, Option.map_some] at hid
        obtain ⟨entry', hlookup', hunmarked⟩ := Option.map_eq_some_iff.mp hid
        have hsk : entry'.sk = entry.sk := (KeyEntry.keys_eq_of_unmarked hunmarked).2
        have hpk : entry'.pk = entry.pk := (KeyEntry.keys_eq_of_unmarked hunmarked).1
        refine hlookup'.trans (congrArg some (KeyEntry.eq_of_unmarked hunmarked ?_))
        cases hcase : entry.sk with
        | none =>
            rw [hpublic hlookup hlookup' hsk hcase]
            exact (h id entry hlookup hcase).symm
        | some sk =>
            have hsome : entry.sk.isSome = true := by rw [hcase]; rfl
            rw [isDefault_private_iff R _ id entry' hlookup' (hsk.symm ▸ hsome),
              isDefault_private_iff R _ id entry hlookup hsome, KeyEntry.operation, hpk]
            exact ⟨isOnlyPrivate_congr hsame, isOnlyPrivate_congr fun id => (hsame id).symm⟩

end Reload

section File

variable (F : FileFormat) (D : Decoders E K)

/-- The store that is read from the file has the entries of the one that was written. -/
def Reloads (order : IterationOrder String (KeyEntry K)) (store : KeyStore K) : Prop :=
  ∃ read, fromStr F D (store.toFile F E order) = .ok read
    ∧ ∀ id, read.keyEntries.lookup id = store.keyEntries.lookup id

/-- The public keys without a private share are marked as the order of the file marks them. -/
def MarkedInOrder (order : IterationOrder String (KeyEntry K)) (store : KeyStore K) : Prop :=
  ∀ id entry, store.keyEntries.lookup id = some entry → entry.sk = none →
    (entry.isDefault = true ↔ LeadsOperation (order.arrange store.keyEntries.entries) id)

variable {F D} {updates : List (KeyStoreUpdate K)} {order : IterationOrder String (KeyEntry K)}

theorem reloads_iff
    (hjson : F.jsonFromStr ((run D updates).toFile F E order) = some ((run D updates).records E order))
    (hpem : ∀ bytes, F.urlSafeDecode (E.base64UrlSafe bytes) = some bytes)
    (hkeys : ∀ id entry, (run D updates).keyEntries.lookup id = some entry → entry.Decodes D) :
    Reloads F D order (run D updates) ↔ MarkedInOrder order (run D updates) := by
  have hdecodes : ∀ e ∈ order.arrange (run D updates).keyEntries.entries, e.2.Decodes D := by
    intro e he
    exact hkeys e.1 e.2 (AList.mem_lookup_iff.mpr ((order.perm _).mem_iff.mp he))
  have hread : fromStr F D ((run D updates).toFile F E order)
      = .ok (insertEntries D.asn1 (order.arrange (run D updates).keyEntries.entries)) := by
    simp only [fromStr, hjson, insertRecords_eq]
    rw [records, recordedKeys_serialize hpem hdecodes]
    rfl
  have hreloads : Reloads F D order (run D updates) ↔ ∀ id,
      (insertEntries D.asn1 (order.arrange (run D updates).keyEntries.entries)).keyEntries.lookup id
        = (run D updates).keyEntries.lookup id := by
    constructor
    · rintro ⟨read, hok, hlookup⟩
      rw [hread] at hok
      exact Outcome.ok.inj hok ▸ hlookup
    · intro hlookup
      exact ⟨_, hread, hlookup⟩
  rw [hreloads, run_eq]
  exact lookup_reload_iff D.asn1 _ order

end File

/-- The order that has the entry with the id first. -/
def orderFrom (id : String) : IterationOrder String (KeyEntry K) where
  arrange entries := entries.filter (fun e => e.1 = id) ++ entries.filter (fun e => ¬ e.1 = id)
  perm entries := by
    simpa using List.filter_append_perm (fun e : (_ : String) × KeyEntry K => decide (e.1 = id)) entries

/-- An entry that the order has first comes before all others. -/
theorem arrange_orderFrom {self : KeyStore K} {id : String} {entry : KeyEntry K}
    (hlookup : self.keyEntries.lookup id = some entry) :
    ∃ rest, (orderFrom id).arrange self.keyEntries.entries = ⟨id, entry⟩ :: rest := by
  have hmem : ⟨id, entry⟩ ∈ self.keyEntries.entries.filter (fun e => e.1 = id) := by
    simpa using AList.mem_lookup_iff.mp hlookup
  rw [orderFrom]
  cases hfilter : self.keyEntries.entries.filter (fun e => e.1 = id) with
  | nil =>
      rw [hfilter] at hmem
      cases hmem
  | cons e rest =>
      have he : e ∈ self.keyEntries.entries.filter (fun e => e.1 = id) := by
        rw [hfilter]
        exact List.mem_cons_self
      have hfst : e.1 = id := by simpa using (List.mem_filter.mp he).2
      have heq := self.keyEntries.nodupKeys.eq_of_fst_eq (List.mem_filter.mp he).1
        (AList.mem_lookup_iff.mp hlookup) hfst
      refine ⟨rest ++ self.keyEntries.entries.filter (fun e => ¬ e.1 = id), ?_⟩
      change _ ++ _ = _
      rw [hfilter, heq]
      rfl

/-- The marks agree with every order only when each public key without a private share is marked and
alone in its operation. -/
theorem markedInOrder_all_iff {self : KeyStore K} :
    (∀ order, MarkedInOrder order self)
      ↔ ∀ id entry, self.keyEntries.lookup id = some entry → entry.sk = none →
        entry.isDefault = true ∧ ∀ id' entry', self.keyEntries.lookup id' = some entry' →
          entry'.operation = entry.operation → id' = id := by
  constructor
  · intro h id entry hlookup hsk
    have hdefault : entry.isDefault = true := by
      obtain ⟨rest, hrest⟩ := arrange_orderFrom hlookup
      refine (h (orderFrom id) id entry hlookup hsk).mpr ⟨[], entry, rest, hrest, ?_⟩
      intro e he
      cases he
    refine ⟨hdefault, ?_⟩
    intro id' entry' hlookup' hoperation
    -- if the other entry comes first, this one does not lead
    by_contra hne
    obtain ⟨rest, hrest⟩ := arrange_orderFrom hlookup'
    have hperm := (orderFrom id').perm self.keyEntries.entries
    have hleads := (h (orderFrom id') id entry hlookup hsk).mp hdefault
    rw [hrest] at hperm hleads
    have hnodup := (List.perm_nodupKeys hperm).mpr self.keyEntries.nodupKeys
    have hmem := hperm.mem_iff.mpr (AList.mem_lookup_iff.mp hlookup)
    exact hleads.operation_ne hnodup hmem hne hoperation
  · intro h order id entry hlookup hsk
    obtain ⟨hdefault, halone⟩ := h id entry hlookup hsk
    refine iff_of_true hdefault ?_
    have hmem : ⟨id, entry⟩ ∈ order.arrange self.keyEntries.entries :=
      (order.perm _).mem_iff.mpr (AList.mem_lookup_iff.mp hlookup)
    obtain ⟨before, after, heq⟩ := List.append_of_mem hmem
    refine ⟨before, entry, after, heq, ?_⟩
    intro e he hoperation
    have he' : e ∈ self.keyEntries.entries := by
      rw [← (order.perm _).mem_iff, heq]
      exact List.mem_append_left _ he
    have hid : e.1 = id := halone e.1 e.2 (AList.mem_lookup_iff.mpr he') hoperation
    have hnodup := (List.perm_nodupKeys (order.perm _)).mpr self.keyEntries.nodupKeys
    rw [heq, List.nodupKeys_middle, List.nodupKeys_cons] at hnodup
    have hkey := List.mem_keys_of_mem (List.mem_append_left after he)
    rw [hid] at hkey
    exact hnodup.1 hkey

/-- A store that was filled by insertions and imports and is written in some order is read back with the
same entries if and only if every public key without a private share is marked exactly when it comes
before the others of its operation. So it is for every order if and only if each of these public keys is
marked and is the only key of its operation. -/
theorem file_round_trip_iff (F : FileFormat) (D : Decoders E K) (updates : List (KeyStoreUpdate K))
    (hjson : ∀ order, F.jsonFromStr ((run D updates).toFile F E order)
      = some ((run D updates).records E order))
    (hpem : ∀ bytes, F.urlSafeDecode (E.base64UrlSafe bytes) = some bytes)
    (hkeys : ∀ id entry, (run D updates).keyEntries.lookup id = some entry → entry.Decodes D) :
    (∀ order, Reloads F D order (run D updates) ↔ MarkedInOrder order (run D updates))
    ∧ ((∀ order, Reloads F D order (run D updates))
      ↔ ∀ id entry, (run D updates).keyEntries.lookup id = some entry → entry.sk = none →
        entry.isDefault = true ∧ ∀ id' entry', (run D updates).keyEntries.lookup id' = some entry' →
          entry'.operation = entry.operation → id' = id) := by
  have horder : ∀ order, Reloads F D order (run D updates) ↔ MarkedInOrder order (run D updates) :=
    fun order => reloads_iff (hjson order) hpem hkeys
  exact ⟨horder, (forall_congr' horder).trans markedInOrder_all_iff⟩

end KeyStore

/-! ### Keys over the residues modulo seven -/

theorem Sg02PublicKey.wellFormed_new (E : Primitives) {c : Curve} (y g : K.Point c) :
    (PublicKey.sg02 c (Sg02PublicKey.new E (K.ecp c) 1 1 y [y] g)).WellFormed E := ⟨rfl, rfl⟩

namespace KeyStore

theorem wellFormed_sg02ShareSeven (secret : ℕ) :
    (sg02ShareSeven secret).getPublicKey.WellFormed .base64 :=
  Sg02PublicKey.wellFormed_new _ _ _

/-- The entry of the public key of a share. -/
def publicEntry (secret : ℕ) (isDefault : Bool) : KeyEntry .seven where
  id := (sg02ShareSeven secret).getPublicKey.hashId .base64
  isDefault := isDefault
  sk := none
  pk := (sg02ShareSeven secret).getPublicKey

theorem operation_publicEntry (secret : ℕ) (isDefault : Bool) :
    (publicEntry secret isDefault).operation = .encryption := rfl

theorem decodes_publicEntry (secret : ℕ) (isDefault : Bool) :
    (publicEntry secret isDefault).Decodes Decoders.base64 where
  private_eq _ hsk := by cases hsk
  public_eq _ := PublicKey.fromBytes_toBytes Decoders.base64 (wellFormed_sg02ShareSeven secret)

theorem accepts_publicKey_seven {self : KeyStore .seven} {secret : ℕ}
    (hnew : (publicEntry secret true).id ∉ self.keyEntries) :
    self.Accepts .base64 (.publicKey (sg02ShareSeven secret).getPublicKey) :=
  ⟨(wellFormed_sg02ShareSeven secret).id_eq.symm, hnew⟩

/-- A store with one public key. -/
def publicSeven : KeyStore .seven :=
  run Decoders.base64 [.insertPublicKey (sg02ShareSeven 1).getPublicKey]

theorem entries_publicSeven :
    publicSeven.keyEntries.entries = [⟨(publicEntry 1 true).id, publicEntry 1 true⟩] := by
  have haccepts : (new.insertAll Decoders.base64.asn1 []).Accepts .base64
      (.publicKey (sg02ShareSeven 1).getPublicKey) :=
    accepts_publicKey_seven (AList.notMem_empty _)
  have hrun : publicSeven = new.put .base64 (.publicKey (sg02ShareSeven 1).getPublicKey) :=
    insertAll_accepted haccepts
  rw [hrun]
  rfl

theorem entries_put_publicKey {E : Primitives} {K : Curves} {self : KeyStore K} {key : PublicKey K}
    (h : key.hashId E ∉ self.keyEntries) :
    (self.put E (.publicKey key)).keyEntries.entries
      = ⟨key.hashId E,
          { id := key.hashId E
            isDefault := !self.keyEntries.entries.any fun e => e.2.operation = key.getOperation
            sk := none
            pk := key }⟩ :: self.keyEntries.entries := AList.entries_insert_of_notMem h

theorem find_jsonRecords_cons {a : List SerializedKeyEntry} {known : List (List SerializedKeyEntry)} :
    (a :: known).find? (fun entries => decide (jsonRecords entries = jsonRecords a)) = some a :=
  List.find?_cons_of_pos (decide_eq_true_iff.mpr (Eq.refl (jsonRecords a)))

theorem find_jsonRecords_of_ne {a b : List SerializedKeyEntry} {known : List (List SerializedKeyEntry)}
    (h : jsonRecords b ≠ jsonRecords a) :
    (b :: known).find? (fun entries => decide (jsonRecords entries = jsonRecords a))
      = known.find? (fun entries => decide (jsonRecords entries = jsonRecords a)) := by
  apply List.find?_cons_of_neg
  rw [decide_eq_true_iff]
  exact h

theorem jsonFromStr_seven (records : List SerializedKeyEntry) :
    (FileFormat.seven [records]).jsonFromStr ((FileFormat.seven [records]).jsonToString records)
      = some records := find_jsonRecords_cons

theorem urlSafeDecode_seven (known : List (List SerializedKeyEntry)) (bytes : Bytes) :
    (FileFormat.seven known).urlSafeDecode (Primitives.base64.base64UrlSafe bytes) = some bytes :=
  Base64.decode_encode bytes

/-- The key of a coin. -/
def coinKeySeven : PublicKey .seven :=
  let C := Curves.seven.ecp .bn254
  .cks05 .bn254 (Cks05PublicKey.new .base64 C 1 1 C.generator [C.generator])

theorem wellFormed_coinKeySeven : coinKeySeven.WellFormed .base64 := ⟨rfl, rfl⟩

theorem hashId_coinKeySeven_ne :
    (sg02ShareSeven 1).getPublicKey.hashId .base64 ≠ coinKeySeven.hashId .base64 := by
  apply hashId_base64_ne
  decide

def shareEntry : KeyEntry .seven where
  id := (sg02ShareSeven 1).getPublicKey.hashId .base64
  isDefault := true
  sk := some (sg02ShareSeven 1)
  pk := (sg02ShareSeven 1).getPublicKey

def coinEntry : KeyEntry .seven where
  id := coinKeySeven.hashId .base64
  isDefault := true
  sk := none
  pk := coinKeySeven

theorem decodes_shareEntry : shareEntry.Decodes Decoders.base64 where
  private_eq sk hsk := by
    obtain rfl := Option.some.inj hsk
    have hscalar : 1 < 256 ^ 32 := by norm_num
    exact PrivateKeyShare.fromBytes_toBytes Decoders.base64 (wellFormed_sg02ShareSeven 1) hscalar
  public_eq hsk := by cases hsk

theorem decodes_coinEntry : coinEntry.Decodes Decoders.base64 where
  private_eq _ hsk := by cases hsk
  public_eq _ := PublicKey.fromBytes_toBytes Decoders.base64 wellFormed_coinKeySeven

/-- A store with a private share of a cipher and the public key of a coin. -/
def mixedSeven : KeyStore .seven :=
  run Decoders.base64 [.insertPrivateKey (sg02ShareSeven 1), .insertPublicKey coinKeySeven]

theorem entries_mixedSeven :
    mixedSeven.keyEntries.entries = [⟨coinEntry.id, coinEntry⟩, ⟨shareEntry.id, shareEntry⟩] := by
  let shareOnly : KeyStore .seven := new.put .base64 (.privateKey (sg02ShareSeven 1))
  have hshare : shareOnly.keyEntries.entries = [⟨shareEntry.id, shareEntry⟩] := rfl
  have hfirst : (new.insertAll Decoders.base64.asn1 []).Accepts .base64
      (.privateKey (sg02ShareSeven 1)) :=
    ⟨(wellFormed_sg02ShareSeven 1).id_eq.symm, fun entry h => by cases h⟩
  have hrun : new.insertAll Decoders.base64.asn1 [.privateKey (sg02ShareSeven 1)] = shareOnly :=
    insertAll_accepted hfirst
  have hnew : coinKeySeven.hashId .base64 ∉ shareOnly.keyEntries := by
    rw [AList.mem_keys, AList.keys, hshare]
    simp only [List.keys, List.map_cons, List.map_nil, List.mem_singleton]
    exact hashId_coinKeySeven_ne.symm
  have hsecond : (new.insertAll Decoders.base64.asn1 [.privateKey (sg02ShareSeven 1)]).Accepts .base64
      (.publicKey coinKeySeven) := by
    rw [hrun]
    exact ⟨wellFormed_coinKeySeven.id_eq.symm, hnew⟩
  have hmixed : mixedSeven = shareOnly.put .base64 (.publicKey coinKeySeven) := by
    rw [← hrun]
    exact insertAll_accepted hsecond
  rw [hmixed, entries_put_publicKey hnew, hshare]
  rfl

theorem lookup_mixedSeven {id : String} {entry : KeyEntry .seven}
    (h : mixedSeven.keyEntries.lookup id = some entry) :
    (id = coinEntry.id ∧ entry = coinEntry) ∨ (id = shareEntry.id ∧ entry = shareEntry) := by
  have hmem := AList.mem_lookup_iff.mp h
  rw [entries_mixedSeven, List.mem_pair] at hmem
  rcases hmem with hmem | hmem
  · cases hmem
    exact .inl ⟨rfl, rfl⟩
  · cases hmem
    exact .inr ⟨rfl, rfl⟩

/-- The records of the mixed store, with the entry that was inserted last in front. -/
def mixedRecords : List SerializedKeyEntry :=
  [serialize .base64 coinEntry.id coinEntry, serialize .base64 shareEntry.id shareEntry]

/-- The map is iterated in one of two orders. -/
theorem records_mixedSeven (order : IterationOrder String (KeyEntry .seven)) :
    mixedSeven.records .base64 order = mixedRecords
      ∨ mixedSeven.records .base64 order = mixedRecords.reverse := by
  have hperm := order.perm mixedSeven.keyEntries.entries
  rw [records]
  rw [entries_mixedSeven] at hperm ⊢
  rcases List.perm_pair.mp hperm with heq | heq
  · rw [heq]
    exact .inl rfl
  · rw [heq]
    exact .inr rfl

theorem jsonRecords_mixedRecords_ne : jsonRecords mixedRecords ≠ jsonRecords mixedRecords.reverse := by
  decide +kernel

theorem jsonFromStr_mixedSeven {records : List SerializedKeyEntry}
    (h : records = mixedRecords ∨ records = mixedRecords.reverse) :
    (FileFormat.seven [mixedRecords, mixedRecords.reverse]).jsonFromStr (jsonRecords records)
      = some records := by
  rw [FileFormat.jsonFromStr_seven]
  rcases h with rfl | rfl
  · exact find_jsonRecords_cons
  · rw [find_jsonRecords_of_ne jsonRecords_mixedRecords_ne]
    exact find_jsonRecords_cons

/-- The store is read back from its file, whatever the order in which it was written. -/
theorem file_round_trip_mixedSeven :
    mixedSeven.keyEntries.entries = [⟨coinEntry.id, coinEntry⟩, ⟨shareEntry.id, shareEntry⟩]
    ∧ ∀ order, Reloads (FileFormat.seven [mixedRecords, mixedRecords.reverse]) Decoders.base64 order
      mixedSeven := by
  refine ⟨entries_mixedSeven, (file_round_trip_iff _ Decoders.base64
    [.insertPrivateKey (sg02ShareSeven 1), .insertPublicKey coinKeySeven] ?_ (urlSafeDecode_seven _)
    ?_).2.mpr ?_⟩
  · intro order
    exact jsonFromStr_mixedSeven (records_mixedSeven order)
  · intro id entry hlookup
    rcases lookup_mixedSeven hlookup with ⟨-, rfl⟩ | ⟨-, rfl⟩
    · exact decodes_coinEntry
    · exact decodes_shareEntry
  · intro id entry hlookup hsk
    rcases lookup_mixedSeven hlookup with ⟨rfl, rfl⟩ | ⟨rfl, rfl⟩
    · refine ⟨rfl, fun id' entry' hlookup' hoperation => ?_⟩
      rcases lookup_mixedSeven hlookup' with ⟨rfl, -⟩ | ⟨-, rfl⟩
      · rfl
      · cases hoperation
    · cases hsk

/-- The store after a second public key. -/
def twoPublicSeven : KeyStore .seven :=
  run Decoders.base64 [.insertPublicKey (sg02ShareSeven 1).getPublicKey,
    .insertPublicKey (sg02ShareSeven 2).getPublicKey]

theorem entries_twoPublicSeven :
    twoPublicSeven.keyEntries.entries
      = [⟨(publicEntry 2 false).id, publicEntry 2 false⟩,
        ⟨(publicEntry 1 true).id, publicEntry 1 true⟩] := by
  have hnew : (publicEntry 2 true).id ∉ publicSeven.keyEntries := by
    rw [AList.mem_keys, AList.keys, entries_publicSeven]
    simp only [List.keys, List.map_cons, List.map_nil, List.mem_singleton]
    exact hashId_sg02ShareSeven_ne.symm
  have haccepts : (new.insertAll Decoders.base64.asn1
      [.publicKey (sg02ShareSeven 1).getPublicKey]).Accepts .base64
      (.publicKey (sg02ShareSeven 2).getPublicKey) := accepts_publicKey_seven hnew
  have hrun : twoPublicSeven
      = publicSeven.put .base64 (.publicKey (sg02ShareSeven 2).getPublicKey) :=
    insertAll_accepted haccepts
  rw [hrun, entries_put_publicKey hnew, entries_publicSeven]
  rfl

theorem of_lookup_twoPublicSeven {id : String} {entry : KeyEntry .seven}
    (h : twoPublicSeven.keyEntries.lookup id = some entry) :
    entry = publicEntry 2 false ∨ entry = publicEntry 1 true := by
  have hmem := AList.mem_lookup_iff.mp h
  rw [entries_twoPublicSeven, List.mem_pair] at hmem
  rcases hmem with hmem | hmem
  · cases hmem
    exact .inl rfl
  · cases hmem
    exact .inr rfl

theorem lookup_twoPublicSeven_first :
    twoPublicSeven.keyEntries.lookup (publicEntry 1 true).id = some (publicEntry 1 true) := by
  apply AList.mem_lookup_iff.mpr
  rw [entries_twoPublicSeven]
  simp

/-- The second key is written first, and so it is marked when the file is read. -/
theorem second_public_key_reloads_as_default :
    ¬ Reloads (FileFormat.seven [twoPublicSeven.records .base64 (.latest _ _)]) Decoders.base64
      (.latest _ _) twoPublicSeven := by
  have hkeys : ∀ id entry, twoPublicSeven.keyEntries.lookup id = some entry →
      entry.Decodes Decoders.base64 := by
    intro id entry hlookup
    rcases of_lookup_twoPublicSeven hlookup with rfl | rfl
    · exact decodes_publicEntry 2 false
    · exact decodes_publicEntry 1 true
  intro h
  have hmarked : MarkedInOrder (.latest _ _) twoPublicSeven :=
    (reloads_iff (jsonFromStr_seven _) (urlSafeDecode_seven _) hkeys).mp h
  have hleads : LeadsOperation twoPublicSeven.keyEntries.entries (publicEntry 1 true).id :=
    (hmarked _ _ lookup_twoPublicSeven_first rfl).mp rfl
  have hnodup := twoPublicSeven.keyEntries.nodupKeys
  have hmem' := AList.mem_lookup_iff.mp lookup_twoPublicSeven_first
  rw [entries_twoPublicSeven] at hleads hnodup hmem'
  exact hleads.operation_ne hnodup hmem' hashId_sg02ShareSeven_ne.symm
    ((operation_publicEntry 2 false).trans (operation_publicEntry 1 true).symm)

end KeyStore

end QuorumCrypt
