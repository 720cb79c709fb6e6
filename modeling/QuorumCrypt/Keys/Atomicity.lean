import QuorumCrypt.Keys.FileRoundTrip

/-!
# Calls that fail

`keys/key_store.rs`: besides its entries, a store has the name of the file it was loaded from. A key that
is refused is refused before anything is changed, and a file is read to its end before its entries
replace the old ones. The import of a list of keys goes key by key: at one that cannot be decoded it
returns an error, and the keys before it have been inserted.
-/

namespace QuorumCrypt

open Rust

variable {E : Primitives} {K : Curves}

namespace KeyStore

variable (R : Asn1Reader E) {self : KeyStore K}

/-- An accepted key is still there after further insertions, so the store is not what it was. -/
theorem insertAll_put_ne {x : Insertion K} (haccepts : self.Accepts E x) (xs : List (Insertion K)) :
    (self.put E x).insertAll R xs ≠ self := by
  intro heq
  obtain ⟨entry, hlookup, hevolves⟩ :=
    grows_insertAll R (self.put E x) xs (x.id E) _ (lookup_put_self self x)
  rw [heq] at hlookup
  have hvacant := haccepts.vacant
  cases x with
  | privateKey key =>
      have hsk : entry.sk = none := hvacant entry hlookup
      rcases hevolves with ⟨-, hsk'⟩ | ⟨hnone, -⟩
      · rw [hsk] at hsk'
        cases hsk'
      · cases hnone
  | publicKey key => exact hvacant (HashMap.mem_of_lookup hlookup)

/-- Insertions leave the store as it is when it accepts none of the keys, and only then. -/
theorem insertAll_eq_self_iff (xs : List (Insertion K)) :
    self.insertAll R xs = self ↔ ∀ x ∈ xs, ¬ self.Accepts E x := by
  induction xs with
  | nil => exact iff_of_true rfl fun _ h => by cases h
  | cons x xs ih =>
      have hrun : self.insertAll R (x :: xs) = (self.insert R x).2.insertAll R xs := rfl
      rw [List.forall_mem_cons, hrun]
      rcases insert_cases R self x with ⟨hrefused, heq⟩ | ⟨haccepts, heq⟩
      · rw [heq, ih]
        exact (and_iff_right hrefused).symm
      · rw [heq]
        exact iff_of_false (insertAll_put_ne R haccepts xs) fun h => h.1 haccepts

variable (D : Decoders E K)

/-- The import stops at a key that cannot be decoded; the keys before it can. -/
def StopsAfter (keys before : List Bytes) : Prop :=
  ∃ bytes after e, keys = before ++ bytes :: after ∧ PublicKey.fromBytes D bytes = .err e
    ∧ ∀ b ∈ before, ∃ key, PublicKey.fromBytes D b = .ok key

variable {bytes : Bytes} {keys before : List Bytes}

theorem stopsAfter_nil_iff :
    StopsAfter D (bytes :: keys) [] ↔ ∃ e, PublicKey.fromBytes D bytes = .err e := by
  constructor
  · rintro ⟨stop, after, e, heq, hstop, -⟩
    obtain ⟨rfl, -⟩ := List.cons.inj heq
    exact ⟨e, hstop⟩
  · rintro ⟨e, hstop⟩
    exact ⟨bytes, keys, e, rfl, hstop, fun _ h => absurd h List.not_mem_nil⟩

theorem stopsAfter_cons_iff {b : Bytes} :
    StopsAfter D (bytes :: keys) (b :: before)
      ↔ b = bytes ∧ (∃ key, PublicKey.fromBytes D bytes = .ok key) ∧ StopsAfter D keys before := by
  constructor
  · rintro ⟨stop, after, e, heq, hstop, hbefore⟩
    rw [List.forall_mem_cons] at hbefore
    obtain ⟨rfl, rfl⟩ := List.cons.inj heq
    exact ⟨rfl, hbefore.1, stop, after, e, rfl, hstop, hbefore.2⟩
  · rintro ⟨rfl, hkey, stop, after, e, rfl, hstop, hbefore⟩
    exact ⟨stop, after, e, rfl, hstop, List.forall_mem_cons.mpr ⟨hkey, hbefore⟩⟩

/-- An import returns an error exactly when it stops, since inserting a key never panics. -/
theorem importPublicKeys_eq_err_iff (self : KeyStore K) (keys : List Bytes) :
    (∃ message, (self.importPublicKeys D keys).1 = .err message) ↔ ∃ before, StopsAfter D keys before := by
  induction keys generalizing self with
  | nil =>
      refine iff_of_false ?_ ?_
      · rintro ⟨message, h⟩
        cases h
      · rintro ⟨before, stop, after, e, h, -⟩
        simp at h
  | cons bytes rest ih =>
      cases hbytes : PublicKey.fromBytes D bytes with
      | err e =>
          refine iff_of_true ?_ ⟨[], (stopsAfter_nil_iff D).mpr ⟨e, hbytes⟩⟩
          simp only [importPublicKeys, hbytes]
          exact ⟨_, rfl⟩
      | panic =>
          refine iff_of_false ?_ ?_
          · simp [importPublicKeys, hbytes]
          · rintro ⟨before, h⟩
            cases before with
            | nil => simp [stopsAfter_nil_iff, hbytes] at h
            | cons b before => simp [stopsAfter_cons_iff, hbytes] at h
      | ok key =>
          rw [importPublicKeys_cons D hbytes, ih]
          constructor
          · rintro ⟨before, h⟩
            exact ⟨bytes :: before, (stopsAfter_cons_iff D).mpr ⟨rfl, ⟨key, hbytes⟩, h⟩⟩
          · rintro ⟨before, h⟩
            cases before with
            | nil => simp [stopsAfter_nil_iff, hbytes] at h
            | cons b before => exact ⟨before, ((stopsAfter_cons_iff D).mp h).2.2⟩

/-- The keys that were inserted, or refused, before the import stopped. -/
theorem mem_decodedKeys_iff (h : StopsAfter D keys before) {x : Insertion K} :
    x ∈ decodedKeys D keys
      ↔ ∃ b ∈ before, ∃ key, PublicKey.fromBytes D b = .ok key ∧ x = .publicKey key := by
  induction before generalizing keys with
  | nil =>
      obtain ⟨stop, after, e, rfl, hstop, -⟩ := h
      simp [decodedKeys, hstop]
  | cons b before ih =>
      obtain ⟨stop, after, e, rfl, hstop, hbefore⟩ := h
      rw [List.forall_mem_cons] at hbefore
      obtain ⟨key, hkey⟩ := hbefore.1
      have hrest := ih ⟨stop, after, e, rfl, hstop, hbefore.2⟩
      rw [List.cons_append, decodedKeys, hkey, List.mem_cons, hrest]
      simp [hkey]

end KeyStore

/-! ### The store and its file -/

/-- A store with the name of the file it was loaded from. -/
structure LoadedKeyStore (K : Curves) extends KeyStore K where
  filename : Option String

/-- The calls that can change it. -/
inductive LoadedKeyStoreCall (K : Curves) where
  | insertPrivateKey (key : PrivateKeyShare K)
  | insertPublicKey (key : PublicKey K)
  | importPublicKeys (keys : List Bytes)
  | load (filename : String)

namespace LoadedKeyStore

/-- Only `load` writes the name of the file. -/
def keepName {ε α : Type} (self : LoadedKeyStore K) (called : Outcome ε α × KeyStore K) :
    Outcome ε α × LoadedKeyStore K :=
  (called.1, ⟨called.2, self.filename⟩)

section Functions

variable (R : Asn1Reader E) (self : LoadedKeyStore K)

def insertPrivateKey (key : PrivateKeyShare K) : Outcome KeyStoreError String × LoadedKeyStore K :=
  self.keepName (self.toKeyStore.insertPrivateKey R key)

def insertPublicKey (key : PublicKey K) : Outcome KeyStoreError String × LoadedKeyStore K :=
  self.keepName (self.toKeyStore.insertPublicKey R key)

end Functions

variable (files : String → Option String) (F : FileFormat) (D : Decoders E K)

section Functions

variable (self : LoadedKeyStore K)

def importPublicKeys (keys : List Bytes) : Outcome String Unit × LoadedKeyStore K :=
  self.keepName (self.toKeyStore.importPublicKeys D keys)

/-- `files` is what reading a file gives, if it can be read. -/
def load (filename : String) : Outcome Unit Unit × LoadedKeyStore K :=
  match self.toKeyStore.load F D (files filename) with
  | (.ok _, store) => (.ok (), ⟨store, some filename⟩)
  | failed => self.keepName failed

end Functions

/-- The call returns an error. -/
def Fails (self : LoadedKeyStore K) : LoadedKeyStoreCall K → Prop
  | .insertPrivateKey key => ∃ e, (self.insertPrivateKey D.asn1 key).1 = .err e
  | .insertPublicKey key => ∃ e, (self.insertPublicKey D.asn1 key).1 = .err e
  | .importPublicKeys keys => ∃ e, (self.importPublicKeys D keys).1 = .err e
  | .load filename => ∃ e, (self.load files F D filename).1 = .err e

/-- The store after the call. -/
def after (self : LoadedKeyStore K) : LoadedKeyStoreCall K → LoadedKeyStore K
  | .insertPrivateKey key => (self.insertPrivateKey D.asn1 key).2
  | .insertPublicKey key => (self.insertPublicKey D.asn1 key).2
  | .importPublicKeys keys => (self.importPublicKeys D keys).2
  | .load filename => (self.load files F D filename).2

/-- A key of the import is accepted before one that cannot be decoded. -/
def AcceptsBeforeStop (self : LoadedKeyStore K) : LoadedKeyStoreCall K → Prop
  | .importPublicKeys keys => ∃ before, KeyStore.StopsAfter D keys before
      ∧ ∃ b ∈ before, ∃ key, PublicKey.fromBytes D b = .ok key ∧ self.Accepts E (.publicKey key)
  | _ => False

variable {self : LoadedKeyStore K}

/-- A key that is refused leaves the store as it is. -/
theorem insert_unchanged (R : Asn1Reader E) {x : Insertion K} {e : KeyStoreError}
    (h : (self.toKeyStore.insert R x).1 = .err e) : (self.toKeyStore.insert R x).2 = self.toKeyStore := by
  by_cases haccepts : self.Accepts E x
  · rw [KeyStore.insert_of_accepts R haccepts] at h
    cases h
  · obtain ⟨e', heq⟩ := KeyStore.insert_of_not_accepts R haccepts
    rw [heq]

theorem load_unchanged {filename : String} {e : Unit} (h : (self.load files F D filename).1 = .err e) :
    (self.load files F D filename).2 = self := by
  revert h
  unfold load KeyStore.load
  cases files filename with
  | none => exact fun _ => rfl
  | some text =>
      dsimp only
      cases KeyStore.fromStr F D text with
      | ok store => exact fun h => by cases h
      | err e => exact fun _ => rfl
      | panic => exact fun h => by cases h

theorem importPublicKeys_unchanged_iff {keys before : List Bytes}
    (h : KeyStore.StopsAfter D keys before) :
    (self.importPublicKeys D keys).2 = self
      ↔ ∀ b ∈ before, ∀ key, PublicKey.fromBytes D b = .ok key → ¬ self.Accepts E (.publicKey key) := by
  have hstore : (self.importPublicKeys D keys).2 = self
      ↔ (self.toKeyStore.importPublicKeys D keys).2 = self.toKeyStore := by
    obtain ⟨store, filename⟩ := self
    simp [importPublicKeys, keepName]
  rw [hstore, KeyStore.importPublicKeys_eq, KeyStore.insertAll_eq_self_iff]
  simp only [KeyStore.mem_decodedKeys_iff D h]
  constructor
  · intro hrefused b hb key hkey
    exact hrefused _ ⟨b, hb, key, hkey, rfl⟩
  · rintro hrefused x ⟨b, hb, key, hkey, rfl⟩
    exact hrefused b hb key hkey

/-- A call that returns an error leaves the entries, their marks and the name of the file as they were,
unless it is an import which has inserted a key before one that cannot be decoded. -/
theorem error_leaves_unchanged_iff (self : LoadedKeyStore K) (call : LoadedKeyStoreCall K) :
    (self.Fails files F D call → self.after files F D call = self)
      ↔ ¬ self.AcceptsBeforeStop D call := by
  cases call with
  | insertPrivateKey key =>
      refine iff_of_true ?_ id
      rintro ⟨e, h⟩
      have hstore := insert_unchanged D.asn1 (x := .privateKey key) h
      exact congrArg (LoadedKeyStore.mk · self.filename) hstore
  | insertPublicKey key =>
      refine iff_of_true ?_ id
      rintro ⟨e, h⟩
      have hstore := insert_unchanged D.asn1 (x := .publicKey key) h
      exact congrArg (LoadedKeyStore.mk · self.filename) hstore
  | load filename =>
      refine iff_of_true ?_ id
      rintro ⟨e, h⟩
      exact load_unchanged files F D h
  | importPublicKeys keys =>
      have hfails : self.Fails files F D (.importPublicKeys keys)
          ↔ ∃ before, KeyStore.StopsAfter D keys before :=
        KeyStore.importPublicKeys_eq_err_iff D self.toKeyStore keys
      rw [hfails]
      constructor
      · rintro hunchanged ⟨before, hstops, b, hb, key, hkey, haccepts⟩
        exact (importPublicKeys_unchanged_iff D hstops).mp (hunchanged ⟨before, hstops⟩) b hb key hkey
          haccepts
      · rintro hrefused ⟨before, hstops⟩
        refine (importPublicKeys_unchanged_iff D hstops).mpr ?_
        intro b hb key hkey haccepts
        exact hrefused ⟨before, hstops, b, hb, key, hkey, haccepts⟩

/-- A key that the store has, and bytes that are no key: the import returns an error and changes
nothing. -/
theorem error_leaves_unchanged_iff_seven :
    let keys := [KeyStore.coinKeySeven.toBytes .base64, []]
    let store : LoadedKeyStore .seven := ⟨.mixedSeven, some "keys.json"⟩
    store.Fails (fun _ => none) (.seven []) Decoders.base64 (.importPublicKeys keys)
      ∧ store.after (fun _ => none) (.seven []) Decoders.base64 (.importPublicKeys keys) = store := by
  intro keys store
  have hkey : PublicKey.fromBytes Decoders.base64 (KeyStore.coinKeySeven.toBytes .base64)
      = .ok KeyStore.coinKeySeven :=
    PublicKey.fromBytes_toBytes Decoders.base64 KeyStore.wellFormed_coinKeySeven
  obtain ⟨e, hstop⟩ : ∃ e, PublicKey.fromBytes Decoders.base64 [] = .err e := ⟨_, rfl⟩
  have hkeys : KeyStore.decodedKeys Decoders.base64 keys = [.publicKey KeyStore.coinKeySeven] := by
    simp only [keys, KeyStore.decodedKeys, hkey, hstop]
  have hstops : KeyStore.StopsAfter Decoders.base64 keys [KeyStore.coinKeySeven.toBytes .base64] := by
    rw [KeyStore.stopsAfter_cons_iff]
    exact ⟨rfl, ⟨_, hkey⟩, (KeyStore.stopsAfter_nil_iff _).mpr ⟨e, hstop⟩⟩
  have hfails := (KeyStore.importPublicKeys_eq_err_iff Decoders.base64 store.toKeyStore keys).mpr
    ⟨_, hstops⟩
  refine ⟨hfails, (error_leaves_unchanged_iff _ _ _ store (.importPublicKeys keys)).mpr ?_ hfails⟩
  rintro ⟨before, hbefore, b, hb, key, hdecoded, haccepts⟩
  have hmem := (KeyStore.mem_decodedKeys_iff Decoders.base64 hbefore).mpr ⟨b, hb, key, hdecoded, rfl⟩
  rw [hkeys, List.mem_singleton] at hmem
  obtain rfl := Insertion.publicKey.inj hmem
  apply haccepts.2
  change _ ∈ KeyStore.mixedSeven.keyEntries
  rw [AList.mem_keys, AList.keys, KeyStore.entries_mixedSeven]
  exact List.mem_cons_self

/-- A key, and bytes that are no key: the import returns an error, and the first key stays. -/
theorem failed_import_not_undone :
    let keys := [(sg02ShareSeven 1).getPublicKey.toBytes .base64, []]
    let store : LoadedKeyStore .seven := ⟨.new, none⟩
    store.Fails (fun _ => none) (.seven []) Decoders.base64 (.importPublicKeys keys)
      ∧ store.after (fun _ => none) (.seven []) Decoders.base64 (.importPublicKeys keys) ≠ store := by
  intro keys store
  have hkey : PublicKey.fromBytes Decoders.base64 ((sg02ShareSeven 1).getPublicKey.toBytes .base64)
      = .ok (sg02ShareSeven 1).getPublicKey :=
    PublicKey.fromBytes_toBytes Decoders.base64 (KeyStore.wellFormed_sg02ShareSeven 1)
  have hstop : ∃ e, PublicKey.fromBytes Decoders.base64 [] = .err e := ⟨_, rfl⟩
  have hstops : KeyStore.StopsAfter Decoders.base64 keys
      [(sg02ShareSeven 1).getPublicKey.toBytes .base64] := by
    rw [KeyStore.stopsAfter_cons_iff]
    exact ⟨rfl, ⟨_, hkey⟩, (KeyStore.stopsAfter_nil_iff _).mpr hstop⟩
  have haccepts : store.Accepts .base64 (.publicKey (sg02ShareSeven 1).getPublicKey) :=
    KeyStore.accepts_publicKey_seven (AList.notMem_empty _)
  refine ⟨(KeyStore.importPublicKeys_eq_err_iff _ _ keys).mpr ⟨_, hstops⟩, ?_⟩
  intro hunchanged
  exact (importPublicKeys_unchanged_iff _ hstops).mp hunchanged _ (List.mem_singleton_self _) _ hkey
    haccepts

end LoadedKeyStore

end QuorumCrypt
