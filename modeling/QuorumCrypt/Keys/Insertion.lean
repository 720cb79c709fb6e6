import QuorumCrypt.Keys.KeyStore
import QuorumCrypt.Schemes.RoundTrip

/-!
# Filling the key store

`keys/key_store.rs`: a key is inserted with or without its private share, and public keys are imported
as a list. A key whose id is not the hash of its encoding is refused, and so is one whose id is taken,
unless the entry has no private share yet and the new key has one.

Everything the three functions do to a store is a sequence of insertions of single keys, and an
accepted insertion changes the store in one way (`lookup_put`): there is a new entry under the id of the
key, and a private share takes the default mark away from the private shares of its operation.
-/

namespace QuorumCrypt

open Rust

variable {E : Primitives} {K : Curves}

def PublicKey.getOperation (key : PublicKey K) : ThresholdOperation := key.getScheme.getOperation

/-- What `key2id` returns. -/
def PublicKey.hashId (E : Primitives) (key : PublicKey K) : String := E.calcKeyId (key.innerBytes E)

theorem PrivateKeyShare.getKeyId_getPublicKey (key : PrivateKeyShare K) :
    key.getPublicKey.getKeyId = key.getKeyId := by
  cases key <;> rfl

namespace KeyEntry

def operation (entry : KeyEntry K) : ThresholdOperation := entry.pk.getOperation

/-- The filter of `insert_private_key`. -/
def isPrivateFor (operation : ThresholdOperation) (entry : KeyEntry K) : Bool :=
  entry.sk.any fun sk => sk.getScheme.getOperation = operation

end KeyEntry

namespace KeyStore

def new : KeyStore K := ⟨∅⟩

/-! ### Insertions -/

/-- The end of `insert_private_key`. Neither the other private shares of the operation nor, if there are
any, the new one is the default. -/
def putPrivateKey (self : KeyStore K) (keyId : String) (key : PrivateKeyShare K) : KeyStore K :=
  let operation := key.getScheme.getOperation
  let isDefault := !self.keyEntries.entries.any fun e => e.2.isPrivateFor operation
  let cleared := self.keyEntries.mapValues fun entry =>
    if entry.isPrivateFor operation then { entry with isDefault := false } else entry
  let entry := { id := keyId, isDefault, sk := some key, pk := key.getPublicKey }
  ⟨(cleared.erase keyId).insert keyId entry⟩

/-- The end of `insert_public_key`. The first key of an operation is the default. -/
def putPublicKey (self : KeyStore K) (keyId : String) (key : PublicKey K) : KeyStore K :=
  let isDefault := !self.keyEntries.entries.any fun e => e.2.operation = key.getOperation
  ⟨self.keyEntries.insert keyId { id := keyId, isDefault, sk := none, pk := key }⟩

section Insert

variable (R : Asn1Reader E)

/-- The result of the call, and the store after it. -/
def insertPrivateKey (self : KeyStore K) (key : PrivateKeyShare K) :
    Outcome KeyStoreError String × KeyStore K :=
  match key2id R key.getPublicKey with
  | .ok keyId =>
      if keyId ≠ key.getKeyId then (.err .idMismatch, self)
      else if self.keyEntries.entries.any fun e => e.1 = keyId ∧ e.2.sk.isSome = true then
        (.err (.duplicateEntry keyId), self)
      else (.ok keyId, self.putPrivateKey keyId key)
  | _ => (.panic, self)

def insertPublicKey (self : KeyStore K) (key : PublicKey K) :
    Outcome KeyStoreError String × KeyStore K :=
  match key2id R key with
  | .ok keyId =>
      if keyId ≠ key.getKeyId then (.err .idMismatch, self)
      else if self.keyEntries.entries.any fun e => e.1 = keyId then
        (.err (.duplicateEntry keyId), self)
      else (.ok keyId, self.putPublicKey keyId key)
  | _ => (.panic, self)

end Insert

section Import

variable (D : Decoders E K)

/-- A key that is refused is skipped; one that cannot be decoded ends the import, and the keys before it
stay. -/
def importPublicKeys (self : KeyStore K) : List Bytes → Outcome String Unit × KeyStore K
  | [] => (.ok (), self)
  | bytes :: rest =>
      match PublicKey.fromBytes D bytes with
      | .ok key =>
          match self.insertPublicKey D.asn1 key with
          | (.panic, self) => (.panic, self)
          | (_, self) => importPublicKeys self rest
      | .err e => (.err ("Error: " ++ e.toString), self)
      | .panic => (.panic, self)

end Import

end KeyStore

/-! ### Single keys -/

/-- A key that is inserted. -/
inductive Insertion (K : Curves) where
  | privateKey (key : PrivateKeyShare K)
  | publicKey (key : PublicKey K)

namespace Insertion

def pk : Insertion K → PublicKey K
  | privateKey key => key.getPublicKey
  | publicKey key => key

def sk : Insertion K → Option (PrivateKeyShare K)
  | privateKey key => some key
  | publicKey _ => none

def operation (x : Insertion K) : ThresholdOperation := x.pk.getOperation

def id (E : Primitives) (x : Insertion K) : String := x.pk.hashId E

/-- The entries that lose the default mark. -/
def clears : Insertion K → KeyEntry K → Bool
  | privateKey key, entry => entry.isPrivateFor key.getScheme.getOperation
  | publicKey _, _ => false

/-- The entries because of which the new one is not the default. -/
def precedes : Insertion K → KeyEntry K → Bool
  | privateKey key, entry => entry.isPrivateFor key.getScheme.getOperation
  | publicKey key, entry => entry.operation = key.getOperation

end Insertion

namespace KeyStore

variable (R : Asn1Reader E) {self : KeyStore K} {x : Insertion K}

def insert (self : KeyStore K) : Insertion K → Outcome KeyStoreError String × KeyStore K
  | .privateKey key => self.insertPrivateKey R key
  | .publicKey key => self.insertPublicKey R key

def put (E : Primitives) (self : KeyStore K) (x : Insertion K) : KeyStore K :=
  match x with
  | .privateKey key => self.putPrivateKey (x.id E) key
  | .publicKey key => self.putPublicKey (x.id E) key

/-- The entry under the id of the key leaves room for it. -/
def Vacant (self : KeyStore K) (id : String) : Insertion K → Prop
  | .privateKey _ => ∀ entry, self.keyEntries.lookup id = some entry → entry.sk = none
  | .publicKey _ => id ∉ self.keyEntries

/-- The condition under which a key is accepted. -/
structure Accepts (E : Primitives) (store : KeyStore K) (x : Insertion K) : Prop where
  id_eq : x.id E = x.pk.getKeyId
  vacant : store.Vacant (x.id E) x

theorem insertPrivateKey_eq (key : PrivateKeyShare K) :
    self.insertPrivateKey R key
      = if key.getPublicKey.hashId E ≠ key.getKeyId then (.err .idMismatch, self)
        else if self.keyEntries.entries.any fun e =>
          e.1 = key.getPublicKey.hashId E ∧ e.2.sk.isSome = true then
          (.err (.duplicateEntry (key.getPublicKey.hashId E)), self)
        else (.ok (key.getPublicKey.hashId E),
          self.putPrivateKey (key.getPublicKey.hashId E) key) := by
  rw [insertPrivateKey, PublicKey.key2id_eq_calcKeyId]
  rfl

theorem insertPublicKey_eq (key : PublicKey K) :
    self.insertPublicKey R key
      = if key.hashId E ≠ key.getKeyId then (.err .idMismatch, self)
        else if self.keyEntries.entries.any fun e => e.1 = key.hashId E then
          (.err (.duplicateEntry (key.hashId E)), self)
        else (.ok (key.hashId E), self.putPublicKey (key.hashId E) key) := by
  rw [insertPublicKey, PublicKey.key2id_eq_calcKeyId]
  rfl

/-- A private share is refused exactly when its id is taken by another private share. -/
theorem any_private_iff {id : String} :
    (self.keyEntries.entries.any fun e => e.1 = id ∧ e.2.sk.isSome = true) = true
      ↔ ∃ entry, self.keyEntries.lookup id = some entry ∧ entry.sk.isSome = true := by
  rw [HashMap.any_entries]
  simp only [Bool.decide_and, Bool.decide_eq_true, Bool.and_eq_true, decide_eq_true_eq]
  constructor
  · rintro ⟨id', entry, hlookup, rfl, hsk⟩
    exact ⟨entry, hlookup, hsk⟩
  · rintro ⟨entry, hlookup, hsk⟩
    exact ⟨id, entry, hlookup, rfl, hsk⟩

theorem any_id_iff {id : String} :
    (self.keyEntries.entries.any fun e => e.1 = id) = true ↔ id ∈ self.keyEntries := by
  rw [HashMap.any_entries, ← AList.lookup_isSome, Option.isSome_iff_exists]
  simp only [decide_eq_true_eq]
  constructor
  · rintro ⟨id', entry, hlookup, rfl⟩
    exact ⟨entry, hlookup⟩
  · rintro ⟨entry, hlookup⟩
    exact ⟨id, entry, hlookup, rfl⟩

/-- An accepted key is put into the store. -/
theorem insert_of_accepts (h : self.Accepts E x) : self.insert R x = (.ok (x.id E), self.put E x) := by
  obtain ⟨hid, hvacant⟩ := h
  cases x with
  | privateKey key =>
      have hkey : key.getPublicKey.hashId E = key.getKeyId :=
        hid.trans (PrivateKeyShare.getKeyId_getPublicKey key)
      have hany : ¬ (self.keyEntries.entries.any fun e =>
          e.1 = key.getPublicKey.hashId E ∧ e.2.sk.isSome = true) = true := by
        rw [any_private_iff]
        rintro ⟨entry, hlookup, hsk⟩
        rw [hvacant entry hlookup] at hsk
        cases hsk
      rw [insert, insertPrivateKey_eq, if_neg (not_not.mpr hkey), if_neg hany]
      rfl
  | publicKey key =>
      have hkey : key.hashId E = key.getKeyId := hid
      have hany : ¬ (self.keyEntries.entries.any fun e => e.1 = key.hashId E) = true := by
        rw [any_id_iff]
        exact hvacant
      rw [insert, insertPublicKey_eq, if_neg (not_not.mpr hkey), if_neg hany]
      rfl

/-- Any other key leaves the store as it is. -/
theorem insert_of_not_accepts (h : ¬ self.Accepts E x) :
    ∃ e, self.insert R x = (.err e, self) := by
  cases x with
  | privateKey key =>
      rw [insert, insertPrivateKey_eq]
      split
      · exact ⟨_, rfl⟩
      · rename_i hid
        split
        · exact ⟨_, rfl⟩
        · rename_i hany
          refine absurd ⟨?_, ?_⟩ h
          · exact (not_not.mp hid).trans (PrivateKeyShare.getKeyId_getPublicKey key).symm
          · intro entry hlookup
            by_contra hsk
            exact hany (any_private_iff.mpr ⟨entry, hlookup, Option.isSome_iff_ne_none.mpr hsk⟩)
  | publicKey key =>
      rw [insert, insertPublicKey_eq]
      split
      · exact ⟨_, rfl⟩
      · rename_i hid
        split
        · exact ⟨_, rfl⟩
        · rename_i hany
          refine absurd ⟨not_not.mp hid, ?_⟩ h
          rwa [any_id_iff] at hany

/-- The store after an insertion is the old one, or that with the key put into it. -/
theorem insert_cases (self : KeyStore K) (x : Insertion K) :
    (¬ self.Accepts E x ∧ (self.insert R x).2 = self)
      ∨ (self.Accepts E x ∧ (self.insert R x).2 = self.put E x) := by
  by_cases h : self.Accepts E x
  · exact .inr ⟨h, by rw [insert_of_accepts R h]⟩
  · obtain ⟨e, he⟩ := insert_of_not_accepts R h
    exact .inl ⟨h, by rw [he]⟩

/-! ### What an accepted key changes -/

/-- The entry of an accepted key. -/
def entryOf (E : Primitives) (self : KeyStore K) (x : Insertion K) : KeyEntry K :=
  { id := x.id E
    isDefault := !self.keyEntries.entries.any fun e => x.precedes e.2
    sk := x.sk
    pk := x.pk }

theorem lookup_put (self : KeyStore K) (x : Insertion K) (id : String) :
    (self.put E x).keyEntries.lookup id
      = if id = x.id E then some (self.entryOf E x)
        else (self.keyEntries.lookup id).map fun entry =>
          if x.clears entry then { entry with isDefault := false } else entry := by
  cases x with
  | privateKey key =>
      simp only [put, putPrivateKey]
      split
      · rename_i heq
        subst heq
        rw [AList.lookup_insert]
        rfl
      · rename_i hne
        rw [AList.lookup_insert_ne hne, AList.lookup_erase_ne hne, HashMap.lookup_mapValues]
        rfl
  | publicKey key =>
      simp only [put, putPublicKey]
      split
      · rename_i heq
        subst heq
        rw [AList.lookup_insert]
        rfl
      · rename_i hne
        rw [AList.lookup_insert_ne hne]
        simp [Insertion.clears]

/-- The new entry is the default when nothing precedes it. -/
theorem isDefault_entryOf :
    (self.entryOf E x).isDefault = true
      ↔ ∀ id entry, self.keyEntries.lookup id = some entry → x.precedes entry = false := by
  rw [entryOf, Bool.not_eq_true', Bool.eq_false_iff, Ne, HashMap.any_entries]
  simp only [not_exists, not_and, Bool.not_eq_true]

end KeyStore

/-! ### Sequences of calls -/

/-- The calls that fill a store. -/
inductive KeyStoreUpdate (K : Curves) where
  | insertPrivateKey (key : PrivateKeyShare K)
  | insertPublicKey (key : PublicKey K)
  | importPublicKeys (keys : List Bytes)

namespace KeyStore

section Runs

variable (D : Decoders E K)

def update (self : KeyStore K) : KeyStoreUpdate K → KeyStore K
  | .insertPrivateKey key => (self.insertPrivateKey D.asn1 key).2
  | .insertPublicKey key => (self.insertPublicKey D.asn1 key).2
  | .importPublicKeys keys => (self.importPublicKeys D keys).2

def run (updates : List (KeyStoreUpdate K)) : KeyStore K := updates.foldl (update D) new

/-- The keys that an import comes to. -/
def decodedKeys : List Bytes → List (Insertion K)
  | [] => []
  | bytes :: rest =>
      match PublicKey.fromBytes D bytes with
      | .ok key => .publicKey key :: decodedKeys rest
      | _ => []

/-- The keys that a call inserts, one after the other. -/
def insertions : KeyStoreUpdate K → List (Insertion K)
  | .insertPrivateKey key => [.privateKey key]
  | .insertPublicKey key => [.publicKey key]
  | .importPublicKeys keys => decodedKeys D keys

def insertAll (R : Asn1Reader E) (self : KeyStore K) (xs : List (Insertion K)) : KeyStore K :=
  xs.foldl (fun store x => (store.insert R x).2) self

/-- A key that is decoded is inserted, or refused, and the import goes on. -/
theorem importPublicKeys_cons {bytes : Bytes} {key : PublicKey K}
    (hkey : PublicKey.fromBytes D bytes = .ok key) (self : KeyStore K) (rest : List Bytes) :
    self.importPublicKeys D (bytes :: rest)
      = (self.insert D.asn1 (.publicKey key)).2.importPublicKeys D rest := by
  rw [importPublicKeys, hkey]
  by_cases haccepts : self.Accepts E (.publicKey key)
  · have hinsert := insert_of_accepts D.asn1 haccepts
    rw [insert] at hinsert
    simp only [insert, hinsert]
  · obtain ⟨e, hinsert⟩ := insert_of_not_accepts D.asn1 haccepts
    rw [insert] at hinsert
    simp only [insert, hinsert]

theorem importPublicKeys_eq (self : KeyStore K) (keys : List Bytes) :
    (self.importPublicKeys D keys).2 = self.insertAll D.asn1 (decodedKeys D keys) := by
  induction keys generalizing self with
  | nil => rfl
  | cons bytes rest ih =>
      rw [decodedKeys]
      cases hbytes : PublicKey.fromBytes D bytes with
      | err e => simp only [importPublicKeys, hbytes]; rfl
      | panic => simp only [importPublicKeys, hbytes]; rfl
      | ok key =>
          rw [importPublicKeys_cons D hbytes, ih]
          rfl

theorem update_eq (self : KeyStore K) (u : KeyStoreUpdate K) :
    self.update D u = self.insertAll D.asn1 (insertions D u) := by
  cases u with
  | insertPrivateKey key => rfl
  | insertPublicKey key => rfl
  | importPublicKeys keys => exact importPublicKeys_eq D self keys

theorem foldl_update_eq (self : KeyStore K) (updates : List (KeyStoreUpdate K)) :
    updates.foldl (update D) self = self.insertAll D.asn1 (updates.flatMap (insertions D)) := by
  induction updates generalizing self with
  | nil => rfl
  | cons u updates ih =>
      rw [List.foldl_cons, ih, update_eq, List.flatMap_cons, insertAll, insertAll, insertAll,
        List.foldl_append]

/-- A sequence of calls is a sequence of insertions. -/
theorem run_eq (updates : List (KeyStoreUpdate K)) :
    run D updates = new.insertAll D.asn1 (updates.flatMap (insertions D)) :=
  foldl_update_eq D new updates

theorem run_append (updates more : List (KeyStoreUpdate K)) :
    run D (updates ++ more) = (run D updates).insertAll D.asn1 (more.flatMap (insertions D)) := by
  rw [run, List.foldl_append]
  exact foldl_update_eq D (run D updates) more

end Runs

variable (R : Asn1Reader E)

/-- What every accepted key preserves holds after any insertions. -/
theorem insertAll_induction {P : KeyStore K → Prop} {self : KeyStore K} (hself : P self)
    (hput : ∀ store x, P store → store.Accepts E x → P (store.put E x)) (xs : List (Insertion K)) :
    P (self.insertAll R xs) := by
  induction xs generalizing self with
  | nil => exact hself
  | cons x xs ih =>
      apply ih
      change P (self.insert R x).2
      rcases insert_cases R self x with ⟨-, heq⟩ | ⟨haccepts, heq⟩
      · rw [heq]
        exact hself
      · rw [heq]
        exact hput self x hself haccepts

/-! ### What the entries are -/

/-- Every entry is filed under the id of its key, and a private share belongs to the public key. -/
structure Filed (E : Primitives) (id : String) (entry : KeyEntry K) : Prop where
  id_eq : entry.id = id
  hashId_eq : entry.pk.hashId E = id
  getKeyId_eq : entry.pk.getKeyId = id
  getPublicKey_eq : ∀ sk, entry.sk = some sk → sk.getPublicKey = entry.pk

def Sound (E : Primitives) (self : KeyStore K) : Prop :=
  ∀ id entry, self.keyEntries.lookup id = some entry → Filed E id entry

theorem sound_put {self : KeyStore K} {x : Insertion K} (hself : self.Sound E)
    (haccepts : self.Accepts E x) : (self.put E x).Sound E := by
  intro id entry hlookup
  rw [lookup_put] at hlookup
  split at hlookup
  · rename_i heq
    obtain rfl := Option.some.inj hlookup
    refine ⟨heq.symm, heq.symm, haccepts.id_eq.symm.trans heq.symm, ?_⟩
    intro sk hsk
    cases x with
    | privateKey key =>
        obtain rfl : key = sk := Option.some.inj hsk
        rfl
    | publicKey key => cases hsk
  · obtain ⟨old, hold, rfl⟩ := Option.map_eq_some_iff.mp hlookup
    have hfiled := hself id old hold
    split
    · exact ⟨hfiled.id_eq, hfiled.hashId_eq, hfiled.getKeyId_eq, hfiled.getPublicKey_eq⟩
    · exact hfiled

theorem sound_insertAll (xs : List (Insertion K)) : (new.insertAll R xs : KeyStore K).Sound E := by
  apply insertAll_induction
  · intro id entry hlookup
    cases hlookup
  · intro store x
    exact sound_put

theorem Filed.isPrivateFor_iff {id : String} {entry : KeyEntry K} (h : Filed E id entry)
    {operation : ThresholdOperation} :
    entry.isPrivateFor operation = true ↔ entry.sk.isSome = true ∧ entry.operation = operation := by
  rw [KeyEntry.isPrivateFor]
  cases hsk : entry.sk with
  | none => simp
  | some sk =>
      rw [KeyEntry.operation, PublicKey.getOperation, ← h.getPublicKey_eq sk hsk,
        PrivateKeyShare.getScheme_getPublicKey]
      simp

/-! ### What stays -/

/-- An entry keeps its key and its private share; one without a private share may get one with the
same id. -/
def Evolves (id : String) (entry later : KeyEntry K) : Prop :=
  (later.pk = entry.pk ∧ later.sk = entry.sk)
    ∨ (entry.sk = none ∧ ∃ sk, later.sk = some sk ∧ later.pk = sk.getPublicKey ∧ sk.getKeyId = id)

def Grows (self later : KeyStore K) : Prop :=
  ∀ id entry, self.keyEntries.lookup id = some entry →
    ∃ entry', later.keyEntries.lookup id = some entry' ∧ Evolves id entry entry'

theorem Grows.refl (self : KeyStore K) : Grows self self :=
  fun _ entry hlookup => ⟨entry, hlookup, .inl ⟨rfl, rfl⟩⟩

theorem Grows.trans {self later last : KeyStore K} (h : Grows self later) (h' : Grows later last) :
    Grows self last := by
  intro id entry hlookup
  obtain ⟨entry', hlookup', hevolves⟩ := h id entry hlookup
  obtain ⟨entry'', hlookup'', hevolves'⟩ := h' id entry' hlookup'
  refine ⟨entry'', hlookup'', ?_⟩
  rcases hevolves with ⟨hpk, hsk⟩ | ⟨hnone, sk, hsk, hpk, hid⟩
  · rcases hevolves' with ⟨hpk', hsk'⟩ | ⟨hnone', hupgrade⟩
    · exact .inl ⟨hpk'.trans hpk, hsk'.trans hsk⟩
    · exact .inr ⟨hsk.symm.trans hnone', hupgrade⟩
  · rcases hevolves' with ⟨hpk', hsk'⟩ | ⟨hnone', -⟩
    · exact .inr ⟨hnone, sk, hsk'.trans hsk, hpk'.trans hpk, hid⟩
    · rw [hsk] at hnone'
      cases hnone'

theorem grows_put {self : KeyStore K} {x : Insertion K} (haccepts : self.Accepts E x) :
    Grows self (self.put E x) := by
  intro id entry hlookup
  rw [lookup_put]
  split
  · rename_i heq
    refine ⟨_, rfl, .inr ?_⟩
    have hvacant := haccepts.vacant
    rw [← heq] at hvacant
    cases x with
    | privateKey key =>
        refine ⟨hvacant entry hlookup, key, rfl, rfl, ?_⟩
        rw [heq, haccepts.id_eq]
        exact (PrivateKeyShare.getKeyId_getPublicKey key).symm
    | publicKey key => exact absurd (HashMap.mem_of_lookup hlookup) hvacant
  · rw [hlookup, Option.map_some]
    refine ⟨_, rfl, .inl ?_⟩
    split
    · exact ⟨rfl, rfl⟩
    · exact ⟨rfl, rfl⟩

theorem grows_insertAll (self : KeyStore K) (xs : List (Insertion K)) :
    Grows self (self.insertAll R xs) :=
  insertAll_induction R (Grows.refl self) (fun _ _ h haccepts => h.trans (grows_put haccepts)) xs

/-- Whatever is inserted and imported, in whatever order and with whatever failures: every entry is
filed under the id of its key and a private share belongs to the public key; no id disappears, a
private share is never replaced or removed, and an entry without one can only get one with its own id;
and a second private share for an id is refused. -/
theorem entries_filed_and_kept (D : Decoders E K) (updates more : List (KeyStoreUpdate K)) :
    (∀ s entry, (run D updates).keyEntries.lookup s = some entry →
      entry.id = s ∧ key2id D.asn1 entry.pk = .ok s ∧ entry.pk.getKeyId = s
        ∧ ∀ sk, entry.sk = some sk → sk.getPublicKey = entry.pk)
    ∧ (∀ s entry, (run D updates).keyEntries.lookup s = some entry →
      ∃ later, (run D (updates ++ more)).keyEntries.lookup s = some later
        ∧ (∀ sk, entry.sk = some sk → later.sk = some sk ∧ later.pk = entry.pk)
        ∧ (entry.sk = none → (later.sk = none ∧ later.pk = entry.pk)
          ∨ ∃ sk, later.sk = some sk ∧ later.pk = sk.getPublicKey ∧ sk.getKeyId = s))
    ∧ ∀ s entry key, (run D updates).keyEntries.lookup s = some entry → entry.sk.isSome = true →
      key2id D.asn1 key.getPublicKey = .ok s → key.getKeyId = s →
      (run D updates).insertPrivateKey D.asn1 key = (.err (.duplicateEntry s), run D updates) := by
  refine ⟨?_, ?_, ?_⟩
  · intro s entry hlookup
    rw [run_eq] at hlookup
    have hfiled := sound_insertAll D.asn1 _ s entry hlookup
    refine ⟨hfiled.id_eq, ?_, hfiled.getKeyId_eq, hfiled.getPublicKey_eq⟩
    rw [PublicKey.key2id_eq_calcKeyId]
    exact congrArg Outcome.ok hfiled.hashId_eq
  · intro s entry hlookup
    rw [run_append]
    obtain ⟨later, hlater, hevolves⟩ :=
      grows_insertAll D.asn1 (run D updates) (more.flatMap (insertions D)) s entry hlookup
    refine ⟨later, hlater, ?_, ?_⟩
    · intro sk hsk
      rcases hevolves with ⟨hpk', hsk'⟩ | ⟨hnone, -⟩
      · exact ⟨hsk'.trans hsk, hpk'⟩
      · rw [hsk] at hnone
        cases hnone
    · intro hnone
      rcases hevolves with ⟨hpk', hsk'⟩ | ⟨-, hupgrade⟩
      · exact .inl ⟨hsk'.trans hnone, hpk'⟩
      · exact .inr hupgrade
  · intro s entry key hlookup hsk hid hkeyId
    rw [PublicKey.key2id_eq_calcKeyId, Outcome.ok.injEq] at hid
    have hhash : key.getPublicKey.hashId E = s := hid
    rw [insertPrivateKey_eq, hhash, if_neg (not_not.mpr hkeyId.symm),
      if_pos (any_private_iff.mpr ⟨entry, hlookup, hsk⟩)]

end KeyStore

end QuorumCrypt
