import QuorumCrypt.Base.Base64
import QuorumCrypt.Keys.Insertion

/-!
# The key file

`keys/key_store.rs`: `to_file` writes one record for each entry, in the order in which the map is read.
The record says whether there is a private share and has the encoded key, but not whether the entry is
the default one. Reading a file inserts the keys of the records into a new store, one after the other; a
record that cannot be decoded or inserted is skipped.
-/

namespace QuorumCrypt

open Rust

variable {E : Primitives} {K : Curves}

structure SerializedKeyEntry where
  id : String
  keyType : String
  group : String
  scheme : String
  operation : String
  key : String
  deriving DecidableEq

/-- The crates that turn records into text and text into records and bytes. -/
structure FileFormat where
  jsonToString : List SerializedKeyEntry → String
  jsonFromStr : String → Option (List SerializedKeyEntry)
  urlSafeDecode : String → Option Bytes

/-- An object of string fields, none of which needs an escape. -/
def jsonRecord (entry : SerializedKeyEntry) : String :=
  let fields := [("id", entry.id), ("key_type", entry.keyType), ("group", entry.group),
    ("scheme", entry.scheme), ("operation", entry.operation), ("key", entry.key)]
  "\x7b" ++ String.intercalate "," (fields.map fun f => "\"" ++ f.1 ++ "\":\"" ++ f.2 ++ "\"") ++ "\x7d"

def jsonRecords (entries : List SerializedKeyEntry) : String :=
  "[" ++ String.intercalate "," (entries.map jsonRecord) ++ "]"

/-- The format of key files, as far as these lists of records are concerned. -/
def FileFormat.seven (known : List (List SerializedKeyEntry)) : FileFormat where
  jsonToString := jsonRecords
  jsonFromStr text := known.find? fun entries => jsonRecords entries = text
  urlSafeDecode := Base64.decode

theorem FileFormat.jsonFromStr_seven (known : List (List SerializedKeyEntry)) (text : String) :
    (FileFormat.seven known).jsonFromStr text
      = known.find? fun entries => decide (jsonRecords entries = text) := rfl

def PublicKey.pem (E : Primitives) (key : PublicKey K) : String := E.base64UrlSafe (key.toBytes E)

def PrivateKeyShare.pem (E : Primitives) (key : PrivateKeyShare K) : String :=
  E.base64UrlSafe (key.toBytes E)

variable (F : FileFormat) (D : Decoders E K)

def PublicKey.fromPem (pem : String) : SchemeOutcome (PublicKey K) :=
  match F.urlSafeDecode pem with
  | some bytes => PublicKey.fromBytes D bytes
  | none => .err .deserializationFailed

def PrivateKeyShare.fromPem (pem : String) : SchemeOutcome (PrivateKeyShare K) :=
  match F.urlSafeDecode pem with
  | some bytes => PrivateKeyShare.fromBytes D bytes
  | none => .err .deserializationFailed

namespace KeyStore

/-! ### Writing -/

def serialize (E : Primitives) (id : String) (key : KeyEntry K) : SerializedKeyEntry where
  id := id
  keyType := if key.sk.isSome = true then "secret" else "public"
  group := key.pk.getGroup.asStrName
  scheme := key.pk.getScheme.asStrName
  operation := key.pk.getOperation.asStrName
  key := match key.sk with
    | some sk => sk.pem E
    | none => key.pk.pem E

def records (E : Primitives) (order : IterationOrder String (KeyEntry K)) (self : KeyStore K) :
    List SerializedKeyEntry :=
  (order.arrange self.keyEntries.entries).map fun e => serialize E e.1 e.2

/-- The text that is written to the file. -/
def toFile (E : Primitives) (order : IterationOrder String (KeyEntry K)) (self : KeyStore K) : String :=
  F.jsonToString (self.records E order)

/-! ### Reading -/

/-- The key of a record: a private share, or anything else. -/
def fromRecord (entry : SerializedKeyEntry) : SchemeOutcome (Insertion K) :=
  if entry.keyType = "secret" then .privateKey <$> PrivateKeyShare.fromPem F D entry.key
  else .publicKey <$> PublicKey.fromPem F D entry.key

/-- The loop of `From<Vec<SerializedKeyEntry>>`. -/
def insertRecords (self : KeyStore K) : List SerializedKeyEntry → Outcome Unit (KeyStore K)
  | [] => .ok self
  | entry :: rest =>
      match fromRecord F D entry with
      | .panic => .panic
      | .err _ => insertRecords self rest
      | .ok key =>
          match self.insert D.asn1 key with
          | (.panic, _) => .panic
          | (_, self) => insertRecords self rest

def fromStr (keyChainStr : String) : Outcome Unit (KeyStore K) :=
  match F.jsonFromStr keyChainStr with
  | none => .err ()
  | some records => insertRecords F D new records

/-- The file may be unreadable. Only the entries are replaced, and only after all of them were read. -/
def load (self : KeyStore K) (file : Option String) : Outcome Unit Unit × KeyStore K :=
  match file with
  | none => (.err (), self)
  | some text =>
      match fromStr F D text with
      | .ok store => (.ok (), store)
      | .err e => (.err e, self)
      | .panic => (.panic, self)

/-- The keys that a list of records comes to, when nothing panics. -/
def recordedKeys : List SerializedKeyEntry → Option (List (Insertion K))
  | [] => some []
  | entry :: rest =>
      match fromRecord F D entry with
      | .panic => none
      | .err _ => recordedKeys rest
      | .ok key => (recordedKeys rest).map (key :: ·)

/-- Reading records is a sequence of insertions. -/
theorem insertRecords_eq (self : KeyStore K) (records : List SerializedKeyEntry) :
    insertRecords F D self records
      = match recordedKeys F D records with
        | some keys => .ok (self.insertAll D.asn1 keys)
        | none => .panic := by
  induction records generalizing self with
  | nil => rfl
  | cons entry rest ih =>
      rw [insertRecords, recordedKeys]
      cases fromRecord F D entry with
      | panic => rfl
      | err e => exact ih self
      | ok key =>
          have hrest : (match self.insert D.asn1 key with
              | (.panic, _) => .panic
              | (_, self) => insertRecords F D self rest)
              = insertRecords F D (self.insert D.asn1 key).2 rest := by
            by_cases haccepts : self.Accepts E key
            · rw [insert_of_accepts D.asn1 haccepts]
            · obtain ⟨e, hinsert⟩ := insert_of_not_accepts D.asn1 haccepts
              rw [hinsert]
          refine hrest.trans ?_
          rw [ih]
          cases recordedKeys F D rest with
          | none => rfl
          | some keys => rfl

/-- The keys of a file that can be read. -/
def fileKeys (file : Option String) : Option (List (Insertion K)) :=
  (file.bind F.jsonFromStr).bind (recordedKeys F D)

theorem load_eq (self : KeyStore K) (file : Option String) :
    (self.load F D file).2
      = match fileKeys F D file with
        | some keys => new.insertAll D.asn1 keys
        | none => self := by
  cases file with
  | none => rfl
  | some text =>
      simp only [load, fileKeys, fromStr, Option.bind_some]
      cases F.jsonFromStr text with
      | none => rfl
      | some records =>
          simp only [Option.bind_some, insertRecords_eq]
          cases recordedKeys F D records with
          | none => rfl
          | some keys => rfl

end KeyStore

/-! ### Sequences of calls -/

/-- The calls that change a store. -/
inductive KeyStoreCall (K : Curves) where
  | update (update : KeyStoreUpdate K)
  | load (file : Option String)

namespace KeyStore

def call (self : KeyStore K) : KeyStoreCall K → KeyStore K
  | .update u => self.update D u
  | .load file => (self.load F D file).2

def runCalls (calls : List (KeyStoreCall K)) : KeyStore K := calls.foldl (call F D) new

/-- The keys inserted since the store was last loaded, if it was. -/
def historyStep (history : List (Insertion K)) : KeyStoreCall K → List (Insertion K)
  | .update u => history ++ insertions D u
  | .load file => (fileKeys F D file).getD history

def history (calls : List (KeyStoreCall K)) : List (Insertion K) :=
  calls.foldl (historyStep F D) []

theorem runCalls_eq (calls : List (KeyStoreCall K)) :
    runCalls F D calls = new.insertAll D.asn1 (history F D calls) := by
  induction calls using List.reverseRecOn with
  | nil => rfl
  | append_singleton calls call ih =>
      rw [runCalls, history, List.foldl_append, List.foldl_append]
      change KeyStore.call F D (runCalls F D calls) call
        = new.insertAll D.asn1 (historyStep F D (history F D calls) call)
      rw [ih]
      cases call with
      | update u =>
          rw [KeyStore.call, update_eq, historyStep, insertAll, insertAll, insertAll, List.foldl_append]
      | load file =>
          rw [KeyStore.call, load_eq, historyStep]
          cases fileKeys F D file with
          | none => rfl
          | some keys => rfl

end KeyStore

end QuorumCrypt
