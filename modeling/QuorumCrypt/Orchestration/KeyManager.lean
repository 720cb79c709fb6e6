import QuorumCrypt.Base.Queue
import QuorumCrypt.Keys.Insertion
import QuorumCrypt.Orchestration.InstanceManager
import Mathlib.Data.Multiset.AddSub

/-!
# The key manager

`key_manager.rs`: the task that owns the key store of a node and its FROST precomputations. A batch of
precomputations goes in front of those that are there already, and the last one of all is taken, so the
precomputations of a key are a queue that is kept back to front.

The nodes of a network make their precomputations together, and have to take them in the same order: the
signing round combines commitments that belong together. Here is why they do, and that the task answers
every client with what is its own.
-/

namespace QuorumCrypt

open Rust

variable {K : Curves}

structure PublicKeyEntry where
  id : String
  operation : ThresholdOperation
  scheme : ThresholdScheme
  group : Group
  key : Bytes

def KeyStore.listPublicKeys (E : Primitives) (order : IterationOrder String (KeyEntry K))
    (store : KeyStore K) : List PublicKeyEntry :=
  (store.keyEntries.values order).map fun entry =>
    { id := entry.id
      operation := entry.pk.getOperation
      scheme := entry.pk.getScheme
      group := entry.pk.getGroup
      key := entry.pk.toBytes E }

structure KeyManager (K : Curves) where
  keystore : KeyStore K
  frostPrecomputes : HashMap String (List (FrostPrecomputation K))

inductive KeyManagerCommand (K : Curves) where
  | listAvailableKeys (responder : Responder)
  | getKeyById (id : String) (responder : Responder)
  | getKeyBySchemeAndGroup (scheme : ThresholdScheme) (group : Group) (responder : Responder)
  | popFrostPrecomputation (keyId : String) (responder : Responder)
  | pushFrostPrecomputations (keyId : String) (precomputations : List (FrostPrecomputation K))

inductive KeyManagerAnswer (K : Curves) where
  | keys (entries : List PublicKeyEntry)
  | key (result : Except String (KeyEntry K))
  | precomputation (result : Option (FrostPrecomputation K))

namespace KeyManager

/-- The store is the one that was loaded from the file. -/
def new (keystore : KeyStore K) : KeyManager K := { keystore, frostPrecomputes := ∅ }

def appendPrecomputations (self : KeyManager K) (keyId : String)
    (precomputations : List (FrostPrecomputation K)) : KeyManager K :=
  match self.frostPrecomputes.lookup keyId with
  | none => { self with frostPrecomputes := self.frostPrecomputes.insert keyId precomputations }
  | some current =>
      { self with frostPrecomputes := self.frostPrecomputes.insert keyId (precomputations ++ current) }

def popPrecomputation (self : KeyManager K) (keyId : String) :
    Option (FrostPrecomputation K) × KeyManager K :=
  match self.frostPrecomputes.lookup keyId with
  | none => (none, self)
  | some vec =>
      (vec.getLast?,
        { self with frostPrecomputes := self.frostPrecomputes.insert keyId vec.dropLast })

/-- The client that asked must still be waiting. -/
def send (responder : Responder) (answer : KeyManagerAnswer K) :
    Outcome String (List (Responder × KeyManagerAnswer K)) :=
  if responder.isClosed then .panic else .ok [(responder, answer)]

variable (E : Primitives) (order : IterationOrder String (KeyEntry K))

/-- One turn of the loop of `run`. -/
def handle (self : KeyManager K) :
    KeyManagerCommand K → Outcome String (List (Responder × KeyManagerAnswer K) × KeyManager K)
  | .listAvailableKeys responder => do
      let sent ← send responder (.keys (self.keystore.listPublicKeys E order))
      .ok (sent, self)
  | .getKeyById id responder => do
      let sent ← send responder
        (.key ((self.keystore.getKeyById id).mapError KeyStoreError.toString))
      .ok (sent, self)
  | .getKeyBySchemeAndGroup scheme group responder => do
      let sent ← send responder (.key (self.keystore.getKeyBySchemeAndGroup order scheme group))
      .ok (sent, self)
  | .popFrostPrecomputation keyId responder => do
      let (result, self) := self.popPrecomputation keyId
      let sent ← send responder (.precomputation result)
      .ok (sent, self)
  | .pushFrostPrecomputations keyId precomputations =>
      .ok ([], self.appendPrecomputations keyId precomputations)

/-- The loop over the commands that arrive. -/
def run (self : KeyManager K) :
    List (KeyManagerCommand K) → Outcome String (List (Responder × KeyManagerAnswer K) × KeyManager K)
  | [] => .ok ([], self)
  | command :: commands => do
      let (sent, self) ← self.handle E order command
      let (rest, self) ← self.run commands
      .ok (sent ++ rest, self)

end KeyManager

/-! ### Calls on the precomputations -/

inductive PoolCall (K : Curves) where
  | append (keyId : String) (precomputations : List (FrostPrecomputation K))
  | pop (keyId : String)

namespace PoolCall

def keyId : PoolCall K → String
  | append keyId _ => keyId
  | pop keyId => keyId

def batch? (keyId : String) : PoolCall K → Option (List (FrostPrecomputation K))
  | append id precomputations => if id = keyId then some precomputations else none
  | pop _ => none

def isPopOf (keyId : String) : PoolCall K → Bool
  | append _ _ => false
  | pop id => id = keyId

/-- What the call does to the queue of a key. -/
def queueCall? (keyId : String) : PoolCall K → Option (Fifo.Call (FrostPrecomputation K))
  | append id precomputations => if id = keyId then some (.push precomputations.reverse) else none
  | pop id => if id = keyId then some .pop else none

/-! A call for another key is nothing to a key. -/

theorem batch?_of_ne {keyId : String} {call : PoolCall K} (h : call.keyId ≠ keyId) :
    call.batch? keyId = none := by
  cases call with
  | append id precomputations => exact if_neg h
  | pop id => rfl

theorem isPopOf_of_ne {keyId : String} {call : PoolCall K} (h : call.keyId ≠ keyId) :
    ¬ call.isPopOf keyId = true := by
  cases call with
  | append id precomputations => exact Bool.false_ne_true
  | pop id => exact fun hpop => h (of_decide_eq_true hpop)

theorem queueCall?_of_ne {keyId : String} {call : PoolCall K} (h : call.keyId ≠ keyId) :
    call.queueCall? keyId = none := by
  cases call with
  | append id precomputations => exact if_neg h
  | pop id => exact if_neg h

theorem queueCall?_append (id : String) (precomputations : List (FrostPrecomputation K)) :
    (append id precomputations).queueCall? id = some (.push precomputations.reverse) := if_pos rfl

theorem queueCall?_pop (id : String) :
    (pop id : PoolCall K).queueCall? id = some .pop := if_pos rfl

end PoolCall

/-- The batches that were appended under a key id, the oldest first. -/
def batchesOf (keyId : String) (calls : List (PoolCall K)) : List (List (FrostPrecomputation K)) :=
  calls.filterMap (PoolCall.batch? keyId)

def popsOf (keyId : String) (calls : List (PoolCall K)) : ℕ := calls.countP (PoolCall.isPopOf keyId)

namespace KeyManager

variable (self : KeyManager K) (keyId : String)

def stored : List (FrostPrecomputation K) := (self.frostPrecomputes.lookup keyId).getD []

/-- What the pops return, each with its key id, and the key manager after the calls. -/
def perform (self : KeyManager K) :
    List (PoolCall K) → List (String × Option (FrostPrecomputation K)) × KeyManager K
  | [] => ([], self)
  | .append keyId precomputations :: calls =>
      (self.appendPrecomputations keyId precomputations).perform calls
  | .pop keyId :: calls =>
      let (result, self) := self.popPrecomputation keyId
      let (results, self) := self.perform calls
      ((keyId, result) :: results, self)

def after (calls : List (PoolCall K)) : KeyManager K := (self.perform calls).2

/-- What the pops of a key return, in their order. -/
def results (calls : List (PoolCall K)) : List (Option (FrostPrecomputation K)) :=
  (self.perform calls).1.filterMap fun r => if r.1 = keyId then some r.2 else none

/-- Every pop of the key finds something. -/
def PopsServed (calls : List (PoolCall K)) : Prop :=
  ∀ before rest, calls = before ++ .pop keyId :: rest → (self.after before).stored keyId ≠ []

/-! ### One call -/

variable {self keyId}

theorem stored_of_lookup_none (h : self.frostPrecomputes.lookup keyId = none) :
    self.stored keyId = [] := by
  rw [stored, h, Option.getD_none]

theorem stored_of_lookup_some {vec : List (FrostPrecomputation K)}
    (h : self.frostPrecomputes.lookup keyId = some vec) : self.stored keyId = vec := by
  rw [stored, h, Option.getD_some]

theorem stored_insert (id : String) (vec : List (FrostPrecomputation K)) :
    KeyManager.stored { self with frostPrecomputes := self.frostPrecomputes.insert id vec } keyId
      = if id = keyId then vec else self.stored keyId := by
  by_cases hid : id = keyId
  · subst hid
    rw [if_pos rfl, stored_of_lookup_some (AList.lookup_insert _)]
  · rw [if_neg hid, stored, AList.lookup_insert_ne (Ne.symm hid), stored]

theorem stored_appendPrecomputations (id : String) (precomputations : List (FrostPrecomputation K)) :
    (self.appendPrecomputations id precomputations).stored keyId
      = if id = keyId then precomputations ++ self.stored keyId else self.stored keyId := by
  unfold appendPrecomputations
  cases hlookup : self.frostPrecomputes.lookup id with
  | none =>
      dsimp only
      rw [stored_insert]
      refine ite_congr rfl (fun hid => ?_) fun _ => rfl
      rw [← hid, stored_of_lookup_none hlookup, List.append_nil]
  | some current =>
      dsimp only
      rw [stored_insert]
      refine ite_congr rfl (fun hid => ?_) fun _ => rfl
      rw [← hid, stored_of_lookup_some hlookup]

theorem popPrecomputation_fst : (self.popPrecomputation keyId).1 = (self.stored keyId).getLast? := by
  unfold popPrecomputation stored
  cases self.frostPrecomputes.lookup keyId with
  | none => rfl
  | some vec => rfl

theorem stored_popPrecomputation (id : String) :
    (self.popPrecomputation id).2.stored keyId
      = if id = keyId then (self.stored keyId).dropLast else self.stored keyId := by
  unfold popPrecomputation
  cases hlookup : self.frostPrecomputes.lookup id with
  | none =>
      dsimp only
      split
      · next hid => rw [← hid, stored_of_lookup_none hlookup, List.dropLast_nil]
      · rfl
  | some vec =>
      dsimp only
      rw [stored_insert]
      refine ite_congr rfl (fun hid => ?_) fun _ => rfl
      rw [← hid, stored_of_lookup_some hlookup]

/-! ### The precomputations of a key are a queue -/

theorem results_pop (id : String) (calls : List (PoolCall K)) :
    self.results keyId (.pop id :: calls)
      = if id = keyId then
          (self.stored keyId).getLast? :: (self.popPrecomputation id).2.results keyId calls
        else (self.popPrecomputation id).2.results keyId calls := by
  by_cases hid : id = keyId
  · subst hid
    rw [if_pos rfl, results, perform, List.filterMap_cons_some (by exact if_pos rfl),
      popPrecomputation_fst, results]
  · rw [if_neg hid, results, perform, List.filterMap_cons_none (by exact if_neg hid), results]

/-- Kept back to front, the precomputations of a key are a queue, and the calls for other keys do not
reach it. -/
theorem run_queueCalls (self : KeyManager K) (keyId : String) (calls : List (PoolCall K)) :
    Fifo.run (self.stored keyId).reverse (calls.filterMap (PoolCall.queueCall? keyId))
      = (self.results keyId calls, ((self.after calls).stored keyId).reverse) := by
  induction calls generalizing self with
  | nil => rfl
  | cons call calls ih =>
      cases call with
      | append id precomputations =>
          have hnext := ih (self.appendPrecomputations id precomputations)
          rw [stored_appendPrecomputations] at hnext
          by_cases hid : id = keyId
          · subst hid
            rw [if_pos rfl, List.reverse_append] at hnext
            rw [List.filterMap_cons_some (PoolCall.queueCall?_append id precomputations), Fifo.run]
            exact hnext
          · have hother : (PoolCall.append id precomputations).queueCall? keyId = none :=
              PoolCall.queueCall?_of_ne hid
            rw [if_neg hid] at hnext
            rw [List.filterMap_cons_none hother]
            exact hnext
      | pop id =>
          have hnext := ih (self.popPrecomputation id).2
          rw [stored_popPrecomputation] at hnext
          rw [results_pop]
          by_cases hid : id = keyId
          · subst hid
            rw [if_pos rfl, ← List.tail_reverse] at hnext
            rw [if_pos rfl, List.filterMap_cons_some (PoolCall.queueCall?_pop id), Fifo.run, hnext,
              List.head?_reverse]
            rfl
          · have hother : (PoolCall.pop id : PoolCall K).queueCall? keyId = none :=
              PoolCall.queueCall?_of_ne hid
            rw [if_neg hid] at hnext
            rw [if_neg hid, List.filterMap_cons_none hother]
            exact hnext

/-- What is put into the queue: the batches one after the other, each from its last element. -/
theorem pushed_queueCalls (keyId : String) (calls : List (PoolCall K)) :
    Fifo.pushed (calls.filterMap (PoolCall.queueCall? keyId))
      = (batchesOf keyId calls).flatMap List.reverse := by
  induction calls with
  | nil => rfl
  | cons call calls ih =>
      by_cases hid : call.keyId = keyId
      · cases call with
        | append id precomputations =>
            obtain rfl : id = keyId := hid
            have hbatch : (PoolCall.append id precomputations).batch? id = some precomputations :=
              if_pos rfl
            rw [List.filterMap_cons_some (PoolCall.queueCall?_append id precomputations), Fifo.pushed,
              ih, batchesOf, batchesOf, List.filterMap_cons_some hbatch, List.flatMap_cons]
        | pop id =>
            obtain rfl : id = keyId := hid
            rw [List.filterMap_cons_some (PoolCall.queueCall?_pop id), Fifo.pushed, ih]
            rfl
      · rw [List.filterMap_cons_none (PoolCall.queueCall?_of_ne hid), ih, batchesOf, batchesOf,
          List.filterMap_cons_none (PoolCall.batch?_of_ne hid)]

theorem pops_queueCalls (keyId : String) (calls : List (PoolCall K)) :
    Fifo.pops (calls.filterMap (PoolCall.queueCall? keyId)) = popsOf keyId calls := by
  induction calls with
  | nil => rfl
  | cons call calls ih =>
      by_cases hid : call.keyId = keyId
      · cases call with
        | append id precomputations =>
            obtain rfl : id = keyId := hid
            rw [List.filterMap_cons_some (PoolCall.queueCall?_append id precomputations), Fifo.pops, ih]
            exact (List.countP_cons_of_neg Bool.false_ne_true).symm
        | pop id =>
            obtain rfl : id = keyId := hid
            have hpop : (PoolCall.pop id : PoolCall K).isPopOf id = true := decide_eq_true rfl
            rw [List.filterMap_cons_some (PoolCall.queueCall?_pop id), Fifo.pops, ih, popsOf, popsOf,
              List.countP_cons_of_pos hpop]
      · rw [List.filterMap_cons_none (PoolCall.queueCall?_of_ne hid), ih, popsOf, popsOf,
          List.countP_cons_of_neg (PoolCall.isPopOf_of_ne hid)]

/-- The calls for other keys can be left out. -/
theorem queueCalls_filter (keyId : String) (calls : List (PoolCall K)) :
    (calls.filter fun call => call.keyId = keyId).filterMap (PoolCall.queueCall? keyId)
      = calls.filterMap (PoolCall.queueCall? keyId) := by
  rw [List.filterMap_filter]
  refine List.filterMap_congr fun call _ => ?_
  by_cases hid : call.keyId = keyId
  · rw [if_pos (decide_eq_true hid)]
  · rw [if_neg (by simpa using hid), PoolCall.queueCall?_of_ne hid]

theorem after_cons (call : PoolCall K) (calls : List (PoolCall K)) :
    self.after (call :: calls) = (self.after [call]).after calls := by
  cases call with
  | append id precomputations => rfl
  | pop id => rfl

theorem popsServed_cons {call : PoolCall K} {calls : List (PoolCall K)} :
    self.PopsServed keyId (call :: calls)
      ↔ (call = .pop keyId → self.stored keyId ≠ []) ∧ (self.after [call]).PopsServed keyId calls := by
  constructor
  · intro h
    refine ⟨?_, ?_⟩
    · rintro rfl
      exact h [] calls rfl
    · intro before rest hcalls
      rw [← after_cons]
      exact h (call :: before) rest (congrArg (call :: ·) hcalls)
  · rintro ⟨hfirst, hrest⟩ before rest hcalls
    cases before with
    | nil =>
        obtain ⟨rfl, rfl⟩ := List.cons.inj hcalls
        exact hfirst rfl
    | cons first before =>
        obtain ⟨rfl, htail⟩ := List.cons.inj hcalls
        rw [after_cons]
        exact hrest before rest htail

/-- The pops of a key find something exactly when they all return something. -/
theorem popsServed_iff {calls : List (PoolCall K)} :
    self.PopsServed keyId calls ↔ none ∉ self.results keyId calls := by
  induction calls generalizing self with
  | nil => simp [PopsServed, results, perform]
  | cons call calls ih =>
      rw [popsServed_cons, ih]
      cases call with
      | append id precomputations => exact and_iff_right (fun h => by cases h)
      | pop id =>
          rw [results_pop]
          by_cases hid : id = keyId
          · subst hid
            have hnone : none = (self.stored id).getLast? ↔ self.stored id = [] := by
              rw [eq_comm, List.getLast?_eq_none_iff]
            rw [if_pos rfl, List.mem_cons, not_or, hnone]
            exact and_congr_left' (forall_prop_of_true rfl)
          · rw [if_neg hid]
            exact and_iff_right fun h => absurd (PoolCall.pop.inj h) hid

theorem popsServed_of_all_isSome {calls : List (PoolCall K)}
    (h : (self.results keyId calls).all Option.isSome = true) : self.PopsServed keyId calls := by
  rw [popsServed_iff]
  intro hnone
  exact Bool.false_ne_true (List.all_eq_true.mp h none hnone)

/-! ### The order of the pops -/

/-- The positions in one batch, from its last element. -/
def positionsIn (length batch : ℕ) : List (ℕ × ℕ) :=
  (List.range length).reverse.map fun i => (batch, i)

/-- The positions in batches of the given lengths, the oldest batch first. -/
def popOrder (lengths : List ℕ) : List (ℕ × ℕ) :=
  lengths.zipIdx.flatMap fun entry => positionsIn entry.1 entry.2

/-- The precomputation at a position. -/
def read (batches : List (List (FrostPrecomputation K))) (position : ℕ × ℕ) :
    Option (FrostPrecomputation K) :=
  batches[position.1]?.bind fun batch => batch[position.2]?

theorem map_read_positionsIn (before : List (List (FrostPrecomputation K)))
    (batch : List (FrostPrecomputation K)) (rest : List (List (FrostPrecomputation K))) :
    (positionsIn batch.length before.length).map (read (before ++ batch :: rest))
      = batch.reverse.map some := by
  have hbatch : (before ++ batch :: rest)[before.length]? = some batch := by
    rw [List.getElem?_append_right le_rfl, Nat.sub_self, List.getElem?_cons_zero]
  have hrange : (List.range batch.length).map (fun i => batch[i]?) = batch.map some := by
    apply List.ext_getElem?
    intro i
    by_cases hi : i < batch.length
    · simp [hi]
    · simp [hi]
  rw [List.map_reverse, ← hrange, ← List.map_reverse, positionsIn, List.map_map]
  refine List.map_congr_left fun i _ => ?_
  change (before ++ batch :: rest)[before.length]?.bind (fun batch => batch[i]?) = batch[i]?
  rw [hbatch, Option.bind_some]

theorem map_read_zipIdx (before batches : List (List (FrostPrecomputation K))) :
    (((batches.map List.length).zipIdx before.length).flatMap fun entry =>
        positionsIn entry.1 entry.2).map (read (before ++ batches))
      = (batches.flatMap List.reverse).map some := by
  induction batches generalizing before with
  | nil => rfl
  | cons batch batches ih =>
      have hrest := ih (before ++ [batch])
      rw [List.length_append, List.length_singleton, List.append_assoc, List.singleton_append] at hrest
      rw [List.map_cons, List.zipIdx_cons, List.flatMap_cons, List.map_append, map_read_positionsIn,
        hrest, List.flatMap_cons, List.map_append]

theorem map_read_popOrder (batches : List (List (FrostPrecomputation K))) :
    (popOrder (batches.map List.length)).map (read batches)
      = (batches.flatMap List.reverse).map some := map_read_zipIdx [] batches

example : popOrder [2, 0, 1] = [(0, 1), (0, 0), (2, 0)] := by decide

/-- When every pop finds something, the pops of a key return the precomputations at the first positions
in the order of the pops. -/
theorem results_eq_map_read {keystore : KeyStore K} {calls : List (PoolCall K)}
    (hserved : (new keystore).PopsServed keyId calls) :
    (new keystore).results keyId calls
      = ((popOrder ((batchesOf keyId calls).map List.length)).take (popsOf keyId calls)).map
          (read (batchesOf keyId calls)) := by
  have hrun := run_queueCalls (new keystore) keyId calls
  have hreturned : (Fifo.run [] (calls.filterMap (PoolCall.queueCall? keyId))).1
      = (new keystore).results keyId calls := congrArg Prod.fst hrun
  rw [popsServed_iff, ← hreturned] at hserved
  rw [← hreturned, Fifo.returned_eq_take hserved, List.nil_append, pushed_queueCalls, pops_queueCalls,
    List.map_take, List.map_take, map_read_popOrder]

/-! ### What the calls do to the precomputations of a key -/

/-- What was there and what was appended is what the pops returned and what is still there. -/
theorem stored_append_batches_perm (self : KeyManager K) (keyId : String) (calls : List (PoolCall K)) :
    (self.stored keyId ++ (batchesOf keyId calls).flatten).Perm
      ((self.results keyId calls).reduceOption ++ (self.after calls).stored keyId) := by
  have hqueue := Fifo.returned_append_left (self.stored keyId).reverse
    (calls.filterMap (PoolCall.queueCall? keyId))
  rw [run_queueCalls, pushed_queueCalls] at hqueue
  have hbatches : ((batchesOf keyId calls).flatMap List.reverse).Perm (batchesOf keyId calls).flatten := by
    rw [← List.flatMap_id]
    exact List.Perm.flatMap_left _ fun batch _ => batch.reverse_perm
  have hbefore : (self.stored keyId ++ (batchesOf keyId calls).flatten).Perm
      ((self.stored keyId).reverse ++ (batchesOf keyId calls).flatMap List.reverse) :=
    (List.reverse_perm _).symm.append hbatches.symm
  have hafter : ((self.results keyId calls).reduceOption ++ ((self.after calls).stored keyId).reverse).Perm
      ((self.results keyId calls).reduceOption ++ (self.after calls).stored keyId) :=
    (List.reverse_perm _).append_left _
  exact hbefore.trans (hqueue ▸ hafter)

/-- The calls for other keys change nothing for a key. -/
theorem results_filter (self : KeyManager K) (keyId : String) (calls : List (PoolCall K)) :
    self.results keyId (calls.filter fun call => call.keyId = keyId) = self.results keyId calls
      ∧ (self.after (calls.filter fun call => call.keyId = keyId)).stored keyId
        = (self.after calls).stored keyId := by
  have hall := run_queueCalls self keyId calls
  have hown := run_queueCalls self keyId (calls.filter fun call => call.keyId = keyId)
  rw [queueCalls_filter, hall] at hown
  obtain ⟨hresults, hstored⟩ := Prod.mk.inj hown
  exact ⟨hresults.symm, (List.reverse_injective hstored).symm⟩

/-- What is appended under a key id is popped or still there, and never popped twice, whatever else is
appended and popped. Two nodes whose batches have the same lengths pop the same positions, if no pop
comes too early. -/
theorem precomputations_popped_once_in_order (keystore keystore' : KeyStore K) (keyId : String) :
    (∀ calls : List (PoolCall K),
      let popped := ((new keystore).results keyId calls).reduceOption
      let left := ((new keystore).after calls).stored keyId
      ((batchesOf keyId calls).flatten : Multiset (FrostPrecomputation K)) = popped + left
        ∧ (((batchesOf keyId calls).flatten.map FrostPrecomputation.nonce).Nodup →
          ((popped ++ left).map FrostPrecomputation.nonce).Nodup))
    ∧ (∀ calls : List (PoolCall K),
      let own := calls.filter fun call => call.keyId = keyId
      (new keystore).results keyId calls = (new keystore).results keyId own
        ∧ ((new keystore).after calls).stored keyId = ((new keystore).after own).stored keyId)
    ∧ ∀ calls calls' : List (PoolCall K),
      (new keystore).PopsServed keyId calls → (new keystore').PopsServed keyId calls' →
      (batchesOf keyId calls).map List.length = (batchesOf keyId calls').map List.length →
      popsOf keyId calls = popsOf keyId calls' →
      let positions := (popOrder ((batchesOf keyId calls).map List.length)).take (popsOf keyId calls)
      (new keystore).results keyId calls = positions.map (read (batchesOf keyId calls))
        ∧ (new keystore').results keyId calls' = positions.map (read (batchesOf keyId calls')) := by
  refine ⟨?_, ?_, ?_⟩
  · intro calls popped left
    have hperm : (batchesOf keyId calls).flatten.Perm (popped ++ left) :=
      stored_append_batches_perm (new keystore) keyId calls
    refine ⟨?_, ?_⟩
    · rw [Multiset.coe_add, Multiset.coe_eq_coe]
      exact hperm
    · exact (hperm.map _).nodup_iff.mp
  · intro calls own
    obtain ⟨hresults, hstored⟩ := results_filter (new keystore) keyId calls
    exact ⟨hresults.symm, hstored.symm⟩
  · intro calls calls' hserved hserved' hlengths hpops positions
    refine ⟨results_eq_map_read hserved, ?_⟩
    rw [results_eq_map_read hserved', ← hlengths, ← hpops]

/-- A precomputation without commitments, known by its nonce. -/
def precomputationSeven (nonce : ℕ) : FrostPrecomputation Curves.seven := ⟨⟨[]⟩, ⟨nonce, nonce⟩, ∅⟩

/-- One node pops before its second batch is there, and has another key. -/
def callsEarly : List (PoolCall Curves.seven) :=
  [.append "key" [precomputationSeven 1, precomputationSeven 2], .pop "key",
    .append "other" [precomputationSeven 9], .append "key" [precomputationSeven 3], .pop "key"]

def callsLate : List (PoolCall Curves.seven) :=
  [.append "key" [precomputationSeven 4, precomputationSeven 5],
    .append "key" [precomputationSeven 6], .pop "key", .pop "key"]

theorem precomputations_popped_once_in_order_seven :
    ((((new ⟨∅⟩).results "key" callsEarly).reduceOption
        ++ ((new ⟨∅⟩).after callsEarly).stored "key").map FrostPrecomputation.nonce).Nodup
      ∧ (new ⟨∅⟩).results "key" callsEarly = [(0, 1), (0, 0)].map (read (batchesOf "key" callsEarly))
      ∧ (new ⟨∅⟩).results "key" callsLate = [(0, 1), (0, 0)].map (read (batchesOf "key" callsLate)) := by
  have h := precomputations_popped_once_in_order (⟨∅⟩ : KeyStore Curves.seven) ⟨∅⟩ "key"
  have hearly : (new (⟨∅⟩ : KeyStore Curves.seven)).PopsServed "key" callsEarly :=
    popsServed_of_all_isSome (by decide)
  have hlate : (new (⟨∅⟩ : KeyStore Curves.seven)).PopsServed "key" callsLate :=
    popsServed_of_all_isSome (by decide)
  exact ⟨(h.1 callsEarly).2 (by decide), h.2.2 callsEarly callsLate hearly hlate (by decide) (by decide)⟩

end KeyManager

/-! ### The commands

The task makes the calls of its commands, in the order in which they arrive, and answers those that ask
for something.
-/

namespace KeyManagerCommand

def poolCall? : KeyManagerCommand K → Option (PoolCall K)
  | listAvailableKeys _ => none
  | getKeyById _ _ => none
  | getKeyBySchemeAndGroup _ _ _ => none
  | popFrostPrecomputation keyId _ => some (.pop keyId)
  | pushFrostPrecomputations keyId precomputations => some (.append keyId precomputations)

/-- The client that waits for an answer. -/
def responder? : KeyManagerCommand K → Option Responder
  | listAvailableKeys responder => some responder
  | getKeyById _ responder => some responder
  | getKeyBySchemeAndGroup _ _ responder => some responder
  | popFrostPrecomputation _ responder => some responder
  | pushFrostPrecomputations _ _ => none

/-- What a lookup finds in a store. -/
def lookup? (E : Primitives) (order : IterationOrder String (KeyEntry K)) (store : KeyStore K) :
    KeyManagerCommand K → Option (Responder × KeyManagerAnswer K)
  | listAvailableKeys responder => some (responder, .keys (store.listPublicKeys E order))
  | getKeyById id responder =>
      some (responder, .key ((store.getKeyById id).mapError KeyStoreError.toString))
  | getKeyBySchemeAndGroup scheme group responder =>
      some (responder, .key (store.getKeyBySchemeAndGroup order scheme group))
  | popFrostPrecomputation _ _ => none
  | pushFrostPrecomputations _ _ => none

/-- The precomputation of a key that a client is given. -/
def handedOut? (keyId : String) :
    KeyManagerCommand K → KeyManagerAnswer K → Option (FrostPrecomputation K)
  | popFrostPrecomputation id _, .precomputation result => if id = keyId then result else none
  | _, _ => none

/-- No client has gone away before its answer. -/
def Awaited (command : KeyManagerCommand K) : Prop :=
  ∀ responder, command.responder? = some responder → responder.isClosed = false

end KeyManagerCommand

def KeyManagerAnswer.isLookup : KeyManagerAnswer K → Bool
  | keys _ => true
  | key _ => true
  | precomputation _ => false

/-- All precomputations that come in for a key. -/
def pushedUnder (keyId : String) (commands : List (KeyManagerCommand K)) :
    List (FrostPrecomputation K) :=
  (batchesOf keyId (commands.filterMap KeyManagerCommand.poolCall?)).flatten

/-- The precomputations of a key that the answers give to the clients, who are answered one after the
other. -/
def handedOut (keyId : String) (commands : List (KeyManagerCommand K))
    (sent : List (Responder × KeyManagerAnswer K)) : List (FrostPrecomputation K) :=
  ((commands.filter fun command => command.responder?.isSome).zip sent).filterMap fun entry =>
    entry.1.handedOut? keyId entry.2.2

namespace KeyManager

variable {E : Primitives} {order : IterationOrder String (KeyEntry K)} {self self' : KeyManager K}
  {sent : List (Responder × KeyManagerAnswer K)}

variable (E order) in
/-- The answer to a command. -/
def answer? (self : KeyManager K) : KeyManagerCommand K → Option (Responder × KeyManagerAnswer K)
  | .popFrostPrecomputation keyId responder =>
      some (responder, .precomputation (self.popPrecomputation keyId).1)
  | command => command.lookup? E order self.keystore

variable (E order) in
/-- The answers to commands that come one after the other. -/
def answers (self : KeyManager K) : List (KeyManagerCommand K) → List (Responder × KeyManagerAnswer K)
  | [] => []
  | command :: commands =>
      (self.answer? E order command).toList ++ (self.after command.poolCall?.toList).answers commands

/-- What is sent, and the key manager that goes on, when the client is still there. -/
theorem send_bind_eq_ok_iff {responder : Responder} {answer : KeyManagerAnswer K}
    {next : KeyManager K} :
    (do
      let sent ← send responder answer
      .ok (sent, next)) = Outcome.ok (sent, self')
      ↔ responder.isClosed = false ∧ [(responder, answer)] = sent ∧ next = self' := by
  unfold send
  cases responder.isClosed with
  | false => simp
  | true => simp

theorem awaited_of_responder? {command : KeyManagerCommand K} {responder : Responder}
    (h : command.responder? = some responder) : command.Awaited ↔ responder.isClosed = false := by
  simp [KeyManagerCommand.Awaited, h]

/-- A turn of the loop: the answer is sent if the client is still there, and the call is made. -/
theorem handle_eq_ok_iff {command : KeyManagerCommand K} :
    self.handle E order command = .ok (sent, self') ↔ command.Awaited
      ∧ (self.answer? E order command).toList = sent ∧ self.after command.poolCall?.toList = self' := by
  cases command with
  | listAvailableKeys responder =>
      rw [awaited_of_responder? rfl]
      exact send_bind_eq_ok_iff
  | getKeyById id responder =>
      rw [awaited_of_responder? rfl]
      exact send_bind_eq_ok_iff
  | getKeyBySchemeAndGroup scheme group responder =>
      rw [awaited_of_responder? rfl]
      exact send_bind_eq_ok_iff
  | popFrostPrecomputation keyId responder =>
      rw [awaited_of_responder? rfl]
      exact send_bind_eq_ok_iff
  | pushFrostPrecomputations keyId precomputations =>
      have hawaited : (KeyManagerCommand.pushFrostPrecomputations keyId precomputations).Awaited :=
        fun responder h => by cases h
      rw [and_iff_right hawaited, handle, Outcome.ok.injEq, Prod.mk.injEq]
      rfl

/-- The task goes on exactly as long as every client is still there. It has then made the calls of the
commands that came, and sent their answers. -/
theorem run_eq_ok_iff {commands : List (KeyManagerCommand K)} :
    self.run E order commands = .ok (sent, self') ↔ (∀ command ∈ commands, command.Awaited)
      ∧ self.answers E order commands = sent
      ∧ self.after (commands.filterMap KeyManagerCommand.poolCall?) = self' := by
  induction commands generalizing self sent with
  | nil => simp [run, answers, after, perform]
  | cons command commands ih =>
      have hafter : self.after ((command :: commands).filterMap KeyManagerCommand.poolCall?)
          = (self.after command.poolCall?.toList).after
            (commands.filterMap KeyManagerCommand.poolCall?) := by
        cases hcall : command.poolCall? with
        | none => rw [List.filterMap_cons_none hcall]; rfl
        | some call => rw [List.filterMap_cons_some hcall, after_cons]; rfl
      rw [hafter, List.forall_mem_cons, answers, run]
      constructor
      · intro h
        obtain ⟨⟨first, mid⟩, hhandle, hrest⟩ := Outcome.bind_eq_ok.mp h
        obtain ⟨⟨rest, last⟩, hrun, heq⟩ := Outcome.bind_eq_ok.mp hrest
        obtain ⟨rfl, rfl⟩ := Prod.mk.inj (Outcome.ok.inj heq)
        obtain ⟨hfirst, rfl, rfl⟩ := handle_eq_ok_iff.mp hhandle
        obtain ⟨hothers, rfl, rfl⟩ := ih.mp hrun
        exact ⟨⟨hfirst, hothers⟩, rfl, rfl⟩
      · rintro ⟨⟨hfirst, hothers⟩, rfl, rfl⟩
        rw [handle_eq_ok_iff.mpr ⟨hfirst, rfl, rfl⟩, Outcome.ok_bind]
        dsimp only
        rw [ih.mpr ⟨hothers, rfl, rfl⟩, Outcome.ok_bind]

/-! What the answers are: they go to the clients that asked, lookups see the store that was loaded, and
pops what the calls return. -/

theorem answer?_map_fst (self : KeyManager K) (command : KeyManagerCommand K) :
    (self.answer? E order command).map Prod.fst = command.responder? := by
  cases command <;> rfl

theorem map_fst_answers (self : KeyManager K) (commands : List (KeyManagerCommand K)) :
    (self.answers E order commands).map Prod.fst = commands.filterMap KeyManagerCommand.responder? := by
  induction commands generalizing self with
  | nil => rfl
  | cons command commands ih =>
      rw [answers, List.map_append, ih, ← Option.toList_map, answer?_map_fst]
      cases h : command.responder? with
      | none => rw [List.filterMap_cons_none h]; rfl
      | some responder => rw [List.filterMap_cons_some h]; rfl

/-- The store is the same through all calls. -/
theorem keystore_after (self : KeyManager K) (calls : List (PoolCall K)) :
    (self.after calls).keystore = self.keystore := by
  induction calls generalizing self with
  | nil => rfl
  | cons call calls ih =>
      rw [after_cons, ih]
      cases call with
      | append id precomputations =>
          change (self.appendPrecomputations id precomputations).keystore = self.keystore
          unfold appendPrecomputations
          cases self.frostPrecomputes.lookup id with
          | none => rfl
          | some current => rfl
      | pop id =>
          change (self.popPrecomputation id).2.keystore = self.keystore
          unfold popPrecomputation
          cases self.frostPrecomputes.lookup id with
          | none => rfl
          | some vec => rfl

theorem filter_answer? (self : KeyManager K) (command : KeyManagerCommand K) :
    (self.answer? E order command).toList.filter (fun s => s.2.isLookup)
      = (command.lookup? E order self.keystore).toList := by
  cases command <;> rfl

theorem filter_answers (self : KeyManager K) (commands : List (KeyManagerCommand K)) :
    (self.answers E order commands).filter (fun s => s.2.isLookup)
      = commands.filterMap (KeyManagerCommand.lookup? E order self.keystore) := by
  induction commands generalizing self with
  | nil => rfl
  | cons command commands ih =>
      rw [answers, List.filter_append, filter_answer?, ih, keystore_after]
      cases h : command.lookup? E order self.keystore with
      | none => rw [List.filterMap_cons_none h]; rfl
      | some answer => rw [List.filterMap_cons_some h]; rfl

theorem handedOut_cons (keyId : String) {command : KeyManagerCommand K}
    (hasks : command.responder?.isSome = true) (commands : List (KeyManagerCommand K))
    (s : Responder × KeyManagerAnswer K) (sent : List (Responder × KeyManagerAnswer K)) :
    handedOut keyId (command :: commands) (s :: sent)
      = (command.handedOut? keyId s.2).toList ++ handedOut keyId commands sent := by
  rw [handedOut, List.filter_cons_of_pos (by exact hasks), List.zip_cons_cons]
  cases h : command.handedOut? keyId s.2 with
  | none => rw [List.filterMap_cons_none (by exact h)]; rfl
  | some precomputation => rw [List.filterMap_cons_some (by exact h)]; rfl

theorem handedOut_answers (self : KeyManager K) (keyId : String)
    (commands : List (KeyManagerCommand K)) :
    handedOut keyId commands (self.answers E order commands)
      = (self.results keyId (commands.filterMap KeyManagerCommand.poolCall?)).reduceOption := by
  induction commands generalizing self with
  | nil => rfl
  | cons command commands ih =>
      have hrest := ih (self.after command.poolCall?.toList)
      cases command with
      | listAvailableKeys responder => exact hrest
      | getKeyById id responder => exact hrest
      | getKeyBySchemeAndGroup scheme group responder => exact hrest
      | popFrostPrecomputation id responder =>
          have hcall : KeyManagerCommand.poolCall? (K := K) (.popFrostPrecomputation id responder)
              = some (.pop id) := rfl
          rw [List.filterMap_cons_some hcall, results_pop, answers]
          refine (handedOut_cons keyId rfl commands _ _).trans ((congrArg _ hrest).trans ?_)
          by_cases hid : id = keyId
          · subst hid
            rw [if_pos rfl, ← popPrecomputation_fst]
            change (if id = id then (self.popPrecomputation id).1 else none).toList ++ _ = _
            rw [if_pos rfl]
            cases (self.popPrecomputation id).1 with
            | none => rfl
            | some precomputation => rfl
          · rw [if_neg hid]
            change (if id = keyId then (self.popPrecomputation id).1 else none).toList ++ _ = _
            rw [if_neg hid]
            rfl
      | pushFrostPrecomputations id precomputations => exact hrest

/-- The task of a key manager that starts with no precomputations. It fails only when a client has gone
away. Otherwise every client gets one answer, in the order of the commands; a lookup is answered from the
store that was loaded at the start; and what came in for a key is what its clients were given and what is
left, so nothing is given twice or to clients of another key. -/
theorem commands_answered (E : Primitives) (order : IterationOrder String (KeyEntry K))
    (keystore : KeyStore K) (commands : List (KeyManagerCommand K)) :
    ((∃ sent manager, (new keystore).run E order commands = .ok (sent, manager))
      ↔ ∀ command ∈ commands, command.Awaited)
    ∧ ∀ sent manager, (new keystore).run E order commands = .ok (sent, manager) →
      sent.map Prod.fst = commands.filterMap KeyManagerCommand.responder?
      ∧ sent.filter (fun s => s.2.isLookup)
        = commands.filterMap (KeyManagerCommand.lookup? E order keystore)
      ∧ ∀ keyId, (pushedUnder keyId commands : Multiset (FrostPrecomputation K))
        = handedOut keyId commands sent + manager.stored keyId := by
  refine ⟨?_, ?_⟩
  · constructor
    · rintro ⟨sent, manager, h⟩
      exact (run_eq_ok_iff.mp h).1
    · intro h
      exact ⟨_, _, run_eq_ok_iff.mpr ⟨h, rfl, rfl⟩⟩
  · intro sent manager h
    obtain ⟨-, rfl, rfl⟩ := run_eq_ok_iff.mp h
    refine ⟨map_fst_answers _ commands, filter_answers _ commands, fun keyId => ?_⟩
    rw [handedOut_answers, Multiset.coe_add, Multiset.coe_eq_coe]
    exact stored_append_batches_perm (new keystore) keyId _

/-- Two clients take precomputations of one key, and a third one asks for a key that is not there. -/
def commandsSeven : List (KeyManagerCommand Curves.seven) :=
  [.pushFrostPrecomputations "key" [precomputationSeven 1, precomputationSeven 2],
    .popFrostPrecomputation "key" ⟨0, false⟩, .getKeyById "none" ⟨1, false⟩,
    .pushFrostPrecomputations "other" [precomputationSeven 9], .popFrostPrecomputation "key" ⟨2, false⟩]

theorem commands_answered_seven :
    ∃ sent manager,
      (new ⟨∅⟩).run .truncating (.latest _ _) commandsSeven = .ok (sent, manager)
        ∧ sent.map Prod.fst = [⟨0, false⟩, ⟨1, false⟩, ⟨2, false⟩]
        ∧ ([precomputationSeven 1, precomputationSeven 2] : Multiset (FrostPrecomputation Curves.seven))
          = handedOut "key" commandsSeven sent + manager.stored "key" := by
  obtain ⟨hdefined, hall⟩ := commands_answered .truncating (.latest _ _) ⟨∅⟩ commandsSeven
  have hawaited : ∀ command ∈ commandsSeven, command.Awaited := by
    simp [commandsSeven, KeyManagerCommand.Awaited, KeyManagerCommand.responder?]
  obtain ⟨sent, manager, hrun⟩ := hdefined.mpr hawaited
  obtain ⟨hclients, -, hhanded⟩ := hall sent manager hrun
  exact ⟨sent, manager, hrun, hclients, hhanded "key"⟩

end KeyManager

end QuorumCrypt
