import QuorumCrypt.Orchestration.Executor
import QuorumCrypt.Schemes.Common
import Mathlib.Data.Finset.Basic

/-!
# Protocols of one round

What `ThresholdCipherProtocol`, `ThresholdSignatureProtocol` and `ThresholdCoinProtocol` have in common:
the node computes its own share, collects the shares of the others, and assembles them when it has
as many as the threshold. They differ in the calls they make into the scheme layer, which are the
fields of `ShareRound`.

`update` notes the id of a share before it verifies the share, so the first share seen under an id
decides: `Collected` says exactly which shares a node holds after any sequence of deliveries.
-/

namespace QuorumCrypt

open Rust

/-- The calls into the scheme layer, for one request and one key. -/
structure ShareRound (S : Type) where
  threshold : UInt16
  getId : S → UInt16
  /-- The share the node computes itself. -/
  ownShare : Drawn → ProtocolOutcome S
  verifyShare : S → SchemeOutcome Bool
  assemble : List S → ProtocolOutcome Bytes

/-- The part of the state that changes. -/
structure ShareState (S : Type) where
  validShares : List S
  finished : Bool
  receivedShareIds : Finset UInt16

/-- The state the constructors build. -/
def ShareState.new (S : Type) : ShareState S :=
  { validShares := [], finished := false, receivedShareIds := ∅ }

inductive ShareMessage (S : Type) where
  | share (share : S)
  | default

def ShareMessage.share? {S : Type} : ShareMessage S → Option S
  | share s => some s
  | default => none

namespace ShareRound

variable {S : Type} (P : ShareRound S)

def doRound (state : ShareState S) (drawn : Drawn) : ProtocolOutcome (ShareMessage S × ShareState S) := do
  let share ← P.ownShare drawn
  .ok (.share share,
    { state with
      receivedShareIds := insert (P.getId share) state.receivedShareIds
      validShares := state.validShares ++ [share] })

def isReadyForNextRound (state : ShareState S) : Bool :=
  P.threshold.toNat ≤ state.validShares.length

def isReadyToFinalize (state : ShareState S) : Bool :=
  P.threshold.toNat ≤ state.validShares.length

def finalize (state : ShareState S) : ProtocolOutcome (Bytes × ShareState S) := do
  let result ← P.assemble state.validShares
  .ok (result, { state with finished := true })

/-- The default message ends in `todo!`. A share that `verify_share` refuses, with `Ok(false)` or with
an `Err`, is ignored, but its id stays noted. -/
def update (state : ShareState S) : ShareMessage S → ProtocolOutcome (ShareState S)
  | .share share =>
      if state.finished then .ok state
      else if P.getId share ∈ state.receivedShareIds then .ok state
      else
        let state :=
          { state with receivedShareIds := insert (P.getId share) state.receivedShareIds }
        match P.verifyShare share with
        | .ok true => .ok { state with validShares := state.validShares ++ [share] }
        | .ok false => .ok state
        | .err _ => .ok state
        | .panic => .panic
  | .default => .panic

/-- The protocol that the executor runs. -/
def protocol : ThresholdRoundProtocol (ShareState S) (ShareMessage S) Drawn where
  doRound := P.doRound
  isReadyForNextRound := P.isReadyForNextRound
  isReadyToFinalize := P.isReadyToFinalize
  finalize := P.finalize
  update := P.update
  isDefault
    | .share _ => false
    | .default => true

/-- A run of the protocol from its constructor. -/
def run (rng : ℕ → Drawn) (messages : List (ShareMessage S)) :
    Execution (ShareState S) (ShareMessage S) :=
  Execution.run P.protocol rng (ShareState.new S) messages

/-- The shares delivered in a run. -/
def deliveredShares (e : Execution (ShareState S) (ShareMessage S)) : List S :=
  e.delivered.filterMap ShareMessage.share?

/-! ### One delivery -/

variable {P}

/-- All that a delivery can do to a protocol that has not finished. -/
theorem update_eq_ok {state state' : ShareState S} {message : ShareMessage S}
    (hfinished : state.finished = false) (h : P.update state message = .ok state') :
    ∃ share, message = .share share ∧
      ((P.getId share ∈ state.receivedShareIds ∧ state' = state)
      ∨ (P.getId share ∉ state.receivedShareIds ∧ P.verifyShare share ≠ .ok true
        ∧ state' = { state with
            receivedShareIds := insert (P.getId share) state.receivedShareIds })
      ∨ (P.getId share ∉ state.receivedShareIds ∧ P.verifyShare share = .ok true
        ∧ state' = { state with
            receivedShareIds := insert (P.getId share) state.receivedShareIds
            validShares := state.validShares ++ [share] })) := by
  cases message with
  | default => simp [update] at h
  | share share =>
      refine ⟨share, rfl, ?_⟩
      by_cases hid : P.getId share ∈ state.receivedShareIds
      · simp only [update, hfinished, Bool.false_eq_true, if_false, if_pos hid,
          Outcome.ok.injEq] at h
        exact .inl ⟨hid, h.symm⟩
      · simp only [update, hfinished, Bool.false_eq_true, if_false, if_neg hid] at h
        cases hverify : P.verifyShare share with
        | ok valid =>
            cases valid with
            | true =>
                simp only [hverify, Outcome.ok.injEq] at h
                exact .inr (.inr ⟨hid, rfl, by rw [hfinished, h]⟩)
            | false =>
                simp only [hverify, Outcome.ok.injEq] at h
                exact .inr (.inl ⟨hid, by simp, by rw [hfinished, h]⟩)
        | err error =>
            simp only [hverify, Outcome.ok.injEq] at h
            exact .inr (.inl ⟨hid, by simp, by rw [hfinished, h]⟩)
        | panic => simp [hverify] at h

/-- A delivery returns no `Err`, and it panics only on a message that carries no valid share. -/
theorem update_cases {state : ShareState S} (hfinished : state.finished = false)
    (message : ShareMessage S) :
    (∃ state', P.update state message = .ok state')
      ∨ (P.update state message = .panic
        ∧ ∀ share, message = .share share → P.verifyShare share = .panic) := by
  cases message with
  | default => exact .inr ⟨rfl, by simp⟩
  | share share =>
      by_cases hid : P.getId share ∈ state.receivedShareIds
      · exact .inl ⟨state, by simp [update, hfinished, hid]⟩
      · cases hverify : P.verifyShare share with
        | ok valid => cases valid <;> exact .inl ⟨_, by simp [update, hfinished, hid, hverify]; rfl⟩
        | err error => exact .inl ⟨_, by simp [update, hfinished, hid, hverify]; rfl⟩
        | panic => exact .inr ⟨by simp [update, hfinished, hid, hverify], by simp [hverify]⟩

/-! ### What a node holds -/

/-- The shares a node with the share `own` holds after the given deliveries. -/
structure Collected (P : ShareRound S) (own : S) (state : ShareState S) (delivered : List S) :
    Prop where
  head : ∃ rest, state.validShares = own :: rest
  nodup : (state.validShares.map P.getId).Nodup
  subset : ∀ share ∈ state.validShares, P.getId share ∈ state.receivedShareIds
  mem : ∀ share, share ∈ state.validShares ↔ share = own
    ∨ (P.getId share ≠ P.getId own
      ∧ delivered.find? (fun s => P.getId s == P.getId share) = some share
      ∧ P.verifyShare share = .ok true)

/-- The ids a node has noted, as long as it has not stopped. -/
def Noted (P : ShareRound S) (own : S) (state : ShareState S) (delivered : List S) : Prop :=
  ∀ id, id ∈ state.receivedShareIds ↔ id = P.getId own ∨ ∃ s ∈ delivered, P.getId s = id

section Delivery

variable {own : S} {state : ShareState S} {delivered : List S}

/-- Nothing new under an id that was seen before, or from a share that is not accepted. -/
theorem find?_append_singleton {share t : S}
    (h : (∃ s ∈ delivered, P.getId s = P.getId t) ∨ P.getId t = P.getId own
      ∨ P.verifyShare t ≠ .ok true) :
    (P.getId share ≠ P.getId own
      ∧ (delivered ++ [t]).find? (fun s => P.getId s == P.getId share) = some share
      ∧ P.verifyShare share = .ok true)
    ↔ (P.getId share ≠ P.getId own
      ∧ delivered.find? (fun s => P.getId s == P.getId share) = some share
      ∧ P.verifyShare share = .ok true) := by
  refine and_congr_right fun hown => ?_
  rw [List.find?_append]
  cases hfind : delivered.find? (fun s => P.getId s == P.getId share) with
  | some s => simp
  | none =>
      simp only [Option.none_or, reduceCtorEq, false_and, iff_false, not_and]
      intro hsingle haccept
      have hmem := List.mem_of_find?_eq_some hsingle
      obtain rfl := List.mem_singleton.mp hmem
      rcases h with ⟨s, hs, hid⟩ | hid | hreject
      · have hnone := List.find?_eq_none.mp hfind s hs
        simp [hid] at hnone
      · exact hown hid
      · exact hreject haccept

theorem Collected.of_not_new (h : Collected P own state delivered) {t : S}
    (ht : (∃ s ∈ delivered, P.getId s = P.getId t) ∨ P.getId t = P.getId own
      ∨ P.verifyShare t ≠ .ok true) :
    Collected P own state (delivered ++ [t]) where
  head := h.head
  nodup := h.nodup
  subset := h.subset
  mem share := by rw [h.mem, find?_append_singleton ht]

theorem Collected.of_new (h : Collected P own state delivered) (hnoted : Noted P own state delivered)
    {t : S} (hid : P.getId t ∉ state.receivedShareIds) (haccept : P.verifyShare t = .ok true) :
    Collected P own
      { state with
        receivedShareIds := insert (P.getId t) state.receivedShareIds
        validShares := state.validShares ++ [t] } (delivered ++ [t]) where
  head := by
    obtain ⟨rest, hrest⟩ := h.head
    exact ⟨rest ++ [t], by rw [hrest]; rfl⟩
  nodup := by
    rw [List.map_append, List.map_singleton, List.nodup_append]
    refine ⟨h.nodup, List.nodup_singleton _, ?_⟩
    rintro id hmem id' hid' rfl
    obtain ⟨s, hs, rfl⟩ := List.mem_map.mp hmem
    rw [List.mem_singleton] at hid'
    exact hid (hid' ▸ h.subset s hs)
  subset := by
    intro share hshare
    rcases List.mem_append.mp hshare with hold | hnew
    · exact Finset.mem_insert_of_mem (h.subset share hold)
    · obtain rfl := List.mem_singleton.mp hnew
      exact Finset.mem_insert_self _ _
  mem := by
    intro share
    have hunseen : P.getId t ≠ P.getId own ∧ ∀ s ∈ delivered, P.getId s ≠ P.getId t := by
      rw [hnoted] at hid
      exact ⟨fun heq => hid (.inl heq), fun s hs heq => hid (.inr ⟨s, hs, heq⟩)⟩
    rw [List.mem_append, List.mem_singleton, h.mem]
    by_cases hsame : P.getId share = P.getId t
    · -- no share with the id of `t` was delivered before
      have hnone : delivered.find? (fun s => P.getId s == P.getId share) = none := by
        rw [List.find?_eq_none]
        intro s hs
        simpa [hsame] using hunseen.2 s hs
      rw [List.find?_append, hnone]
      simp only [reduceCtorEq, false_and, and_false, or_false, Option.none_or]
      constructor
      · rintro (rfl | rfl)
        · exact .inl rfl
        · exact .inr ⟨hunseen.1, by simp, haccept⟩
      · rintro (rfl | ⟨-, hfind, -⟩)
        · exact .inl rfl
        · exact .inr (List.mem_singleton.mp (List.mem_of_find?_eq_some hfind))
    · have hne : share ≠ t := fun heq => hsame (heq ▸ rfl)
      have hdiff : (P.getId t == P.getId share) = false := by simpa using Ne.symm hsame
      rw [List.find?_append]
      simp [hne, hdiff]

end Delivery

/-! ### Runs -/

/-- What holds of every run of a node whose own share is `own`. -/
structure RunInv (P : ShareRound S) (own : S) (e : Execution (ShareState S) (ShareMessage S)) :
    Prop where
  collected : Collected P own e.protocol (deliveredShares e)
  running : e.status = .running → e.protocol.finished = false
    ∧ Noted P own e.protocol (deliveredShares e) ∧ e.finalized = []
  rounds : e.rounds = 1
  sent : e.sent = [.share own]
  finalized : e.finalized.length ≤ 1
  threshold : ∀ state ∈ e.finalized, P.threshold.toNat ≤ state.validShares.length
  result : ∀ result, e.status = .finished result →
    P.threshold.toNat ≤ e.protocol.validShares.length
      ∧ P.assemble e.protocol.validShares = .ok result

/-- `do_round` only computes the own share. -/
theorem start_eq {rng : ℕ → Drawn} {own : S} (hown : P.ownShare (rng 0) = .ok own) :
    Execution.start P.protocol rng (ShareState.new S)
      = { protocol := { validShares := [own], finished := false, receivedShareIds := {P.getId own} }
          sent := [.share own]
          calls := [.doRound (ShareState.new S)]
          status := .running } := by
  have hround : P.protocol.doRound (ShareState.new S) (rng 0)
      = .ok (.share own,
        { validShares := [own], finished := false, receivedShareIds := {P.getId own} }) := by
    change P.doRound _ _ = _
    rw [doRound, hown, Outcome.ok_bind]
    rfl
  simp only [Execution.start, Execution.performRound, Execution.rounds, List.countP_nil, hround]
  rfl

theorem runInv_start {rng : ℕ → Drawn} {own : S} (hown : P.ownShare (rng 0) = .ok own) :
    RunInv P own (Execution.start P.protocol rng (ShareState.new S)) := by
  rw [start_eq hown]
  refine ⟨⟨⟨[], rfl⟩, by simp, by simp, ?_⟩, fun _ => ⟨rfl, ?_, rfl⟩, rfl, rfl, Nat.zero_le _, ?_,
    by simp⟩
  · intro share
    simp [deliveredShares, Execution.delivered, Call.delivered]
  · intro id
    simp [deliveredShares, Execution.delivered, Call.delivered]
  · intro state hstate
    cases hstate

/-- The shares delivered after one more delivery. -/
theorem deliveredShares_update (e : Execution (ShareState S) (ShareMessage S))
    (protocol state : ShareState S) (message : ShareMessage S) (status : Status) :
    deliveredShares ⟨protocol, e.sent, e.calls ++ [.update state message], status⟩
      = deliveredShares e ++ message.share?.toList := by
  rw [deliveredShares, Execution.delivered_update, List.filterMap_append]
  cases message <;> rfl

/-- A delivery keeps the ids up to date. -/
theorem Noted.insert {own t : S} {state : ShareState S} {delivered : List S}
    (h : Noted P own state delivered) {ids : Finset UInt16}
    (hids : ∀ id, id ∈ ids ↔ id = P.getId t ∨ id ∈ state.receivedShareIds) :
    ∀ id, id ∈ ids ↔ id = P.getId own ∨ ∃ s ∈ delivered ++ [t], P.getId s = id := by
  intro id
  rw [hids, h id]
  constructor
  · rintro (rfl | hid | ⟨s, hs, rfl⟩)
    · exact .inr ⟨t, by simp, rfl⟩
    · exact .inl hid
    · exact .inr ⟨s, List.mem_append_left _ hs, rfl⟩
  · rintro (hid | ⟨s, hs, rfl⟩)
    · exact .inr (.inl hid)
    · rcases List.mem_append.mp hs with hs | hs
      · exact .inr (.inr ⟨s, hs, rfl⟩)
      · exact .inl (by rw [List.mem_singleton.mp hs])

/-- A delivery that returns `Ok`, before the executor goes on. -/
theorem RunInv.update {own : S} {e : Execution (ShareState S) (ShareMessage S)}
    (h : RunInv P own e) (hrunning : e.status = .running) {message : ShareMessage S}
    {state' : ShareState S} (hupdate : P.update e.protocol message = .ok state') :
    RunInv P own ⟨state', e.sent, e.calls ++ [.update e.protocol message], .running⟩ := by
  obtain ⟨hfinished, hnoted, hcalls⟩ := h.running hrunning
  obtain ⟨t, rfl, hcases⟩ := update_eq_ok hfinished hupdate
  refine ⟨?_, fun _ => ⟨?_, ?_, ?_⟩, ?_, h.sent, ?_, ?_, by simp⟩
  · rw [deliveredShares_update]
    rcases hcases with ⟨hid, rfl⟩ | ⟨hid, hreject, rfl⟩ | ⟨hid, haccept, rfl⟩
    · refine h.collected.of_not_new ?_
      rcases (hnoted _).mp hid with hid | hid
      · exact .inr (.inl hid)
      · exact .inl hid
    · have hkept := h.collected.of_not_new (t := t) (.inr (.inr hreject))
      exact ⟨hkept.head, hkept.nodup,
        fun s hs => Finset.mem_insert_of_mem (hkept.subset s hs), hkept.mem⟩
    · exact h.collected.of_new hnoted hid haccept
  · rcases hcases with ⟨-, rfl⟩ | ⟨-, -, rfl⟩ | ⟨-, -, rfl⟩ <;> exact hfinished
  · rw [deliveredShares_update]
    rcases hcases with ⟨hid, rfl⟩ | ⟨-, -, rfl⟩ | ⟨-, -, rfl⟩
    · refine hnoted.insert fun id => ⟨.inr, ?_⟩
      rintro (rfl | hmem)
      · exact hid
      · exact hmem
    · exact hnoted.insert fun id => Finset.mem_insert
    · exact hnoted.insert fun id => Finset.mem_insert
  · rw [Execution.finalized_update]
    exact hcalls
  · rw [Execution.rounds_update]
    exact h.rounds
  · rw [Execution.finalized_update]
    exact h.finalized
  · rw [Execution.finalized_update]
    exact h.threshold

/-- A call of `finalize` stops the run and keeps the shares. -/
theorem RunInv.stop {own : S} {e : Execution (ShareState S) (ShareMessage S)} (h : RunInv P own e)
    (hrunning : e.status = .running) (hthreshold : P.threshold.toNat ≤ e.protocol.validShares.length)
    {protocol : ShareState S} {status : Status} (hstatus : status ≠ .running)
    (hvalid : protocol.validShares = e.protocol.validShares)
    (hreceived : protocol.receivedShareIds = e.protocol.receivedShareIds)
    (hresult : ∀ result, status = .finished result →
      P.assemble e.protocol.validShares = .ok result) :
    RunInv P own ⟨protocol, e.sent, e.calls ++ [.finalize e.protocol], status⟩ := by
  obtain ⟨-, -, hcalls⟩ := h.running hrunning
  rw [Execution.finalized] at hcalls
  refine ⟨?_, fun hrun => absurd hrun hstatus, ?_, h.sent, ?_, ?_, ?_⟩
  · obtain ⟨hhead, hnodup, hsubset, hmem⟩ := h.collected
    rw [deliveredShares, Execution.delivered_finalize]
    exact ⟨hvalid ▸ hhead, hvalid ▸ hnodup, by rw [hvalid, hreceived]; exact hsubset,
      by rw [hvalid]; exact hmem⟩
  · rw [Execution.rounds_finalize]
    exact h.rounds
  · rw [Execution.finalized_finalize, hcalls, List.nil_append, List.length_singleton]
  · intro state hstate
    rw [Execution.finalized_finalize, hcalls, List.nil_append, List.mem_singleton] at hstate
    rwa [hstate]
  · intro result hfinish
    rw [hvalid]
    exact ⟨hthreshold, hresult result hfinish⟩

/-- When the node is ready it finalizes; the second round that the executor would do next is never
reached, because the protocol is ready for it in the same states. -/
theorem RunInv.advance {rng : ℕ → Drawn} {own : S} {e : Execution (ShareState S) (ShareMessage S)}
    (h : RunInv P own e) (hrunning : e.status = .running) :
    RunInv P own (Execution.advance P.protocol rng e) := by
  by_cases hready : P.protocol.isReadyToFinalize e.protocol = true
  · have hthreshold : P.threshold.toNat ≤ e.protocol.validShares.length := by
      simpa [protocol, isReadyToFinalize] using hready
    rw [Execution.advance, if_pos hready]
    rcases Execution.performFinalize_cases P.protocol e with
      ⟨result, state, hfinalize, heq⟩ | ⟨error, -, heq⟩ | ⟨-, heq⟩
    · obtain ⟨output, hassemble, hpair⟩ := Outcome.bind_eq_ok.mp hfinalize
      obtain ⟨rfl, rfl⟩ := Prod.mk.inj (Outcome.ok.inj hpair)
      rw [heq]
      refine h.stop hrunning hthreshold (by simp) rfl rfl ?_
      rintro _ ⟨⟩
      exact hassemble
    · rw [heq]
      exact h.stop hrunning hthreshold (by simp) rfl rfl (by simp)
    · rw [heq]
      exact h.stop hrunning hthreshold (by simp) rfl rfl (by simp)
  · have hnext : ¬ P.protocol.isReadyForNextRound e.protocol = true := hready
    rw [Execution.advance, if_neg hready, if_neg hnext]
    exact h

theorem RunInv.onMessage {rng : ℕ → Drawn} {own : S}
    {e : Execution (ShareState S) (ShareMessage S)} (h : RunInv P own e)
    (hrunning : e.status = .running) (message : ShareMessage S) :
    RunInv P own (Execution.onMessage P.protocol rng e message) := by
  have hfinished := (h.running hrunning).1
  rcases Execution.onMessage_of_running P.protocol rng hrunning message with
    ⟨state', hupdate, heq⟩ | ⟨error, hupdate, -⟩ | ⟨hupdate, heq⟩
  · rw [heq]
    exact (h.update hrunning hupdate).advance rfl
  · rcases update_cases (P := P) hfinished message with ⟨state', hok⟩ | ⟨hpanic, -⟩
    · cases hok.symm.trans hupdate
    · cases hpanic.symm.trans hupdate
  · -- the share that made `verify_share` panic counts as delivered, and it is not held
    have hreject : ∀ t, message = .share t → P.verifyShare t ≠ .ok true := by
      rcases update_cases (P := P) hfinished message with ⟨state', hok⟩ | ⟨-, hverify⟩
      · cases hok.symm.trans hupdate
      · intro t ht
        simp [hverify t ht]
    rw [heq]
    refine ⟨?_, by simp, ?_, h.sent, ?_, ?_, by simp⟩
    · rw [deliveredShares_update]
      cases message with
      | share t => exact h.collected.of_not_new (.inr (.inr (hreject t rfl)))
      | default => simpa [ShareMessage.share?] using h.collected
    · rw [Execution.rounds_update]
      exact h.rounds
    · rw [Execution.finalized_update]
      exact h.finalized
    · rw [Execution.finalized_update]
      exact h.threshold

/-- Every run of a node that computed its own share. -/
theorem runInv_run {rng : ℕ → Drawn} {own : S} (hown : P.ownShare (rng 0) = .ok own)
    (messages : List (ShareMessage S)) : RunInv P own (P.run rng messages) :=
  Execution.run_induction (runInv_start hown) fun _ message _ hrunning h =>
    h.onMessage hrunning message

/-- A node that cannot compute its own share stops before it takes any message. -/
theorem run_of_ownShare_ne {rng : ℕ → Drawn} (hown : ∀ own, P.ownShare (rng 0) ≠ .ok own)
    (messages : List (ShareMessage S)) :
    ∃ status, status ≠ .running ∧ (∀ result, status ≠ .finished result)
      ∧ P.run rng messages = ⟨ShareState.new S, [], [.doRound (ShareState.new S)], status⟩ := by
  have hstart : ∃ status, status ≠ .running ∧ (∀ result, status ≠ .finished result)
      ∧ Execution.start P.protocol rng (ShareState.new S)
        = ⟨ShareState.new S, [], [.doRound (ShareState.new S)], status⟩ := by
    cases hshare : P.ownShare (rng 0) with
    | ok own => exact absurd hshare (hown own)
    | err error =>
        refine ⟨.failed error, by simp, by simp, ?_⟩
        simp [Execution.start, Execution.performRound, Execution.rounds, protocol, doRound, hshare]
    | panic =>
        refine ⟨.panicked, by simp, by simp, ?_⟩
        simp [Execution.start, Execution.performRound, Execution.rounds, protocol, doRound, hshare]
  obtain ⟨status, hstopped, hresult, heq⟩ := hstart
  refine ⟨status, hstopped, hresult, Execution.run_induction
    (motive := fun e => e = ⟨ShareState.new S, [], [.doRound (ShareState.new S)], status⟩) heq ?_⟩
  rintro e message - hrunning rfl
  exact absurd hrunning hstopped

end ShareRound

end QuorumCrypt
