import QuorumCrypt.Protocols.Interface
import Mathlib.Data.List.Induction

/-!
# The executor of a protocol instance

`protocol_executor.rs`: `run` does the first round, then takes one message after the other from its
channel. Each one goes to `update`; then the executor finalizes when the protocol is ready for that,
and otherwise does the next round when it is ready for that. An execution records the messages sent
and the calls made, so that statements about whole runs can speak of them.
-/

namespace QuorumCrypt

open Rust

/-- A call of a method of the protocol, with the state it was made on. -/
inductive Call (σ μ : Type) where
  | doRound (state : σ)
  | update (state : σ) (message : μ)
  | finalize (state : σ)

namespace Call

variable {σ μ : Type}

def isDoRound : Call σ μ → Bool
  | doRound _ => true
  | _ => false

/-- The state a call was made on. -/
def state : Call σ μ → σ
  | doRound state => state
  | update state _ => state
  | finalize state => state

/-- The state of a call of `do_round`. -/
def rounded : Call σ μ → Option σ
  | doRound state => some state
  | _ => none

/-- The state of a call of `finalize`. -/
def finalized : Call σ μ → Option σ
  | finalize state => some state
  | _ => none

/-- The message of a call of `update`. -/
def delivered : Call σ μ → Option μ
  | update _ message => some message
  | _ => none

end Call

inductive Status where
  | running
  | finished (result : Bytes)
  | failed (error : ProtocolError)
  | panicked
  deriving DecidableEq

structure Execution (σ μ : Type) where
  protocol : σ
  sent : List μ
  calls : List (Call σ μ)
  status : Status

namespace Execution

variable {σ μ ρ : Type} (P : ThresholdRoundProtocol σ μ ρ) (rng : ℕ → ρ)

/-- The messages `update` was called with. -/
def delivered (e : Execution σ μ) : List μ := e.calls.filterMap Call.delivered

/-- The number of calls of `do_round`. -/
def rounds (e : Execution σ μ) : ℕ := e.calls.countP Call.isDoRound

/-- The states `finalize` was called on. -/
def finalized (e : Execution σ μ) : List σ := e.calls.filterMap Call.finalized

/-- The states that methods were called on, and the last one. -/
def states (e : Execution σ μ) : List σ := e.calls.map Call.state ++ [e.protocol]

/-- Call `do_round` and send the message it returns, unless it is the default one. Every call draws
its own randomness. -/
def performRound (e : Execution σ μ) : Execution σ μ :=
  let calls := e.calls ++ [.doRound e.protocol]
  match P.doRound e.protocol (rng e.rounds) with
  | .ok (message, protocol) =>
      { e with protocol, calls, sent := if P.isDefault message then e.sent else e.sent ++ [message] }
  | .err error => { e with calls, status := .failed error }
  | .panic => { e with calls, status := .panicked }

/-- Call `finalize` and stop. -/
def performFinalize (e : Execution σ μ) : Execution σ μ :=
  let calls := e.calls ++ [.finalize e.protocol]
  match P.finalize e.protocol with
  | .ok (result, protocol) => { e with protocol, calls, status := .finished result }
  | .err error => { e with calls, status := .failed error }
  | .panic => { e with calls, status := .panicked }

/-- What the executor does after `update` returned `Ok`. -/
def advance (e : Execution σ μ) : Execution σ μ :=
  if P.isReadyToFinalize e.protocol then e.performFinalize P
  else if P.isReadyForNextRound e.protocol then e.performRound P rng
  else e

/-- One turn of the loop. An execution that has stopped takes no more messages. -/
def onMessage (e : Execution σ μ) (message : μ) : Execution σ μ :=
  if e.status ≠ .running then e
  else
    let calls := e.calls ++ [.update e.protocol message]
    match P.update e.protocol message with
    | .ok protocol => advance P rng { e with protocol, calls }
    | .err error => { e with calls, status := .failed error }
    | .panic => { e with calls, status := .panicked }

/-- One turn of the loop on a payload from the network. A payload that is no message of the protocol
makes `unwrap` panic. -/
def onPayload (fromStr : String → Outcome Unit μ) (e : Execution σ μ) (payload : Bytes) :
    Execution σ μ :=
  if e.status ≠ .running then e
  else
    match unwrapPayload fromStr payload with
    | .ok message => onMessage P rng e message
    | _ => { e with status := .panicked }

/-- The initial round. -/
def start (protocol : σ) : Execution σ μ :=
  performRound P rng { protocol, sent := [], calls := [], status := .running }

/-- A run over the messages that arrive. -/
def run (protocol : σ) (messages : List μ) : Execution σ μ :=
  messages.foldl (onMessage P rng) (start P rng protocol)

/-! ### What a call adds to the record -/

section Record

variable (protocol state : σ) (sent : List μ) (calls : List (Call σ μ)) (message : μ)
  (status : Status)

@[simp] theorem delivered_update :
    (⟨protocol, sent, calls ++ [.update state message], status⟩ : Execution σ μ).delivered
      = calls.filterMap Call.delivered ++ [message] := by
  simp [delivered, Call.delivered]

@[simp] theorem delivered_doRound :
    (⟨protocol, sent, calls ++ [.doRound state], status⟩ : Execution σ μ).delivered
      = calls.filterMap Call.delivered := by
  simp [delivered, Call.delivered]

@[simp] theorem delivered_finalize :
    (⟨protocol, sent, calls ++ [.finalize state], status⟩ : Execution σ μ).delivered
      = calls.filterMap Call.delivered := by
  simp [delivered, Call.delivered]

@[simp] theorem rounds_update :
    (⟨protocol, sent, calls ++ [.update state message], status⟩ : Execution σ μ).rounds
      = calls.countP Call.isDoRound := by
  simp [rounds, Call.isDoRound]

@[simp] theorem rounds_doRound :
    (⟨protocol, sent, calls ++ [.doRound state], status⟩ : Execution σ μ).rounds
      = calls.countP Call.isDoRound + 1 := by
  simp [rounds, Call.isDoRound]

@[simp] theorem rounds_finalize :
    (⟨protocol, sent, calls ++ [.finalize state], status⟩ : Execution σ μ).rounds
      = calls.countP Call.isDoRound := by
  simp [rounds, Call.isDoRound]

@[simp] theorem finalized_update :
    (⟨protocol, sent, calls ++ [.update state message], status⟩ : Execution σ μ).finalized
      = calls.filterMap Call.finalized := by
  simp [finalized, Call.finalized]

@[simp] theorem finalized_doRound :
    (⟨protocol, sent, calls ++ [.doRound state], status⟩ : Execution σ μ).finalized
      = calls.filterMap Call.finalized := by
  simp [finalized, Call.finalized]

@[simp] theorem finalized_finalize :
    (⟨protocol, sent, calls ++ [.finalize state], status⟩ : Execution σ μ).finalized
      = calls.filterMap Call.finalized ++ [state] := by
  simp [finalized, Call.finalized]

end Record

/-! ### Rules for runs -/

variable {P rng}

variable (P) in
/-- The three ways in which `finalize` ends. -/
theorem performFinalize_cases (e : Execution σ μ) :
    (∃ result protocol, P.finalize e.protocol = .ok (result, protocol)
      ∧ e.performFinalize P
        = ⟨protocol, e.sent, e.calls ++ [.finalize e.protocol], .finished result⟩)
    ∨ (∃ error, P.finalize e.protocol = .err error
      ∧ e.performFinalize P
        = ⟨e.protocol, e.sent, e.calls ++ [.finalize e.protocol], .failed error⟩)
    ∨ (P.finalize e.protocol = .panic
      ∧ e.performFinalize P
        = ⟨e.protocol, e.sent, e.calls ++ [.finalize e.protocol], .panicked⟩) := by
  rw [performFinalize]
  cases hfinalize : P.finalize e.protocol with
  | ok value => exact .inl ⟨value.1, value.2, rfl, rfl⟩
  | err error => exact .inr (.inl ⟨error, rfl, rfl⟩)
  | panic => exact .inr (.inr ⟨rfl, rfl⟩)

variable (P rng) in
/-- The three ways in which `do_round` ends. -/
theorem performRound_cases (e : Execution σ μ) :
    (∃ message protocol, P.doRound e.protocol (rng e.rounds) = .ok (message, protocol)
      ∧ e.performRound P rng
        = ⟨protocol, if P.isDefault message then e.sent else e.sent ++ [message],
          e.calls ++ [.doRound e.protocol], e.status⟩)
    ∨ (∃ error, P.doRound e.protocol (rng e.rounds) = .err error
      ∧ e.performRound P rng
        = ⟨e.protocol, e.sent, e.calls ++ [.doRound e.protocol], .failed error⟩)
    ∨ (P.doRound e.protocol (rng e.rounds) = .panic
      ∧ e.performRound P rng
        = ⟨e.protocol, e.sent, e.calls ++ [.doRound e.protocol], .panicked⟩) := by
  rw [performRound]
  cases hround : P.doRound e.protocol (rng e.rounds) with
  | ok value => exact .inl ⟨value.1, value.2, rfl, rfl⟩
  | err error => exact .inr (.inl ⟨error, rfl, rfl⟩)
  | panic => exact .inr (.inr ⟨rfl, rfl⟩)

/-- A round is recorded, however it ends. -/
theorem calls_performRound (e : Execution σ μ) :
    (e.performRound P rng).calls = e.calls ++ [.doRound e.protocol] := by
  rcases performRound_cases P rng e with ⟨_, _, -, heq⟩ | ⟨_, -, heq⟩ | ⟨-, heq⟩ <;> rw [heq]

/-- A round that returns `Ok`. -/
theorem performRound_of_ok {e : Execution σ μ} {message : μ} {protocol : σ}
    (h : P.doRound e.protocol (rng e.rounds) = .ok (message, protocol)) :
    e.performRound P rng
      = ⟨protocol, if P.isDefault message then e.sent else e.sent ++ [message],
        e.calls ++ [.doRound e.protocol], e.status⟩ := by
  rw [performRound, h]

/-- A call of `finalize` that returns `Ok`. -/
theorem performFinalize_of_ok {e : Execution σ μ} {result : Bytes} {protocol : σ}
    (h : P.finalize e.protocol = .ok (result, protocol)) :
    e.performFinalize P
      = ⟨protocol, e.sent, e.calls ++ [.finalize e.protocol], .finished result⟩ := by
  rw [performFinalize, h]

/-- A delivery that returns `Ok`. -/
theorem onMessage_of_ok {e : Execution σ μ} (hrunning : e.status = .running) {message : μ}
    {protocol : σ} (h : P.update e.protocol message = .ok protocol) :
    onMessage P rng e message = advance P rng
      ⟨protocol, e.sent, e.calls ++ [.update e.protocol message], .running⟩ := by
  rw [onMessage, if_neg (by simp [hrunning]), h, hrunning]

theorem run_append (protocol : σ) (xs ys : List μ) :
    run P rng protocol (xs ++ ys) = ys.foldl (onMessage P rng) (run P rng protocol xs) := by
  rw [run, run, List.foldl_append]

/-- What holds after the first round and is kept by every turn holds after every run. The turn may
use that its message is one of the run. -/
theorem run_induction {motive : Execution σ μ → Prop} {protocol : σ} {messages : List μ}
    (hstart : motive (start P rng protocol))
    (hstep : ∀ e, ∀ message ∈ messages, e.status = .running → motive e →
      motive (onMessage P rng e message)) :
    motive (run P rng protocol messages) := by
  induction messages using List.reverseRecOn with
  | nil => exact hstart
  | append_singleton messages message ih =>
      have hrest := ih fun e m hm => hstep e m (List.mem_append_left _ hm)
      rw [run_append]
      change motive (onMessage P rng _ message)
      by_cases hrunning : (run P rng protocol messages).status = .running
      · exact hstep _ message (List.mem_append_right _ List.mem_cons_self) hrunning hrest
      · rw [onMessage, if_pos hrunning]
        exact hrest

variable (P rng) in
/-- The three ways in which a turn goes on. -/
theorem onMessage_of_running {e : Execution σ μ} (h : e.status = .running) (message : μ) :
    (∃ protocol, P.update e.protocol message = .ok protocol
      ∧ onMessage P rng e message = advance P rng
        ⟨protocol, e.sent, e.calls ++ [.update e.protocol message], .running⟩)
    ∨ (∃ error, P.update e.protocol message = .err error
      ∧ onMessage P rng e message
        = ⟨e.protocol, e.sent, e.calls ++ [.update e.protocol message], .failed error⟩)
    ∨ (P.update e.protocol message = .panic
      ∧ onMessage P rng e message
        = ⟨e.protocol, e.sent, e.calls ++ [.update e.protocol message], .panicked⟩) := by
  rw [onMessage, if_neg (by simp [h])]
  cases hupdate : P.update e.protocol message with
  | ok protocol => exact .inl ⟨protocol, rfl, by rw [h]⟩
  | err error => exact .inr (.inl ⟨error, rfl, rfl⟩)
  | panic => exact .inr (.inr ⟨rfl, rfl⟩)

/-- A turn delivers its message, whatever comes of it. -/
theorem delivered_onMessage {e : Execution σ μ} (h : e.status = .running) (message : μ) :
    (onMessage P rng e message).delivered = e.delivered ++ [message] := by
  have hadvance : ∀ e : Execution σ μ, (advance P rng e).delivered = e.delivered := by
    intro e
    unfold advance
    split
    · rcases performFinalize_cases P e with ⟨_, _, -, heq⟩ | ⟨_, -, heq⟩ | ⟨-, heq⟩ <;>
        rw [heq, delivered_finalize] <;> rfl
    · split
      · rcases performRound_cases P rng e with
          ⟨_, _, -, heq⟩ | ⟨_, -, heq⟩ | ⟨-, heq⟩ <;> rw [heq, delivered_doRound] <;> rfl
      · rfl
  rcases onMessage_of_running P rng h message with
    ⟨_, -, heq⟩ | ⟨_, -, heq⟩ | ⟨-, heq⟩
  · rw [heq, hadvance, delivered_update]
    rfl
  · rw [heq, delivered_update]
    rfl
  · rw [heq, delivered_update]
    rfl

/-- What was sent stays sent. -/
theorem mem_sent_onMessage {e : Execution σ μ} {m : μ} (hm : m ∈ e.sent) (message : μ) :
    m ∈ (onMessage P rng e message).sent := by
  have hadvance : ∀ e : Execution σ μ, m ∈ e.sent → m ∈ (advance P rng e).sent := by
    intro e hm
    unfold advance
    split
    · rcases performFinalize_cases P e with ⟨_, _, -, heq⟩ | ⟨_, -, heq⟩ | ⟨-, heq⟩ <;>
      · rw [heq]
        exact hm
    · split
      · rcases performRound_cases P rng e with ⟨_, _, -, heq⟩ | ⟨_, -, heq⟩ | ⟨-, heq⟩
        · rw [heq]
          dsimp only
          split
          · exact hm
          · exact List.mem_append_left _ hm
        · rw [heq]
          exact hm
        · rw [heq]
          exact hm
      · exact hm
  by_cases hrunning : e.status = .running
  · rcases onMessage_of_running P rng hrunning message with
      ⟨_, -, heq⟩ | ⟨_, -, heq⟩ | ⟨-, heq⟩
    · rw [heq]
      exact hadvance _ hm
    · rw [heq]
      exact hm
    · rw [heq]
      exact hm
  · rw [onMessage, if_pos hrunning]
    exact hm

theorem mem_sent_foldl {e : Execution σ μ} {m : μ} (hm : m ∈ e.sent) (messages : List μ) :
    m ∈ (messages.foldl (onMessage P rng) e).sent := by
  induction messages generalizing e with
  | nil => exact hm
  | cons message messages ih => exact ih (mem_sent_onMessage hm message)

/-! ### Statements about every call of a run -/

/-- The methods of a protocol keep `Inv` when the messages satisfy `Q`, each when the executor may
call it. -/
structure PreservesOn (P : ThresholdRoundProtocol σ μ ρ) (Q : μ → Prop) (Inv : σ → Prop) : Prop where
  update : ∀ {s s' : σ} {m : μ}, Inv s → Q m → P.update s m = .ok s' → Inv s'
  doRound : ∀ {s s' : σ} {d : ρ} {m : μ}, Inv s → P.isReadyForNextRound s = true →
    P.doRound s d = .ok (m, s') → Inv s'
  finalize : ∀ {s s' : σ} {result : Bytes}, Inv s → P.finalize s = .ok (result, s') → Inv s'

/-- A call that the executor makes on a state with `Inv`, when the protocol is ready for it. -/
def Allowed (P : ThresholdRoundProtocol σ μ ρ) (Q : μ → Prop) (Inv : σ → Prop) : Call σ μ → Prop
  | .doRound s => Inv s ∧ P.isReadyForNextRound s = true
  | .update s m => Inv s ∧ Q m
  | .finalize s => Inv s ∧ P.isReadyToFinalize s = true

variable (P rng) in
/-- What the executor does after an update adds allowed calls only, and keeps the invariant. -/
theorem advance_allowed {Q : μ → Prop} {Inv : σ → Prop} (h : PreservesOn P Q Inv)
    {e : Execution σ μ} (hinv : Inv e.protocol) :
    Inv (advance P rng e).protocol
      ∧ ∃ calls, (advance P rng e).calls = e.calls ++ calls ∧ ∀ call ∈ calls, Allowed P Q Inv call := by
  unfold advance
  split
  · rename_i hready
    have hcall : ∀ call ∈ [Call.finalize e.protocol], Allowed P Q Inv call := by
      intro call hcall
      rw [List.mem_singleton.mp hcall]
      exact ⟨hinv, hready⟩
    rcases performFinalize_cases P e with ⟨_, s', hfinal, heq⟩ | ⟨_, -, heq⟩ | ⟨-, heq⟩
    · rw [heq]
      exact ⟨h.finalize hinv hfinal, _, rfl, hcall⟩
    · rw [heq]
      exact ⟨hinv, _, rfl, hcall⟩
    · rw [heq]
      exact ⟨hinv, _, rfl, hcall⟩
  · split
    · rename_i hready
      have hcall : ∀ call ∈ [Call.doRound e.protocol], Allowed P Q Inv call := by
        intro call hcall
        rw [List.mem_singleton.mp hcall]
        exact ⟨hinv, hready⟩
      rcases performRound_cases P rng e with ⟨_, s', hround, heq⟩ | ⟨_, -, heq⟩ | ⟨-, heq⟩
      · rw [heq]
        exact ⟨h.doRound hinv hready hround, _, rfl, hcall⟩
      · rw [heq]
        exact ⟨hinv, _, rfl, hcall⟩
      · rw [heq]
        exact ⟨hinv, _, rfl, hcall⟩
    · exact ⟨hinv, [], (List.append_nil _).symm, fun call hcall => absurd hcall List.not_mem_nil⟩

/-- An invariant of the methods holds whenever a method is called, from the end of the first round
on. If the first round fails, it is the only call. -/
theorem PreservesOn.run {Q : μ → Prop} {Inv : σ → Prop} (h : PreservesOn P Q Inv) {protocol : σ}
    (hstart : ∀ m s', P.doRound protocol (rng 0) = .ok (m, s') → Inv s') {messages : List μ}
    (hmessages : ∀ m ∈ messages, Q m) :
    (Inv (run P rng protocol messages).protocol
        ∨ (Execution.run P rng protocol messages).protocol = protocol)
      ∧ ∃ calls, (Execution.run P rng protocol messages).calls = .doRound protocol :: calls
        ∧ ∀ call ∈ calls, Allowed P Q Inv call := by
  suffices hmotive : (Inv (Execution.run P rng protocol messages).protocol
      ∨ (Execution.run P rng protocol messages).protocol = protocol
        ∧ (Execution.run P rng protocol messages).status ≠ .running)
      ∧ ∃ calls, (Execution.run P rng protocol messages).calls = .doRound protocol :: calls
        ∧ ∀ call ∈ calls, Allowed P Q Inv call from ⟨hmotive.1.imp_right And.left, hmotive.2⟩
  refine run_induction (motive := fun e =>
    (Inv e.protocol ∨ e.protocol = protocol ∧ e.status ≠ .running)
      ∧ ∃ calls, e.calls = .doRound protocol :: calls ∧ ∀ call ∈ calls, Allowed P Q Inv call) ?_ ?_
  · have hnone : ∀ call ∈ ([] : List (Call σ μ)), Allowed P Q Inv call :=
      fun call hcall => absurd hcall List.not_mem_nil
    rcases performRound_cases P rng (⟨protocol, [], [], .running⟩ : Execution σ μ) with
      ⟨m, s', hround, heq⟩ | ⟨_, -, heq⟩ | ⟨-, heq⟩
    · rw [start, heq]
      exact ⟨.inl (hstart m s' hround), [], rfl, hnone⟩
    · rw [start, heq]
      exact ⟨.inr ⟨rfl, by simp⟩, [], rfl, hnone⟩
    · rw [start, heq]
      exact ⟨.inr ⟨rfl, by simp⟩, [], rfl, hnone⟩
  · intro e message hmessage hrunning hmotive
    obtain ⟨hprotocol, calls, hcalls, hallowed⟩ := hmotive
    have hinv : Inv e.protocol := hprotocol.resolve_right fun hstopped => hstopped.2 hrunning
    have hupdate : ∀ call ∈ calls ++ [Call.update e.protocol message], Allowed P Q Inv call := by
      intro call hcall
      rcases List.mem_append.mp hcall with hcall | hcall
      · exact hallowed call hcall
      · rw [List.mem_singleton.mp hcall]
        exact ⟨hinv, hmessages message hmessage⟩
    have hrecord : e.calls ++ [Call.update e.protocol message]
        = .doRound protocol :: (calls ++ [Call.update e.protocol message]) := by
      rw [hcalls, List.cons_append]
    rcases onMessage_of_running P rng hrunning message with
      ⟨s', hok, heq⟩ | ⟨_, -, heq⟩ | ⟨-, heq⟩
    · have hinv' : Inv s' := h.update hinv (hmessages message hmessage) hok
      obtain ⟨hadvanced, more, hmore, hmoreAllowed⟩ := advance_allowed P rng h
        (e := ⟨s', e.sent, e.calls ++ [.update e.protocol message], .running⟩) hinv'
      rw [heq]
      refine ⟨.inl hadvanced, calls ++ [.update e.protocol message] ++ more, ?_, ?_⟩
      · rw [hmore, hrecord, List.cons_append]
      · intro call hcall
        rcases List.mem_append.mp hcall with hcall | hcall
        · exact hupdate call hcall
        · exact hmoreAllowed call hcall
    · rw [heq]
      exact ⟨.inl hinv, _, hrecord, hupdate⟩
    · rw [heq]
      exact ⟨.inl hinv, _, hrecord, hupdate⟩

/-- An allowed call is on a state with the invariant, and a message it delivers satisfies `Q`. -/
theorem Allowed.state {Q : μ → Prop} {Inv : σ → Prop} {call : Call σ μ} (h : Allowed P Q Inv call) :
    Inv call.state ∧ ∀ m, call.delivered = some m → Q m := by
  cases call with
  | doRound s => exact ⟨h.1, by simp [Call.delivered]⟩
  | update s m =>
      refine ⟨h.1, fun m' hm => ?_⟩
      obtain rfl := Option.some.inj hm
      exact h.2
  | finalize s => exact ⟨h.1, by simp [Call.delivered]⟩

section Whole

variable {Q : μ → Prop} {Inv : σ → Prop} {protocol : σ} {messages : List μ}

/-- An invariant that holds at the start holds at every call of a run. -/
theorem PreservesOn.calls (h : PreservesOn P Q Inv) (hinit : Inv protocol)
    (hstart : ∀ m s', P.doRound protocol (rng 0) = .ok (m, s') → Inv s')
    (hmessages : ∀ m ∈ messages, Q m) :
    ∀ call ∈ (Execution.run P rng protocol messages).calls,
      Inv call.state ∧ ∀ m, call.delivered = some m → Q m := by
  obtain ⟨-, calls, hcalls, hallowed⟩ := h.run hstart hmessages
  intro call hcall
  rw [hcalls] at hcall
  rcases List.mem_cons.mp hcall with rfl | hcall
  · exact ⟨hinit, by simp [Call.delivered]⟩
  · exact (hallowed call hcall).state

/-- An invariant that holds at the start holds in all states of a run. -/
theorem PreservesOn.states (h : PreservesOn P Q Inv) (hinit : Inv protocol)
    (hstart : ∀ m s', P.doRound protocol (rng 0) = .ok (m, s') → Inv s')
    (hmessages : ∀ m ∈ messages, Q m) :
    ∀ s ∈ (Execution.run P rng protocol messages).states, Inv s := by
  intro s hs
  rcases List.mem_append.mp hs with hs | hs
  · obtain ⟨call, hcall, rfl⟩ := List.mem_map.mp hs
    exact (h.calls hinit hstart hmessages call hcall).1
  · rw [List.mem_singleton.mp hs]
    rcases (h.run hstart hmessages).1 with hinv | heq
    · exact hinv
    · rwa [heq]

end Whole

/-- The methods of a protocol keep `Inv`, each when the executor may call it. -/
structure Preserves (P : ThresholdRoundProtocol σ μ ρ) (Inv : σ → Prop) : Prop where
  update : ∀ {s s' : σ} {m : μ}, Inv s → P.update s m = .ok s' → Inv s'
  doRound : ∀ {s s' : σ} {d : ρ} {m : μ}, Inv s → P.isReadyForNextRound s = true →
    P.doRound s d = .ok (m, s') → Inv s'
  finalize : ∀ {s s' : σ} {result : Bytes}, Inv s → P.finalize s = .ok (result, s') → Inv s'

theorem Preserves.preservesOn {Inv : σ → Prop} (h : Preserves P Inv) :
    PreservesOn P (fun _ => True) Inv where
  update hinv _ hupdate := h.update hinv hupdate
  doRound := h.doRound
  finalize := h.finalize

/-- An invariant of the methods holds of the protocol in every run, and `finalize` is only called on
states that satisfy it and are ready. -/
theorem Preserves.run {Inv : σ → Prop} (h : Preserves P Inv) {protocol : σ} (hinit : Inv protocol)
    (hstart : ∀ m s', P.doRound protocol (rng 0) = .ok (m, s') → Inv s') (messages : List μ) :
    Inv (run P rng protocol messages).protocol
      ∧ ∀ s ∈ (Execution.run P rng protocol messages).finalized,
        Inv s ∧ P.isReadyToFinalize s = true := by
  have hmessages : ∀ m ∈ messages, True := fun _ _ => trivial
  obtain ⟨-, calls, hcalls, hallowed⟩ := h.preservesOn.run hstart hmessages
  refine ⟨h.preservesOn.states hinit hstart hmessages _ (List.mem_append_right _ List.mem_cons_self), ?_⟩
  intro s hs
  rw [finalized, hcalls, List.filterMap_cons] at hs
  obtain ⟨call, hcall, hfinal⟩ := List.mem_filterMap.mp hs
  cases call with
  | doRound s' => cases hfinal
  | update s' m => cases hfinal
  | finalize s' =>
      obtain rfl := Option.some.inj hfinal
      exact hallowed _ hcall

/-! ### Rounds are done in order -/

/-- The states on which `do_round` was called. -/
def roundStates (e : Execution σ μ) : List σ := e.calls.filterMap Call.rounded

/-- Rounds after the first are done on states with the invariant that are ready. -/
theorem PreservesOn.of_mem_roundStates {Q : μ → Prop} {Inv : σ → Prop} (h : PreservesOn P Q Inv)
    {protocol : σ} (hstart : ∀ m s', P.doRound protocol (rng 0) = .ok (m, s') → Inv s')
    {messages : List μ} (hmessages : ∀ m ∈ messages, Q m) {s : σ}
    (hs : s ∈ (Execution.run P rng protocol messages).roundStates) :
    s = protocol ∨ Inv s ∧ P.isReadyForNextRound s = true := by
  obtain ⟨-, calls, hcalls, hallowed⟩ := h.run hstart hmessages
  obtain ⟨call, hcall, hrounded⟩ := List.mem_filterMap.mp hs
  rw [hcalls] at hcall
  cases call with
  | update s' m => cases hrounded
  | finalize s' => cases hrounded
  | doRound s' =>
      obtain rfl := Option.some.inj hrounded
      rcases List.mem_cons.mp hcall with heq | hcall
      · exact .inl (Call.doRound.inj heq)
      · exact .inr (hallowed _ hcall)

/-- From one call of `do_round` to the next the number grows, and after the last one it is larger
still. -/
structure InOrder (number : σ → ℕ) (e : Execution σ μ) : Prop where
  pairwise : e.roundStates.Pairwise fun s s' => number s < number s'
  below : e.status = .running → ∀ s ∈ e.roundStates, number s < number e.protocol

variable {number : σ → ℕ} {e : Execution σ μ}

theorem InOrder.performRound (h : InOrder number e) (hrunning : e.status = .running)
    (hround : ∀ s d m s', P.doRound s d = .ok (m, s') → number s < number s') :
    InOrder number (e.performRound P rng) := by
  have hbelow := h.below hrunning
  have hall : (e.calls ++ [Call.doRound e.protocol]).filterMap Call.rounded
      = e.roundStates ++ [e.protocol] := by
    simp [roundStates, Call.rounded]
  have hpairwise : (e.roundStates ++ [e.protocol]).Pairwise fun s s' => number s < number s' := by
    rw [List.pairwise_append]
    refine ⟨h.pairwise, List.pairwise_singleton _ _, ?_⟩
    intro s hs s' hs'
    rw [List.mem_singleton.mp hs']
    exact hbelow s hs
  rcases performRound_cases P rng e with ⟨_, t, hdone, heq⟩ | ⟨_, -, heq⟩ | ⟨-, heq⟩
  · rw [heq]
    refine ⟨by rwa [roundStates, hall], fun _ s hs => ?_⟩
    have hlast := hround _ _ _ _ hdone
    rw [roundStates, hall] at hs
    rcases List.mem_append.mp hs with hs | hs
    · exact Nat.lt_trans (hbelow s hs) hlast
    · rw [List.mem_singleton.mp hs]
      exact hlast
  · rw [heq]
    exact ⟨by rwa [roundStates, hall], by simp⟩
  · rw [heq]
    exact ⟨by rwa [roundStates, hall], by simp⟩

theorem InOrder.onMessage (h : InOrder number e) (hrunning : e.status = .running)
    (hupdate : ∀ s m s', P.update s m = .ok s' → number s' = number s)
    (hround : ∀ s d m s', P.doRound s d = .ok (m, s') → number s < number s') (message : μ) :
    InOrder number (onMessage P rng e message) := by
  have hstates : (e.calls ++ [Call.update e.protocol message]).filterMap Call.rounded
      = e.roundStates := by
    simp [roundStates, Call.rounded]
  rcases onMessage_of_running P rng hrunning message with
    ⟨s', hok, heq⟩ | ⟨_, -, heq⟩ | ⟨-, heq⟩
  · have hupdated : InOrder number
        (⟨s', e.sent, e.calls ++ [.update e.protocol message], .running⟩ : Execution σ μ) := by
      refine ⟨by rw [roundStates, hstates]; exact h.pairwise, fun _ s hs => ?_⟩
      rw [roundStates, hstates] at hs
      rw [hupdate _ _ _ hok]
      exact h.below hrunning s hs
    rw [heq, advance]
    split
    · have hfinal : ∀ calls : List (Call σ μ),
          (calls ++ [Call.finalize s']).filterMap Call.rounded = calls.filterMap Call.rounded := by
        simp [Call.rounded]
      rcases performFinalize_cases P
        (⟨s', e.sent, e.calls ++ [.update e.protocol message], .running⟩ : Execution σ μ) with
        ⟨_, _, -, heq⟩ | ⟨_, -, heq⟩ | ⟨-, heq⟩
      · rw [heq]
        exact ⟨by rw [roundStates, hfinal]; exact hupdated.pairwise, by simp⟩
      · rw [heq]
        exact ⟨by rw [roundStates, hfinal]; exact hupdated.pairwise, by simp⟩
      · rw [heq]
        exact ⟨by rw [roundStates, hfinal]; exact hupdated.pairwise, by simp⟩
    · split
      · exact hupdated.performRound rfl hround
      · exact hupdated
  · rw [heq]
    exact ⟨by rw [roundStates, hstates]; exact h.pairwise, by simp⟩
  · rw [heq]
    exact ⟨by rw [roundStates, hstates]; exact h.pairwise, by simp⟩

variable (rng) in
/-- A number that updates leave alone and rounds make larger puts the rounds of a run in order. -/
theorem inOrder_run (hupdate : ∀ s m s', P.update s m = .ok s' → number s' = number s)
    (hround : ∀ s d m s', P.doRound s d = .ok (m, s') → number s < number s') (protocol : σ)
    (messages : List μ) : InOrder number (run P rng protocol messages) := by
  apply run_induction
  · have hnone : InOrder number (⟨protocol, [], [], .running⟩ : Execution σ μ) :=
      ⟨List.Pairwise.nil, fun _ s hs => absurd hs List.not_mem_nil⟩
    exact hnone.performRound rfl hround
  · intro e message _ hrunning h
    exact h.onMessage hrunning hupdate hround message

end Execution

end QuorumCrypt
