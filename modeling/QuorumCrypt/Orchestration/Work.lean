import QuorumCrypt.Orchestration.OneRound
import Mathlib.Algebra.BigOperators.Group.Finset.Basic

/-!
# What a node has to do

Left alone, a node has only so much to do. Every step that its tasks take of themselves uses up a part of
it: a command that is handled, a message that moves on towards its executor, an executor that starts, sends
or reports. Only a task that tries again to send on a full channel leaves it as it was.

An executor sends twice at most: the protocols of one round once, and FROST once in each of its rounds.
-/

namespace QuorumCrypt

open Rust

/-! ### What an execution sends -/

namespace Execution

variable {σ μ ρ : Type} {P : ThresholdRoundProtocol σ μ ρ} {rng : ℕ → ρ}
  {fromStr : String → Outcome Unit μ}

variable (P rng) in
theorem length_sent_le_performRound (e : Execution σ μ) :
    e.sent.length ≤ (e.performRound P rng).sent.length
      ∧ (e.performRound P rng).sent.length ≤ e.sent.length + 1 := by
  rcases performRound_cases P rng e with ⟨message, protocol, -, heq⟩ | ⟨error, -, heq⟩ | ⟨-, heq⟩
  · rw [heq]
    dsimp only
    split
    · exact ⟨le_rfl, Nat.le_succ _⟩
    · rw [List.length_append, List.length_singleton]
      exact ⟨Nat.le_succ _, le_rfl⟩
  · rw [heq]
    exact ⟨le_rfl, Nat.le_succ _⟩
  · rw [heq]
    exact ⟨le_rfl, Nat.le_succ _⟩

theorem sent_performFinalize (e : Execution σ μ) : (e.performFinalize P).sent = e.sent := by
  rcases performFinalize_cases P e with ⟨result, protocol, -, heq⟩ | ⟨error, -, heq⟩ | ⟨-, heq⟩
  all_goals rw [heq]

/-- A turn takes nothing back. -/
theorem length_sent_le_onMessage (e : Execution σ μ) (message : μ) :
    e.sent.length ≤ (onMessage P rng e message).sent.length := by
  by_cases hrunning : e.status = .running
  · rcases onMessage_of_running P rng hrunning message with
      ⟨protocol, -, heq⟩ | ⟨error, -, heq⟩ | ⟨-, heq⟩
    · rw [heq, advance]
      split
      · rw [sent_performFinalize]
      · split
        · exact (length_sent_le_performRound P rng ⟨protocol, e.sent, _, .running⟩).1
        · exact le_rfl
    · rw [heq]
    · rw [heq]
  · rw [onMessage, if_pos hrunning]

theorem length_sent_le_runPayloads (protocol : σ) (payloads : List Bytes) (payload : Bytes) :
    (runPayloads P rng fromStr protocol payloads).sent.length
      ≤ (runPayloads P rng fromStr protocol (payloads ++ [payload])).sent.length := by
  rw [runPayloads, runPayloads, List.foldl_append]
  change _ ≤ (onPayload P rng fromStr (payloads.foldl _ _) payload).sent.length
  rw [onPayload]
  split
  · exact le_rfl
  · split
    · exact length_sent_le_onMessage _ _
    · exact le_rfl

/-- What comes after a send has sent more. -/
theorem length_sent_lt_of_reactTo {wire : Wire μ} {instanceId : String} {protocol : σ}
    {taken : List NetMessage} {m message : NetMessage}
    (h : reactTo P rng wire instanceId protocol (taken ++ [m]) = .send message) :
    (runPayloads P rng wire.fromStr protocol (taken.map NetMessage.messageData)).sent.length
      < (runPayloads P rng wire.fromStr protocol
        ((taken ++ [m]).map NetMessage.messageData)).sent.length := by
  have hne : (taken ++ [m]).map NetMessage.messageData ≠ [] := by simp
  have hlast : ((taken ++ [m]).map NetMessage.messageData).dropLast
      = taken.map NetMessage.messageData := by
    rw [List.map_append, List.map_singleton, List.dropLast_concat]
  rw [reactTo, if_neg hne, hlast, reaction] at h
  split at h
  · cases h
  · cases h
  · cases h
  · split at h
    · cases h
    · rename_i rest hdrop
      by_contra hle
      rw [List.drop_eq_nil_of_le (Nat.not_lt.mp hle)] at hdrop
      cases hdrop

theorem length_sent_pos_of_reactTo {wire : Wire μ} {instanceId : String} {protocol : σ}
    {message : NetMessage} (h : reactTo P rng wire instanceId protocol [] = .send message) :
    0 < (runPayloads P rng wire.fromStr protocol []).sent.length := by
  obtain ⟨-, m, hsent, -⟩ := of_reactTo_eq_send h
  exact List.length_pos_of_mem hsent

end Execution

variable {K : Curves} {S : Type}

/-- The first round of a protocol of one round sends the own share, and the others send nothing. -/
theorem ShareRound.sent_runPayloads (P : ShareRound S) (rng : ℕ → Drawn)
    (fromStr : String → Outcome Unit (ShareMessage S)) (payloads : List Bytes) :
    (Execution.runPayloads P.protocol rng fromStr (.new S) payloads).sent = []
      ∨ ∃ own, P.ownShare (rng 0) = .ok own
        ∧ (Execution.runPayloads P.protocol rng fromStr (.new S) payloads).sent = [.share own] := by
  by_cases hown : ∃ own, P.ownShare (rng 0) = .ok own
  · obtain ⟨own, hown⟩ := hown
    have hinv : RunInv P own (Execution.runPayloads P.protocol rng fromStr (ShareState.new S) payloads) :=
      Execution.runPayloads_induction (runInv_start hown) (fun _ hinv => hinv.panicked)
        (fun _ message hrunning hinv => hinv.onMessage hrunning message) payloads
    exact .inr ⟨own, hown, hinv.sent⟩
  · left
    obtain ⟨status, hstopped, -, heq⟩ := run_of_ownShare_ne (not_exists.mp hown) []
    have hstart : Execution.start P.protocol rng (ShareState.new S) = P.run rng [] := rfl
    have hstatus : (Execution.start P.protocol rng (ShareState.new S)).status ≠ .running := by
      rw [hstart, heq]
      exact hstopped
    rw [Execution.runPayloads_of_stopped hstatus, hstart, heq]

namespace FrostProtocol

variable {c : Curve} {E : Primitives} {hash : FrostHashes} {orders : FrostOrders K}
  {rng : ℕ → ℕ → Bytes × Bytes} {fromStr : String → Outcome Unit (FrostMessage K)}

/-- There are two rounds, and each sends one message at most. -/
theorem length_sent_le (init : FrostProtocol K c) (payloads : List Bytes) :
    (Execution.runPayloads (protocol E hash orders c) rng fromStr init payloads).sent.length ≤ 2 := by
  let P := protocol E hash orders c
  let motive : Execution (FrostProtocol K c) (FrostMessage K) → Prop := fun e =>
    e.sent.length ≤ 2 ∧ (e.status = .running → e.sent.length ≤ e.protocol.round)
  have hround : ∀ e, e.status = .running → motive e → motive (e.performRound P rng) := by
    intro e hrunning hmotive
    obtain ⟨htwo, hle⟩ := hmotive
    have hsent := (Execution.length_sent_le_performRound P rng e).2
    rcases Execution.performRound_cases P rng e with
      ⟨message, state, hok, heq⟩ | ⟨error, -, heq⟩ | ⟨-, heq⟩
    · have hdone : state.round = e.protocol.round + 1 := round_doRound hok
      have hlt : e.protocol.round < 2 := by
        by_contra hlate
        change doRound hash orders e.protocol _ = _ at hok
        unfold doRound at hok
        split at hok
        · omega
        · omega
        · cases hok
      have hle := hle hrunning
      have hprotocol : (e.performRound P rng).protocol = state := by rw [heq]
      refine ⟨by omega, fun _ => ?_⟩
      rw [hprotocol]
      omega
    · rw [heq]
      exact ⟨htwo, fun h => by cases h⟩
    · rw [heq]
      exact ⟨htwo, fun h => by cases h⟩
  have hrun : motive (Execution.runPayloads P rng fromStr init payloads) := by
    refine Execution.runPayloads_induction ?_ ?_ ?_ payloads
    · exact hround _ rfl ⟨Nat.zero_le _, fun _ => Nat.zero_le _⟩
    · exact fun e hmotive => ⟨hmotive.1, fun h => by cases h⟩
    · intro e message hrunning hmotive
      obtain ⟨htwo, hle⟩ := hmotive
      rcases Execution.onMessage_of_running P rng hrunning message with
        ⟨state, hupdate, heq⟩ | ⟨error, -, heq⟩ | ⟨-, heq⟩
      · have hsame : state.round = e.protocol.round := round_update hupdate
        have hupdated : motive ⟨state, e.sent, e.calls ++ [.update e.protocol message], .running⟩ :=
          ⟨htwo, fun _ => by rw [hsame]; exact hle hrunning⟩
        rw [heq, Execution.advance]
        split
        · have hsent := Execution.sent_performFinalize (P := P)
            ⟨state, e.sent, e.calls ++ [.update e.protocol message], .running⟩
          refine ⟨by rw [hsent]; exact htwo, fun hfinalized => ?_⟩
          rcases Execution.performFinalize_cases P
            ⟨state, e.sent, e.calls ++ [.update e.protocol message], .running⟩ with
            ⟨_, _, -, heq⟩ | ⟨_, -, heq⟩ | ⟨-, heq⟩
          all_goals
            rw [heq] at hfinalized
            cases hfinalized
        · split
          · exact hround _ rfl hupdated
          · exact hupdated
      · rw [heq]
        exact ⟨htwo, fun h => by cases h⟩
      · rw [heq]
        exact ⟨htwo, fun h => by cases h⟩
  exact hrun.1

end FrostProtocol

/-- The number of messages that an executor has sent when it has taken these. -/
def Spawned.sentBy (ctx : ProtocolContext K) (executor : ℕ) (self : Spawned K)
    (taken : List NetMessage) : ℕ :=
  let payloads := taken.map NetMessage.messageData
  match self.protocol with
  | .cipher privateKey ciphertext =>
      (Execution.runPayloads (ThresholdCipherProtocol ctx.primitives privateKey ciphertext).protocol
        (ctx.draws executor) ctx.decryptionWire.fromStr (.new _) payloads).sent.length
  | .signature privateKey message label =>
      (Execution.runPayloads (ThresholdSignatureProtocol ctx.primitives privateKey message label).protocol
        (ctx.draws executor) ctx.signatureWire.fromStr (.new _) payloads).sent.length
  | .coin privateKey name =>
      (Execution.runPayloads (ThresholdCoinProtocol ctx.primitives privateKey name).protocol
        (ctx.draws executor) ctx.coinWire.fromStr (.new _) payloads).sent.length
  | .frost c state =>
      (Execution.runPayloads (FrostProtocol.protocol ctx.primitives ctx.hashes ctx.orders c)
        (ctx.nonces executor) ctx.frostWire.fromStr state payloads).sent.length

section Sends

variable {ctx : ProtocolContext K} {executor : ℕ} {spawned : Spawned K} {taken : List NetMessage}
  {m message : NetMessage}

theorem Spawned.sentBy_le_two : spawned.sentBy ctx executor taken ≤ 2 := by
  have hround : ∀ {S : Type} (P : ShareRound S) (rng : ℕ → Drawn)
      (fromStr : String → Outcome Unit (ShareMessage S)) (payloads : List Bytes),
      (Execution.runPayloads P.protocol rng fromStr (.new S) payloads).sent.length ≤ 2 := by
    intro S P rng fromStr payloads
    rcases ShareRound.sent_runPayloads P rng fromStr payloads with heq | ⟨own, -, heq⟩
    · simp [heq]
    · simp [heq]
  unfold sentBy
  dsimp only
  split
  · exact hround _ _ _ _
  · exact hround _ _ _ _
  · exact hround _ _ _ _
  · exact FrostProtocol.length_sent_le _ _

theorem Spawned.sentBy_le_append :
    spawned.sentBy ctx executor taken ≤ spawned.sentBy ctx executor (taken ++ [m]) := by
  unfold sentBy
  rw [List.map_append, List.map_singleton]
  dsimp only
  split
  all_goals exact Execution.length_sent_le_runPayloads _ _ _

theorem Spawned.sentBy_lt_append (h : spawned.react ctx executor (taken ++ [m]) = .send message) :
    spawned.sentBy ctx executor taken < spawned.sentBy ctx executor (taken ++ [m]) := by
  unfold react at h
  unfold sentBy
  cases hprotocol : spawned.protocol
  all_goals
    simp only [hprotocol] at h
    exact Execution.length_sent_lt_of_reactTo h

theorem Spawned.sentBy_pos (h : spawned.react ctx executor [] = .send message) :
    0 < spawned.sentBy ctx executor [] := by
  unfold react at h
  unfold sentBy
  cases hprotocol : spawned.protocol
  all_goals
    simp only [hprotocol] at h
    exact Execution.length_sent_pos_of_reactTo h

end Sends

/-! ### What there is to do -/

namespace ExecutorTask

/-- A send is worth more than the way of a message, from the executor to all that it can come to. -/
def work (sent : ℕ) : ExecutorTask → ℕ
  | absent => 0
  | starting => 20
  | receiving => 3 + 8 * (2 - sent)
  | sending _ => 10 + 8 * (2 - sent)
  | reporting _ => 2
  | ended => 0

end ExecutorTask

def Reaction.work (sent : ℕ) : Reaction → ℕ
  | receive => 3 + 8 * (2 - sent)
  | send _ => 10 + 8 * (2 - sent)
  | finish _ => 2
  | panic => 0

/-- A command may start an executor. -/
def ManagerEvent.work : ManagerEvent K → ℕ
  | command _ _ => 21
  | _ => 1

def ManagerTask.work : ManagerTask → ℕ
  | sending _ _ => 3
  | _ => 0

def NetworkTask.work : NetworkTask → ℕ
  | sending _ => 5
  | _ => 0

@[simp] theorem ManagerTask.work_waiting : ManagerTask.waiting.work = 0 := rfl

@[simp] theorem ManagerTask.work_ended : ManagerTask.ended.work = 0 := rfl

@[simp] theorem ManagerTask.work_sending (executor : ℕ) (message : NetMessage) :
    (ManagerTask.sending executor message).work = 3 := rfl

@[simp] theorem NetworkTask.work_waiting : NetworkTask.waiting.work = 0 := rfl

@[simp] theorem NetworkTask.work_sending (message : NetMessage) :
    (NetworkTask.sending message).work = 5 := rfl

namespace Server

variable (ctx : ServerContext K)

def sentBy (server : Server K) (executor : ℕ) (taken : List NetMessage) : ℕ :=
  (server.manager.spawned[executor]?).elim 0 fun spawned => spawned.sentBy ctx.protocols executor taken

def executorWork (server : Server K) (executor : ℕ) : ℕ :=
  (server.tasks executor).work (server.sentBy ctx executor (server.taken executor))
    + 2 * (server.flushing executor).length + (server.channels executor).length

def executorsWork (server : Server K) : ℕ :=
  ∑ executor ∈ Finset.range server.manager.spawned.length, server.executorWork ctx executor

def backlogWork (server : Server K) : ℕ :=
  HashMap.total (fun data => data.messages.length) server.manager.backlog

/-- What the tasks of a node have to do, for all that is there. -/
def work (server : Server K) : ℕ :=
  (server.clients.map fun event => event.work + 1).sum + (server.commands.map ManagerEvent.work).sum
    + 6 * server.outgoing.length + server.networkTask.work + 4 * server.incoming.length
    + 3 * server.backlogWork + server.managerTask.work + server.executorsWork ctx

variable {ctx} {self self' : Server K} {executor : ℕ} {message : NetMessage}

/-- Only one executor has something else to do. -/
theorem executorsWork_of_eq_off (hspawned : self'.manager.spawned.length = self.manager.spawned.length)
    (hlt : executor < self.manager.spawned.length)
    (hoff : ∀ other, other ≠ executor → self'.executorWork ctx other = self.executorWork ctx other) :
    self'.executorsWork ctx + self.executorWork ctx executor
      = self.executorsWork ctx + self'.executorWork ctx executor := by
  have hmem : executor ∈ Finset.range self.manager.spawned.length := Finset.mem_range.mpr hlt
  have hrest : ∑ other ∈ (Finset.range self.manager.spawned.length).erase executor,
        self'.executorWork ctx other
      = ∑ other ∈ (Finset.range self.manager.spawned.length).erase executor,
        self.executorWork ctx other :=
    Finset.sum_congr rfl fun other hother => hoff other (Finset.ne_of_mem_erase hother)
  rw [executorsWork, executorsWork, hspawned, ← Finset.sum_erase_add _ _ hmem,
    ← Finset.sum_erase_add _ (self.executorWork ctx) hmem, hrest]
  exact Nat.add_right_comm _ _ _

variable (ctx) in
theorem executorsWork_setTask (hlt : executor < self.manager.spawned.length) (task : ExecutorTask) :
    (self.setTask executor task).executorsWork ctx
        + (self.tasks executor).work (self.sentBy ctx executor (self.taken executor))
      = self.executorsWork ctx + task.work (self.sentBy ctx executor (self.taken executor)) := by
  have hoff : ∀ other, other ≠ executor →
      (self.setTask executor task).executorWork ctx other = self.executorWork ctx other := by
    intro other hne
    simp only [executorWork, setTask, Function.update_of_ne hne]
    rfl
  have hsum : (self.setTask executor task).executorsWork ctx + self.executorWork ctx executor
      = self.executorsWork ctx + (self.setTask executor task).executorWork ctx executor :=
    executorsWork_of_eq_off rfl hlt hoff
  have hself : (self.setTask executor task).executorWork ctx executor
      = task.work (self.sentBy ctx executor (self.taken executor))
        + 2 * (self.flushing executor).length + (self.channels executor).length := by
    simp only [executorWork, setTask, Function.update_self]
    rfl
  rw [hself, executorWork] at hsum
  omega

variable (ctx) in
theorem work_setTask (hlt : executor < self.manager.spawned.length) (task : ExecutorTask) :
    (self.setTask executor task).work ctx
        + (self.tasks executor).work (self.sentBy ctx executor (self.taken executor))
      = self.work ctx + task.work (self.sentBy ctx executor (self.taken executor)) := by
  have hsum := executorsWork_setTask ctx hlt task
  simp only [work, setTask, backlogWork] at hsum ⊢
  omega

variable (ctx) in
/-- What a message adds to a channel. -/
theorem executorsWork_push_le (self : Server K) (executor : ℕ) (message : NetMessage) :
    (self.push executor message).executorsWork ctx ≤ self.executorsWork ctx + 1 := by
  have hoff : ∀ other, other ≠ executor →
      (self.push executor message).executorWork ctx other = self.executorWork ctx other := by
    intro other hne
    simp only [executorWork, push, Function.update_of_ne hne]
    rfl
  by_cases hlt : executor < self.manager.spawned.length
  · have hsum : (self.push executor message).executorsWork ctx + self.executorWork ctx executor
        = self.executorsWork ctx + (self.push executor message).executorWork ctx executor :=
      executorsWork_of_eq_off rfl hlt hoff
    have hself : (self.push executor message).executorWork ctx executor
        = self.executorWork ctx executor + 1 := by
      simp only [executorWork, push, Function.update_self, List.length_append, List.length_singleton]
      rfl
    omega
  · refine Nat.le_succ_of_le (Finset.sum_le_sum fun other hother => (hoff other ?_).le)
    rintro rfl
    exact hlt (Finset.mem_range.mp hother)

variable (ctx) in
theorem work_append_outgoing (self : Server K) (message : NetMessage) :
    ({ self with outgoing := self.outgoing ++ [message] } : Server K).work ctx = self.work ctx + 6 := by
  have hsame : ({ self with outgoing := self.outgoing ++ [message] } : Server K).executorsWork ctx
      = self.executorsWork ctx := rfl
  simp only [work, backlogWork, hsame, List.length_append, List.length_singleton]
  omega

variable (ctx) in
theorem work_append_commands (self : Server K) (event : ManagerEvent K) :
    ({ self with commands := self.commands ++ [event] } : Server K).work ctx
      = self.work ctx + event.work := by
  have hsame : ({ self with commands := self.commands ++ [event] } : Server K).executorsWork ctx
      = self.executorsWork ctx := rfl
  simp only [work, backlogWork, hsame, List.map_append, List.sum_append, List.map_singleton,
    List.sum_singleton]
  omega

variable (ctx) in
/-- An executor that does what follows from a message. -/
theorem work_perform (hlt : executor < self.manager.spawned.length) (reaction : Reaction) :
    (self.perform executor reaction).work ctx
        + (self.tasks executor).work (self.sentBy ctx executor (self.taken executor))
      ≤ self.work ctx + reaction.work (self.sentBy ctx executor (self.taken executor)) := by
  have hwork : ∀ task, (self.setTask executor task).work ctx
        + (self.tasks executor).work (self.sentBy ctx executor (self.taken executor))
      = self.work ctx + task.work (self.sentBy ctx executor (self.taken executor)) :=
    work_setTask ctx hlt
  obtain ⟨after, hafter⟩ : ∃ after, after = self.perform executor reaction := ⟨_, rfl⟩
  have hperformed := performed_perform self executor reaction
  rw [← hafter] at hperformed ⊢
  cases hperformed with
  | receives => exact (hwork .receiving).le
  | panics => exact (hwork .ended).le
  | unsent _ =>
      rw [hwork]
      exact Nat.add_le_add_left (Nat.zero_le _) _
  | blocked _ _ => exact (hwork (.sending _)).le
  | @sent message _ _ =>
      have hreceiving := hwork .receiving
      have hsent := work_append_outgoing ctx (self.setTask executor .receiving) message
      change Server.work ctx { self.setTask executor .receiving with
        outgoing := (self.setTask executor .receiving).outgoing ++ [message] } + _ ≤ _
      simp only [ExecutorTask.work, Reaction.work] at hreceiving ⊢
      omega
  | lost _ =>
      rw [hwork]
      exact Nat.add_le_add_left (Nat.zero_le _) _
  | waits _ _ => exact (hwork (.reporting _)).le
  | @reported result _ _ =>
      have hended := hwork .ended
      have hreported := work_append_commands ctx (self.setTask executor .ended)
        (.terminated executor result)
      change Server.work ctx { self.setTask executor .ended with
        commands := (self.setTask executor .ended).commands ++ [.terminated executor result] } + _ ≤ _
      simp only [ExecutorTask.work, Reaction.work, ManagerEvent.work] at hended hreported ⊢
      omega

/-! ### Every step uses up some of it -/

section Sends

variable (ctx self executor message)

theorem work_managerTask (task : ManagerTask) :
    ({ self with managerTask := task } : Server K).work ctx + self.managerTask.work
      = self.work ctx + task.work := by
  have hsame : ({ self with managerTask := task } : Server K).executorsWork ctx
      = self.executorsWork ctx := rfl
  simp only [work, backlogWork, hsame]
  omega

theorem work_networkTask (task : NetworkTask) :
    ({ self with networkTask := task } : Server K).work ctx + self.networkTask.work
      = self.work ctx + task.work := by
  have hsame : ({ self with networkTask := task } : Server K).executorsWork ctx
      = self.executorsWork ctx := rfl
  simp only [work, backlogWork, hsame]
  omega

theorem work_push_le : (self.push executor message).work ctx ≤ self.work ctx + 1 := by
  have hpush := executorsWork_push_le ctx self executor message
  simp only [work, push, backlogWork] at hpush ⊢
  omega

/-- A send of the manager, with nothing in its hands before. -/
theorem work_sendMessage :
    (self.sendMessage executor message = { self with managerTask := .sending executor message }
      ∨ (self.sendMessage executor message).work ctx + self.managerTask.work ≤ self.work ctx + 1) := by
  unfold sendMessage
  split
  · have hwait := work_managerTask ctx self .waiting
    rw [ManagerTask.work_waiting] at hwait
    exact .inr (by omega)
  · split
    · exact .inl rfl
    · have hwait := work_managerTask ctx (self.push executor message) .waiting
      have hpush := work_push_le ctx self executor message
      have htask : (self.push executor message).managerTask = self.managerTask := rfl
      rw [ManagerTask.work_waiting, htask] at hwait
      right
      dsimp only at hwait ⊢
      omega

theorem work_forward :
    (self.forward message = { self with networkTask := .sending message }
      ∨ (self.forward message).work ctx + self.networkTask.work ≤ self.work ctx + 4) := by
  unfold forward
  split
  · have hwait := work_networkTask ctx self .waiting
    rw [NetworkTask.work_waiting] at hwait
    exact .inr (by omega)
  · split
    · exact .inl rfl
    · right
      have hsame : ({ self with networkTask := .waiting, incoming := self.incoming ++ [message] } :
          Server K).executorsWork ctx = self.executorsWork ctx := rfl
      simp only [work, backlogWork, hsame, List.length_append, List.length_singleton,
        NetworkTask.work_waiting]
      omega

end Sends

theorem executorsWork_congr (hspawned : self'.manager.spawned = self.manager.spawned)
    (htasks : self'.tasks = self.tasks) (htaken : self'.taken = self.taken)
    (hflushing : self'.flushing = self.flushing) (hchannels : self'.channels = self.channels) :
    self'.executorsWork ctx = self.executorsWork ctx := by
  simp only [executorsWork, executorWork, sentBy, hspawned, htasks, htaken, hflushing, hchannels]

theorem work_onClientResumes (h : self.onClientResumes = some self') : self'.work ctx < self.work ctx := by
  unfold onClientResumes at h
  split at h
  · cases h
  · rename_i event clients hclients
    have hsame : ∀ commands, ({ self with clients, commands } : Server K).executorsWork ctx
        = self.executorsWork ctx := fun _ => rfl
    split at h
    · obtain rfl := Option.some.inj h
      have hsame' : ({ self with clients } : Server K).executorsWork ctx = self.executorsWork ctx := rfl
      simp only [work, backlogWork, hsame', hclients, List.map_cons, List.sum_cons]
      omega
    · split at h
      · cases h
      · obtain rfl := Option.some.inj h
        simp only [work, backlogWork, hsame, hclients, List.map_cons, List.sum_cons, List.map_append,
          List.sum_append, List.map_nil, List.sum_nil]
        omega

/-- A message that the manager takes moves on, or it is dropped. -/
theorem work_onManagerMessage (h : self.onManagerMessage = some self') :
    self'.work ctx < self.work ctx := by
  unfold onManagerMessage at h
  split at h
  · rename_i message incoming htask hincoming
    -- the next state, but for what the manager has in its hands
    set next : Server K := { self with incoming, manager := self.manager.onNetMessage message } with hnext
    have hexecutors : next.executorsWork ctx = self.executorsWork ctx :=
      executorsWork_congr (InstanceManager.spawned_onNetMessage message) rfl rfl rfl rfl
    by_cases hmem : message.instanceId ∈ self.manager.instances.instanceData
    · have hbacklog : next.backlogWork = self.backlogWork := by
        rw [backlogWork, backlogWork, hnext]
        obtain ⟨inst, hinst⟩ := Option.isSome_iff_exists.mp (AList.lookup_isSome.mpr hmem)
        rw [InstanceManager.onNetMessage, hinst]
        dsimp only
        split <;> rfl
      have hwork : next.work ctx + 4 = self.work ctx := by
        simp only [work, hexecutors, hbacklog, hincoming, List.length_cons]
        simp only [hnext]
        omega
      split at h
      · obtain rfl := Option.some.inj h
        omega
      · rename_i executor _
        obtain rfl := Option.some.inj h
        rcases work_sendMessage ctx next executor message with heq | hle
        · have hsending := work_managerTask ctx next (.sending executor message)
          have hwaiting : next.managerTask = .waiting := htask
          rw [hwaiting, ManagerTask.work_waiting, ManagerTask.work_sending] at hsending
          rw [heq]
          omega
        · omega
    · have hnone : self.manager.recipient message.instanceId = none := by
        rw [InstanceManager.recipient, AList.lookup_eq_none.mpr hmem, Option.bind_none]
      have hbacklog : next.backlogWork = self.backlogWork + 1 := by
        rw [backlogWork, backlogWork, hnext]
        rw [InstanceManager.onNetMessage, AList.lookup_eq_none.mpr hmem]
        dsimp only
        have htotal := HashMap.total_insert (fun data : BacklogData => data.messages.length)
          self.manager.backlog message.instanceId
        cases hlookup : self.manager.backlog.lookup message.instanceId with
        | none =>
            have hnew := htotal ⟨[message], false⟩
            rw [hlookup] at hnew
            exact hnew
        | some data =>
            have hmore := htotal { data with messages := data.messages ++ [message] }
            rw [hlookup] at hmore
            simp only [Option.elim_some, List.length_append, List.length_singleton] at hmore
            dsimp only
            omega
      rw [hnone] at h
      obtain rfl := Option.some.inj h
      simp only [work, hexecutors, hbacklog, hincoming, List.length_cons]
      simp only [hnext]
      omega
  · cases h

theorem work_onManagerResumes (h : self.onManagerResumes = some self') (hne : self' ≠ self) :
    self'.work ctx < self.work ctx := by
  unfold onManagerResumes at h
  split at h
  · rename_i executor message htask
    obtain rfl := Option.some.inj h
    rcases work_sendMessage ctx self executor message with heq | hle
    · exact absurd (by rw [heq, ← htask]) hne
    · rw [htask, ManagerTask.work_sending] at hle
      omega
  · cases h

theorem work_onNetworkOutgoing (h : self.onNetworkOutgoing = some self') :
    self'.work ctx < self.work ctx := by
  unfold onNetworkOutgoing at h
  split at h
  · rename_i message outgoing htask houtgoing
    obtain rfl := Option.some.inj h
    set next : Server K := { self with outgoing } with hnext
    have hwork : next.work ctx + 6 = self.work ctx := by
      have hsame : next.executorsWork ctx = self.executorsWork ctx := rfl
      simp only [work, hsame, houtgoing, List.length_cons]
      simp only [hnext, backlogWork]
      omega
    have hwaiting : next.networkTask = .waiting := htask
    rcases work_forward ctx next message with heq | hle
    · have hsending := work_networkTask ctx next (.sending message)
      rw [hwaiting, NetworkTask.work_waiting, NetworkTask.work_sending] at hsending
      rw [heq]
      omega
    · omega
  · cases h

theorem work_onNetworkResumes (h : self.onNetworkResumes = some self') (hne : self' ≠ self) :
    self'.work ctx < self.work ctx := by
  unfold onNetworkResumes at h
  split at h
  · rename_i message htask
    obtain rfl := Option.some.inj h
    rcases work_forward ctx self message with heq | hle
    · exact absurd (by rw [heq, ← htask]) hne
    · rw [htask, NetworkTask.work_sending] at hle
      omega
  · cases h

section Executors

variable {taken : List NetMessage} {m : NetMessage}

variable (ctx self executor taken) in
theorem sentBy_le_two : self.sentBy ctx executor taken ≤ 2 := by
  unfold sentBy
  cases self.manager.spawned[executor]? with
  | none => exact Nat.zero_le _
  | some spawned => exact Spawned.sentBy_le_two

variable (ctx self executor taken m) in
theorem sentBy_le_append : self.sentBy ctx executor taken ≤ self.sentBy ctx executor (taken ++ [m]) := by
  unfold sentBy
  cases self.manager.spawned[executor]? with
  | none => exact le_rfl
  | some spawned => exact Spawned.sentBy_le_append

theorem sentBy_lt_append (h : self.reactionOf ctx executor (taken ++ [m]) = .send message) :
    self.sentBy ctx executor taken < self.sentBy ctx executor (taken ++ [m]) := by
  unfold reactionOf at h
  unfold sentBy
  cases hspawned : self.manager.spawned[executor]? with
  | none =>
      rw [hspawned] at h
      cases h
  | some spawned =>
      rw [hspawned] at h
      exact Spawned.sentBy_lt_append h

theorem sentBy_pos (h : self.reactionOf ctx executor [] = .send message) :
    0 < self.sentBy ctx executor [] := by
  unfold reactionOf at h
  unfold sentBy
  cases hspawned : self.manager.spawned[executor]? with
  | none =>
      rw [hspawned] at h
      cases h
  | some spawned =>
      rw [hspawned] at h
      exact Spawned.sentBy_pos h

theorem work_onExecutorStarts (htrack : self.OnTrack ctx executor)
    (h : self.onExecutorStarts ctx executor = some self') : self'.work ctx < self.work ctx := by
  unfold onExecutorStarts at h
  split at h
  · rename_i htask
    obtain rfl := Option.some.inj h
    simp only [OnTrack, htask] at htrack
    obtain ⟨hlt, htaken⟩ := htrack
    have hperform := work_perform ctx hlt (self.reactionOf ctx executor [])
    rw [htask, htaken] at hperform
    have hreaction : (self.reactionOf ctx executor []).work (self.sentBy ctx executor []) < 20 := by
      cases hcase : self.reactionOf ctx executor [] with
      | receive => simp only [Reaction.work]; omega
      | send message =>
          have hpos := sentBy_pos hcase
          simp only [Reaction.work]
          omega
      | finish result => simp [Reaction.work]
      | panic => simp [Reaction.work]
    simp only [ExecutorTask.work] at hperform
    omega
  · cases h

theorem work_onExecutorTakes (htrack : self.OnTrack ctx executor)
    (h : self.onExecutorTakes ctx executor = some self') : self'.work ctx < self.work ctx := by
  unfold onExecutorTakes at h
  split at h
  · rename_i message rest htask hchannel
    obtain rfl := Option.some.inj h
    simp only [OnTrack, htask] at htrack
    obtain ⟨hlt, -⟩ := htrack
    set next : Server K := { self with
      taken := Function.update self.taken executor (self.taken executor ++ [message])
      channels := Function.update self.channels executor rest } with hnext
    have htaken : next.taken executor = self.taken executor ++ [message] := Function.update_self _ _ _
    have hlt' : executor < next.manager.spawned.length := hlt
    have hperform := work_perform ctx hlt'
      (self.reactionOf ctx executor (self.taken executor ++ [message]))
    -- what it has sent before is paid for
    have hsum : next.executorsWork ctx + self.executorWork ctx executor
        = self.executorsWork ctx + next.executorWork ctx executor := by
      refine executorsWork_of_eq_off rfl hlt fun other hne => ?_
      simp only [executorWork, hnext, Function.update_of_ne hne]
      rfl
    have hwork : next.work ctx + self.executorWork ctx executor
        = self.work ctx + next.executorWork ctx executor := by
      simp only [work]
      simp only [hnext, backlogWork] at hsum ⊢
      omega
    have hsent : next.sentBy ctx executor = self.sentBy ctx executor := rfl
    have hchannel' : next.channels executor = rest := Function.update_self _ _ _
    have htask' : next.tasks executor = .receiving := htask
    have hflushing : next.flushing = self.flushing := rfl
    have hmono := sentBy_le_append ctx self executor (self.taken executor) message
    have htwo := sentBy_le_two ctx self executor (self.taken executor ++ [message])
    rw [htaken, hsent, htask'] at hperform
    simp only [executorWork, htaken, hsent, htask, htask', hchannel, hchannel', hflushing,
      ExecutorTask.work, List.length_cons] at hwork hperform
    cases hcase : self.reactionOf ctx executor (self.taken executor ++ [message]) with
    | send message' =>
        have hlt := sentBy_lt_append hcase
        rw [hcase] at hperform
        simp only [Reaction.work] at hperform
        omega
    | _ =>
        rw [hcase] at hperform
        simp only [Reaction.work] at hperform
        omega
  · cases h

theorem work_onExecutorResumes (htrack : self.OnTrack ctx executor)
    (h : self.onExecutorResumes executor = some self') (hne : self' ≠ self) :
    self'.work ctx < self.work ctx := by
  have hself : ∀ task, self.tasks executor = task → self.setTask executor task = self := by
    rintro _ rfl
    rw [setTask, Function.update_eq_self]
  unfold onExecutorResumes at h
  split at h
  · rename_i message htask
    simp only [OnTrack, htask] at htrack
    have hset := fun task => work_setTask ctx htrack.1 task
    simp only [htask, ExecutorTask.work] at hset
    have hperformed := performed_perform self executor (.send message)
    rw [Option.some.inj h] at hperformed
    cases hperformed with
    | unsent _ =>
        have hended := hset .ended
        dsimp only at hended
        omega
    | blocked _ _ => exact absurd (hself _ htask) hne
    | sent _ _ =>
        have hreceiving := hset .receiving
        have hsent := work_append_outgoing ctx (self.setTask executor .receiving) message
        change Server.work ctx { self.setTask executor .receiving with
          outgoing := (self.setTask executor .receiving).outgoing ++ [message] } < _
        dsimp only at hreceiving hsent ⊢
        omega
  · rename_i result htask
    simp only [OnTrack, htask] at htrack
    have hset := fun task => work_setTask ctx htrack.1 task
    simp only [htask, ExecutorTask.work] at hset
    have hended := hset .ended
    dsimp only at hended
    have hperformed := performed_perform self executor (.finish result)
    rw [Option.some.inj h] at hperformed
    cases hperformed with
    | lost _ => omega
    | waits _ _ => exact absurd (hself _ htask) hne
    | reported _ _ =>
        have hreported := work_append_commands ctx (self.setTask executor .ended)
          (.terminated executor result)
        change Server.work ctx { self.setTask executor .ended with
          commands := (self.setTask executor .ended).commands ++ [.terminated executor result] } < _
        dsimp only [ManagerEvent.work] at hreported ⊢
        omega
  · cases h

theorem work_onExecutorCloses (htrack : self.OnTrack ctx executor)
    (h : self.onExecutorCloses executor = some self') : self'.work ctx < self.work ctx := by
  unfold onExecutorCloses at h
  split at h
  · rename_i htask _ _ _
    obtain rfl := Option.some.inj h
    simp only [OnTrack, htask] at htrack
    have hperform := work_perform ctx htrack.1 (.finish (.error .notFinished))
    rw [htask] at hperform
    simp only [ExecutorTask.work, Reaction.work] at hperform
    omega
  · cases h

theorem work_onFlushSends (hlt : self.flushing executor ≠ [] → executor < self.manager.spawned.length)
    (h : self.onFlushSends executor = some self') : self'.work ctx < self.work ctx := by
  unfold onFlushSends at h
  split at h
  · cases h
  · rename_i message rest hflushing
    have hlt := hlt (by rw [hflushing]; exact List.cons_ne_nil _ _)
    set next : Server K := { self with flushing := Function.update self.flushing executor rest } with hnext
    have hsum : next.executorsWork ctx + self.executorWork ctx executor
        = self.executorsWork ctx + next.executorWork ctx executor := by
      refine executorsWork_of_eq_off rfl hlt fun other hne => ?_
      simp only [executorWork, hnext, Function.update_of_ne hne]
      rfl
    have hone : next.executorWork ctx executor + 2 = self.executorWork ctx executor := by
      have hsent : next.sentBy ctx executor = self.sentBy ctx executor := rfl
      simp only [executorWork, hsent, hflushing, List.length_cons]
      simp only [hnext, Function.update_self]
      omega
    have hwork : next.work ctx + 2 = self.work ctx := by
      simp only [work]
      simp only [hnext, backlogWork] at hsum hone ⊢
      omega
    split at h
    · obtain rfl := Option.some.inj h
      omega
    · split at h
      · cases h
      · obtain rfl := Option.some.inj h
        have hpush := work_push_le ctx next executor message
        omega

end Executors

/-- A new executor has to start, and to take what is in the backlog of its instance. -/
theorem executorsWork_launched {Q : NetMessage → Prop} {R : StartInstanceRequest K → Prop}
    (hrouted : Routed ctx Q R self) {manager : InstanceManager K} {spawned : Spawned K}
    (hspawned : manager.spawned = self.manager.spawned ++ [spawned]) {backlogged : List NetMessage}
    (hsent : ∀ executor, messagesTo executor (manager.effects.drop self.manager.effects.length)
      = if self.manager.spawned.length = executor then backlogged else []) :
    (self.afterCommand manager).executorsWork ctx
      = self.executorsWork ctx + 20 + 2 * backlogged.length := by
  have hlength : manager.spawned.length = self.manager.spawned.length + 1 := by
    rw [hspawned, List.length_append, List.length_singleton]
  have hold : ∀ executor ∈ Finset.range self.manager.spawned.length,
      (self.afterCommand manager).executorWork ctx executor = self.executorWork ctx executor := by
    intro executor hmem
    have hlt := Finset.mem_range.mp hmem
    have htask : (self.afterCommand manager).tasks executor = self.tasks executor :=
      if_neg fun hnew => absurd hnew.1 (Nat.not_le.mpr hlt)
    have hflushing : (self.afterCommand manager).flushing executor = self.flushing executor := by
      change self.flushing executor ++ _ = _
      rw [hsent, if_neg hlt.ne', List.append_nil]
    have hsentBy : (self.afterCommand manager).sentBy ctx executor = self.sentBy ctx executor := by
      funext taken
      change (manager.spawned[executor]?).elim 0 _ = _
      rw [hspawned, List.getElem?_append_left hlt]
      rfl
    rw [executorWork, executorWork, htask, hflushing, hsentBy]
    rfl
  have hnone : ∀ queue : ℕ → List NetMessage,
      (∀ executor, ∀ m ∈ queue executor, self.Meant executor m ∧ Q m) →
      queue self.manager.spawned.length = [] := by
    intro queue hqueue
    refine List.eq_nil_iff_forall_not_mem.mpr fun m hm => ?_
    obtain ⟨⟨spawned', hspawned', -⟩, -⟩ := hqueue _ m hm
    exact absurd (List.getElem?_eq_some_iff.mp hspawned').1 (Nat.lt_irrefl _)
  have hnew : (self.afterCommand manager).executorWork ctx self.manager.spawned.length
      = 20 + 2 * backlogged.length := by
    have htask : (self.afterCommand manager).tasks self.manager.spawned.length = .starting :=
      if_pos ⟨le_rfl, by omega⟩
    have hflushing : (self.afterCommand manager).flushing self.manager.spawned.length = backlogged := by
      change self.flushing self.manager.spawned.length ++ _ = _
      rw [hsent, if_pos rfl, hnone _ hrouted.flushing, List.nil_append]
    have hchannel : (self.afterCommand manager).channels self.manager.spawned.length = [] :=
      hnone _ hrouted.channels
    rw [executorWork, htask, hflushing, hchannel]
    rfl
  calc (self.afterCommand manager).executorsWork ctx
      = ∑ executor ∈ Finset.range (self.manager.spawned.length + 1),
          (self.afterCommand manager).executorWork ctx executor := by rw [← hlength]; rfl
    _ = self.executorsWork ctx + (20 + 2 * backlogged.length) := by
        rw [Finset.sum_range_succ, Finset.sum_congr rfl hold, hnew]
        rfl
    _ = _ := (Nat.add_assoc _ _ _).symm

/-- A command is used up, and what it starts is worth less than the command. -/
theorem work_onManagerCommand {Q : NetMessage → Prop} {R : StartInstanceRequest K → Prop}
    (hrouted : Routed ctx Q R self) (h : self.onManagerCommand ctx = some self') :
    self'.work ctx < self.work ctx := by
  unfold onManagerCommand at h
  split at h
  · rename_i event commands htask hcommands
    have hevent : 0 < event.work := by
      cases event <;> simp [ManagerEvent.work]
    split at h
    · rename_i manager hok
      obtain rfl := Option.some.inj h
      have hcommand : event.isCommand = true :=
        (hrouted.commands event (List.mem_append_right _ (hcommands ▸ List.mem_cons_self))).1
      rcases InstanceManager.turn_command_cases (InstanceManager.turn_of_onEvent hok) hcommand with
        ⟨hspawned, hbacklog, hnone⟩ | ⟨request, protocol, hspawned, hnew, hrequest, -, -, hbacklog, hsent⟩
      · have htasks : (self.afterCommand manager).tasks = self.tasks := by
          funext executor
          refine if_neg fun hnew => ?_
          rw [hspawned] at hnew
          omega
        have hflushing : (self.afterCommand manager).flushing = self.flushing := by
          funext executor
          change self.flushing executor ++ _ = _
          rw [hnone, List.append_nil]
        have hsame : ({ self.afterCommand manager with commands } : Server K).executorsWork ctx
            = self.executorsWork ctx :=
          executorsWork_congr hspawned htasks rfl hflushing rfl
        have hbacklog' : ({ self.afterCommand manager with commands } : Server K).backlogWork
            = self.backlogWork := by
          rw [backlogWork, backlogWork]
          exact congrArg _ hbacklog
        simp only [work, hsame, hbacklog', hcommands, List.map_cons, List.sum_cons]
        simp only [afterCommand]
        omega
      · have hstarts : event.work = 21 := by
          cases event with
          | command _ _ => rfl
          | _ => cases hrequest
        set id := assignInstanceId ctx.hash256 request with hid
        have hbacklog' : HashMap.total (fun data : BacklogData => data.messages.length) manager.backlog
              + (self.manager.backlogged id).length = self.backlogWork := by
          rw [hbacklog, backlogWork, ← HashMap.total_erase _ self.manager.backlog id,
            InstanceManager.backlogged]
          cases self.manager.backlog.lookup id <;> rfl
        have hsum := executorsWork_launched hrouted hspawned hsent
        have hsame : ({ self.afterCommand manager with commands } : Server K).executorsWork ctx
            = (self.afterCommand manager).executorsWork ctx := rfl
        have hsame' : ({ self.afterCommand manager with commands } : Server K).backlogWork
            = HashMap.total (fun data : BacklogData => data.messages.length) manager.backlog := rfl
        simp only [work, hsame, hsame', hsum, hcommands, List.map_cons, List.sum_cons]
        simp only [afterCommand]
        omega
    · obtain rfl := Option.some.inj h
      have hsame : ({ self with commands, managerTask := .ended } : Server K).executorsWork ctx
          = self.executorsWork ctx := rfl
      simp only [work, backlogWork, hsame, hcommands, List.map_cons, List.sum_cons,
        ManagerTask.work_ended]
      omega
  · cases h

end Server

/-- The steps that the tasks of a node take of themselves. -/
def Action.isInternal : Action K → Bool
  | .request _ _ => false
  | .managerTick => false
  | .managerStops => false
  | .networkReceives _ => false
  | .networkStops => false
  | _ => true

namespace Server

/-- The steps of the tasks that change something. A task that tries again to send on a full channel does
not. -/
def Works (ctx : ServerContext K) (server : Server K) (action : Action K) : Prop :=
  action.isInternal = true ∧ server.step ctx action ≠ some server

section Steps

variable {ctx : ServerContext K} {self self' : Server K} {Q : NetMessage → Prop}
  {R : StartInstanceRequest K → Prop} {events : List (ManagerEvent K)}

theorem Routed.lt_of_flushing (h : Routed ctx Q R self) {executor : ℕ}
    (hflushing : self.flushing executor ≠ []) : executor < self.manager.spawned.length := by
  obtain ⟨m, hm⟩ := List.exists_mem_of_ne_nil _ hflushing
  obtain ⟨⟨spawned, hspawned, -⟩, -⟩ := h.flushing executor m hm
  exact (List.getElem?_eq_some_iff.mp hspawned).1

theorem work_lt_of_works (haccounted : Accounted ctx events self) (hrouted : Routed ctx Q R self)
    {action : Action K} (hworks : Works ctx self action) (hstep : self.step ctx action = some self') :
    self'.work ctx < self.work ctx := by
  have hne : self' ≠ self := by
    rintro rfl
    exact hworks.2 hstep
  cases action with
  | clientResumes => exact work_onClientResumes hstep
  | managerCommand => exact work_onManagerCommand hrouted hstep
  | managerMessage => exact work_onManagerMessage hstep
  | managerResumes => exact work_onManagerResumes hstep hne
  | networkOutgoing => exact work_onNetworkOutgoing hstep
  | networkResumes => exact work_onNetworkResumes hstep hne
  | executorStarts executor => exact work_onExecutorStarts (haccounted.tasks executor) hstep
  | executorTakes executor => exact work_onExecutorTakes (haccounted.tasks executor) hstep
  | executorResumes executor => exact work_onExecutorResumes (haccounted.tasks executor) hstep hne
  | executorCloses executor => exact work_onExecutorCloses (haccounted.tasks executor) hstep
  | flushSends executor => exact work_onFlushSends hrouted.lt_of_flushing hstep
  | _ => cases hworks.1

end Steps

end Server

end QuorumCrypt
