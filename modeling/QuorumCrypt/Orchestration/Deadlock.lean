import QuorumCrypt.Orchestration.Server

/-!
# Deadlock

The manager sends to the channel of an instance in its own loop. When the channel is full and its
executor waits for the manager, directly or through the network layer, no task goes on. The tasks that
empty a backlog show the other way: they send for the manager, and nobody waits for them.

As long as the manager blocks only on an executor that is about to take a message, there is no deadlock.
-/

namespace QuorumCrypt

open Rust

variable {K : Curves}

def Action.isManagerMessage : Action K → Bool
  | managerMessage => true
  | _ => false

namespace Server

/-- When the manager takes a message for an instance whose channel is full, the executor of the instance
waits for a message, and its backlog is sent. -/
def Admissible (self : Server K) (action : Action K) : Prop :=
  action.isManagerMessage = true →
    ∀ message ∈ self.incoming.head?, ∀ executor ∈ self.manager.recipient message.instanceId,
      self.tasks executor ≠ .ended → Full (self.channels executor) →
      self.tasks executor = .receiving ∧ self.flushing executor = []

instance (self : Server K) (action : Action K) : Decidable (self.Admissible action) :=
  inferInstanceAs (Decidable (_ → ∀ message ∈ self.incoming.head?,
    ∀ executor ∈ self.manager.recipient message.instanceId, _ → _ → _))

/-- No channel holds more than it can, and the manager waits only for an executor that takes its next
message. -/
structure Draining (server : Server K) : Prop where
  le_capacity : ∀ executor, (server.channels executor).length ≤ channelCapacity
  receiving : ∀ executor message, server.managerTask = .sending executor message →
    server.flushing executor = []
      ∧ (Full (server.channels executor) → server.tasks executor = .receiving)

variable {ctx : ServerContext K} {self self' : Server K} {executor : ℕ} {message : NetMessage}

theorem not_full_iff {α : Type} {queue : List α} : ¬ Full queue ↔ queue.length < channelCapacity :=
  Nat.not_le

/-! ### What a send leaves as it was -/

section Frames

variable (self executor message)

theorem perform_cases (reaction : Reaction) :
    ∃ task, (self.perform executor reaction).tasks = Function.update self.tasks executor task := by
  cases reaction with
  | receive => exact ⟨_, rfl⟩
  | panic => exact ⟨_, rfl⟩
  | send message =>
      unfold perform
      dsimp only
      split
      · exact ⟨_, rfl⟩
      · split <;> exact ⟨_, rfl⟩
  | finish result =>
      unfold perform
      dsimp only
      split
      · exact ⟨_, rfl⟩
      · split <;> exact ⟨_, rfl⟩

@[simp] theorem managerTask_perform (reaction : Reaction) :
    (self.perform executor reaction).managerTask = self.managerTask := by
  unfold perform
  repeat' split
  all_goals rfl

@[simp] theorem channels_perform (reaction : Reaction) :
    (self.perform executor reaction).channels = self.channels := by
  unfold perform
  repeat' split
  all_goals rfl

@[simp] theorem flushing_perform (reaction : Reaction) :
    (self.perform executor reaction).flushing = self.flushing := by
  unfold perform
  repeat' split
  all_goals rfl

end Frames

/-! ### What keeps the manager going -/

namespace Draining

theorem new : Draining (Server.new : Server K) where
  le_capacity _ := Nat.zero_le _
  receiving _ _ h := by cases h

/-- The other tasks and channels do not matter. -/
theorem of_eq (h : self.Draining) (hmanager : self'.managerTask = self.managerTask)
    (hchannels : self'.channels = self.channels) (htasks : self'.tasks = self.tasks)
    (hflushing : self'.flushing = self.flushing) : self'.Draining where
  le_capacity := by rw [hchannels]; exact h.le_capacity
  receiving := by rw [hmanager, hchannels, htasks, hflushing]; exact h.receiving

theorem of_not_sending (h : self.Draining) (hchannels : self'.channels = self.channels)
    (hmanager : ∀ executor message, self'.managerTask ≠ .sending executor message) :
    self'.Draining where
  le_capacity := by rw [hchannels]; exact h.le_capacity
  receiving executor message hsending := absurd hsending (hmanager executor message)

/-- An executor goes on, unless the manager waits for it. -/
theorem perform (h : self.Draining)
    (hready : ∀ message, self.managerTask = .sending executor message →
      ¬ Full (self.channels executor))
    (reaction : Reaction) : (self.perform executor reaction).Draining where
  le_capacity := by rw [channels_perform]; exact h.le_capacity
  receiving executor' message hsending := by
    rw [managerTask_perform] at hsending
    obtain ⟨hflushing, hreceiving⟩ := h.receiving executor' message hsending
    rw [flushing_perform, channels_perform]
    refine ⟨hflushing, fun hfull => ?_⟩
    obtain ⟨task, htask⟩ := perform_cases self executor reaction
    rw [htask]
    by_cases heq : executor' = executor
    · subst heq
      exact absurd hfull (hready message hsending)
    · rw [Function.update_of_ne heq]
      exact hreceiving hfull

theorem length_push_le (h : self.Draining) (hroom : ¬ Full (self.channels executor))
    (executor' : ℕ) :
    ((self.push executor message).channels executor').length ≤ channelCapacity := by
  by_cases heq : executor' = executor
  · subst heq
    have hlt := not_full_iff.mp hroom
    simp only [push, Function.update_self, List.length_append, List.length_singleton]
    exact hlt
  · simp only [push, Function.update_of_ne heq]
    exact h.le_capacity executor'

theorem sendMessage (h : self.Draining)
    (hready : self.tasks executor ≠ .ended → Full (self.channels executor) →
      self.tasks executor = .receiving ∧ self.flushing executor = []) :
    (self.sendMessage executor message).Draining := by
  unfold Server.sendMessage
  split
  · exact h.of_not_sending rfl fun _ _ => ManagerTask.noConfusion
  · rename_i hopen
    split
    · -- the manager waits, for an executor that waits for a message
      rename_i hfull
      obtain ⟨hreceiving, hflushing⟩ := hready hopen hfull
      refine ⟨h.le_capacity, fun executor' message' hsending => ?_⟩
      obtain ⟨rfl, rfl⟩ := ManagerTask.sending.inj hsending
      exact ⟨hflushing, fun _ => hreceiving⟩
    · rename_i hroom
      exact ⟨h.length_push_le hroom, fun _ _ hsending => ManagerTask.noConfusion hsending⟩

/-- An executor that takes a message makes room in its channel. -/
theorem take (h : self.Draining) {rest taken : List NetMessage}
    (hchannel : self.channels executor = message :: rest) (reaction : Reaction) :
    ({ self with
        taken := Function.update self.taken executor taken
        channels := Function.update self.channels executor rest }.perform executor
      reaction).Draining := by
  have hroom : ¬ Full rest := by
    have hle := h.le_capacity executor
    rw [hchannel, List.length_cons] at hle
    exact not_full_iff.mpr hle
  refine perform ⟨fun executor' => ?_, fun executor' message' hsending => ?_⟩ (fun _ _ => ?_) reaction
  · by_cases heq : executor' = executor
    · subst heq
      simp only [Function.update_self]
      exact (not_full_iff.mp hroom).le
    · simp only [Function.update_of_ne heq]
      exact h.le_capacity executor'
  · obtain ⟨hflushing, hreceiving⟩ := h.receiving executor' message' hsending
    refine ⟨hflushing, fun hfull => ?_⟩
    by_cases heq : executor' = executor
    · subst heq
      simp only [Function.update_self] at hfull
      exact absurd hfull hroom
    · simp only [Function.update_of_ne heq] at hfull
      exact hreceiving hfull
  · simp only [Function.update_self]
    exact hroom

theorem onManagerCommand (h : self.Draining) (hstep : self.onManagerCommand ctx = some self') :
    self'.Draining := by
  unfold Server.onManagerCommand at hstep
  split at hstep
  · rename_i hwaiting _
    split at hstep
    · obtain rfl := Option.some.inj hstep
      refine h.of_not_sending rfl fun _ _ hsending => ?_
      cases hwaiting.symm.trans hsending
    · obtain rfl := Option.some.inj hstep
      exact h.of_not_sending rfl fun _ _ => ManagerTask.noConfusion
  · cases hstep

theorem onManagerMessage (h : self.Draining) (hallowed : self.Admissible (.managerMessage : Action K))
    (hstep : self.onManagerMessage = some self') : self'.Draining := by
  unfold Server.onManagerMessage at hstep
  split at hstep
  · rename_i message incoming hwaiting hincoming
    dsimp only at hstep
    split at hstep
    · obtain rfl := Option.some.inj hstep
      exact h.of_eq rfl rfl rfl rfl
    · rename_i executor hrecipient
      obtain rfl := Option.some.inj hstep
      have hhead : self.incoming.head? = some message := by rw [hincoming, List.head?_cons]
      have htaken : Draining { self with
          incoming, manager := self.manager.onNetMessage message } := h.of_eq rfl rfl rfl rfl
      exact htaken.sendMessage (hallowed rfl message hhead executor hrecipient)
  · cases hstep

theorem onManagerResumes (h : self.Draining) (hstep : self.onManagerResumes = some self') :
    self'.Draining := by
  unfold Server.onManagerResumes at hstep
  split at hstep
  · rename_i executor message hsending
    obtain rfl := Option.some.inj hstep
    obtain ⟨hflushing, hreceiving⟩ := h.receiving executor message hsending
    exact h.sendMessage fun _ hfull => ⟨hreceiving hfull, hflushing⟩
  · cases hstep

/-- The manager does not wait for an executor that is not receiving. -/
theorem not_full_of_task (h : self.Draining) {task : ExecutorTask}
    (htask : self.tasks executor = task) (hne : task ≠ .receiving) (message : NetMessage)
    (hsending : self.managerTask = .sending executor message) : ¬ Full (self.channels executor) := by
  intro hfull
  exact hne (htask.symm.trans ((h.receiving executor message hsending).2 hfull))

theorem onExecutorStarts (h : self.Draining) (hstep : self.onExecutorStarts ctx executor = some self') :
    self'.Draining := by
  unfold Server.onExecutorStarts at hstep
  split at hstep
  · rename_i htask
    obtain rfl := Option.some.inj hstep
    exact h.perform (h.not_full_of_task htask ExecutorTask.noConfusion) _
  · cases hstep

theorem onExecutorTakes (h : self.Draining) (hstep : self.onExecutorTakes ctx executor = some self') :
    self'.Draining := by
  unfold Server.onExecutorTakes at hstep
  split at hstep
  · rename_i message rest _ hchannel
    obtain rfl := Option.some.inj hstep
    exact h.take hchannel _
  · cases hstep

theorem onExecutorResumes (h : self.Draining) (hstep : self.onExecutorResumes executor = some self') :
    self'.Draining := by
  unfold Server.onExecutorResumes at hstep
  split at hstep
  · rename_i htask
    obtain rfl := Option.some.inj hstep
    exact h.perform (h.not_full_of_task htask ExecutorTask.noConfusion) _
  · rename_i htask
    obtain rfl := Option.some.inj hstep
    exact h.perform (h.not_full_of_task htask ExecutorTask.noConfusion) _
  · cases hstep

theorem onExecutorCloses (h : self.Draining) (hstep : self.onExecutorCloses executor = some self') :
    self'.Draining := by
  unfold Server.onExecutorCloses at hstep
  split at hstep
  · rename_i _ hended _ _
    obtain rfl := Option.some.inj hstep
    refine h.perform (fun message hsending => ?_) _
    cases hended.symm.trans hsending
  · cases hstep

/-- The manager does not wait while a task has something to send to the same executor. -/
theorem onFlushSends (h : self.Draining) (hstep : self.onFlushSends executor = some self') :
    self'.Draining := by
  unfold Server.onFlushSends at hstep
  split at hstep
  · cases hstep
  · rename_i message rest hpending
    have hne : ∀ executor' message', self.managerTask = .sending executor' message' →
        executor' ≠ executor := by
      rintro executor' message' hsending rfl
      have hnil := (h.receiving executor' message' hsending).1
      rw [hpending] at hnil
      cases hnil
    have hflush : Draining { self with
        flushing := Function.update self.flushing executor rest } := by
      refine ⟨h.le_capacity, fun executor' message' hsending => ?_⟩
      simp only [Function.update_of_ne (hne executor' message' hsending)]
      exact h.receiving executor' message' hsending
    split at hstep
    · obtain rfl := Option.some.inj hstep
      exact hflush
    · split at hstep
      · cases hstep
      · rename_i hroom
        obtain rfl := Option.some.inj hstep
        refine ⟨hflush.length_push_le hroom, fun executor' message' hsending => ?_⟩
        obtain ⟨hflushing, hreceiving⟩ := hflush.receiving executor' message' hsending
        refine ⟨hflushing, fun hfull => hreceiving ?_⟩
        simpa only [push, Function.update_of_ne (hne executor' message' hsending)] using hfull

theorem forward (h : self.Draining) (message : NetMessage) : (self.forward message).Draining := by
  unfold Server.forward
  split
  · exact h.of_eq rfl rfl rfl rfl
  · split <;> exact h.of_eq rfl rfl rfl rfl

theorem onNetworkOutgoing (h : self.Draining) (hstep : self.onNetworkOutgoing = some self') :
    self'.Draining := by
  unfold Server.onNetworkOutgoing at hstep
  split at hstep
  · rename_i message outgoing _ _
    obtain rfl := Option.some.inj hstep
    have htaken : Draining { self with outgoing } := h.of_eq rfl rfl rfl rfl
    exact htaken.forward message
  · cases hstep

theorem onNetworkReceives (h : self.Draining) {message : WireMessage}
    (hstep : self.onNetworkReceives ctx message = some self') : self'.Draining := by
  unfold Server.onNetworkReceives at hstep
  split at hstep
  · obtain rfl := Option.some.inj hstep
    exact h.of_eq rfl rfl rfl rfl
  · split at hstep
    · obtain rfl := Option.some.inj hstep
      exact h.forward _
    · obtain rfl := Option.some.inj hstep
      exact h
  · cases hstep

theorem onNetworkResumes (h : self.Draining) (hstep : self.onNetworkResumes = some self') :
    self'.Draining := by
  unfold Server.onNetworkResumes at hstep
  split at hstep
  · obtain rfl := Option.some.inj hstep
    exact h.forward _
  · cases hstep

theorem onNetworkStops (h : self.Draining) (hstep : self.onNetworkStops = some self') :
    self'.Draining := by
  unfold Server.onNetworkStops at hstep
  split at hstep
  · obtain rfl := Option.some.inj hstep
    exact h.of_eq rfl rfl rfl rfl
  · cases hstep

theorem onManagerTick (h : self.Draining) (hstep : self.onManagerTick = some self') :
    self'.Draining := by
  unfold Server.onManagerTick at hstep
  split at hstep
  · obtain rfl := Option.some.inj hstep
    exact h.of_eq rfl rfl rfl rfl
  · cases hstep

theorem onManagerStops (h : self.Draining) (hstep : self.onManagerStops = some self') :
    self'.Draining := by
  unfold Server.onManagerStops at hstep
  split at hstep
  · obtain rfl := Option.some.inj hstep
    exact h.of_not_sending rfl fun _ _ => ManagerTask.noConfusion
  · cases hstep

theorem onRequest (h : self.Draining) (event : ManagerEvent K) : (self.onRequest event).Draining := by
  unfold Server.onRequest
  split
  · exact h
  · split <;> exact h.of_eq rfl rfl rfl rfl

theorem onClientResumes (h : self.Draining) (hstep : self.onClientResumes = some self') :
    self'.Draining := by
  unfold Server.onClientResumes at hstep
  split at hstep
  · cases hstep
  · split at hstep
    · obtain rfl := Option.some.inj hstep
      exact h.of_eq rfl rfl rfl rfl
    · split at hstep
      · cases hstep
      · obtain rfl := Option.some.inj hstep
        exact h.of_eq rfl rfl rfl rfl

theorem step (h : self.Draining) {action : Action K} (hallowed : self.Admissible action)
    (hstep : self.step ctx action = some self') : self'.Draining := by
  cases action with
  | request command hclient =>
      obtain rfl := Option.some.inj hstep
      exact h.onRequest _
  | clientResumes => exact h.onClientResumes hstep
  | managerCommand => exact h.onManagerCommand hstep
  | managerMessage => exact h.onManagerMessage hallowed hstep
  | managerTick => exact h.onManagerTick hstep
  | managerResumes => exact h.onManagerResumes hstep
  | managerStops => exact h.onManagerStops hstep
  | networkOutgoing => exact h.onNetworkOutgoing hstep
  | networkReceives message => exact h.onNetworkReceives hstep
  | networkResumes => exact h.onNetworkResumes hstep
  | networkStops => exact h.onNetworkStops hstep
  | executorStarts executor => exact h.onExecutorStarts hstep
  | executorTakes executor => exact h.onExecutorTakes hstep
  | executorResumes executor => exact h.onExecutorResumes hstep
  | executorCloses executor => exact h.onExecutorCloses hstep
  | flushSends executor => exact h.onFlushSends hstep

end Draining

theorem draining_of_reachable (h : Reachable (step ctx) Admissible new self) : self.Draining :=
  h.invariant .new fun _ _ _ hdraining hallowed hstep => hdraining.step hallowed hstep

/-! ### Waiting goes down -/

/-- An executor that waits for a message is at the end of every chain of processes that wait. -/
def rank (server : Server K) : Process → ℕ
  | .executor executor =>
      match server.tasks executor with
      | .receiving => 0
      | _ => 3
  | .manager => 1
  | .network | .clients => 2
  | .flush _ => 4

theorem rank_executor_le (server : Server K) (executor : ℕ) : server.rank (.executor executor) ≤ 3 := by
  unfold rank
  dsimp only
  split <;> omega

theorem Draining.rank_lt (h : self.Draining) {p q : Process} (hwaits : self.WaitsFor p q) :
    self.rank q < self.rank p := by
  cases hwaits with
  | manager hsending hfull hopen =>
      have hreceiving := (h.receiving _ _ hsending).2 hfull
      simp [rank, hreceiving]
  | network hsending hfull hopen => simp [rank]
  | clients hpending hfull hopen => simp [rank]
  | sending htask hfull hopen => simp [rank, htask]
  | reporting htask hfull hopen => simp [rank, htask]
  | flush hpending hfull hopen => exact Nat.lt_succ_of_le (self.rank_executor_le _)

/-- In a run in which the manager takes a message for a full channel only while the executor waits for
one, and nothing of the backlog is left, no processes wait for each other in a cycle. -/
theorem never_deadlocked (K : Curves) (ctx : ServerContext K) (self : Server K)
    (h : Reachable (step ctx) Admissible new self) : ¬ Deadlock self.WaitsFor :=
  not_deadlock_of_rank self.rank fun _ _ => (draining_of_reachable h).rank_lt

end Server

/-! ### A node that signs -/

/-- The share of a party on the empty message. -/
def shareOfSeven (id : UInt16) : Outcome Unit (ShareMessage (SignatureShare Curves.seven)) :=
  let P := ThresholdSignatureProtocol .truncating (.bls04 .bn254 (bls04KeySeven id)) (some []) []
  .share <$> (P.ownShare .counting).mapErr fun _ => ()

/-- The text of a share is the id of its party. -/
def protocolsSeven : ProtocolContext Curves.seven where
  primitives := .truncating
  hashes := .ones
  orders := .latest _
  draws _ _ := .counting
  nonces _ _ _ := ([], [])
  decryptionWire := ⟨fun _ => "", fun _ => .err ()⟩
  signatureWire :=
    { toString := fun
        | .share share => if share.getId = 1 then "1" else "2"
        | .default => ""
      fromStr := fun text =>
        if text = "1" then shareOfSeven 1
        else if text = "2" then shareOfSeven 2
        else .err () }
  coinWire := ⟨fun _ => "", fun _ => .err ()⟩
  frostWire := ⟨fun _ => "", fun _ => .err ()⟩

def serverSeven : ServerContext Curves.seven :=
  { managerSeven with myId := 1, protocols := protocolsSeven }

/-- The share of the second party. -/
def peerSeven : WireMessage where
  instanceId := signIdSeven
  messageData := asBytes "2"
  metadata := ⟨2, .gossip⟩

/-- The instance is created, and its executor sends the share of this node. -/
def signingSeven : List (Action Curves.seven) :=
  [.request (.createInstance (signSeven []) ⟨0, false⟩) rfl, .managerCommand, .executorStarts 0]

/-- The share of the second party arrives again and again. -/
def floodSeven (n : ℕ) : List (Action Curves.seven) :=
  (List.replicate n [.networkReceives peerSeven, .managerMessage]).flatten

open Server in
/-- The manager waits for an executor that has not taken anything yet, and the executor for nobody. -/
theorem never_deadlocked_seven :
    ∃ self, runAllowed (step serverSeven) Admissible new (signingSeven ++ floodSeven 33) = some self
      ∧ self.managerTask = .sending 0 peerSeven.toNetMessage ∧ Full (self.channels 0)
      ∧ ¬ Deadlock self.WaitsFor := by
  have hrun : (runAllowed (step serverSeven) Admissible new (signingSeven ++ floodSeven 33)).any
      (fun self => self.managerTask = .sending 0 peerSeven.toNetMessage ∧ Full (self.channels 0))
      = true := by decide +kernel
  obtain ⟨self, hself, hblocked⟩ := (Option.any_eq_true _ _).mp hrun
  obtain ⟨hsending, hfull⟩ := of_decide_eq_true hblocked
  exact ⟨self, hself, hsending, hfull, never_deadlocked _ serverSeven self
    (Reachable.start.of_runAllowed hself)⟩

/-- Once the share of this node is back and that of the second party is there, clients ask for the
status of the instance until the channel of commands is full. The executor has its result then, and
cannot report it. -/
def reportingSeven : List (Action Curves.seven) :=
  [.networkOutgoing, .managerMessage] ++ floodSeven 1 ++ [.executorTakes 0]
    ++ List.replicate 32 (.request (.getInstanceStatus signIdSeven ⟨1, false⟩) rfl)
    ++ [.executorTakes 0]

def ExecutorTask.isReporting : ExecutorTask → Bool
  | reporting _ => true
  | _ => false

theorem ExecutorTask.exists_of_isReporting {task : ExecutorTask} (h : task.isReporting = true) :
    ∃ result, task = .reporting result := by
  cases task with
  | reporting result => exact ⟨result, rfl⟩
  | _ => cases h

open Server in
/-- The manager waits for the executor to take a message, and the executor for the manager to take a
command. -/
theorem manager_and_executor_deadlocked_seven :
    ∃ self : Server Curves.seven, Reachable (step serverSeven) (fun _ _ => True) new self
      ∧ self.WaitsFor .manager (.executor 0) ∧ self.WaitsFor (.executor 0) .manager
      ∧ Deadlock self.WaitsFor := by
  have hrun : (runAllowed (step serverSeven) (fun _ _ => True) new
      (signingSeven ++ reportingSeven ++ floodSeven 33)).any (fun self =>
        self.managerTask = .sending 0 peerSeven.toNetMessage ∧ Full (self.channels 0)
          ∧ (self.tasks 0).isReporting ∧ Full self.commands) = true := by decide +kernel
  obtain ⟨self, hself, hblocked⟩ := (Option.any_eq_true _ _).mp hrun
  obtain ⟨hsending, hfull, hreporting, hcommands⟩ := of_decide_eq_true hblocked
  obtain ⟨result, hresult⟩ := ExecutorTask.exists_of_isReporting hreporting
  have hmanager : self.WaitsFor .manager (.executor 0) := by
    refine .manager hsending hfull ?_
    rw [hresult]
    exact ExecutorTask.noConfusion
  have hexecutor : self.WaitsFor (.executor 0) .manager := by
    refine .reporting hresult hcommands ?_
    rw [hsending]
    exact ManagerTask.noConfusion
  exact ⟨self, Reachable.start.of_runAllowed hself, hmanager, hexecutor, .manager,
    .head hmanager (.single hexecutor)⟩

end QuorumCrypt
