import QuorumCrypt.Base.Processes
import QuorumCrypt.Network.NetworkManager
import QuorumCrypt.Orchestration.Backlog
import QuorumCrypt.Orchestration.Robustness

/-!
# The tasks of a node and their channels

`bin/server.rs` starts the instance manager and the network layer, and the instance manager starts an
executor for each instance and a task for each backlog. They talk over channels that hold 32 entries. A
send on a full channel waits until the receiver has taken something, and the task of the sender does
nothing else meanwhile.

Here a task does one thing at a time: it takes an entry from a channel and does what follows from it, up
to the next point where it waits. A send finds room or leaves the task waiting; the task tries again when
it is woken. A send fails at once when the receiver is gone.
-/

namespace QuorumCrypt

open Rust

/-! ### What an executor does with a message -/

/-- What an executor does next, when it has done a round or dealt with a message. -/
inductive Reaction where
  | receive
  | send (message : NetMessage)
  | finish (result : Except ProtocolError Bytes)
  | panic

/-- `serde_json` on the messages of a protocol. -/
structure Wire (μ : Type) where
  toString : μ → String
  fromStr : String → Outcome Unit μ

/-- The protocols and what they draw. Every executor has a random generator of its own. -/
structure ProtocolContext (K : Curves) where
  primitives : Primitives
  hashes : FrostHashes
  orders : FrostOrders K
  draws : ℕ → ℕ → Drawn
  nonces : ℕ → ℕ → ℕ → Bytes × Bytes
  decryptionWire : Wire (ShareMessage (DecryptionShare K))
  signatureWire : Wire (ShareMessage (SignatureShare K))
  coinWire : Wire (ShareMessage (CoinShare K))
  frostWire : Wire (FrostMessage K)

namespace Execution

variable {σ μ ρ : Type}

/-- What the executor does between two executions. -/
def reaction (wire : Wire μ) (instanceId : String) (sentBefore : ℕ) (after : Execution σ μ) : Reaction :=
  match after.status with
  | .finished result => .finish (.ok result)
  | .failed error => .finish (.error error)
  | .panicked => .panic
  | .running =>
      match after.sent.drop sentBefore with
      | [] => .receive
      | message :: _ => .send ⟨instanceId, asBytes (wire.toString message)⟩

/-- What it does when these messages were taken, the last one just now. Without a message it is the
first round. -/
def reactTo (P : ThresholdRoundProtocol σ μ ρ) (rng : ℕ → ρ) (wire : Wire μ) (instanceId : String)
    (protocol : σ) (taken : List NetMessage) : Reaction :=
  let payloads := taken.map NetMessage.messageData
  let sentBefore :=
    if payloads = [] then 0
    else (runPayloads P rng wire.fromStr protocol payloads.dropLast).sent.length
  reaction wire instanceId sentBefore (runPayloads P rng wire.fromStr protocol payloads)

end Execution

variable {K : Curves}

/-- The executor of an instance, given by the number of the executor. -/
def Spawned.react (ctx : ProtocolContext K) (executor : ℕ) (self : Spawned K)
    (taken : List NetMessage) : Reaction :=
  match self.protocol with
  | .cipher privateKey ciphertext =>
      Execution.reactTo (ThresholdCipherProtocol ctx.primitives privateKey ciphertext).protocol
        (ctx.draws executor) ctx.decryptionWire self.instanceId (.new _) taken
  | .signature privateKey message label =>
      Execution.reactTo (ThresholdSignatureProtocol ctx.primitives privateKey message label).protocol
        (ctx.draws executor) ctx.signatureWire self.instanceId (.new _) taken
  | .coin privateKey name =>
      Execution.reactTo (ThresholdCoinProtocol ctx.primitives privateKey name).protocol
        (ctx.draws executor) ctx.coinWire self.instanceId (.new _) taken
  | .frost c state =>
      Execution.reactTo (FrostProtocol.protocol ctx.primitives ctx.hashes ctx.orders c)
        (ctx.nonces executor) ctx.frostWire self.instanceId state taken

/-! ### The tasks -/

/-- The number of entries of every channel. -/
def channelCapacity : ℕ := 32

def Full {α : Type} (queue : List α) : Prop := channelCapacity ≤ queue.length

instance {α : Type} (queue : List α) : Decidable (Full queue) :=
  inferInstanceAs (Decidable (channelCapacity ≤ queue.length))

inductive ManagerTask where
  | waiting
  | sending (executor : ℕ) (message : NetMessage)
  | ended
  deriving DecidableEq

inductive NetworkTask where
  | waiting
  | sending (message : NetMessage)
  | ended

inductive ExecutorTask where
  | absent
  | starting
  | receiving
  | sending (message : NetMessage)
  /-- The run is over. The receiver of the channel is kept until the manager has the report. -/
  | reporting (result : Except ProtocolError Bytes)
  | ended
  deriving DecidableEq

structure Server (K : Curves) where
  manager : InstanceManager K
  managerTask : ManagerTask
  networkTask : NetworkTask
  tasks : ℕ → ExecutorTask
  /-- What each executor has taken from its channel. -/
  taken : ℕ → List NetMessage
  /-- What the task for a backlog has not sent yet. -/
  flushing : ℕ → List NetMessage
  /-- The clients that wait to send a command. -/
  clients : List (ManagerEvent K)
  /-- From the clients and the executors to the manager. -/
  commands : List (ManagerEvent K)
  /-- From the executors to the network layer. -/
  outgoing : List NetMessage
  /-- From the network layer to the manager. -/
  incoming : List NetMessage
  /-- To each executor. -/
  channels : ℕ → List NetMessage

structure ServerContext (K : Curves) extends ManagerContext K where
  myId : UInt32
  protocols : ProtocolContext K

/-- What can happen next. -/
inductive Action (K : Curves) where
  | request (command : InstanceManagerCommand K) (hclient : command.isClientCommand = true)
  | clientResumes
  | managerCommand
  | managerMessage
  | managerTick
  | managerResumes
  | managerStops
  | networkOutgoing
  | networkReceives (message : WireMessage)
  | networkResumes
  | networkStops
  | executorStarts (executor : ℕ)
  | executorTakes (executor : ℕ)
  | executorResumes (executor : ℕ)
  | executorCloses (executor : ℕ)
  | flushSends (executor : ℕ)

namespace Server

/-- `start_server`. -/
def new : Server K where
  manager := .new
  managerTask := .waiting
  networkTask := .waiting
  tasks _ := .absent
  taken _ := []
  flushing _ := []
  clients := []
  commands := []
  outgoing := []
  incoming := []
  channels _ := []

/-! ### Sends -/

def setTask (self : Server K) (executor : ℕ) (task : ExecutorTask) : Server K :=
  { self with tasks := Function.update self.tasks executor task }

def push (self : Server K) (executor : ℕ) (message : NetMessage) : Server K :=
  { self with
    channels := Function.update self.channels executor (self.channels executor ++ [message]) }

/-- The manager sends a message to an executor, in its own loop. -/
def sendMessage (self : Server K) (executor : ℕ) (message : NetMessage) : Server K :=
  match self.tasks executor with
  | .ended => { self with managerTask := .waiting }
  | _ =>
      if Full (self.channels executor) then { self with managerTask := .sending executor message }
      else { self.push executor message with managerTask := .waiting }

/-- The network layer sends a message to the manager. -/
def forward (self : Server K) (message : NetMessage) : Server K :=
  match self.managerTask with
  | .ended => { self with networkTask := .waiting }
  | _ =>
      if Full self.incoming then { self with networkTask := .sending message }
      else { self with networkTask := .waiting, incoming := self.incoming ++ [message] }

/-- An executor does what follows from a message. A result that cannot be reported is lost, and a
message that cannot be sent is a panic. -/
def perform (self : Server K) (executor : ℕ) : Reaction → Server K
  | .receive => self.setTask executor .receiving
  | .send message =>
      match self.networkTask with
      | .ended => self.setTask executor .ended
      | _ =>
          if Full self.outgoing then self.setTask executor (.sending message)
          else { self.setTask executor .receiving with outgoing := self.outgoing ++ [message] }
  | .finish result =>
      match self.managerTask with
      | .ended => self.setTask executor .ended
      | _ =>
          if Full self.commands then self.setTask executor (.reporting result)
          else
            { self.setTask executor .ended with
              commands := self.commands ++ [.terminated executor result] }
  | .panic => self.setTask executor .ended

/-! ### Turns -/

variable (ctx : ServerContext K)

/-- A client sends a command, and waits when the channel is full. -/
def onRequest (self : Server K) (event : ManagerEvent K) : Server K :=
  match self.managerTask with
  | .ended => self
  | _ =>
      if Full self.commands then { self with clients := self.clients ++ [event] }
      else { self with commands := self.commands ++ [event] }

def onClientResumes (self : Server K) : Option (Server K) :=
  match self.clients with
  | [] => none
  | event :: clients =>
      match self.managerTask with
      | .ended => some { self with clients }
      | _ =>
          if Full self.commands then none
          else some { self with clients, commands := self.commands ++ [event] }

/-- The manager has handled a command: the new executors are started, and what was in a backlog is left
to a task. -/
def afterCommand (self : Server K) (manager : InstanceManager K) : Server K :=
  { self with
    manager
    tasks := fun executor =>
      if self.manager.spawned.length ≤ executor ∧ executor < manager.spawned.length then .starting
      else self.tasks executor
    flushing := fun executor => self.flushing executor
      ++ messagesTo executor (manager.effects.drop self.manager.effects.length) }

def onManagerCommand (self : Server K) : Option (Server K) :=
  match self.managerTask, self.commands with
  | .waiting, event :: commands =>
      match InstanceManager.onEvent ctx.toManagerContext self.manager event with
      | .ok manager => some { self.afterCommand manager with commands }
      | _ => some { self with commands, managerTask := .ended }
  | _, _ => none

def onManagerMessage (self : Server K) : Option (Server K) :=
  match self.managerTask, self.incoming with
  | .waiting, message :: incoming =>
      let next := { self with incoming, manager := self.manager.onNetMessage message }
      match self.manager.recipient message.instanceId with
      | none => some next
      | some executor => some (next.sendMessage executor message)
  | _, _ => none

def onManagerTick (self : Server K) : Option (Server K) :=
  match self.managerTask with
  | .waiting => some { self with manager := self.manager.onTick }
  | _ => none

def onManagerResumes (self : Server K) : Option (Server K) :=
  match self.managerTask with
  | .sending executor message => some (self.sendMessage executor message)
  | _ => none

/-- The node is shut down, or the other end of a channel is gone. -/
def onManagerStops (self : Server K) : Option (Server K) :=
  match self.managerTask with
  | .waiting => some { self with managerTask := .ended }
  | _ => none

/-- A message of this node goes out, and comes back to it. -/
def onNetworkOutgoing (self : Server K) : Option (Server K) :=
  match self.networkTask, self.outgoing with
  | .waiting, message :: outgoing => some ({ self with outgoing }.forward message)
  | _, _ => none

def onNetworkReceives (self : Server K) (message : WireMessage) : Option (Server K) :=
  match self.networkTask, message.metadata.channel with
  | .waiting, .tob => some { self with networkTask := .ended }
  | .waiting, _ =>
      if NetworkManager.addressed ctx.myId message then some (self.forward message.toNetMessage)
      else some self
  | _, _ => none

def onNetworkResumes (self : Server K) : Option (Server K) :=
  match self.networkTask with
  | .sending message => some (self.forward message)
  | _ => none

/-- The node is shut down, or bytes from the network are no message. -/
def onNetworkStops (self : Server K) : Option (Server K) :=
  match self.networkTask with
  | .waiting => some { self with networkTask := .ended }
  | _ => none

/-- The reaction of an executor to what it has taken. -/
def reactionOf (self : Server K) (executor : ℕ) (taken : List NetMessage) : Reaction :=
  match self.manager.spawned[executor]? with
  | none => .panic
  | some spawned => spawned.react ctx.protocols executor taken

/-- The first round. -/
def onExecutorStarts (self : Server K) (executor : ℕ) : Option (Server K) :=
  match self.tasks executor with
  | .starting => some (self.perform executor (self.reactionOf ctx executor []))
  | _ => none

def onExecutorTakes (self : Server K) (executor : ℕ) : Option (Server K) :=
  match self.tasks executor, self.channels executor with
  | .receiving, message :: rest =>
      let taken := self.taken executor ++ [message]
      some ({ self with
        taken := Function.update self.taken executor taken
        channels := Function.update self.channels executor rest }.perform executor
          (self.reactionOf ctx executor taken))
  | _, _ => none

def onExecutorResumes (self : Server K) (executor : ℕ) : Option (Server K) :=
  match self.tasks executor with
  | .sending message => some (self.perform executor (.send message))
  | .reporting result => some (self.perform executor (.finish result))
  | _ => none

/-- The sender of the channel is with the manager and with the task for the backlog. When they are gone,
`recv` returns `None`. -/
def onExecutorCloses (self : Server K) (executor : ℕ) : Option (Server K) :=
  match self.tasks executor, self.managerTask, self.flushing executor, self.channels executor with
  | .receiving, .ended, [], [] => some (self.perform executor (.finish (.error .notFinished)))
  | _, _, _, _ => none

def onFlushSends (self : Server K) (executor : ℕ) : Option (Server K) :=
  match self.flushing executor with
  | [] => none
  | message :: rest =>
      let next := { self with flushing := Function.update self.flushing executor rest }
      match self.tasks executor with
      | .ended => some next
      | _ => if Full (self.channels executor) then none else some (next.push executor message)

def step (self : Server K) : Action K → Option (Server K)
  | .request command hclient => some (self.onRequest (.command command hclient))
  | .clientResumes => self.onClientResumes
  | .managerCommand => self.onManagerCommand ctx
  | .managerMessage => self.onManagerMessage
  | .managerTick => self.onManagerTick
  | .managerResumes => self.onManagerResumes
  | .managerStops => self.onManagerStops
  | .networkOutgoing => self.onNetworkOutgoing
  | .networkReceives message => self.onNetworkReceives ctx message
  | .networkResumes => self.onNetworkResumes
  | .networkStops => self.onNetworkStops
  | .executorStarts executor => self.onExecutorStarts ctx executor
  | .executorTakes executor => self.onExecutorTakes ctx executor
  | .executorResumes executor => self.onExecutorResumes executor
  | .executorCloses executor => self.onExecutorCloses executor
  | .flushSends executor => self.onFlushSends executor

end Server

/-! ### The manager among the tasks -/

namespace Server

variable {ctx : ServerContext K} {self self' : Server K}

section Frames

variable (self : Server K) (executor : ℕ) (message : NetMessage)

@[simp] theorem manager_sendMessage : (self.sendMessage executor message).manager = self.manager := by
  unfold sendMessage
  repeat' split
  all_goals rfl

@[simp] theorem manager_forward : (self.forward message).manager = self.manager := by
  unfold forward
  repeat' split
  all_goals rfl

@[simp] theorem manager_perform (reaction : Reaction) :
    (self.perform executor reaction).manager = self.manager := by
  unfold perform
  repeat' split
  all_goals rfl

end Frames

end Server

/-! ### Who waits for whom -/

inductive Process where
  | manager
  | network
  | clients
  | executor (executor : ℕ)
  | flush (executor : ℕ)

/-- A process waits to send on a full channel that only the other one takes from. -/
inductive Server.WaitsFor (self : Server K) : Process → Process → Prop
  | manager {executor : ℕ} {message : NetMessage} (h : self.managerTask = .sending executor message)
      (hfull : Full (self.channels executor)) (hopen : self.tasks executor ≠ .ended) :
      WaitsFor self .manager (.executor executor)
  | network {message : NetMessage} (h : self.networkTask = .sending message)
      (hfull : Full self.incoming) (hopen : self.managerTask ≠ .ended) :
      WaitsFor self .network .manager
  | clients (h : self.clients ≠ []) (hfull : Full self.commands) (hopen : self.managerTask ≠ .ended) :
      WaitsFor self .clients .manager
  | sending {executor : ℕ} {message : NetMessage} (h : self.tasks executor = .sending message)
      (hfull : Full self.outgoing) (hopen : self.networkTask ≠ .ended) :
      WaitsFor self (.executor executor) .network
  | reporting {executor : ℕ} {result : Except ProtocolError Bytes}
      (h : self.tasks executor = .reporting result) (hfull : Full self.commands)
      (hopen : self.managerTask ≠ .ended) :
      WaitsFor self (.executor executor) .manager
  | flush {executor : ℕ} (h : self.flushing executor ≠ []) (hfull : Full (self.channels executor))
      (hopen : self.tasks executor ≠ .ended) :
      WaitsFor self (.flush executor) (.executor executor)

end QuorumCrypt
