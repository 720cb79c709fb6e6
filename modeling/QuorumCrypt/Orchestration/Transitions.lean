import QuorumCrypt.Orchestration.InstanceManager

/-!
# The turns of the manager's loop

Everything that one turn of `run` can do, as one inductive relation. A turn that returns is one of these
(`turn_of_onEvent`); the invariants of the manager are proved by cases on it.
-/

namespace QuorumCrypt

open Rust

variable {K : Curves}

/-- What a command that asks for an instance carries: the request, where the answer goes, and where the
result goes. -/
def InstanceManagerCommand.creation? :
    InstanceManagerCommand K → Option (StartInstanceRequest K × Responder × Option Responder)
  | createInstance request responder => some (request, responder, none)
  | createInstanceSync request responder syncResponder => some (request, responder, some syncResponder)
  | _ => none

/-- A finished instance, after its result was sent. -/
def Instance.settled (self : Instance) (result : Except ProtocolError Bytes) : Instance :=
  let self := match result with
    | .ok _ => self
    | .error _ => self.setStatus "Failed"
  { self.setResult result with resultSender := none }

namespace Instance

variable (inst : Instance) (result : Except ProtocolError Bytes)

@[simp] theorem scheme_settled : (inst.settled result).scheme = inst.scheme := by
  cases result <;> rfl

@[simp] theorem group_settled : (inst.settled result).group = inst.group := by
  cases result <;> rfl

@[simp] theorem result_settled : (inst.settled result).result = some result := rfl

@[simp] theorem finished_settled : (inst.settled result).finished = true := rfl

end Instance

namespace InstanceManager

/-- The instance is finished, and the client that waits for it has the result. -/
def settle (self : InstanceManager K) (instanceId : String) (inst : Instance)
    (result : Except ProtocolError Bytes) : InstanceManager K :=
  let instances :=
    { self.instances with
      instanceData := self.instances.instanceData.insert instanceId (inst.settled result)
      terminatedInstances := self.instances.terminatedInstances ++ [instanceId] }
  { self with instances }.emit (inst.resultSender.toList.map fun sender => .delivered sender result)

/-- The answers to a request: a client that does not wait for the result is not told about an error. -/
def answers (responder : Responder) (syncResponder : Option Responder)
    (result : Except ProtocolError String) : List Effect :=
  match result, syncResponder with
  | .ok id, _ => [.answered responder (.ok id)]
  | .error error, some _ => [.answered responder (.error error)]
  | .error _, none => []

variable (ctx : ManagerContext K) (self : InstanceManager K)

/-- The turns that return. -/
inductive Turn : ManagerEvent K → InstanceManager K → Prop
  | known {command : InstanceManagerCommand K} {hclient : command.isClientCommand = true}
      {request : StartInstanceRequest K} {responder : Responder} {syncResponder : Option Responder}
      (hcreation : command.creation? = some (request, responder, syncResponder))
      (hmem : assignInstanceId ctx.hash256 request ∈ self.instances.instanceData) :
      Turn (.command command hclient)
        (self.emit [.answered responder (.ok (assignInstanceId ctx.hash256 request))])
  | refused {command : InstanceManagerCommand K} {hclient : command.isClientCommand = true}
      {request : StartInstanceRequest K} {responder : Responder} {syncResponder : Option Responder}
      (hcreation : command.creation? = some (request, responder, syncResponder))
      (hnew : assignInstanceId ctx.hash256 request ∉ self.instances.instanceData)
      (hkey : privateKeyFor ctx request = none) :
      Turn (.command command hclient)
        (self.emit (answers responder syncResponder (.error (.schemeError (.aborted "key not found")))))
  | launched {command : InstanceManagerCommand K} {hclient : command.isClientCommand = true}
      {request : StartInstanceRequest K} {responder : Responder} {syncResponder : Option Responder}
      {protocol : ProtocolInstance K}
      (hcreation : command.creation? = some (request, responder, syncResponder))
      (hnew : assignInstanceId ctx.hash256 request ∉ self.instances.instanceData)
      (hkey : privateKeyFor ctx request = some protocol.key)
      (hprotocol : newProtocol ctx.draws protocol.key request = .ok protocol) :
      Turn (.command command hclient)
        (((self.launch (assignInstanceId ctx.hash256 request) request protocol
          syncResponder).forwardBackloggedMessages (assignInstanceId ctx.hash256 request)).emit
            [.answered responder (.ok (assignInstanceId ctx.hash256 request))])
  | status {instanceId : String} {responder : Responder}
      {hclient : (InstanceManagerCommand.getInstanceStatus (K := K) instanceId responder).isClientCommand
        = true}
      (hopen : responder.isClosed = false) :
      Turn (.command (.getInstanceStatus instanceId responder) hclient)
        (self.emit [.reported responder (self.getStatus instanceId)])
  | absent {executor : ℕ} {result : Except ProtocolError Bytes}
      (habsent : ∀ spawned, self.spawned[executor]? = some spawned →
        spawned.instanceId ∉ self.instances.instanceData) :
      Turn (.terminated executor result) self
  | settled {executor : ℕ} {result : Except ProtocolError Bytes} {spawned : Spawned K} {inst : Instance}
      (hspawned : self.spawned[executor]? = some spawned)
      (hinst : self.instances.instanceData.lookup spawned.instanceId = some inst) :
      Turn (.terminated executor result) (self.settle spawned.instanceId inst result)
  | message (message : NetMessage) : Turn (.message message) (self.onNetMessage message)
  | tick : Turn .tick self.onTick

variable {ctx self} {self' : InstanceManager K}

theorem emit_nil : self.emit [] = self := by
  rw [emit, List.append_nil]

theorem turn_of_start {command : InstanceManagerCommand K} {hclient : command.isClientCommand = true}
    {request : StartInstanceRequest K} {responder : Responder} {syncResponder : Option Responder}
    (hcreation : command.creation? = some (request, responder, syncResponder))
    {answer : Except ProtocolError String}
    (hstart : start ctx self request syncResponder = .ok (answer, self')) :
    Turn ctx self (.command command hclient) (self'.emit (answers responder syncResponder answer)) := by
  by_cases hmem : assignInstanceId ctx.hash256 request ∈ self.instances.instanceData
  · rw [start_of_mem hmem] at hstart
    obtain ⟨rfl, rfl⟩ := Prod.mk.inj (Outcome.ok.inj hstart)
    exact .known hcreation hmem
  cases hkey : privateKeyFor ctx request with
  | none =>
      rw [start_of_key_eq_none hmem hkey] at hstart
      obtain ⟨rfl, rfl⟩ := Prod.mk.inj (Outcome.ok.inj hstart)
      exact .refused hcreation hmem hkey
  | some key =>
      rw [start_of_key hmem hkey] at hstart
      obtain ⟨protocol, hprotocol, heq⟩ := Outcome.bind_eq_ok.mp hstart
      obtain ⟨rfl, rfl⟩ := Prod.mk.inj (Outcome.ok.inj heq)
      obtain rfl := key_newProtocol hprotocol
      exact .launched hcreation hmem hkey hprotocol

/-- What an executor reports is the result of its instance, if the instance is there. -/
theorem handle_executeProtocol (instanceId : String) (result : Except ProtocolError Bytes) :
    handle ctx self (executeProtocol instanceId result)
      = match self.instances.instanceData.lookup instanceId with
        | none => .ok self
        | some inst => .ok (self.settle instanceId inst result) := by
  cases hlookup : self.instances.instanceData.lookup instanceId with
  | none =>
      cases result with
      | ok value => simp [executeProtocol, handle, modifyInstance, informOfTermination, hlookup]
      | error error => simp [executeProtocol, handle, modifyInstance, informOfTermination, hlookup]
  | some inst =>
      cases result with
      | ok value =>
          simp [executeProtocol, handle, modifyInstance, informOfTermination, hlookup,
            Instance.setResult, settle, Instance.settled]
      | error error =>
          simp [executeProtocol, handle, modifyInstance, informOfTermination, hlookup,
            Instance.setResult, settle, Instance.settled, Instance.setStatus]

theorem turn_of_onEvent {event : ManagerEvent K} (h : onEvent ctx self event = .ok self') :
    Turn ctx self event self' := by
  cases event with
  | command command hclient =>
      cases command with
      | createInstance request responder =>
          obtain ⟨⟨answer, mid⟩, hstart, hanswer⟩ := Outcome.bind_eq_ok.mp h
          have hturn : Turn ctx self (.command (.createInstance request responder) hclient)
              (mid.emit (answers responder none answer)) := turn_of_start rfl hstart
          cases answer with
          | error error =>
              obtain rfl := Outcome.ok.inj hanswer
              rwa [answers, emit_nil] at hturn
          | ok id =>
              obtain rfl := Outcome.ok.inj hanswer
              exact hturn
      | createInstanceSync request responder syncResponder =>
          obtain ⟨⟨answer, mid⟩, hstart, hanswer⟩ := Outcome.bind_eq_ok.mp h
          obtain rfl := Outcome.ok.inj hanswer
          have hturn : Turn ctx self
              (.command (.createInstanceSync request responder syncResponder) hclient)
              (mid.emit (answers responder (some syncResponder) answer)) := turn_of_start rfl hstart
          cases answer with
          | error error => exact hturn
          | ok id => exact hturn
      | getInstanceStatus id responder =>
          simp only [onEvent, handle] at h
          split at h
          · cases h
          · rename_i hopen
            obtain rfl := Outcome.ok.inj h
            exact .status (Bool.not_eq_true _ ▸ hopen)
      | storeResult id result => cases hclient
      | updateInstanceStatus id status error => cases hclient
  | terminated executor result =>
      rw [onEvent] at h
      split at h
      · rename_i hspawned
        obtain rfl := Outcome.ok.inj h
        refine .absent fun spawned hsome => ?_
        rw [hspawned] at hsome
        cases hsome
      · rename_i spawned hspawned
        rw [handle_executeProtocol] at h
        split at h
        · rename_i hlookup
          obtain rfl := Outcome.ok.inj h
          refine .absent fun spawned' hsome => ?_
          obtain rfl := Option.some.inj (hspawned.symm.trans hsome)
          exact AList.lookup_eq_none.mp hlookup
        · rename_i inst hinst
          obtain rfl := Outcome.ok.inj h
          exact .settled hspawned hinst
  | message message =>
      obtain rfl := Outcome.ok.inj h
      exact .message message
  | tick =>
      obtain rfl := Outcome.ok.inj h
      exact .tick

theorem handle_of_start {command : InstanceManagerCommand K} {request : StartInstanceRequest K}
    {responder : Responder} {syncResponder : Option Responder}
    (hcreation : command.creation? = some (request, responder, syncResponder))
    {answer : Except ProtocolError String}
    (hstart : start ctx self request syncResponder = .ok (answer, self')) :
    handle ctx self command = .ok (self'.emit (answers responder syncResponder answer)) := by
  cases command with
  | createInstance request responder =>
      cases hcreation
      rw [handle, hstart, Outcome.ok_bind]
      cases answer with
      | error error => exact congrArg Outcome.ok emit_nil.symm
      | ok id => rfl
  | createInstanceSync request responder syncResponder =>
      cases hcreation
      rw [handle, hstart, Outcome.ok_bind]
      cases answer <;> rfl
  | _ => cases hcreation

/-- The turns are what the loop does. -/
theorem onEvent_eq_ok_iff {event : ManagerEvent K} :
    onEvent ctx self event = .ok self' ↔ Turn ctx self event self' := by
  refine ⟨turn_of_onEvent, ?_⟩
  intro h
  cases h with
  | known hcreation hmem => exact handle_of_start hcreation (start_of_mem hmem _)
  | refused hcreation hnew hkey => exact handle_of_start hcreation (start_of_key_eq_none hnew hkey _)
  | launched hcreation hnew hkey hprotocol =>
      exact handle_of_start hcreation (start_of_newProtocol hnew hkey hprotocol _)
  | status hopen =>
      rw [onEvent, handle, if_neg (by simp [hopen])]
  | @absent executor result habsent =>
      rw [onEvent]
      split
      · rfl
      · rename_i spawned hspawned
        rw [handle_executeProtocol, AList.lookup_eq_none.mpr (habsent spawned hspawned)]
  | settled hspawned hinst =>
      rw [onEvent, hspawned]
      simp only [handle_executeProtocol, hinst]
  | message message => rfl
  | tick => rfl

/-- A run is a run up to its last event, and a turn. -/
theorem run_append_singleton {events : List (ManagerEvent K)} {event : ManagerEvent K} :
    run ctx (events ++ [event]) = .ok self'
      ↔ ∃ mid, run ctx events = .ok mid ∧ onEvent ctx mid event = .ok self' :=
  Outcome.foldlM_append_singleton

/-- The events before others lead to a state. -/
theorem exists_run_of_append {events more : List (ManagerEvent K)}
    (h : run ctx (events ++ more) = .ok self) : ∃ mid, run ctx events = .ok mid := by
  rw [run, List.foldlM_append] at h
  obtain ⟨mid, hmid, -⟩ := Outcome.bind_eq_ok.mp h
  exact ⟨mid, hmid⟩

/-- What holds of the first state and is kept by every turn holds in every state of a run. -/
theorem run_induction {motive : List (ManagerEvent K) → InstanceManager K → Prop}
    (hnew : motive [] new)
    (hstep : ∀ events self event self', motive events self → onEvent ctx self event = .ok self' →
      motive (events ++ [event]) self')
    {events : List (ManagerEvent K)} {self : InstanceManager K} (h : run ctx events = .ok self) :
    motive events self :=
  Outcome.foldlM_induction hnew
    (fun events self event self' _ ih hok => hstep events self event self' ih hok) h

/-! ### A run with one instance -/

section OneInstance

variable {command : InstanceManagerCommand K} {request : StartInstanceRequest K} {responder : Responder}
  {syncResponder : Option Responder} {protocol : ProtocolInstance K}

/-- The instance that a request starts in a new manager. -/
def firstInstance (id : String) (request : StartInstanceRequest K) (syncResponder : Option Responder) :
    Instance :=
  .new id request.getScheme request.getGroup (some 0) syncResponder

theorem lookup_launch_new (id : String) (effects : List Effect) :
    ((new.launch id request protocol syncResponder).emit effects).instances.instanceData.lookup id
      = some (firstInstance id request syncResponder) := by
  rw [instances_emit]
  exact AList.lookup_insert _

/-- The first request of a run is started. -/
theorem run_launch (hcreation : command.creation? = some (request, responder, syncResponder))
    (hkey : privateKeyFor ctx request = some protocol.key)
    (hprotocol : newProtocol ctx.draws protocol.key request = .ok protocol)
    (hclient : command.isClientCommand = true) :
    run ctx [.command command hclient]
      = .ok ((new.launch (assignInstanceId ctx.hash256 request) request protocol syncResponder).emit
        [.answered responder (.ok (assignInstanceId ctx.hash256 request))]) := by
  change run ctx ([] ++ [.command command hclient]) = _
  refine run_append_singleton.mpr ⟨new, rfl, onEvent_eq_ok_iff.mpr ?_⟩
  have hforward : (new.launch (assignInstanceId ctx.hash256 request) request protocol
      syncResponder).forwardBackloggedMessages (assignInstanceId ctx.hash256 request)
      = new.launch (assignInstanceId ctx.hash256 request) request protocol syncResponder := by
    rw [forwardBackloggedMessages]
    split <;> rfl
  rw [← hforward]
  exact .launched hcreation (AList.notMem_empty _) hkey hprotocol

/-- And its executor reports. -/
theorem run_launch_settle (hcreation : command.creation? = some (request, responder, syncResponder))
    (hkey : privateKeyFor ctx request = some protocol.key)
    (hprotocol : newProtocol ctx.draws protocol.key request = .ok protocol)
    (hclient : command.isClientCommand = true) (result : Except ProtocolError Bytes) :
    run ctx [.command command hclient, .terminated 0 result]
      = .ok (((new.launch (assignInstanceId ctx.hash256 request) request protocol syncResponder).emit
        [.answered responder (.ok (assignInstanceId ctx.hash256 request))]).settle
          (assignInstanceId ctx.hash256 request)
          (firstInstance (assignInstanceId ctx.hash256 request) request syncResponder) result) := by
  change run ctx ([.command command hclient] ++ [.terminated 0 result]) = _
  refine run_append_singleton.mpr
    ⟨_, run_launch hcreation hkey hprotocol hclient, onEvent_eq_ok_iff.mpr ?_⟩
  have hspawned : ((new.launch (assignInstanceId ctx.hash256 request) request protocol
      syncResponder).emit [.answered responder (.ok (assignInstanceId ctx.hash256 request))]).spawned[0]?
      = some ⟨assignInstanceId ctx.hash256 request, request, protocol⟩ := rfl
  exact .settled hspawned (lookup_launch_new _ _)

end OneInstance

/-! ### What the turns leave alone -/

@[simp] theorem spawned_onNetMessage (message : NetMessage) :
    (self.onNetMessage message).spawned = self.spawned := by
  unfold onNetMessage
  split
  · split <;> rfl
  · rfl

@[simp] theorem instances_onNetMessage (message : NetMessage) :
    (self.onNetMessage message).instances = self.instances := by
  unfold onNetMessage
  split
  · split <;> rfl
  · rfl

/-- Forwarding a backlog sends messages to executors and nothing else. -/
theorem effects_forwardBackloggedMessages (self : InstanceManager K) (instanceId : String) :
    ∃ sent : List (ℕ × NetMessage), (self.forwardBackloggedMessages instanceId).effects
      = self.effects ++ sent.map fun m => .forwarded m.1 m.2 := by
  have hnone : ∃ sent : List (ℕ × NetMessage),
      self.effects = self.effects ++ sent.map fun m => .forwarded m.1 m.2 :=
    ⟨[], (List.append_nil _).symm⟩
  unfold forwardBackloggedMessages
  split
  · exact hnone
  · split
    · exact hnone
    · rename_i backlog _
      dsimp only
      split
      · rename_i executor _
        refine ⟨backlog.messages.map (executor, ·), ?_⟩
        rw [List.map_map]
        rfl
      · exact hnone

/-- The executor that the messages for an instance are forwarded to. -/
def recipient (self : InstanceManager K) (id : String) : Option ℕ :=
  (self.instances.instanceData.lookup id).bind fun inst =>
    if inst.finished then none else inst.messageChannelSender

theorem effects_onNetMessage_eq (self : InstanceManager K) (message : NetMessage) :
    (self.onNetMessage message).effects
      = self.effects ++ (self.recipient message.instanceId).toList.map (.forwarded · message) := by
  rw [onNetMessage, recipient]
  cases self.instances.instanceData.lookup message.instanceId with
  | none => exact (List.append_nil _).symm
  | some inst =>
      dsimp only [Option.bind_some]
      split
      · exact (List.append_nil _).symm
      · rfl

/-- So does the arrival of a message. -/
theorem effects_onNetMessage (self : InstanceManager K) (message : NetMessage) :
    ∃ sent : List (ℕ × NetMessage), (self.onNetMessage message).effects
      = self.effects ++ sent.map fun m => .forwarded m.1 m.2 := by
  refine ⟨(self.recipient message.instanceId).toList.map (·, message), ?_⟩
  rw [effects_onNetMessage_eq, List.map_map]
  rfl

/-- The instances after one of them is finished. -/
theorem lookup_settle_cases {id id' : String} {inst inst' : Instance}
    {result : Except ProtocolError Bytes}
    (h : (self.settle id inst result).instances.instanceData.lookup id' = some inst') :
    (id' = id ∧ inst' = inst.settled result)
      ∨ (id' ≠ id ∧ self.instances.instanceData.lookup id' = some inst') := by
  rw [settle, instances_emit] at h
  by_cases heq : id' = id
  · subst heq
    rw [AList.lookup_insert] at h
    exact .inl ⟨rfl, (Option.some.inj h).symm⟩
  · rw [AList.lookup_insert_ne heq] at h
    exact .inr ⟨heq, h⟩

end InstanceManager

end QuorumCrypt
