import QuorumCrypt.Keys.KeyStore
import QuorumCrypt.Protocols.NonInteractive
import QuorumCrypt.Protocols.Frost

/-!
# The instance manager

`instance_manager.rs` and `instance.rs`: one task that owns all protocol instances of a node. It takes
commands from the clients and from the executors it spawned, and messages from the network, one at a
time. A panic in a handler ends the task.

The manager hands things to other tasks: executors it spawns, answers it sends on channels, messages it
forwards. The model keeps a record of them. An executor is known by its position in the list of all
executors ever spawned.
-/

namespace QuorumCrypt

open Rust

/-! ### Requests and their ids -/

inductive StartInstanceRequest (K : Curves) where
  | decryption (ciphertext : Ciphertext K)
  | signature (message label : Bytes) (scheme : ThresholdScheme) (group : Group)
      (keyId : Option String)
  | coin (name : Bytes) (scheme : ThresholdScheme) (group : Group) (keyId : Option String)

/-- `str::as_bytes`. -/
def asBytes (s : String) : Bytes := s.toUTF8.data.toList

namespace StartInstanceRequest

variable {K : Curves}

def getScheme : StartInstanceRequest K → ThresholdScheme
  | decryption ciphertext => ciphertext.getScheme
  | signature _ _ scheme _ _ => scheme
  | coin _ scheme _ _ => scheme

def getGroup : StartInstanceRequest K → Group
  | decryption ciphertext => ciphertext.getGroup
  | signature _ _ _ group _ => group
  | coin _ _ group _ => group

/-- A ciphertext names the key it was encrypted with. -/
def getKeyId : StartInstanceRequest K → Option String
  | decryption ciphertext => some ciphertext.getKeyId
  | signature _ _ _ _ keyId => keyId
  | coin _ _ _ keyId => keyId

def getOperation : StartInstanceRequest K → ThresholdOperation
  | decryption _ => .encryption
  | signature _ _ _ _ _ => .signature
  | coin _ _ _ _ => .coin

/-- What `assign_instance_id` feeds to the hash function, one field after the other. The message to
sign is not in it, nor are the scheme and the group of a coin. -/
def hashedFields : StartInstanceRequest K → Bytes
  | decryption ciphertext => ciphertext.getCk
  | signature _ label scheme group keyId =>
      label ++ asBytes scheme.asStrName ++ asBytes group.asStrName ++ keyId.elim [] asBytes
  | coin name _ _ keyId => name ++ keyId.elim [] asBytes

end StartInstanceRequest

def hexDigit (d : ℕ) : Char :=
  if d < 10 then Char.ofNat (48 + d) else Char.ofNat (87 + d)

/-- `hex::encode`. -/
def hexEncode (b : Bytes) : String :=
  .ofList (b.flatMap fun x => [hexDigit (x.toNat / 16), hexDigit (x.toNat % 16)])

def assignInstanceId {K : Curves} (hash256 : Bytes → Bytes) (request : StartInstanceRequest K) :
    String :=
  hexEncode (hash256 request.hashedFields)

/-! ### Instances -/

/-- The sending half of a oneshot channel. The receiver may be gone when the answer is sent. -/
structure Responder where
  channel : ℕ
  isClosed : Bool
  deriving DecidableEq

structure Instance where
  id : String
  scheme : ThresholdScheme
  group : Group
  /-- The executor at the other end of the channel. -/
  messageChannelSender : Option ℕ
  status : String
  finished : Bool
  result : Option (Except ProtocolError Bytes)
  resultSender : Option Responder

namespace Instance

def new (id : String) (scheme : ThresholdScheme) (group : Group) (messageChannelSender : Option ℕ)
    (resultSender : Option Responder) : Instance :=
  { id, scheme, group, messageChannelSender, resultSender, status := "created", finished := false
    result := none }

def setStatus (self : Instance) (status : String) : Instance := { self with status }

def setResult (self : Instance) (result : Except ProtocolError Bytes) : Instance :=
  { self with result := some result, finished := true, messageChannelSender := none }

end Instance

/-- What a client is told about an instance. -/
structure InstanceStatus where
  scheme : ThresholdScheme
  group : Group
  finished : Bool
  result : Option (Except ProtocolError Bytes)

structure InstanceCache where
  instanceData : HashMap String Instance
  capacity : ℕ
  terminatedInstances : List String

namespace InstanceCache

def defaultInstanceCacheSize : ℕ := 10000

def instanceCacheCleanupScanLength : ℕ := 5000

def new (capacity : Option ℕ) : InstanceCache :=
  { instanceData := ∅
    capacity := capacity.getD defaultInstanceCacheSize
    terminatedInstances := [] }

/-- Remove terminated instances, the oldest first. -/
def attemptEject (self : InstanceCache) : InstanceCache :=
  let maxIterations := min self.terminatedInstances.length instanceCacheCleanupScanLength
  { self with
    instanceData := (self.terminatedInstances.take maxIterations).foldl
      (fun data candidate => data.erase candidate) self.instanceData
    terminatedInstances := self.terminatedInstances.drop maxIterations }

def insert (self : InstanceCache) (instanceId : String) (inst : Instance) : InstanceCache :=
  let self := if self.capacity ≤ self.instanceData.len then self.attemptEject else self
  { self with instanceData := self.instanceData.insert instanceId inst }

end InstanceCache

structure NetMessage where
  instanceId : String
  messageData : Bytes
  deriving DecidableEq

structure BacklogData where
  messages : List NetMessage
  checked : Bool

/-! ### The manager -/

/-- The protocol that an executor runs. -/
inductive ProtocolInstance (K : Curves) where
  | cipher (privateKey : PrivateKeyShare K) (ciphertext : Ciphertext K)
  | signature (privateKey : PrivateKeyShare K) (message : Option Bytes) (label : Bytes)
  | coin (privateKey : PrivateKeyShare K) (name : Bytes)
  | frost (c : Curve) (state : FrostProtocol K c)

/-- The key a protocol runs with. -/
def ProtocolInstance.key {K : Curves} : ProtocolInstance K → PrivateKeyShare K
  | cipher privateKey _ => privateKey
  | signature privateKey _ _ => privateKey
  | coin privateKey _ => privateKey
  | frost c state => .frost c state.key

/-- An executor, with the request it was spawned for. -/
structure Spawned (K : Curves) where
  instanceId : String
  request : StartInstanceRequest K
  protocol : ProtocolInstance K

/-- What the manager hands to other tasks. -/
inductive Effect where
  | answered (responder : Responder) (answer : Except ProtocolError String)
  | reported (responder : Responder) (status : Option InstanceStatus)
  | delivered (responder : Responder) (result : Except ProtocolError Bytes)
  | forwarded (executor : ℕ) (message : NetMessage)

structure InstanceManager (K : Curves) where
  instances : InstanceCache
  backlog : HashMap String BacklogData
  spawned : List (Spawned K)
  effects : List Effect

/-- What the manager works with: the hash function, the generator that draws signer groups, and the
key manager. -/
structure ManagerContext (K : Curves) where
  hash256 : Bytes → Bytes
  draws : SignerDraws
  order : IterationOrder String (KeyEntry K)
  store : KeyStore K

inductive InstanceManagerCommand (K : Curves) where
  | createInstance (request : StartInstanceRequest K) (responder : Responder)
  | createInstanceSync (request : StartInstanceRequest K) (responder syncResponder : Responder)
  | getInstanceStatus (instanceId : String) (responder : Responder)
  | storeResult (instanceId : String) (result : Except ProtocolError Bytes)
  | updateInstanceStatus (instanceId status : String) (error : Option ProtocolError)

inductive Code where
  | alreadyExists
  | invalidArgument
  | notFound
  deriving DecidableEq

structure GrpcStatus where
  code : Code
  message : String

/-- The command an executor sends when its run is over. -/
def executeProtocol {K : Curves} (instanceId : String) (result : Except ProtocolError Bytes) :
    InstanceManagerCommand K :=
  match result with
  | .ok value => .storeResult instanceId (.ok value)
  | .error error => .updateInstanceStatus instanceId "Failed" (some error)

namespace InstanceManager

variable {K : Curves} (ctx : ManagerContext K)

def new : InstanceManager K :=
  { instances := .new none, backlog := ∅, spawned := [], effects := [] }

def emit (self : InstanceManager K) (effects : List Effect) : InstanceManager K :=
  { self with effects := self.effects ++ effects }

/-- The executor of an instance is the last one that was spawned under its id. -/
def executorOf (self : InstanceManager K) (instanceId : String) : Option (Spawned K) :=
  (self.spawned.filter fun executor => executor.instanceId = instanceId).getLast?

/-- The private key for a request, unless there is an instance with its id. Neither the scheme nor the
group of a key that is named by its id is looked at. -/
def setupInstance (self : InstanceManager K) (scheme : ThresholdScheme) (group : Group)
    (instanceId : String) (keyId : Option String) : Except GrpcStatus (PrivateKeyShare K) :=
  if instanceId ∈ self.instances.instanceData then
    .error ⟨.alreadyExists,
      "A similar request with request_id " ++ instanceId ++ " already exists."⟩
  else
    match ctx.store.lookup ctx.order scheme group keyId with
    | .error err => .error ⟨.invalidArgument, err⟩
    | .ok entry =>
        match entry.sk with
        | none => .error ⟨.invalidArgument, "private key not found"⟩
        | some key => .ok key

/-- The messages that came before the instance was started go to its executor. -/
def forwardBackloggedMessages (self : InstanceManager K) (instanceId : String) : InstanceManager K :=
  match self.instances.instanceData.lookup instanceId with
  | none => self
  | some inst =>
      match self.backlog.lookup instanceId with
      | none => self
      | some backlog =>
          let self := match inst.messageChannelSender with
            | some executor => self.emit (backlog.messages.map (.forwarded executor))
            | none => self
          { self with backlog := self.backlog.erase instanceId }

/-- The protocol is chosen by the request. The label of a FROST request is not used. -/
def newProtocol (draws : SignerDraws) (key : PrivateKeyShare K) :
    StartInstanceRequest K → ProtocolOutcome (ProtocolInstance K)
  | .decryption ciphertext => .ok (.cipher key ciphertext)
  | .signature message label scheme _ _ =>
      if scheme = .frost then do
        let ⟨c, state⟩ ← FrostProtocol.new draws key message (asBytes "label") .noPrecomputation none
        .ok (.frost c state)
      else .ok (.signature key (some message) label)
  | .coin name _ _ _ => .ok (.coin key name)

/-- The instance is stored and its executor spawned. -/
def launch (self : InstanceManager K) (instanceId : String) (request : StartInstanceRequest K)
    (protocol : ProtocolInstance K) (syncResponder : Option Responder) : InstanceManager K :=
  let inst := Instance.new instanceId request.getScheme request.getGroup (some self.spawned.length)
    syncResponder
  { self with
    instances := self.instances.insert instanceId inst
    spawned := self.spawned ++ [Spawned.mk instanceId request protocol] }

/-- A request whose id is already there gets that id for an answer. -/
def start (self : InstanceManager K) (request : StartInstanceRequest K)
    (syncResponder : Option Responder) :
    ProtocolOutcome (Except ProtocolError String × InstanceManager K) :=
  let instanceId := assignInstanceId ctx.hash256 request
  match self.setupInstance ctx request.getScheme request.getGroup instanceId request.getKeyId with
  | .error e =>
      if e.code = .alreadyExists then .ok (.ok instanceId, self)
      else .ok (.error (.schemeError (.aborted "key not found")), self)
  | .ok key => do
      let protocol ← newProtocol ctx.draws key request
      let self := self.launch instanceId request protocol syncResponder
      .ok (.ok instanceId, self.forwardBackloggedMessages instanceId)

/-- The instance is finished: its result goes to the client that waits for it. -/
def informOfTermination (self : InstanceManager K) (instanceId : String) :
    ProtocolOutcome (InstanceManager K) :=
  match self.instances.instanceData.lookup instanceId with
  | none => .ok self
  | some inst => do
      let result ← Outcome.unwrap inst.result
      let instances :=
        { self.instances with
          instanceData := self.instances.instanceData.insert instanceId
            { inst with resultSender := none }
          terminatedInstances := self.instances.terminatedInstances ++ [instanceId] }
      .ok ({ self with instances }.emit
        (inst.resultSender.toList.map fun sender => .delivered sender result))

/-- Change an instance that is there. -/
def modifyInstance (self : InstanceManager K) (instanceId : String) (change : Instance → Instance) :
    InstanceManager K :=
  match self.instances.instanceData.lookup instanceId with
  | none => self
  | some inst =>
      { self with
        instances :=
          { self.instances with
            instanceData := self.instances.instanceData.insert instanceId (change inst) } }

/-- The status of an instance, for a client. -/
def getStatus (self : InstanceManager K) (instanceId : String) : Option InstanceStatus :=
  (self.instances.instanceData.lookup instanceId).map fun inst =>
    { scheme := inst.scheme, group := inst.group, finished := inst.finished, result := inst.result }

/-- A request that cannot be started is answered only if it is synchronous. A client that asked for a
status and is gone makes the manager panic. -/
def handle (self : InstanceManager K) : InstanceManagerCommand K → ProtocolOutcome (InstanceManager K)
  | .createInstance request responder => do
      let (result, self) ← start ctx self request none
      match result with
      | .error _ => .ok self
      | .ok id => .ok (self.emit [.answered responder (.ok id)])
  | .createInstanceSync request responder syncResponder => do
      let (result, self) ← start ctx self request (some syncResponder)
      .ok (self.emit [.answered responder result])
  | .getInstanceStatus instanceId responder =>
      if responder.isClosed then .panic
      else .ok (self.emit [.reported responder (self.getStatus instanceId)])
  | .storeResult instanceId result =>
      (self.modifyInstance instanceId fun inst => inst.setResult result).informOfTermination instanceId
  | .updateInstanceStatus instanceId status (some error) =>
      (self.modifyInstance instanceId fun inst =>
        (inst.setStatus status).setResult (.error error)).informOfTermination instanceId
  | .updateInstanceStatus instanceId status none =>
      .ok (self.modifyInstance instanceId fun inst => inst.setStatus status)

/-- A message for an instance that is not there is kept for a while. -/
def onNetMessage (self : InstanceManager K) (message : NetMessage) : InstanceManager K :=
  match self.instances.instanceData.lookup message.instanceId with
  | some inst =>
      if inst.finished then self
      else self.emit (inst.messageChannelSender.toList.map fun executor => .forwarded executor message)
  | none =>
      let backlogData := match self.backlog.lookup message.instanceId with
        | some data => { data with messages := data.messages ++ [message] }
        | none => { messages := [message], checked := false }
      { self with backlog := self.backlog.insert message.instanceId backlogData }

/-- Messages that were there at the last tick are dropped. -/
def onTick (self : InstanceManager K) : InstanceManager K :=
  let kept := self.backlog.entries.filter fun entry => entry.2.checked = false
  { self with
    backlog := (kept.map fun entry => (⟨entry.1, { entry.2 with checked := true }⟩ :
      (_ : String) × BacklogData)).toAList }

end InstanceManager

/-- The commands of the clients. -/
def InstanceManagerCommand.isClientCommand {K : Curves} : InstanceManagerCommand K → Bool
  | createInstance _ _ => true
  | createInstanceSync _ _ _ => true
  | getInstanceStatus _ _ => true
  | storeResult _ _ => false
  | updateInstanceStatus _ _ _ => false

theorem InstanceManagerCommand.isClientCommand_createInstance {K : Curves}
    (request : StartInstanceRequest K) (responder : Responder) :
    (createInstance request responder).isClientCommand = true := rfl

/-- What the manager waits for. The commands that do not come from clients come from executors. -/
inductive ManagerEvent (K : Curves) where
  | command (command : InstanceManagerCommand K) (hclient : command.isClientCommand = true)
  | terminated (executor : ℕ) (result : Except ProtocolError Bytes)
  | message (message : NetMessage)
  | tick

namespace InstanceManager

variable {K : Curves} (ctx : ManagerContext K)

/-- One turn of the loop of `run`. -/
def onEvent (self : InstanceManager K) : ManagerEvent K → ProtocolOutcome (InstanceManager K)
  | .command command _ => handle ctx self command
  | .terminated executor result =>
      match self.spawned[executor]? with
      | none => .ok self
      | some spawned => handle ctx self (executeProtocol spawned.instanceId result)
  | .message message => .ok (self.onNetMessage message)
  | .tick => .ok self.onTick

/-- The loop over the events that occur. -/
def run (events : List (ManagerEvent K)) : ProtocolOutcome (InstanceManager K) :=
  events.foldlM (onEvent ctx) new

/-! ### What a request can do -/

variable {ctx} {self : InstanceManager K} {request : StartInstanceRequest K}

variable (ctx request) in
/-- The private share that the key manager has for a request. -/
def privateKeyFor : Option (PrivateKeyShare K) :=
  match ctx.store.lookup ctx.order request.getScheme request.getGroup request.getKeyId with
  | .ok entry => entry.sk
  | .error _ => none

theorem start_of_mem (h : assignInstanceId ctx.hash256 request ∈ self.instances.instanceData)
    (syncResponder : Option Responder) :
    start ctx self request syncResponder = .ok (.ok (assignInstanceId ctx.hash256 request), self) := by
  simp [start, setupInstance, h]

theorem start_of_key_eq_none
    (h : assignInstanceId ctx.hash256 request ∉ self.instances.instanceData)
    (hkey : privateKeyFor ctx request = none) (syncResponder : Option Responder) :
    start ctx self request syncResponder
      = .ok (.error (.schemeError (.aborted "key not found")), self) := by
  unfold privateKeyFor at hkey
  split at hkey
  · rename_i entry hlookup
    simp [start, setupInstance, h, hlookup, hkey]
  · rename_i err hlookup
    simp [start, setupInstance, h, hlookup]

theorem start_of_key {key : PrivateKeyShare K}
    (h : assignInstanceId ctx.hash256 request ∉ self.instances.instanceData)
    (hkey : privateKeyFor ctx request = some key) (syncResponder : Option Responder) :
    start ctx self request syncResponder = (do
      let protocol ← newProtocol ctx.draws key request
      .ok (.ok (assignInstanceId ctx.hash256 request),
        (self.launch (assignInstanceId ctx.hash256 request) request protocol
          syncResponder).forwardBackloggedMessages (assignInstanceId ctx.hash256 request))) := by
  unfold privateKeyFor at hkey
  split at hkey
  · rename_i entry hlookup
    simp [start, setupInstance, h, hlookup, hkey]
  · cases hkey

theorem start_of_newProtocol {key : PrivateKeyShare K} {protocol : ProtocolInstance K}
    (h : assignInstanceId ctx.hash256 request ∉ self.instances.instanceData)
    (hkey : privateKeyFor ctx request = some key)
    (hprotocol : newProtocol ctx.draws key request = .ok protocol)
    (syncResponder : Option Responder) :
    start ctx self request syncResponder
      = .ok (.ok (assignInstanceId ctx.hash256 request),
        (self.launch (assignInstanceId ctx.hash256 request) request protocol
          syncResponder).forwardBackloggedMessages (assignInstanceId ctx.hash256 request)) := by
  rw [start_of_key h hkey, hprotocol]
  rfl

/-- The protocol of a request runs with the key that was found for it. -/
theorem key_newProtocol {draws : SignerDraws} {key : PrivateKeyShare K}
    {protocol : ProtocolInstance K} (h : newProtocol draws key request = .ok protocol) :
    protocol.key = key := by
  cases request with
  | decryption ciphertext =>
      obtain rfl := Outcome.ok.inj h
      rfl
  | signature message label scheme group keyId =>
      rw [newProtocol] at h
      split at h
      · obtain ⟨⟨c, state⟩, hnew, heq⟩ := Outcome.bind_eq_ok.mp h
        obtain rfl := Outcome.ok.inj heq
        cases key with
        | frost c' k =>
            obtain ⟨group, -, heq⟩ := Outcome.bind_eq_ok.mp hnew
            cases Outcome.ok.inj heq
            rfl
        | _ => cases hnew
      · obtain rfl := Outcome.ok.inj h
        rfl
  | coin name scheme group keyId =>
      obtain rfl := Outcome.ok.inj h
      rfl

/-! ### Frame lemmas -/

@[simp] theorem instances_emit (effects : List Effect) :
    (self.emit effects).instances = self.instances := rfl

@[simp] theorem spawned_emit (effects : List Effect) :
    (self.emit effects).spawned = self.spawned := rfl

@[simp] theorem instances_forwardBackloggedMessages (instanceId : String) :
    (self.forwardBackloggedMessages instanceId).instances = self.instances := by
  unfold forwardBackloggedMessages
  split
  · rfl
  · split
    · rfl
    · dsimp only
      split <;> rfl

@[simp] theorem spawned_forwardBackloggedMessages (instanceId : String) :
    (self.forwardBackloggedMessages instanceId).spawned = self.spawned := by
  unfold forwardBackloggedMessages
  split
  · rfl
  · split
    · rfl
    · dsimp only
      split <;> rfl

/-- Ejection keeps what it does not remove. -/
theorem lookup_attemptEject {cache : InstanceCache} {id : String} {inst : Instance}
    (h : cache.attemptEject.instanceData.lookup id = some inst) :
    cache.instanceData.lookup id = some inst := by
  have herase : ∀ (ids : List String) (data : HashMap String Instance),
      (ids.foldl (fun data candidate => data.erase candidate) data).lookup id = some inst →
      data.lookup id = some inst := by
    intro ids
    induction ids with
    | nil => exact fun data h => h
    | cons candidate ids ih =>
        intro data h
        have hrest := ih _ h
        by_cases heq : id = candidate
        · subst heq
          rw [AList.lookup_erase] at hrest
          cases hrest
        · rwa [AList.lookup_erase_ne heq] at hrest
  exact herase _ _ h

/-- An instance in the cache after an insertion is the new one, or it was there before. -/
theorem lookup_insert_cases {cache : InstanceCache} {id id' : String} {inst inst' : Instance}
    (h : (cache.insert id inst).instanceData.lookup id' = some inst') :
    (id' = id ∧ inst' = inst) ∨ cache.instanceData.lookup id' = some inst' := by
  unfold InstanceCache.insert at h
  dsimp only at h
  by_cases heq : id' = id
  · subst heq
    rw [AList.lookup_insert] at h
    exact .inl ⟨rfl, (Option.some.inj h).symm⟩
  · rw [AList.lookup_insert_ne heq] at h
    split at h
    · exact .inr (lookup_attemptEject h)
    · exact .inr h

theorem mem_insert_self (cache : InstanceCache) (id : String) (inst : Instance) :
    id ∈ (cache.insert id inst).instanceData :=
  (AList.mem_insert _).mpr (.inl rfl)

/-- The executor that was just spawned is that of its instance. -/
theorem executorOf_launch (instanceId : String) (protocol : ProtocolInstance K)
    (syncResponder : Option Responder) :
    (self.launch instanceId request protocol syncResponder).executorOf instanceId
      = some ⟨instanceId, request, protocol⟩ := by
  simp [executorOf, launch, List.filter_append]

end InstanceManager

end QuorumCrypt
