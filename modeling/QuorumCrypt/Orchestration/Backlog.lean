import QuorumCrypt.Orchestration.CacheSafety
import Mathlib.Data.List.TakeWhile

/-!
# Messages that come before their instance

A message for an instance that is not there is put into the backlog. When the instance is created, a task
of its own sends the messages of the backlog to the channel of the executor, one after the other, while
the manager goes on and forwards new messages to the same channel. A tick of the clock deletes what was
in the backlog at the tick before.

In `InstanceManager` the messages of a backlog are handed over at once. Here the tasks that send them are
part of the state and take steps of their own, between any two turns of the manager.
-/

namespace QuorumCrypt

open Rust

variable {K : Curves}

/-- A list that has the elements of two others, each of them once and in the order of its own list. -/
inductive Interleaves {α : Type} : List α → List α → List α → Prop
  | nil : Interleaves [] [] []
  | left {xs ys zs : List α} (h : Interleaves xs ys zs) (x : α) :
      Interleaves (xs ++ [x]) ys (zs ++ [x])
  | right {xs ys zs : List α} (h : Interleaves xs ys zs) (y : α) :
      Interleaves xs (ys ++ [y]) (zs ++ [y])

theorem Interleaves.perm {α : Type} {xs ys zs : List α} (h : Interleaves xs ys zs) :
    zs.Perm (xs ++ ys) := by
  induction h with
  | nil => exact .refl _
  | @left xs ys zs h x ih =>
      rw [List.append_assoc]
      refine (ih.append_right [x]).trans ?_
      rw [List.append_assoc]
      exact List.perm_append_comm.append_left xs
  | right h y ih =>
      rw [← List.append_assoc]
      exact ih.append_right [y]

/-! ### The system -/

/-- The manager, what the tasks that send a backlog still have to send, and what was handed to the
channels. An executor gets such a task when it is spawned, so there is one for each at most. -/
structure DeliverySystem (K : Curves) where
  manager : InstanceManager K
  flushing : ℕ → List NetMessage
  channels : ℕ → List NetMessage

/-- A turn of the manager, or a task sends its next message. -/
inductive DeliveryEvent (K : Curves) where
  | turn (event : ManagerEvent K)
  | flush (executor : ℕ)

/-- The messages for an executor among the effects of a turn. -/
def messagesTo (executor : ℕ) (sent : List Effect) : List NetMessage :=
  sent.filterMap fun
    | .forwarded executor' message => if executor' = executor then some message else none
    | _ => none

namespace DeliverySystem

variable (ctx : ManagerContext K)

def new : DeliverySystem K := ⟨.new, fun _ => [], fun _ => []⟩

/-- A message that arrives is handed over by the manager itself; what a new executor gets from the
backlog is left to a task. -/
def onTurn (self : DeliverySystem K) (event : ManagerEvent K) (manager : InstanceManager K) :
    DeliverySystem K :=
  let sent := manager.effects.drop self.manager.effects.length
  match event with
  | .message _ =>
      { self with manager, channels := fun e => self.channels e ++ messagesTo e sent }
  | _ => { self with manager, flushing := fun e => self.flushing e ++ messagesTo e sent }

/-- The task sends its next message, if there is one. -/
def onFlush (self : DeliverySystem K) (executor : ℕ) : DeliverySystem K :=
  match self.flushing executor with
  | [] => self
  | message :: rest =>
      { self with
        flushing := Function.update self.flushing executor rest
        channels := Function.update self.channels executor (self.channels executor ++ [message]) }

def onEvent (self : DeliverySystem K) : DeliveryEvent K → ProtocolOutcome (DeliverySystem K)
  | .turn event => do
      let manager ← InstanceManager.onEvent ctx self.manager event
      .ok (self.onTurn event manager)
  | .flush executor => .ok (self.onFlush executor)

def run (events : List (DeliveryEvent K)) : ProtocolOutcome (DeliverySystem K) :=
  events.foldlM (onEvent ctx) new

end DeliverySystem

/-! ### What a run is made of -/

namespace DeliveryEvent

def turn? : DeliveryEvent K → Option (ManagerEvent K)
  | turn event => some event
  | flush _ => none

/-- The message for the instance that arrives. -/
def arrival? (id : String) : DeliveryEvent K → Option NetMessage
  | turn (.message message) => if message.instanceId = id then some message else none
  | _ => none

def isTick : DeliveryEvent K → Bool
  | turn .tick => true
  | _ => false

/-- The executor reports. -/
def reports (executor : ℕ) : DeliveryEvent K → Bool
  | turn (.terminated executor' _) => executor' = executor
  | _ => false

theorem isTick_iff {event : DeliveryEvent K} : event.isTick = true ↔ event = turn .tick := by
  constructor
  · intro h
    cases event with
    | flush executor => cases h
    | turn event => cases event <;> first | rfl | cases h
  · rintro rfl
    rfl

theorem reports_turn {event : ManagerEvent K} {executor : ℕ} :
    (turn event).reports executor = true ↔ event.terminated? = some executor := by
  cases event <;> simp [reports, ManagerEvent.terminated?]

theorem arrival?_eq_some_iff {event : DeliveryEvent K} {id : String} {message : NetMessage} :
    event.arrival? id = some message ↔ event = turn (.message message) ∧ message.instanceId = id := by
  constructor
  · intro h
    unfold arrival? at h
    split at h
    · split at h
      · rename_i hid
        obtain rfl := Option.some.inj h
        exact ⟨rfl, hid⟩
      · cases h
    · cases h
  · rintro ⟨rfl, hid⟩
    exact if_pos hid

end DeliveryEvent

section Histories

variable (id : String) (executor : ℕ) (events : List (DeliveryEvent K))

/-- The turns of the manager. -/
def turnsOf : List (ManagerEvent K) := events.filterMap DeliveryEvent.turn?

/-- The messages that arrive for the instance. -/
def arrivalsFor : List NetMessage := events.filterMap (DeliveryEvent.arrival? id)

/-- Those that arrive before its executor reports. -/
def arrivalsUntil : List NetMessage :=
  arrivalsFor id (events.takeWhile fun event => !event.reports executor)

/-- The ticks since the first message for the instance arrived. -/
def ticksSinceArrival : ℕ :=
  (events.dropWhile fun event => (event.arrival? id).isNone).countP DeliveryEvent.isTick

variable {id executor events} {event : DeliveryEvent K}

theorem turnsOf_append (more : List (DeliveryEvent K)) :
    turnsOf (events ++ more) = turnsOf events ++ turnsOf more := List.filterMap_append ..

theorem arrivalsFor_append_singleton :
    arrivalsFor id (events ++ [event]) = arrivalsFor id events ++ (event.arrival? id).toList := by
  rw [arrivalsFor, List.filterMap_append]
  cases h : event.arrival? id <;> simp [arrivalsFor, h]

/-- A message that arrives after the report is not counted. -/
theorem arrivalsUntil_append_singleton :
    arrivalsUntil id executor (events ++ [event])
      = arrivalsUntil id executor events
        ++ if events.any (DeliveryEvent.reports executor) then [] else (event.arrival? id).toList := by
  have hself : events.takeWhile (fun event => !event.reports executor) = events
      ↔ events.any (DeliveryEvent.reports executor) = false := by
    rw [List.takeWhile_eq_self_iff, List.any_eq_false]
    simp
  rw [arrivalsUntil, arrivalsUntil, List.takeWhile_append]
  split
  · rename_i hlength
    have hpre := (List.takeWhile_prefix _).eq_of_length hlength
    rw [hself.mp hpre, if_neg Bool.false_ne_true, hpre]
    cases hreports : event.reports executor with
    | false =>
        rw [List.takeWhile_cons_of_pos (by simp [hreports]), List.takeWhile_nil]
        exact arrivalsFor_append_singleton
    | true =>
        have harrival : event.arrival? id = none := by
          rw [Option.eq_none_iff_forall_ne_some]
          intro message harrival
          obtain ⟨rfl, -⟩ := DeliveryEvent.arrival?_eq_some_iff.mp harrival
          cases hreports
        simp [hreports, harrival]
  · rename_i hlength
    rw [if_pos, List.append_nil]
    by_contra hnone
    exact hlength (congrArg List.length (hself.mpr (Bool.not_eq_true _ ▸ hnone)))

theorem ticksSinceArrival_append_singleton :
    ticksSinceArrival id (events ++ [event])
      = if arrivalsFor id events = [] then 0
        else ticksSinceArrival id events + if event.isTick then 1 else 0 := by
  rw [ticksSinceArrival, ticksSinceArrival, List.dropWhile_append]
  have hempty : (events.dropWhile fun event => (event.arrival? id).isNone).isEmpty = true
      ↔ arrivalsFor id events = [] := by
    rw [List.isEmpty_iff, List.dropWhile_eq_nil_iff, arrivalsFor, List.filterMap_eq_nil_iff]
    simp
  split
  · rename_i hnone
    rw [if_pos (hempty.mp hnone)]
    cases harrival : event.arrival? id with
    | none => simp [harrival]
    | some message =>
        obtain ⟨rfl, -⟩ := DeliveryEvent.arrival?_eq_some_iff.mp harrival
        simp [harrival, DeliveryEvent.isTick]
  · rename_i hsome
    rw [if_neg fun hnil => hsome (hempty.mpr hnil), List.countP_append, List.countP_singleton]

theorem ticksSinceArrival_le_append :
    ticksSinceArrival id events ≤ ticksSinceArrival id (events ++ [event]) := by
  rw [ticksSinceArrival, ticksSinceArrival, List.dropWhile_append]
  split
  · rename_i hempty
    rw [List.isEmpty_iff.mp hempty]
    exact Nat.zero_le _
  · rw [List.countP_append]
    exact Nat.le_add_right _ _

end Histories

/-! ### What the turns do to the backlog -/

namespace InstanceManager

variable {ctx : ManagerContext K} {self self' : InstanceManager K} {id : String}

theorem lookup_onTick (self : InstanceManager K) (id : String) :
    self.onTick.backlog.lookup id
      = (self.backlog.lookup id).bind fun data =>
        if data.checked then none else some { data with checked := true } := by
  have hnodup : ((self.backlog.entries.filter fun entry => entry.2.checked = false).map
      fun entry => (⟨entry.1, { entry.2 with checked := true }⟩
        : (_ : String) × BacklogData)).NodupKeys :=
    (self.backlog.nodupKeys.sublist List.filter_sublist).map₂
      fun _ data => { data with checked := true }
  rw [onTick, AList.lookup_to_alist]
  refine Option.ext fun data => ?_
  rw [← Option.mem_def, List.mem_dlookup_iff hnodup, List.mem_map, Option.bind_eq_some_iff]
  constructor
  · rintro ⟨⟨id', old⟩, hmem, heq⟩
    obtain ⟨hmem, hchecked⟩ := List.mem_filter.mp hmem
    cases heq
    refine ⟨old, AList.mem_lookup_iff.mpr hmem, ?_⟩
    rw [if_neg (by simpa using hchecked)]
  · rintro ⟨old, hlookup, hdata⟩
    split at hdata
    · cases hdata
    · rename_i hchecked
      obtain rfl := Option.some.inj hdata
      refine ⟨⟨id, old⟩, List.mem_filter.mpr ⟨AList.mem_lookup_iff.mp hlookup, ?_⟩, rfl⟩
      simpa using hchecked

/-- The messages in the backlog of an instance. -/
def backlogged (self : InstanceManager K) (id : String) : List NetMessage :=
  (self.backlog.lookup id).elim [] BacklogData.messages

/-- A new instance gets what is in its backlog, and the backlog is gone. -/
theorem forwardBackloggedMessages_launch (self : InstanceManager K) (id : String)
    (request : StartInstanceRequest K) (protocol : ProtocolInstance K)
    (syncResponder : Option Responder) :
    (self.launch id request protocol syncResponder).forwardBackloggedMessages id
      = { (self.launch id request protocol syncResponder).emit
          ((self.backlogged id).map (.forwarded self.spawned.length)) with
        backlog := self.backlog.erase id } := by
  have hinst : (self.launch id request protocol syncResponder).instances.instanceData.lookup id
      = some (.new id request.getScheme request.getGroup (some self.spawned.length) syncResponder) :=
    InstanceCache.lookup_insert_self _ _ _
  have hbacklog : (self.launch id request protocol syncResponder).backlog = self.backlog := rfl
  rw [forwardBackloggedMessages, hinst, hbacklog, backlogged]
  cases hlookup : self.backlog.lookup id with
  | none =>
      have herase : self.backlog.erase id = self.backlog :=
        AList.ext (List.kerase_of_notMem_keys (AList.lookup_eq_none.mp hlookup))
      rw [herase]
      exact emit_nil.symm
  | some data => rfl

theorem effects_launch (self : InstanceManager K) (id : String) (request : StartInstanceRequest K)
    (protocol : ProtocolInstance K) (syncResponder : Option Responder) (effects : List Effect) :
    (((self.launch id request protocol syncResponder).forwardBackloggedMessages id).emit
        effects).effects.drop self.effects.length
      = (self.backlogged id).map (.forwarded self.spawned.length) ++ effects := by
  rw [forwardBackloggedMessages_launch]
  change (self.effects ++ _ ++ effects).drop _ = _
  rw [List.append_assoc, List.drop_left]

/-- An instance that is there has no backlog. -/
theorem lookup_backlog_of_mem {events : List (ManagerEvent K)} (hrun : run ctx events = .ok self) :
    ∀ id ∈ self.instances.instanceData, self.backlog.lookup id = none := by
  refine run_induction (motive := fun _ self =>
    ∀ id ∈ self.instances.instanceData, self.backlog.lookup id = none) ?_ ?_ hrun
  · intro id hmem
    rfl
  · intro events self event self' ih hok id hmem
    cases turn_of_onEvent hok with
    | known _ _ => exact ih id hmem
    | refused _ _ _ => exact ih id hmem
    | @launched _ _ request _ syncResponder protocol _ _ _ _ =>
        rw [instances_emit, instances_forwardBackloggedMessages] at hmem
        rw [forwardBackloggedMessages_launch]
        change (self.backlog.erase _).lookup id = none
        by_cases heq : id = assignInstanceId ctx.hash256 request
        · rw [heq, AList.lookup_erase]
        · rw [AList.lookup_erase_ne heq]
          obtain ⟨inst, hinst⟩ := Option.isSome_iff_exists.mp (AList.lookup_isSome.mpr hmem)
          rcases lookup_insert_cases hinst with ⟨hid, -⟩ | hold
          · exact absurd hid heq
          · exact ih id (HashMap.mem_of_lookup hold)
    | status _ => exact ih id hmem
    | absent _ => exact ih id hmem
    | @settled _ _ spawned _ _ hinst =>
        rcases (AList.mem_insert _).mp hmem with rfl | hold
        · exact ih _ (HashMap.mem_of_lookup hinst)
        · exact ih id hold
    | message message =>
        rw [instances_onNetMessage] at hmem
        rw [onNetMessage]
        split
        · split <;> exact ih id hmem
        · rename_i habsent
          have hne : id ≠ message.instanceId :=
            ne_of_mem_of_not_mem hmem (AList.lookup_eq_none.mp habsent)
          rw [AList.lookup_insert_ne hne]
          exact ih id hmem
    | tick =>
        rw [lookup_onTick, ih id hmem, Option.bind_none]

/-- A message for an instance that is not there goes to the end of its backlog. -/
theorem lookup_backlog_onNetMessage {message : NetMessage}
    (habsent : message.instanceId ∉ self.instances.instanceData) :
    (self.onNetMessage message).backlog.lookup message.instanceId
      = some ((self.backlog.lookup message.instanceId).elim ⟨[message], false⟩ fun data =>
        { data with messages := data.messages ++ [message] }) := by
  rw [onNetMessage, AList.lookup_eq_none.mpr habsent]
  dsimp only
  rw [AList.lookup_insert]
  cases self.backlog.lookup message.instanceId <;> rfl

/-- Only an arrival and a tick change the backlog of an instance that was never started. -/
theorem lookup_backlog_onEvent {event : ManagerEvent K} (h : onEvent ctx self event = .ok self')
    (hfirst : ∀ spawned ∈ self'.spawned, spawned.instanceId ≠ id) (htick : event ≠ .tick)
    (hother : ∀ message, event = .message message → message.instanceId ≠ id) :
    self'.backlog.lookup id = self.backlog.lookup id := by
  cases turn_of_onEvent h with
  | @launched _ _ request _ syncResponder protocol _ _ _ _ =>
      rw [spawned_emit, spawned_forwardBackloggedMessages] at hfirst
      have hne := hfirst _ (List.mem_append_right _ (List.mem_singleton_self _))
      rw [forwardBackloggedMessages_launch]
      exact AList.lookup_erase_ne (Ne.symm hne)
  | message message =>
      rw [onNetMessage]
      split
      · split <;> rfl
      · exact AList.lookup_insert_ne (Ne.symm (hother message rfl))
  | tick => exact absurd rfl htick
  | _ => rfl

/-- The messages for an instance go to the executor that was spawned for it and has not reported. -/
theorem Managed.recipient_eq_some_iff {done : List ℕ} (h : Managed done self) {executor : ℕ} :
    self.recipient id = some executor
      ↔ ∃ spawned, self.spawned[executor]? = some spawned ∧ spawned.instanceId = id
        ∧ executor ∉ done := by
  rw [recipient, Option.bind_eq_some_iff]
  constructor
  · rintro ⟨inst, hinst, hsender⟩
    split at hsender
    · cases hsender
    · rename_i hrunning
      obtain ⟨executor', spawned, hsender', hspawned, hid, hdone⟩ :=
        h.running id inst hinst (Bool.not_eq_true _ ▸ hrunning)
      obtain rfl := Option.some.inj (hsender.symm.trans hsender')
      exact ⟨spawned, hspawned, hid, hdone⟩
  · rintro ⟨spawned, hspawned, rfl, hdone⟩
    obtain ⟨inst, hinst, hrunning, hsender⟩ := h.live executor spawned hspawned hdone
    exact ⟨inst, hinst, by rw [hrunning, if_neg Bool.false_ne_true, hsender]⟩

/-- No executor is forgotten. -/
theorem spawned_isPrefix {event : ManagerEvent K} (h : onEvent ctx self event = .ok self') :
    self.spawned <+: self'.spawned := by
  cases turn_of_onEvent h with
  | launched _ _ _ _ =>
      rw [spawned_emit, spawned_forwardBackloggedMessages]
      exact List.prefix_append _ _
  | message message => rw [spawned_onNetMessage]
  | _ => exact List.prefix_refl _

end InstanceManager

/-! ### What the steps hand over -/

section Steps

open InstanceManager

variable {executor : ℕ}

theorem messagesTo_append (executor : ℕ) (sent more : List Effect) :
    messagesTo executor (sent ++ more) = messagesTo executor sent ++ messagesTo executor more :=
  List.filterMap_append ..

theorem messagesTo_map_forwarded (executor executor' : ℕ) (messages : List NetMessage) :
    messagesTo executor (messages.map (.forwarded executor'))
      = if executor' = executor then messages else [] := by
  rw [messagesTo, List.filterMap_map]
  split
  · rename_i heq
    simp [heq]
  · rename_i hne
    simp [hne]

/-- A message that arrives goes to one executor at most. -/
theorem messagesTo_onNetMessage (manager : InstanceManager K) (message : NetMessage) :
    messagesTo executor ((manager.onNetMessage message).effects.drop manager.effects.length)
      = if manager.recipient message.instanceId = some executor then [message] else [] := by
  rw [effects_onNetMessage_eq, List.drop_left]
  cases manager.recipient message.instanceId with
  | none => rfl
  | some executor' =>
      rw [Option.toList_some, List.map_singleton]
      simp only [Option.some.injEq]
      exact messagesTo_map_forwarded executor executor' [message]

/-- The other turns hand over the backlog of the executor they spawn. -/
theorem messagesTo_turn {ctx : ManagerContext K} {manager manager' : InstanceManager K}
    {event : ManagerEvent K} (h : Turn ctx manager event manager')
    (hevent : ∀ message, event ≠ .message message)
    (hother : executor < manager.spawned.length ∨ manager'.spawned.length ≤ executor) :
    messagesTo executor (manager'.effects.drop manager.effects.length) = [] := by
  have hemit : ∀ effects, messagesTo executor effects = [] →
      messagesTo executor ((manager.emit effects).effects.drop manager.effects.length) = [] := by
    intro effects heffects
    rw [emit, List.drop_left, heffects]
  cases h with
  | known _ _ => exact hemit _ rfl
  | @refused _ _ _ _ syncResponder _ _ _ => exact hemit _ (by cases syncResponder <;> rfl)
  | @launched _ _ request responder syncResponder protocol _ _ _ _ =>
      rw [spawned_emit, spawned_forwardBackloggedMessages, launch] at hother
      have hne : manager.spawned.length ≠ executor := by
        rw [List.length_append, List.length_singleton] at hother
        omega
      rw [effects_launch, messagesTo_append, messagesTo_map_forwarded, if_neg hne]
      rfl
  | status _ => exact hemit _ rfl
  | absent _ => rw [List.drop_length]; rfl
  | @settled _ _ _ inst _ _ => exact hemit _ (by cases inst.resultSender <;> rfl)
  | message message => exact absurd rfl (hevent message)
  | tick => rw [onTick, List.drop_length]; rfl

end Steps

namespace DeliverySystem

variable {ctx : ManagerContext K} {self self' : DeliverySystem K} {events : List (DeliveryEvent K)}
  {event : DeliveryEvent K} {executor : ℕ}

@[simp] theorem manager_onTurn (event : ManagerEvent K) (manager : InstanceManager K) :
    (self.onTurn event manager).manager = manager := by
  cases event <;> rfl

@[simp] theorem manager_onFlush (executor : ℕ) : (self.onFlush executor).manager = self.manager := by
  unfold onFlush
  split <;> rfl

theorem run_append_singleton :
    run ctx (events ++ [event]) = .ok self'
      ↔ ∃ mid, run ctx events = .ok mid ∧ onEvent ctx mid event = .ok self' :=
  Outcome.foldlM_append_singleton

/-- The manager does not notice the tasks. -/
theorem run_manager (h : run ctx events = .ok self) :
    InstanceManager.run ctx (turnsOf events) = .ok self.manager := by
  refine Outcome.foldlM_induction (motive := fun events self =>
    InstanceManager.run ctx (turnsOf events) = .ok self.manager) rfl ?_ h
  intro events self event self' _ ih hok
  rw [turnsOf_append]
  cases event with
  | turn event =>
      obtain ⟨manager, hmanager, heq⟩ := Outcome.bind_eq_ok.mp hok
      obtain rfl := Outcome.ok.inj heq
      rw [manager_onTurn]
      exact InstanceManager.run_append_singleton.mpr ⟨self.manager, ih, hmanager⟩
  | flush executor =>
      obtain rfl := Outcome.ok.inj hok
      rw [manager_onFlush]
      exact (List.append_nil (turnsOf events)).symm ▸ ih

/-- What the manager itself hands to the channel of an executor in a step. -/
def forwardedTo (manager : InstanceManager K) (executor : ℕ) : DeliveryEvent K → List NetMessage
  | .turn (.message message) =>
      if manager.recipient message.instanceId = some executor then [message] else []
  | _ => []

theorem forwardedTo_eq_nil {manager : InstanceManager K}
    (h : ∀ id, manager.recipient id ≠ some executor) : forwardedTo manager executor event = [] := by
  unfold forwardedTo
  split
  · rename_i message
    exact if_neg (h message.instanceId)
  · rfl

theorem spawned_isPrefix (h : onEvent ctx self event = .ok self') :
    self.manager.spawned <+: self'.manager.spawned := by
  cases event with
  | turn event =>
      obtain ⟨manager, hmanager, heq⟩ := Outcome.bind_eq_ok.mp h
      obtain rfl := Outcome.ok.inj heq
      rw [manager_onTurn]
      exact InstanceManager.spawned_isPrefix hmanager
  | flush executor =>
      obtain rfl := Outcome.ok.inj h
      rw [manager_onFlush]

/-- What a step does for an executor that it does not spawn. -/
theorem onEvent_cases (h : onEvent ctx self event = .ok self')
    (hother : executor < self.manager.spawned.length ∨ self'.manager.spawned.length ≤ executor) :
    (∃ message, event = .flush executor ∧ self.flushing executor = message :: self'.flushing executor
      ∧ self'.channels executor = self.channels executor ++ [message])
    ∨ (self'.flushing executor = self.flushing executor
      ∧ self'.channels executor
        = self.channels executor ++ forwardedTo self.manager executor event) := by
  cases event with
  | turn event =>
      obtain ⟨manager, hmanager, heq⟩ := Outcome.bind_eq_ok.mp h
      obtain rfl := Outcome.ok.inj heq
      rw [manager_onTurn] at hother
      right
      cases event with
      | message message =>
          obtain rfl := Outcome.ok.inj hmanager
          exact ⟨rfl, congrArg _ (messagesTo_onNetMessage self.manager message)⟩
      | _ =>
          have hnone := messagesTo_turn (InstanceManager.turn_of_onEvent hmanager)
            (fun _ h => by cases h) hother
          refine ⟨?_, (List.append_nil _).symm⟩
          exact (congrArg (self.flushing executor ++ ·) hnone).trans (List.append_nil _)
  | flush executor' =>
      obtain rfl := Outcome.ok.inj h
      unfold onFlush
      split
      · exact .inr ⟨rfl, (List.append_nil _).symm⟩
      · rename_i message rest hflushing
        dsimp only
        by_cases heq : executor' = executor
        · subst heq
          left
          refine ⟨message, rfl, ?_, ?_⟩
          · rw [hflushing, Function.update_self]
          · rw [Function.update_self]
        · right
          rw [Function.update_of_ne (Ne.symm heq), Function.update_of_ne (Ne.symm heq)]
          exact ⟨rfl, (List.append_nil _).symm⟩

/-- Nothing is sent to an executor that is not there yet. -/
theorem fresh_run (h : run ctx events = .ok self) (honce : (terminationsOf (turnsOf events)).Nodup) :
    ∀ executor, self.manager.spawned.length ≤ executor →
      self.flushing executor = [] ∧ self.channels executor = [] := by
  revert honce
  refine Outcome.foldlM_induction (motive := fun events self =>
    (terminationsOf (turnsOf events)).Nodup → ∀ executor, self.manager.spawned.length ≤ executor →
      self.flushing executor = [] ∧ self.channels executor = []) ?_ ?_ h
  · intro _ executor _
    exact ⟨rfl, rfl⟩
  · intro events self event self' hrun ih hok honce executor hle
    rw [turnsOf_append, terminationsOf, List.filterMap_append, List.nodup_append] at honce
    have hlength := (spawned_isPrefix hok).length_le
    obtain ⟨hflushing, hchannels⟩ := ih honce.1 executor (hlength.trans hle)
    obtain ⟨done, hmanaged, -⟩ := InstanceManager.managed_run (run_manager hrun) honce.1
    rcases onEvent_cases hok (.inr hle) with ⟨message, -, hmessage, -⟩ | ⟨hflushing', hchannels'⟩
    · rw [hflushing] at hmessage
      cases hmessage
    · refine ⟨hflushing'.trans hflushing, ?_⟩
      rw [hchannels', hchannels, List.nil_append, forwardedTo_eq_nil]
      intro id hrecipient
      obtain ⟨spawned, hspawned, -⟩ := hmanaged.recipient_eq_some_iff.mp hrecipient
      have hlt := (List.getElem?_eq_some_iff.mp hspawned).1
      omega

/-! ### Before the instance is created -/

/-- An instance that was never started is not in the cache. -/
theorem notMem_of_first {id : String} (h : run ctx events = .ok self)
    (hfirst : ∀ spawned ∈ self.manager.spawned, spawned.instanceId ≠ id) :
    id ∉ self.manager.instances.instanceData := by
  intro hmem
  obtain ⟨inst, hinst⟩ := Option.isSome_iff_exists.mp (AList.lookup_isSome.mpr hmem)
  obtain ⟨spawned, hspawned, hid, -⟩ :=
    (InstanceManager.traced_run (run_manager h)).instances id inst hinst
  exact hfirst spawned hspawned hid

theorem lookup_backlog_onEvent {id : String} (h : onEvent ctx self event = .ok self')
    (hfirst : ∀ spawned ∈ self'.manager.spawned, spawned.instanceId ≠ id)
    (harrival : event.arrival? id = none) (htick : event.isTick = false) :
    self'.manager.backlog.lookup id = self.manager.backlog.lookup id := by
  cases event with
  | flush executor =>
      obtain rfl := Outcome.ok.inj h
      rw [manager_onFlush]
  | turn event =>
      obtain ⟨manager, hmanager, heq⟩ := Outcome.bind_eq_ok.mp h
      obtain rfl := Outcome.ok.inj heq
      rw [manager_onTurn] at hfirst ⊢
      refine InstanceManager.lookup_backlog_onEvent hmanager hfirst ?_ ?_
      · rintro rfl
        cases htick
      · rintro message rfl hid
        rw [DeliveryEvent.arrival?, if_pos hid] at harrival
        cases harrival

/-- The backlog of an instance that was never started has what arrived for it, as long as no two ticks
have passed. -/
theorem lookup_backlog_run {id : String} (h : run ctx events = .ok self)
    (hfirst : ∀ spawned ∈ self.manager.spawned, spawned.instanceId ≠ id)
    (hticks : ticksSinceArrival id events < 2) :
    self.manager.backlog.lookup id
      = if arrivalsFor id events = [] then none
        else some ⟨arrivalsFor id events, decide (ticksSinceArrival id events = 1)⟩ := by
  revert hfirst hticks
  refine Outcome.foldlM_induction (motive := fun events self =>
    (∀ spawned ∈ self.manager.spawned, spawned.instanceId ≠ id) → ticksSinceArrival id events < 2 →
      self.manager.backlog.lookup id
        = if arrivalsFor id events = [] then none
          else some ⟨arrivalsFor id events, decide (ticksSinceArrival id events = 1)⟩) ?_ ?_ h
  · intro _ _
    rfl
  intro events self event self' hrun ih hok hfirst hticks
  have hfirst' : ∀ spawned ∈ self.manager.spawned, spawned.instanceId ≠ id :=
    fun spawned hmem => hfirst spawned ((spawned_isPrefix hok).subset hmem)
  have hprev := ih hfirst' (lt_of_le_of_lt ticksSinceArrival_le_append hticks)
  rw [ticksSinceArrival_append_singleton] at hticks ⊢
  rw [arrivalsFor_append_singleton]
  -- the step changes the entry when it is a tick or an arrival, and not otherwise
  cases harrival : event.arrival? id with
  | none =>
      cases htick : event.isTick with
      | false =>
          rw [lookup_backlog_onEvent hok hfirst harrival htick, hprev, Option.toList_none,
            List.append_nil]
          split
          · rfl
          · rfl
      | true =>
          obtain rfl := DeliveryEvent.isTick_iff.mp htick
          obtain rfl := Outcome.ok.inj hok
          change self.manager.onTick.backlog.lookup id = _
          rw [InstanceManager.lookup_onTick, hprev, Option.toList_none, List.append_nil]
          by_cases hnil : arrivalsFor id events = []
          · rw [if_pos hnil, if_pos hnil, Option.bind_none]
          · rw [if_neg hnil, if_pos htick] at hticks
            have hzero : ticksSinceArrival id events = 0 := by omega
            simp [hnil, hzero]
  | some message =>
      obtain ⟨rfl, rfl⟩ := DeliveryEvent.arrival?_eq_some_iff.mp harrival
      obtain rfl := Outcome.ok.inj hok
      change (self.manager.onNetMessage message).backlog.lookup message.instanceId = _
      rw [InstanceManager.lookup_backlog_onNetMessage (notMem_of_first hrun hfirst'), hprev]
      by_cases hnil : arrivalsFor message.instanceId events = []
      · simp [hnil]
      · simp [hnil, DeliveryEvent.isTick]

/-! ### After the instance is created -/

variable {id : String} {earlier after : List (DeliveryEvent K)}

/-- What holds of an instance after its creation. The executor has reported when it did so in the
history after the creation, and what it was handed is what its task has sent, and what has arrived for
it since. -/
structure Delivering (id : String) (executor : ℕ) (earlier after : List (DeliveryEvent K))
    (system : DeliverySystem K) : Prop where
  spawned : ∃ spawned, system.manager.spawned[executor]? = some spawned ∧ spawned.instanceId = id
  managed : ∃ done, InstanceManager.Managed done system.manager
    ∧ (∀ other ∈ done, other ∈ terminationsOf (turnsOf (earlier ++ after)))
    ∧ (executor ∈ done ↔ after.any (DeliveryEvent.reports executor) = true)
  handed : ∃ sent, sent ++ system.flushing executor = arrivalsFor id earlier
    ∧ Interleaves sent (arrivalsUntil id executor after) (system.channels executor)

section Creation

variable {command : InstanceManagerCommand K} {hclient : command.isClientCommand = true}
  {request : StartInstanceRequest K} {responder : Responder} {syncResponder : Option Responder}
  {next : DeliverySystem K} (hrun : run ctx events = .ok self)
  (honce : (terminationsOf (turnsOf events)).Nodup)
  (hcreation : command.creation? = some (request, responder, syncResponder))
  (hfirst : ∀ spawned ∈ self.manager.spawned,
    spawned.instanceId ≠ assignInstanceId ctx.hash256 request)
  (hticks : ticksSinceArrival (assignInstanceId ctx.hash256 request) events < 2)
  (hok : onEvent ctx self (.turn (.command command hclient)) = .ok next)
  (hcreated : assignInstanceId ctx.hash256 request ∈ next.manager.instances.instanceData)

include hrun honce hcreation hfirst hticks hok hcreated

/-- The command that creates an instance leaves all that has arrived for it to a task. -/
theorem onEvent_creation :
    (∃ spawned, next.manager.spawned[self.manager.spawned.length]? = some spawned
      ∧ spawned.instanceId = assignInstanceId ctx.hash256 request)
    ∧ next.flushing self.manager.spawned.length
      = arrivalsFor (assignInstanceId ctx.hash256 request) events
    ∧ next.channels self.manager.spawned.length = [] := by
  have hnew := notMem_of_first hrun hfirst
  have hbacklog := lookup_backlog_run hrun hfirst hticks
  obtain ⟨hflushing, hchannels⟩ := fresh_run hrun honce _ le_rfl
  obtain ⟨manager, hmanager, heq⟩ := Outcome.bind_eq_ok.mp hok
  obtain rfl := Outcome.ok.inj heq
  rw [manager_onTurn] at hcreated ⊢
  cases InstanceManager.turn_of_onEvent hmanager with
  | known hcreation' hmem =>
      cases hcreation.symm.trans hcreation'
      exact absurd hmem hnew
  | refused hcreation' _ _ => exact absurd hcreated hnew
  | @launched _ _ _ _ _ protocol hcreation' _ _ _ =>
      cases hcreation.symm.trans hcreation'
      refine ⟨⟨⟨_, request, protocol⟩, ?_, rfl⟩, ?_, hchannels⟩
      · rw [InstanceManager.spawned_emit, InstanceManager.spawned_forwardBackloggedMessages]
        exact List.getElem?_concat_length
      · change self.flushing _ ++ messagesTo _ (List.drop _ _) = _
        rw [hflushing, InstanceManager.effects_launch, messagesTo_append, messagesTo_map_forwarded,
          if_pos rfl, InstanceManager.backlogged, hbacklog]
        split
        · rename_i hnil
          rw [hnil]
          rfl
        · exact List.append_nil _
  | status _ => cases hcreation

/-- It holds when the instance has just been created. -/
theorem delivering_creation :
    Delivering (assignInstanceId ctx.hash256 request) self.manager.spawned.length
      (events ++ [.turn (.command command hclient)]) [] next := by
  obtain ⟨hspawned, hflushing, hchannels⟩ :=
    onEvent_creation hrun honce hcreation hfirst hticks hok hcreated
  refine ⟨hspawned, ?_, [], ?_, ?_⟩
  · obtain ⟨done, hmanaged, hdone⟩ := InstanceManager.managed_run (run_manager hrun) honce
    obtain ⟨manager, hmanager, heq⟩ := Outcome.bind_eq_ok.mp hok
    obtain rfl := Outcome.ok.inj heq
    obtain ⟨done', hmanaged', hdone'⟩ := hmanaged.onEvent hmanager (fun _ h => by cases h)
    have hsame : ∀ other, other ∈ done' ↔ other ∈ done := by
      intro other
      rw [hdone']
      exact or_iff_left fun h => by cases h.1
    rw [manager_onTurn]
    refine ⟨done', hmanaged', fun other hother => ?_, ?_⟩
    · rw [List.append_nil, turnsOf_append, terminationsOf, List.filterMap_append]
      exact List.mem_append_left _ (hdone other ((hsame other).mp hother))
    · rw [hsame, List.any_nil]
      refine ⟨fun hmem => absurd (hmanaged.done_lt _ hmem) (lt_irrefl _), fun h => by cases h⟩
  · rw [hflushing, List.nil_append, arrivalsFor_append_singleton]
    exact (List.append_nil _).symm
  · rw [hchannels]
    exact .nil

end Creation

/-- The executors that have reported after a step. -/
theorem Delivering.managed_onEvent (h : Delivering id executor earlier after self)
    (hok : onEvent ctx self event = .ok self')
    (honce : (terminationsOf (turnsOf (earlier ++ (after ++ [event])))).Nodup) :
    ∃ done, InstanceManager.Managed done self'.manager
      ∧ (∀ other ∈ done, other ∈ terminationsOf (turnsOf (earlier ++ (after ++ [event]))))
      ∧ (executor ∈ done ↔ (after ++ [event]).any (DeliveryEvent.reports executor) = true) := by
  obtain ⟨done, hmanaged, hdone, hreported⟩ := h.managed
  obtain ⟨spawned, hspawned, -⟩ := h.spawned
  rw [← List.append_assoc, turnsOf_append, terminationsOf, List.filterMap_append] at honce ⊢
  cases event with
  | flush executor' =>
      obtain rfl := Outcome.ok.inj hok
      rw [manager_onFlush]
      refine ⟨done, hmanaged, fun other hother => List.mem_append_left _ (hdone other hother), ?_⟩
      rw [hreported, List.any_append]
      simp [DeliveryEvent.reports]
  | turn event =>
      obtain ⟨manager, hmanager, heq⟩ := Outcome.bind_eq_ok.mp hok
      obtain rfl := Outcome.ok.inj heq
      rw [manager_onTurn]
      rw [List.nodup_append] at honce
      obtain ⟨done', hmanaged', hdone'⟩ := hmanaged.onEvent hmanager fun other hevent hmem =>
        honce.2.2 other (hdone other hmem) other (by simp [turnsOf, DeliveryEvent.turn?, hevent]) rfl
      refine ⟨done', hmanaged', fun other hother => ?_, ?_⟩
      · rw [List.mem_append]
        rcases (hdone' other).mp hother with hold | ⟨hevent, -⟩
        · exact .inl (hdone other hold)
        · exact .inr (by simp [turnsOf, DeliveryEvent.turn?, hevent])
      · have hlt := (List.getElem?_eq_some_iff.mp hspawned).1
        rw [hdone', hreported, List.any_append, Bool.or_eq_true, List.any_cons, List.any_nil,
          Bool.or_false, DeliveryEvent.reports_turn, and_iff_left hlt]

/-- The manager hands over what arrives, as long as the executor has not reported. -/
theorem Delivering.forwardedTo_eq (h : Delivering id executor earlier after self)
    (event : DeliveryEvent K) :
    forwardedTo self.manager executor event
      = if after.any (DeliveryEvent.reports executor) then [] else (event.arrival? id).toList := by
  obtain ⟨done, hmanaged, -, hreported⟩ := h.managed
  obtain ⟨spawned, hspawned, hid⟩ := h.spawned
  have hrecipient : ∀ id', self.manager.recipient id' = some executor
      ↔ id' = id ∧ ¬ after.any (DeliveryEvent.reports executor) = true := by
    intro id'
    rw [hmanaged.recipient_eq_some_iff, hspawned, hreported]
    constructor
    · rintro ⟨spawned', heq, rfl, hnone⟩
      obtain rfl := Option.some.inj heq
      exact ⟨hid, hnone⟩
    · rintro ⟨rfl, hnone⟩
      exact ⟨spawned, rfl, hid, hnone⟩
  unfold forwardedTo DeliveryEvent.arrival?
  split
  · rename_i message
    by_cases hreports : after.any (DeliveryEvent.reports executor) = true
    · rw [if_pos hreports, if_neg fun h => ((hrecipient _).mp h).2 hreports]
    · rw [if_neg hreports]
      by_cases heq : message.instanceId = id
      · rw [if_pos ((hrecipient _).mpr ⟨heq, hreports⟩), if_pos heq, Option.toList_some]
      · rw [if_neg fun h => heq ((hrecipient _).mp h).1, if_neg heq, Option.toList_none]
  · rw [Option.toList_none, ite_self]

theorem Delivering.onEvent (h : Delivering id executor earlier after self)
    (hok : DeliverySystem.onEvent ctx self event = .ok self')
    (honce : (terminationsOf (turnsOf (earlier ++ (after ++ [event])))).Nodup) :
    Delivering id executor earlier (after ++ [event]) self' := by
  obtain ⟨spawned, hspawned, hid⟩ := h.spawned
  obtain ⟨sent, hsent, hchannels⟩ := h.handed
  have hlt := (List.getElem?_eq_some_iff.mp hspawned).1
  obtain ⟨more, hmore⟩ := spawned_isPrefix hok
  have hspawned' : self'.manager.spawned[executor]? = some spawned := by
    rw [← hmore, List.getElem?_append_left hlt, hspawned]
  refine ⟨⟨spawned, hspawned', hid⟩, h.managed_onEvent hok honce, ?_⟩
  rw [arrivalsUntil_append_singleton]
  rcases onEvent_cases hok (.inl hlt) with
    ⟨message, rfl, hflushing, hchannels'⟩ | ⟨hflushing, hchannels'⟩
  · have hnone : (DeliveryEvent.flush (K := K) executor).arrival? id = none := rfl
    refine ⟨sent ++ [message], ?_, ?_⟩
    · rw [List.append_assoc, List.singleton_append, ← hflushing, hsent]
    · rw [hchannels', hnone, Option.toList_none, ite_self, List.append_nil]
      exact hchannels.left message
  · refine ⟨sent, by rw [hflushing, hsent], ?_⟩
    rw [hchannels', h.forwardedTo_eq]
    split
    · rw [List.append_nil, List.append_nil]
      exact hchannels
    · cases event.arrival? id with
      | none =>
          rw [Option.toList_none, List.append_nil, List.append_nil]
          exact hchannels
      | some message => exact hchannels.right message

/-- So it is along every run. -/
theorem delivering_run (hearlier : run ctx earlier = .ok self)
    (h : Delivering id executor earlier [] self) (hrun : run ctx (earlier ++ after) = .ok self')
    (honce : (terminationsOf (turnsOf (earlier ++ after))).Nodup) :
    Delivering id executor earlier after self' := by
  induction after using List.reverseRecOn generalizing self' with
  | nil =>
      rw [List.append_nil] at hrun
      obtain rfl := Outcome.ok.inj (hearlier.symm.trans hrun)
      exact h
  | append_singleton after event ih =>
      have hpre := honce
      rw [← List.append_assoc] at hrun hpre
      rw [turnsOf_append, terminationsOf, List.filterMap_append, List.nodup_append] at hpre
      obtain ⟨mid, hmid, hevent⟩ := run_append_singleton.mp hrun
      exact (ih hmid hpre.1).onEvent hevent honce

/-! ### The task runs to its end -/

theorem flushing_onFlush (executor : ℕ) :
    (self.onFlush executor).flushing executor = (self.flushing executor).drop 1 := by
  unfold onFlush
  split
  · rename_i hnil
    rw [hnil, List.drop_nil]
  · rename_i message rest hflushing
    dsimp only
    rw [Function.update_self, hflushing, List.drop_one, List.tail_cons]

theorem run_flush (hrun : run ctx events = .ok self) (executor n : ℕ) :
    ∃ later, run ctx (events ++ List.replicate n (.flush executor)) = .ok later
      ∧ later.flushing executor = (self.flushing executor).drop n := by
  induction n with
  | zero => exact ⟨self, by rwa [List.replicate_zero, List.append_nil], rfl⟩
  | succ n ih =>
      obtain ⟨later, hlater, hflushing⟩ := ih
      refine ⟨later.onFlush executor, ?_, ?_⟩
      · rw [List.replicate_succ', ← List.append_assoc]
        exact run_append_singleton.mpr ⟨later, hlater, rfl⟩
      · rw [flushing_onFlush, hflushing, List.drop_drop]

theorem arrivalsUntil_append_flush (executor n : ℕ) :
    arrivalsUntil id executor (after ++ List.replicate n (.flush executor))
      = arrivalsUntil id executor after := by
  induction n with
  | zero => rw [List.replicate_zero, List.append_nil]
  | succ n ih =>
      have hnone : (DeliveryEvent.flush (K := K) executor).arrival? id = none := rfl
      rw [List.replicate_succ', ← List.append_assoc, arrivalsUntil_append_singleton, ih, hnone,
        Option.toList_none, ite_self, List.append_nil]

theorem turnsOf_append_flush (executor n : ℕ) :
    turnsOf (events ++ List.replicate n (.flush executor)) = turnsOf events := by
  have hnone : turnsOf (List.replicate n (DeliveryEvent.flush (K := K) executor)) = [] := by
    rw [turnsOf, List.filterMap_eq_nil_iff]
    intro event hmem
    rw [List.eq_of_mem_replicate hmem]
    rfl
  rw [turnsOf_append, hnone, List.append_nil]

end DeliverySystem

open DeliverySystem in
/-- An instance is created, for the first time, by a command, and the ticks since the first message for
it are fewer than two. Then, after any events before and any events after the command: the channel of
its executor has got each message that arrived before the report of the executor at most once, those of
the backlog in the order of their arrival, and those that it has not got are with the task, which sends
them in that order. When the task is through, nothing is missing. While the instance is there, and it is
there until it has finished, it has no backlog. -/
theorem backlog_exactly_once {ctx : ManagerContext K} {before after : List (DeliveryEvent K)}
    {command : InstanceManagerCommand K} {hclient : command.isClientCommand = true}
    {request : StartInstanceRequest K} {responder : Responder} {syncResponder : Option Responder}
    {mid next self : DeliverySystem K} {id : String} {executor : ℕ}
    (hcreation : command.creation? = some (request, responder, syncResponder))
    (hid : id = assignInstanceId ctx.hash256 request)
    (hmid : DeliverySystem.run ctx before = .ok mid)
    (hfirst : ∀ spawned ∈ mid.manager.spawned, spawned.instanceId ≠ id)
    (hexecutor : executor = mid.manager.spawned.length)
    (hnext : DeliverySystem.run ctx (before ++ [.turn (.command command hclient)]) = .ok next)
    (hcreated : id ∈ next.manager.instances.instanceData)
    (hticks : ticksSinceArrival id before < 2)
    (hself : DeliverySystem.run ctx (before ++ .turn (.command command hclient) :: after) = .ok self)
    (honce : (terminationsOf (turnsOf (before ++ .turn (.command command hclient) :: after))).Nodup) :
    (∃ sent, sent ++ self.flushing executor = arrivalsFor id before
      ∧ Interleaves sent (arrivalsUntil id executor after) (self.channels executor))
    ∧ (self.channels executor ++ self.flushing executor).Perm
      (arrivalsFor id before ++ arrivalsUntil id executor after)
    ∧ (∃ later, DeliverySystem.run ctx (before ++ .turn (.command command hclient) :: after
          ++ List.replicate (self.flushing executor).length (.flush executor)) = .ok later
      ∧ later.flushing executor = []
      ∧ Interleaves (arrivalsFor id before) (arrivalsUntil id executor after)
        (later.channels executor))
    ∧ ((∀ event ∈ after, event.reports executor = false) →
      id ∈ self.manager.instances.instanceData)
    ∧ (id ∈ self.manager.instances.instanceData → self.manager.backlog.lookup id = none) := by
  subst hid hexecutor
  obtain ⟨mid', hmid', hok⟩ := run_append_singleton.mp hnext
  obtain rfl := Outcome.ok.inj (hmid.symm.trans hmid')
  rw [List.append_cons] at hself honce ⊢
  have honceBefore : (terminationsOf (turnsOf before)).Nodup := by
    rw [List.append_assoc, turnsOf_append, terminationsOf, List.filterMap_append] at honce
    exact (List.nodup_append.mp honce).1
  have hstart := delivering_creation hmid honceBefore hcreation hfirst hticks hok hcreated
  have hdelivering := delivering_run hnext hstart hself honce
  have harrivals : arrivalsFor (assignInstanceId ctx.hash256 request)
      (before ++ [.turn (.command command hclient)])
      = arrivalsFor (assignInstanceId ctx.hash256 request) before := by
    rw [arrivalsFor_append_singleton]
    exact List.append_nil _
  have hhanded := hdelivering.handed
  rw [harrivals] at hhanded
  refine ⟨hhanded, ?_, ?_, ?_, InstanceManager.lookup_backlog_of_mem (run_manager hself) _⟩
  · obtain ⟨sent, hsent, hchannels⟩ := hhanded
    rw [← hsent]
    refine (hchannels.perm.append_right _).trans ?_
    rw [List.append_assoc, List.append_assoc]
    exact List.perm_append_comm.append_left sent
  · -- the task sends what it has, and no message arrives meanwhile
    obtain ⟨later, hlater, hflushing⟩ := run_flush hself mid.manager.spawned.length
      (self.flushing mid.manager.spawned.length).length
    rw [List.drop_length] at hflushing
    refine ⟨later, hlater, hflushing, ?_⟩
    rw [List.append_assoc] at hlater
    have hend := delivering_run hnext hstart hlater (by rwa [← List.append_assoc, turnsOf_append_flush])
    obtain ⟨sent, hsent, hchannels⟩ := hend.handed
    rw [hflushing, List.append_nil, harrivals] at hsent
    rwa [hsent, arrivalsUntil_append_flush] at hchannels
  · intro hnone
    obtain ⟨done, hmanaged, -, hreported⟩ := hdelivering.managed
    obtain ⟨spawned, hspawned, hid⟩ := hdelivering.spawned
    have hdone : mid.manager.spawned.length ∉ done := by
      rw [hreported, List.any_eq_true]
      rintro ⟨event, hmem, hreports⟩
      rw [hnone event hmem] at hreports
      cases hreports
    obtain ⟨inst, hinst, -⟩ := hmanaged.live _ spawned hspawned hdone
    exact hid ▸ HashMap.mem_of_lookup hinst

/-- A message and a tick before the request. -/
def beforeSeven : List (DeliveryEvent Curves.seven) :=
  [.turn (.message ⟨signIdSeven, [1]⟩), .turn .tick]

def createSeven : DeliveryEvent Curves.seven :=
  .turn (.command (.createInstance (signSeven [1]) ⟨0, false⟩)
    (InstanceManagerCommand.isClientCommand_createInstance _ _))

/-- A message arrives before the task has sent anything. -/
def afterSeven : List (DeliveryEvent Curves.seven) :=
  [.turn (.message ⟨signIdSeven, [2]⟩), .flush 0]

open DeliverySystem InstanceManager in
theorem exists_run_beforeSeven :
    ∃ mid next, DeliverySystem.run managerSeven beforeSeven = .ok mid
      ∧ mid.manager.spawned = []
      ∧ DeliverySystem.run managerSeven (beforeSeven ++ [createSeven]) = .ok next
      ∧ signIdSeven ∈ next.manager.instances.instanceData := by
  let manager : InstanceManager Curves.seven :=
    (InstanceManager.new.onNetMessage ⟨signIdSeven, [1]⟩).onTick
  have hinstances : manager.instances = (InstanceManager.new (K := Curves.seven)).instances :=
    instances_onNetMessage _
  have hspawned : manager.spawned = (InstanceManager.new (K := Curves.seven)).spawned :=
    spawned_onNetMessage _
  have hnew : signIdSeven ∉ manager.instances.instanceData := by
    rw [hinstances]
    exact AList.notMem_empty _
  have hturn : Turn managerSeven manager (.command (.createInstance (signSeven [1]) ⟨0, false⟩) rfl) _ :=
    .launched rfl hnew privateKeyFor_signSeven newProtocol_signSeven
  refine ⟨_, _, rfl, hspawned, run_append_singleton.mpr
    ⟨_, rfl, Outcome.bind_eq_ok.mpr ⟨_, onEvent_eq_ok_iff.mpr hturn, rfl⟩⟩, ?_⟩
  rw [manager_onTurn, instances_emit, instances_forwardBackloggedMessages]
  exact mem_insert_self _ _ _

open DeliverySystem in
/-- The executor gets both messages, once. -/
theorem backlog_exactly_once_seven :
    ∃ self, DeliverySystem.run managerSeven (beforeSeven ++ createSeven :: afterSeven) = .ok self
      ∧ (self.channels 0 ++ self.flushing 0).Perm [⟨signIdSeven, [1]⟩, ⟨signIdSeven, [2]⟩]
      ∧ self.manager.backlog.lookup signIdSeven = none := by
  obtain ⟨mid, next, hmid, hspawned, hnext, hcreated⟩ := exists_run_beforeSeven
  have hself : DeliverySystem.run managerSeven (beforeSeven ++ createSeven :: afterSeven)
      = .ok ((next.onTurn (.message ⟨signIdSeven, [2]⟩)
        (next.manager.onNetMessage ⟨signIdSeven, [2]⟩)).onFlush 0) := by
    have hafter : beforeSeven ++ createSeven :: afterSeven = beforeSeven ++ [createSeven]
        ++ [.turn (.message ⟨signIdSeven, [2]⟩)] ++ [.flush 0] := rfl
    rw [hafter]
    exact run_append_singleton.mpr ⟨_, run_append_singleton.mpr ⟨next, hnext, rfl⟩, rfl⟩
  have hfirst : ∀ spawned ∈ mid.manager.spawned, spawned.instanceId ≠ signIdSeven := by
    rw [hspawned]
    exact fun _ h => by cases h
  have hticks : ticksSinceArrival signIdSeven beforeSeven < 2 := by
    simp [ticksSinceArrival, beforeSeven, DeliveryEvent.arrival?, DeliveryEvent.isTick]
  have hbefore : arrivalsFor signIdSeven beforeSeven = [⟨signIdSeven, [1]⟩] := by
    simp [arrivalsFor, beforeSeven, DeliveryEvent.arrival?]
  have hafter : arrivalsUntil signIdSeven 0 afterSeven = [⟨signIdSeven, [2]⟩] := by
    simp [arrivalsUntil, arrivalsFor, afterSeven, DeliveryEvent.arrival?, DeliveryEvent.reports]
  have hnone : ∀ event ∈ afterSeven, event.reports 0 = false := by
    simp [afterSeven, DeliveryEvent.reports]
  have hid : signIdSeven = assignInstanceId managerSeven.hash256 (signSeven [1]) := rfl
  have hzero : 0 = mid.manager.spawned.length := by rw [hspawned, List.length_nil]
  obtain ⟨-, hperm, -, hthere, hbacklog⟩ := backlog_exactly_once rfl hid hmid hfirst hzero hnext
    hcreated hticks hself List.nodup_nil
  rw [hbefore, hafter] at hperm
  exact ⟨_, hself, hperm, hbacklog (hthere hnone)⟩

end QuorumCrypt
