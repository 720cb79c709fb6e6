import QuorumCrypt.Orchestration.CacheSafety

/-!
# Clients that wait for the result

A synchronous request brings a oneshot channel for the result. `start` puts it into the instance it
creates, and the instance gives it up when it finishes. When there is an instance under the id already,
the request is answered with the id and its channel is dropped: an instance has room for one. So a
synchronous request is served exactly when its instance is not there as it arrives.
-/

namespace QuorumCrypt

open Rust

variable {K : Curves}

/-- What was sent to a client that waits for a result. -/
def deliveriesTo (r : Responder) (effects : List Effect) : List (Except ProtocolError Bytes) :=
  effects.filterMap fun
    | .delivered r' result => if r' = r then some result else none
    | _ => none

/-- The channel for the result that an event brings. -/
def ManagerEvent.syncResponder? : ManagerEvent K → Option Responder
  | command (.createInstanceSync _ _ syncResponder) _ => some syncResponder
  | _ => none

def syncRespondersOf (events : List (ManagerEvent K)) : List Responder :=
  events.filterMap ManagerEvent.syncResponder?

theorem syncResponder?_of_creation {command : InstanceManagerCommand K}
    {hclient : command.isClientCommand = true} {request : StartInstanceRequest K}
    {responder : Responder} {syncResponder : Option Responder}
    (h : command.creation? = some (request, responder, syncResponder)) :
    (ManagerEvent.command command hclient).syncResponder? = syncResponder := by
  cases command <;> cases h <;> rfl

section Deliveries

variable {r : Responder}

@[simp] theorem deliveriesTo_append (effects more : List Effect) :
    deliveriesTo r (effects ++ more) = deliveriesTo r effects ++ deliveriesTo r more :=
  List.filterMap_append

@[simp] theorem deliveriesTo_forwarded (sent : List (ℕ × NetMessage)) :
    deliveriesTo r (sent.map fun m => .forwarded m.1 m.2) = [] := by
  induction sent with
  | nil => rfl
  | cons m sent ih => exact ih

@[simp] theorem deliveriesTo_answers (responder : Responder) (syncResponder : Option Responder)
    (result : Except ProtocolError String) :
    deliveriesTo r (InstanceManager.answers responder syncResponder result) = [] := by
  cases result <;> cases syncResponder <;> rfl

theorem deliveriesTo_sender (sender : Option Responder) (result : Except ProtocolError Bytes) :
    deliveriesTo r (sender.toList.map fun sender => .delivered sender result)
      = if sender = some r then [result] else [] := by
  cases sender with
  | none => rfl
  | some sender =>
      by_cases h : sender = r
      · simp [deliveriesTo, h]
      · simp [deliveriesTo, h]

end Deliveries

namespace InstanceManager

variable {ctx : ManagerContext K} {self self' : InstanceManager K} {event : ManagerEvent K}
  {r : Responder}

/-- No instance has the channel. -/
def NotHeld (r : Responder) (self : InstanceManager K) : Prop :=
  ∀ id inst, self.instances.instanceData.lookup id = some inst → inst.resultSender ≠ some r

/-- What a turn sends on a channel for a result: an instance that has the channel finishes. -/
theorem deliveriesTo_turn (h : Turn ctx self event self') :
    deliveriesTo r self'.effects = deliveriesTo r self.effects
    ∨ ∃ executor result spawned inst, event = .terminated executor result
      ∧ self.spawned[executor]? = some spawned
      ∧ self.instances.instanceData.lookup spawned.instanceId = some inst
      ∧ inst.resultSender = some r ∧ self' = self.settle spawned.instanceId inst result
      ∧ deliveriesTo r self'.effects = deliveriesTo r self.effects ++ [result] := by
  cases h with
  | known _ _ => exact .inl (by simp [emit, deliveriesTo])
  | refused _ _ _ => exact .inl (by simp [emit])
  | @launched _ _ request _ syncResponder protocol _ _ _ _ =>
      obtain ⟨sent, hsent⟩ := effects_forwardBackloggedMessages
        (self.launch (assignInstanceId ctx.hash256 request) request protocol syncResponder)
        (assignInstanceId ctx.hash256 request)
      left
      rw [emit, hsent, deliveriesTo_append, deliveriesTo_append, deliveriesTo_forwarded, List.append_nil]
      exact List.append_nil _
  | status _ => exact .inl (by simp [emit, deliveriesTo])
  | absent _ => exact .inl rfl
  | @settled executor result spawned inst hspawned hinst =>
      have hsent : deliveriesTo r (self.settle spawned.instanceId inst result).effects
          = deliveriesTo r self.effects ++ if inst.resultSender = some r then [result] else [] := by
        rw [settle, emit, deliveriesTo_append, deliveriesTo_sender]
      by_cases hsender : inst.resultSender = some r
      · rw [if_pos hsender] at hsent
        exact .inr ⟨executor, result, spawned, inst, rfl, hspawned, hinst, hsender, rfl, hsent⟩
      · rw [if_neg hsender, List.append_nil] at hsent
        exact .inl hsent
  | message message =>
      obtain ⟨sent, hsent⟩ := effects_onNetMessage self message
      left
      rw [hsent, deliveriesTo_append, deliveriesTo_forwarded, List.append_nil]
  | tick => exact .inl rfl

/-- Who has a channel after a turn had it before, unless the request of the turn brought it. -/
theorem holder_turn (h : Turn ctx self event self') (hevent : event.syncResponder? ≠ some r)
    {id : String} {inst' : Instance} (hinst' : self'.instances.instanceData.lookup id = some inst')
    (hheld : inst'.resultSender = some r) :
    self.instances.instanceData.lookup id = some inst' := by
  cases h with
  | known _ _ => exact hinst'
  | refused _ _ _ => exact hinst'
  | launched hcreation _ _ _ =>
      rw [instances_emit, instances_forwardBackloggedMessages] at hinst'
      rcases lookup_insert_cases hinst' with ⟨-, rfl⟩ | hinst
      · rw [syncResponder?_of_creation hcreation] at hevent
        exact absurd hheld hevent
      · exact hinst
  | status _ => exact hinst'
  | absent _ => exact hinst'
  | settled _ _ =>
      rcases lookup_settle_cases hinst' with ⟨-, rfl⟩ | ⟨-, hinst⟩
      · cases hheld
      · exact hinst
  | message message => rwa [instances_onNetMessage] at hinst'
  | tick => exact hinst'

/-- A channel that nobody has is not used any more. -/
theorem NotHeld.turn (hnot : NotHeld r self) (h : Turn ctx self event self')
    (hevent : event.syncResponder? ≠ some r) :
    NotHeld r self' ∧ deliveriesTo r self'.effects = deliveriesTo r self.effects := by
  refine ⟨?_, ?_⟩
  · intro id inst' hinst' hheld
    exact hnot id inst' (holder_turn h hevent hinst' hheld) hheld
  · rcases deliveriesTo_turn h with heq | ⟨_, _, spawned, inst, -, -, hinst, hheld, -⟩
    · exact heq
    · exact absurd hheld (hnot _ inst hinst)

/-- It stays unused in a run in which it is not brought. -/
theorem notHeld_later {events : List (ManagerEvent K)} {next : InstanceManager K}
    {more : List (ManagerEvent K)} (hnext : run ctx events = .ok next)
    (hnot : NotHeld r next ∧ deliveriesTo r next.effects = [])
    (hrun : run ctx (events ++ more) = .ok self) (hmore : r ∉ syncRespondersOf more) :
    NotHeld r self ∧ deliveriesTo r self.effects = [] := by
  induction more using List.reverseRecOn generalizing self with
  | nil =>
      rw [List.append_nil] at hrun
      obtain rfl := Outcome.ok.inj (hnext.symm.trans hrun)
      exact hnot
  | append_singleton more event ih =>
      rw [← List.append_assoc] at hrun
      rw [syncRespondersOf, List.filterMap_append, List.mem_append, not_or] at hmore
      obtain ⟨mid, hmid, hok⟩ := run_append_singleton.mp hrun
      have hevent : event.syncResponder? ≠ some r := by
        intro heq
        exact hmore.2 (by simp [heq])
      obtain ⟨hnot', hnone⟩ := ih hmid hmore.1
      obtain ⟨hnot'', hsame⟩ := hnot'.turn (turn_of_onEvent hok) hevent
      exact ⟨hnot'', hsame.trans hnone⟩

/-- Before it is brought, a channel is neither held nor used. -/
theorem notHeld_run {events : List (ManagerEvent K)} (hrun : run ctx events = .ok self)
    (hevents : r ∉ syncRespondersOf events) :
    NotHeld r self ∧ deliveriesTo r self.effects = [] := by
  have hnew : run ctx [] = .ok new := rfl
  refine notHeld_later hnew ⟨?_, rfl⟩ hrun hevents
  intro id inst hinst
  cases hinst

/-! ### The two ways to be served -/

/-- The channel is with the instance, which is not finished. -/
structure Held (r : Responder) (id : String) (manager : InstanceManager K) : Prop where
  holder : ∃ inst, manager.instances.instanceData.lookup id = some inst ∧ inst.finished = false
    ∧ inst.resultSender = some r
  only : ∀ id' inst', manager.instances.instanceData.lookup id' = some inst' →
    inst'.resultSender = some r → id' = id
  unused : deliveriesTo r manager.effects = []

/-- One result was sent on the channel, and it is the one with which the instance finished. -/
def Delivered (ctx : ManagerContext K) (events : List (ManagerEvent K)) (r : Responder) (id : String)
    (manager : InstanceManager K) : Prop :=
  ∃ result past executor finished inst, deliveriesTo r manager.effects = [result]
    ∧ past ++ [.terminated executor result] <+: events
    ∧ run ctx (past ++ [.terminated executor result]) = .ok finished
    ∧ finished.instances.instanceData.lookup id = some inst
    ∧ inst.finished = true ∧ inst.result = some result

/-- What a client that waits for a result should be able to rely on. -/
def SyncServed (ctx : ManagerContext K) (events : List (ManagerEvent K)) (r : Responder) (id : String)
    (manager : InstanceManager K) : Prop :=
  (∃ inst, manager.instances.instanceData.lookup id = some inst ∧ inst.finished = false
    ∧ inst.resultSender = some r ∧ deliveriesTo r manager.effects = [])
  ∨ Delivered ctx events r id manager

variable {events : List (ManagerEvent K)} {id : String}

/-- The instance keeps the channel until it finishes, and then sends its result on it. -/
theorem Held.onEvent (h : Held r id self) (hconsistent : self.instances.Consistent)
    (hok : InstanceManager.onEvent ctx self event = .ok self')
    (hrun : run ctx (events ++ [event]) = .ok self') (hevent : event.syncResponder? ≠ some r) :
    Held r id self' ∨ (NotHeld r self' ∧ Delivered ctx (events ++ [event]) r id self') := by
  have hturn := turn_of_onEvent hok
  have honly : ∀ id' inst', self'.instances.instanceData.lookup id' = some inst' →
      inst'.resultSender = some r → id' = id := by
    intro id' inst' hinst' hheld
    exact h.only id' inst' (holder_turn hturn hevent hinst' hheld) hheld
  obtain ⟨inst, hinst, hrunning, hheld⟩ := h.holder
  rcases deliveriesTo_turn (r := r) hturn with
    hsame | ⟨executor, result, spawned, inst', rfl, -, hinst', hheld', rfl, hsent⟩
  · -- nothing was sent, so the instance has not finished
    refine .inl ⟨⟨inst, ?_, hrunning, hheld⟩, honly, hsame.trans h.unused⟩
    cases hturn with
    | known _ _ => exact hinst
    | refused _ _ _ => exact hinst
    | launched _ hnew _ _ =>
        rw [instances_emit, instances_forwardBackloggedMessages]
        exact hconsistent.lookup_insert hinst hrunning
          (ne_of_mem_of_not_mem (HashMap.mem_of_lookup hinst) hnew) _
    | status _ => exact hinst
    | absent _ => exact hinst
    | @settled executor result spawned inst' _ hinst' =>
        have hne : id ≠ spawned.instanceId := by
          rintro rfl
          obtain rfl := Option.some.inj (hinst.symm.trans hinst')
          rw [settle, emit, deliveriesTo_append, deliveriesTo_sender, if_pos hheld] at hsame
          simp at hsame
        rw [settle, instances_emit, AList.lookup_insert_ne hne]
        exact hinst
    | message message =>
        rw [instances_onNetMessage]
        exact hinst
    | tick => exact hinst
  · obtain rfl := h.only _ inst' hinst' hheld'
    rw [h.unused, List.nil_append] at hsent
    refine .inr ⟨?_, result, events, executor, _, inst'.settled result, hsent, List.prefix_refl _,
      hrun, ?_, rfl, rfl⟩
    · intro id' other hother hheld''
      obtain rfl := honly id' other hother hheld''
      rw [settle, instances_emit, AList.lookup_insert] at hother
      obtain rfl := Option.some.inj hother
      cases hheld''
    · rw [settle, instances_emit, AList.lookup_insert]

theorem Delivered.onEvent (h : Delivered ctx events r id self) (hnot : NotHeld r self)
    (hok : InstanceManager.onEvent ctx self event = .ok self')
    (hevent : event.syncResponder? ≠ some r) : Delivered ctx (events ++ [event]) r id self' := by
  obtain ⟨result, past, executor, finished, inst, hsent, hpre, hrest⟩ := h
  obtain ⟨-, hsame⟩ := hnot.turn (turn_of_onEvent hok) hevent
  exact ⟨result, past, executor, finished, inst, hsame.trans hsent,
    hpre.trans (List.prefix_append _ _), hrest⟩

/-- From the turn in which an instance gets the channel on, the client is served. -/
theorem held_run {next : InstanceManager K} {more : List (ManagerEvent K)}
    (hnext : run ctx events = .ok next) (hheld : Held r id next)
    (hrun : run ctx (events ++ more) = .ok self)
    (honce : (terminationsOf (events ++ more)).Nodup) (hmore : r ∉ syncRespondersOf more) :
    Held r id self ∨ (NotHeld r self ∧ Delivered ctx (events ++ more) r id self) := by
  induction more using List.reverseRecOn generalizing self with
  | nil =>
      rw [List.append_nil] at hrun
      obtain rfl := Outcome.ok.inj (hnext.symm.trans hrun)
      exact .inl hheld
  | append_singleton more event ih =>
      rw [← List.append_assoc] at hrun honce ⊢
      rw [syncRespondersOf, List.filterMap_append, List.mem_append, not_or] at hmore
      obtain ⟨mid, hmid, hok⟩ := run_append_singleton.mp hrun
      have honce' : (terminationsOf (events ++ more)).Nodup := by
        rw [terminationsOf, List.filterMap_append] at honce
        exact (List.nodup_append.mp honce).1
      have hevent : event.syncResponder? ≠ some r := by
        intro heq
        exact hmore.2 (by simp [heq])
      rcases ih hmid honce' hmore.1 with hheld | ⟨hnot, hdelivered⟩
      · obtain ⟨done, hmanaged, -⟩ := managed_run hmid honce'
        exact hheld.onEvent hmanaged.consistent hok hrun hevent
      · exact .inr ⟨(hnot.turn (turn_of_onEvent hok) hevent).1, hdelivered.onEvent hnot hok hevent⟩

/-- A request that is started leaves its channel with the new instance. -/
theorem held_launch (hnot : NotHeld r self ∧ deliveriesTo r self.effects = [])
    {request : StartInstanceRequest K} {protocol : ProtocolInstance K} (responder : Responder) :
    Held r id (((self.launch id request protocol (some r)).forwardBackloggedMessages id).emit
      [.answered responder (.ok id)]) where
  holder := by
    rw [instances_emit, instances_forwardBackloggedMessages]
    exact ⟨_, InstanceCache.lookup_insert_self _ _ _, rfl, rfl⟩
  only id' inst' hinst' hheld := by
    rw [instances_emit, instances_forwardBackloggedMessages] at hinst'
    rcases lookup_insert_cases hinst' with ⟨rfl, -⟩ | hinst'
    · rfl
    · exact absurd hheld (hnot.1 id' inst' hinst')
  unused := by
    obtain ⟨sent, hsent⟩ :=
      effects_forwardBackloggedMessages (self.launch id request protocol (some r)) id
    rw [emit, hsent, deliveriesTo_append, deliveriesTo_append, deliveriesTo_forwarded, List.append_nil]
    exact (List.append_nil _).trans hnot.2

end InstanceManager

open InstanceManager in
/-- In every run in which each executor reports at most once and each synchronous request brings its own
channel, in every state: a synchronous request that was answered with an id is served, that is, its
channel is with the instance as long as that has not finished, or the result of the instance was sent on
it once, if and only if there was no instance under the id when the request arrived. -/
theorem sync_served_iff {ctx : ManagerContext K} {events : List (ManagerEvent K)}
    {self : InstanceManager K} (hrun : InstanceManager.run ctx events = .ok self)
    (honce : (terminationsOf events).Nodup) (hsync : (syncRespondersOf events).Nodup) :
    ∀ before after request responder r hclient mid,
      events = before ++ .command (.createInstanceSync request responder r) hclient :: after →
      InstanceManager.run ctx before = .ok mid →
      (∃ next, start ctx mid request (some r) = .ok (.ok (assignInstanceId ctx.hash256 request), next)) →
      (SyncServed ctx events r (assignInstanceId ctx.hash256 request) self
        ↔ assignInstanceId ctx.hash256 request ∉ mid.instances.instanceData) := by
  rintro before after request responder r hclient mid rfl hmid ⟨next, hstart⟩
  -- the channel is brought by this request and by no other
  rw [syncRespondersOf, List.filterMap_append] at hsync
  obtain ⟨-, hrest, hdisjoint⟩ := List.nodup_append.mp hsync
  have hbefore : r ∉ syncRespondersOf before := by
    intro hmem
    exact hdisjoint r hmem r (by simp [ManagerEvent.syncResponder?]) rfl
  have hafter : r ∉ syncRespondersOf after := (List.nodup_cons.mp hrest).1
  have hnot := notHeld_run hmid hbefore
  rw [List.append_cons] at hrun honce ⊢
  obtain ⟨next', hnext⟩ := exists_run_of_append hrun
  obtain ⟨mid', hmid', hok⟩ := run_append_singleton.mp hnext
  obtain rfl := Outcome.ok.inj (hmid.symm.trans hmid')
  have hhandle : handle ctx mid (.createInstanceSync request responder r)
      = .ok (next.emit [.answered responder (.ok (assignInstanceId ctx.hash256 request))]) :=
    handle_of_start rfl hstart
  obtain rfl := Outcome.ok.inj (hok.symm.trans hhandle)
  by_cases hmem : assignInstanceId ctx.hash256 request ∈ mid.instances.instanceData
  · refine iff_of_false ?_ (not_not.mpr hmem)
    rw [start_of_mem hmem] at hstart
    obtain ⟨-, rfl⟩ := Prod.mk.inj (Outcome.ok.inj hstart)
    have hdropped : NotHeld r (mid.emit [.answered responder (.ok (assignInstanceId ctx.hash256 request))])
        ∧ deliveriesTo r (mid.emit
          [.answered responder (.ok (assignInstanceId ctx.hash256 request))]).effects = [] := by
      refine ⟨hnot.1, ?_⟩
      rw [emit, deliveriesTo_append, hnot.2]
      rfl
    have hlater := notHeld_later hnext hdropped hrun hafter
    rintro (⟨inst, hinst, -, hheld, -⟩ | ⟨result, past, executor, finished, inst, hsent, -⟩)
    · exact hlater.1 _ inst hinst hheld
    · rw [hlater.2] at hsent
      cases hsent
  · refine iff_of_true ?_ hmem
    cases hkey : privateKeyFor ctx request with
    | none =>
        rw [start_of_key_eq_none hmem hkey] at hstart
        cases hstart
    | some key =>
        rw [start_of_key hmem hkey] at hstart
        obtain ⟨protocol, -, heq⟩ := Outcome.bind_eq_ok.mp hstart
        obtain ⟨-, rfl⟩ := Prod.mk.inj (Outcome.ok.inj heq)
        rcases held_run hnext (held_launch hnot responder) hrun honce hafter with hheld | ⟨-, hdelivered⟩
        · obtain ⟨inst, hinst, hrunning, hsender⟩ := hheld.holder
          exact .inl ⟨inst, hinst, hrunning, hsender, hheld.unused⟩
        · exact .inr hdelivered

/-- A synchronous request, with the channels for the answer and for the result. -/
def syncSeven (answer result : ℕ) : ManagerEvent Curves.seven :=
  .command (.createInstanceSync (signSeven [1]) ⟨answer, false⟩ ⟨result, false⟩) rfl

open InstanceManager in
/-- The client of a synchronous request gets the result. -/
theorem sync_served_seven :
    ∃ self, InstanceManager.run managerSeven [syncSeven 0 1, .terminated 0 (.ok [9])] = .ok self
      ∧ SyncServed managerSeven [syncSeven 0 1, .terminated 0 (.ok [9])] ⟨1, false⟩ signIdSeven self := by
  have hrun : InstanceManager.run managerSeven [syncSeven 0 1, .terminated 0 (.ok [9])] = _ :=
    run_launch_settle rfl privateKeyFor_signSeven newProtocol_signSeven rfl (.ok [9])
  have hstart : start managerSeven new (signSeven [1]) (some ⟨1, false⟩)
      = .ok (.ok signIdSeven, (new.launch signIdSeven (signSeven [1]) signProtocolSeven
        (some ⟨1, false⟩)).forwardBackloggedMessages signIdSeven) :=
    start_of_newProtocol (AList.notMem_empty _) privateKeyFor_signSeven newProtocol_signSeven _
  exact ⟨_, hrun, (sync_served_iff hrun (List.nodup_singleton 0) (List.nodup_singleton _) [] _ _ _ _ _
    new rfl rfl ⟨_, hstart⟩).mpr (AList.notMem_empty _)⟩

open InstanceManager in
/-- The second of two identical requests is answered with the id, but its channel is dropped. -/
theorem second_sync_not_served_seven :
    ∃ self, InstanceManager.run managerSeven ([syncSeven 0 1] ++ [syncSeven 2 3]) = .ok self
      ∧ .answered ⟨2, false⟩ (.ok signIdSeven) ∈ self.effects
      ∧ NotHeld ⟨3, false⟩ self
      ∧ ¬ SyncServed managerSeven ([syncSeven 0 1] ++ [syncSeven 2 3]) ⟨3, false⟩ signIdSeven self := by
  have hfirst : InstanceManager.run managerSeven [syncSeven 0 1]
      = .ok ((new.launch signIdSeven (signSeven [1]) signProtocolSeven (some ⟨1, false⟩)).emit
        [.answered ⟨0, false⟩ (.ok signIdSeven)]) :=
    run_launch rfl privateKeyFor_signSeven newProtocol_signSeven rfl
  have hmem : signIdSeven ∈ ((new.launch signIdSeven (signSeven [1]) signProtocolSeven
      (some ⟨1, false⟩)).emit [.answered ⟨0, false⟩ (.ok signIdSeven)]).instances.instanceData :=
    mem_insert_self _ _ _
  have hnot : NotHeld ⟨3, false⟩
      (new.launch signIdSeven (signSeven [1]) signProtocolSeven (some ⟨1, false⟩)) := by
    intro id inst hinst
    rcases lookup_insert_cases hinst with ⟨-, rfl⟩ | hinst
    · simp [Instance.new]
    · cases hinst
  refine ⟨_, run_append_singleton.mpr ⟨_, hfirst, onEvent_eq_ok_iff.mpr (.known rfl hmem)⟩,
    List.mem_append_right _ List.mem_cons_self, hnot, ?_⟩
  rintro (⟨inst, hinst, -, hheld, -⟩ | ⟨result, past, executor, finished, inst, hsent, -⟩)
  · exact hnot _ inst hinst hheld
  · cases hsent

end QuorumCrypt
