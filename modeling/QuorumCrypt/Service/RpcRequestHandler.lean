import QuorumCrypt.Orchestration.CacheSafety

/-!
# The status of an instance

`rpc_request_handler.rs`: `get_status` asks the instance manager for the status of an instance and turns
it into a response. The result of the instance is unwrapped on the way, so the handler panics for an
instance that ended with an error.

To say what a client should be told, `TerminatedWith` describes how an instance ended in terms of the run
alone: an executor of its id reported a result, and since then the instance was never gone.
-/

namespace QuorumCrypt

open Rust

variable {K : Curves}

structure StatusResponse where
  instanceId : String
  scheme : ThresholdScheme
  group : Group
  isFinished : Bool
  result : Option Bytes
  keyId : Option String

namespace RpcRequestHandler

variable (ctx : ManagerContext K)

/-- What arrives on the channel of a status request. -/
def receive (responder : Responder) (sent : List Effect) : Option (Option InstanceStatus) :=
  sent.findSome? fun
    | .reported r status => if r = responder then some status else none
    | _ => none

/-- The client waits for the answer, so its channel is open. -/
def getStatus (manager : InstanceManager K) (channel : ℕ) (instanceId : String) :
    Outcome GrpcStatus StatusResponse := do
  let responder : Responder := ⟨channel, false⟩
  let status ← Outcome.unwrap <|
    match InstanceManager.handle ctx manager (.getInstanceStatus instanceId responder) with
    | .ok manager' => receive responder (manager'.effects.drop manager.effects.length)
    | _ => none
  match status with
  | none => .err ⟨.notFound, "Instance not found"⟩
  | some status => do
      let result ← match status.result with
        | some (.ok r) => .ok (some r)
        | some (.error _) => .panic
        | none => .ok none
      .ok
        { instanceId
          scheme := status.scheme
          group := status.group
          isFinished := status.finished
          result
          keyId := none }

/-- What the handler makes of an instance. -/
def response (instanceId : String) (inst : Instance) (result : Option Bytes) : StatusResponse where
  instanceId := instanceId
  scheme := inst.scheme
  group := inst.group
  isFinished := inst.finished
  result := result
  keyId := none

variable {ctx} {manager : InstanceManager K} {channel : ℕ} {instanceId : String} {inst : Instance}

theorem getStatus_eq (manager : InstanceManager K) (channel : ℕ) (instanceId : String) :
    getStatus ctx manager channel instanceId
      = match manager.instances.instanceData.lookup instanceId with
        | none => .err ⟨.notFound, "Instance not found"⟩
        | some inst =>
            match inst.result with
            | some (.ok r) => .ok (response instanceId inst (some r))
            | some (.error _) => .panic
            | none => .ok (response instanceId inst none) := by
  simp only [getStatus, InstanceManager.handle, Bool.false_eq_true, if_false, InstanceManager.emit,
    List.drop_left, receive, List.findSome?_cons, if_true, Outcome.unwrap_some, Outcome.ok_bind,
    InstanceManager.getStatus]
  cases manager.instances.instanceData.lookup instanceId with
  | none => rfl
  | some inst =>
      simp only [Option.map_some]
      cases inst.result with
      | none => rfl
      | some result =>
          cases result with
          | ok r => rfl
          | error error => rfl

end RpcRequestHandler

/-! ### How an instance ended -/

namespace InstanceManager

variable {ctx : ManagerContext K} {events : List (ManagerEvent K)} {self : InstanceManager K}
  {id : String} {inst : Instance}

/-- An executor of the id reported the result, and the instance was in the cache ever since. -/
def TerminatedWith (ctx : ManagerContext K) (events : List (ManagerEvent K)) (id : String)
    (result : Except ProtocolError Bytes) : Prop :=
  ∃ before executor after mid spawned, events = before ++ .terminated executor result :: after
    ∧ run ctx before = .ok mid ∧ mid.spawned[executor]? = some spawned ∧ spawned.instanceId = id
    ∧ ∀ past state, past <+: after →
      run ctx (before ++ .terminated executor result :: past) = .ok state →
      id ∈ state.instances.instanceData

/-- An instance has a result exactly when it is finished. -/
theorem finished_iff_run (hrun : run ctx events = .ok self) :
    ∀ id inst, self.instances.instanceData.lookup id = some inst →
      (inst.finished = true ↔ inst.result.isSome = true) := by
  refine run_induction (motive := fun _ self => ∀ id inst,
    self.instances.instanceData.lookup id = some inst →
    (inst.finished = true ↔ inst.result.isSome = true)) ?_ ?_ hrun
  · intro id inst hinst
    cases hinst
  · intro events self event self' ih hok id inst hinst
    cases turn_of_onEvent hok with
    | known _ _ => exact ih id inst hinst
    | refused _ _ _ => exact ih id inst hinst
    | launched _ _ _ _ =>
        rw [instances_emit, instances_forwardBackloggedMessages] at hinst
        rcases lookup_insert_cases hinst with ⟨-, rfl⟩ | hinst
        · simp [Instance.new]
        · exact ih id inst hinst
    | status _ => exact ih id inst hinst
    | absent _ => exact ih id inst hinst
    | settled _ _ =>
        rcases lookup_settle_cases hinst with ⟨-, rfl⟩ | ⟨-, hinst⟩
        · simp
        · exact ih id inst hinst
    | message message =>
        rw [instances_onNetMessage] at hinst
        exact ih id inst hinst
    | tick => exact ih id inst hinst

/-- A later turn that leaves the instance there does not change how it ended. -/
theorem TerminatedWith.append {result : Except ProtocolError Bytes}
    (h : TerminatedWith ctx events id result) {event : ManagerEvent K} {self' : InstanceManager K}
    (hrun : run ctx (events ++ [event]) = .ok self') (hmem : id ∈ self'.instances.instanceData) :
    TerminatedWith ctx (events ++ [event]) id result := by
  obtain ⟨before, executor, after, mid, spawned, rfl, hmid, hspawned, hid, hthere⟩ := h
  refine ⟨before, executor, after ++ [event], mid, spawned, by simp, hmid, hspawned, hid, ?_⟩
  intro past state hpre hstate
  rcases List.prefix_concat_iff.mp hpre with rfl | hpre
  · rw [← List.cons_append, ← List.append_assoc] at hstate
    obtain rfl := Outcome.ok.inj (hrun.symm.trans hstate)
    exact hmem
  · exact hthere past state hpre hstate

theorem terminatedWith_of_result (hrun : run ctx events = .ok self) :
    ∀ id inst result, self.instances.instanceData.lookup id = some inst →
      inst.result = some result → TerminatedWith ctx events id result := by
  induction events using List.reverseRecOn generalizing self with
  | nil =>
      obtain rfl := Outcome.ok.inj hrun
      intro id inst result hinst
      cases hinst
  | append_singleton events event ih =>
      obtain ⟨mid, hmid, hok⟩ := run_append_singleton.mp hrun
      intro id inst result hinst hresult
      have hmem := HashMap.mem_of_lookup hinst
      -- an instance that was there has not changed how it ended
      have hold : mid.instances.instanceData.lookup id = some inst →
          TerminatedWith ctx (events ++ [event]) id result :=
        fun hinst => (ih hmid id inst result hinst hresult).append hrun hmem
      cases turn_of_onEvent hok with
      | known _ _ => exact hold hinst
      | refused _ _ _ => exact hold hinst
      | launched _ _ _ _ =>
          rw [instances_emit, instances_forwardBackloggedMessages] at hinst
          rcases lookup_insert_cases hinst with ⟨-, rfl⟩ | hinst
          · cases hresult
          · exact hold hinst
      | status _ => exact hold hinst
      | absent _ => exact hold hinst
      | @settled executor result' spawned inst' hspawned hinst' =>
          rcases lookup_settle_cases hinst with ⟨rfl, rfl⟩ | ⟨-, hinst⟩
          · rw [Instance.result_settled] at hresult
            obtain rfl := Option.some.inj hresult
            refine ⟨events, executor, [], mid, spawned, rfl, hmid, hspawned, rfl, ?_⟩
            intro past state hpre hstate
            obtain rfl := List.prefix_nil.mp hpre
            obtain rfl := Outcome.ok.inj (hrun.symm.trans hstate)
            exact hmem
          · exact hold hinst
      | message message =>
          rw [instances_onNetMessage] at hinst
          exact hold hinst
      | tick => exact hold hinst

/-- What the executor reported is the result of the instance, as long as that is there. -/
theorem TerminatedWith.lookup {result : Except ProtocolError Bytes}
    (h : TerminatedWith ctx events id result) (hrun : run ctx events = .ok self)
    (honce : (terminationsOf events).Nodup) :
    ∃ inst, self.instances.instanceData.lookup id = some inst ∧ inst.finished = true
      ∧ inst.result = some result := by
  obtain ⟨before, executor, after, mid, spawned, rfl, hmid, hspawned, rfl, hthere⟩ := h
  have honce' := honce
  rw [terminationsOf, List.filterMap_append] at honce'
  obtain ⟨hbefore, -, hdisjoint⟩ := List.nodup_append.mp honce'
  obtain ⟨done, hmanaged, hdone⟩ := managed_run hmid hbefore
  have hfresh : executor ∉ done := by
    intro hmem
    exact hdisjoint executor (hdone executor hmem) executor (by simp [ManagerEvent.terminated?]) rfl
  obtain ⟨inst, hinst, -⟩ := hmanaged.live executor spawned hspawned hfresh
  have hsettled : run ctx (before ++ [.terminated executor result])
      = .ok (mid.settle spawned.instanceId inst result) :=
    run_append_singleton.mpr ⟨mid, hmid, onEvent_eq_ok_iff.mpr (.settled hspawned hinst)⟩
  have hlookup : (mid.settle spawned.instanceId inst result).instances.instanceData.lookup
      spawned.instanceId = some (inst.settled result) := by
    rw [settle, instances_emit, AList.lookup_insert]
  rw [List.append_cons] at hrun honce
  refine ⟨inst.settled result, lookup_finished_run hsettled hlookup rfl hrun honce ?_, rfl, rfl⟩
  intro past state hpre hstate
  rw [← List.append_cons] at hstate
  exact hthere past state hpre hstate

/-- How an instance ended can be read off the cache. -/
theorem terminatedWith_iff {result : Except ProtocolError Bytes} (hrun : run ctx events = .ok self)
    (honce : (terminationsOf events).Nodup) :
    TerminatedWith ctx events id result ↔
      ∃ inst, self.instances.instanceData.lookup id = some inst ∧ inst.result = some result := by
  constructor
  · intro h
    obtain ⟨inst, hinst, -, hresult⟩ := h.lookup hrun honce
    exact ⟨inst, hinst, hresult⟩
  · rintro ⟨inst, hinst, hresult⟩
    exact terminatedWith_of_result hrun id inst result hinst hresult

end InstanceManager

namespace RpcRequestHandler

open InstanceManager

/-- What a client that asks for the status of an instance should get: an answer in any case, which is
`NotFound` for an instance that is not there; whether it is finished; what it returned; and for one that
ended with an error, no result or another error. -/
structure StatusReported (ctx : ManagerContext K) (events : List (ManagerEvent K))
    (manager : InstanceManager K) (channel : ℕ) (id : String) : Prop where
  returns : (getStatus ctx manager channel id).Returns
  notFound_iff : (∃ message, getStatus ctx manager channel id = .err ⟨.notFound, message⟩)
    ↔ id ∉ manager.instances.instanceData
  running : id ∈ manager.instances.instanceData → (¬ ∃ result, TerminatedWith ctx events id result) →
    ∃ response, getStatus ctx manager channel id = .ok response ∧ response.isFinished = false
  finished : ∀ r, TerminatedWith ctx events id (.ok r) →
    ∃ response, getStatus ctx manager channel id = .ok response ∧ response.isFinished = true
      ∧ response.result = some r
  failed : ∀ error, TerminatedWith ctx events id (.error error) →
    (∃ response, getStatus ctx manager channel id = .ok response ∧ response.isFinished = true
      ∧ response.result = none)
    ∨ ∃ status, getStatus ctx manager channel id = .err status

end RpcRequestHandler

open InstanceManager RpcRequestHandler in
/-- In every state of a run in which each executor reports at most once, a client is told the status of
an instance as it should be if and only if the instance did not end with an error. -/
theorem status_reported_iff {ctx : ManagerContext K} {events : List (ManagerEvent K)}
    {self : InstanceManager K} (hrun : InstanceManager.run ctx events = .ok self)
    (honce : (terminationsOf events).Nodup) (channel : ℕ) (id : String) :
    StatusReported ctx events self channel id
      ↔ ∀ error, ¬ TerminatedWith ctx events id (.error error) := by
  have hended : ∀ result, TerminatedWith ctx events id result ↔
      ∃ inst, self.instances.instanceData.lookup id = some inst ∧ inst.result = some result :=
    fun _ => terminatedWith_iff hrun honce
  constructor
  · intro h error hterminated
    obtain ⟨inst, hinst, hresult⟩ := (hended _).mp hterminated
    have hreturns := h.returns
    simp only [getStatus_eq, hinst, hresult] at hreturns
    exact hreturns
  · intro hnever
    cases hlookup : self.instances.instanceData.lookup id with
    | none =>
        have hstatus : getStatus ctx self channel id = .err ⟨.notFound, "Instance not found"⟩ := by
          simp only [getStatus_eq, hlookup]
        have habsent := AList.lookup_eq_none.mp hlookup
        have hnot : ∀ result, ¬ TerminatedWith ctx events id result := by
          simp [hended, hlookup]
        refine ⟨?_, ?_, fun hmem => absurd hmem habsent, fun r h => absurd h (hnot _),
          fun error h => absurd h (hnot _)⟩
        · rw [hstatus]
          trivial
        · exact iff_of_true ⟨_, hstatus⟩ habsent
    | some inst =>
        have hmem := HashMap.mem_of_lookup hlookup
        have hfinished := finished_iff_run hrun id inst hlookup
        have hended : ∀ result, TerminatedWith ctx events id result ↔ inst.result = some result := by
          simp [hended, hlookup]
        cases hresult : inst.result with
        | none =>
            have hstatus : getStatus ctx self channel id = .ok (response id inst none) := by
              simp only [getStatus_eq, hlookup, hresult]
            have hnot : ∀ result, ¬ TerminatedWith ctx events id result := by
              simp [hended, hresult]
            rw [hresult] at hfinished
            refine ⟨?_, ?_, fun _ _ => ⟨_, hstatus, ?_⟩, fun r h => absurd h (hnot _),
              fun error h => absurd h (hnot _)⟩
            · rw [hstatus]
              trivial
            · rw [hstatus]
              exact iff_of_false (by simp) (not_not.mpr hmem)
            · exact Bool.eq_false_iff.mpr fun h => by cases hfinished.mp h
        | some result =>
            have hterminated := (hended result).mpr hresult
            cases result with
            | error error => exact absurd hterminated (hnever error)
            | ok r =>
                have hstatus : getStatus ctx self channel id = .ok (response id inst (some r)) := by
                  simp only [getStatus_eq, hlookup, hresult]
                rw [hresult] at hfinished
                refine ⟨?_, ?_, fun _ hnot => absurd ⟨_, hterminated⟩ hnot, ?_,
                  fun error h => absurd h (hnever error)⟩
                · rw [hstatus]
                  trivial
                · rw [hstatus]
                  exact iff_of_false (by simp) (not_not.mpr hmem)
                · intro r' hterminated'
                  obtain rfl : r = r' := by simpa using hresult.symm.trans ((hended _).mp hterminated')
                  exact ⟨_, hstatus, hfinished.mpr rfl, rfl⟩

open InstanceManager RpcRequestHandler in
/-- The client of an instance that returned a signature is told so. -/
theorem status_reported_seven :
    ∃ self, InstanceManager.run managerSeven (finishedSeven (.ok [9])) = .ok self
      ∧ StatusReported managerSeven (finishedSeven (.ok [9])) self 1 signIdSeven := by
  obtain ⟨self, hrun, -⟩ := run_finishedSeven (.ok [9])
  refine ⟨self, hrun, (status_reported_iff hrun (List.nodup_singleton 0) 1 signIdSeven).mpr ?_⟩
  rintro error ⟨before, executor, after, mid, spawned, hevents, -⟩
  have hmem : .terminated executor (.error error) ∈ finishedSeven (.ok [9]) := by
    rw [hevents]
    simp
  simp [finishedSeven] at hmem

open InstanceManager RpcRequestHandler in
/-- The handler panics for an instance that ended with an error. -/
theorem failed_status_not_reported_seven :
    ∃ self, InstanceManager.run managerSeven (finishedSeven (.error .internalError)) = .ok self
      ∧ signIdSeven ∈ self.instances.instanceData
      ∧ getStatus managerSeven self 1 signIdSeven = .panic
      ∧ ¬ StatusReported managerSeven (finishedSeven (.error .internalError)) self 1 signIdSeven := by
  obtain ⟨self, hrun, hinst⟩ := run_finishedSeven (.error .internalError)
  have hpanic : getStatus managerSeven self 1 signIdSeven = .panic := by
    simp only [getStatus_eq, hinst, Instance.result_settled]
  refine ⟨self, hrun, HashMap.mem_of_lookup hinst, hpanic, ?_⟩
  intro h
  have hreturns := h.returns
  rw [hpanic] at hreturns
  exact hreturns

end QuorumCrypt
