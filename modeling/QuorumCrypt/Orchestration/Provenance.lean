import QuorumCrypt.Orchestration.Routing

/-!
# Where the results of a node come from

The clients of a node see results: in the status of an instance, and on the channel of a synchronous
request. In every state that a node can come to, whatever its network and its clients do and however its
tasks take turns, a result is what the protocol of one of its executors came to, on messages for that
instance and no others.
-/

namespace QuorumCrypt

open Rust

variable {K : Curves}

/-- What is sent to a client that waits was reported by an executor. -/
theorem InstanceManager.delivered_run {ctx : ManagerContext K} {events : List (ManagerEvent K)}
    {self : InstanceManager K} (hrun : InstanceManager.run ctx events = .ok self) :
    ∀ responder result, .delivered responder result ∈ self.effects →
      ∃ executor, executor < self.spawned.length ∧ .terminated executor result ∈ events := by
  have hmem : ∀ (responder : Responder) (result : Except ProtocolError Bytes) (effects : List Effect),
      .delivered responder result ∈ effects ↔ result ∈ deliveriesTo responder effects := by
    intro responder result effects
    rw [deliveriesTo, List.mem_filterMap]
    constructor
    · intro h
      exact ⟨_, h, by simp⟩
    · rintro ⟨effect, heffect, hsome⟩
      cases effect with
      | delivered responder' result' =>
          dsimp only at hsome
          split at hsome
          · rename_i heq
            obtain rfl := Option.some.inj hsome
            exact heq ▸ heffect
          · cases hsome
      | _ => cases hsome
  refine run_induction (motive := fun events self => ∀ responder result,
    .delivered responder result ∈ self.effects →
      ∃ executor, executor < self.spawned.length ∧ .terminated executor result ∈ events) ?_ ?_ hrun
  · intro responder result h
    cases h
  · intro events self event self' ih hok responder result h
    have hlength := (spawned_isPrefix hok).length_le
    have hold : result ∈ deliveriesTo responder self.effects →
        ∃ executor, executor < self'.spawned.length ∧ .terminated executor result ∈ events ++ [event] := by
      intro h
      obtain ⟨executor, hlt, hevent⟩ := ih responder result ((hmem _ _ _).mpr h)
      exact ⟨executor, hlt.trans_le hlength, List.mem_append_left _ hevent⟩
    rw [hmem] at h
    rcases deliveriesTo_turn (r := responder) (turn_of_onEvent hok) with
      hsame | ⟨executor, result', spawned, inst, rfl, hspawned, -, -, -, hsent⟩
    · exact hold (hsame ▸ h)
    · rw [hsent, List.mem_append, List.mem_singleton] at h
      rcases h with h | rfl
      · exact hold h
      · have hlt := (List.getElem?_eq_some_iff.mp hspawned).1
        exact ⟨executor, hlt.trans_le hlength, List.mem_append_right _ List.mem_cons_self⟩

/-- An executor of the instance came to the result, on the messages it took, which are all for it. -/
def Server.Computed (ctx : ServerContext K) (server : Server K) (id : String)
    (result : Except ProtocolError Bytes) : Prop :=
  ∃ executor spawned, server.manager.spawned[executor]? = some spawned ∧ spawned.instanceId = id
    ∧ (∀ m ∈ server.taken executor, m.instanceId = id)
    ∧ spawned.react ctx.protocols executor (server.taken executor) = .finish result

theorem Server.Accounted.computed {ctx : ServerContext K} {events : List (ManagerEvent K)}
    {self : Server K} (h : Accounted ctx events self) {Q : NetMessage → Prop}
    {R : StartInstanceRequest K → Prop} (hrouted : Routed ctx Q R self) {executor : ℕ}
    {spawned : Spawned K} (hspawned : self.manager.spawned[executor]? = some spawned)
    {result : Except ProtocolError Bytes} (hevent : .terminated executor result ∈ events) :
    self.Computed ctx spawned.instanceId result := by
  refine ⟨executor, spawned, hspawned, rfl, ?_, ?_⟩
  · intro m hm
    obtain ⟨⟨spawned', hspawned', hid⟩, -⟩ := hrouted.taken executor m hm
    obtain rfl := Option.some.inj (hspawned.symm.trans hspawned')
    exact hid.symm
  · have hreaction := (h.reaction hevent).2
    rwa [reactionOf, hspawned] at hreaction

open Server in
/-- In every state that a node can come to: its manager took some events one after the other, and in these
each executor reports at most once; an executor that has not reported yet has its instance in the cache,
unfinished; and every result, of an instance in the cache or sent to a client that waits, is what an
executor of the instance came to on the messages it took, all of them for this instance. -/
theorem results_computed {ctx : ServerContext K} {allowed : Server K → Action K → Prop}
    {self : Server K} (h : Reachable (Server.step ctx) allowed new self) :
    (∃ events, InstanceManager.run ctx.toManagerContext events = .ok self.manager
      ∧ (terminationsOf events).Nodup
      ∧ ∀ executor spawned, self.manager.spawned[executor]? = some spawned →
        executor ∉ terminationsOf events →
        ∃ inst, self.manager.instances.instanceData.lookup spawned.instanceId = some inst
          ∧ inst.finished = false ∧ inst.messageChannelSender = some executor)
    ∧ (∀ id inst result, self.manager.instances.instanceData.lookup id = some inst →
      inst.result = some result → self.Computed ctx id result)
    ∧ ∀ responder result, .delivered responder result ∈ self.manager.effects →
      ∃ id, self.Computed ctx id result := by
  obtain ⟨events, haccounted⟩ := exists_accounted h
  have hrouted := routed_of_reachable h
  have honce := haccounted.terminationsOf_nodup
  refine ⟨⟨events, haccounted.run, honce, ?_⟩, ?_, ?_⟩
  · intro executor spawned hspawned hnew
    obtain ⟨done, hmanaged, hdone⟩ := haccounted.managed
    exact hmanaged.live executor spawned hspawned fun hmem => hnew ((hdone executor).mp hmem)
  · intro id inst result hinst hresult
    obtain ⟨executor, spawned, hspawned, rfl, hevent⟩ :=
      (InstanceManager.traced_run haccounted.run).results id inst result hinst hresult
    exact haccounted.computed hrouted hspawned hevent
  · intro responder result hdelivered
    obtain ⟨executor, hlt, hevent⟩ :=
      InstanceManager.delivered_run haccounted.run responder result hdelivered
    exact ⟨_, haccounted.computed hrouted (List.getElem?_eq_getElem hlt) hevent⟩

/-- The share of this node comes back to it, and that of the second party arrives. -/
def finishingSeven : List (Action Curves.seven) :=
  signingSeven ++ [.networkOutgoing, .managerMessage] ++ floodSeven 1
    ++ [.executorTakes 0, .executorTakes 0, .managerCommand]

open Server in
theorem results_computed_seven :
    ∃ self : Server Curves.seven, runAllowed (step serverSeven) (fun _ _ => True) new finishingSeven
        = some self
      ∧ ∃ inst result, self.manager.instances.instanceData.lookup signIdSeven = some inst
        ∧ inst.result = some result ∧ self.Computed serverSeven signIdSeven result := by
  have hrun : (runAllowed (step serverSeven) (fun _ _ => True) new finishingSeven).any (fun self =>
      (self.manager.instances.instanceData.lookup signIdSeven).any fun inst =>
        inst.result.any fun result => result.isOk) = true := by decide +kernel
  obtain ⟨self, hself, hfinished⟩ := (Option.any_eq_true _ _).mp hrun
  obtain ⟨inst, hinst, hresult⟩ := (Option.any_eq_true _ _).mp hfinished
  obtain ⟨result, hresult, -⟩ := (Option.any_eq_true _ _).mp hresult
  have hreachable : Reachable (step serverSeven) (fun _ _ => True) new self :=
    Reachable.start.of_runAllowed hself
  exact ⟨self, hself, inst, result, hinst, hresult,
    (results_computed hreachable).2.1 signIdSeven inst result hinst hresult⟩

end QuorumCrypt
