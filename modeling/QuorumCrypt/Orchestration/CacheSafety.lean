import QuorumCrypt.Orchestration.Identity

/-!
# The cache of instances

The cache is a map and a queue of ids. As long as every executor reports once, the queue has the ids of
the finished instances and no others, each of them once. So an ejection removes finished instances only,
and what a finished instance returned cannot change before it is ejected.

The invariant that carries this over the turns of the manager ties the cache to the executors: every
executor that has not reported yet has its own instance in the cache, which is not finished.
-/

namespace QuorumCrypt

open Rust

variable {K : Curves}

namespace InstanceCache

variable {self : InstanceCache} {id : String} {inst : Instance}

/-- The queue has the ids of the finished instances, each of them once. -/
structure Consistent (cache : InstanceCache) : Prop where
  nodup : cache.terminatedInstances.Nodup
  mem_iff : ∀ id, id ∈ cache.terminatedInstances
    ↔ ∃ inst, cache.instanceData.lookup id = some inst ∧ inst.finished = true

theorem lookup_foldl_erase (ids : List String) (data : HashMap String Instance) (id : String) :
    (ids.foldl (fun data candidate => data.erase candidate) data).lookup id
      = if id ∈ ids then none else data.lookup id := by
  induction ids generalizing data with
  | nil => rfl
  | cons candidate ids ih =>
      rw [List.foldl_cons, ih]
      by_cases hmem : id ∈ ids
      · rw [if_pos hmem, if_pos (List.mem_cons_of_mem _ hmem)]
      · rw [if_neg hmem]
        by_cases heq : id = candidate
        · subst heq
          rw [AList.lookup_erase, if_pos List.mem_cons_self]
        · rw [AList.lookup_erase_ne heq, if_neg (by simp [heq, hmem])]

/-- The instances that an ejection removes. -/
def ejected (self : InstanceCache) : List String :=
  self.terminatedInstances.take (min self.terminatedInstances.length instanceCacheCleanupScanLength)

theorem lookup_attemptEject_eq (self : InstanceCache) (id : String) :
    self.attemptEject.instanceData.lookup id
      = if id ∈ self.ejected then none else self.instanceData.lookup id :=
  lookup_foldl_erase _ _ _

/-- An instance that is not finished is never ejected. -/
theorem Consistent.lookup_attemptEject (h : self.Consistent)
    (hinst : self.instanceData.lookup id = some inst) (hrunning : inst.finished = false) :
    self.attemptEject.instanceData.lookup id = some inst := by
  rw [lookup_attemptEject_eq, if_neg, hinst]
  intro hmem
  obtain ⟨inst', hinst', hfinished⟩ := (h.mem_iff id).mp (List.mem_of_mem_take hmem)
  obtain rfl := Option.some.inj (hinst.symm.trans hinst')
  rw [hrunning] at hfinished
  cases hfinished

theorem Consistent.attemptEject (h : self.Consistent) : self.attemptEject.Consistent where
  nodup := h.nodup.sublist (List.drop_sublist _ _)
  mem_iff id := by
    have hsplit : self.ejected ++ self.attemptEject.terminatedInstances
        = self.terminatedInstances := List.take_append_drop _ _
    have hnodup := h.nodup
    rw [← hsplit] at hnodup
    rw [lookup_attemptEject_eq]
    constructor
    · intro hmem
      rw [if_neg fun hejected => (List.nodup_append.mp hnodup).2.2 id hejected id hmem rfl]
      exact (h.mem_iff id).mp (hsplit ▸ List.mem_append_right _ hmem)
    · rintro ⟨inst, hinst, hfinished⟩
      split at hinst
      · cases hinst
      · rename_i hkept
        have hmem := (h.mem_iff id).mpr ⟨inst, hinst, hfinished⟩
        rw [← hsplit, List.mem_append] at hmem
        exact hmem.resolve_left hkept

/-- The cache that an instance is inserted into: the capacity may make room first. -/
theorem insert_cases (self : InstanceCache) (id : String) (inst : Instance) :
    ∃ cache, (cache = self ∨ cache = self.attemptEject)
      ∧ self.insert id inst = { cache with instanceData := cache.instanceData.insert id inst } := by
  rw [InstanceCache.insert]
  split
  · exact ⟨self.attemptEject, .inr rfl, rfl⟩
  · exact ⟨self, .inl rfl, rfl⟩

theorem lookup_insert_self (self : InstanceCache) (id : String) (inst : Instance) :
    (self.insert id inst).instanceData.lookup id = some inst := by
  obtain ⟨cache, -, heq⟩ := insert_cases self id inst
  rw [heq, AList.lookup_insert]

/-- Nor is it removed when another one is inserted. -/
theorem Consistent.lookup_insert (h : self.Consistent)
    (hinst : self.instanceData.lookup id = some inst) (hrunning : inst.finished = false)
    {id' : String} (hne : id ≠ id') (inst' : Instance) :
    (self.insert id' inst').instanceData.lookup id = some inst := by
  obtain ⟨cache, hcache, heq⟩ := insert_cases self id' inst'
  rw [heq, AList.lookup_insert_ne hne]
  rcases hcache with rfl | rfl
  · exact hinst
  · exact h.lookup_attemptEject hinst hrunning

/-- A new instance keeps the cache consistent. -/
theorem Consistent.insert (h : self.Consistent) (hnew : id ∉ self.instanceData)
    (hrunning : inst.finished = false) : (self.insert id inst).Consistent := by
  obtain ⟨cache, hcache, heq⟩ := insert_cases self id inst
  have hconsistent : cache.Consistent := by
    rcases hcache with rfl | rfl
    · exact h
    · exact h.attemptEject
  have hnew' : cache.instanceData.lookup id = none := by
    rcases hcache with rfl | rfl
    · exact AList.lookup_eq_none.mpr hnew
    · rw [lookup_attemptEject_eq, AList.lookup_eq_none.mpr hnew, ite_self]
  rw [heq]
  refine ⟨hconsistent.nodup, fun id' => ?_⟩
  rw [hconsistent.mem_iff id']
  by_cases hid : id' = id
  · subst hid
    rw [AList.lookup_insert, hnew']
    simp [hrunning]
  · rw [AList.lookup_insert_ne hid]

/-- So does an instance that finishes. -/
theorem Consistent.finish (h : self.Consistent) (hinst : self.instanceData.lookup id = some inst)
    (hrunning : inst.finished = false) {inst' : Instance} (hfinished : inst'.finished = true) :
    ({ self with
      instanceData := self.instanceData.insert id inst'
      terminatedInstances := self.terminatedInstances ++ [id] } : InstanceCache).Consistent := by
  have hnew : id ∉ self.terminatedInstances := by
    intro hmem
    obtain ⟨inst'', hinst'', hfinished''⟩ := (h.mem_iff id).mp hmem
    obtain rfl := Option.some.inj (hinst.symm.trans hinst'')
    rw [hrunning] at hfinished''
    cases hfinished''
  refine ⟨?_, fun id' => ?_⟩
  · rw [List.nodup_append]
    refine ⟨h.nodup, List.nodup_singleton id, ?_⟩
    intro a ha b hb heq
    rw [List.mem_singleton.mp hb] at heq
    exact hnew (heq ▸ ha)
  · by_cases hid : id' = id
    · subst hid
      rw [AList.lookup_insert]
      simp [hfinished]
    · rw [AList.lookup_insert_ne hid, List.mem_append, List.mem_singleton, or_iff_left hid]
      exact h.mem_iff id'

end InstanceCache

/-! ### The executors and their instances -/

/-- The executor that reports in an event. -/
def ManagerEvent.terminated? : ManagerEvent K → Option ℕ
  | terminated executor _ => some executor
  | _ => none

/-- The executors that report in the course of a run. -/
def terminationsOf (events : List (ManagerEvent K)) : List ℕ :=
  events.filterMap ManagerEvent.terminated?

namespace InstanceManager

/-- Every executor that has not reported is that of an instance which is not finished, and the other way
round. -/
structure Managed (done : List ℕ) (manager : InstanceManager K) : Prop where
  consistent : manager.instances.Consistent
  live : ∀ executor spawned, manager.spawned[executor]? = some spawned → executor ∉ done →
    ∃ inst, manager.instances.instanceData.lookup spawned.instanceId = some inst
      ∧ inst.finished = false ∧ inst.messageChannelSender = some executor
  running : ∀ id inst, manager.instances.instanceData.lookup id = some inst → inst.finished = false →
    ∃ executor spawned, inst.messageChannelSender = some executor
      ∧ manager.spawned[executor]? = some spawned ∧ spawned.instanceId = id ∧ executor ∉ done
  done_lt : ∀ executor ∈ done, executor < manager.spawned.length

variable {ctx : ManagerContext K} {done : List ℕ} {self self' : InstanceManager K}

theorem managed_new : Managed [] (new (K := K)) where
  consistent := ⟨List.nodup_nil, fun id => by simp [new, InstanceCache.new]⟩
  live executor spawned h := by cases h
  running id inst h := by cases h
  done_lt executor h := by cases h

theorem Managed.of_eq (h : Managed done self) (hspawned : self'.spawned = self.spawned)
    (hinstances : self'.instances = self.instances) : Managed done self' where
  consistent := hinstances ▸ h.consistent
  live := by rw [hspawned, hinstances]; exact h.live
  running := by rw [hspawned, hinstances]; exact h.running
  done_lt := by rw [hspawned]; exact h.done_lt

theorem Managed.launch (h : Managed done self) {id : String}
    (hnew : id ∉ self.instances.instanceData) (request : StartInstanceRequest K)
    (protocol : ProtocolInstance K) (syncResponder : Option Responder) :
    Managed done (self.launch id request protocol syncResponder) where
  consistent := h.consistent.insert hnew rfl
  live executor spawned hspawned hdone := by
    rw [InstanceManager.launch, List.getElem?_append] at hspawned
    split at hspawned
    · obtain ⟨inst, hinst, hrunning, hsender⟩ := h.live executor spawned hspawned hdone
      have hne : spawned.instanceId ≠ id := by
        rintro rfl
        exact hnew (HashMap.mem_of_lookup hinst)
      exact ⟨inst, h.consistent.lookup_insert hinst hrunning hne _, hrunning, hsender⟩
    · rename_i hlt
      obtain ⟨hzero, rfl⟩ : executor - self.spawned.length = 0 ∧ ⟨id, request, protocol⟩ = spawned := by
        rw [List.getElem?_singleton] at hspawned
        split at hspawned
        · rename_i hzero
          exact ⟨hzero, Option.some.inj hspawned⟩
        · cases hspawned
      obtain rfl : executor = self.spawned.length := by omega
      exact ⟨.new id request.getScheme request.getGroup (some self.spawned.length) syncResponder,
        InstanceCache.lookup_insert_self _ _ _, rfl, rfl⟩
  running id' inst hinst hrunning := by
    rcases lookup_insert_cases hinst with ⟨rfl, rfl⟩ | hinst
    · refine ⟨self.spawned.length, ⟨id', request, protocol⟩, rfl, ?_, rfl, ?_⟩
      · exact List.getElem?_concat_length
      · intro hdone
        exact absurd (h.done_lt _ hdone) (lt_irrefl _)
    · obtain ⟨executor, spawned, hsender, hspawned, hid, hdone⟩ := h.running id' inst hinst hrunning
      refine ⟨executor, spawned, hsender, ?_, hid, hdone⟩
      exact List.getElem?_append_left (List.getElem?_eq_some_iff.mp hspawned).1 ▸ hspawned
  done_lt executor hdone := by
    have hlt := h.done_lt executor hdone
    simp only [InstanceManager.launch, List.length_append, List.length_singleton]
    omega

/-- An executor that has not reported finds its instance, and finishes it. -/
theorem Managed.settle (h : Managed done self) {executor : ℕ} {spawned : Spawned K} {inst : Instance}
    (hspawned : self.spawned[executor]? = some spawned) (hdone : executor ∉ done)
    (hinst : self.instances.instanceData.lookup spawned.instanceId = some inst)
    (result : Except ProtocolError Bytes) :
    Managed (executor :: done) (self.settle spawned.instanceId inst result) := by
  obtain ⟨inst', hinst', hrunning, hsender⟩ := h.live executor spawned hspawned hdone
  obtain rfl := Option.some.inj (hinst.symm.trans hinst')
  refine ⟨h.consistent.finish hinst hrunning rfl, ?_, ?_, ?_⟩
  · intro executor' spawned' hspawned' hdone'
    rw [List.mem_cons, not_or] at hdone'
    obtain ⟨inst', hinst', hrunning', hsender'⟩ := h.live executor' spawned' hspawned' hdone'.2
    -- two executors do not share an instance
    have hne : spawned'.instanceId ≠ spawned.instanceId := by
      intro hid
      rw [hid] at hinst'
      obtain rfl := Option.some.inj (hinst.symm.trans hinst')
      exact hdone'.1 (Option.some.inj (hsender'.symm.trans hsender))
    refine ⟨inst', ?_, hrunning', hsender'⟩
    rw [InstanceManager.settle, instances_emit, AList.lookup_insert_ne hne]
    exact hinst'
  · intro id inst' hinst' hrunning'
    rcases lookup_settle_cases hinst' with ⟨-, rfl⟩ | ⟨hid, hinst'⟩
    · cases hrunning'
    · obtain ⟨executor', spawned', hsender', hspawned', hid', hdone'⟩ :=
        h.running id inst' hinst' hrunning'
      refine ⟨executor', spawned', hsender', hspawned', hid', ?_⟩
      rw [List.mem_cons, not_or]
      refine ⟨?_, hdone'⟩
      rintro rfl
      obtain rfl := Option.some.inj (hspawned.symm.trans hspawned')
      exact hid hid'.symm
  · intro executor' hmem
    rcases List.mem_cons.mp hmem with rfl | hmem
    · exact (List.getElem?_eq_some_iff.mp hspawned).1
    · exact h.done_lt executor' hmem

/-- After a turn, the executors that have reported are those that had, and the one that does now. -/
theorem Managed.onEvent (h : Managed done self) {event : ManagerEvent K}
    (hok : onEvent ctx self event = .ok self')
    (honce : ∀ executor, event.terminated? = some executor → executor ∉ done) :
    ∃ done', Managed done' self' ∧ ∀ executor, executor ∈ done'
      ↔ executor ∈ done ∨ (event.terminated? = some executor ∧ executor < self.spawned.length) := by
  cases turn_of_onEvent hok with
  | known _ _ => exact ⟨done, h.of_eq rfl rfl, by simp [ManagerEvent.terminated?]⟩
  | refused _ _ _ => exact ⟨done, h.of_eq rfl rfl, by simp [ManagerEvent.terminated?]⟩
  | launched _ hnew _ _ =>
      exact ⟨done, (h.launch hnew _ _ _).of_eq (spawned_forwardBackloggedMessages _)
        (instances_forwardBackloggedMessages _), by simp [ManagerEvent.terminated?]⟩
  | status _ => exact ⟨done, h.of_eq rfl rfl, by simp [ManagerEvent.terminated?]⟩
  | @absent executor result habsent =>
      -- an executor that was spawned and has not reported has an instance
      refine ⟨done, h, fun executor' => ⟨.inl, ?_⟩⟩
      rintro (hmem | ⟨hevent, hlt⟩)
      · exact hmem
      · obtain rfl := Option.some.inj hevent
        have hspawned := List.getElem?_eq_getElem hlt
        obtain ⟨inst, hinst, -⟩ := h.live executor _ hspawned (honce executor rfl)
        exact absurd (HashMap.mem_of_lookup hinst) (habsent _ hspawned)
  | @settled executor result spawned inst hspawned hinst =>
      refine ⟨_, h.settle hspawned (honce _ rfl) hinst result, fun executor' => ?_⟩
      have hlt := (List.getElem?_eq_some_iff.mp hspawned).1
      rw [List.mem_cons, ManagerEvent.terminated?, Option.some.injEq, or_comm]
      refine or_congr_right ⟨?_, fun h => h.1.symm⟩
      rintro rfl
      exact ⟨rfl, hlt⟩
  | message message =>
      exact ⟨done, h.of_eq (spawned_onNetMessage message) (instances_onNetMessage message),
        by simp [ManagerEvent.terminated?]⟩
  | tick => exact ⟨done, h.of_eq rfl rfl, by simp [ManagerEvent.terminated?]⟩

/-- Every state of a run in which the executors report once is managed. -/
theorem managed_run {events : List (ManagerEvent K)} (hrun : run ctx events = .ok self)
    (honce : (terminationsOf events).Nodup) :
    ∃ done, Managed done self ∧ ∀ executor ∈ done, executor ∈ terminationsOf events := by
  revert honce
  refine run_induction (motive := fun events self => (terminationsOf events).Nodup →
    ∃ done, Managed done self ∧ ∀ executor ∈ done, executor ∈ terminationsOf events) ?_ ?_ hrun
  · intro _
    exact ⟨[], managed_new, fun _ h => by cases h⟩
  · intro events self event self' ih hok honce
    rw [terminationsOf, List.filterMap_append, List.nodup_append] at honce
    obtain ⟨done, hmanaged, hdone⟩ := ih honce.1
    obtain ⟨done', hmanaged', hdone'⟩ := hmanaged.onEvent hok fun executor hevent hmem =>
      honce.2.2 executor (hdone executor hmem) executor (by simp [hevent]) rfl
    refine ⟨done', hmanaged', fun executor hmem => ?_⟩
    rw [terminationsOf, List.filterMap_append, List.mem_append]
    rcases (hdone' executor).mp hmem with hold | ⟨hevent, -⟩
    · exact .inl (hdone executor hold)
    · exact .inr (by simp [hevent])

/-! ### What happens to an instance -/

variable {id : String} {inst : Instance} {event : ManagerEvent K}

/-- An instance that is not finished is still there after every turn. -/
theorem mem_of_running (h : self.instances.Consistent)
    (hinst : self.instances.instanceData.lookup id = some inst) (hrunning : inst.finished = false)
    (hok : onEvent ctx self event = .ok self') : id ∈ self'.instances.instanceData := by
  have hmem : id ∈ self.instances.instanceData := HashMap.mem_of_lookup hinst
  cases turn_of_onEvent hok with
  | known _ _ => exact hmem
  | refused _ _ _ => exact hmem
  | launched _ hnew _ _ =>
      rw [instances_emit, instances_forwardBackloggedMessages]
      have hkept := h.lookup_insert hinst hrunning (ne_of_mem_of_not_mem hmem hnew)
      exact HashMap.mem_of_lookup (hkept _)
  | status _ => exact hmem
  | absent _ => exact hmem
  | settled _ _ => exact HashMap.mem_insert_of_mem _ hmem
  | message message =>
      rw [instances_onNetMessage]
      exact hmem
  | tick => exact hmem

/-- A finished instance stays as it is, or it is ejected. -/
theorem Managed.lookup_finished (h : Managed done self)
    (hinst : self.instances.instanceData.lookup id = some inst) (hfinished : inst.finished = true)
    (hok : InstanceManager.onEvent ctx self event = .ok self')
    (honce : ∀ executor, event.terminated? = some executor → executor ∉ done) :
    self'.instances.instanceData.lookup id = some inst ∨ id ∉ self'.instances.instanceData := by
  have hmem : id ∈ self.instances.instanceData := HashMap.mem_of_lookup hinst
  cases turn_of_onEvent hok with
  | known _ _ => exact .inl hinst
  | refused _ _ _ => exact .inl hinst
  | @launched _ _ request responder syncResponder protocol _ hnew _ _ =>
      rw [instances_emit, instances_forwardBackloggedMessages]
      have hne := ne_of_mem_of_not_mem hmem hnew
      obtain ⟨cache, hcache, heq⟩ := InstanceCache.insert_cases self.instances
        (assignInstanceId ctx.hash256 request) (.new (assignInstanceId ctx.hash256 request)
        request.getScheme request.getGroup (some self.spawned.length) syncResponder)
      rw [InstanceManager.launch, heq, ← AList.lookup_eq_none, AList.lookup_insert_ne hne]
      rcases hcache with rfl | rfl
      · exact .inl hinst
      · rw [InstanceCache.lookup_attemptEject_eq]
        split
        · exact .inr rfl
        · exact .inl hinst
  | status _ => exact .inl hinst
  | absent _ => exact .inl hinst
  | @settled executor _ spawned inst' hspawned hinst' =>
      -- the instance of an executor that has not reported is not finished
      obtain ⟨running, hrunning, hfalse, -⟩ := h.live executor spawned hspawned (honce executor rfl)
      have hne : id ≠ spawned.instanceId := by
        rintro rfl
        obtain rfl := Option.some.inj (hinst.symm.trans hrunning)
        rw [hfalse] at hfinished
        cases hfinished
      left
      rw [InstanceManager.settle, instances_emit, AList.lookup_insert_ne hne]
      exact hinst
  | message message =>
      rw [instances_onNetMessage]
      exact .inl hinst
  | tick => exact .inl hinst

/-- So its result is the same for as long as it is there. -/
theorem lookup_finished_run {events more : List (ManagerEvent K)} {later : InstanceManager K}
    (hrun : run ctx events = .ok self)
    (hinst : self.instances.instanceData.lookup id = some inst) (hfinished : inst.finished = true)
    (hlater : run ctx (events ++ more) = .ok later)
    (honce : (terminationsOf (events ++ more)).Nodup)
    (hthere : ∀ before mid, before <+: more → run ctx (events ++ before) = .ok mid →
      id ∈ mid.instances.instanceData) :
    later.instances.instanceData.lookup id = some inst := by
  induction more using List.reverseRecOn generalizing later with
  | nil =>
      rw [List.append_nil] at hlater
      obtain rfl := Outcome.ok.inj (hrun.symm.trans hlater)
      exact hinst
  | append_singleton more event ih =>
      rw [← List.append_assoc] at hlater honce
      obtain ⟨mid, hmid, hevent⟩ := run_append_singleton.mp hlater
      rw [terminationsOf, List.filterMap_append, List.nodup_append] at honce
      have hmidInst := ih hmid honce.1 fun before mid hpre =>
        hthere before mid (hpre.trans (List.prefix_append _ _))
      obtain ⟨done, hmanaged, hdone⟩ := managed_run hmid honce.1
      have hmem : id ∈ later.instances.instanceData :=
        hthere (more ++ [event]) later (List.prefix_refl _) (by rwa [← List.append_assoc])
      refine (hmanaged.lookup_finished hmidInst hfinished hevent ?_).resolve_right
        (not_not.mpr hmem)
      intro executor hexecutor hdone'
      exact honce.2.2 executor (hdone executor hdone') executor (by simp [hexecutor]) rfl

end InstanceManager

open InstanceManager in
/-- In every state of a run in which each executor reports at most once: the queue has the ids of the
finished instances, each of them once; an instance that is not finished is not removed by an ejection,
by the insertion of another one or by anything else; and the result of a finished instance stays what it
is until the instance is ejected, whatever happens in between. -/
theorem cache_safe {ctx : ManagerContext K} {events : List (ManagerEvent K)} {self : InstanceManager K}
    (hrun : InstanceManager.run ctx events = .ok self) (honce : (terminationsOf events).Nodup) :
    self.instances.terminatedInstances.Nodup
    ∧ (∀ id, id ∈ self.instances.terminatedInstances
      ↔ ∃ inst, self.instances.instanceData.lookup id = some inst ∧ inst.finished = true)
    ∧ (∀ id inst, self.instances.instanceData.lookup id = some inst → inst.finished = false →
      self.instances.attemptEject.instanceData.lookup id = some inst
      ∧ (∀ id' inst', id ≠ id' →
        (self.instances.insert id' inst').instanceData.lookup id = some inst)
      ∧ ∀ event self', onEvent ctx self event = .ok self' → id ∈ self'.instances.instanceData)
    ∧ ∀ more later id inst, self.instances.instanceData.lookup id = some inst →
      inst.finished = true → InstanceManager.run ctx (events ++ more) = .ok later →
      (terminationsOf (events ++ more)).Nodup →
      (∀ before mid, before <+: more → InstanceManager.run ctx (events ++ before) = .ok mid →
        id ∈ mid.instances.instanceData) →
      ∃ inst', later.instances.instanceData.lookup id = some inst' ∧ inst'.finished = true
        ∧ inst'.result = inst.result := by
  obtain ⟨done, hmanaged, -⟩ := managed_run hrun honce
  have hcache := hmanaged.consistent
  refine ⟨hcache.nodup, hcache.mem_iff, ?_, ?_⟩
  · intro id inst hinst hrunning
    refine ⟨hcache.lookup_attemptEject hinst hrunning, ?_, ?_⟩
    · intro id' inst' hne
      exact hcache.lookup_insert hinst hrunning hne inst'
    · intro event self' hok
      exact mem_of_running hcache hinst hrunning hok
  · intro more later id inst hinst hfinished hlater honce' hthere
    exact ⟨inst, lookup_finished_run hrun hinst hfinished hlater honce' hthere, hfinished, rfl⟩

/-- The id of the instance that signs for `managerSeven`. -/
def signIdSeven : String := assignInstanceId managerSeven.hash256 (signSeven [1])

def signProtocolSeven : ProtocolInstance Curves.seven :=
  .signature (.bls04 .bn254 (bls04KeySeven 1)) (some [1]) []

theorem privateKeyFor_signSeven :
    InstanceManager.privateKeyFor managerSeven (signSeven [1]) = some signProtocolSeven.key := rfl

theorem newProtocol_signSeven :
    InstanceManager.newProtocol managerSeven.draws signProtocolSeven.key (signSeven [1])
      = .ok signProtocolSeven := rfl

/-- A request and the result of its instance. -/
def finishedSeven (result : Except ProtocolError Bytes) : List (ManagerEvent Curves.seven) :=
  [.command (.createInstance (signSeven [1]) ⟨0, false⟩) rfl, .terminated 0 result]

open InstanceManager in
theorem run_finishedSeven (result : Except ProtocolError Bytes) :
    ∃ self, InstanceManager.run managerSeven (finishedSeven result) = .ok self
      ∧ self.instances.instanceData.lookup signIdSeven
        = some ((firstInstance signIdSeven (signSeven [1]) none).settled result) := by
  refine ⟨_, run_launch_settle rfl privateKeyFor_signSeven newProtocol_signSeven rfl result, ?_⟩
  rw [settle, instances_emit]
  exact AList.lookup_insert _

open InstanceManager in
/-- The request is sent again: the instance is in the queue, and it has the result. -/
theorem cache_safe_seven :
    ∃ self later, InstanceManager.run managerSeven (finishedSeven (.ok [9])) = .ok self
      ∧ InstanceManager.run managerSeven
        (finishedSeven (.ok [9]) ++ requestsSeven [signSeven [1]]) = .ok later
      ∧ signIdSeven ∈ self.instances.terminatedInstances
      ∧ ∃ inst, later.instances.instanceData.lookup signIdSeven = some inst
        ∧ inst.result = some (.ok [9]) := by
  obtain ⟨self, hrun, hinst⟩ := run_finishedSeven (.ok [9])
  have hmem := HashMap.mem_of_lookup hinst
  have hlater : InstanceManager.run managerSeven
      (finishedSeven (.ok [9]) ++ requestsSeven [signSeven [1]])
      = .ok (self.emit [.answered ⟨0, false⟩ (.ok signIdSeven)]) :=
    run_append_singleton.mpr ⟨self, hrun, onEvent_eq_ok_iff.mpr (.known rfl hmem)⟩
  have hthere : ∀ before mid, before <+: requestsSeven [signSeven [1]] →
      InstanceManager.run managerSeven (finishedSeven (.ok [9]) ++ before) = .ok mid →
      signIdSeven ∈ mid.instances.instanceData := by
    intro before mid hpre hmid
    change before <+: [] ++ _ at hpre
    rcases List.prefix_concat_iff.mp hpre with rfl | hnil
    · obtain rfl := Outcome.ok.inj (hlater.symm.trans hmid)
      exact hmem
    · obtain rfl := List.prefix_nil.mp hnil
      rw [List.append_nil] at hmid
      obtain rfl := Outcome.ok.inj (hrun.symm.trans hmid)
      exact hmem
  have hsafe := cache_safe hrun (List.nodup_singleton 0)
  obtain ⟨inst, hinst', -, hresult⟩ :=
    hsafe.2.2.2 _ _ _ _ hinst rfl hlater (List.nodup_singleton 0) hthere
  exact ⟨self, _, hrun, hlater, (hsafe.2.1 _).mpr ⟨_, hinst, rfl⟩, inst, hinst', hresult⟩

end QuorumCrypt
