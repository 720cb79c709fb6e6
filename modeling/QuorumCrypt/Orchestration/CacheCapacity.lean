import QuorumCrypt.Orchestration.CacheSafety

/-!
# The capacity of the cache

`instance_manager.rs`: what sequences of `insert` and `inform_of_termination` calls do to a cache of any
capacity. An insertion into a cache that is at capacity removes the first entries of the queue, whether
they must go or not, but no more than 5000 of them. So the cache may give up more instances than it has
to, and after many terminations at once it keeps more finished instances than its capacity.

The manager inserts an instance when there is none with its id, and informs the cache of the termination
of a running one. Such sequences are called legal, and the cache of the manager is always the result of
one (`exists_legal_calls`).
-/

namespace QuorumCrypt

open Rust

/-- The calls on a cache. An instance that is inserted has not finished, and the result of an instance is
set when the cache is informed of its termination. -/
inductive CacheCall where
  | insert (instanceId : String) (inst : Instance) (running : inst.finished = false)
  | informOfTermination (instanceId : String) (result : Except ProtocolError Bytes)

namespace InstanceCache

variable {self : InstanceCache} {id : String} {inst : Instance}

/-- The result is stored with the instance, if it is there, and its id is put into the queue. -/
def informOfTermination (self : InstanceCache) (instanceId : String)
    (result : Except ProtocolError Bytes) : InstanceCache :=
  match self.instanceData.lookup instanceId with
  | none => self
  | some inst =>
      { self with
        instanceData := self.instanceData.insert instanceId (inst.settled result)
        terminatedInstances := self.terminatedInstances ++ [instanceId] }

def call (self : InstanceCache) : CacheCall → InstanceCache
  | .insert instanceId inst _ => self.insert instanceId inst
  | .informOfTermination instanceId result => self.informOfTermination instanceId result

def run (capacity : ℕ) (calls : List CacheCall) : InstanceCache := calls.foldl call (new (some capacity))

theorem run_append_singleton (capacity : ℕ) (calls : List CacheCall) (c : CacheCall) :
    run capacity (calls ++ [c]) = (run capacity calls).call c := by
  rw [run, List.foldl_append]
  rfl

/-! ### Finished instances -/

/-- The ids of the finished instances. -/
def finishedIds (self : InstanceCache) : List String :=
  (self.instanceData.entries.filter fun e => e.2.finished).map Sigma.fst

theorem mem_finishedIds :
    id ∈ self.finishedIds ↔ ∃ inst, self.instanceData.lookup id = some inst ∧ inst.finished = true := by
  rw [finishedIds, List.mem_map]
  constructor
  · rintro ⟨⟨id, inst⟩, hmem, rfl⟩
    obtain ⟨hmem, hfinished⟩ := List.mem_filter.mp hmem
    exact ⟨inst, AList.mem_lookup_iff.mpr hmem, hfinished⟩
  · rintro ⟨inst, hinst, hfinished⟩
    exact ⟨⟨id, inst⟩, List.mem_filter.mpr ⟨AList.mem_lookup_iff.mp hinst, hfinished⟩, rfl⟩

theorem nodup_finishedIds (self : InstanceCache) : self.finishedIds.Nodup :=
  List.Nodup.sublist (List.filter_sublist.map _) self.instanceData.keys_nodup

theorem length_finishedIds_le (self : InstanceCache) :
    self.finishedIds.length ≤ self.instanceData.len := by
  rw [finishedIds, List.length_map]
  exact List.length_filter_le _ _

/-- Every finished instance is in the queue. -/
def Queued (self : InstanceCache) : Prop := ∀ id ∈ self.finishedIds, id ∈ self.terminatedInstances

theorem Queued.length_le (h : self.Queued) :
    self.finishedIds.length ≤ self.terminatedInstances.length :=
  (List.subperm_of_subset (nodup_finishedIds self) h).length_le

theorem Consistent.mem_terminatedInstances (h : self.Consistent) :
    id ∈ self.terminatedInstances ↔ id ∈ self.finishedIds :=
  (h.mem_iff id).trans mem_finishedIds.symm

theorem Consistent.length_eq (h : self.Consistent) :
    self.terminatedInstances.length = self.finishedIds.length :=
  ((List.perm_ext_iff_of_nodup h.nodup (nodup_finishedIds self)).mpr
    fun _ => h.mem_terminatedInstances).length_eq

/-! ### Insertions -/

/-- The instances that an insertion removes. -/
def evicted (self : InstanceCache) : List String :=
  if self.capacity ≤ self.instanceData.len then self.ejected else []

theorem length_evicted (self : InstanceCache) :
    self.evicted.length = if self.capacity ≤ self.instanceData.len then
      min self.terminatedInstances.length instanceCacheCleanupScanLength else 0 := by
  unfold evicted
  split
  · rw [ejected, List.length_take]
    omega
  · rfl

/-- They are the first ones of the queue. -/
theorem evicted_append (self : InstanceCache) (id : String) (inst : Instance) :
    self.evicted ++ (self.insert id inst).terminatedInstances = self.terminatedInstances := by
  unfold evicted InstanceCache.insert
  split
  · exact List.take_append_drop _ _
  · rfl

theorem lookup_insert_eq (self : InstanceCache) (id : String) (inst : Instance) (id' : String) :
    (self.insert id inst).instanceData.lookup id'
      = if id' = id then some inst
        else if id' ∈ self.evicted then none else self.instanceData.lookup id' := by
  unfold evicted InstanceCache.insert
  by_cases hid : id' = id
  · rw [hid, if_pos rfl]
    exact AList.lookup_insert _
  · rw [if_neg hid]
    refine (AList.lookup_insert_ne hid).trans ?_
    split
    · exact lookup_attemptEject_eq self id'
    · rfl

theorem mem_finishedIds_insert (self : InstanceCache) {id : String} {inst : Instance}
    (hrunning : inst.finished = false) {id' : String} :
    id' ∈ (self.insert id inst).finishedIds
      ↔ id' ≠ id ∧ id' ∉ self.evicted ∧ id' ∈ self.finishedIds := by
  rw [mem_finishedIds, mem_finishedIds, lookup_insert_eq]
  by_cases hid : id' = id
  · simp [hid, hrunning]
  · by_cases hevicted : id' ∈ self.evicted
    · simp [hid, hevicted]
    · simp [hid, hevicted]

theorem Queued.insert (h : self.Queued) (id : String) (hrunning : inst.finished = false) :
    (self.insert id inst).Queued := by
  intro id' hmem
  obtain ⟨-, hkept, hfinished⟩ := (mem_finishedIds_insert self hrunning).mp hmem
  have hqueue := h id' hfinished
  rw [← evicted_append self id inst, List.mem_append] at hqueue
  exact hqueue.resolve_left hkept

theorem mem_finishedIds_informOfTermination {result : Except ProtocolError Bytes} {id' : String} :
    id' ∈ (self.informOfTermination id result).finishedIds
      ↔ id' ∈ self.finishedIds ∨ (id' = id ∧ id ∈ self.instanceData) := by
  rw [mem_finishedIds, mem_finishedIds, informOfTermination]
  cases hinst : self.instanceData.lookup id with
  | none =>
      have habsent := AList.lookup_eq_none.mp hinst
      simp [habsent]
  | some inst =>
      have hmem := HashMap.mem_of_lookup hinst
      by_cases hid : id' = id
      · subst hid
        simp [hmem]
      · simp [AList.lookup_insert_ne hid, hid]

/-- What a call puts into the queue. -/
def enqueued (self : InstanceCache) : CacheCall → List String
  | .insert _ _ _ => []
  | .informOfTermination id _ => if id ∈ self.instanceData then [id] else []

theorem terminatedInstances_informOfTermination (self : InstanceCache) (id : String)
    (result : Except ProtocolError Bytes) :
    (self.informOfTermination id result).terminatedInstances
      = self.terminatedInstances ++ self.enqueued (.informOfTermination id result) := by
  rw [informOfTermination, enqueued]
  cases hinst : self.instanceData.lookup id with
  | none => rw [if_neg (AList.lookup_eq_none.mp hinst), List.append_nil]
  | some inst => rw [if_pos (HashMap.mem_of_lookup hinst)]

theorem Queued.informOfTermination (h : self.Queued) (id : String)
    (result : Except ProtocolError Bytes) : (self.informOfTermination id result).Queued := by
  intro id' hmem
  rw [terminatedInstances_informOfTermination, List.mem_append]
  rcases mem_finishedIds_informOfTermination.mp hmem with hmem | ⟨rfl, hmem⟩
  · exact .inl (h id' hmem)
  · right
    rw [enqueued, if_pos hmem]
    exact List.mem_singleton_self _

theorem capacity_call (self : InstanceCache) (c : CacheCall) : (self.call c).capacity = self.capacity := by
  cases c with
  | insert id inst running =>
      change (self.insert id inst).capacity = _
      unfold InstanceCache.insert
      split <;> rfl
  | informOfTermination id result =>
      change (self.informOfTermination id result).capacity = _
      unfold InstanceCache.informOfTermination
      split <;> rfl

theorem capacity_run (capacity : ℕ) (calls : List CacheCall) :
    (run capacity calls).capacity = capacity := by
  induction calls using List.reverseRecOn with
  | nil => rfl
  | append_singleton calls c ih => rw [run_append_singleton, capacity_call, ih]

theorem queued_run (capacity : ℕ) (calls : List CacheCall) : (run capacity calls).Queued := by
  induction calls using List.reverseRecOn with
  | nil =>
      intro id hmem
      cases hmem
  | append_singleton calls c ih =>
      rw [run_append_singleton]
      cases c with
      | insert id inst running => exact ih.insert id running
      | informOfTermination id result => exact ih.informOfTermination id result

/-! ### Legal calls -/

/-- The call is one that the manager makes in such a state. -/
def Admits (self : InstanceCache) : CacheCall → Prop
  | .insert id _ _ => id ∉ self.instanceData
  | .informOfTermination id _ => ∀ inst, self.instanceData.lookup id = some inst → inst.finished = false

def Legal (capacity : ℕ) (calls : List CacheCall) : Prop :=
  ∀ before c, before ++ [c] <+: calls → (run capacity before).Admits c

theorem legal_append_singleton {capacity : ℕ} {calls : List CacheCall} {c : CacheCall} :
    Legal capacity (calls ++ [c]) ↔ Legal capacity calls ∧ (run capacity calls).Admits c := by
  constructor
  · intro h
    exact ⟨fun before c' hpre => h before c' (hpre.trans (List.prefix_append _ _)),
      h calls c (List.prefix_refl _)⟩
  · rintro ⟨hlegal, hadmits⟩ before c' hpre
    rcases List.prefix_concat_iff.mp hpre with heq | hpre
    · obtain ⟨rfl, hc⟩ := List.append_inj' heq rfl
      rw [(List.cons.inj hc).1]
      exact hadmits
    · exact hlegal before c' hpre

theorem Legal.of_prefix {capacity : ℕ} {calls before : List CacheCall} (h : Legal capacity calls)
    (hpre : before <+: calls) : Legal capacity before :=
  fun before' c hpre' => h before' c (hpre'.trans hpre)

/-- After legal calls the queue has the ids of the finished instances, each of them once. -/
theorem consistent_run {capacity : ℕ} {calls : List CacheCall} (h : Legal capacity calls) :
    (run capacity calls).Consistent := by
  induction calls using List.reverseRecOn with
  | nil => exact ⟨List.nodup_nil, fun id => by simp [run, new]⟩
  | append_singleton calls c ih =>
      obtain ⟨hlegal, hadmits⟩ := legal_append_singleton.mp h
      rw [run_append_singleton]
      cases c with
      | insert id inst running => exact (ih hlegal).insert hadmits running
      | informOfTermination id result =>
          change (InstanceCache.informOfTermination _ id result).Consistent
          unfold InstanceCache.informOfTermination
          split
          · exact ih hlegal
          · rename_i inst hinst
            exact (ih hlegal).finish hinst (hadmits inst hinst) rfl

/-- In a consistent cache exactly those finished instances are left that an insertion does not remove. -/
theorem Consistent.length_finishedIds_insert (h : self.Consistent) (hnew : id ∉ self.instanceData)
    (hrunning : inst.finished = false) :
    (self.insert id inst).finishedIds.length
      = self.terminatedInstances.length - self.evicted.length := by
  rw [← (h.insert hnew hrunning).length_eq, ← evicted_append self id inst, List.length_append]
  omega

/-! ### How many finished instances are kept -/

/-- Whenever an instance is inserted, `P` holds of it and of the cache before. -/
def AtInserts (capacity : ℕ) (calls : List CacheCall) (P : InstanceCache → String → Instance → Prop) :
    Prop :=
  ∀ before id inst running, before ++ [.insert id inst running] <+: calls →
    P (run capacity before) id inst

/-- The finished instances after an insertion are no more than the capacity. -/
def BoundedAfter (cache : InstanceCache) (id : String) (inst : Instance) : Prop :=
  (cache.insert id inst).finishedIds.length ≤ cache.capacity

/-- A cache that is at capacity has at most 5000 terminated instances more than that. -/
def QueueFits (cache : InstanceCache) : Prop :=
  cache.capacity ≤ cache.instanceData.len →
    cache.terminatedInstances.length ≤ cache.capacity + instanceCacheCleanupScanLength

theorem Queued.boundedAfter (h : self.Queued) (hrunning : inst.finished = false)
    (hfits : self.QueueFits) : self.BoundedAfter id inst := by
  unfold BoundedAfter
  by_cases hfull : self.capacity ≤ self.instanceData.len
  · have hkept := (h.insert id hrunning).length_le
    have hqueue := congrArg List.length (evicted_append self id inst)
    have hlength := hfits hfull
    rw [List.length_append, length_evicted, if_pos hfull] at hqueue
    omega
  · have hsubset : (self.insert id inst).finishedIds ⊆ self.finishedIds :=
      fun id' hmem => ((mem_finishedIds_insert self hrunning).mp hmem).2.2
    have hkept := (List.subperm_of_subset (nodup_finishedIds _) hsubset).length_le
    have hlength := length_finishedIds_le self
    omega

theorem Consistent.boundedAfter_iff (h : self.Consistent) (hnew : id ∉ self.instanceData)
    (hrunning : inst.finished = false) : self.BoundedAfter id inst ↔ self.QueueFits := by
  unfold BoundedAfter QueueFits
  rw [h.length_finishedIds_insert hnew hrunning, length_evicted]
  have hlength := length_finishedIds_le self
  rw [← h.length_eq] at hlength
  split <;> omega

/-- After every insertion there are at most as many finished instances as the capacity, if no insertion
finds more than 5000 terminated instances above the capacity in the queue. For legal calls this is the
only way. -/
theorem finished_instances_bounded (capacity : ℕ) :
    (∀ calls, AtInserts capacity calls (fun cache _ _ => cache.QueueFits) →
      AtInserts capacity calls BoundedAfter)
    ∧ ∀ calls, Legal capacity calls →
      (AtInserts capacity calls BoundedAfter
        ↔ AtInserts capacity calls fun cache _ _ => cache.QueueFits) := by
  have hbounded : ∀ calls, AtInserts capacity calls (fun cache _ _ => cache.QueueFits) →
      AtInserts capacity calls BoundedAfter := by
    intro calls hfits before id inst running hpre
    exact (queued_run capacity before).boundedAfter running (hfits before id inst running hpre)
  refine ⟨hbounded, fun calls hlegal => ⟨?_, hbounded calls⟩⟩
  intro h before id inst running hpre
  have hconsistent := consistent_run (hlegal.of_prefix ((List.prefix_append _ _).trans hpre))
  exact (hconsistent.boundedAfter_iff (hlegal before _ hpre) running).mp (h before id inst running hpre)

/-! ### What is evicted -/

/-- The ids that are put into the queue, from a cache on. -/
def terminationsFrom (self : InstanceCache) : List CacheCall → List String
  | [] => []
  | c :: calls => self.enqueued c ++ (self.call c).terminationsFrom calls

/-- The instances that have terminated, in this order. -/
def terminations (capacity : ℕ) (calls : List CacheCall) : List String :=
  (new (some capacity)).terminationsFrom calls

theorem terminationsFrom_append_singleton (self : InstanceCache) (calls : List CacheCall)
    (c : CacheCall) :
    self.terminationsFrom (calls ++ [c])
      = self.terminationsFrom calls ++ (calls.foldl call self).enqueued c := by
  induction calls generalizing self with
  | nil => exact List.append_nil _
  | cons c' calls ih =>
      rw [List.cons_append, terminationsFrom, ih, terminationsFrom, List.append_assoc, List.foldl_cons]

/-- The queue is the end of that list. -/
theorem exists_terminations_eq (capacity : ℕ) (calls : List CacheCall) :
    ∃ past, terminations capacity calls = past ++ (run capacity calls).terminatedInstances := by
  induction calls using List.reverseRecOn with
  | nil => exact ⟨[], rfl⟩
  | append_singleton calls c ih =>
      obtain ⟨past, hpast⟩ := ih
      rw [terminations, terminationsFrom_append_singleton, run_append_singleton]
      change ∃ past', terminations capacity calls ++ (run capacity calls).enqueued c = _
      rw [hpast]
      cases c with
      | insert id inst running =>
          refine ⟨past ++ (run capacity calls).evicted, ?_⟩
          rw [enqueued, List.append_nil, List.append_assoc, call, evicted_append]
      | informOfTermination id result =>
          refine ⟨past, ?_⟩
          rw [call, terminatedInstances_informOfTermination, List.append_assoc]

theorem Consistent.mem_evicted_iff (h : self.Consistent) (hnew : id ∉ self.instanceData)
    (inst : Instance) {id' : String} :
    id' ∈ self.evicted ↔ id' ∈ self.instanceData ∧ id' ∉ (self.insert id inst).instanceData := by
  rw [← AList.lookup_eq_none, lookup_insert_eq]
  constructor
  · intro hmem
    have hqueue : id' ∈ self.terminatedInstances := by
      rw [← evicted_append self id inst]
      exact List.mem_append_left _ hmem
    obtain ⟨inst', hinst', -⟩ := (h.mem_iff id').mp hqueue
    have hmem' := HashMap.mem_of_lookup hinst'
    rw [if_neg (ne_of_mem_of_not_mem hmem' hnew), if_pos hmem]
    exact ⟨hmem', rfl⟩
  · rintro ⟨hmem, hgone⟩
    rw [if_neg (ne_of_mem_of_not_mem hmem hnew)] at hgone
    by_contra hkept
    rw [if_neg hkept, AList.lookup_eq_none] at hgone
    exact hgone hmem

/-- The finished instances are removed in the order of their termination, and no more of them than it
takes to have at most `capacity` instances after the insertion. -/
def EvictsMinimally (capacity : ℕ) (calls : List CacheCall) (id : String) (inst : Instance) : Prop :=
  let cache := run capacity calls
  ∃ past removed rest, terminations capacity calls = past ++ (removed ++ rest)
    ∧ (∀ id', id' ∈ removed ++ rest ↔ id' ∈ cache.finishedIds)
    ∧ (∀ id', id' ∈ removed
      ↔ id' ∈ cache.instanceData ∧ id' ∉ (cache.insert id inst).instanceData)
    ∧ removed.length ≤ cache.instanceData.len + 1 - capacity

/-- After legal calls that is a question of how many instances are removed. -/
theorem evictsMinimally_iff_length {capacity : ℕ} {calls : List CacheCall}
    (hlegal : Legal capacity calls) {id : String} (hnew : id ∉ (run capacity calls).instanceData)
    (inst : Instance) :
    EvictsMinimally capacity calls id inst
      ↔ (run capacity calls).evicted.length ≤ (run capacity calls).instanceData.len + 1 - capacity := by
  set cache := run capacity calls with hcache
  have hconsistent : cache.Consistent := consistent_run hlegal
  have hevicted : ∀ id', id' ∈ cache.evicted
      ↔ id' ∈ cache.instanceData ∧ id' ∉ (cache.insert id inst).instanceData :=
    fun id' => hconsistent.mem_evicted_iff hnew inst
  constructor
  · rintro ⟨past, removed, rest, -, -, hremoved, hle⟩
    have hnodup : cache.evicted.Nodup := by
      have hqueue := hconsistent.nodup
      rw [← evicted_append cache id inst] at hqueue
      exact (List.nodup_append.mp hqueue).1
    have hsubset : cache.evicted ⊆ removed :=
      fun id' hmem => (hremoved id').mpr ((hevicted id').mp hmem)
    exact (List.subperm_of_subset hnodup hsubset).length_le.trans hle
  · intro hle
    obtain ⟨past, hpast⟩ := exists_terminations_eq capacity calls
    refine ⟨past, cache.evicted, (cache.insert id inst).terminatedInstances, ?_, ?_, hevicted, hle⟩
    · rw [evicted_append, hpast]
    · intro id'
      rw [evicted_append]
      exact hconsistent.mem_terminatedInstances

/-- After legal calls, a new instance makes the cache evict as it should if and only if it is below
capacity, or all terminated instances must go, or at least 5000 of them must. -/
theorem evicts_minimally_iff {capacity : ℕ} {calls : List CacheCall} (hlegal : Legal capacity calls)
    {id : String} (hnew : id ∉ (run capacity calls).instanceData) (inst : Instance) :
    EvictsMinimally capacity calls id inst
      ↔ (run capacity calls).instanceData.len < capacity
        ∨ (run capacity calls).terminatedInstances.length
          ≤ (run capacity calls).instanceData.len + 1 - capacity
        ∨ instanceCacheCleanupScanLength ≤ (run capacity calls).instanceData.len + 1 - capacity := by
  rw [evictsMinimally_iff_length hlegal hnew, length_evicted, capacity_run]
  split <;> omega

/-! ### Instances that start, and then terminate -/

/-- An instance with the id. -/
def plainInstance (id : String) : Instance := .new id .bls04 .bn254 none none

def startCall (id : String) : CacheCall := .insert id (plainInstance id) rfl

def finishCall (id : String) : CacheCall := .informOfTermination id (.ok [])

/-- The cache has the instances with the ids, and some of them have terminated, in the given order. -/
structure Holds (cache : InstanceCache) (ids done : List String) : Prop where
  terminated_eq : cache.terminatedInstances = done
  mem_iff : ∀ id, id ∈ cache.instanceData ↔ id ∈ ids
  running : ∀ id inst, cache.instanceData.lookup id = some inst → id ∉ done → inst.finished = false

theorem Holds.len_eq {cache : InstanceCache} {ids done : List String} (h : cache.Holds ids done)
    (hnodup : ids.Nodup) : cache.instanceData.len = ids.length := by
  rw [HashMap.len_eq]
  exact (HashMap.keys_perm_of_mem_iff hnodup h.mem_iff).length_eq

/-- As long as nothing has terminated, nothing is evicted. -/
theorem holds_starts (capacity : ℕ) {ids : List String} (hnodup : ids.Nodup) :
    Legal capacity (ids.map startCall) ∧ (run capacity (ids.map startCall)).Holds ids [] := by
  induction ids using List.reverseRecOn with
  | nil =>
      refine ⟨?_, rfl, ?_, ?_⟩
      · intro before c hpre
        simp at hpre
      · intro id
        simp [run, new]
      · intro id inst hinst
        cases hinst
  | append_singleton ids id ih =>
      obtain ⟨hids, -, hdisjoint⟩ := List.nodup_append.mp hnodup
      obtain ⟨hlegal, hholds⟩ := ih hids
      have hnew : id ∉ (run capacity (ids.map startCall)).instanceData := by
        rw [hholds.mem_iff]
        exact fun hmem => hdisjoint id hmem id (List.mem_singleton_self _) rfl
      have hqueue := evicted_append (run capacity (ids.map startCall)) id (plainInstance id)
      rw [hholds.terminated_eq, List.append_eq_nil_iff] at hqueue
      have hlookup := lookup_insert_eq (run capacity (ids.map startCall)) id (plainInstance id)
      simp only [hqueue.1, List.not_mem_nil, if_false] at hlookup
      rw [List.map_append, List.map_singleton, run_append_singleton, legal_append_singleton]
      refine ⟨⟨hlegal, hnew⟩, hqueue.2, ?_, ?_⟩
      · intro id'
        change id' ∈ (InstanceCache.insert _ id (plainInstance id)).instanceData ↔ _
        rw [← AList.lookup_isSome, hlookup, List.mem_append, List.mem_singleton]
        split
        · rename_i heq
          simp [heq]
        · rename_i hne
          rw [AList.lookup_isSome, hholds.mem_iff, or_iff_left hne]
      · intro id' inst hinst hrunning
        change (InstanceCache.insert _ id (plainInstance id)).instanceData.lookup id' = _ at hinst
        rw [hlookup] at hinst
        split at hinst
        · rw [← Option.some.inj hinst]
          rfl
        · exact hholds.running id' inst hinst hrunning

theorem holds_finishes (capacity : ℕ) {ids done : List String} (hnodup : ids.Nodup)
    (hdone : done.Nodup) (hsubset : done ⊆ ids) :
    Legal capacity (ids.map startCall ++ done.map finishCall)
      ∧ (run capacity (ids.map startCall ++ done.map finishCall)).Holds ids done := by
  induction done using List.reverseRecOn with
  | nil =>
      rw [List.map_nil, List.append_nil]
      exact holds_starts capacity hnodup
  | append_singleton done id ih =>
      obtain ⟨hnodup', -, hdisjoint⟩ := List.nodup_append.mp hdone
      rw [List.append_subset] at hsubset
      obtain ⟨hlegal, hholds⟩ := ih hnodup' hsubset.1
      have hmem := (hholds.mem_iff id).mpr (hsubset.2 (List.mem_singleton_self _))
      have hid : id ∉ done := fun hmem => hdisjoint id hmem id (List.mem_singleton_self _) rfl
      obtain ⟨inst, hinst⟩ := Option.isSome_iff_exists.mp (AList.lookup_isSome.mpr hmem)
      rw [List.map_append, ← List.append_assoc, List.map_singleton, run_append_singleton,
        legal_append_singleton]
      refine ⟨⟨hlegal, fun inst hinst => hholds.running id inst hinst hid⟩, ?_⟩
      rw [finishCall, call, informOfTermination, hinst]
      refine ⟨congrArg (· ++ [id]) hholds.terminated_eq, ?_, ?_⟩
      · intro id'
        rw [AList.mem_insert, hholds.mem_iff, or_iff_right_iff_imp]
        rintro rfl
        exact (hholds.mem_iff id').mp hmem
      · intro id' inst' hinst' hrunning
        rw [List.mem_append, List.mem_singleton, not_or] at hrunning
        rw [AList.lookup_insert_ne hrunning.2] at hinst'
        exact hholds.running id' inst' hinst' hrunning.1

/-- An id for every number. -/
def plainId (n : ℕ) : String := .ofList (List.replicate n 'a')

theorem plainId_injective : Function.Injective plainId := by
  intro m n heq
  have := congrArg (fun s => s.toList.length) heq
  simpa [plainId] using this

theorem nodup_plainIds (n : ℕ) : ((List.range n).map plainId).Nodup :=
  List.nodup_range.map plainId_injective

theorem plainId_notMem (n : ℕ) : plainId n ∉ (List.range n).map plainId := by
  rw [List.mem_map_of_injective plainId_injective]
  simp

/-- The calls that start so many instances and then finish them. -/
def startAndFinish (n : ℕ) : List CacheCall :=
  ((List.range n).map plainId).map startCall ++ ((List.range n).map plainId).map finishCall

theorem holds_startAndFinish (capacity n : ℕ) :
    Legal capacity (startAndFinish n)
      ∧ (run capacity (startAndFinish n)).Holds ((List.range n).map plainId)
        ((List.range n).map plainId) :=
  holds_finishes capacity (nodup_plainIds n) (nodup_plainIds n) (List.Subset.refl _)

theorem length_startAndFinish (capacity n : ℕ) :
    (run capacity (startAndFinish n)).instanceData.len = n
      ∧ (run capacity (startAndFinish n)).terminatedInstances.length = n
      ∧ plainId n ∉ (run capacity (startAndFinish n)).instanceData := by
  obtain ⟨-, hholds⟩ := holds_startAndFinish capacity n
  refine ⟨?_, ?_, ?_⟩
  · rw [hholds.len_eq (nodup_plainIds n), List.length_map, List.length_range]
  · rw [hholds.terminated_eq, List.length_map, List.length_range]
  · rw [hholds.mem_iff]
    exact plainId_notMem n

/-- A call puts at most one id into the queue. -/
theorem length_terminatedInstances_call (self : InstanceCache) (c : CacheCall) :
    (self.call c).terminatedInstances.length ≤ self.terminatedInstances.length + 1 := by
  cases c with
  | insert id inst running =>
      have hqueue := congrArg List.length (evicted_append self id inst)
      rw [List.length_append] at hqueue
      change (self.insert id inst).terminatedInstances.length ≤ _
      omega
  | informOfTermination id result =>
      change (self.informOfTermination id result).terminatedInstances.length ≤ _
      unfold informOfTermination
      split <;> simp

theorem length_terminatedInstances_run (capacity : ℕ) (calls : List CacheCall) :
    (run capacity calls).terminatedInstances.length ≤ calls.length := by
  induction calls using List.reverseRecOn with
  | nil => exact Nat.zero_le _
  | append_singleton calls c ih =>
      have hcall := length_terminatedInstances_call (run capacity calls) c
      rw [run_append_singleton, List.length_append, List.length_singleton]
      omega

/-- A run of few calls meets the condition. -/
theorem atInserts_queueFits_of_length_le {capacity : ℕ} {calls : List CacheCall}
    (h : calls.length ≤ capacity + instanceCacheCleanupScanLength) :
    AtInserts capacity calls fun cache _ _ => cache.QueueFits := by
  intro before id inst running hpre _
  have hqueue := length_terminatedInstances_run capacity before
  have hlength := hpre.length_le
  rw [List.length_append, List.length_singleton] at hlength
  rw [capacity_run]
  omega

/-- With a capacity of two, four instances terminate, and the next one makes room for itself. -/
theorem finished_instances_bounded_two :
    Legal 2 (startAndFinish 4 ++ [startCall (plainId 4)])
      ∧ AtInserts 2 (startAndFinish 4 ++ [startCall (plainId 4)]) BoundedAfter := by
  obtain ⟨hlegal, -⟩ := holds_startAndFinish 2 4
  obtain ⟨-, -, hnew⟩ := length_startAndFinish 2 4
  refine ⟨legal_append_singleton.mpr ⟨hlegal, hnew⟩, (finished_instances_bounded 2).1 _ ?_⟩
  exact atInserts_queueFits_of_length_le (by decide)

/-- With a capacity of one, 5002 instances terminate before the next one is inserted: two of them are
still there afterwards. -/
theorem burst_exceeds_capacity :
    Legal 1 (startAndFinish 5002 ++ [startCall (plainId 5002)])
      ∧ ¬ AtInserts 1 (startAndFinish 5002 ++ [startCall (plainId 5002)]) BoundedAfter := by
  obtain ⟨hlegal, -⟩ := holds_startAndFinish 1 5002
  obtain ⟨hlen, hterminated, hnew⟩ := length_startAndFinish 1 5002
  refine ⟨legal_append_singleton.mpr ⟨hlegal, hnew⟩, ?_⟩
  intro h
  have hbounded := h (startAndFinish 5002) _ _ rfl (List.prefix_refl _)
  have hfits := ((consistent_run hlegal).boundedAfter_iff hnew rfl).mp hbounded
  rw [QueueFits, capacity_run, hlen, hterminated, instanceCacheCleanupScanLength] at hfits
  omega

/-- With a capacity of one, the only terminated instance makes room for the next one. -/
theorem evicts_minimally_one :
    Legal 1 (startAndFinish 1) ∧ EvictsMinimally 1 (startAndFinish 1) (plainId 1)
      (plainInstance (plainId 1)) := by
  obtain ⟨hlegal, -⟩ := holds_startAndFinish 1 1
  obtain ⟨hlen, hterminated, hnew⟩ := length_startAndFinish 1 1
  refine ⟨hlegal, (evicts_minimally_iff hlegal hnew _).mpr ?_⟩
  rw [hlen, hterminated]
  omega

/-- With a capacity of two, both terminated instances are removed although one would do. -/
theorem second_instance_evicted :
    Legal 2 (startAndFinish 2)
      ∧ ¬ EvictsMinimally 2 (startAndFinish 2) (plainId 2) (plainInstance (plainId 2)) := by
  obtain ⟨hlegal, -⟩ := holds_startAndFinish 2 2
  obtain ⟨hlen, hterminated, hnew⟩ := length_startAndFinish 2 2
  refine ⟨hlegal, ?_⟩
  rw [evictsMinimally_iff_length hlegal hnew, length_evicted, capacity_run, hlen, hterminated,
    instanceCacheCleanupScanLength]
  decide

end InstanceCache

/-! ### The cache of the manager -/

namespace InstanceManager

variable {K : Curves} {ctx : ManagerContext K} {events : List (ManagerEvent K)}
  {self : InstanceManager K}

/-- The manager only makes legal calls. -/
theorem exists_legal_calls (hrun : run ctx events = .ok self) (honce : (terminationsOf events).Nodup) :
    ∃ calls, InstanceCache.Legal InstanceCache.defaultInstanceCacheSize calls
      ∧ self.instances = InstanceCache.run InstanceCache.defaultInstanceCacheSize calls := by
  induction events using List.reverseRecOn generalizing self with
  | nil =>
      obtain rfl := Outcome.ok.inj hrun
      exact ⟨[], fun before c hpre => by simp at hpre, rfl⟩
  | append_singleton events event ih =>
      obtain ⟨mid, hmid, hok⟩ := run_append_singleton.mp hrun
      rw [terminationsOf, List.filterMap_append, List.nodup_append] at honce
      obtain ⟨calls, hlegal, hcalls⟩ := ih hmid honce.1
      -- most turns leave the cache alone
      have hsame : self.instances = mid.instances → ∃ calls,
          InstanceCache.Legal InstanceCache.defaultInstanceCacheSize calls
            ∧ self.instances = InstanceCache.run InstanceCache.defaultInstanceCacheSize calls :=
        fun heq => ⟨calls, hlegal, heq.trans hcalls⟩
      cases turn_of_onEvent hok with
      | known _ _ => exact hsame rfl
      | refused _ _ _ => exact hsame rfl
      | @launched _ _ request _ syncResponder _ _ hnew _ _ =>
          refine ⟨calls ++ [.insert (assignInstanceId ctx.hash256 request)
            (.new (assignInstanceId ctx.hash256 request) request.getScheme request.getGroup
              (some mid.spawned.length) syncResponder) rfl], ?_, ?_⟩
          · rw [InstanceCache.legal_append_singleton, ← hcalls]
            exact ⟨hlegal, hnew⟩
          · rw [InstanceCache.run_append_singleton, ← hcalls, instances_emit,
              instances_forwardBackloggedMessages]
            rfl
      | status _ => exact hsame rfl
      | absent _ => exact hsame rfl
      | @settled executor result spawned inst hspawned hinst =>
          obtain ⟨done, hmanaged, hdone⟩ := managed_run hmid honce.1
          have hfresh : executor ∉ done := by
            intro hmem
            exact honce.2.2 executor (hdone executor hmem) executor
              (by simp [ManagerEvent.terminated?]) rfl
          obtain ⟨inst', hinst', hrunning, -⟩ := hmanaged.live executor spawned hspawned hfresh
          refine ⟨calls ++ [.informOfTermination spawned.instanceId result], ?_, ?_⟩
          · rw [InstanceCache.legal_append_singleton, ← hcalls]
            refine ⟨hlegal, fun inst'' hinst'' => ?_⟩
            rw [← Option.some.inj (hinst'.symm.trans hinst'')]
            exact hrunning
          · rw [InstanceCache.run_append_singleton, ← hcalls, InstanceCache.call,
              InstanceCache.informOfTermination, hinst, settle, instances_emit]
      | message message => exact hsame (instances_onNetMessage message)
      | tick => exact hsame rfl

end InstanceManager

end QuorumCrypt
