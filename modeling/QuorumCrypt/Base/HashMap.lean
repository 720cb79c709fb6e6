import Mathlib.Data.List.AList

/-!
# Hash maps

A hash map is an association list without repeated keys. Reading all values of one gives them in an
order that the program cannot know, so the order is a parameter: some rearrangement of the entries.
-/

namespace Rust

/-- The maps of `std::collections`. -/
abbrev HashMap (κ ν : Type) := AList fun _ : κ => ν

/-- The order in which the entries of a map are read. -/
structure IterationOrder (κ ν : Type) where
  arrange : List ((_ : κ) × ν) → List ((_ : κ) × ν)
  perm : ∀ entries, (arrange entries).Perm entries

/-- The latest entry first. -/
def IterationOrder.latest (κ ν : Type) : IterationOrder κ ν := ⟨id, fun _ => .refl _⟩

namespace HashMap

variable {κ ν : Type}

def len (m : HashMap κ ν) : ℕ := m.entries.length

def values (order : IterationOrder κ ν) (m : HashMap κ ν) : List ν :=
  (order.arrange m.entries).map Sigma.snd

theorem len_eq (m : HashMap κ ν) : m.len = m.keys.length := by
  rw [len, AList.keys, List.keys, List.length_map]

theorem length_values (order : IterationOrder κ ν) (m : HashMap κ ν) :
    (m.values order).length = m.len := by
  rw [values, List.length_map, (order.perm _).length_eq, len]

theorem values_perm (order order' : IterationOrder κ ν) (m : HashMap κ ν) :
    (m.values order).Perm (m.values order') :=
  ((order.perm _).trans (order'.perm _).symm).map _

variable [DecidableEq κ]

theorem mem_values {order : IterationOrder κ ν} {m : HashMap κ ν} {v : ν} :
    v ∈ m.values order ↔ ∃ k, m.lookup k = some v := by
  rw [values, List.mem_map]
  constructor
  · rintro ⟨⟨k, w⟩, hmem, rfl⟩
    exact ⟨k, AList.mem_lookup_iff.mpr ((order.perm _).mem_iff.mp hmem)⟩
  · rintro ⟨k, hk⟩
    exact ⟨⟨k, v⟩, (order.perm _).mem_iff.mpr (AList.mem_lookup_iff.mp hk), rfl⟩

theorem mem_of_lookup {m : HashMap κ ν} {k : κ} {v : ν} (h : m.lookup k = some v) : k ∈ m :=
  AList.lookup_isSome.mp (h ▸ rfl)

/-- What holds of the keys of a map and of one more key holds after the insertion. -/
theorem forall_mem_insert {m : HashMap κ ν} {k : κ} {v : ν} {Q : κ → Prop} (hkey : Q k)
    (hrest : ∀ k' ∈ m, Q k') : ∀ k' ∈ m.insert k v, Q k' := by
  intro k' hk'
  rcases (AList.mem_insert m).mp hk' with rfl | hk'
  · exact hkey
  · exact hrest k' hk'

theorem forall_lookup_insert {m : HashMap κ ν} {k : κ} {v : ν} {Q : κ → ν → Prop} (hkey : Q k v)
    (hrest : ∀ k' v', m.lookup k' = some v' → Q k' v') :
    ∀ k' v', (m.insert k v).lookup k' = some v' → Q k' v' := by
  intro k' v' h
  by_cases heq : k' = k
  · subst heq
    rw [AList.lookup_insert] at h
    exact Option.some.inj h ▸ hkey
  · rw [AList.lookup_insert_ne heq] at h
    exact hrest k' v' h

theorem mem_insert_of_mem {m : HashMap κ ν} {k k' : κ} (v : ν) (h : k' ∈ m) : k' ∈ m.insert k v :=
  (AList.mem_insert m).mpr (.inr h)

/-- The keys, in the order in which the values are read. -/
def keysIn (order : IterationOrder κ ν) (m : HashMap κ ν) : List κ :=
  (order.arrange m.entries).map Sigma.fst

omit [DecidableEq κ] in
theorem keysIn_perm (order : IterationOrder κ ν) (m : HashMap κ ν) :
    (m.keysIn order).Perm m.keys := (order.perm _).map _

/-- When the values are a function of the keys, so is what is read. -/
theorem values_eq_map (order : IterationOrder κ ν) {m : HashMap κ ν} {f : κ → ν}
    (h : ∀ k v, m.lookup k = some v → v = f k) : m.values order = (m.keysIn order).map f := by
  rw [values, keysIn, List.map_map]
  refine List.map_congr_left fun e he => ?_
  exact h e.1 e.2 (AList.mem_lookup_iff.mpr ((order.perm _).mem_iff.mp he))

/-- What is read off the values can be read off the keys, when every value is stored under the right
key. -/
theorem map_values_perm {α : Type} (order : IterationOrder κ ν) {m : HashMap κ ν} {f : ν → α}
    {g : κ → α} (h : ∀ k v, m.lookup k = some v → f v = g k) :
    ((m.values order).map f).Perm (m.keys.map g) := by
  have hentries : ((order.arrange m.entries).map fun e => f e.2).Perm
      (m.entries.map fun e => f e.2) := (order.perm _).map _
  rw [values, List.map_map]
  refine hentries.trans (List.Perm.of_eq ?_)
  rw [AList.keys, List.keys, List.map_map]
  refine List.map_congr_left fun e he => ?_
  exact h e.1 e.2 (AList.mem_lookup_iff.mpr he)

omit [DecidableEq κ] in
/-- A map that has the given keys and no others. -/
theorem keys_perm_of_mem_iff {m : HashMap κ ν} {ids : List κ} (hnodup : ids.Nodup)
    (h : ∀ k, k ∈ m ↔ k ∈ ids) : m.keys.Perm ids := by
  refine (List.perm_ext_iff_of_nodup m.keys_nodup hnodup).mpr fun k => ?_
  rw [← AList.mem_keys, h]

/-- `iter_mut`: every value is changed in its place. -/
def mapValues (f : ν → ν) (m : HashMap κ ν) : HashMap κ ν :=
  ⟨m.entries.map (Sigma.map id fun _ => f), m.nodupKeys.map₂ fun _ => f⟩

@[simp] theorem lookup_mapValues (f : ν → ν) (m : HashMap κ ν) (k : κ) :
    (m.mapValues f).lookup k = (m.lookup k).map f := List.dlookup_map₂ k

theorem any_entries {m : HashMap κ ν} {p : (_ : κ) × ν → Bool} :
    m.entries.any p = true ↔ ∃ k v, m.lookup k = some v ∧ p ⟨k, v⟩ = true := by
  rw [List.any_eq_true]
  constructor
  · rintro ⟨⟨k, v⟩, hmem, hp⟩
    exact ⟨k, v, AList.mem_lookup_iff.mpr hmem, hp⟩
  · rintro ⟨k, v, hlookup, hp⟩
    exact ⟨⟨k, v⟩, AList.mem_lookup_iff.mp hlookup, hp⟩

/-- The one entry whose value has a property. -/
structure Only (m : HashMap κ ν) (p : ν → Prop) (k : κ) (v : ν) : Prop where
  lookup_eq : m.lookup k = some v
  holds : p v
  key_eq : ∀ k' v', m.lookup k' = some v' → p v' → k' = k

theorem Only.unique {m : HashMap κ ν} {p : ν → Prop} {k k' : κ} {v v' : ν} (h : m.Only p k v)
    (h' : m.Only p k' v') : k = k' ∧ v = v' := by
  obtain rfl : k = k' := h'.key_eq k v h.lookup_eq h.holds
  exact ⟨rfl, Option.some.inj (h.lookup_eq.symm.trans h'.lookup_eq)⟩

section Total

variable (f : ν → ℕ) (m : HashMap κ ν) (k : κ)

/-- The sum over all values. -/
def total : ℕ := m.entries.foldr (fun e sum => f e.2 + sum) 0

theorem total_erase : total f (m.erase k) + ((m.lookup k).elim 0 f) = total f m := by
  have hsum : ∀ entries : List ((_ : κ) × ν), (entries.kerase k).foldr (fun e sum => f e.2 + sum) 0
      + ((entries.dlookup k).elim 0 f) = entries.foldr (fun e sum => f e.2 + sum) 0 := by
    intro entries
    induction entries with
    | nil => rfl
    | cons e entries ih =>
        by_cases heq : k = e.1
        · subst heq
          rw [List.kerase_cons_eq rfl, List.dlookup_cons_eq, List.foldr_cons]
          exact Nat.add_comm _ _
        · rw [List.kerase_cons_ne heq, List.dlookup_cons_ne _ _ heq, List.foldr_cons, List.foldr_cons,
            Nat.add_assoc, ih]
  exact hsum m.entries

theorem total_insert (v : ν) :
    total f (m.insert k v) + ((m.lookup k).elim 0 f) = total f m + f v := by
  have hentries : total f (m.insert k v) = f v + total f (m.erase k) := by
    rw [total, AList.entries_insert, List.foldr_cons]
    rfl
  rw [hentries, Nat.add_assoc, total_erase, Nat.add_comm]

end Total

section Filter

variable {order : IterationOrder κ ν} {m : HashMap κ ν} {p : ν → Bool}

/-- What is read in any order has one value with the property exactly when the map has. -/
theorem filter_values_eq_singleton {v : ν} :
    (m.values order).filter p = [v] ↔ ∃ k, m.Only (fun v => p v = true) k v := by
  let found := (order.arrange m.entries).filter fun e => p e.2
  have hfilter : (m.values order).filter p = found.map Sigma.snd := by
    rw [values, List.filter_map]
    rfl
  have hmem : ∀ e, e ∈ found ↔ m.lookup e.1 = some e.2 ∧ p e.2 = true := by
    intro e
    rw [List.mem_filter, (order.perm _).mem_iff, ← AList.mem_lookup_iff, Option.mem_def]
  have hnodup : found.Nodup :=
    (((order.perm _).nodup_iff).mpr m.nodupKeys.nodup).filter _
  rw [hfilter]
  constructor
  · intro h
    obtain ⟨⟨k, w⟩, hfound, rfl⟩ := List.map_eq_singleton_iff.mp h
    have hself := (hmem ⟨k, w⟩).mp (by rw [hfound]; exact List.mem_singleton_self _)
    refine ⟨k, hself.1, hself.2, ?_⟩
    intro k' v' hlookup hp
    have hother : (⟨k', v'⟩ : (_ : κ) × ν) ∈ found := (hmem _).mpr ⟨hlookup, hp⟩
    rw [hfound, List.mem_singleton] at hother
    exact congrArg Sigma.fst hother
  · rintro ⟨k, hlookup, hp, hkey⟩
    have hall : ∀ e, e ∈ found ↔ e ∈ [(⟨k, v⟩ : (_ : κ) × ν)] := by
      rintro ⟨k', v'⟩
      rw [hmem, List.mem_singleton]
      constructor
      · rintro ⟨hlookup', hp'⟩
        obtain rfl := hkey k' v' hlookup' hp'
        obtain rfl : v' = v := Option.some.inj (hlookup'.symm.trans hlookup)
        rfl
      · rintro ⟨⟩
        exact ⟨hlookup, hp⟩
    have hperm := (List.perm_ext_iff_of_nodup hnodup (List.nodup_singleton _)).mpr hall
    rw [List.perm_singleton.mp hperm, List.map_singleton]

end Filter

end HashMap

end Rust
