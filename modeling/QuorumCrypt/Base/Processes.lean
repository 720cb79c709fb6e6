import Mathlib.Logic.Relation
import Mathlib.Tactic.Common

/-!
# Steps and waiting

States that are reached by allowed steps, and cycles of processes that wait for each other. There is no
cycle when every process waits only for processes of a smaller rank.
-/

section Steps

variable {σ α : Type*} {step : σ → α → Option σ} {allowed : σ → α → Prop} {init : σ}

/-- The states that allowed steps lead to. -/
inductive Reachable (step : σ → α → Option σ) (allowed : σ → α → Prop) (init : σ) : σ → Prop
  | start : Reachable step allowed init init
  | next {s s' : σ} (h : Reachable step allowed init s) (a : α) (hallowed : allowed s a)
      (hstep : step s a = some s') : Reachable step allowed init s'

/-- The rule of the invariant. -/
theorem Reachable.invariant {motive : σ → Prop} {s : σ} (h : Reachable step allowed init s)
    (hinit : motive init)
    (hnext : ∀ s a s', motive s → allowed s a → step s a = some s' → motive s') : motive s := by
  induction h with
  | start => exact hinit
  | next _ a hallowed hstep ih => exact hnext _ a _ ih hallowed hstep

/-- The steps that a sequence of actions takes, all of them allowed. -/
def Takes (step : σ → α → Option σ) (allowed : σ → α → Prop) : σ → List α → σ → Prop
  | s, [], s' => s = s'
  | s, a :: actions, s' =>
      allowed s a ∧ ∃ mid, step s a = some mid ∧ Takes step allowed mid actions s'

section Measure

variable {inv : σ → Prop} {measure : σ → ℕ}

/-- A measure that goes down bounds the number of steps. -/
theorem Takes.length_le
    (h : ∀ s a s', inv s → allowed s a → step s a = some s' → inv s' ∧ measure s' < measure s)
    {s s' : σ} {actions : List α} (hinv : inv s) (htakes : Takes step allowed s actions s') :
    inv s' ∧ actions.length + measure s' ≤ measure s := by
  induction actions generalizing s with
  | nil =>
      obtain rfl := htakes
      exact ⟨hinv, by simp⟩
  | cons a actions ih =>
      obtain ⟨hallowed, mid, hmid, hrest⟩ := htakes
      obtain ⟨hinv', hlt⟩ := h s a mid hinv hallowed hmid
      obtain ⟨hinv'', hle⟩ := ih hinv' hrest
      refine ⟨hinv'', ?_⟩
      rw [List.length_cons]
      omega

/-- So some sequence leads to a state in which no step is allowed. -/
theorem Takes.exists_final
    (h : ∀ s a s', inv s → allowed s a → step s a = some s' → inv s' ∧ measure s' < measure s)
    {s : σ} (hinv : inv s) :
    ∃ actions s', Takes step allowed s actions s' ∧ ∀ a, allowed s' a → step s' a = none := by
  induction hmeasure : measure s using Nat.strongRecOn generalizing s with
  | ind n ih =>
    by_cases hfinal : ∀ a, allowed s a → step s a = none
    · exact ⟨[], s, rfl, hfinal⟩
    · obtain ⟨a, hstep⟩ := not_forall.mp hfinal
      obtain ⟨hallowed, hsome⟩ := Classical.not_imp.mp hstep
      obtain ⟨mid, hmid⟩ := Option.ne_none_iff_exists'.mp hsome
      obtain ⟨hinv', hlt⟩ := h s a mid hinv hallowed hmid
      obtain ⟨actions, s', htakes, hlast⟩ := ih (measure mid) (hmeasure ▸ hlt) hinv' rfl
      exact ⟨a :: actions, s', ⟨hallowed, mid, hmid, htakes⟩, hlast⟩

end Measure

/-- Steps, one after the other, as long as they are allowed. -/
def runAllowed (step : σ → α → Option σ) (allowed : σ → α → Prop) [∀ s a, Decidable (allowed s a)] :
    σ → List α → Option σ
  | s, [] => some s
  | s, a :: actions =>
      if allowed s a then (step s a).bind fun s' => runAllowed step allowed s' actions else none

theorem Reachable.of_runAllowed [∀ s a, Decidable (allowed s a)] {actions : List α} {s s' : σ}
    (h : Reachable step allowed init s) (hrun : runAllowed step allowed s actions = some s') :
    Reachable step allowed init s' := by
  induction actions generalizing s with
  | nil =>
      obtain rfl := Option.some.inj hrun
      exact h
  | cons a actions ih =>
      rw [runAllowed] at hrun
      split at hrun
      · rename_i hallowed
        obtain ⟨mid, hmid, hrest⟩ := Option.bind_eq_some_iff.mp hrun
        exact ih (h.next a hallowed hmid) hrest
      · cases hrun

theorem Reachable.mono {allowed' : σ → α → Prop} (hmono : ∀ s a, allowed s a → allowed' s a) {s : σ}
    (h : Reachable step allowed init s) : Reachable step allowed' init s := by
  induction h with
  | start => exact .start
  | next _ a hallowed hstep ih => exact ih.next a (hmono _ a hallowed) hstep

/-- Steps of which some more is known. -/
theorem Reachable.of_forall [∀ s a, Decidable (allowed s a)] {P : α → Prop} {actions : List α} {s s' : σ}
    (h : Reachable step (fun s a => P a ∧ allowed s a) init s)
    (hrun : runAllowed step allowed s actions = some s') (hall : ∀ a ∈ actions, P a) :
    Reachable step (fun s a => P a ∧ allowed s a) init s' := by
  induction actions generalizing s with
  | nil =>
      obtain rfl := Option.some.inj hrun
      exact h
  | cons a actions ih =>
      rw [runAllowed] at hrun
      split at hrun
      · rename_i hallowed
        obtain ⟨mid, hmid, hrest⟩ := Option.bind_eq_some_iff.mp hrun
        exact ih (h.next a ⟨hall a List.mem_cons_self, hallowed⟩ hmid) hrest
          fun b hb => hall b (List.mem_cons_of_mem _ hb)
      · cases hrun

end Steps

section Waiting

variable {π : Type*} {waits : π → π → Prop}

/-- A cycle of processes, each of which waits for the next. -/
def Deadlock (waits : π → π → Prop) : Prop := ∃ p, Relation.TransGen waits p p

theorem rank_lt_of_transGen {rank : π → ℕ} (h : ∀ p q, waits p q → rank q < rank p) {p q : π}
    (hpath : Relation.TransGen waits p q) : rank q < rank p := by
  induction hpath with
  | single hwaits => exact h _ _ hwaits
  | tail _ hwaits ih => exact Nat.lt_trans (h _ _ hwaits) ih

theorem not_deadlock_of_rank (rank : π → ℕ) (h : ∀ p q, waits p q → rank q < rank p) :
    ¬ Deadlock waits := by
  rintro ⟨p, hcycle⟩
  exact absurd (rank_lt_of_transGen h hcycle) (Nat.lt_irrefl _)

end Waiting
