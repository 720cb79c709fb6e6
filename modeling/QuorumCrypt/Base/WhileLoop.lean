import Mathlib.Tactic.Common

/-!
# Loops that need not end

A `while` loop whose end depends on what it draws has no bound on its rounds. It is run for a number of
rounds and returns nothing when these are not enough. More rounds never change a result.
-/

variable {σ : Type} {cond : σ → Bool} {body : σ → σ}

/-- `while cond { body }`, for so many rounds at most. -/
def whileLoop (cond : σ → Bool) (body : σ → σ) : ℕ → σ → Option σ
  | 0, s => if cond s then none else some s
  | rounds + 1, s => if cond s then whileLoop cond body rounds (body s) else some s

theorem whileLoop_of_false (rounds : ℕ) {s : σ} (hs : cond s = false) :
    whileLoop cond body rounds s = some s := by
  cases rounds <;> simp [whileLoop, hs]

theorem whileLoop_succ_of_true {rounds : ℕ} {s : σ} (hs : cond s = true) :
    whileLoop cond body (rounds + 1) s = whileLoop cond body rounds (body s) := by
  rw [whileLoop, if_pos hs]

/-- The rule of the invariant. -/
theorem whileLoop_induction {motive : σ → Prop} {rounds : ℕ} {s s' : σ}
    (h : whileLoop cond body rounds s = some s') (hs : motive s)
    (hstep : ∀ t, cond t = true → motive t → motive (body t)) : motive s' ∧ cond s' = false := by
  induction rounds generalizing s with
  | zero =>
      rw [whileLoop] at h
      split at h
      · cases h
      · rename_i hcond
        obtain rfl := Option.some.inj h
        exact ⟨hs, by simpa using hcond⟩
  | succ rounds ih =>
      by_cases hcond : cond s = true
      · rw [whileLoop_succ_of_true hcond] at h
        exact ih h (hstep s hcond hs)
      · have hfalse : cond s = false := by simpa using hcond
        rw [whileLoop_of_false _ hfalse] at h
        obtain rfl := Option.some.inj h
        exact ⟨hs, hfalse⟩

/-- A loop that ran at all ends with what a round left. -/
theorem exists_round_of_whileLoop {rounds : ℕ} {s s' : σ} (hs : cond s = true)
    (h : whileLoop cond body rounds s = some s') : (∃ t, body t = s') ∧ cond s' = false := by
  cases rounds with
  | zero => simp [whileLoop, hs] at h
  | succ rounds =>
      rw [whileLoop_succ_of_true hs] at h
      exact whileLoop_induction (motive := fun s' => ∃ t, body t = s') h ⟨s, rfl⟩ fun t _ _ => ⟨t, rfl⟩

/-- The number of rounds does not matter to the result. -/
theorem whileLoop_mono {rounds rounds' : ℕ} (hle : rounds ≤ rounds') {s s' : σ}
    (h : whileLoop cond body rounds s = some s') : whileLoop cond body rounds' s = some s' := by
  induction rounds generalizing s rounds' with
  | zero =>
      rw [whileLoop] at h
      split at h
      · cases h
      · rename_i hcond
        rw [whileLoop_of_false _ (by simpa using hcond), ← h]
  | succ rounds ih =>
      obtain ⟨rounds', rfl⟩ := Nat.exists_eq_add_of_le' (Nat.le_of_add_left_le hle : 1 ≤ rounds')
      by_cases hcond : cond s = true
      · rw [whileLoop_succ_of_true hcond] at h ⊢
        exact ih (Nat.le_of_add_le_add_right hle) h
      · have hfalse : cond s = false := by simpa using hcond
        rw [whileLoop_of_false _ hfalse] at h ⊢
        exact h
