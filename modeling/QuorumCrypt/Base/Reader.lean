import QuorumCrypt.Base.Outcome

/-!
# Readers of lists and what they expect

A reader takes elements from the front of a list. It returns a value and what is left, it refuses the
list with an error, or it panics. A `Layout` says what a reader expects: which element comes next, and
which condition on what was read keeps it from panicking. A list fits a layout when every condition
holds that is met before the first element that is not the expected one. A reader that follows a
layout returns on the lists that fit it and on no other.
-/

namespace Rust

abbrev Reader (τ ε : Type) := StateT (List τ) (Outcome ε)

namespace Reader

variable {τ ε α β : Type}

/-- Take the next element. The end of the list and an element of another kind are errors. -/
def next (refused : ε) (accepts : τ → Option α) : Reader τ ε α
  | [] => .err refused
  | t :: ts =>
      match accepts t with
      | some a => .ok (a, ts)
      | none => .err refused

/-- A call that reads nothing. -/
def call (x : Outcome ε α) : Reader τ ε α := StateT.lift x

/-- Read `n` times. -/
def times : ℕ → Reader τ ε α → Reader τ ε (List α)
  | 0, _ => pure []
  | n + 1, p => do
      let a ← p
      let as ← times n p
      pure (a :: as)

variable {refused : ε} {accepts : τ → Option α}

theorem run_bind (p : Reader τ ε α) (f : α → Reader τ ε β) (ts : List τ) :
    (p >>= f).run ts = p.run ts >>= fun result => (f result.1).run result.2 := rfl

@[simp] theorem run_pure (a : α) (ts : List τ) : (pure a : Reader τ ε α).run ts = .ok (a, ts) := rfl

@[simp] theorem run_next_nil : (next refused accepts).run [] = .err refused := rfl

theorem run_next_cons_some {t : τ} {a : α} (h : accepts t = some a) (ts : List τ) :
    (next refused accepts).run (t :: ts) = .ok (a, ts) := by
  change (match accepts t with | some a => _ | none => _) = _
  rw [h]

theorem run_next_cons_none {t : τ} (h : accepts t = none) (ts : List τ) :
    (next refused accepts).run (t :: ts) = .err refused := by
  change (match accepts t with | some a => _ | none => _) = _
  rw [h]

@[simp] theorem run_call (x : Outcome ε α) (ts : List τ) :
    (call x).run ts = x >>= fun a => .ok (a, ts) := rfl

/-- The elements a reader takes one value each from are read in a row. -/
theorem run_times {p : Reader τ ε α} {write : α → τ} {as : List α} {ts : List τ}
    (h : ∀ a ∈ as, ∀ ts, p.run (write a :: ts) = .ok (a, ts)) :
    (times as.length p).run (as.map write ++ ts) = .ok (as, ts) := by
  induction as with
  | nil => rfl
  | cons a as ih =>
      have hhead := h a List.mem_cons_self (as.map write ++ ts)
      have htail := ih fun b hb => h b (List.mem_cons_of_mem a hb)
      rw [List.length_cons, times, List.map_cons, List.cons_append, run_bind, hhead, Outcome.ok_bind,
        run_bind, htail, Outcome.ok_bind, run_pure]

/-- The other way round: what is read in a row comes from as many elements, one value from each. -/
theorem exists_of_run_times {p : Reader τ ε α} {Reads : τ → α → Prop}
    (hp : ∀ {ts a rest}, p.run ts = .ok (a, rest) → ∃ t, ts = t :: rest ∧ Reads t a) {n : ℕ}
    {ts rest : List τ} {as : List α} (h : (times n p).run ts = .ok (as, rest)) :
    as.length = n ∧ ∃ read, ts = read ++ rest ∧ List.Forall₂ Reads read as := by
  induction n generalizing ts as with
  | zero =>
      obtain ⟨rfl, rfl⟩ := Prod.mk.inj (Outcome.ok.inj h)
      exact ⟨rfl, [], rfl, .nil⟩
  | succ n ih =>
      rw [times, run_bind] at h
      obtain ⟨⟨a, mid⟩, ha, h⟩ := Outcome.bind_eq_ok.mp h
      rw [run_bind] at h
      obtain ⟨⟨as', rest'⟩, has, h⟩ := Outcome.bind_eq_ok.mp h
      obtain ⟨rfl, rfl⟩ := Prod.mk.inj (Outcome.ok.inj h)
      obtain ⟨t, rfl, hread⟩ := hp ha
      obtain ⟨hlength, read, rfl, hall⟩ := ih has
      exact ⟨congrArg (· + 1) hlength, t :: read, rfl, .cons hread hall⟩

/-- Elements are what is written of the values they were read as, when each of them is. -/
theorem map_eq_iff_of_forall₂ {Reads : τ → α → Prop} {write : α → τ} {canonical : τ → Prop}
    (hwrite : ∀ t a, Reads t a → (write a = t ↔ canonical t)) {read : List τ} {as : List α}
    (h : List.Forall₂ Reads read as) : as.map write = read ↔ ∀ t ∈ read, canonical t := by
  induction h with
  | nil => simp
  | cons hread _ ih =>
      rw [List.map_cons, List.cons.injEq, hwrite _ _ hread, ih, List.forall_mem_cons]

end Reader

/-- What a reader expects of a list. -/
inductive Layout (τ ρ : Type) : Type 1 where
  /-- The end, with what the caller goes on with. -/
  | done (result : ρ)
  /-- One element. -/
  | next {α : Type} (accepts : τ → Option α) (rest : α → Layout τ ρ)
  /-- A condition, without which the reader panics. -/
  | require (condition : Prop) (rest : Layout τ ρ)
  /-- A fact, without which the list is refused. -/
  | given {α : Type} (fact : α → Prop) (rest : α → Layout τ ρ)

namespace Layout

variable {τ ρ : Type}

/-- The conditions of the layout hold, as far as the list is not refused before. -/
def Fits : Layout τ ρ → List τ → Prop
  | done _, _ => True
  | next _ _, [] => True
  | next accepts rest, t :: ts => ∀ a, accepts t = some a → (rest a).Fits ts
  | require condition rest, ts => condition ∧ rest.Fits ts
  | given fact rest, ts => ∀ a, fact a → (rest a).Fits ts

/-- The list begins with the elements of the layout; the last argument is what comes after them. -/
def Reads : Layout τ ρ → List τ → ρ → List τ → Prop
  | done result, ts, r, remaining => result = r ∧ ts = remaining
  | next _ _, [], _, _ => False
  | next accepts rest, t :: ts, r, remaining =>
      ∃ a, accepts t = some a ∧ (rest a).Reads ts r remaining
  | require _ rest, ts, r, remaining => rest.Reads ts r remaining
  | given fact rest, ts, r, remaining => ∃ a, fact a ∧ (rest a).Reads ts r remaining

/-- The same place `n` times over. -/
def times (place : Layout τ ρ → Layout τ ρ) (rest : Layout τ ρ) : ℕ → Layout τ ρ
  | 0 => rest
  | n + 1 => place (times place rest n)

end Layout

/-- How a call ends, said without the call: it returns exactly when `fits`, and then with a value
seen as `r` exactly when `reads r`. -/
structure Outcome.Decides {ε α ρ : Type} (x : Outcome ε α) (view : α → ρ) (fits : Prop)
    (reads : ρ → Prop) : Prop where
  returns_iff : x.Returns ↔ fits
  ok_iff : ∀ r, (∃ a, x = .ok a ∧ view a = r) ↔ fits ∧ reads r

namespace Reader

variable {τ ε α β ρ σ : Type}

/-- The reader returns on the lists that fit the layout, and then with what the layout reads. -/
def Follows (p : Reader τ ε α) (view : α → ρ) (layout : Layout τ ρ) : Prop :=
  ∀ ts, (p.run ts).Decides (fun result => (view result.1, result.2)) (layout.Fits ts)
    fun result => layout.Reads ts result.1 result.2

variable {view : α → ρ} {view' : β → σ} {layout : Layout τ ρ}

theorem follows_pure {a : α} {r : ρ} (h : view a = r) :
    Follows (pure a : Reader τ ε α) view (.done r) := by
  intro ts
  constructor
  · exact iff_of_true trivial trivial
  · intro result
    obtain ⟨r', remaining⟩ := result
    simp [Layout.Fits, Layout.Reads, h]

theorem follows_next {refused : ε} {accepts : τ → Option β} {f : β → Reader τ ε α}
    {rest : β → Layout τ ρ} (h : ∀ b, Follows (f b) view (rest b)) :
    Follows (next refused accepts >>= f) view (.next accepts rest) := by
  intro ts
  rw [run_bind]
  cases ts with
  | nil =>
      constructor
      · exact iff_of_true trivial trivial
      · intro result
        simp [Layout.Reads]
  | cons t ts =>
      cases haccepts : accepts t with
      | none =>
          rw [run_next_cons_none haccepts]
          constructor
          · simp [Layout.Fits, haccepts]
          · intro result
            simp [Layout.Reads, haccepts]
      | some b =>
          rw [run_next_cons_some haccepts, Outcome.ok_bind]
          constructor
          · simpa [Layout.Fits, haccepts] using (h b ts).returns_iff
          · intro result
            simpa [Layout.Fits, Layout.Reads, haccepts] using (h b ts).ok_iff result

/-- A call that decides: without `fits` it panics, and without a value that `reads` allows it
refuses. -/
theorem follows_call {x : Outcome ε β} {fits : Prop} {reads : σ → Prop} (hx : x.Decides view' fits reads)
    {f : β → Reader τ ε α} {rest : σ → Layout τ ρ} (h : ∀ b, Follows (f b) view (rest (view' b))) :
    Follows (call x >>= f) view (.require fits (.given reads rest)) := by
  intro ts
  rw [run_bind, run_call]
  cases x with
  | panic =>
      have hfits : ¬ fits := fun hfits => hx.returns_iff.mpr hfits
      constructor
      · simp [Layout.Fits, hfits]
      · intro result
        simp [Layout.Fits, hfits]
  | err e =>
      have hfits : fits := hx.returns_iff.mp trivial
      have hreads : ∀ r, ¬ reads r := by
        intro r hr
        obtain ⟨a, ha, _⟩ := (hx.ok_iff r).mpr ⟨hfits, hr⟩
        exact absurd ha (by simp)
      constructor
      · simp [Layout.Fits, hfits, hreads]
      · intro result
        simp [Layout.Reads, hreads]
  | ok b =>
      have hfits : fits := hx.returns_iff.mp trivial
      have hreads : ∀ r, reads r ↔ r = view' b := by
        intro r
        have hr := hx.ok_iff r
        constructor
        · intro h'
          obtain ⟨a, ha, hview⟩ := hr.mpr ⟨hfits, h'⟩
          obtain rfl := Outcome.ok.inj ha
          exact hview.symm
        · intro h'
          exact (hr.mp ⟨b, rfl, h'.symm⟩).2
      simp only [Outcome.ok_bind]
      constructor
      · simpa [Layout.Fits, hfits, hreads] using (h b ts).returns_iff
      · intro result
        simpa [Layout.Fits, Layout.Reads, hfits, hreads] using (h b ts).ok_iff result

/-- A check that refuses. -/
theorem follows_given {o : Option β} {e : ε} {f : β → Reader τ ε α} {rest : β → Layout τ ρ}
    (h : ∀ b, Follows (f b) view (rest b)) :
    Follows (call (Outcome.okOr o e) >>= f) view (.given (fun b => o = some b) rest) := by
  intro ts
  rw [run_bind, run_call]
  cases o with
  | none =>
      constructor
      · simp [Layout.Fits]
      · intro result
        simp [Layout.Reads]
  | some b =>
      constructor
      · simpa [Layout.Fits] using (h b ts).returns_iff
      · intro result
        simpa [Layout.Fits, Layout.Reads] using (h b ts).ok_iff result

/-- A call that returns or panics, as a condition says. -/
theorem follows_require {x : Outcome ε β} {condition : Prop} (hok : condition → ∃ b, x = .ok b)
    (hpanic : ¬ condition → x = .panic) {f : β → Reader τ ε α}
    (h : ∀ b, Follows (f b) view layout) :
    Follows (call x >>= f) view (.require condition layout) := by
  intro ts
  rw [run_bind, run_call]
  by_cases hc : condition
  · obtain ⟨b, rfl⟩ := hok hc
    simp only [Outcome.ok_bind]
    constructor
    · simpa [Layout.Fits, hc] using (h b ts).returns_iff
    · intro result
      simpa [Layout.Fits, Layout.Reads, hc] using (h b ts).ok_iff result
  · rw [hpanic hc]
    constructor
    · simp [Layout.Fits, hc]
    · intro result
      simp [Layout.Fits, hc]

/-- A loop over one place follows the place as often. -/
theorem follows_times {place : Layout τ ρ → Layout τ ρ} {p : Reader τ ε β}
    (hplace : ∀ {γ : Type} {view : γ → ρ} {f : β → Reader τ ε γ} {layout : Layout τ ρ},
      (∀ b, Follows (f b) view layout) → Follows (p >>= f) view (place layout))
    (n : ℕ) {f : List β → Reader τ ε α} (h : ∀ bs, Follows (f bs) view layout) :
    Follows (times n p >>= f) view (Layout.times place layout n) := by
  induction n generalizing f with
  | zero => exact h []
  | succ n ih =>
      rw [times, bind_assoc]
      apply hplace
      intro b
      rw [bind_assoc]
      apply ih
      intro bs
      exact h (b :: bs)

end Reader

end Rust
