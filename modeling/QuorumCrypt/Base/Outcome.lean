import Mathlib.Control.Monad.Basic
import Mathlib.Data.List.Induction
import Mathlib.Tactic.Common

/-!
# Outcomes of Rust calls

A Rust function that returns a `Result` ends in one of three ways: it returns `Ok`, it returns
`Err`, or it panics. A panic is not an `Err`: `?` does not catch it, and it ends the task that runs
the call. `Outcome` keeps the three apart, and its `bind` is the `?` operator. A function that does
not return a `Result` but may panic is modelled with the same type and never uses `err`.

Arithmetic overflow, an index out of bounds, `unwrap`, `expect` and `todo!` are all panics.
-/

namespace Rust

/-- How a call ends. -/
inductive Outcome (ε α : Type) where
  | ok (value : α)
  | err (error : ε)
  | panic
  deriving DecidableEq

namespace Outcome

variable {ε α β : Type}

protected def bind (x : Outcome ε α) (next : α → Outcome ε β) : Outcome ε β :=
  match x with
  | ok a => next a
  | err e => err e
  | panic => panic

instance : Monad (Outcome ε) where
  pure := ok
  bind := Outcome.bind

@[simp] theorem pure_eq (a : α) : (pure a : Outcome ε α) = ok a := rfl

@[simp] theorem ok_bind (a : α) (next : α → Outcome ε β) : (ok a >>= next) = next a := rfl

@[simp] theorem err_bind (e : ε) (next : α → Outcome ε β) : (err e >>= next) = err e := rfl

@[simp] theorem panic_bind (next : α → Outcome ε β) : (panic >>= next) = (panic : Outcome ε β) := rfl

@[simp] theorem map_ok (f : α → β) (a : α) : (f <$> (ok a : Outcome ε α)) = ok (f a) := rfl

@[simp] theorem map_err (f : α → β) (e : ε) : (f <$> (err e : Outcome ε α)) = err e := rfl

@[simp] theorem map_panic (f : α → β) : (f <$> (panic : Outcome ε α)) = panic := rfl

instance : LawfulMonad (Outcome ε) :=
  LawfulMonad.mk' _ (fun x => by cases x <;> rfl) (fun _ _ => rfl)
    (fun x _ _ => by cases x <;> rfl)

/-- A sequence of two calls returns `Ok` exactly when both do. -/
theorem bind_eq_ok {x : Outcome ε α} {next : α → Outcome ε β} {b : β} :
    (x >>= next) = ok b ↔ ∃ a, x = ok a ∧ next a = ok b := by
  cases x <;> simp

theorem map_eq_ok {x : Outcome ε α} {f : α → β} {b : β} :
    (f <$> x) = ok b ↔ ∃ a, x = ok a ∧ f a = b := by
  cases x <;> simp

/-- A loop returns `Ok` when it does up to its last turn, and the last turn does. -/
theorem foldlM_append_singleton {γ : Type} {f : β → γ → Outcome ε β} {xs : List γ} {x : γ} {b b' : β} :
    (xs ++ [x]).foldlM f b = ok b' ↔ ∃ mid, xs.foldlM f b = ok mid ∧ f mid x = ok b' := by
  rw [List.foldlM_append, bind_eq_ok]
  refine exists_congr fun mid => and_congr_right fun _ => ?_
  rw [List.foldlM_cons, bind_eq_ok]
  constructor
  · rintro ⟨last, hlast, heq⟩
    obtain rfl := ok.inj heq
    exact hlast
  · intro hlast
    exact ⟨b', hlast, rfl⟩

/-- What holds before a loop and is kept by every turn of it holds after it. -/
theorem foldlM_induction {γ : Type} {f : β → γ → Outcome ε β} {b : β} {motive : List γ → β → Prop}
    (hnil : motive [] b)
    (hstep : ∀ xs mid x b', xs.foldlM f b = ok mid → motive xs mid → f mid x = ok b' →
      motive (xs ++ [x]) b')
    {xs : List γ} {b' : β} (h : xs.foldlM f b = ok b') : motive xs b' := by
  induction xs using List.reverseRecOn generalizing b' with
  | nil =>
      obtain rfl := ok.inj h
      exact hnil
  | append_singleton xs x ih =>
      obtain ⟨mid, hmid, hlast⟩ := foldlM_append_singleton.mp h
      exact hstep xs mid x b' hmid (ih hmid) hlast

/-- The call returned, with `Ok` or with `Err`. -/
def Returns : Outcome ε α → Prop
  | panic => False
  | _ => True

instance (x : Outcome ε α) : Decidable x.Returns := by
  cases x <;> unfold Returns <;> infer_instance

@[simp] theorem returns_ok (a : α) : (ok a : Outcome ε α).Returns := trivial

@[simp] theorem returns_err (e : ε) : (err e : Outcome ε α).Returns := trivial

@[simp] theorem not_returns_panic : ¬ (panic : Outcome ε α).Returns := id

/-- `unwrap` of an `Option`. -/
def unwrap : Option α → Outcome ε α
  | some a => ok a
  | none => panic

@[simp] theorem unwrap_some (a : α) : (unwrap (some a) : Outcome ε α) = ok a := rfl

@[simp] theorem unwrap_none : (unwrap none : Outcome ε α) = panic := rfl

theorem unwrap_eq_ok {o : Option α} {a : α} : (unwrap o : Outcome ε α) = ok a ↔ o = some a := by
  cases o <;> simp

/-- `ok_or` of an `Option`. -/
def okOr (o : Option α) (e : ε) : Outcome ε α :=
  match o with
  | some a => ok a
  | none => err e

@[simp] theorem okOr_some (a : α) (e : ε) : okOr (some a) e = ok a := rfl

@[simp] theorem okOr_none (e : ε) : (okOr none e : Outcome ε α) = err e := rfl

/-- `xs[i]`. -/
def index (xs : List α) (i : Nat) : Outcome ε α := unwrap xs[i]?

theorem index_eq_ok {xs : List α} {i : Nat} {a : α} :
    (index xs i : Outcome ε α) = ok a ↔ xs[i]? = some a := unwrap_eq_ok

/-- `?` after `map_err`: the caller wraps the error of the callee. -/
def mapErr {ε' : Type} (f : ε → ε') : Outcome ε α → Outcome ε' α
  | ok a => ok a
  | err e => err (f e)
  | panic => panic

@[simp] theorem mapErr_ok {ε' : Type} (f : ε → ε') (a : α) : mapErr f (ok a) = ok a := rfl

@[simp] theorem mapErr_err {ε' : Type} (f : ε → ε') (e : ε) :
    mapErr f (err e : Outcome ε α) = err (f e) := rfl

@[simp] theorem mapErr_panic {ε' : Type} (f : ε → ε') :
    mapErr f (panic : Outcome ε α) = panic := rfl

theorem mapErr_eq_ok {ε' : Type} {f : ε → ε'} {x : Outcome ε α} {a : α} :
    mapErr f x = ok a ↔ x = ok a := by
  cases x <;> simp

end Outcome

end Rust
