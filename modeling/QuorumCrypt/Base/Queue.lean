import Mathlib.Data.List.ReduceOption

/-!
# Queues

A first-in first-out queue. Items are put in several at a time and taken one at a time, in any order of
the calls, and a pop of the empty queue returns nothing. Over a whole run what was taken, followed by
what is left, is what was put in. If no pop comes too early, then the number of pops says which items
were taken.
-/

namespace Fifo

variable {α : Type}

inductive Call (α : Type) where
  | push (items : List α)
  | pop

/-- What the pops return, and what is left in the end. -/
def run (queue : List α) : List (Call α) → List (Option α) × List α
  | [] => ([], queue)
  | .push items :: calls => run (queue ++ items) calls
  | .pop :: calls => (queue.head? :: (run queue.tail calls).1, (run queue.tail calls).2)

def pushed : List (Call α) → List α
  | [] => []
  | .push items :: calls => items ++ pushed calls
  | .pop :: calls => pushed calls

def pops : List (Call α) → ℕ
  | [] => 0
  | .push _ :: calls => pops calls
  | .pop :: calls => pops calls + 1

theorem length_returned (queue : List α) (calls : List (Call α)) :
    (run queue calls).1.length = pops calls := by
  induction calls generalizing queue with
  | nil => rfl
  | cons call calls ih =>
      cases call with
      | push items => exact ih _
      | pop => exact congrArg (· + 1) (ih _)

/-- Nothing is lost, and nothing is returned twice. -/
theorem returned_append_left (queue : List α) (calls : List (Call α)) :
    (run queue calls).1.reduceOption ++ (run queue calls).2 = queue ++ pushed calls := by
  induction calls generalizing queue with
  | nil => rw [run, pushed, List.append_nil, List.reduceOption_nil, List.nil_append]
  | cons call calls ih =>
      cases call with
      | push items => rw [run, pushed, ih, List.append_assoc]
      | pop =>
          cases queue with
          | nil => exact ih []
          | cons item queue =>
              rw [run, pushed, List.head?_cons, List.tail_cons, List.reduceOption_cons_of_some,
                List.cons_append, List.cons_append, ih]

theorem map_some_reduceOption {returned : List (Option α)} (h : none ∉ returned) :
    returned.reduceOption.map some = returned := by
  induction returned with
  | nil => rfl
  | cons first rest ih =>
      obtain ⟨hfirst, hrest⟩ := not_or.mp (mt List.mem_cons.mpr h)
      obtain ⟨item, rfl⟩ := Option.ne_none_iff_exists'.mp (Ne.symm hfirst)
      rw [List.reduceOption_cons_of_some, List.map_cons, ih hrest]

/-- When every pop returns something, the pops return the first items that were put in. -/
theorem returned_eq_take {queue : List α} {calls : List (Call α)} (h : none ∉ (run queue calls).1) :
    (run queue calls).1 = ((queue ++ pushed calls).take (pops calls)).map some := by
  have hsome := map_some_reduceOption h
  have hlength : (run queue calls).1.reduceOption.length = pops calls := by
    rw [← length_returned queue calls, ← List.length_map some, hsome]
  rw [← returned_append_left, ← hlength, List.take_left, hsome]

end Fifo
