/-
# First in, first out

A queue as the history of what is put into it: an element is either taken out, in the order
in which the elements were put in, or still pending.
-/
import Mathlib

namespace Fifo

variable {α : Type*}

/-- What is done to the queue. -/
inductive Event (α : Type*) : Type _ where
  | put (x : α) : Event α
  | take : Event α

/-- The elements taken out and those still in. -/
structure Queue (α : Type*) where
  sent : List α
  pending : List α

/-- The queue at the beginning. -/
def Queue.empty : Queue α := ⟨[], []⟩

/-- One event; nothing is taken out of the empty queue. -/
def Queue.step (q : Queue α) : Event α → Queue α
  | .put x => { q with pending := q.pending ++ [x] }
  | .take =>
    match q.pending with
    | [] => q
    | x :: l => ⟨q.sent ++ [x], l⟩

/-- The queue after the events. -/
def Queue.after (q : Queue α) (es : List (Event α)) : Queue α := es.foldl step q

/-- The elements put in. -/
def puts : List (Event α) → List α
  | [] => []
  | .put x :: es => x :: puts es
  | .take :: es => puts es

theorem after_append (q : Queue α) (es es' : List (Event α)) :
    q.after (es ++ es') = (q.after es).after es' := List.foldl_append

theorem puts_append (es es' : List (Event α)) :
    puts (es ++ es') = puts es ++ puts es' := by
  induction es with
  | nil => rfl
  | cons e es ih =>
    cases e with
    | put x => exact congrArg (x :: ·) ih
    | take => exact ih

theorem puts_map_put (l : List α) : puts (l.map Event.put) = l := by
  induction l with
  | nil => rfl
  | cons x l ih => exact congrArg (x :: ·) ih

/-- **Nothing is lost, repeated or reordered**: what is taken out, followed by what is still
in, is what was put in. -/
theorem sent_append_pending (q : Queue α) (es : List (Event α)) :
    (q.after es).sent ++ (q.after es).pending = q.sent ++ q.pending ++ puts es := by
  induction es generalizing q with
  | nil => simp [Queue.after, puts]
  | cons e es ih =>
    rw [Queue.after, List.foldl_cons]
    refine (ih _).trans ?_
    cases e with
    | put x => simp [Queue.step, puts]
    | take =>
      cases hp : q.pending with
      | nil => simp [Queue.step, puts, hp]
      | cons x l => simp [Queue.step, puts, hp]

end Fifo
