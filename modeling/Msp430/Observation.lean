/-
# Inspections that leave no trace

A deterministic machine is stepped, and between the steps it is looked at.  A relation `R`
says which differences between states do not count.  If steps keep `R` and looks stay
within `R`, then a run with looks anywhere in it ends where the run without them ends.
-/
import Mathlib

namespace Observation

variable {σ : Type*}

/-- What is done to the machine. -/
inductive Action : Type where
  | step : Action
  | look : Action
  deriving DecidableEq

/-- A run of steps and looks. -/
def run (step look : σ → σ) : List Action → σ → σ
  | [], a => a
  | .step :: l, a => run step look l (step a)
  | .look :: l, a => run step look l (look a)

/-- The number of steps in a run. -/
def steps (l : List Action) : ℕ := l.count .step

@[simp] theorem steps_cons_step (l : List Action) : steps (.step :: l) = steps l + 1 := by
  simp [steps]

@[simp] theorem steps_cons_look (l : List Action) : steps (.look :: l) = steps l := by
  simp [steps]

@[simp] theorem steps_replicate (n : ℕ) : steps (List.replicate n .step) = n := by
  simp [steps]

theorem steps_append (k l : List Action) : steps (k ++ l) = steps k + steps l :=
  List.count_append

theorem run_append (step look : σ → σ) (k l : List Action) (a : σ) :
    run step look (k ++ l) a = run step look l (run step look k a) := by
  induction k generalizing a with
  | nil => rfl
  | cons x k ih =>
    cases x with
    | step => exact ih (step a)
    | look => exact ih (look a)

/-- A run of steps alone is an iteration. -/
theorem run_replicate (step look : σ → σ) (n : ℕ) (a : σ) :
    run step look (List.replicate n .step) a = step^[n] a := by
  induction n generalizing a with
  | zero => rfl
  | succ n ih => exact ih (step a)

/-! ## Runs that a relation does not see -/

section Relation

variable (R : σ → σ → Prop) (step look : σ → σ) (Steps Looks : σ → Prop)

/-- The machine is stepped and looked at in the states that allow it. -/
def Allowed : List Action → σ → Prop
  | [], _ => True
  | .step :: l, a => Steps a ∧ Allowed l (step a)
  | .look :: l, a => Looks a ∧ Allowed l a

theorem allowed_append (k l : List Action) (a : σ) :
    Allowed step Steps Looks (k ++ l) a
      ↔ Allowed step Steps Looks k a ∧ Allowed step Steps Looks l (step^[steps k] a) := by
  induction k generalizing a with
  | nil => exact ⟨fun h => ⟨trivial, h⟩, fun h => h.2⟩
  | cons x k ih =>
    cases x with
    | step =>
      rw [steps_cons_step, Function.iterate_succ_apply, List.cons_append, Allowed, Allowed,
        ih, and_assoc]
    | look => rw [steps_cons_look, List.cons_append, Allowed, Allowed, ih, and_assoc]

theorem allowed_replicate (n : ℕ) (a : σ) :
    Allowed step Steps Looks (List.replicate n .step) a
      ↔ ∀ k < n, Steps (step^[k] a) := by
  induction n generalizing a with
  | zero => simp [Allowed]
  | succ n ih =>
    rw [List.replicate_succ, Allowed, ih]
    constructor
    · rintro ⟨h0, hrest⟩ k hk
      cases k with
      | zero => exact h0
      | succ k => exact hrest k (by omega)
    · intro h
      exact ⟨h 0 (Nat.succ_pos _), fun k hk => h (k + 1) (by omega)⟩

variable {R step look Steps Looks}

/-- **A run with looks and the run of its steps end alike**, where steps keep the relation
and looks stay within it. -/
theorem run_rel (hstep : ∀ a b, Steps a → R a b → R (step a) (step b))
    (hlook : ∀ a b, Looks a → R a b → R a (look b)) (l : List Action) {a b : σ}
    (hl : Allowed step Steps Looks l a) (hab : R a b) :
    R (step^[steps l] a) (run step look l b) := by
  induction l generalizing a b with
  | nil => exact hab
  | cons x l ih =>
    cases x with
    | step =>
      rw [steps_cons_step, Function.iterate_succ_apply]
      exact ih hl.2 (hstep a b hl.1 hab)
    | look =>
      rw [steps_cons_look]
      exact ih hl.2 (hlook a b hl.1 hab)

end Relation

end Observation
