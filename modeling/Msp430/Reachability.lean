/-
# Reachable states

A machine that takes one action at a time, each of which may be impossible.  `ReachedBy`
collects the states that it reaches by actions that meet a condition; what holds at the start
and is kept by such actions holds in all of them.
-/
import Mathlib

namespace Reachability

variable {σ α : Type*}

/-- The states reached from a start by steps that meet the condition `P`. -/
inductive ReachedBy (step : σ → α → Option σ) (P : σ → α → Prop) (start : σ) : σ → Prop where
  | start : ReachedBy step P start start
  | step {s s' : σ} {a : α} (h : ReachedBy step P start s) (hp : P s a)
      (hstep : step s a = some s') : ReachedBy step P start s'

/-- Any step. -/
def AnyStep (_ : σ) (_ : α) : Prop := True

section Rules

variable {step : σ → α → Option σ} {P : σ → α → Prop} {start s : σ}

/-- **Invariants**: what holds at the start and is kept by the steps holds throughout. -/
theorem ReachedBy.invariant (h : ReachedBy step P start s) {I : σ → Prop} (hstart : I start)
    (hkeep : ∀ s a s', I s → P s a → step s a = some s' → I s') : I s := by
  induction h with
  | start => exact hstart
  | step _ hp hstep ih => exact hkeep _ _ _ ih hp hstep

/-- A run of given actions. -/
theorem ReachedBy.run (h : ReachedBy step AnyStep start s) {as : List α} {s' : σ}
    (hrun : as.foldlM step s = some s') : ReachedBy step AnyStep start s' := by
  induction as generalizing s with
  | nil => exact Option.some.inj hrun ▸ h
  | cons a as ih =>
    rw [List.foldlM_cons] at hrun
    cases hstep : step s a with
    | none => simp [hstep] at hrun
    | some s₁ => exact ih (.step h trivial hstep) (by simpa [hstep] using hrun)

/-- One run behind another. -/
theorem ReachedBy.trans {t : σ} (h : ReachedBy step P start s) (h' : ReachedBy step P s t) :
    ReachedBy step P start t := by
  induction h' with
  | start => exact h
  | step _ hp hstep ih => exact ih.step hp hstep

/-- **Progress**: where a measure can always be made smaller until a goal is met, the goal is
reached. -/
theorem exists_reached {I goal : σ → Prop} (measure : σ → ℕ)
    (hprogress : ∀ s, I s → ¬ goal s →
      ∃ a s', P s a ∧ step s a = some s' ∧ I s' ∧ measure s' < measure s)
    {s : σ} (hs : I s) : ∃ s', ReachedBy step P s s' ∧ I s' ∧ goal s' := by
  obtain ⟨n, hn⟩ : ∃ n, n = measure s := ⟨_, rfl⟩
  induction n using Nat.strong_induction_on generalizing s with
  | _ n ih =>
    by_cases hgoal : goal s
    · exact ⟨s, .start, hs, hgoal⟩
    · obtain ⟨a, s', hp, hstep, hs', hlt⟩ := hprogress s hs hgoal
      obtain ⟨s'', hreached, hI, hgoal⟩ := ih (measure s') (by omega) hs' rfl
      exact ⟨s'', (ReachedBy.start.step hp hstep).trans hreached, hI, hgoal⟩

end Rules

end Reachability
