/-
# Machines that emit

A machine that takes one action at a time and emits symbols while it does, not always the same
ones.  `Emits` collects its runs with all that they emit, and with the trail that the actions
leave.  An observer reads the symbols one after the other; what relates the state and the trail to
what the observer knows, and is kept by every action with the symbols it emits, relates them
throughout.
-/
import Msp430.Reachability

namespace Emission

open Reachability

variable {σ α ο β γ : Type*}

/-- The runs by actions that meet the condition `P`, with what they emit and their trail. -/
inductive Emits (step : σ → α → Option σ) (Prints : σ → α → List ο → Prop) (marks : σ → α → List β)
    (P : σ → α → Prop) (start : σ) : List ο → List β → σ → Prop where
  | start : Emits step Prints marks P start [] [] start
  | step {s s' : σ} {a : α} {out more : List ο} {trail : List β}
      (h : Emits step Prints marks P start out trail s) (hp : P s a) (hstep : step s a = some s')
      (hprints : Prints s a more) :
      Emits step Prints marks P start (out ++ more) (trail ++ marks s a) s'

namespace Emits

variable {step : σ → α → Option σ} {Prints : σ → α → List ο → Prop} {marks : σ → α → List β}
  {P : σ → α → Prop} {start s : σ} {out : List ο} {trail : List β}

/-- A run under a weaker condition. -/
theorem mono {P' : σ → α → Prop} (h : Emits step Prints marks P start out trail s)
    (hp : ∀ s a, P s a → P' s a) : Emits step Prints marks P' start out trail s := by
  induction h with
  | start => exact .start
  | step _ hpa hstep hprints ih => exact ih.step (hp _ _ hpa) hstep hprints

/-- **Observation**: what relates the state and the trail to what an observer knows, and is kept by
the actions with the symbols they emit, relates them throughout. -/
theorem observed (h : Emits step Prints marks P start out trail s) {read : γ → ο → γ}
    {I : σ → List β → γ → Prop} {c : γ} (hstart : I start [] c)
    (hkeep : ∀ s a s' trail more c, I s trail c → P s a → step s a = some s' → Prints s a more →
      I s' (trail ++ marks s a) (more.foldl read c)) : I s trail (out.foldl read c) := by
  induction h with
  | start => exact hstart
  | step _ hp hstep hprints ih =>
    rw [List.foldl_append]
    exact hkeep _ _ _ _ _ _ ih hp hstep hprints

end Emits

end Emission
