/-
# Edge detectors

A two-valued signal that is sampled again and again, a sample being absent while the signal
is not driven.  The detector remembers the level it has reported last and reports a sample
that differs from it.  The reports alternate, and the last of them is the level.
-/
import Mathlib

namespace EdgeDetector

/-- The level that the samples leave: the last one that is present. -/
def lastDriven (start : Bool) (samples : List (Option Bool)) : Bool :=
  samples.reduceOption.getLastD start

/-- The reports of a detector that has reported `shown` last. -/
def edges (shown : Bool) : List (Option Bool) → List Bool
  | [] => []
  | none :: samples => edges shown samples
  | some b :: samples => if b = shown then edges shown samples else b :: edges b samples

/-- The list alternates, beginning with `first`. -/
def Alternating (first : Bool) : List Bool → Prop
  | [] => True
  | b :: l => b = first ∧ Alternating (!first) l

theorem lastDriven_none (start : Bool) (samples : List (Option Bool)) :
    lastDriven start (none :: samples) = lastDriven start samples := rfl

theorem lastDriven_some (start b : Bool) (samples : List (Option Bool)) :
    lastDriven start (some b :: samples) = lastDriven b samples := by
  rw [lastDriven, List.reduceOption_cons_of_some, List.getLastD_cons, lastDriven]

/-- **The reports alternate**, beginning with the other level. -/
theorem alternating_edges (shown : Bool) (samples : List (Option Bool)) :
    Alternating (!shown) (edges shown samples) := by
  induction samples generalizing shown with
  | nil => trivial
  | cons sample samples ih =>
    cases sample with
    | none => exact ih shown
    | some b =>
      rw [edges]
      split_ifs with hb
      · exact ih shown
      · have hother : b = !shown := Bool.eq_not_of_ne hb
        exact ⟨hother, hother ▸ ih b⟩

/-- **Replaying the reports** gives the level. -/
theorem getLastD_edges (shown : Bool) (samples : List (Option Bool)) :
    (edges shown samples).getLastD shown = lastDriven shown samples := by
  induction samples generalizing shown with
  | nil => rfl
  | cons sample samples ih =>
    cases sample with
    | none => rw [edges, lastDriven_none, ih]
    | some b =>
      rw [edges, lastDriven_some]
      split_ifs with hb
      · rw [ih shown, hb]
      · rw [List.getLastD_cons, ih b]

/-- Further samples are compared with the level that the earlier ones leave. -/
theorem edges_append (shown : Bool) (samples samples' : List (Option Bool)) :
    edges shown (samples ++ samples')
      = edges shown samples ++ edges (lastDriven shown samples) samples' := by
  induction samples generalizing shown with
  | nil => rfl
  | cons sample samples ih =>
    cases sample with
    | none => rw [List.cons_append, edges, edges, lastDriven_none, ih]
    | some b =>
      rw [List.cons_append, edges, edges, lastDriven_some, ih, ih]
      split_ifs with hb
      · rw [hb]
      · rfl

end EdgeDetector
