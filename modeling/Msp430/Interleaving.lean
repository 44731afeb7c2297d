/-
# Parties that take turns

A state on which several parties take turns in an order that no one controls.  The order is fair
when each party comes back again and again; then a party on which the others wait gets its turn,
and finds the state as it was.
-/
import Mathlib

namespace Interleaving

variable {σ ι : Type*}

section Runs

variable (turn : σ → ι → σ) (order : ℕ → ι) (s : σ)

/-- The state after the first `n` turns. -/
def runTurns : ℕ → σ
  | 0 => s
  | n + 1 => turn (runTurns n) (order n)

end Runs

/-- Every party comes back. -/
def Fair (order : ℕ → ι) : Prop := ∀ i n, ∃ k, n ≤ k ∧ order k = i

section Rules

variable {turn : σ → ι → σ} {order : ℕ → ι} {s t : σ} {n : ℕ}

/-- A state that no turn changes stays. -/
theorem runTurns_fixed (hfixed : ∀ i, turn t i = t) (hn : runTurns turn order s n = t) {k : ℕ}
    (hk : n ≤ k) : runTurns turn order s k = t := by
  induction k, hk using Nat.le_induction with
  | base => exact hn
  | succ k hk ih => rw [runTurns, ih, hfixed]

/-- What each turn keeps or adds to holds between any two states of a run. -/
theorem runTurns_rel {r : σ → σ → Prop} (hrefl : ∀ s, r s s)
    (htrans : ∀ {s t u}, r s t → r t u → r s u) (hturn : ∀ s i, r s (turn s i)) {k : ℕ}
    (hk : n ≤ k) : r (runTurns turn order s n) (runTurns turn order s k) := by
  induction k, hk using Nat.le_induction with
  | base => exact hrefl _
  | succ k hk ih => exact htrans ih (hturn _ _)

/-- **A party on which the others wait** gets its turn. -/
theorem Fair.takes (hfair : Fair order) {i : ι} (hothers : ∀ j, j ≠ i → turn t j = t)
    (hn : runTurns turn order s n = t) : ∃ k, n < k ∧ runTurns turn order s k = turn t i := by
  obtain ⟨k, hnk, hk⟩ := hfair i n
  obtain ⟨d, rfl⟩ := Nat.exists_eq_add_of_le hnk
  induction d generalizing n with
  | zero =>
    rw [Nat.add_zero] at hk
    exact ⟨n + 1, Nat.lt_succ_self n, by rw [runTurns, hn, hk]⟩
  | succ d ih =>
    by_cases hi : order n = i
    · exact ⟨n + 1, Nat.lt_succ_self n, by rw [runTurns, hn, hi]⟩
    · have hnext : runTurns turn order s (n + 1) = t := by rw [runTurns, hn, hothers _ hi]
      obtain ⟨k, hk', hrun⟩ := ih hnext (by omega) (by rwa [Nat.add_right_comm])
      exact ⟨k, by omega, hrun⟩

end Rules

end Interleaving
