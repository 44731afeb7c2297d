/-
# Polling

A loop that takes one reading after another until one passes, and the same loop several times
in a row.  Readings are numbered; a run with enough fuel returns the number behind the reading
that ended it.
-/
import Mathlib

namespace Polling

/-- Take the readings from the `n`-th on until one passes. -/
def poll (pass : ℕ → Bool) : ℕ → ℕ → Option ℕ
  | 0, _ => none
  | fuel + 1, n => if pass n then some (n + 1) else poll pass fuel (n + 1)

/-- Poll `rounds` times; what passes in a round depends on the reading with which it starts. -/
def pollRounds (pass : ℕ → ℕ → Bool) (fuel : ℕ) : ℕ → ℕ → Option ℕ
  | 0, n => some n
  | rounds + 1, n => (poll (pass n) fuel (n + 1)).bind (pollRounds pass fuel rounds)

/-- The rounds end, given enough fuel. -/
def Returns (pass : ℕ → ℕ → Bool) (rounds n : ℕ) : Prop :=
  ∃ fuel, (pollRounds pass fuel rounds n).isSome = true

variable {pass : ℕ → Bool}

/-- More fuel changes nothing. -/
theorem poll_mono {fuel fuel' n m : ℕ} (hle : fuel ≤ fuel') (h : poll pass fuel n = some m) :
    poll pass fuel' n = some m := by
  induction fuel generalizing fuel' n with
  | zero => simp [poll] at h
  | succ fuel ih =>
    obtain ⟨k, rfl⟩ : ∃ k, fuel' = k + 1 := ⟨fuel' - 1, by omega⟩
    rw [poll] at h ⊢
    split_ifs at h ⊢ with hpass
    · exact h
    · exact ih (by omega) h

/-- **A loop ends** when some reading passes. -/
theorem exists_poll {n k : ℕ} (hnk : n ≤ k) (h : pass k = true) :
    ∃ fuel m, poll pass fuel n = some m := by
  obtain ⟨d, rfl⟩ := Nat.exists_eq_add_of_le hnk
  induction d generalizing n with
  | zero => exact ⟨1, n + 1, by rw [poll]; exact if_pos h⟩
  | succ d ih =>
    by_cases hn : pass n = true
    · exact ⟨1, n + 1, by rw [poll, if_pos hn]⟩
    · obtain ⟨fuel, m, hm⟩ := ih (n := n + 1) (by omega) (by rwa [Nat.add_right_comm])
      exact ⟨fuel + 1, m, by rw [poll, if_neg hn, hm]⟩

/-- A loop in which no reading passes does not end. -/
theorem poll_eq_none (h : ∀ k, pass k = false) (fuel n : ℕ) : poll pass fuel n = none := by
  induction fuel generalizing n with
  | zero => rfl
  | succ fuel ih =>
    rw [poll, h n]
    exact ih (n + 1)

variable {pass : ℕ → ℕ → Bool}

theorem pollRounds_mono {fuel fuel' rounds n m : ℕ} (hle : fuel ≤ fuel')
    (h : pollRounds pass fuel rounds n = some m) : pollRounds pass fuel' rounds n = some m := by
  induction rounds generalizing n with
  | zero => exact h
  | succ rounds ih =>
    rw [pollRounds, Option.bind_eq_some_iff] at h ⊢
    obtain ⟨k, hk, hrest⟩ := h
    exact ⟨k, poll_mono hle hk, ih hrest⟩

/-- **The rounds end** when in each some later reading passes. -/
theorem returns_of_exists (h : ∀ n, ∃ k, n < k ∧ pass n k = true) (rounds n : ℕ) :
    Returns pass rounds n := by
  induction rounds generalizing n with
  | zero => exact ⟨0, rfl⟩
  | succ rounds ih =>
    obtain ⟨k, hnk, hk⟩ := h n
    obtain ⟨fuel, m, hm⟩ := exists_poll hnk hk
    obtain ⟨fuel', hrest⟩ := ih m
    obtain ⟨last, hlast⟩ := Option.isSome_iff_exists.mp hrest
    refine ⟨max fuel fuel', ?_⟩
    rw [pollRounds, poll_mono (le_max_left _ _) hm, Option.bind_some,
      pollRounds_mono (le_max_right _ _) hlast]
    rfl

/-- Rounds in which no reading passes do not end, unless there are none. -/
theorem returns_iff_of_never (h : ∀ n k, pass n k = false) (rounds n : ℕ) :
    Returns pass rounds n ↔ rounds = 0 := by
  cases rounds with
  | zero => exact iff_of_true ⟨0, rfl⟩ rfl
  | succ rounds =>
    refine iff_of_false ?_ (Nat.succ_ne_zero rounds)
    rintro ⟨fuel, hsome⟩
    rw [pollRounds, poll_eq_none (h n)] at hsome
    exact absurd hsome (by simp)

end Polling
