/-
# Locks that are tested, then set

Threads that share a flag: a thread waits until it reads the flag clear, and in a later step
sets it and is inside; leaving, it clears the flag.  Between the two steps another thread
may read the flag clear as well.  `Safe.step` says that this is the only way in which two
threads get inside.
-/
import Mathlib

namespace TestAndSet

/-- Where a thread is: it has not arrived or has left, waits, has read the flag clear, or is
inside. -/
inductive Phase : Type where
  | outside : Phase
  | waiting : Phase
  | passed : Phase
  | inside : Phase
  deriving DecidableEq

/-- The flag and the threads. -/
structure Lock (ι : Type*) where
  taken : Bool
  phase : ι → Phase

variable {ι : Type*}

/-- The thread does not read the flag clear while another has done so and not yet set it. -/
def Careful (l : Lock ι) (i : ι) : Prop :=
  l.phase i = .waiting → l.taken = false → ∀ j, j ≠ i → l.phase j ≠ .passed

instance [Fintype ι] [DecidableEq ι] (l : Lock ι) (i : ι) : Decidable (Careful l i) :=
  inferInstanceAs (Decidable (_ → _ → ∀ _, _))

/-- A thread that does not wait is careful. -/
theorem careful_of_phase {l : Lock ι} {i : ι} {p : Phase} (h : l.phase i = p)
    (hp : p ≠ .waiting) : Careful l i := by
  intro hwait
  exact absurd (h.symm.trans hwait) hp

/-- The thread has read the flag clear, or is inside. -/
def Engaged (l : Lock ι) (i : ι) : Prop := l.phase i = .passed ∨ l.phase i = .inside

/-- One thread at most is past the test, and while one is inside the flag is set. -/
structure Safe (l : Lock ι) : Prop where
  one : ∀ i j, Engaged l i → Engaged l j → i = j
  taken : ∀ i, l.phase i = .inside → l.taken = true

/-- At most one thread is inside. -/
theorem Safe.exclusive {l : Lock ι} (h : Safe l) {i j : ι} (hi : l.phase i = .inside)
    (hj : l.phase j = .inside) : i = j :=
  h.one i j (Or.inr hi) (Or.inr hj)

/-! ## Steps -/

variable [DecidableEq ι]

/-- One thread moves. -/
def Lock.move (l : Lock ι) (i : ι) (taken : Bool) (p : Phase) : Lock ι :=
  ⟨taken, Function.update l.phase i p⟩

/-- The steps of a thread that concern the lock. -/
inductive Step (l : Lock ι) (i : ι) : Lock ι → Prop where
  | arrive (h : l.phase i = .outside) : Step l i (l.move i l.taken .waiting)
  | pass (h : l.phase i = .waiting) (free : l.taken = false) :
      Step l i (l.move i l.taken .passed)
  | take (h : l.phase i = .passed) : Step l i (l.move i true .inside)
  | leave (h : l.phase i = .inside) : Step l i (l.move i false .outside)

theorem phase_move_self (l : Lock ι) (i : ι) (taken : Bool) (p : Phase) :
    (l.move i taken p).phase i = p := Function.update_self _ _ _

theorem phase_move_of_ne {l : Lock ι} {i j : ι} {taken : Bool} {p : Phase} (h : j ≠ i) :
    (l.move i taken p).phase j = l.phase j := Function.update_of_ne h _ _

theorem engaged_move_of_ne {l : Lock ι} {i j : ι} {taken : Bool} {p : Phase} (h : j ≠ i) :
    Engaged (l.move i taken p) j ↔ Engaged l j := by
  rw [Engaged, Engaged, phase_move_of_ne h]

/-- A thread that is past the test alone may move there. -/
theorem one_move {l : Lock ι} {i : ι} (halone : ∀ j, j ≠ i → ¬ Engaged l j) (taken : Bool)
    (p : Phase) :
    ∀ j k, Engaged (l.move i taken p) j → Engaged (l.move i taken p) k → j = k := by
  have hself (j : ι) (hj : Engaged (l.move i taken p) j) : j = i := by
    by_contra hne
    exact halone j hne ((engaged_move_of_ne hne).mp hj)
  intro j k hj hk
  rw [hself j hj, hself k hk]

/-- **A careful step keeps the lock safe.** -/
theorem Safe.step {l l' : Lock ι} {i : ι} (h : Safe l) (hstep : Step l i l')
    (hcareful : Careful l i) : Safe l' := by
  have hleft (taken : Bool) (p : Phase) (hp : p = .outside ∨ p = .waiting) (j k : ι)
      (hj : Engaged (l.move i taken p) j) (hk : Engaged (l.move i taken p) k) : j = k := by
    have hne (m : ι) (hm : Engaged (l.move i taken p) m) : m ≠ i := by
      rintro rfl
      unfold Engaged at hm
      rw [phase_move_self] at hm
      rcases hp with rfl | rfl <;> exact absurd hm (by decide)
    exact h.one j k ((engaged_move_of_ne (hne j hj)).mp hj)
      ((engaged_move_of_ne (hne k hk)).mp hk)
  cases hstep with
  | arrive hi =>
    refine ⟨hleft _ _ (Or.inr rfl), fun j hj => ?_⟩
    by_cases hji : j = i
    · rw [hji, phase_move_self] at hj
      exact absurd hj (by decide)
    · rw [phase_move_of_ne hji] at hj
      exact h.taken j hj
  | pass hi hfree =>
    have halone (j : ι) (hji : j ≠ i) : ¬ Engaged l j := by
      rintro (hj | hj)
      · exact hcareful hi hfree j hji hj
      · exact absurd (h.taken j hj) (by simp [hfree])
    refine ⟨one_move halone _ _, fun j hj => ?_⟩
    by_cases hji : j = i
    · rw [hji, phase_move_self] at hj
      exact absurd hj (by decide)
    · rw [phase_move_of_ne hji] at hj
      exact absurd (Or.inr hj) (halone j hji)
  | take hi =>
    have halone (j : ι) (hji : j ≠ i) : ¬ Engaged l j := fun hj =>
      hji (h.one j i hj (Or.inl hi))
    exact ⟨one_move halone _ _, fun _ _ => rfl⟩
  | leave hi =>
    refine ⟨hleft _ _ (Or.inl rfl), fun j hj => ?_⟩
    by_cases hji : j = i
    · rw [hji, phase_move_self] at hj
      exact absurd hj (by decide)
    · rw [phase_move_of_ne hji] at hj
      exact absurd (h.exclusive hj hi) hji

/-! ## The flag -/

/-- The flag is set by a thread inside only. -/
def Held (l : Lock ι) : Prop := l.taken = true → ∃ i, l.phase i = .inside

/-- The flag after a move: cleared, or set with the thread inside, or as it was with a thread that
was not inside. -/
theorem Held.move {l : Lock ι} (h : Held l) {i : ι} {taken : Bool} {p : Phase}
    (hmove : taken = true → p = .inside ∨ l.taken = true ∧ l.phase i ≠ .inside) :
    Held (l.move i taken p) := by
  intro htaken
  rcases hmove htaken with rfl | ⟨hset, hout⟩
  · exact ⟨i, phase_move_self l i _ _⟩
  · obtain ⟨j, hj⟩ := h hset
    have hne : j ≠ i := fun hji => hout (hji ▸ hj)
    exact ⟨j, (phase_move_of_ne hne).trans hj⟩

end TestAndSet
