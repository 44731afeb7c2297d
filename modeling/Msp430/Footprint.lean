/-
# Footprints

A step of a machine whose state contains a memory.  `UsesOnly` says that a list of cells
covers all that the step reads and writes: on a memory that agrees on these cells the step
does the same, and every other cell is left as it is.
-/
import Mathlib

namespace Footprint

variable {σ α β : Type*}

/-- The memory in a state: what its cells hold, and the state with other contents. -/
structure Cells (σ α β : Type*) where
  get : σ → α → β
  set : σ → (α → β) → σ
  get_set : ∀ s m, get (set s m) = m
  set_get : ∀ s, set s (get s) = s
  set_set : ∀ s m m', set (set s m) m' = set s m'

/-- The contents `new` on the listed cells, `old` elsewhere. -/
def overlay [DecidableEq α] (l : List α) (new old : α → β) (a : α) : β :=
  if a ∈ l then new a else old a

/-- What is gathered along the first `n` steps. -/
def gather {γ : Type*} (f : σ → σ) (g : σ → List γ) : ℕ → σ → List γ
  | 0, _ => []
  | n + 1, s => g s ++ gather f g n (f s)

theorem mem_gather_iff {γ : Type*} (f : σ → σ) (g : σ → List γ) (n : ℕ) (s : σ) (x : γ) :
    x ∈ gather f g n s ↔ ∃ k < n, x ∈ g (f^[k] s) := by
  induction n generalizing s with
  | zero => simp [gather]
  | succ n ih =>
    rw [gather, List.mem_append, ih]
    constructor
    · rintro (h | ⟨k, hk, h⟩)
      · exact ⟨0, Nat.succ_pos n, h⟩
      · exact ⟨k + 1, by omega, h⟩
    · rintro ⟨k, hk, h⟩
      cases k with
      | zero => exact Or.inl h
      | succ k => exact Or.inr ⟨k, by omega, h⟩

/-- What holds of all that is gathered holds of all that each step contributes. -/
theorem forall_gather_iff {γ : Type*} (f : σ → σ) (g : σ → List γ) (n : ℕ) (s : σ)
    (P : γ → Prop) : (∀ x ∈ gather f g n s, P x) ↔ ∀ k < n, ∀ x ∈ g (f^[k] s), P x := by
  simp only [mem_gather_iff]
  constructor
  · intro h k hk x hx
    exact h x ⟨k, hk, hx⟩
  · rintro h x ⟨k, hk, hx⟩
    exact h k hk x hx

section Rules

variable [DecidableEq α] {M : Cells σ α β}

/-- The step uses no cell that is not listed. -/
def UsesOnly (M : Cells σ α β) (f : σ → σ) (s : σ) (l : List α) : Prop :=
  ∀ m, (∀ a ∈ l, m a = M.get s a) → f (M.set s m) = M.set (f s) (overlay l (M.get (f s)) m)

variable {f g : σ → σ} {s : σ} {l l' : List α}

/-- A cell that is not listed keeps its contents. -/
theorem UsesOnly.frame (h : UsesOnly M f s l) {a : α} (ha : a ∉ l) :
    M.get (f s) a = M.get s a := by
  have hself := h (M.get s) fun _ _ => rfl
  rw [M.set_get] at hself
  have hget := congrArg (fun t => M.get t a) hself
  rwa [M.get_set, overlay, if_neg ha] at hget

/-- More cells may be listed. -/
theorem UsesOnly.mono (h : UsesOnly M f s l) (hl : ∀ a ∈ l, a ∈ l') : UsesOnly M f s l' := by
  intro m hm
  rw [h m fun a ha => hm a (hl a ha)]
  congr 1
  funext a
  unfold overlay
  by_cases ha : a ∈ l
  · rw [if_pos ha, if_pos (hl a ha)]
  · rw [if_neg ha]
    split_ifs with ha'
    · rw [hm a ha', h.frame ha]
    · rfl

/-- **One step after another.** -/
theorem UsesOnly.comp (h : UsesOnly M f s l) (h' : UsesOnly M g (f s) l') :
    UsesOnly M (g ∘ f) s (l ++ l') := by
  intro m hm
  have hfirst := h m fun a ha => hm a (List.mem_append_left _ ha)
  have hagree : ∀ a ∈ l', overlay l (M.get (f s)) m a = M.get (f s) a := by
    intro a ha
    unfold overlay
    split_ifs with hal
    · rfl
    · rw [hm a (List.mem_append_right _ ha), h.frame hal]
  rw [Function.comp_apply, hfirst, h' _ hagree]
  congr 1
  funext a
  unfold overlay
  by_cases ha' : a ∈ l'
  · rw [if_pos ha', if_pos (List.mem_append_right _ ha')]
    rfl
  · by_cases ha : a ∈ l
    · rw [if_neg ha', if_pos ha, if_pos (List.mem_append_left _ ha), Function.comp_apply,
        h'.frame ha']
    · rw [if_neg ha', if_neg ha, if_neg (by simp [ha, ha'])]

/-- **A run** uses what its steps use. -/
theorem UsesOnly.iterate {use : σ → List α} (h : ∀ s, UsesOnly M f s (use s)) (n : ℕ) (s : σ) :
    UsesOnly M f^[n] s (gather f use n s) := by
  induction n generalizing s with
  | zero =>
    intro m _
    rw [Function.iterate_zero_apply, Function.iterate_zero_apply]
    congr 1
  | succ n ih =>
    rw [Function.iterate_succ]
    exact (h s).comp (ih (f s))

end Rules

end Footprint
