/-
# Total correctness of runs

A deterministic machine takes steps, and some of them are good.  `Leads Q s` says that good
steps lead from `s` to a state with `Q`: a total-correctness judgement, with the rules of one
(sequence, consequence, a loop that counts down).  A second machine, which may stop short, reaches
what the first is led to if it follows the first through good steps.
-/
import Mathlib

namespace Progress

variable {σ τ : Type*}

/-- A number of turns, each of which may get stuck. -/
def turns (f : τ → Option τ) : ℕ → τ → Option τ
  | 0, t => some t
  | n + 1, t => (f t).bind (turns f n)

/-- Good steps lead from a state to one with `Q`. -/
inductive Leads (step : σ → Option σ) (Good : σ → Prop) (Q : σ → Prop) : σ → Prop where
  | here {s : σ} (h : Q s) : Leads step Good Q s
  | next {s s' : σ} (hgood : Good s) (hstep : step s = some s') (rest : Leads step Good Q s') :
      Leads step Good Q s

namespace Leads

variable {step : σ → Option σ} {Good : σ → Prop} {P Q : σ → Prop} {s : σ}

/-- Sequence. -/
theorem trans (h : Leads step Good P s) (hrest : ∀ s', P s' → Leads step Good Q s') :
    Leads step Good Q s := by
  induction h with
  | here hp => exact hrest _ hp
  | next hgood hstep _ ih => exact .next hgood hstep ih

/-- Consequence. -/
theorem mono (h : Leads step Good P s) (hpq : ∀ s', P s' → Q s') : Leads step Good Q s :=
  h.trans fun s' hp => .here (hpq s' hp)

/-- One step. -/
theorem one {s' : σ} (hgood : Good s) (hstep : step s = some s') (h : Q s') :
    Leads step Good Q s :=
  .next hgood hstep (.here h)

/-- A loop whose body takes the invariant one down leads all the way down. -/
theorem loop {I : ℕ → σ → Prop} (hbody : ∀ n s, I (n + 1) s → Leads step Good (I n) s) (n : ℕ)
    (h : I n s) : Leads step Good (I 0) s := by
  induction n generalizing s with
  | zero => exact .here h
  | succ n ih => exact (hbody n s h).trans fun s' hs' => ih hs'

/-- **Following.**  A machine that keeps an invariant, and takes a turn where a good step goes to a
state with `C`, reaches what the steps lead to, if good states and the last one have `C`. -/
theorem follow {view : τ → σ} {f : τ → Option τ} {Inv : τ → Prop} {C : σ → Prop}
    (hgood : ∀ s, Good s → C s) (hlast : ∀ s, Q s → C s)
    (hfollow : ∀ t s', Inv t → Good (view t) → step (view t) = some s' → C s' →
      ∃ t', f t = some t' ∧ view t' = s' ∧ Inv t') {t : τ} (hinv : Inv t)
    (h : Leads step Good Q (view t)) : ∃ k t', turns f k t = some t' ∧ Q (view t') ∧ Inv t' := by
  obtain ⟨s, hs⟩ : ∃ s, s = view t := ⟨_, rfl⟩
  rw [← hs] at h
  induction h generalizing t with
  | here hq => exact ⟨0, t, rfl, hs ▸ hq, hinv⟩
  | @next s s' hg hstep rest ih =>
    subst hs
    have hnext : C s' := by
      cases rest with
      | here hq => exact hlast _ hq
      | next hg' _ _ => exact hgood _ hg'
    obtain ⟨t', hturn, hview, hinv'⟩ := hfollow t _ hinv hg hstep hnext
    obtain ⟨k, t'', hturns, hq, hlast'⟩ := ih hinv' hview.symm
    refine ⟨k + 1, t'', ?_, hq, hlast'⟩
    rw [turns, hturn]
    exact hturns

end Leads

end Progress
