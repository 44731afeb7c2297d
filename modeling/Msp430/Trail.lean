/-
# Trails

A machine that takes steps `f` while other things happen to it.  `Follows` says of a list of
states that they are the ones from which the steps were taken on the way from one state to
another, each the outcome of the step before as far as a view shows it.  What the steps keep
and what they put out can then be read off the list.
-/
import Msp430.Footprint

namespace Trail

variable {σ τ γ β α : Type*}

/-- The states from which `f` was taken, between a first state and a last. -/
inductive Follows (f : σ → σ) (view : σ → γ) : σ → List σ → σ → Prop where
  | rest {s t : σ} (h : view t = view s) : Follows f view s [] t
  | step {s e t : σ} {l : List σ} (h : view e = view s) (hl : Follows f view (f e) l t) :
      Follows f view s (e :: l) t

section Rules

variable {f : σ → σ} {view : σ → γ} {s t u : σ} {l l' : List σ}

theorem Follows.refl (s : σ) : Follows f view s [] s := .rest rfl

theorem Follows.congr_left (h : Follows f view s l t) {s' : σ} (hs : view s = view s') :
    Follows f view s' l t := by
  cases h with
  | rest h => exact .rest (h.trans hs)
  | step h hl => exact .step (h.trans hs) hl

theorem Follows.congr_right (h : Follows f view s l t) {t' : σ} (ht : view t' = view t) :
    Follows f view s l t' := by
  induction h with
  | rest h => exact .rest (ht.trans h)
  | step h _ ih => exact .step h (ih ht)

theorem Follows.append (h : Follows f view s l t) (h' : Follows f view t l' u) :
    Follows f view s (l ++ l') u := by
  induction h with
  | rest h => exact h'.congr_left h
  | step h _ ih => exact .step h (ih h')

/-- The first state looks like the one before it. -/
theorem Follows.first (h : Follows f view s l t) {e : σ} (he : l[0]? = some e) :
    view e = view s := by
  cases h with
  | rest h => simp at he
  | step h hl =>
    obtain rfl := Option.some.inj he
    exact h

/-- Each state looks like the outcome of the one before it. -/
theorem Follows.next (h : Follows f view s l t) {i : ℕ} {e e' : σ} (he : l[i]? = some e)
    (he' : l[i + 1]? = some e') : view e' = view (f e) := by
  induction h generalizing i with
  | rest h => simp at he
  | step h hl ih =>
    cases i with
    | zero =>
      obtain rfl := Option.some.inj he
      exact hl.first (by simpa using he')
    | succ i => exact ih (by simpa using he) (by simpa using he')

/-- Steps in a row. -/
theorem follows_gather (n : ℕ) (s : σ) :
    Follows f view s (Footprint.gather f (fun e => [e]) n s) (f^[n] s) := by
  induction n generalizing s with
  | zero => exact .refl s
  | succ n ih => exact .step rfl (ih (f s))

/-- **Invariants**: what the first state has and the steps keep, every state has. -/
theorem Follows.invariant (h : Follows f view s l t) {I : γ → Prop} (hs : I (view s))
    (hkeep : ∀ e ∈ l, I (view e) → I (view (f e))) : (∀ e ∈ l, I (view e)) ∧ I (view t) := by
  induction h with
  | rest h =>
    rw [h]
    exact ⟨fun e he => absurd he List.not_mem_nil, hs⟩
  | step h _ ih =>
    rw [← h] at hs
    obtain ⟨hl, ht⟩ := ih (hkeep _ List.mem_cons_self hs)
      fun e he => hkeep e (List.mem_cons_of_mem _ he)
    exact ⟨List.forall_mem_cons.mpr ⟨hs, hl⟩, ht⟩

/-- **Output**: what the steps append, in order. -/
theorem Follows.output (h : Follows f view s l t) (out : γ → List β) (sent : σ → List β)
    (hsent : ∀ e ∈ l, out (view (f e)) = out (view e) ++ sent e) :
    out (view t) = out (view s) ++ l.flatMap sent := by
  induction h with
  | rest h => rw [h, List.flatMap_nil, List.append_nil]
  | step h _ ih =>
    rw [ih fun e he => hsent e (List.mem_cons_of_mem _ he), hsent _ List.mem_cons_self, h,
      List.flatMap_cons, List.append_assoc]

end Rules

/-- A view that the steps keep is kept by any number of them. -/
theorem view_iterate {f : σ → σ} {view : σ → γ} (h : ∀ s, view (f s) = view s) (n : ℕ) (s : σ) :
    view (f^[n] s) = view s := by
  have hkeep : Function.Semiconj view f id := h
  have hrun := hkeep.iterate_right n s
  rwa [Function.iterate_id] at hrun

/-! ## Marked outputs -/

/-- **Two selections of the same outputs are equal exactly when they select alike**, if one of
them goes by the value that is put out. -/
theorem flatMap_selected_eq_iff (l : List σ) (c : σ → β) (good : β → Prop) (p : σ → Prop)
    [DecidablePred good] [DecidablePred p] :
    (l.flatMap fun e => if good (c e) then [c e] else [])
        = (l.flatMap fun e => if p e then [c e] else [])
      ↔ ∀ e ∈ l, p e ↔ good (c e) := by
  have hfilter (q : σ → Prop) [DecidablePred q] :
      (l.flatMap fun e => if q e then [c e] else []) = (l.filter fun e => q e).map c := by
    induction l with
    | nil => rfl
    | cons e l ih =>
      rw [List.flatMap_cons, ih, List.filter_cons]
      by_cases hq : q e <;> simp [hq]
  rw [hfilter fun e => good (c e), hfilter p]
  constructor
  · intro heq
    -- what the other selection puts out is good, so that it is part of the first
    have hgood : ∀ e ∈ l, p e → good (c e) := by
      intro e he hp
      have hmem : c e ∈ (l.filter fun e => p e).map c :=
        List.mem_map_of_mem (List.mem_filter.mpr ⟨he, by simpa using hp⟩)
      rw [← heq] at hmem
      obtain ⟨e', he', hc⟩ := List.mem_map.mp hmem
      rw [← hc]
      simpa using (List.mem_filter.mp he').2
    have hsub : (l.filter fun e => p e) = (l.filter fun e => good (c e)).filter fun e => p e := by
      rw [List.filter_filter]
      apply List.filter_congr
      intro e he
      by_cases hp : p e
      · simp [hp, hgood e he hp]
      · simp [hp]
    have hlen : ((l.filter fun e => good (c e)).filter fun e => p e).length
        = (l.filter fun e => good (c e)).length := by
      rw [← hsub, ← List.length_map (f := c), ← heq, List.length_map]
    have hall := List.length_filter_eq_length_iff.mp hlen
    intro e he
    refine ⟨hgood e he, fun hg => ?_⟩
    simpa using hall e (List.mem_filter.mpr ⟨he, by simpa using hg⟩)
  · intro hiff
    rw [List.filter_congr fun e he => decide_eq_decide.mpr (hiff e he).symm]

/-! ## Sessions -/

/-- What comes of the events one after the other, such as the states from which steps are
taken; the session ends where an event is impossible. -/
def taken (perform : τ → α → Option τ) (steps : τ → α → List β) : τ → List α → List β
  | _, [] => []
  | s, a :: as => steps s a ++
    match perform s a with
    | none => []
    | some s' => taken perform steps s' as

section Sessions

variable {perform : τ → α → Option τ} {s t : τ}

theorem taken_append {steps : τ → α → List β} {as bs : List α} (h : as.foldlM perform s = some t) :
    taken perform steps s (as ++ bs)
      = taken perform steps s as ++ taken perform steps t bs := by
  induction as generalizing s with
  | nil =>
    obtain rfl := Option.some.inj h
    rfl
  | cons a as ih =>
    rw [List.foldlM_cons] at h
    cases ha : perform s a with
    | none => simp [ha] at h
    | some s' =>
      rw [List.cons_append, taken, taken, ha]
      simp only
      rw [ih (by simpa [ha] using h), List.append_assoc]

/-- **Two sessions side by side**: events that keep two states related keep them so to the end,
or are impossible in both. -/
theorem rel_session {R : τ → τ → Prop}
    (hstep : ∀ a s s', R s s' → Option.Rel R (perform s a) (perform s' a)) (as : List α)
    {s' : τ} (h : R s s') : Option.Rel R (as.foldlM perform s) (as.foldlM perform s') := by
  induction as generalizing s s' with
  | nil => exact .some h
  | cons a as ih =>
    have hrel := hstep a s s' h
    rw [List.foldlM_cons, List.foldlM_cons]
    generalize perform s a = o, perform s' a = o' at hrel ⊢
    cases hrel with
    | some hnext => exact ih hnext
    | none => exact .none

/-- **A session** leaves the trail of its events, in the part of the state that steps. -/
theorem follows_taken {f : σ → σ} {view : σ → γ} {steps : τ → α → List σ} (part : τ → σ)
    {as : List α} (hstep : ∀ a ∈ as, ∀ s s', perform s a = some s' →
      Follows f view (part s) (steps s a) (part s'))
    (h : as.foldlM perform s = some t) :
    Follows f view (part s) (taken perform steps s as) (part t) := by
  induction as generalizing s with
  | nil =>
    obtain rfl := Option.some.inj h
    exact .refl _
  | cons a as ih =>
    rw [List.foldlM_cons] at h
    cases ha : perform s a with
    | none => simp [ha] at h
    | some s' =>
      rw [taken, ha]
      exact (hstep a List.mem_cons_self s s' ha).append
        (ih (fun b hb => hstep b (List.mem_cons_of_mem _ hb)) (by simpa [ha] using h))

end Sessions

/-! ## Conditions along a session -/

/-- Each event meets a condition in the state it happens in. -/
def Along (perform : τ → α → Option τ) (P : τ → α → Prop) : τ → List α → Prop
  | _, [] => True
  | s, a :: as => P s a ∧ ∀ t ∈ perform s a, Along perform P t as

instance decidableAlong {perform : τ → α → Option τ} {P : τ → α → Prop}
    [∀ s a, Decidable (P s a)] : (s : τ) → (as : List α) → Decidable (Along perform P s as)
  | _, [] => isTrue trivial
  | s, a :: as =>
    match h : perform s a with
    | none => decidable_of_iff (P s a)
        ⟨fun hp => ⟨hp, fun t ht => absurd (h.symm.trans ht) (by simp)⟩, fun hp => hp.1⟩
    | some t =>
      have : Decidable (Along perform P t as) := decidableAlong t as
      decidable_of_iff (P s a ∧ Along perform P t as)
        ⟨fun hp => ⟨hp.1, fun u hu => Option.some.inj (h.symm.trans hu) ▸ hp.2⟩,
          fun hp => ⟨hp.1, hp.2 t h⟩⟩

section Moves

variable {ρ μ : Type*} {perform : τ → α → Option τ} {P : τ → α → Prop}

/-- **A session is matched by its moves**: where each event keeps the relation when the other
side makes the moves that stand for it, perhaps none, the session does. -/
theorem rel_taken {R : ρ → τ → Prop} {apply : ρ → μ → ρ} {moves : τ → α → List μ}
    (hevent : ∀ {s t t' a}, P t a → R s t → perform t a = some t' →
      R ((moves t a).foldl apply s) t')
    {s : ρ} {t t' : τ} {as : List α} (hP : Along perform P t as) (hst : R s t)
    (h : as.foldlM perform t = some t') :
    R ((taken perform moves t as).foldl apply s) t' := by
  induction as generalizing s t with
  | nil =>
    obtain rfl := Option.some.inj h
    exact hst
  | cons a as ih =>
    rw [List.foldlM_cons] at h
    rcases hP with ⟨ha, hrest⟩
    cases hperform : perform t a with
    | none => simp [hperform] at h
    | some u =>
      rw [taken, hperform, List.foldl_append]
      apply ih (hrest u hperform) (hevent ha hst hperform)
      simpa [hperform] using h

end Moves

end Trail
