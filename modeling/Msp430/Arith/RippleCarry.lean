/-
# Ripple-carry addition

Numbers as little-endian lists of digits to a base `B`, added digit by digit with a carry
that is handed on.  The carry rule is a parameter: `chain` follows any rule, `carryOut` is
the right one.  `chain_right_iff`: a chain gives the sum and its carry exactly when its
rule is right at every position, on the carry that the lower digits really produce.
-/
import Mathlib

namespace RippleCarry

variable {B : ℕ}

/-! ## Chains -/

/-- The carry out of the sum of two digits and a carry. -/
def carryOut (B x y : ℕ) (c : Bool) : Bool := decide (B ≤ x + y + c.toNat)

/-- The digits and the final carry of a chain of additions that follows the carry rule
`f`. -/
def chain (B : ℕ) (f : ℕ → ℕ → Bool → Bool) : List (ℕ × ℕ) → Bool → List ℕ × Bool
  | [], c => ([], c)
  | (x, y) :: ps, c =>
    ((x + y + c.toNat) % B :: (chain B f ps (f x y c)).1, (chain B f ps (f x y c)).2)

/-- The carry that the digits below a position really produce. -/
def carryInto (B : ℕ) : List (ℕ × ℕ) → Bool → ℕ → Bool
  | _, c, 0 => c
  | [], c, _ + 1 => c
  | (x, y) :: ps, c, i + 1 => carryInto B ps (carryOut B x y c) i

/-- The number that the first digits of the pairs spell. -/
def left (B : ℕ) (ps : List (ℕ × ℕ)) : ℕ := Nat.ofDigits B (ps.map Prod.fst)

/-- The number that the second digits of the pairs spell. -/
def right (B : ℕ) (ps : List (ℕ × ℕ)) : ℕ := Nat.ofDigits B (ps.map Prod.snd)

/-- Both digits of every pair are below the base. -/
def Digits (B : ℕ) (ps : List (ℕ × ℕ)) : Prop := ∀ p ∈ ps, p.1 < B ∧ p.2 < B

theorem length_chain (f : ℕ → ℕ → Bool → Bool) (ps : List (ℕ × ℕ)) (c : Bool) :
    (chain B f ps c).1.length = ps.length := by
  induction ps generalizing c with
  | nil => rfl
  | cons p ps ih =>
    rw [chain, List.length_cons, List.length_cons, ih]

theorem chain_lt (hB : 0 < B) (f : ℕ → ℕ → Bool → Bool) (ps : List (ℕ × ℕ)) (c : Bool) :
    ∀ r ∈ (chain B f ps c).1, r < B := by
  induction ps generalizing c with
  | nil => simp [chain]
  | cons p ps ih =>
    intro r hr
    rw [chain, List.mem_cons] at hr
    rcases hr with rfl | hr
    · exact Nat.mod_lt _ hB
    · exact ih _ r hr

theorem ofDigits_chain_lt (hB : 2 ≤ B) (f : ℕ → ℕ → Bool → Bool) (ps : List (ℕ × ℕ))
    (c : Bool) : Nat.ofDigits B (chain B f ps c).1 < B ^ ps.length := by
  have hpos : 0 < B := by omega
  have h := Nat.ofDigits_lt_base_pow_length (show 1 < B by omega) (chain_lt hpos f ps c)
  rwa [length_chain] at h

/-! ## The right rule -/

/-- One digit of the sum, with its carry. -/
theorem digit_add_carry {x y : ℕ} (hx : x < B) (hy : y < B) (c : Bool) :
    (x + y + c.toNat) % B + B * (carryOut B x y c).toNat = x + y + c.toNat := by
  have hc : c.toNat ≤ 1 := Bool.toNat_le c
  by_cases h : B ≤ x + y + c.toNat
  · rw [carryOut, decide_eq_true h, Nat.mod_eq_sub_mod h, Nat.mod_eq_of_lt (by omega)]
    simp only [Bool.toNat_true]
    omega
  · rw [carryOut, decide_eq_false h, Nat.mod_eq_of_lt (by omega)]
    simp

/-- **The chain with the right rule adds.** -/
theorem ofDigits_chain (ps : List (ℕ × ℕ)) (hps : Digits B ps) (c : Bool) :
    Nat.ofDigits B (chain B (carryOut B) ps c).1
        + B ^ ps.length * (chain B (carryOut B) ps c).2.toNat
      = left B ps + right B ps + c.toNat := by
  induction ps generalizing c with
  | nil => simp [chain, left, right]
  | cons p ps ih =>
    obtain ⟨x, y⟩ := p
    obtain ⟨hx, hy⟩ := hps (x, y) List.mem_cons_self
    have htail := ih (fun p hp => hps p (List.mem_cons_of_mem _ hp)) (carryOut B x y c)
    have hhead := digit_add_carry hx hy c
    rw [left, right] at htail
    simp only [chain, left, right, List.map_cons, Nat.ofDigits_cons, List.length_cons,
      pow_succ]
    linear_combination B * htail + hhead

/-- The final carry of the chain with the right rule. -/
theorem carry_chain (hB : 2 ≤ B) (ps : List (ℕ × ℕ)) (hps : Digits B ps) (c : Bool) :
    (chain B (carryOut B) ps c).2
      = decide (B ^ ps.length ≤ left B ps + right B ps + c.toNat) := by
  have hsum := ofDigits_chain ps hps c
  have hlt := ofDigits_chain_lt hB (carryOut B) ps c
  rw [← hsum]
  cases (chain B (carryOut B) ps c).2 with
  | false => simp [hlt]
  | true => simp

/-- The carry into a position is the final carry of the chain below it. -/
theorem carryInto_eq_chain (ps : List (ℕ × ℕ)) (c : Bool) (i : ℕ) (hi : i ≤ ps.length) :
    carryInto B ps c i = (chain B (carryOut B) (ps.take i) c).2 := by
  induction ps generalizing c i with
  | nil =>
    have h0 : i = 0 := by simpa using hi
    rw [h0]
    rfl
  | cons p ps ih =>
    cases i with
    | zero => rfl
    | succ i =>
      rw [List.length_cons] at hi
      rw [carryInto, List.take_succ_cons, chain, ih _ i (by omega)]

/-- The carry into a position is the carry of the sum of the lower digits. -/
theorem carryInto_eq (hB : 2 ≤ B) (ps : List (ℕ × ℕ)) (hps : Digits B ps) (c : Bool) (i : ℕ)
    (hi : i ≤ ps.length) :
    carryInto B ps c i
      = decide (B ^ i ≤ left B (ps.take i) + right B (ps.take i) + c.toNat) := by
  have htake : Digits B (ps.take i) := fun p hp => hps p (List.mem_of_mem_take hp)
  rw [carryInto_eq_chain ps c i hi, carry_chain hB _ htake, List.length_take,
    Nat.min_eq_left hi]

/-- Digit-wise complements add up to the largest number of that length. -/
theorem ofDigits_complement (l : List ℕ) (hl : ∀ x ∈ l, x < B) :
    Nat.ofDigits B (l.map fun x => B - 1 - x) + Nat.ofDigits B l + 1 = B ^ l.length := by
  induction l with
  | nil => simp
  | cons x l ih =>
    have hx := hl x List.mem_cons_self
    have htail := ih fun y hy => hl y (List.mem_cons_of_mem _ hy)
    have hhead : B - 1 - x + x + 1 = B := by omega
    rw [List.map_cons, Nat.ofDigits_cons, Nat.ofDigits_cons, List.length_cons, pow_succ]
    linear_combination B * htail + hhead

/-! ## Any rule -/

/-- Chains that agree have started from the same carry. -/
theorem carry_eq_of_chain_eq (hB : 2 ≤ B) (f g : ℕ → ℕ → Bool → Bool)
    (ps : List (ℕ × ℕ)) (c k : Bool) (h : chain B f ps c = chain B g ps k) : c = k := by
  cases ps with
  | nil => exact congrArg Prod.snd h
  | cons p ps =>
    obtain ⟨x, y⟩ := p
    have hhead : (x + y + c.toNat) % B = (x + y + k.toNat) % B := by
      have := congrArg (fun r => r.1.head?) h
      simpa [chain] using this
    have hone (z : ℕ) : (z + 1) % B ≠ z % B := by
      intro he
      have hd := (Nat.modEq_iff_dvd' (Nat.le_succ z)).mp (show z ≡ z + 1 [MOD B] from he.symm)
      rw [Nat.succ_sub (le_refl z), Nat.sub_self] at hd
      have := Nat.le_of_dvd (by omega) hd
      omega
    cases c <;> cases k
    · rfl
    · exact absurd hhead.symm (hone (x + y))
    · exact absurd hhead (hone (x + y))
    · rfl

/-- A rule that is right wherever it is used gives the right chain, and no other does. -/
theorem chain_eq_iff (hB : 2 ≤ B) (f : ℕ → ℕ → Bool → Bool) (ps : List (ℕ × ℕ))
    (c : Bool) :
    chain B f ps c = chain B (carryOut B) ps c
      ↔ ∀ i (h : i < ps.length), f ps[i].1 ps[i].2 (carryInto B ps c i)
          = carryOut B ps[i].1 ps[i].2 (carryInto B ps c i) := by
  induction ps generalizing c with
  | nil => simp [chain]
  | cons p ps ih =>
    obtain ⟨x, y⟩ := p
    have htail : chain B f ((x, y) :: ps) c = chain B (carryOut B) ((x, y) :: ps) c
        ↔ chain B f ps (f x y c) = chain B (carryOut B) ps (carryOut B x y c) := by
      simp only [chain, Prod.ext_iff, List.cons.injEq, true_and]
    rw [htail]
    constructor
    · intro h
      have hc := carry_eq_of_chain_eq hB f (carryOut B) ps _ _ h
      rw [hc, ih] at h
      intro i hi
      cases i with
      | zero => exact hc
      | succ i => exact h i (by simpa using hi)
    · intro h
      have hc : f x y c = carryOut B x y c := h 0 (by simp)
      rw [hc, ih]
      intro i hi
      exact h (i + 1) (by simpa using hi)

/-- **A chain gives the sum and its carry exactly when its rule is right** at every
position, on the carry that the lower digits really produce. -/
theorem chain_right_iff (hB : 2 ≤ B) (f : ℕ → ℕ → Bool → Bool) (ps : List (ℕ × ℕ))
    (hps : Digits B ps) (c : Bool) :
    (Nat.ofDigits B (chain B f ps c).1
          = (left B ps + right B ps + c.toNat) % B ^ ps.length ∧
        ((chain B f ps c).2 = true ↔ B ^ ps.length ≤ left B ps + right B ps + c.toNat))
      ↔ ∀ i (h : i < ps.length), f ps[i].1 ps[i].2 (carryInto B ps c i)
          = carryOut B ps[i].1 ps[i].2 (carryInto B ps c i) := by
  have hsum := ofDigits_chain ps hps c
  have hcarry := carry_chain hB ps hps c
  have hlt := ofDigits_chain_lt hB (carryOut B) ps c
  have hmod : (left B ps + right B ps + c.toNat) % B ^ ps.length
      = Nat.ofDigits B (chain B (carryOut B) ps c).1 := by
    rw [← hsum, Nat.add_mul_mod_self_left, Nat.mod_eq_of_lt hlt]
  rw [← chain_eq_iff hB, hmod]
  constructor
  · rintro ⟨hdigits, hc⟩
    refine Prod.ext ?_ ?_
    · exact Nat.ofDigits_inj_of_len_eq (by omega)
        (by rw [length_chain, length_chain]) (chain_lt (by omega) f ps c)
        (chain_lt (by omega) (carryOut B) ps c) hdigits
    · rw [hcarry, Bool.eq_iff_iff, hc, decide_eq_true_iff]
  · intro h
    rw [h]
    exact ⟨rfl, by rw [hcarry, decide_eq_true_iff]⟩

end RippleCarry
