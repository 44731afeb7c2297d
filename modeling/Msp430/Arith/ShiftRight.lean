/-
# Shifting a number of many digits to the right

Numbers as big-endian lists of digits to an even base `2 * H`, halved digit by digit from
the top: each digit hands its lowest bit down to the next one, whose top bit it becomes.
`bmod_chain`: entered with the sign of the number, the chain is the arithmetic shift, the
floor of the half in two's complement, and the bit that falls out at the end is the lowest
bit of the number.
-/
import Mathlib

namespace ShiftRight

variable {H : ℕ}

/-! ## Numbers and chains -/

/-- The number that digits spell, most significant first. -/
def number (B : ℕ) (xs : List ℕ) : ℕ := Nat.ofDigits B xs.reverse

/-- One digit shifted right, `c` moved in at the top. -/
def shiftDigit (H x : ℕ) (c : Bool) : ℕ := x / 2 + H * c.toNat

/-- The digits after the chain, and the bit that falls out of the last one. -/
def chain (H : ℕ) : List ℕ → Bool → List ℕ × Bool
  | [], c => ([], c)
  | x :: xs, c => (shiftDigit H x c :: (chain H xs (x.testBit 0)).1,
      (chain H xs (x.testBit 0)).2)

theorem length_chain (xs : List ℕ) (c : Bool) : (chain H xs c).1.length = xs.length := by
  induction xs generalizing c with
  | nil => rfl
  | cons x xs ih => rw [chain, List.length_cons, ih, List.length_cons]

theorem number_cons (B x : ℕ) (xs : List ℕ) :
    number B (x :: xs) = number B xs + B ^ xs.length * x := by
  unfold number
  rw [List.reverse_cons, Nat.ofDigits_append, List.length_reverse, Nat.ofDigits_singleton]

theorem number_lt {B : ℕ} (xs : List ℕ) (hxs : ∀ x ∈ xs, x < B) :
    number B xs < B ^ xs.length := by
  induction xs with
  | nil => simp [number]
  | cons x xs ih =>
    have hx : x + 1 ≤ B := hxs x List.mem_cons_self
    have htail := ih fun y hy => hxs y (List.mem_cons_of_mem _ hy)
    rw [number_cons, List.length_cons, pow_succ]
    calc number B xs + B ^ xs.length * x
        < B ^ xs.length + B ^ xs.length * x := by omega
      _ = B ^ xs.length * (x + 1) := by ring
      _ ≤ B ^ xs.length * B := Nat.mul_le_mul_left _ hx

/-- A digit and the bit it hands down. -/
theorem two_mul_shiftDigit (x : ℕ) (c : Bool) :
    2 * shiftDigit H x c + (x.testBit 0).toNat = x + 2 * H * c.toNat := by
  have hbit : (x.testBit 0).toNat = x % 2 := by
    rw [Nat.testBit_zero]
    rcases Nat.mod_two_eq_zero_or_one x with h | h <;> simp [h]
  unfold shiftDigit
  rw [hbit]
  have := Nat.div_add_mod x 2
  linarith

/-- **A chain halves the number with `c` above its top digit**, the bit that falls out
being the remainder. -/
theorem two_mul_number_chain (xs : List ℕ) (c : Bool) :
    2 * number (2 * H) (chain H xs c).1 + (chain H xs c).2.toNat
      = number (2 * H) xs + (2 * H) ^ xs.length * c.toNat := by
  induction xs generalizing c with
  | nil => simp [chain, number]
  | cons x xs ih =>
    have hdigit := two_mul_shiftDigit (H := H) x c
    have htail := ih (x.testBit 0)
    simp only [chain, number_cons, length_chain, List.length_cons, pow_succ]
    linear_combination htail + (2 * H) ^ xs.length * hdigit

/-! ## Two's complement -/

/-- The top digit tells the sign. -/
theorem le_top_iff {x : ℕ} {xs : List ℕ} (hxs : ∀ y ∈ xs, y < 2 * H) :
    H ≤ x ↔ (2 * H) ^ (xs.length + 1) ≤ 2 * number (2 * H) (x :: xs) := by
  have hlow := number_lt xs hxs
  rw [number_cons, pow_succ]
  obtain ⟨P, hP⟩ : ∃ P, P = (2 * H) ^ xs.length := ⟨_, rfl⟩
  rw [← hP] at hlow ⊢
  constructor
  · intro h
    have := Nat.mul_le_mul_left P h
    linarith
  · intro h
    by_contra hx
    have := Nat.mul_le_mul_left P (show x + 1 ≤ H by omega)
    linarith

theorem bmod_of_lt {N M : ℕ} (h : 2 * N < M) : Int.bmod N M = N := by
  have hmod : (N : ℤ) % M = N := Int.emod_eq_of_lt (by omega) (by omega)
  rw [Int.bmod_def, hmod, if_pos (by omega)]

theorem bmod_of_le {N M : ℕ} (h : M ≤ 2 * N) (hlt : N < M) :
    Int.bmod N M = (N : ℤ) - M := by
  have hmod : (N : ℤ) % M = N := Int.emod_eq_of_lt (by omega) (by omega)
  rw [Int.bmod_def, hmod, if_neg (by omega)]

/-- **The arithmetic shift**: a chain entered with the sign halves the signed number,
rounding down, and lets its lowest bit fall out. -/
theorem bmod_chain {x : ℕ} {xs : List ℕ} (hxs : ∀ y ∈ x :: xs, y < 2 * H) :
    let M := (2 * H) ^ (xs.length + 1)
    let r := chain H (x :: xs) (decide (H ≤ x))
    Int.bmod (number (2 * H) r.1) M = Int.bmod (number (2 * H) (x :: xs)) M / 2 ∧
      (r.2 = true ↔ Int.bmod (number (2 * H) (x :: xs)) M % 2 = 1) := by
  intro M r
  have hsign : H ≤ x ↔ M ≤ 2 * number (2 * H) (x :: xs) :=
    le_top_iff fun y hy => hxs y (List.mem_cons_of_mem _ hy)
  have hlt : number (2 * H) (x :: xs) < M := number_lt (x :: xs) hxs
  have hhalf := two_mul_number_chain (H := H) (x :: xs) (decide (H ≤ x))
  change 2 * number (2 * H) r.1 + r.2.toNat = _ + M * _ at hhalf
  have hbit := Bool.toNat_le r.2
  have hout : r.2 = true ↔ r.2.toNat = 1 := by cases r.2 <;> simp
  rw [hout]
  -- the number and its half lie on the same side of the sign
  by_cases h : H ≤ x
  · rw [decide_eq_true h, Bool.toNat_true, mul_one] at hhalf
    have hM := hsign.mp h
    rw [bmod_of_le hM hlt, bmod_of_le (by omega) (by omega)]
    omega
  · rw [decide_eq_false h, Bool.toNat_false, mul_zero] at hhalf
    have hM : ¬ M ≤ 2 * number (2 * H) (x :: xs) := fun hc => h (hsign.mpr hc)
    rw [bmod_of_lt (by omega), bmod_of_lt (by omega)]
    omega

end ShiftRight
