/-
# Decimal numerals

What `%d` and `%u` print, without a sign and without a least width, and what `strtoul` to base
ten and `%u` read: a number that has been printed is read back.
-/
import Msp430.Numerals

namespace CString

/-! ## Printing -/

/-- The last `w` digits of `n`. -/
def fixedDecimal : ℕ → ℕ → Str
  | 0, _ => []
  | w + 1, n => fixedDecimal w (n / 10) ++ [hexDigit (n % 10)]

/-- `%d` of a number that is not negative, and `%u`. -/
def printDecimal (n : ℕ) : Str := fixedDecimal (max 1 (Nat.digits 10 n).length) n

@[simp] theorem length_fixedDecimal (w n : ℕ) : (fixedDecimal w n).length = w := by
  induction w generalizing n with
  | zero => rfl
  | succ w ih => rw [fixedDecimal, List.length_append, ih, List.length_singleton]

theorem isDigit_fixedDecimal (w n : ℕ) : ∀ c ∈ fixedDecimal w n, isDigit 10 c = true := by
  induction w generalizing n with
  | zero => simp [fixedDecimal]
  | succ w ih =>
    intro c hc
    rw [fixedDecimal, List.mem_append, List.mem_singleton] at hc
    rcases hc with hc | rfl
    · exact ih _ c hc
    · have hd : n % 10 < 16 := by omega
      rw [isDigit_of_value (digitValue_hexDigit hd)]
      omega

/-- What the last digits spell. -/
theorem numberOf_fixedDecimal (w n : ℕ) : numberOf 10 (fixedDecimal w n) = n % 10 ^ w := by
  induction w generalizing n with
  | zero =>
    rw [pow_zero, Nat.mod_one]
    rfl
  | succ w ih =>
    have hd : n % 10 < 16 := by omega
    have hsplit : n % 10 ^ (w + 1) = n % 10 + 10 * (n / 10 % 10 ^ w) := by
      rw [pow_succ, Nat.mul_comm, Nat.mod_mul]
    rw [fixedDecimal, numberOf_snoc, ih, digitValue_hexDigit hd, Option.getD_some, hsplit]
    omega

theorem isDigit_printDecimal (n : ℕ) : ∀ c ∈ printDecimal n, isDigit 10 c = true :=
  isDigit_fixedDecimal _ _

theorem printDecimal_ne_nil (n : ℕ) : printDecimal n ≠ [] := by
  intro h
  have hlen := congrArg List.length h
  rw [printDecimal, length_fixedDecimal, List.length_nil] at hlen
  omega

/-- **A printed number is spelled by its digits.** -/
theorem numberOf_printDecimal (n : ℕ) : numberOf 10 (printDecimal n) = n := by
  rw [printDecimal, numberOf_fixedDecimal]
  apply Nat.mod_eq_of_lt
  calc n < 10 ^ (Nat.digits 10 n).length := Nat.lt_base_pow_length_digits (by omega)
    _ ≤ 10 ^ max 1 (Nat.digits 10 n).length := Nat.pow_le_pow_right (by omega) (by omega)

/-! ## Reading -/

/-- `strtoul(s, NULL, 10)`. -/
def strtoul (s : Str) : BitVec 64 :=
  let (negative, s) := splitSign (s.dropWhile isSpace)
  toUnsigned negative (numberOf 10 (digitsOf 10 s))

/-- A digit is neither a blank nor a sign. -/
theorem not_blank_of_isDigit {c : BitVec 8} (h : isDigit 10 c = true) :
    isSpace c = false ∧ c ≠ 0x2D ∧ c ≠ 0x2B := by
  revert c
  decide

/-- **A printed number is read back.** -/
theorem strtoul_printDecimal {n : ℕ} (h : n < 2 ^ 64) :
    strtoul (printDecimal n) = BitVec.ofNat 64 n := by
  have hdigits := isDigit_printDecimal n
  have hnumber := numberOf_printDecimal n
  rw [strtoul]
  cases hs : printDecimal n with
  | nil => exact absurd hs (printDecimal_ne_nil n)
  | cons c s =>
    rw [hs] at hdigits hnumber
    obtain ⟨hblank, hminus, hplus⟩ := not_blank_of_isDigit (hdigits c List.mem_cons_self)
    rw [List.dropWhile_cons_of_neg (by simp [hblank]), splitSign, if_neg hminus, if_neg hplus]
    simp only [digitsOf_eq_self hdigits, hnumber, toUnsigned]
    rw [if_neg (by omega), if_neg (by decide)]

end CString
