/-
# C strings and their scanners

Strings of bytes without their terminator, and what the C library reads from them: the
directives `%s`, `%u` and `%X` of `sscanf`, `strtol` to base zero, and the comparison
`strncasecmp(s, t, sizeof s) == 0`.  The numbers are those of a host with 64-bit `long`.
-/
import Mathlib

namespace CString

/-- A C string, without its terminator. -/
abbrev Str := List (BitVec 8)

/-- The bytes of a string literal. -/
def bytes (s : String) : Str := s.toList.map fun c => BitVec.ofNat 8 c.toNat

/-- The `strlen(s) + 1` bytes of a string with its terminator. -/
def terminated (s : Str) : Str := s.takeWhile (· != 0) ++ [0]

/-- A string ends at its first zero byte; `n` bytes hold its end when one of them is zero. -/
theorem length_takeWhile_lt_iff (s : Str) :
    (s.takeWhile (· != 0)).length < s.length ↔ 0 ∈ s := by
  induction s with
  | nil => simp
  | cons c s ih =>
    by_cases hc : c = 0
    · simp [hc]
    · rw [List.takeWhile_cons_of_pos (by simpa using hc), List.length_cons, List.length_cons,
        Nat.add_lt_add_iff_right, ih, List.mem_cons, or_iff_right (Ne.symm hc)]

/-- Memory that agrees up to the end of a string holds the same string. -/
theorem takeWhile_congr (s t : Str)
    (h : ∀ i ≤ (s.takeWhile (· != 0)).length, s.getD i 0 = t.getD i 0) :
    s.takeWhile (· != 0) = t.takeWhile (· != 0) := by
  induction s generalizing t with
  | nil =>
    cases t with
    | nil => rfl
    | cons d t =>
      have hd : 0 = d := h 0 (Nat.zero_le _)
      rw [List.takeWhile_cons_of_neg (by simp [← hd]), List.takeWhile_nil]
  | cons c s ih =>
    by_cases hc : c = 0
    · have hd : c = t.getD 0 0 := h 0 (Nat.zero_le _)
      rw [List.takeWhile_cons_of_neg (by simp [hc])]
      cases t with
      | nil => rfl
      | cons d t =>
        have hcd : c = d := hd
        rw [List.takeWhile_cons_of_neg (by simp [← hcd, hc])]
    · rw [List.takeWhile_cons_of_pos (by simpa using hc)] at h ⊢
      have hd : c = t.getD 0 0 := h 0 (Nat.zero_le _)
      cases t with
      | nil => exact absurd hd hc
      | cons d t =>
        have hcd : c = d := hd
        subst hcd
        rw [List.takeWhile_cons_of_pos (by simpa using hc), ih t fun i hi => ?_]
        exact h (i + 1) (Nat.succ_le_succ hi)

/-! ## Characters -/

/-- `isspace`. -/
def isSpace (c : BitVec 8) : Bool := c == 0x20 || (decide (0x09 ≤ c) && decide (c ≤ 0x0D))

/-- `tolower`. -/
def toLower (c : BitVec 8) : BitVec 8 := if 0x41 ≤ c ∧ c ≤ 0x5A then c + 0x20 else c

/-- The value of a digit or letter as a digit. -/
def digitValue (c : BitVec 8) : Option ℕ :=
  if 0x30 ≤ c ∧ c ≤ 0x39 then some (c.toNat - 0x30)
  else if 0x61 ≤ toLower c ∧ toLower c ≤ 0x7A then some ((toLower c).toNat - 0x57)
  else none

/-- The byte is a digit to the base. -/
def isDigit (base : ℕ) (c : BitVec 8) : Bool := (digitValue c).any fun d => decide (d < base)

/-- `strncasecmp(s, t, sizeof s) == 0`: the terminator is compared, too. -/
def caseEq (s t : Str) : Bool := s.map toLower == t.map toLower

/-! ## Numbers -/

/-- The number that digits spell. -/
def numberOf (base : ℕ) (s : Str) : ℕ :=
  s.foldl (fun n c => n * base + (digitValue c).getD 0) 0

/-- An optional sign. -/
def splitSign : Str → Bool × Str
  | [] => (false, [])
  | c :: s => if c = 0x2D then (true, s) else if c = 0x2B then (false, s) else (false, c :: s)

/-- The string begins with `0x` or `0X`. -/
def hexPrefixed : Str → Bool
  | z :: x :: _ => z == 0x30 && toLower x == 0x78
  | _ => false

/-- The digits that a conversion to the base reads. -/
def digitsOf (base : ℕ) (s : Str) : Str := s.takeWhile (isDigit base)

/-- An unsigned conversion of a digit string: out of range is all ones, a sign negates. -/
def toUnsigned (negative : Bool) (v : ℕ) : BitVec 64 :=
  if 2 ^ 64 ≤ v then BitVec.allOnes 64
  else if negative then -BitVec.ofNat 64 v else BitVec.ofNat 64 v

/-- A signed conversion, clamped to the range. -/
def toSigned (negative : Bool) (v : ℕ) : BitVec 64 :=
  if negative then if 2 ^ 63 ≤ v then BitVec.intMin 64 else -BitVec.ofNat 64 v
  else if 2 ^ 63 ≤ v then BitVec.intMax 64 else BitVec.ofNat 64 v

/-- `strtol(s, NULL, 0)`. -/
def strtol (s : Str) : BitVec 64 :=
  let (negative, s) := splitSign (s.dropWhile isSpace)
  if hexPrefixed s then toSigned negative (numberOf 16 (digitsOf 16 (s.drop 2)))
  else
    let base := if s.head? = some 0x30 then 8 else 10
    toSigned negative (numberOf base (digitsOf base s))

/-! ## Directives of `sscanf` -/

/-- `%s`: a word, and what is left. -/
def scanWord (s : Str) : Option (Str × Str) :=
  let s := s.dropWhile isSpace
  if s = [] then none
  else some (s.takeWhile fun c => !isSpace c, s.dropWhile fun c => !isSpace c)

/-- The `unsigned int` of a conversion. -/
def scanned (negative : Bool) (v : ℕ) : BitVec 32 := (toUnsigned negative v).setWidth 32

/-- `%u`. -/
def scanDecimal (s : Str) : Option (BitVec 32 × Str) :=
  let (negative, s) := splitSign (s.dropWhile isSpace)
  if digitsOf 10 s = [] then none
  else some (scanned negative (numberOf 10 (digitsOf 10 s)), s.dropWhile (isDigit 10))

/-- `%X`, with or without `0x`; a lone `0x` reads as zero. -/
def scanHex (s : Str) : Option (BitVec 32 × Str) :=
  let (negative, s) := splitSign (s.dropWhile isSpace)
  if hexPrefixed s then
    some (scanned negative (numberOf 16 (digitsOf 16 (s.drop 2))),
      (s.drop 2).dropWhile (isDigit 16))
  else if digitsOf 16 s = [] then none
  else some (scanned negative (numberOf 16 (digitsOf 16 s)), s.dropWhile (isDigit 16))

example : scanHex (bytes " 0xC0de") = some (0xC0DE, []) := by decide
example : strtol (bytes "0200") = 128 := by decide

end CString
