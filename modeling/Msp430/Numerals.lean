/-
# Numerals in strings

What `%X` prints with a least width, and what the scanners read in the spellings of a number:
digits to base 16 with or without `0x` before them.  A base below eleven reads the same digits as
another number, unless there is only one of value.
-/
import Msp430.CString

namespace CString

/-! ## Reading digits -/

section Digits

variable {b : ℕ}

theorem numberOf_snoc (b : ℕ) (s : Str) (c : BitVec 8) :
    numberOf b (s ++ [c]) = numberOf b s * b + (digitValue c).getD 0 := by
  simp [numberOf]

/-- The value of a digit. -/
theorem exists_digitValue {c : BitVec 8} (h : isDigit b c = true) :
    ∃ d < b, digitValue c = some d := by
  cases hc : digitValue c with
  | none => simp [isDigit, hc] at h
  | some d => exact ⟨d, by simpa [isDigit, hc] using h, rfl⟩

theorem isDigit_of_value {c : BitVec 8} {d : ℕ} (hc : digitValue c = some d) :
    isDigit b c = true ↔ d < b := by
  simp [isDigit, hc]

/-- A digit to a base is one to any greater base. -/
theorem isDigit_mono {b' : ℕ} (hb : b ≤ b') {c : BitVec 8} (h : isDigit b c = true) :
    isDigit b' c = true := by
  obtain ⟨d, hlt, hd⟩ := exists_digitValue h
  exact (isDigit_of_value hd).mpr (lt_of_lt_of_le hlt hb)

/-- A digit to base 16 is no blank, no sign and no `x`, and an `x` is no blank. -/
theorem hexCharacter_facts : ∀ c : BitVec 8,
    (isDigit 16 c = true → isSpace c = false ∧ c ≠ 0x2D ∧ c ≠ 0x2B ∧ toLower c ≠ 0x78) ∧
      (toLower c = 0x78 → isSpace c = false) := by
  decide +kernel

/-- A number is no less than each of its digits. -/
theorem digit_le_numberOf {s : Str} {c : BitVec 8} {d : ℕ} (hmem : c ∈ s)
    (hc : digitValue c = some d) : d ≤ numberOf 16 s := by
  induction s using List.reverseRecOn with
  | nil => simp at hmem
  | append_singleton s c' ih =>
    rw [numberOf_snoc]
    rcases List.mem_append.mp hmem with hmem | hmem
    · have hle := ih hmem
      omega
    · obtain rfl := List.mem_singleton.mp hmem
      rw [hc, Option.getD_some]
      omega

theorem digitsOf_eq_self {s : Str} (h : ∀ c ∈ s, isDigit b c = true) : digitsOf b s = s :=
  List.takeWhile_eq_self_iff.mpr h

theorem digitsOf_snoc_of_all {s : Str} (h : ∀ c ∈ s, isDigit b c = true) (c : BitVec 8) :
    digitsOf b (s ++ [c]) = s ++ digitsOf b [c] := by
  rw [digitsOf, List.takeWhile_append_of_pos h]
  rfl

theorem digitsOf_snoc_of_not {s : Str} (h : ¬ ∀ c ∈ s, isDigit b c = true) (c : BitVec 8) :
    digitsOf b (s ++ [c]) = digitsOf b s := by
  have hlen : (s.takeWhile (isDigit b)).length ≠ s.length := by
    intro hlen
    exact h (List.takeWhile_eq_self_iff.mp ((List.takeWhile_prefix _).eq_of_length hlen))
  rw [digitsOf, List.takeWhile_append, if_neg hlen, digitsOf]

/-- To a base below eleven the digits that can be read spell no more than the number to base 16,
and as much only when that is below the base. -/
theorem numberOf_digitsOf (hb : 0 < b) (hb10 : b ≤ 10) {s : Str}
    (hs : ∀ c ∈ s, isDigit 16 c = true) :
    numberOf b (digitsOf b s) ≤ numberOf 16 s ∧
      (numberOf b (digitsOf b s) = numberOf 16 s ↔ numberOf 16 s < b) := by
  induction s using List.reverseRecOn with
  | nil => exact ⟨le_rfl, iff_of_true rfl hb⟩
  | append_singleton s c ih =>
    obtain ⟨hle, hiff⟩ := ih fun c hc => hs c (by simp [hc])
    obtain ⟨d, hd, hc⟩ := exists_digitValue (hs c (by simp))
    have hnumber : numberOf 16 (s ++ [c]) = numberOf 16 s * 16 + d := by
      rw [numberOf_snoc, hc, Option.getD_some]
    rw [hnumber]
    by_cases hall : ∀ c ∈ s, isDigit b c = true
    · rw [digitsOf_eq_self hall] at hle hiff
      rw [digitsOf_snoc_of_all hall]
      by_cases hdb : d < b
      · -- the last digit is read, too
        have hlast : digitsOf b [c] = [c] :=
          digitsOf_eq_self (by simpa using (isDigit_of_value hc).mpr hdb)
        rw [hlast, numberOf_snoc, hc, Option.getD_some]
        have hmul : numberOf b s * b ≤ numberOf 16 s * 10 := Nat.mul_le_mul hle hb10
        refine ⟨by omega, ?_⟩
        constructor
        · intro heq
          omega
        · intro hlt
          have hzero : numberOf 16 s = 0 := by omega
          rw [hzero, Nat.le_zero] at hle
          rw [hle, hzero]
          omega
      · have hlast : digitsOf b [c] = [] := by
          rw [digitsOf, List.takeWhile_cons_of_neg (by rw [isDigit_of_value hc]; exact hdb)]
        rw [hlast, List.append_nil]
        refine ⟨by omega, ?_⟩
        constructor <;> intro h <;> omega
    · rw [digitsOf_snoc_of_not hall]
      refine ⟨by omega, ?_⟩
      constructor
      · intro heq
        have hzero : numberOf 16 s = 0 ∧ d = 0 := by omega
        omega
      · intro hlt
        -- a digit that the base does not have is no less than it
        obtain ⟨c', hc', hnot⟩ : ∃ c' ∈ s, ¬ isDigit b c' = true := by simpa using hall
        obtain ⟨d', -, hd'⟩ := exists_digitValue (hs c' (by simp [hc']))
        have hmem := digit_le_numberOf hc' hd'
        rw [isDigit_of_value hd'] at hnot
        omega

end Digits

/-! ## Spellings of a number -/

/-- `s` spells `n` to base 16: with or without leading zeros, and with or without `0x`. -/
inductive HexSpelling : Str → ℕ → Prop where
  | digits {s : Str} (hne : s ≠ []) (h : ∀ c ∈ s, isDigit 16 c = true) :
      HexSpelling s (numberOf 16 s)
  | prefixed {x : BitVec 8} {s : Str} (hx : toLower x = 0x78) (hne : s ≠ [])
      (h : ∀ c ∈ s, isDigit 16 c = true) : HexSpelling (0x30 :: x :: s) (numberOf 16 s)

section Spelling

variable {s : Str} {n : ℕ}

/-- No character of a spelling is a blank. -/
theorem HexSpelling.isSpace_eq_false (h : HexSpelling s n) : ∀ c ∈ s, isSpace c = false := by
  have hdigit : ∀ c, isDigit 16 c = true → isSpace c = false := fun c hc =>
    ((hexCharacter_facts c).1 hc).1
  cases h with
  | digits hne h => exact fun c hc => hdigit c (h c hc)
  | prefixed hx' hne h =>
    intro c hc
    rcases List.mem_cons.mp hc with rfl | hc
    · rfl
    · rcases List.mem_cons.mp hc with rfl | hc
      · exact (hexCharacter_facts _).2 hx'
      · exact hdigit c (h c hc)

theorem HexSpelling.ne_nil (h : HexSpelling s n) : s ≠ [] := by
  cases h with
  | digits hne h => exact hne
  | prefixed hx hne h => simp

/-- A spelling has no sign. -/
theorem HexSpelling.splitSign_eq (h : HexSpelling s n) : splitSign s = (false, s) := by
  cases h with
  | digits hne h =>
    obtain ⟨c, s, rfl⟩ := List.exists_cons_of_ne_nil hne
    obtain ⟨-, hminus, hplus, -⟩ := (hexCharacter_facts c).1 (h c (by simp))
    rw [splitSign, if_neg hminus, if_neg hplus]
  | prefixed hx hne h => rfl

/-- Digits have no prefix, since `x` is none. -/
theorem hexPrefixed_digits (h : ∀ c ∈ s, isDigit 16 c = true) : hexPrefixed s = false := by
  match s with
  | [] => rfl
  | [_] => rfl
  | z :: c :: s =>
    obtain ⟨-, -, -, hx⟩ := (hexCharacter_facts c).1 (h c (by simp))
    rw [hexPrefixed, beq_eq_false_iff_ne.mpr hx, Bool.and_false]

theorem hexPrefixed_prefixed {x : BitVec 8} (hx : toLower x = 0x78) :
    hexPrefixed (0x30 :: x :: s) = true := by
  simp [hexPrefixed, hx]

/-- **`%X` reads a spelling**, behind blanks and up to a character that is no digit. -/
theorem HexSpelling.scanHex_eq (h : HexSpelling s n) (blanks : Str)
    (hblanks : ∀ c ∈ blanks, isSpace c = true) :
    scanHex (blanks ++ s) = some (scanned false n, []) := by
  have hskip : (blanks ++ s).dropWhile isSpace = s := by
    rw [List.dropWhile_append_of_pos hblanks]
    obtain ⟨c, s', rfl⟩ := List.exists_cons_of_ne_nil h.ne_nil
    rw [List.dropWhile_cons_of_neg (by simp [h.isSpace_eq_false c (by simp)])]
  unfold scanHex
  rw [hskip, h.splitSign_eq]
  dsimp only
  cases h with
  | digits hne h =>
    rw [hexPrefixed_digits h, if_neg Bool.false_ne_true, digitsOf_eq_self h, if_neg hne,
      List.dropWhile_eq_nil_iff.mpr h]
  | prefixed hx hne h =>
    rw [hexPrefixed_prefixed hx, if_pos rfl, List.drop_succ_cons, List.drop_succ_cons,
      List.drop_zero, digitsOf_eq_self h, List.dropWhile_eq_nil_iff.mpr h]

/-- The base in which `strtol` reads a spelling without `0x`. -/
def plainBase (s : Str) : ℕ := if s.head? = some 0x30 then 8 else 10

/-- **`strtol` to base zero reads** the number itself exactly behind `0x`, and where it has one
digit of value that the base from the first character has as well. -/
theorem HexSpelling.strtol_eq (h : HexSpelling s n) (hn : n < 2 ^ 63) :
    ∃ m ≤ n, strtol s = BitVec.ofNat 64 m ∧
      (m = n ↔ hexPrefixed s = true ∨ n < plainBase s) := by
  have hskip : s.dropWhile isSpace = s := by
    obtain ⟨c, s', rfl⟩ := List.exists_cons_of_ne_nil h.ne_nil
    rw [List.dropWhile_cons_of_neg (by simp [h.isSpace_eq_false c (by simp)])]
  have hsigned (m : ℕ) (hm : m < 2 ^ 63) : toSigned false m = BitVec.ofNat 64 m := by
    rw [toSigned, if_neg Bool.false_ne_true, if_neg (not_le.mpr hm)]
  unfold strtol
  rw [hskip, h.splitSign_eq]
  dsimp only
  cases h with
  | digits hne h =>
    have hbase : 0 < plainBase s ∧ plainBase s ≤ 10 := by
      unfold plainBase
      split_ifs <;> decide
    obtain ⟨hle, hiff⟩ := numberOf_digitsOf hbase.1 hbase.2 h
    refine ⟨numberOf (plainBase s) (digitsOf (plainBase s) s), hle, ?_, ?_⟩
    · rw [hexPrefixed_digits h, if_neg Bool.false_ne_true]
      exact hsigned _ (lt_of_le_of_lt hle hn)
    · rw [hiff, hexPrefixed_digits h]
      simp
  | prefixed hx hne h =>
    refine ⟨_, le_rfl, ?_, iff_of_true rfl (.inl (hexPrefixed_prefixed hx))⟩
    rw [hexPrefixed_prefixed hx, if_pos rfl, List.drop_succ_cons, List.drop_succ_cons,
      List.drop_zero, digitsOf_eq_self h]
    exact hsigned _ hn

/-- The `unsigned int` that is read from a number without a sign. -/
theorem scanned_eq (hn : n < 2 ^ 64) : scanned false n = BitVec.ofNat 32 n := by
  rw [scanned, toUnsigned, if_neg (not_le.mpr hn), if_neg Bool.false_ne_true]
  apply BitVec.eq_of_toNat_eq
  simp only [BitVec.toNat_setWidth, BitVec.toNat_ofNat]
  omega

/-- It is cut to a `uint16_t`. -/
theorem setWidth_scanned (hn : n < 2 ^ 64) :
    (scanned false n).setWidth 16 = BitVec.ofNat 16 n := by
  rw [scanned_eq hn, BitVec.setWidth_ofNat_of_le (by decide)]

end Spelling

/-! ## Words -/

/-- **`%s` reads a word**, behind blanks and up to a blank or the end. -/
theorem scanWord_eq {blanks w rest : Str} (hblanks : ∀ c ∈ blanks, isSpace c = true)
    (hne : w ≠ []) (hw : ∀ c ∈ w, isSpace c = false)
    (hrest : ∀ c ∈ rest.head?, isSpace c = true) :
    scanWord (blanks ++ (w ++ rest)) = some (w, rest) := by
  have hskip : (blanks ++ (w ++ rest)).dropWhile isSpace = w ++ rest := by
    rw [List.dropWhile_append_of_pos hblanks]
    obtain ⟨c, w', rfl⟩ := List.exists_cons_of_ne_nil hne
    rw [List.cons_append, List.dropWhile_cons_of_neg (by simp [hw c (by simp)])]
  have hall : ∀ c ∈ w, (!isSpace c) = true := fun c hc => by rw [hw c hc]; rfl
  have hstop : rest.takeWhile (fun c => !isSpace c) = [] ∧
      rest.dropWhile (fun c => !isSpace c) = rest := by
    cases rest with
    | nil => exact ⟨rfl, rfl⟩
    | cons c rest =>
      have hc : ¬ (!isSpace c) = true := by rw [hrest c rfl]; decide
      exact ⟨List.takeWhile_cons_of_neg hc, List.dropWhile_cons_of_neg hc⟩
  unfold scanWord
  rw [hskip]
  dsimp only
  rw [if_neg (by simp [hne]), List.takeWhile_append_of_pos hall,
    List.dropWhile_append_of_pos hall, hstop.1, hstop.2, List.append_nil]

/-- A word at the start of the string. -/
theorem scanWord_word {w rest : Str} (hne : w ≠ []) (hw : ∀ c ∈ w, isSpace c = false)
    (hrest : ∀ c ∈ rest.head?, isSpace c = true) : scanWord (w ++ rest) = some (w, rest) :=
  @scanWord_eq [] w rest (by simp) hne hw hrest

theorem isSpace_blank : ∀ c ∈ bytes " ", isSpace c = true := by decide

/-- **`%u` reads a number**, behind blanks and up to a character that is no digit. -/
theorem scanDecimal_eq {blanks s rest : Str} (hblanks : ∀ c ∈ blanks, isSpace c = true)
    (hne : s ≠ []) (hs : ∀ c ∈ s, isDigit 10 c = true)
    (hrest : ∀ c ∈ rest.head?, isDigit 10 c = false) :
    scanDecimal (blanks ++ (s ++ rest)) = some (scanned false (numberOf 10 s), rest) := by
  obtain ⟨c, s', rfl⟩ := List.exists_cons_of_ne_nil hne
  obtain ⟨hspace, hminus, hplus, -⟩ :=
    (hexCharacter_facts c).1 (isDigit_mono (by decide) (hs c List.mem_cons_self))
  have hskip : (blanks ++ (c :: s' ++ rest)).dropWhile isSpace = c :: s' ++ rest := by
    rw [List.dropWhile_append_of_pos hblanks, List.cons_append,
      List.dropWhile_cons_of_neg (by simp [hspace])]
  have hsign : splitSign (c :: s' ++ rest) = (false, c :: s' ++ rest) := by
    rw [List.cons_append, splitSign, if_neg hminus, if_neg hplus]
  have hstop : rest.takeWhile (isDigit 10) = [] ∧ rest.dropWhile (isDigit 10) = rest := by
    cases rest with
    | nil => exact ⟨rfl, rfl⟩
    | cons d rest =>
      have hd : ¬ isDigit 10 d = true := by rw [hrest d rfl]; decide
      exact ⟨List.takeWhile_cons_of_neg hd, List.dropWhile_cons_of_neg hd⟩
  have hdigits : digitsOf 10 (c :: s' ++ rest) = c :: s' := by
    rw [digitsOf, List.takeWhile_append_of_pos hs, hstop.1, List.append_nil]
  rw [scanDecimal, hskip, hsign]
  dsimp only
  rw [hdigits, if_neg hne, List.dropWhile_append_of_pos hs, hstop.2]

/-! ## Printing to base 16 -/

/-- A digit of `%X`. -/
def hexDigit (d : ℕ) : BitVec 8 :=
  if d < 10 then BitVec.ofNat 8 (0x30 + d) else BitVec.ofNat 8 (0x37 + d)

/-- The last `w` digits of `n`. -/
def fixedHex : ℕ → ℕ → Str
  | 0, _ => []
  | w + 1, n => fixedHex w (n / 16) ++ [hexDigit (n % 16)]

/-- `%X`, with `w` as the least number of digits, zeros before them: `w` is at least one. -/
def printHex (w n : ℕ) : Str := fixedHex (max w (Nat.digits 16 n).length) n

section Printing

theorem digitValue_hexDigit {d : ℕ} (hd : d < 16) : digitValue (hexDigit d) = some d := by
  revert d
  decide

theorem isDigit_hexDigit {d : ℕ} (hd : d < 16) : isDigit 16 (hexDigit d) = true :=
  (isDigit_of_value (digitValue_hexDigit hd)).mpr hd

@[simp] theorem length_fixedHex (w n : ℕ) : (fixedHex w n).length = w := by
  induction w generalizing n with
  | zero => rfl
  | succ w ih => rw [fixedHex, List.length_append, ih, List.length_singleton]

theorem isDigit_fixedHex (w n : ℕ) : ∀ c ∈ fixedHex w n, isDigit 16 c = true := by
  induction w generalizing n with
  | zero => simp [fixedHex]
  | succ w ih =>
    intro c hc
    rcases List.mem_append.mp hc with hc | hc
    · exact ih _ c hc
    · obtain rfl := List.mem_singleton.mp hc
      exact isDigit_hexDigit (Nat.mod_lt _ (by decide))

/-- **What the last digits spell.** -/
theorem numberOf_fixedHex (w n : ℕ) : numberOf 16 (fixedHex w n) = n % 16 ^ w := by
  induction w generalizing n with
  | zero => simp [fixedHex, numberOf, Nat.mod_one]
  | succ w ih =>
    rw [fixedHex, numberOf_snoc, ih, digitValue_hexDigit (Nat.mod_lt _ (by decide)),
      Option.getD_some, pow_succ', Nat.mod_mul]
    ring

/-- The digits before the last `w` are those of the quotient. -/
theorem fixedHex_add (v w n : ℕ) :
    fixedHex (v + w) n = fixedHex v (n / 16 ^ w) ++ fixedHex w n := by
  induction w generalizing n with
  | zero => simp [fixedHex]
  | succ w ih =>
    rw [← Nat.add_assoc, fixedHex, ih, fixedHex, List.append_assoc, Nat.div_div_eq_div_mul,
      pow_succ']

/-- The last digits of a number do not depend on what stands before them. -/
theorem fixedHex_mod (w n : ℕ) : fixedHex w (n % 16 ^ w) = fixedHex w n := by
  induction w generalizing n with
  | zero => rfl
  | succ w ih =>
    have hlast : n % 16 ^ (w + 1) % 16 = n % 16 := by
      rw [pow_succ', Nat.mod_mul_right_mod]
    have hrest : n % 16 ^ (w + 1) / 16 = n / 16 % 16 ^ w := by
      rw [pow_succ', Nat.mod_mul_right_div_self]
    rw [fixedHex, hlast, hrest, ih, fixedHex]

/-- A number with no more digits than the least width. -/
theorem printHex_of_lt {w n : ℕ} (h : n < 16 ^ w) : printHex w n = fixedHex w n := by
  rw [printHex, max_eq_left ((Nat.digits_length_le_iff (by decide) n).mpr h)]

/-- A number with as many digits as the least width or more. -/
theorem printHex_of_le {w k n : ℕ} (hw : w ≤ k + 1) (hlow : 16 ^ k ≤ n)
    (hhigh : n < 16 ^ (k + 1)) : printHex w n = fixedHex (k + 1) n := by
  have hle := (Nat.digits_length_le_iff (k := k + 1) (by decide : 1 < 16) n).mpr hhigh
  have hge : ¬ (Nat.digits 16 n).length ≤ k := by
    rw [Nat.digits_length_le_iff (by decide)]
    exact not_lt.mpr hlow
  rw [printHex, max_eq_right (by omega)]
  congr 1
  omega

theorem isDigit_printHex (w n : ℕ) : ∀ c ∈ printHex w n, isDigit 16 c = true :=
  isDigit_fixedHex _ _

/-- **A printed number is spelled by its digits.** -/
theorem numberOf_printHex (w n : ℕ) : numberOf 16 (printHex w n) = n := by
  rw [printHex, numberOf_fixedHex]
  apply Nat.mod_eq_of_lt
  exact lt_of_lt_of_le (Nat.lt_base_pow_length_digits (by decide))
    (Nat.pow_le_pow_right (by decide) (le_max_right _ _))

end Printing

end CString
