/-
# The lines of the disassembler

The texts that `decode` prints have no blank, no tab and no comma in them, so that a line falls
into its three columns again, and the last column into its operands.
-/
import Msp430.TextForms
import Msp430.Columns

namespace Msp430

open CString

/-! ## The texts are plain -/

section Plain

variable (emu : Emulator) (w : BitVec 16)

@[simp] theorem plain_numeral (v : BitVec 32) : plain (numeral v) = true := by
  rw [numeral, plain_append, plain_of_isDigit (isDigit_printHex 4 v.toNat)]
  rfl

@[simp] theorem plain_regNumToName (r : Fin 16) : plain (regNumToName r) = true := by
  revert r
  decide

@[simp] theorem plain_indexedText (offset : BitVec 16) (r : Fin 16) :
    plain (indexedText offset r) = true := by
  rw [indexedText, plain_append, plain_append, plain_append, plain_numeral, plain_regNumToName]
  rfl

theorem plain_constantText (constant : Option (BitVec 16)) (arg : BitVec 16 → BitVec 32)
    {text : Str} (h : plain text = true) : plain (constantText constant arg text) = true := by
  cases constant with
  | none => exact h
  | some c =>
    rw [constantText, plain_append, plain_numeral]
    rfl

theorem plain_sourceTextI : plain (sourceTextI emu w) = true := by
  apply plain_constantText
  rw [plainSourceText]
  split
  · exact plain_regNumToName _
  · split_ifs
    · exact plain_numeral _
    · exact plain_numeral _
    · rw [plain_append, plain_numeral]
      rfl
    · exact plain_indexedText _ _
  · rw [plain_append, plain_regNumToName]
    rfl
  · split_ifs
    · rw [plain_append, plain_numeral]
      rfl
    · rw [plain_append, plain_numeral]
      rfl
    · rw [plain_append, plain_append, plain_regNumToName]
      rfl

theorem plain_destinationTextI : plain (destinationTextI emu w) = true := by
  rw [destinationTextI]
  split_ifs
  · exact plain_numeral _
  · rw [plain_append, plain_numeral]
    rfl
  · rw [plain_append, plain_numeral]
    rfl
  · exact plain_indexedText _ _
  · exact plain_regNumToName _

theorem plain_indexedTextII (constant : Option (BitVec 16)) (source : Fin 16) :
    plain (indexedTextII emu constant source).asmOperand = true := by
  cases constant with
  | some c => exact plain_constantText (some c) signedArg (show plain [] = true from rfl)
  | none =>
    simp only [indexedTextII]
    split_ifs
    · exact plain_numeral _
    · rw [plain_append, plain_numeral]
      rfl
    · exact plain_indexedText _ _

theorem plain_autoIncTextII (constant : Option (BitVec 16)) (source : Fin 16) (bw : Width) :
    plain (autoIncTextII emu constant source bw).asmOperand = true := by
  cases constant with
  | some c => exact plain_constantText (some c) unsignedArg (show plain [] = true from rfl)
  | none =>
    simp only [autoIncTextII]
    split_ifs
    · rw [plain_append, plain_numeral]
      rfl
    · rw [plain_append, plain_append, plain_regNumToName]
      rfl

theorem plain_textII : plain (textII emu w).asmOperand = true := by
  rw [textII]
  rcases asFlag_cases w with h | h | h | h <;> simp only [h]
  · exact plain_constantText _ _ (plain_regNumToName _)
  · exact plain_indexedTextII _ _ _
  · apply plain_constantText
    rw [plain_append, plain_regNumToName]
    rfl
  · exact plain_autoIncTextII _ _ _ _

theorem plain_mnemonicI (opcode : Fin 16) (bw : Width) : plain (mnemonicI opcode bw) = true := by
  revert opcode
  cases bw <;> decide

theorem plain_mnemonicII (opcode : Fin 8) (bw : Width) : plain (mnemonicII opcode bw) = true := by
  revert opcode
  cases bw <;> decide

theorem plain_mnemonicIII (condition : Fin 8) : plain (mnemonicIII condition) = true := by
  revert condition
  decide

end Plain

/-! ## The columns of a line -/

section Columns

/-- The first column: the words, and blanks up to twelve characters. -/
def paddedHex (words : List (BitVec 16)) : Str :=
  swapBytes (hexStr words) ++ List.replicate (12 - (swapBytes (hexStr words)).length) 0x20

/-- The bytes change places and none comes in. -/
theorem mem_swapBytes (s : Str) (c : BitVec 8) : c ∈ swapBytes s ↔ c ∈ s := by
  fun_induction swapBytes s with
  | case1 a b d e s ih =>
    simp only [List.mem_cons, ih]
    tauto
  | case2 s => rfl

theorem isDigit_swapBytes (words : List (BitVec 16)) :
    ∀ c ∈ swapBytes (hexStr words), isDigit 16 c = true := by
  intro c hc
  rw [mem_swapBytes] at hc
  obtain ⟨v, -, hv⟩ := List.mem_flatMap.mp hc
  exact isDigit_printHex _ _ c hv

/-- The first column holds digits and blanks. -/
theorem not_mem_paddedHex (words : List (BitVec 16)) {c : BitVec 8} (hc : isSpace c = true)
    (hne : c ≠ 0x20) : c ∉ paddedHex words := by
  have hplain := plain_of_isDigit (isDigit_swapBytes words)
  rw [paddedHex, List.mem_append, not_or]
  exact ⟨not_mem_of_plain hplain hc, fun h => hne (List.eq_of_mem_replicate h)⟩

theorem printInstruction_eq (words : List (BitVec 16)) (mnemonic operands : Str) :
    printInstruction words mnemonic operands
      = paddedHex words ++ bytes "\t" ++ (mnemonic ++ bytes "\t" ++ (operands ++ bytes "\n")) := by
  simp only [printInstruction, paddedHex, List.append_assoc]

/-- **The columns of a line.** -/
theorem columns_printInstruction (words : List (BitVec 16)) {mnemonic operands : Str}
    (hmnemonic : plain mnemonic = true) (htab : (0x09 : BitVec 8) ∉ operands)
    (hline : (0x0A : BitVec 8) ∉ operands) :
    columns (printInstruction words mnemonic operands)
      = [paddedHex words, mnemonic, operands] := by
  have hlast := columns_last htab hline []
  rw [List.append_nil] at hlast
  rw [printInstruction_eq, columns_cons (not_mem_paddedHex words (by decide) (by decide))
      (not_mem_paddedHex words (by decide) (by decide)),
    columns_cons (not_mem_of_plain hmnemonic (by decide)) (not_mem_of_plain hmnemonic (by decide)),
    hlast]

variable {emu : Emulator} {w : BitVec 16}

/-- Two operands hold a blank, but neither a tab nor the end of a line. -/
theorem not_mem_operandsI (emu : Emulator) (w : BitVec 16) {c : BitVec 8} (hc : isSpace c = true)
    (hne : c ∉ bytes ", ") : c ∉ sourceTextI emu w ++ bytes ", " ++ destinationTextI emu w := by
  rw [List.mem_append, List.mem_append, not_or, not_or]
  exact ⟨⟨not_mem_of_plain (plain_sourceTextI emu w) hc, hne⟩,
    not_mem_of_plain (plain_destinationTextI emu w) hc⟩

theorem columns_formatI (hd : emu.debugMode = true) (h : 4 ≤ formatId w) :
    columns (decodeText emu w)
      = [paddedHex (w :: extensionsI emu w), mnemonicI (formatId w) (bwFlag w),
          sourceTextI emu w ++ bytes ", " ++ destinationTextI emu w] := by
  rw [decodeText_formatI hd h, asmOperands_textI, hexParts_textI,
    columns_printInstruction _ (plain_mnemonicI _ _)
      (not_mem_operandsI emu w (by decide) (by decide))
      (not_mem_operandsI emu w (by decide) (by decide))]

theorem columns_formatII (hd : emu.debugMode = true) (h : formatId w = 1) :
    columns (decodeText emu w)
      = [paddedHex (w :: (textII emu w).hexParts), mnemonicII (opcodeII w) (bwFlag w),
          (textII emu w).asmOperand] := by
  have hplain := plain_textII emu w
  rw [decodeText_formatII hd h, columns_printInstruction _ (plain_mnemonicII _ _)
    (not_mem_of_plain hplain (by decide)) (not_mem_of_plain hplain (by decide))]

theorem columns_formatIII (hd : emu.debugMode = true) (h : 2 ≤ formatId w ∧ formatId w ≤ 3) :
    columns (decodeText emu w)
      = [paddedHex [w], mnemonicIII (jumpCondition w), jumpText emu w] := by
  have hplain : plain (jumpText emu w) = true := plain_numeral _
  rw [decodeText_formatIII hd h, columns_printInstruction _ (plain_mnemonicIII _)
    (not_mem_of_plain hplain (by decide)) (not_mem_of_plain hplain (by decide))]

end Columns

/-! ## The hexadecimal column -/

/-- Bytes as digits. -/
def hexBytes (bs : List (BitVec 8)) : Str := bs.flatMap fun b => printHex 2 b.toNat

/-- The bytes of words as they lie in memory. -/
def wordBytes (words : List (BitVec 16)) : List (BitVec 8) :=
  words.flatMap fun v => [v.setWidth 8, highByte v]

/-- The digits at the start of the second column of a line. -/
def hexColumn (line : Str) : Str := ((columns line).getD 1 []).takeWhile (isDigit 16)

section HexColumn

/-- A byte prints two digits. -/
theorem length_printHex_byte (b : BitVec 8) : (printHex 2 b.toNat).length = 2 := by
  rw [printHex_of_lt (w := 2) b.isLt, length_fixedHex]

/-- Two pairs of digits change places. -/
theorem swapBytes_append {s t : Str} (hs : s.length = 2) (ht : t.length = 2) (u : Str) :
    swapBytes (s ++ t ++ u) = t ++ s ++ swapBytes u := by
  obtain ⟨a, b, rfl⟩ := List.length_eq_two.mp hs
  obtain ⟨c, d, rfl⟩ := List.length_eq_two.mp ht
  rfl

/-- A word as two bytes of digits, the high one first. -/
theorem printHex_word (v : BitVec 16) :
    printHex 4 v.toNat = printHex 2 (highByte v).toNat ++ printHex 2 (v.setWidth 8).toNat := by
  have hlow : (v.setWidth 8).toNat = v.toNat % 16 ^ 2 := BitVec.toNat_setWidth 8 v
  have hhigh : (highByte v).toNat = v.toNat / 16 ^ 2 := by
    have hv := v.isLt
    rw [highByte, BitVec.toNat_setWidth, BitVec.toNat_ushiftRight, Nat.shiftRight_eq_div_pow]
    omega
  rw [printHex_of_lt (w := 4) v.isLt, printHex_of_lt (w := 2) (BitVec.isLt _),
    printHex_of_lt (w := 2) (BitVec.isLt _), hlow, hhigh, fixedHex_mod]
  exact fixedHex_add 2 2 v.toNat

/-- **The swapped words are their bytes in order.** -/
theorem swapBytes_hexStr (words : List (BitVec 16)) :
    swapBytes (hexStr words) = hexBytes (wordBytes words) := by
  induction words with
  | nil => rfl
  | cons v words ih =>
    have hwords : hexStr (v :: words)
        = printHex 2 (highByte v).toNat ++ printHex 2 (v.setWidth 8).toNat ++ hexStr words := by
      rw [← printHex_word]
      rfl
    rw [hwords, swapBytes_append (length_printHex_byte _) (length_printHex_byte _), ih,
      List.append_assoc]
    rfl

/-- Bytes can be read back from their digits. -/
theorem hexBytes_injective : Function.Injective hexBytes := by
  have hread (b c : BitVec 8) (h : printHex 2 b.toNat = printHex 2 c.toNat) : b = c := by
    apply BitVec.eq_of_toNat_eq
    rw [← numberOf_printHex 2 b.toNat, h, numberOf_printHex]
  have hlength (bs : List (BitVec 8)) : (hexBytes bs).length = 2 * bs.length := by
    induction bs with
    | nil => rfl
    | cons b bs ih =>
      change (printHex 2 b.toNat ++ hexBytes bs).length = _
      rw [List.length_append, length_printHex_byte, ih, List.length_cons]
      omega
  intro bs
  induction bs with
  | nil =>
    intro cs h
    have hlen := congrArg List.length h
    rw [hlength, hlength, List.length_nil] at hlen
    exact (List.eq_nil_of_length_eq_zero (by omega)).symm
  | cons b bs ih =>
    intro cs h
    cases cs with
    | nil =>
      have hlen := congrArg List.length h
      rw [hlength, hlength, List.length_nil, List.length_cons] at hlen
      omega
    | cons c cs =>
      obtain ⟨hhead, htail⟩ := List.append_inj h
        ((length_printHex_byte b).trans (length_printHex_byte c).symm)
      rw [hread b c hhead, ih htail]

theorem wordBytes_injective : Function.Injective wordBytes := by
  intro vs
  induction vs with
  | nil =>
    intro ws h
    cases ws with
    | nil => rfl
    | cons w ws => exact absurd h (by simp [wordBytes])
  | cons v vs ih =>
    intro ws h
    cases ws with
    | nil => exact absurd h (by simp [wordBytes])
    | cons w ws =>
      obtain ⟨hlow, hhigh, hrest⟩ : v.setWidth 8 = w.setWidth 8 ∧ highByte v = highByte w ∧
          wordBytes vs = wordBytes ws := by
        simpa [wordBytes] using h
      have hword : v = w := by
        rw [← joinBytes_highByte v, ← joinBytes_highByte w, hlow, hhigh]
      rw [hword, ih hrest]

/-- **What a line shows of its words.** -/
theorem takeWhile_paddedHex (words : List (BitVec 16)) :
    (paddedHex words).takeWhile (isDigit 16) = hexBytes (wordBytes words) := by
  have hblanks (n : ℕ) : (List.replicate n (0x20 : BitVec 8)).takeWhile (isDigit 16) = [] := by
    cases n with
    | zero => rfl
    | succ n => exact List.takeWhile_cons_of_neg (by decide)
  rw [paddedHex, List.takeWhile_append_of_pos (isDigit_swapBytes words), hblanks, List.append_nil,
    swapBytes_hexStr]

end HexColumn

/-! ## One line -/

section Lines

variable {emu : Emulator} {w : BitVec 16}

/-- **Every instruction prints one line.** -/
theorem decodeText_line (hd : emu.debugMode = true) (w : BitVec 16) :
    ∃ line, decodeText emu w = line ++ bytes "\n" ∧ (0x0A : BitVec 8) ∉ line := by
  have hprint (words : List (BitVec 16)) {mnemonic operands : Str}
      (hmnemonic : plain mnemonic = true) (hoperands : (0x0A : BitVec 8) ∉ operands) :
      ∃ line, printInstruction words mnemonic operands = line ++ bytes "\n" ∧
        (0x0A : BitVec 8) ∉ line := by
    refine ⟨paddedHex words ++ bytes "\t" ++ (mnemonic ++ bytes "\t" ++ operands), ?_, ?_⟩
    · rw [printInstruction_eq]
      simp only [List.append_assoc]
    · simp only [List.mem_append, not_or]
      exact ⟨⟨not_mem_paddedHex words (by decide) (by decide), by decide⟩,
        ⟨not_mem_of_plain hmnemonic (by decide), by decide⟩, hoperands⟩
  rcases formatId_cases w with h0 | h1 | h3 | h4
  · have hdigits := plain_of_isDigit (isDigit_printHex 4 w.toNat)
    refine ⟨printHex 4 w.toNat ++ bytes "\t[INVALID INSTRUCTION]", ?_, ?_⟩
    · simp only [decodeText, h0]
      rw [List.append_assoc]
      rfl
    · rw [List.mem_append, not_or]
      exact ⟨not_mem_of_plain hdigits (by decide), by decide⟩
  · rw [decodeText_formatII hd h1]
    exact hprint _ (plain_mnemonicII _ _) (not_mem_of_plain (plain_textII emu w) (by decide))
  · rw [decodeText_formatIII hd h3]
    exact hprint _ (plain_mnemonicIII _) (not_mem_of_plain (plain_numeral _) (by decide))
  · rw [decodeText_formatI hd h4, asmOperands_textI]
    exact hprint _ (plain_mnemonicI _ _) (not_mem_operandsI emu w (by decide) (by decide))

end Lines

end Msp430
