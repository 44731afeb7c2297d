/-
# The length of the operand text

`decode_formatI` builds its operand text in a buffer of twenty bytes: the first operand, a comma
and the second, which comes from a buffer of its own.  The second never fills that; together
they do not fit when both operands are long.  `operand_text_iff` says which pairs are too long.
-/
import Msp430.TextForms
import Msp430.Startup

namespace Msp430

open CString

/-! ## Which operands are long -/

/-- The source prints seven characters: a constant, an absolute or an immediate operand. -/
def WideSource (w : BitVec 16) : Prop :=
  (constantI w).isSome = true ∨ (asFlag w = 1 ∧ sourceReg w = 2) ∨
    (asFlag w = 3 ∧ sourceReg w = 0)

/-- The source prints an offset and a register. -/
def IndexedSource (w : BitVec 16) : Prop :=
  constantI w = none ∧ asFlag w = 1 ∧ sourceReg w ≠ 0 ∧ sourceReg w ≠ 2

/-- The destination of an extension word prints an offset and a register. -/
def IndexedDestination (w : BitVec 16) : Prop := lowReg w ≠ 0 ∧ lowReg w ≠ 2

/-- The pairs of operands that are too long: an indexed source before an indexed destination, or
with a long register name before an absolute one; and a source of seven characters before an
indexed destination with a long register name, or before an absolute address that an indirect
mode prints with its sign. -/
def OverlongOperands (emu : Emulator) (w : BitVec 16) : Prop :=
  adFlag w = true ∧
    ((IndexedSource w ∧ (IndexedDestination w ∨ (lowReg w = 2 ∧ 10 ≤ sourceReg w))) ∨
      (WideSource w ∧ ((IndexedDestination w ∧ 10 ≤ lowReg w) ∨
        (asFlag w = 2 ∧ lowReg w = 2 ∧ 0x8000 ≤ (destinationExtension emu w).toNat))))

/-- Both strings fit their buffers of twenty bytes, executing and disassembling. -/
def OperandTextFits (emu : Emulator) (w : BitVec 16) : Prop :=
  ∀ disassemble, (textI emu w disassemble).asmOperands.length ≤ 19 ∧
    (textI emu w disassemble).asmOp2.length ≤ 19

instance (w : BitVec 16) : Decidable (WideSource w) := inferInstanceAs (Decidable (_ ∨ _ ∨ _))

instance (w : BitVec 16) : Decidable (IndexedSource w) :=
  inferInstanceAs (Decidable (_ ∧ _ ∧ _ ∧ _))

instance (w : BitVec 16) : Decidable (IndexedDestination w) :=
  inferInstanceAs (Decidable (_ ∧ _))

instance (emu : Emulator) (w : BitVec 16) : Decidable (OverlongOperands emu w) :=
  inferInstanceAs (Decidable (_ ∧ _))

/-! ## The lengths of the parts -/

section Lengths

theorem length_regNumToName (r : Fin 16) :
    (regNumToName r).length = if 10 ≤ r then 3 else 2 := by
  revert r
  decide

/-- A number of sixteen bits prints four digits. -/
theorem length_numeral_of_lt {v : BitVec 32} (h : v.toNat < 2 ^ 16) : (numeral v).length = 6 := by
  rw [numeral, printHex_of_lt (by omega), List.length_append, length_fixedHex]
  rfl

@[simp] theorem length_numeral_unsignedArg (v : BitVec 16) :
    (numeral (unsignedArg v)).length = 6 := by
  apply length_numeral_of_lt
  rw [unsignedArg, BitVec.toNat_setWidth]
  omega

@[simp] theorem length_numeral_immediateArg (bw : Width) (v : BitVec 16) :
    (numeral (immediateArg bw v)).length = 6 := by
  cases bw with
  | word => exact length_numeral_unsignedArg v
  | byte =>
    apply length_numeral_of_lt
    rw [immediateArg, BitVec.toNat_setWidth, BitVec.toNat_setWidth]
    omega

/-- A negative number prints eight digits. -/
theorem length_numeral_signedArg (v : BitVec 16) :
    (numeral (signedArg v)).length = if 0x8000 ≤ v.toNat then 10 else 6 := by
  have hlt := v.isLt
  by_cases h : 0x8000 ≤ v.toNat
  · have hsigned := toNat_signedArg v
    rw [if_pos h] at hsigned
    rw [if_pos h, numeral, printHex_of_le (k := 7) (by decide) (by omega) (by omega),
      List.length_append, length_fixedHex]
    rfl
  · rw [if_neg h]
    apply length_numeral_of_lt
    rw [toNat_signedArg, if_neg h]
    exact hlt

@[simp] theorem length_indexedText (offset : BitVec 16) (r : Fin 16) :
    (indexedText offset r).length = 8 + (regNumToName r).length := by
  rw [indexedText, List.length_append, List.length_append, List.length_append,
    length_numeral_unsignedArg]
  change 6 + 1 + (regNumToName r).length + 1 = _
  omega

end Lengths

/-! ## The lengths of the operands -/

section Operands

variable (emu : Emulator) {w : BitVec 16}

theorem length_sourceTextI_wide (h : WideSource w) : (sourceTextI emu w).length = 7 := by
  cases hc : constantI w with
  | some c =>
    rw [sourceTextI, hc, constantText, List.length_append, length_numeral_unsignedArg]
    rfl
  | none =>
    rw [sourceTextI, hc, constantText, plainSourceText]
    obtain hconstant | ⟨has, h2⟩ | ⟨has, h0⟩ := h
    · rw [hc] at hconstant
      contradiction
    · simp only [has, h2]
      rw [if_neg (by decide), if_pos trivial, List.length_append, length_numeral_unsignedArg]
      rfl
    · simp only [has, h0]
      rw [if_pos trivial, List.length_append]
      split_ifs
      · rw [length_numeral_unsignedArg]
        rfl
      · rw [length_numeral_immediateArg]
        rfl

theorem length_sourceTextI_indexed (h : IndexedSource w) :
    (sourceTextI emu w).length = 8 + (regNumToName (sourceReg w)).length := by
  obtain ⟨hc, has, h0, h2⟩ := h
  rw [sourceTextI, hc, constantText, plainSourceText]
  simp only [has]
  rw [if_neg h0, if_neg h2, length_indexedText]

/-- A symbolic source, a register, and a register in an indirect mode. -/
theorem length_sourceTextI_le (hwide : ¬ WideSource w) (hindexed : ¬ IndexedSource w) :
    (sourceTextI emu w).length ≤ 6 := by
  obtain ⟨hc, habsolute, himmediate⟩ : constantI w = none ∧ ¬ (asFlag w = 1 ∧ sourceReg w = 2) ∧
      ¬ (asFlag w = 3 ∧ sourceReg w = 0) := by
    simpa only [WideSource, not_or, Bool.not_eq_true, Option.isSome_eq_false_iff,
      Option.isNone_iff_eq_none] using hwide
  have hname : (regNumToName (sourceReg w)).length ≤ 3 := by
    rw [length_regNumToName]
    split_ifs <;> omega
  rw [sourceTextI, hc, constantText, plainSourceText]
  rcases asFlag_cases w with h | h | h | h
  · simp only [h]
    omega
  · have h0 : sourceReg w = 0 := by
      by_contra h0
      exact hindexed ⟨hc, h, h0, fun h2 => habsolute ⟨h, h2⟩⟩
    simp only [h, h0]
    rw [if_pos trivial, length_numeral_unsignedArg]
  · simp only [h, List.length_append]
    change 1 + _ ≤ 6
    omega
  · simp only [h]
    rw [if_neg fun h0 => himmediate ⟨h, h0⟩, List.length_append, List.length_append]
    change 1 + _ + 1 ≤ 6
    omega

variable (w)

theorem length_destinationTextI (ha : adFlag w = true) :
    (destinationTextI emu w).length =
      if lowReg w = 0 then 6
      else if lowReg w = 2 then
        if asFlag w = 2 ∧ 0x8000 ≤ (destinationExtension emu w).toNat then 11 else 7
      else 8 + (regNumToName (lowReg w)).length := by
  rw [destinationTextI, if_pos ha]
  by_cases h0 : lowReg w = 0
  · rw [if_pos h0, if_pos h0, length_numeral_unsignedArg]
  · rw [if_neg h0, if_neg h0]
    by_cases h2 : lowReg w = 2
    · rw [if_pos h2, if_pos h2, List.length_append]
      by_cases h : asFlag w = 2
      · rw [if_pos h, length_numeral_signedArg]
        simp only [h, true_and]
        split_ifs <;> rfl
      · rw [if_neg h, length_numeral_unsignedArg, if_neg fun hc => h hc.1]
        rfl
    · rw [if_neg h2, if_neg h2, length_indexedText]

end Operands

/-! ## The pairs that fit -/

/-- Before a register destination everything fits. -/
theorem fits_register (emu : Emulator) {w : BitVec 16} (ha : adFlag w = false) :
    OperandTextFits emu w := by
  intro disassemble
  have hname (r : Fin 16) : (regNumToName r).length ≤ 3 := by
    rw [length_regNumToName]
    split_ifs <;> omega
  have hsource : (sourceTextI emu w).length ≤ 11 := by
    by_cases hwide : WideSource w
    · rw [length_sourceTextI_wide emu hwide]
      omega
    · by_cases hindexed : IndexedSource w
      · rw [length_sourceTextI_indexed emu hindexed]
        have := hname (sourceReg w)
        omega
      · have := length_sourceTextI_le emu hwide hindexed
        omega
  rw [textI_register emu w ha]
  constructor
  · rw [List.length_append, List.length_append]
    change _ + 2 + _ ≤ 19
    have := hname (lowReg w)
    omega
  · exact Nat.zero_le _

/-- Before any other destination the two lengths count. -/
theorem fits_indexed_iff (emu : Emulator) {w : BitVec 16} (ha : adFlag w = true) :
    OperandTextFits emu w
      ↔ (sourceTextI emu w).length + (destinationTextI emu w).length ≤ 17 := by
  have hdestination : (destinationTextI emu w).length ≤ 19 := by
    rw [length_destinationTextI emu w ha, length_regNumToName]
    split_ifs <;> omega
  have hlength (disassemble : Bool) : (textI emu w disassemble).asmOperands.length
      = (sourceTextI emu w).length + 2 + (destinationTextI emu w).length := by
    rw [textI_indexed emu w ha, List.length_append, List.length_append]
    rfl
  constructor
  · intro h
    have hboth := (h true).1
    rw [hlength] at hboth
    omega
  · intro h disassemble
    rw [hlength, textI_indexed emu w ha]
    exact ⟨by omega, hdestination⟩

/-- Behind an indexed source. -/
theorem fits_iff_of_indexed (emu : Emulator) {w : BitVec 16} (ha : adFlag w = true)
    (hindexed : IndexedSource w) : OperandTextFits emu w ↔ ¬ OverlongOperands emu w := by
  have hmode : asFlag w ≠ 2 := by
    rw [hindexed.2.1]
    decide
  have hwide : ¬ WideSource w := by
    obtain ⟨hc, has, h0, h2⟩ := hindexed
    simp [WideSource, hc, has, h2]
  have hoverlong : OverlongOperands emu w
      ↔ IndexedDestination w ∨ (lowReg w = 2 ∧ 10 ≤ sourceReg w) := by
    simp [OverlongOperands, ha, hindexed, hwide]
  rw [hoverlong, fits_indexed_iff emu ha, length_destinationTextI emu w ha,
    length_sourceTextI_indexed emu hindexed, length_regNumToName, length_regNumToName]
  by_cases h0 : lowReg w = 0
  · rw [if_pos h0]
    simp only [IndexedDestination, h0]
    split_ifs <;> simp
  · rw [if_neg h0]
    by_cases h2 : lowReg w = 2
    · rw [if_pos h2, if_neg fun hc : asFlag w = 2 ∧ _ => hmode hc.1]
      simp only [IndexedDestination, h2]
      split_ifs with hlong <;> simp [hlong]
    · have hboth : IndexedDestination w := ⟨h0, h2⟩
      rw [if_neg h2]
      simp only [hboth, h2]
      split_ifs <;> simp

/-- Behind a source of seven characters. -/
theorem fits_iff_of_wide (emu : Emulator) {w : BitVec 16} (ha : adFlag w = true)
    (hwide : WideSource w) (hindexed : ¬ IndexedSource w) :
    OperandTextFits emu w ↔ ¬ OverlongOperands emu w := by
  have hoverlong : OverlongOperands emu w
      ↔ (IndexedDestination w ∧ 10 ≤ lowReg w) ∨
        (asFlag w = 2 ∧ lowReg w = 2 ∧ 0x8000 ≤ (destinationExtension emu w).toNat) := by
    simp [OverlongOperands, ha, hindexed, hwide]
  rw [hoverlong, fits_indexed_iff emu ha, length_destinationTextI emu w ha,
    length_sourceTextI_wide emu hwide, length_regNumToName]
  by_cases h0 : lowReg w = 0
  · simp [IndexedDestination, h0]
  · rw [if_neg h0]
    by_cases h2 : lowReg w = 2
    · rw [if_pos h2]
      simp only [IndexedDestination, h2]
      split_ifs with hsigned <;> simp [hsigned]
    · have hboth : IndexedDestination w := ⟨h0, h2⟩
      rw [if_neg h2]
      simp only [hboth, h2]
      split_ifs with hlong <;> simp [hlong]

/-- **The operand text fits exactly when the pair is not too long.** -/
theorem operand_text_iff (emu : Emulator) (w : BitVec 16) :
    OperandTextFits emu w ↔ ¬ OverlongOperands emu w := by
  cases ha : adFlag w with
  | false =>
    have hfits := fits_register emu ha
    simp [hfits, OverlongOperands, ha]
  | true =>
    by_cases hindexed : IndexedSource w
    · exact fits_iff_of_indexed emu ha hindexed
    · by_cases hwide : WideSource w
      · exact fits_iff_of_wide emu ha hwide hindexed
      · -- a short source leaves room for the longest destination
        have hoverlong : ¬ OverlongOperands emu w := by
          simp [OverlongOperands, hindexed, hwide]
        have hshort := length_sourceTextI_le emu hwide hindexed
        have hdestination : (destinationTextI emu w).length ≤ 11 := by
          rw [length_destinationTextI emu w ha, length_regNumToName]
          split_ifs <;> omega
        rw [fits_indexed_iff emu ha]
        exact iff_of_true (by omega) hoverlong

/-- `MOV 0x0000(R4), 0x0000(R5)` needs twenty-three bytes. -/
theorem operand_text_overlong : ¬ OperandTextFits startState 0x4495 := by
  intro h
  have hlength := (h true).1
  revert hlength
  decide +kernel

end Msp430
