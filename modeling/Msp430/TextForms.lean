/-
# The operand text in closed form

`textI` follows the eight branches of the operand block.  This module says once what they all
print: the text of the source, a comma and the text of the destination, and behind the
instruction word the extension words in their order.
-/
import Msp430.AsmText
import Msp430.OperandsI

namespace Msp430

open CString

/-! ## Arguments of `sprintf` -/

theorem toNat_unsignedArg (v : BitVec 16) : (unsignedArg v).toNat = v.toNat := by
  rw [unsignedArg, BitVec.toNat_setWidth]
  omega

/-- The number that a signed argument prints. -/
theorem toNat_signedArg (v : BitVec 16) :
    (signedArg v).toNat = if 0x8000 ≤ v.toNat then v.toNat + 0xFFFF0000 else v.toNat := by
  have hmsb : v.msb = decide (0x8000 ≤ v.toNat) := by
    rw [BitVec.msb_eq_decide]
  rw [signedArg, BitVec.toNat_signExtend, hmsb, BitVec.toNat_setWidth]
  have hlt := v.isLt
  by_cases h : 0x8000 ≤ v.toNat
  · simp [h]
    omega
  · simp [h]
    omega

/-- The constants that are printed with their sign are not negative. -/
theorem generatedConstant_lt {r : Fin 16} {as : Fin 4} {c : BitVec 16}
    (h : generatedConstant r as = some c) (has : as ≠ 3) : c.toNat < 0x8000 := by
  have hall : ∀ (r : Fin 16) (as : Fin 4), as ≠ 3 →
      (generatedConstant r as).all (fun c => decide (c.toNat < 0x8000)) = true := by decide
  have hc := hall r as has
  rw [h] at hc
  exact of_decide_eq_true hc

/-! ## The text in closed form -/

section Text

variable (emu : Emulator) (w : BitVec 16)

/-- The text of a source that is no constant. -/
def plainSourceText : Str :=
  match asFlag w with
  | 0 => regNumToName (sourceReg w)
  | 1 =>
    if sourceReg w = 0 then
      numeral (unsignedArg (emu.pc + sourceExtension emu - if adFlag w then 2 else 0))
    else if sourceReg w = 2 then bytes "&" ++ numeral (unsignedArg (sourceExtension emu))
    else indexedText (sourceExtension emu) (sourceReg w)
  | 2 => bytes "@" ++ regNumToName (sourceReg w)
  | 3 =>
    if sourceReg w = 0 then
      bytes "#" ++ numeral ((if adFlag w then unsignedArg else immediateArg (bwFlag w))
        (sourceExtension emu))
    else bytes "@" ++ regNumToName (sourceReg w) ++ bytes "+"

/-- The text of the source. -/
def sourceTextI : Str := constantText (constantI w) unsignedArg (plainSourceText emu w)

/-- The text of the destination. -/
def destinationTextI : Str :=
  if adFlag w then
    if lowReg w = 0 then
      numeral (unsignedArg (emu.pc + sourceAdvance w + destinationExtension emu w))
    else if lowReg w = 2 then
      bytes "&" ++ numeral ((if asFlag w = 2 then signedArg else unsignedArg)
        (destinationExtension emu w))
    else indexedText (destinationExtension emu w) (lowReg w)
  else regNumToName (lowReg w)

/-- The words behind the instruction. -/
def extensionsI : List (BitVec 16) :=
  (if sourceExtended w then [sourceExtension emu] else []) ++
    if adFlag w then [destinationExtension emu w] else []

/-- A constant of a mode other than 3 is printed alike with and without its sign. -/
theorem constantText_signedArg {r : Fin 16} {as : Fin 4} (has : as ≠ 3) (text : Str) :
    constantText (generatedConstant r as) signedArg text
      = constantText (generatedConstant r as) unsignedArg text := by
  cases hc : generatedConstant r as with
  | none => rfl
  | some c =>
    have hsign : signedArg c = unsignedArg c := by
      apply BitVec.eq_of_toNat_eq
      rw [toNat_signedArg, if_neg (not_le.mpr (generatedConstant_lt hc has)), unsignedArg,
        BitVec.toNat_setWidth]
      omega
    rw [constantText, constantText, hsign]

variable {w}

/-- The text of a destination in the state with which the operand block ends. -/
theorem destinationText_eq {emu' : Emulator} {offset : BitVec 16}
    {absolute : BitVec 16 → BitVec 32} (ha : adFlag w = true)
    (hpc : emu'.pc = emu.pc + sourceAdvance w + 2) (hoffset : offset = destinationExtension emu w)
    (habsolute : absolute = if asFlag w = 2 then signedArg else unsignedArg) :
    destinationText emu' (lowReg w) offset absolute = destinationTextI emu w := by
  have hsymbolic : emu.pc + sourceAdvance w + 2 + offset - 2
      = emu.pc + sourceAdvance w + offset := by
    bv_omega
  rw [destinationText, destinationTextI, if_pos ha, hpc, hsymbolic, hoffset, habsolute]

/-- The state behind an indexed source, as in the operand block. -/
theorem sourceIndexedText_emu (emu : Emulator) (constant : Option (BitVec 16)) (source : Fin 16)
    (correction : BitVec 16) : (sourceIndexedText emu constant source correction).emu
      = (sourceIndexed emu constant source correction).emu := by
  cases constant <;> rfl

theorem sourceAutoIncText_emu (emu : Emulator) (constant : Option (BitVec 16)) (source : Fin 16)
    (bw : Width) (disassemble : Bool) (immediate : BitVec 16 → BitVec 32) :
    (sourceAutoIncText emu constant source bw disassemble immediate).emu
      = (sourceAutoInc emu constant source bw disassemble).emu := by
  cases constant with
  | some c => rfl
  | none =>
    simp only [sourceAutoIncText, sourceAutoInc]
    split_ifs <;> rfl

/-- The text of an indexed source. -/
theorem sourceIndexedText_eq (h : asFlag w = 1) :
    (sourceIndexedText (lookupsI emu w) (generatedConstant (sourceReg w) 1) (sourceReg w)
        (if adFlag w then 4 else 2)).text = sourceTextI emu w ∧
      (sourceIndexedText (lookupsI emu w) (generatedConstant (sourceReg w) 1) (sourceReg w)
        (if adFlag w then 4 else 2)).hexParts
          = if sourceExtended w then [sourceExtension emu] else [] := by
  have hconstant : constantI w = generatedConstant (sourceReg w) 1 := by rw [constantI, h]
  have hext : (fetch (lookupsI emu w)).1 = sourceExtension emu := by
    simp [fetch, sourceExtension]
  have hsymbolic : (fetch (lookupsI emu w)).2.pc + sourceExtension emu
      - (if adFlag w then 4 else 2)
      = emu.pc + sourceExtension emu - (if adFlag w then 2 else 0) := by
    have hpc : (fetch (lookupsI emu w)).2.pc = emu.pc + 2 := by simp [fetch]
    rw [hpc]
    split_ifs
    · bv_omega
    · bv_omega
  have htext := constantText_signedArg (r := sourceReg w) (show (1 : Fin 4) ≠ 3 by decide)
    (plainSourceText emu w)
  rw [sourceTextI, hconstant, ← htext, sourceExtended, hconstant, h]
  cases hc : generatedConstant (sourceReg w) 1 with
  | some c => exact ⟨rfl, rfl⟩
  | none =>
    simp only [sourceIndexedText, constantText, plainSourceText, h, hext, hsymbolic]
    exact ⟨trivial, rfl⟩

/-- The text of a source in mode 3. -/
theorem sourceAutoIncText_eq (h : asFlag w = 3) (disassemble : Bool) :
    (sourceAutoIncText (lookupsI emu w) (generatedConstant (sourceReg w) 3) (sourceReg w)
        (bwFlag w) disassemble (if adFlag w then unsignedArg else immediateArg (bwFlag w))).text
        = sourceTextI emu w ∧
      (sourceAutoIncText (lookupsI emu w) (generatedConstant (sourceReg w) 3) (sourceReg w)
        (bwFlag w) disassemble
        (if adFlag w then unsignedArg else immediateArg (bwFlag w))).hexParts
          = if sourceExtended w then [sourceExtension emu] else [] := by
  have hconstant : constantI w = generatedConstant (sourceReg w) 3 := by rw [constantI, h]
  have hext : (fetch (lookupsI emu w)).1 = sourceExtension emu := by
    simp [fetch, sourceExtension]
  rw [sourceTextI, hconstant, sourceExtended, hconstant, h]
  cases hc : generatedConstant (sourceReg w) 3 with
  | some c => exact ⟨rfl, rfl⟩
  | none =>
    simp only [sourceAutoIncText, constantText, plainSourceText, h, hext]
    by_cases h0 : sourceReg w = 0
    · simp [h0]
    · simp [h0]

/-- The text of a source in register mode. -/
theorem sourceTextI_register (h : asFlag w = 0) :
    constantText (generatedConstant (sourceReg w) 0) unsignedArg (regNumToName (sourceReg w))
      = sourceTextI emu w := by
  rw [sourceTextI, constantI, plainSourceText, h]

/-- The text of an indirect source. -/
theorem sourceTextI_indirect (h : asFlag w = 2) :
    constantText (generatedConstant (sourceReg w) 2) signedArg
      (bytes "@" ++ regNumToName (sourceReg w)) = sourceTextI emu w := by
  rw [constantText_signedArg (by decide), sourceTextI, constantI, plainSourceText, h]

theorem sourceExtended_of_even (h : asFlag w = 0 ∨ asFlag w = 2) : sourceExtended w = false := by
  rcases h with h | h
  · simp [sourceExtended, h]
  · simp [sourceExtended, h]

variable (w)

/-- Before a register destination. -/
theorem textI_register (ha : adFlag w = false) (disassemble : Bool) :
    textI emu w disassemble
      = ⟨sourceTextI emu w ++ bytes ", " ++ regNumToName (lowReg w), [],
          if sourceExtended w then [sourceExtension emu] else []⟩ := by
  rw [textI, ← lookupsI]
  rcases asFlag_cases w with h | h | h | h
  · have hnone := sourceExtended_of_even (.inl h)
    simp only [h, ha, textRegister, sourceTextI_register emu h, hnone]
    rfl
  · obtain ⟨htext, hparts⟩ := sourceIndexedText_eq emu h
    simp only [ha] at htext hparts
    simp only [h, ha, textRegister]
    rw [← htext, ← hparts]
    rfl
  · have hnone := sourceExtended_of_even (.inr h)
    simp only [h, ha, textRegister, sourceTextI_indirect emu h, hnone]
    rfl
  · obtain ⟨htext, hparts⟩ := sourceAutoIncText_eq emu h disassemble
    simp only [ha] at htext hparts
    simp only [h, ha, textRegister]
    rw [← htext, ← hparts]
    rfl

/-- A destination with an extension word, in a state that has read the source: its state and its
offset are those of the operand block. -/
theorem textIndexed_eq {emu' : Emulator} {absolute : BitVec 16 → BitVec 32} (source : Str)
    (parts : List (BitVec 16)) (ha : adFlag w = true)
    (hmem : emu'.mem = (lookupsI emu w).mem) (hpc : emu'.pc = emu.pc + sourceAdvance w)
    (habsolute : absolute = if asFlag w = 2 then signedArg else unsignedArg) :
    textIndexed source (destinationText (fetch emu').2 (lowReg w) (fetch emu').1 absolute)
        (parts ++ [(fetch emu').1])
      = ⟨source ++ bytes ", " ++ destinationTextI emu w, destinationTextI emu w,
          parts ++ [destinationExtension emu w]⟩ := by
  have hoffset : (fetch emu').1 = destinationExtension emu w := by
    rw [fetch, hpc, load16_congr_mem hmem, load16_lookupsI, destinationExtension]
  have hend : (fetch emu').2.pc = emu.pc + sourceAdvance w + 2 := by
    simp [fetch, hpc]
  rw [textIndexed, destinationText_eq emu ha hend hoffset habsolute, hoffset]

/-- The state behind an indexed source has read its extension word. -/
theorem pc_sourceIndexed_lookupsI (h : asFlag w = 1) (correction : BitVec 16) :
    (sourceIndexed (lookupsI emu w) (generatedConstant (sourceReg w) 1) (sourceReg w)
      correction).emu.pc = emu.pc + sourceAdvance w := by
  have hpc : (lookupsI emu w).regs 0 = emu.pc := pc_lookupsI emu w
  rw [sourceIndexed_emu]
  simp [Emulator.pc, hpc, sourceAdvance, sourceExtended, constantI, h]

/-- The state behind a source in mode 3 has read the immediate when there is one. -/
theorem pc_sourceAutoInc_lookupsI (h : asFlag w = 3) (disassemble : Bool) :
    (sourceAutoInc (lookupsI emu w) (generatedConstant (sourceReg w) 3) (sourceReg w) (bwFlag w)
      disassemble).emu.pc = emu.pc + sourceAdvance w := by
  have hpc : (lookupsI emu w).regs 0 = emu.pc := pc_lookupsI emu w
  rw [sourceAutoInc_emu]
  by_cases h0 : sourceReg w = 0
  · simp [Emulator.pc, hpc, sourceAdvance, sourceExtended, constantI, h, h0]
  · simp [Emulator.pc, hpc, sourceAdvance, sourceExtended, h, h0, Ne.symm h0]

/-- Before a destination with an extension word. -/
theorem textI_indexed (ha : adFlag w = true) (disassemble : Bool) :
    textI emu w disassemble
      = ⟨sourceTextI emu w ++ bytes ", " ++ destinationTextI emu w, destinationTextI emu w,
          (if sourceExtended w then [sourceExtension emu] else [])
            ++ [destinationExtension emu w]⟩ := by
  have hunread (hnone : sourceExtended w = false) :
      (lookupsI emu w).pc = emu.pc + sourceAdvance w := by
    simp [sourceAdvance, hnone]
  rw [textI, ← lookupsI]
  rcases asFlag_cases w with h | h | h | h
  · have hnone := sourceExtended_of_even (.inl h)
    have hconstant := constantText_signedArg (r := sourceReg w) (show (0 : Fin 4) ≠ 3 by decide)
      (regNumToName (sourceReg w))
    simp only [h, ha, hconstant, sourceTextI_register emu h, hnone]
    exact textIndexed_eq emu w _ [] ha rfl (hunread hnone) (by rw [h]; rfl)
  · obtain ⟨htext, hparts⟩ := sourceIndexedText_eq emu h
    simp only [ha, if_true] at htext hparts
    simp only [h, ha, htext, hparts]
    apply textIndexed_eq emu w _ _ ha
    · rw [sourceIndexedText_emu, sourceIndexed_emu]
    · rw [sourceIndexedText_emu, pc_sourceIndexed_lookupsI emu w h]
    · rw [h]
      rfl
  · have hnone := sourceExtended_of_even (.inr h)
    simp only [h, ha, sourceTextI_indirect emu h, hnone]
    exact textIndexed_eq emu w _ [] ha rfl (hunread hnone) (by rw [h]; rfl)
  · obtain ⟨htext, hparts⟩ := sourceAutoIncText_eq emu h disassemble
    simp only [ha, if_true] at htext hparts
    simp only [h, ha, htext, hparts]
    apply textIndexed_eq emu w _ _ ha
    · rw [sourceAutoIncText_emu, sourceAutoInc_emu]
    · rw [sourceAutoIncText_emu, pc_sourceAutoInc_lookupsI emu w h]
    · rw [h]
      rfl

/-- The words printed behind the instruction word are its extension words. -/
theorem hexParts_textI (disassemble : Bool) :
    (textI emu w disassemble).hexParts = extensionsI emu w := by
  cases ha : adFlag w with
  | false =>
    rw [textI_register emu w ha, extensionsI, ha]
    exact (List.append_nil _).symm
  | true =>
    rw [textI_indexed emu w ha, extensionsI, ha]
    rfl

/-- The operands of Format I, with either destination. -/
theorem asmOperands_textI (disassemble : Bool) :
    (textI emu w disassemble).asmOperands
      = sourceTextI emu w ++ bytes ", " ++ destinationTextI emu w := by
  cases ha : adFlag w with
  | false =>
    rw [textI_register emu w ha, destinationTextI, ha]
    rfl
  | true => rw [textI_indexed emu w ha]

end Text


end Msp430
