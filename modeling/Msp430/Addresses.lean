/-
# The addresses that the disassembler names

Where a jump goes and where a symbolic or an absolute operand lies is worked out twice, for the
text and for the execution.  The numerals of the text are read back and compared with the
addresses that the execution of the same word uses: `addresses_iff` says where they part.
-/
import Msp430.PrintedLines
import Msp430.OperandsII
import Msp430.Startup

namespace Msp430

open CString

/-! ## What is printed -/

/-- The number of an operand that is printed as an address, `0xS` or `&0xS`. -/
def addressNumeral (operand : Str) : Option ℕ :=
  let s := if operand.head? = some 0x26 then operand.tail else operand
  if s.take 2 = bytes "0x" ∧ ∀ c ∈ s.drop 2, isDigit 16 c = true then
    some (CString.numberOf 16 (s.drop 2))
  else none

/-- The addresses in the third column of a line that `decode` prints. -/
def addressNumerals (line : Str) : List ℕ :=
  (items ((columns line).getD 2 [])).filterMap addressNumeral

/-! ## What is used -/

/-- The cases of `decode_formatI` that dereference `destination_addr`: not DADD. -/
def throughDestination (opcode : Fin 16) : Bool := opcode != 0xA

/-- The symbolic and the absolute operands of `decode_formatI`: the source is read through a
pointer of its own where it is resolved, the destination through `destination_addr` by the
switch. -/
def addressesI (emu : Emulator) (w : BitVec 16) : List Ptr :=
  let o := operandsI emu w false
  (if asFlag w = 1 ∧ (sourceReg w = 0 ∨ sourceReg w = 2) then o.sourceAddr.toList else [])
    ++ if adFlag w ∧ (lowReg w = 0 ∨ lowReg w = 2) ∧ throughDestination (formatId w) then
      [o.destinationAddr] else []

/-- The case that is left out does nothing with the pointer. -/
theorem executeI_congr (emu : Emulator) {opcode : Fin 16} (h : throughDestination opcode = false)
    (bw : Width) (v : BitVec 16) (p q : Ptr) :
    executeI emu opcode bw v p = executeI emu opcode bw v q := by
  obtain rfl : opcode = 0xA := by simpa [throughDestination] using h
  rfl

/-- The cases of `decode_formatII` that dereference `source_address`: not PUSH, not RETI. -/
def throughAddress (opcode : Fin 8) : Bool := !(opcode == 4 || opcode == 6 || opcode == 7)

/-- The operand of `decode_formatII`: an absolute one is read where it is resolved, a symbolic
one by the switch. -/
def addressesII (emu : Emulator) (w : BitVec 16) : List Ptr :=
  if asFlag w = 1 ∧ (lowReg w = 2 ∨ (lowReg w = 0 ∧ throughAddress (opcodeII w))) then
    [(operandsII emu w).sourceAddress]
  else []

/-- The cases that are left out do nothing with the pointer. -/
theorem executeII_congr (emu : Emulator) {opcode : Fin 8} (h : throughAddress opcode = false)
    (bw : Width) (v : BitVec 16) (p q : Ptr) :
    executeII emu opcode bw v p = executeII emu opcode bw v q := by
  fin_cases opcode <;> first | rfl | exact absurd h (by decide)

/-- **The text names the addresses that the execution uses.** -/
structure NamesAddresses (emu : Emulator) (w : BitVec 16) : Prop where
  formatI : 4 ≤ formatId w → (addressNumerals (decodeText emu w)).map .mem = addressesI emu w
  formatII : formatId w = 1 → (addressNumerals (decodeText emu w)).map .mem = addressesII emu w
  jumps : 2 ≤ formatId w → formatId w ≤ 3 → conditionHolds emu.sr (jumpCondition w) = true →
    addressNumerals (decodeText emu w) = [(decode emu w false).pc.toNat]

/-! ## Where they part -/

/-- An indirect source before an absolute destination in the upper half, which is printed with
its sign. -/
def PrintsSigned (emu : Emulator) (w : BitVec 16) : Prop :=
  adFlag w = true ∧ asFlag w = 2 ∧ lowReg w = 2 ∧ 0x8000 ≤ (destinationExtension emu w).toNat

/-- A symbolic or an absolute destination that nothing touches. -/
def LeavesDestination (w : BitVec 16) : Prop :=
  adFlag w = true ∧ (lowReg w = 0 ∨ lowReg w = 2) ∧ throughDestination (formatId w) = false

/-- A symbolic operand that nothing reads. -/
def LeavesOperand (w : BitVec 16) : Prop :=
  asFlag w = 1 ∧ lowReg w = 0 ∧ throughAddress (opcodeII w) = false

/-- A jump over the end of the address space, whose target is printed as an `int`. -/
def JumpsAround (emu : Emulator) (w : BitVec 16) : Prop :=
  ¬ (0 ≤ (emu.pc.toNat : ℤ) + (signedOffset w).toInt ∧
    (emu.pc.toNat : ℤ) + (signedOffset w).toInt < 2 ^ 16)

/-- The words whose text and execution agree on the addresses. -/
structure AddressesAgree (emu : Emulator) (w : BitVec 16) : Prop where
  formatI : 4 ≤ formatId w → ¬ LeavesDestination w ∧ ¬ PrintsSigned emu w
  formatII : formatId w = 1 → ¬ LeavesOperand w
  jumps : 2 ≤ formatId w → formatId w ≤ 3 → conditionHolds emu.sr (jumpCondition w) = true →
    ¬ JumpsAround emu w

/-! ## Reading the text back -/

section Reading

/-- A numeral, read back. -/
theorem addressNumeral_numeral (v : BitVec 32) : addressNumeral (numeral v) = some v.toNat := by
  have hdigits := isDigit_printHex 4 v.toNat
  change (if _ ∧ _ then _ else _) = _
  rw [if_pos ⟨rfl, hdigits⟩]
  exact congrArg some (numberOf_printHex 4 v.toNat)

/-- An absolute address, read back. -/
theorem addressNumeral_absolute (v : BitVec 32) :
    addressNumeral (bytes "&" ++ numeral v) = some v.toNat :=
  addressNumeral_numeral v

/-- An operand that begins with another sign is no address. -/
theorem addressNumeral_cons {c : BitVec 8} (hamp : c ≠ 0x26) (hzero : c ≠ 0x30) (s : Str) :
    addressNumeral (c :: s) = none := by
  have hprefix : ¬ ((c :: s).take 2 = bytes "0x" ∧ ∀ d ∈ (c :: s).drop 2, isDigit 16 d = true) := by
    rintro ⟨htake, -⟩
    exact hzero (List.cons.inj htake).1
  rw [addressNumeral]
  simp only [List.head?_cons, Option.some.injEq, hamp, if_false]
  exact if_neg hprefix

/-- A constant is no address. -/
theorem addressNumeral_constant (s : Str) : addressNumeral (bytes "#" ++ s) = none :=
  addressNumeral_cons (c := 0x23) (by decide) (by decide) s

/-- A register in an indirect mode is no address. -/
theorem addressNumeral_indirect (s : Str) : addressNumeral (bytes "@" ++ s) = none :=
  addressNumeral_cons (c := 0x40) (by decide) (by decide) s

@[simp] theorem addressNumeral_regNumToName (r : Fin 16) :
    addressNumeral (regNumToName r) = none := by
  revert r
  decide

/-- An indexed operand is no address: a register stands behind the digits. -/
@[simp] theorem addressNumeral_indexedText (offset : BitVec 16) (r : Fin 16) :
    addressNumeral (indexedText offset r) = none := by
  change (if _ ∧ _ then _ else _) = _
  refine if_neg ?_
  rintro ⟨-, hdigits⟩
  have hmem : (0x28 : BitVec 8) ∈ (indexedText offset r).drop 2 := by
    change _ ∈ printHex 4 (unsignedArg offset).toNat ++ bytes "(" ++ regNumToName r ++ bytes ")"
    simp [bytes]
  exact absurd (hdigits _ hmem) (by decide)

end Reading

/-! ## The numerals of each format -/

section Numerals

variable (emu : Emulator) (w : BitVec 16)

/-- The numerals of a line of three columns. -/
theorem addressNumerals_of_columns {line hex mnemonic operands : Str}
    (h : columns line = [hex, mnemonic, operands]) :
    addressNumerals line = (items operands).flatMap fun s => (addressNumeral s).toList := by
  rw [addressNumerals, h, List.filterMap_eq_flatMap_toList]
  rfl

theorem addressNumerals_formatI (hd : emu.debugMode = true) (h : 4 ≤ formatId w) :
    addressNumerals (decodeText emu w)
      = (addressNumeral (sourceTextI emu w)).toList
        ++ (addressNumeral (destinationTextI emu w)).toList := by
  rw [addressNumerals_of_columns (columns_formatI hd h),
    items_pair (plain_sourceTextI emu w) (plain_destinationTextI emu w), List.flatMap_cons,
    List.flatMap_singleton]

theorem addressNumerals_formatII (hd : emu.debugMode = true) (h : formatId w = 1) :
    addressNumerals (decodeText emu w)
      = (addressNumeral (textII emu w).asmOperand).toList := by
  rw [addressNumerals_of_columns (columns_formatII hd h), items_single (plain_textII emu w),
    List.flatMap_singleton]

theorem addressNumerals_formatIII (hd : emu.debugMode = true)
    (h : 2 ≤ formatId w ∧ formatId w ≤ 3) :
    addressNumerals (decodeText emu w)
      = [(unsignedArg emu.pc + signedArg (signedOffset w)).toNat] := by
  rw [addressNumerals_of_columns (columns_formatIII hd h), jumpText,
    items_single (plain_numeral _), List.flatMap_singleton, addressNumeral_numeral]
  rfl

end Numerals

/-! ## The addresses of each format -/

section Agreement

variable (emu : Emulator) {w : BitVec 16}

/-- The sources that are printed as addresses. -/
theorem addressNumeral_sourceTextI (h : ¬ (asFlag w = 1 ∧ (sourceReg w = 0 ∨ sourceReg w = 2))) :
    addressNumeral (sourceTextI emu w) = none := by
  rw [sourceTextI]
  cases hc : constantI w with
  | some c => exact addressNumeral_constant _
  | none =>
    rw [constantText, plainSourceText]
    rcases asFlag_cases w with has | has | has | has <;> simp only [has]
    · exact addressNumeral_regNumToName _
    · obtain ⟨h0, h2⟩ := not_or.mp fun hr => h ⟨has, hr⟩
      rw [if_neg h0, if_neg h2, addressNumeral_indexedText]
    · exact addressNumeral_indirect _
    · by_cases h0 : sourceReg w = 0
      · rw [if_pos h0]
        exact addressNumeral_constant _
      · rw [if_neg h0, List.append_assoc]
        exact addressNumeral_indirect _

/-- **The source is named rightly.** -/
theorem source_named :
    ((addressNumeral (sourceTextI emu w)).toList).map .mem
      = if asFlag w = 1 ∧ (sourceReg w = 0 ∨ sourceReg w = 2) then
          (operandsI emu w false).sourceAddr.toList else [] := by
  by_cases h : asFlag w = 1 ∧ (sourceReg w = 0 ∨ sourceReg w = 2)
  · obtain ⟨has, hreg⟩ := h
    have hconstant : constantI w = none := by
      rcases hreg with h0 | h2
      · simp [constantI, has, h0, generatedConstant]
      · simp [constantI, has, h2, generatedConstant]
    rw [if_pos ⟨has, hreg⟩, operandsI_sourceAddr, sourceTextI, hconstant, constantText,
      plainSourceText, sourceCellI]
    simp only [has]
    by_cases h0 : sourceReg w = 0
    · simp [h0, addressNumeral_numeral, toNat_unsignedArg, getAddrPtr]
    · have h2 := hreg.resolve_left h0
      simp [h2, addressNumeral_absolute, toNat_unsignedArg, getAddrPtr]
  · rw [if_neg h, addressNumeral_sourceTextI emu h]
    rfl

/-- The destination that is resolved is named rightly but for the sign. -/
theorem resolved_named_iff :
    ((addressNumeral (destinationTextI emu w)).toList).map .mem
        = (if adFlag w ∧ (lowReg w = 0 ∨ lowReg w = 2) then
            [(operandsI emu w false).destinationAddr] else [])
      ↔ ¬ PrintsSigned emu w := by
  rw [operandsI_destinationAddr, destinationTextI, destinationI, PrintsSigned]
  cases ha : adFlag w with
  | false => simp
  | true =>
    by_cases h0 : lowReg w = 0
    · simp [h0, addressNumeral_numeral, toNat_unsignedArg, getAddrPtr]
    · by_cases h2 : lowReg w = 2
      · by_cases h : asFlag w = 2
        · have hread := addressNumeral_absolute (signedArg (destinationExtension emu w))
          rw [toNat_signedArg] at hread
          by_cases hhigh : 0x8000 ≤ (destinationExtension emu w).toNat
          · simp [h, h2, hread, hhigh, getAddrPtr]
          · simp [h, h2, hread, hhigh, getAddrPtr]
        · simp [h, h2, addressNumeral_absolute, toNat_unsignedArg, getAddrPtr]
      · simp [h0, h2]

/-- A symbolic and an absolute destination are printed as numerals. -/
theorem destination_printed (h : adFlag w = true ∧ (lowReg w = 0 ∨ lowReg w = 2)) :
    addressNumeral (destinationTextI emu w) ≠ none := by
  obtain ⟨had, h0 | h2⟩ := h
  · simp [destinationTextI, had, h0, addressNumeral_numeral]
  · by_cases has : asFlag w = 2 <;>
      simp [destinationTextI, had, h2, has, addressNumeral_absolute]

/-- **The destination is named rightly** but for the sign, and where nothing touches it. -/
theorem destination_named_iff :
    ((addressNumeral (destinationTextI emu w)).toList).map .mem
        = (if adFlag w ∧ (lowReg w = 0 ∨ lowReg w = 2) ∧ throughDestination (formatId w) then
            [(operandsI emu w false).destinationAddr] else [])
      ↔ ¬ LeavesDestination w ∧ ¬ PrintsSigned emu w := by
  cases hthrough : throughDestination (formatId w) with
  | true =>
    have htouched : ¬ LeavesDestination w := fun h => by rw [h.2.2] at hthrough; cases hthrough
    rw [and_iff_right htouched, ← resolved_named_iff emu]
    simp
  | false =>
    by_cases hprinted : adFlag w = true ∧ (lowReg w = 0 ∨ lowReg w = 2)
    · have hleft : LeavesDestination w := ⟨hprinted.1, hprinted.2, hthrough⟩
      have hsome := destination_printed emu hprinted
      simpa [hleft] using hsome
    · -- neither printed as an address nor accessed
      have htouched : ¬ LeavesDestination w := fun h => hprinted ⟨h.1, h.2.1⟩
      rw [and_iff_right htouched, ← resolved_named_iff emu, if_neg hprinted]
      simp

/-- **Format I.** -/
theorem formatI_named_iff (hd : emu.debugMode = true) (h : 4 ≤ formatId w) :
    (addressNumerals (decodeText emu w)).map .mem = addressesI emu w
      ↔ ¬ LeavesDestination w ∧ ¬ PrintsSigned emu w := by
  rw [addressNumerals_formatI emu w hd h, List.map_append, source_named emu, addressesI,
    List.append_cancel_left_eq]
  exact destination_named_iff emu

/-- The operands of Format II that are printed as addresses. -/
theorem addressNumeral_textII (h : ¬ (asFlag w = 1 ∧ (lowReg w = 0 ∨ lowReg w = 2))) :
    addressNumeral (textII emu w).asmOperand = none := by
  simp only [textII]
  cases hc : generatedConstant (lowReg w) (asFlag w) with
  | some c =>
    rcases asFlag_cases w with has | has | has | has <;> simp only [has] <;>
      exact addressNumeral_constant _
  | none =>
    rcases asFlag_cases w with has | has | has | has <;> simp only [has]
    · exact addressNumeral_regNumToName _
    · obtain ⟨h0, h2⟩ := not_or.mp fun hr => h ⟨has, hr⟩
      simp only [indexedTextII]
      rw [if_neg h0, if_neg h2, addressNumeral_indexedText]
    · exact addressNumeral_indirect _
    · simp only [autoIncTextII]
      by_cases h0 : lowReg w = 0
      · rw [if_pos h0]
        exact addressNumeral_constant _
      · rw [if_neg h0, List.append_assoc]
        exact addressNumeral_indirect _

/-- A symbolic and an absolute operand of Format II are printed as the pointer says. -/
theorem operand_named (h : asFlag w = 1 ∧ (lowReg w = 0 ∨ lowReg w = 2)) :
    ((addressNumeral (textII emu w).asmOperand).toList).map .mem
      = [(operandsII emu w).sourceAddress] := by
  obtain ⟨has, hreg⟩ := h
  have hconstant : generatedConstant (lowReg w) 1 = none := by
    rcases hreg with h0 | h2
    · rw [h0]
      rfl
    · rw [h2]
      rfl
  have hext : (fetch (getRegPtr emu (lowReg w))).1 = extensionII emu := by
    simp [fetch, extensionII]
  have hpc : (fetch (getRegPtr emu (lowReg w))).2.pc = emu.pc + 2 := by simp [fetch]
  rw [(operandsII_source emu w).1, sourceCellII, constantII, immediateII]
  simp only [textII, has, hconstant, indexedTextII, hext, hpc]
  by_cases h0 : lowReg w = 0
  · simp [h0, addressNumeral_numeral, toNat_unsignedArg, getAddrPtr]
  · have h2 := hreg.resolve_left h0
    simp [h2, addressNumeral_absolute, toNat_unsignedArg, getAddrPtr]

/-- **Format II.** -/
theorem formatII_named_iff (hd : emu.debugMode = true) (h : formatId w = 1) :
    (addressNumerals (decodeText emu w)).map .mem = addressesII emu w ↔ ¬ LeavesOperand w := by
  rw [addressNumerals_formatII emu w hd h, addressesII, LeavesOperand]
  by_cases hprinted : asFlag w = 1 ∧ (lowReg w = 0 ∨ lowReg w = 2)
  · rw [operand_named emu hprinted]
    obtain ⟨has, h0 | h2⟩ := hprinted
    · cases hthrough : throughAddress (opcodeII w) <;> simp [has, h0]
    · simp [has, h2]
  · rw [addressNumeral_textII emu hprinted]
    have hneither (has : asFlag w = 1) : lowReg w ≠ 0 ∧ lowReg w ≠ 2 :=
      not_or.mp fun hr => hprinted ⟨has, hr⟩
    have hused : ¬ (asFlag w = 1 ∧
        (lowReg w = 2 ∨ (lowReg w = 0 ∧ throughAddress (opcodeII w) = true))) := by
      rintro ⟨has, h2 | ⟨h0, -⟩⟩
      · exact (hneither has).2 h2
      · exact (hneither has).1 h0
    rw [if_neg hused]
    exact iff_of_true rfl fun hc => (hneither hc.1).1 hc.2.1

/-- The sum as an `int` is printed as the number that the program counter gets exactly when it
lies in the address space. -/
theorem toNat_sum_iff (a b : BitVec 16) :
    (unsignedArg a + signedArg b).toNat = (a + b).toNat
      ↔ 0 ≤ (a.toNat : ℤ) + b.toInt ∧ (a.toNat : ℤ) + b.toInt < 2 ^ 16 := by
  have ha := a.isLt
  have hb := b.isLt
  rw [BitVec.toNat_add, BitVec.toNat_add, toNat_unsignedArg, toNat_signedArg,
    BitVec.toInt_eq_toNat_cond]
  split_ifs <;> omega

/-- **Format III.** -/
theorem formatIII_named_iff (hd : emu.debugMode = true) (h : 2 ≤ formatId w ∧ formatId w ≤ 3)
    (htaken : conditionHolds emu.sr (jumpCondition w) = true) :
    addressNumerals (decodeText emu w) = [(decode emu w false).pc.toNat]
      ↔ ¬ JumpsAround emu w := by
  have hpc : (decode emu w false).pc = emu.pc + signedOffset w := by
    rw [decode_formatIII _ _ _ h, decodeFormatIII, if_neg (by decide), if_pos htaken]
    rfl
  rw [addressNumerals_formatIII emu w hd h, hpc, JumpsAround, not_not, List.cons.injEq,
    toNat_sum_iff]
  exact and_iff_left rfl

end Agreement

/-- **The text names the addresses of the execution** but for a sign, for operands that are
left alone, and for a jump over the end of the address space. -/
theorem addresses_iff (emu : Emulator) (w : BitVec 16) (hd : emu.debugMode = true) :
    NamesAddresses emu w ↔ AddressesAgree emu w := by
  constructor
  · intro h
    exact {
      formatI := fun hf => (formatI_named_iff emu hd hf).mp (h.formatI hf)
      formatII := fun hf => (formatII_named_iff emu hd hf).mp (h.formatII hf)
      jumps := fun hlow hhigh htaken =>
        (formatIII_named_iff emu hd ⟨hlow, hhigh⟩ htaken).mp (h.jumps hlow hhigh htaken) }
  · intro h
    exact {
      formatI := fun hf => (formatI_named_iff emu hd hf).mpr (h.formatI hf)
      formatII := fun hf => (formatII_named_iff emu hd hf).mpr (h.formatII hf)
      jumps := fun hlow hhigh htaken =>
        (formatIII_named_iff emu hd ⟨hlow, hhigh⟩ htaken).mpr (h.jumps hlow hhigh htaken) }

/-- `MOV &S, &D` names both its addresses. -/
theorem addresses_iff_absolute : NamesAddresses startState 0x4292 :=
  (addresses_iff startState 0x4292 rfl).mpr {
    formatI := fun _ => ⟨fun h => absurd h.2.2 (by decide), fun h => absurd h.2.1 (by decide)⟩
    formatII := fun h => absurd h (by decide)
    jumps := fun _ h _ => absurd h (by decide) }

/-- `MOV @R4, &0xFFE0` is printed with the address `0xFFFFFFE0`. -/
theorem address_printed_signed :
    ¬ ∀ (emu : Emulator) (w : BitVec 16), emu.debugMode = true → NamesAddresses emu w := by
  intro h
  have hnamed := (h (startState.store16 (.mem 0xC000) 0xFFE0) 0x44A2 rfl).formatI (by decide)
  revert hnamed
  decide +kernel

end Msp430
