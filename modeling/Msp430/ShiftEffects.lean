/-
# What the single-operand shifts change

RRC, RRA, SWPB and SXT against the instruction set: `shiftResult` and `shiftedFlags` are
what they are documented to leave, on operands of any width.  All are exact on registers
and in memory, except RRA.B, which shifts the whole word that holds its byte.
-/
import Msp430.Encodings
import Msp430.LogicalFlags

namespace Msp430

/-! ## What the instructions promise -/

/-- The documented result of RRC (the carry, then the upper bits), SWPB, RRA and SXT. -/
def shiftResult {k : ℕ} (opcode : Fin 8) (carry : Bool) (v : BitVec (k + 1)) :
    BitVec (k + 1) :=
  match opcode with
  | 0x0 => BitVec.cons carry (v.extractLsb' 1 k)
  | 0x1 => v.rotateLeft 8
  | 0x2 => v.sshiftRight 1
  | 0x3 => (v.setWidth 8).signExtend (k + 1)
  | _ => v

/-- The status register that they are documented to leave. -/
def shiftedFlags {k : ℕ} (opcode : Fin 8) (sr : StatusReg) (v : BitVec (k + 1)) :
    StatusReg :=
  let r := shiftResult opcode sr.carry v
  match opcode with
  | 0x0 => { resultFlags sr r false with carry := v.getLsbD 0 }
  | 0x2 => { resultFlags sr r false with carry := v.getLsbD 0 }
  | 0x3 => resultFlags sr r false
  | _ => sr

/-! ## The values that the code stores -/

/-- A right shift with a bit put in at the top. -/
theorem shiftRight_or_top {k : ℕ} (c : Bool) (v : BitVec (k + 1)) :
    (v >>> 1 ||| if c then BitVec.twoPow (k + 1) k else 0)
      = BitVec.cons c (v.extractLsb' 1 k) := by
  ext i hi
  rw [← BitVec.getLsbD_eq_getElem, ← BitVec.getLsbD_eq_getElem, BitVec.getLsbD_or,
    BitVec.getLsbD_ushiftRight, BitVec.getLsbD_cons]
  by_cases htop : i = k
  · cases c <;> simp [htop, Nat.add_comm 1 k]
  · cases c <;> simp [htop, Ne.symm htop, show i < k by omega, BitVec.getLsbD_twoPow]

/-- An arithmetic shift puts the sign in at the top. -/
theorem sshiftRight_one {k : ℕ} (v : BitVec (k + 1)) :
    v.sshiftRight 1 = BitVec.cons v.msb (v.extractLsb' 1 k) := by
  ext i hi
  rw [← BitVec.getLsbD_eq_getElem, ← BitVec.getLsbD_eq_getElem, BitVec.getLsbD_sshiftRight,
    BitVec.getLsbD_cons]
  by_cases htop : i = k
  · simp [htop, Nat.add_comm 1 k]
  · simp [htop, show i < k by omega, show 1 + i < k + 1 by omega, show ¬ k < i by omega]

/-- RRC in word form. -/
theorem rrcValue_word (c : Bool) (v : BitVec 16) : rrcValue .word c v = shiftResult 0 c v :=
  shiftRight_or_top c v

/-- RRC in byte form: the low byte is shifted, the high byte stays. -/
theorem rrcValue_byte (c : Bool) (v : BitVec 16) :
    rrcValue .byte c v = joinBytes (highByte v) (shiftResult 0 c (v.setWidth 8)) :=
  congrArg (joinBytes (highByte v)) (shiftRight_or_top c (v.setWidth 8))

/-- SWPB. -/
theorem swpbValue_eq (c : Bool) (v : BitVec 16) : swpbValue v = shiftResult 1 c v := by
  ext i hi
  rw [← BitVec.getLsbD_eq_getElem, ← BitVec.getLsbD_eq_getElem]
  by_cases h : i < 8
  · simp [swpbValue, shiftResult, joinBytes, highByte, h, hi, Nat.add_comm 8 i]
    exact BitVec.getLsbD_eq_getElem _
  · simp [swpbValue, shiftResult, joinBytes, highByte, h, hi, show i - 8 < 8 by omega]
    exact BitVec.getLsbD_eq_getElem _

/-- RRA in word form. -/
theorem rraValue_word_eq (c : Bool) (v : BitVec 16) :
    rraValue .word v = shiftResult 2 c v := by
  have hshift := shiftRight_or_top v.msb v
  rw [← sshiftRight_one] at hshift
  rw [rraValue, shift_fifteen]
  exact hshift

/-- RRA in byte form, on a word without high byte. -/
theorem rraValue_byte_eq (c : Bool) (b : BitVec 8) :
    rraValue .byte (joinBytes 0 b) = joinBytes 0 (shiftResult 2 c b) := by
  show rraValue .byte (joinBytes 0 b) = joinBytes 0 (b.sshiftRight 1)
  revert b
  decide

/-- SXT. -/
theorem sxtValue_eq (c : Bool) (v : BitVec 16) : sxtValue v = shiftResult 3 c v := by
  have hext : ∀ b : BitVec 8,
      joinBytes (if b.getLsbD 7 then 0xFF else 0) b = b.signExtend 16 := by decide
  have hbit : v.getLsbD 7 = (v.setWidth 8).getLsbD 7 := by simp
  rw [sxtValue_eq_joinBytes, hbit, hext]
  rfl

/-! ## The operand -/

/-- RRC, RRA, SWPB or SXT, a byte form only of the first two, on one of the registers
`R4 … R15` or on an indexed, absolute, indirect or auto-incremented operand. -/
def ShiftsOperand (w : BitVec 16) : Prop :=
  formatId w = 1 ∧ opcodeII w ≤ 3 ∧ (bwFlag w = .byte → opcodeII w = 0 ∨ opcodeII w = 2) ∧
    ((asFlag w = 0 ∧ 4 ≤ lowReg w) ∨
      (asFlag w = 1 ∧ lowReg w ≠ 0 ∧ lowReg w ≠ 3) ∨
      (asFlag w = 2 ∧ lowReg w ≠ 2 ∧ lowReg w ≠ 3) ∨
      (asFlag w = 3 ∧ lowReg w ≠ 0 ∧ lowReg w ≠ 2 ∧ lowReg w ≠ 3))

instance (w : BitVec 16) : Decidable (ShiftsOperand w) := inferInstanceAs (Decidable (_ ∧ _))

/-- Such an operand is no constant and no immediate. -/
theorem ShiftsOperand.not_constant {w : BitVec 16} (h : ShiftsOperand w) :
    ¬ ((constantII w).isSome || immediateII w) = true := by
  obtain ⟨-, -, -, hmode⟩ := h
  have hreg {n : Fin 16} (hn : 4 ≤ n) : n ≠ 2 ∧ n ≠ 3 := by
    constructor <;> rintro rfl <;> exact absurd hn (by decide)
  rcases hmode with ⟨ha, hr⟩ | ⟨ha, h0, h3⟩ | ⟨ha, h2, h3⟩ | ⟨ha, h0, h2, h3⟩
  · simp [constantII, generatedConstant, immediateII, ha, (hreg hr).1, (hreg hr).2]
  · simp [constantII, generatedConstant, immediateII, ha, h3]
  · simp [constantII, generatedConstant, immediateII, ha, h2, h3]
  · simp [constantII, generatedConstant, immediateII, ha, h0, h2, h3]

/-- The operand lies in its register or in memory. -/
theorem ShiftsOperand.cell_cases {w : BitVec 16} (h : ShiftsOperand w) (emu : Emulator) :
    (asFlag w = 0 ∧ 4 ≤ lowReg w ∧ sourceCellII emu w = .reg (lowReg w)) ∨
      (asFlag w ≠ 0 ∧ ∃ a, sourceCellII emu w = .mem a) := by
  by_cases ha : asFlag w = 0
  · left
    obtain ⟨-, -, -, ⟨-, hr⟩ | ⟨h1, -⟩ | ⟨h2, -⟩ | ⟨h3, -⟩⟩ := id h
    · refine ⟨ha, hr, ?_⟩
      rw [sourceCellII, if_neg h.not_constant]
      simp only [ha]
    · exact absurd (ha.symm.trans h1) (by decide)
    · exact absurd (ha.symm.trans h2) (by decide)
    · exact absurd (ha.symm.trans h3) (by decide)
  · right
    obtain ⟨a, hcell⟩ := exists_sourceCellII emu w h.not_constant ha
    exact ⟨ha, a.toNat, hcell⟩

/-- The operand as the execute switch finds it: the byte form has masked a register. -/
theorem ShiftsOperand.load16_operandsII {w : BitVec 16} (h : ShiftsOperand w)
    (emu : Emulator) :
    let p := (operandsII emu w).sourceAddress
    (operandsII emu w).emu.load16 p
      = if masksOperand w then emu.load16 p &&& 0x00FF else emu.load16 p := by
  intro p
  have hp : p = sourceCellII emu w := (operandsII_source emu w).1
  rw [operandsII_emu, hp]
  rcases h.cell_cases emu with ⟨ha, hr, hcell⟩ | ⟨ha, a, hcell⟩
  · have h0 : lowReg w ≠ 0 := by
      intro he
      rw [he] at hr
      exact absurd hr (by decide)
    have h2 : lowReg w ≠ 2 := by
      intro he
      rw [he] at hr
      exact absurd hr (by decide)
    have hinc : autoIncrementsII w = false := by simp [autoIncrementsII, ha]
    rw [hcell]
    simp only [Emulator.load16, regsII, unmaskedII, regs_lookupII_of_ne emu w h2, hinc]
    simp [h0]
  · have hmask : masksOperand w = false := by simp [masksOperand, ha]
    rw [hcell, hmask]
    rfl

/-! ## What an instruction leaves -/

/-- The word stored in word form is the documented result. -/
theorem shiftValue_word {opcode : Fin 8} (h : opcode ≤ 3) (c : Bool) (v : BitVec 16) :
    shiftValue opcode .word c v = shiftResult opcode c v := by
  rcases opcode_le_three h with rfl | rfl | rfl | rfl
  · exact rrcValue_word c v
  · exact swpbValue_eq c v
  · exact rraValue_word_eq c v
  · exact sxtValue_eq c v

/-- The word stored in byte form holds the documented result beside the old high byte,
RRA with a high byte excepted. -/
theorem shiftValue_byte {opcode : Fin 8} (h : opcode = 0 ∨ opcode = 2) (c : Bool)
    (v : BitVec 16) (hv : opcode = 2 → highByte v = 0) :
    shiftValue opcode .byte c v
      = joinBytes (highByte v) (shiftResult opcode c (v.setWidth 8)) := by
  rcases h with rfl | rfl
  · exact rrcValue_byte c v
  · have hbyte := rraValue_byte_eq c (v.setWidth 8)
    rw [hv rfl, ← hbyte, ← hv rfl, joinBytes_highByte]
    rfl

/-- The flags in word form. -/
theorem shiftFlags_word {opcode : Fin 8} (h : opcode ≤ 3) (sr : StatusReg) (v : BitVec 16) :
    shiftFlags opcode .word sr v = shiftedFlags opcode sr v := by
  simp only [shiftFlags, shiftedFlags, shiftValue_word h]
  rcases opcode_le_three h with rfl | rfl | rfl | rfl <;>
    simp only [StatusReg.shifted, resultFlags, isZero, isNegative_word]

/-- The flags in byte form. -/
theorem shiftFlags_byte {opcode : Fin 8} (h : opcode = 0 ∨ opcode = 2) (sr : StatusReg)
    (v : BitVec 16) (hv : opcode = 2 → highByte v = 0) :
    shiftFlags opcode .byte sr v = shiftedFlags opcode sr (v.setWidth 8) := by
  have hbit : v.getLsbD 0 = (v.setWidth 8).getLsbD 0 := by simp
  simp only [shiftFlags, shiftedFlags, shiftValue_byte h _ v hv, hbit]
  rcases h with rfl | rfl <;>
    simp only [StatusReg.shifted, resultFlags, isZero, isNegative_byte, setWidth_joinBytes]

/-- One instruction: a store of the shifted word, and new flags. -/
theorem ShiftsOperand.decode_eq {w : BitVec 16} (h : ShiftsOperand w) (emu : Emulator) :
    let o := operandsII emu w
    let v := o.emu.load16 o.sourceAddress
    decode emu w false
      = { o.emu.store16 o.sourceAddress (shiftValue (opcodeII w) (bwFlag w) emu.sr.carry v)
          with sr := shiftFlags (opcodeII w) (bwFlag w) emu.sr v } := by
  intro o v
  have hsr : o.emu.sr = emu.sr := by
    show (operandsII emu w).emu.sr = emu.sr
    rw [operandsII_emu]
  rw [decode_formatII emu w false h.1]
  show executeII o.emu (opcodeII w) (bwFlag w) o.sourceValue o.sourceAddress = _
  rw [executeII_shift _ _ _ _ h.2.1, hsr]

/-- What the instruction promises: the result in the operand, the flags, and no other byte
of memory changed. -/
def ShiftsExactly (emu : Emulator) (w : BitVec 16) : Prop :=
  let p := (operandsII emu w).sourceAddress
  let emu' := decode emu w false
  (bwFlag w = .word →
      emu'.load16 p = shiftResult (opcodeII w) emu.sr.carry (emu.load16 p) ∧
        emu'.sr = shiftedFlags (opcodeII w) emu.sr (emu.load16 p)) ∧
    (bwFlag w = .byte →
      emu'.load8 p = shiftResult (opcodeII w) emu.sr.carry (emu.load8 p) ∧
        emu'.sr = shiftedFlags (opcodeII w) emu.sr (emu.load8 p)) ∧
    ∀ a, ¬ Touches p (bwFlag w) a → emu'.mem a = emu.mem a

/-- RRA.B on a byte of memory whose upper neighbour is not zero. -/
def ShiftsNeighbour (emu : Emulator) (w : BitVec 16) : Prop :=
  opcodeII w = 2 ∧ bwFlag w = .byte ∧
    ∃ a, (operandsII emu w).sourceAddress = .mem a ∧ emu.mem (a + 1) ≠ 0

/-- The word forms are exact. -/
theorem shiftsExactly_word {w : BitVec 16} (h : ShiftsOperand w) (emu : Emulator)
    (hbw : bwFlag w = .word) : ShiftsExactly emu w := by
  unfold ShiftsExactly
  intro p emu'
  obtain ⟨o, ho⟩ : ∃ o, o = operandsII emu w := ⟨_, rfl⟩
  have hp : p = o.sourceAddress := congrArg OperandsII.sourceAddress ho.symm
  have hv : o.emu.load16 p = emu.load16 p := by
    have hload := h.load16_operandsII emu
    simp only [masksOperand, hbw] at hload
    rw [hp, ho]
    exact hload
  have hmem : o.emu.mem = emu.mem := by rw [ho, operandsII_emu]
  have hemu' := h.decode_eq emu
  simp only [← ho] at hemu'
  rw [← hp, hv, hbw, shiftValue_word h.2.1, shiftFlags_word h.2.1] at hemu'
  refine ⟨fun _ => ⟨?_, ?_⟩, fun hb => ?_, fun a ha => ?_⟩
  · show (decode emu w false).load16 p = _
    rw [hemu', load16_with_sr, Emulator.load16_store16]
  · show (decode emu w false).sr = _
    rw [hemu']
  · exact absurd (hbw.symm.trans hb) (by decide)
  · show (decode emu w false).mem a = _
    rw [hemu', ← hmem]
    rw [hbw] at ha
    exact Emulator.mem_store16 _ _ _ _ ha

/-- The byte forms are exact unless they shift a neighbour along. -/
theorem shiftsExactly_byte {w : BitVec 16} (h : ShiftsOperand w) (emu : Emulator)
    (hbw : bwFlag w = .byte) (hn : ¬ ShiftsNeighbour emu w) : ShiftsExactly emu w := by
  unfold ShiftsExactly
  intro p emu'
  obtain ⟨o, ho⟩ : ∃ o, o = operandsII emu w := ⟨_, rfl⟩
  have hp : p = o.sourceAddress := congrArg OperandsII.sourceAddress ho.symm
  obtain ⟨v, hv⟩ : ∃ v, v = o.emu.load16 p := ⟨_, rfl⟩
  have hload : v = if masksOperand w then emu.load16 p &&& 0x00FF else emu.load16 p := by
    rw [hv, hp, ho]
    exact h.load16_operandsII emu
  -- the low byte of the operand is the one before the instruction
  have hlow : v.setWidth 8 = emu.load8 p := by
    rw [hload, Emulator.load8_eq]
    split_ifs
    · exact setWidth_mask _
    · rfl
  have hhigh : opcodeII w = 2 → highByte v = 0 := by
    intro h2
    rcases h.cell_cases emu with ⟨ha, -, -⟩ | ⟨ha, a, hcell⟩
    · rw [hload, if_pos (by simp [masksOperand, hbw, ha])]
      exact highByte_mask _
    · have hpa : p = .mem a := (operandsII_source emu w).1.trans hcell
      rw [hload, if_neg (by simp [masksOperand, ha]), hpa]
      by_contra hne
      refine hn ⟨h2, hbw, a, hpa, fun h0 => hne ?_⟩
      rw [Emulator.load16, highByte_joinBytes, h0]
  have hmem : o.emu.mem = emu.mem := by rw [ho, operandsII_emu]
  have hop := h.2.2.1 hbw
  have hemu' := h.decode_eq emu
  simp only [← ho] at hemu'
  rw [← hp, ← hv, hbw, shiftValue_byte hop _ v hhigh, shiftFlags_byte hop _ v hhigh, hlow,
    hv, ← Emulator.store8_eq_store16] at hemu'
  refine ⟨fun hb => ?_, fun _ => ⟨?_, ?_⟩, fun a ha => ?_⟩
  · exact absurd (hbw.symm.trans hb) (by decide)
  · show (decode emu w false).load8 p = _
    rw [hemu', load8_with_sr, Emulator.load8_store8]
  · show (decode emu w false).sr = _
    rw [hemu']
  · show (decode emu w false).mem a = _
    rw [hemu', ← hmem]
    rw [hbw] at ha
    exact Emulator.mem_store8 _ _ _ _ ha

/-- **The single-operand shifts are exact and local except for RRA.B on a byte of memory
with a non-zero upper neighbour**, which it shifts along. -/
theorem shift_effects_iff (emu : Emulator) (w : BitVec 16) (h : ShiftsOperand w) :
    ShiftsExactly emu w ↔ ¬ ShiftsNeighbour emu w := by
  constructor
  · rintro ⟨-, -, hframe⟩ ⟨h2, hbw, a, hp, hne⟩
    have hkept := hframe (a + 1) (by simp [hp, hbw, Touches])
    have hhalf : ∀ b : BitVec 8, b >>> 1 = b → b = 0 := by decide
    apply hne
    apply hhalf
    have hload : (operandsII emu w).emu.load16 (.mem a) = emu.load16 (.mem a) := by
      rw [operandsII_emu]
      rfl
    have hemu' := h.decode_eq emu
    simp only [h2, hbw, hp, hload] at hemu'
    have hstored : (decode emu w false).mem (a + 1)
        = highByte (rraValue .byte (emu.load16 (.mem a))) := by
      rw [hemu']
      exact if_pos rfl
    calc emu.mem (a + 1) >>> 1
        = highByte (emu.load16 (.mem a)) >>> 1 := by rw [Emulator.load16, highByte_joinBytes]
      _ = highByte (rraValue .byte (emu.load16 (.mem a))) := (highByte_rraValue_byte _).symm
      _ = (decode emu w false).mem (a + 1) := hstored.symm
      _ = emu.mem (a + 1) := hkept
  · intro hn
    cases hbw : bwFlag w with
    | word => exact shiftsExactly_word h emu hbw
    | byte => exact shiftsExactly_byte h emu hbw hn

/-- `RRA.B @R5` on a byte with the upper neighbour `0x02`: the neighbour becomes `0x01`. -/
theorem shift_effects_wrong :
    let emu := (startState.setReg 5 0x200).setByte 0x201 0x02
    (decode emu 0x1165 false).mem 0x201 = 0x01 ∧ ¬ ShiftsExactly emu 0x1165 := by
  intro emu
  have hkept : (decode emu 0x1165 false).mem 0x201 = 0x01 := by decide
  have hcell : (operandsII emu 0x1165).sourceAddress = .mem 0x200 := by decide
  refine ⟨hkept, fun h => ?_⟩
  have hout : ¬ Touches (operandsII emu 0x1165).sourceAddress (bwFlag 0x1165) 0x201 := by
    rw [hcell, show bwFlag 0x1165 = .byte from rfl]
    exact Nat.succ_ne_self 0x200
  have hframe := h.2.2 0x201 hout
  rw [hkept] at hframe
  revert hframe
  decide

/-- `RRA.B R5` and `RRC @R5`. -/
theorem shift_effects_iff_register :
    ShiftsExactly (startState.setReg 5 0x8281) 0x1145 ∧
      ShiftsExactly (startState.setReg 5 0x200) 0x1025 := by
  constructor
  · apply (shift_effects_iff (startState.setReg 5 0x8281) 0x1145 (by decide)).mpr
    rintro ⟨-, -, a, hp, -⟩
    have hcell : (operandsII (startState.setReg 5 0x8281) 0x1145).sourceAddress = .reg 5 := by
      decide
    rw [hcell] at hp
    exact Ptr.noConfusion hp
  · apply (shift_effects_iff (startState.setReg 5 0x200) 0x1025 (by decide)).mpr
    rintro ⟨h2, -⟩
    exact absurd h2 (by decide)

end Msp430
