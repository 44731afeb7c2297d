/-
# Instruction fields, fetch and the constant generator

What the three decoders share: the bit fields of an instruction word, `fetch` and
`run_constant_generator` (`devices/cpu/decoder.c`), and the two register side
effects of operand resolution, the byte mask `*reg &= 0x00FF` and the
auto-increment.
-/
import Msp430.Machine

namespace Msp430

/-! ## Instruction fields -/

/-- `(instruction & 0xF000) >> 12`: the format number, and the Format I opcode. -/
def formatId (instruction : BitVec 16) : Fin 16 := (instruction.extractLsb' 12 4).toFin

/-- `(instruction & 0x0F00) >> 8`: the Format I source register. -/
def sourceReg (instruction : BitVec 16) : Fin 16 := (instruction.extractLsb' 8 4).toFin

/-- `instruction & 0x000F`: the Format I destination, the Format II register. -/
def lowReg (instruction : BitVec 16) : Fin 16 := (instruction.extractLsb' 0 4).toFin

/-- `(instruction & 0x0030) >> 4`: the source addressing mode. -/
def asFlag (instruction : BitVec 16) : Fin 4 := (instruction.extractLsb' 4 2).toFin

/-- `(instruction & 0x0080) >> 7`: the destination addressing mode. -/
def adFlag (instruction : BitVec 16) : Bool := instruction.getLsbD 7

/-- `(instruction & 0x0040) >> 6`: the byte/word flag. -/
def bwFlag (instruction : BitVec 16) : Width :=
  if instruction.getLsbD 6 then .byte else .word

/-- `(instruction & 0x0380) >> 7`: the Format II opcode. -/
def opcodeII (instruction : BitVec 16) : Fin 8 := (instruction.extractLsb' 7 3).toFin

/-! ## Fetch -/

/-- `fetch`: the word at `cpu->pc`, and the state with `cpu->pc` two further. -/
def fetch (emu : Emulator) : BitVec 16 × Emulator :=
  (emu.load16 (getAddrPtr emu.pc), emu.setReg 0 (emu.pc + 2))

/-! ## The constant generator -/

/-- `run_constant_generator`; outside the generated modes the constant stays `0`. -/
def runConstantGenerator (source : Fin 16) (as : Fin 4) : BitVec 16 :=
  match source, as with
  | 2, 2 => 4
  | 2, 3 => 8
  | 3, 0 => 0
  | 3, 1 => 1
  | 3, 2 => 2
  | 3, 3 => -1
  | _, _ => 0

/-- `constant_generator_active` with `immediate_constant`: the generated constant,
when the source field and the mode select one. -/
def generatedConstant (source : Fin 16) (as : Fin 4) : Option (BitVec 16) :=
  if (source = 2 ∧ 1 < as) ∨ source = 3 then some (runConstantGenerator source as)
  else none

/-! ## Register side effects of operand resolution -/

/-- `bw_flag == BYTE ? *reg &= 0x00FF : 0`. -/
def maskByte (emu : Emulator) (n : Fin 16) : Width → Emulator
  | .word => emu
  | .byte => emu.setReg n (emu.regs n &&& 0x00FF)

/-- `bw_flag == WORD ? *reg += 2 : (*reg += 1)`. -/
def autoIncrement (emu : Emulator) (n : Fin 16) : Width → Emulator
  | .word => emu.setReg n (emu.regs n + 2)
  | .byte => emu.setReg n (emu.regs n + 1)

end Msp430
