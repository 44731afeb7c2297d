/-
# Format III: the jumps (`devices/cpu/formatIII.c`)

`decode_formatIII`: the offset computation, the eight conditions and the jump.
-/
import Msp430.Machine

namespace Msp430

/-- `(instruction & 0x1C00) >> 10`. -/
def jumpCondition (instruction : BitVec 16) : Fin 8 :=
  (instruction.extractLsb' 10 3).toFin

/-- `signed_offset` as it is added to `cpu->pc`: the doubled offset field, with
`0xF800` or-ed in when `signed_offset >> 9` is non-zero. -/
def signedOffset (instruction : BitVec 16) : BitVec 16 :=
  let offset := (instruction &&& 0x03FF) * 2
  let negative := offset.sshiftRight 9 != 0
  if negative then offset ||| 0xF800 else offset

/-- The condition tested in each case of the execute switch. -/
def conditionHolds (sr : StatusReg) (condition : Fin 8) : Bool :=
  match condition with
  | 0x0 => sr.zero == false
  | 0x1 => sr.zero == true
  | 0x2 => sr.carry == false
  | 0x3 => sr.carry == true
  | 0x4 => sr.negative == true
  | 0x5 => (sr.negative ^^ sr.overflow) == false
  | 0x6 => (sr.negative ^^ sr.overflow) == true
  | 0x7 => true

/-- `cpu->pc += signed_offset`. -/
def jump (emu : Emulator) (instruction : BitVec 16) : Emulator :=
  emu.setReg 0 (emu.pc + signedOffset instruction)

/-- `decode_formatIII`; disassembly only prints. -/
def decodeFormatIII (emu : Emulator) (instruction : BitVec 16) (disassemble : Bool) :
    Emulator :=
  if disassemble then emu
  else if conditionHolds emu.sr (jumpCondition instruction) then jump emu instruction
  else emu

end Msp430
