/-
# Format I: the two-operand instructions (`devices/cpu/formatI.c`)

`decode_formatI` in its two parts: the block that identifies the operands
(`operandsI`, eight combinations of source and destination mode) and the switch that
executes the opcode (`executeI`).  The operand text that the block assembles for the
disassembler has no influence on the state and is not part of this module.
-/
import Msp430.FlagHandler
import Msp430.Fields

namespace Msp430

/-! ## Operand resolution -/

/-- A resolved source operand: the state after its evaluation, `source_value`, and
the cell the value was loaded from (`none` for a generated constant). -/
structure SourceI where
  emu : Emulator
  value : BitVec 16
  addr : Option Ptr

/-- The locals with which the operand block ends: `source_value` with the cell it
came from, and `destination_addr`. -/
structure OperandsI where
  emu : Emulator
  sourceValue : BitVec 16
  sourceAddr : Option Ptr
  destinationAddr : Ptr

/-- The source constant, or the word at `p`: register mode with `p = s_reg`, indirect
mode with `p = get_addr_ptr(*s_reg)`. -/
def sourceAt (emu : Emulator) (constant : Option (BitVec 16)) (p : Ptr) : SourceI :=
  match constant with
  | some c => ⟨emu, c, none⟩
  | none => ⟨emu, emu.load16 p, some p⟩

/-- `as_flag == 1`: symbolic, absolute or indexed source.  The symbolic address is
`cpu->pc + source_offset - correction` with the correction of the calling branch. -/
def sourceIndexed (emu : Emulator) (constant : Option (BitVec 16)) (source : Fin 16)
    (correction : BitVec 16) : SourceI :=
  match constant with
  | some c => ⟨emu, c, none⟩
  | none =>
    let sourceOffset := (fetch emu).1
    let emu := (fetch emu).2
    let p :=
      if source = 0 then getAddrPtr (emu.pc + sourceOffset - correction)
      else if source = 2 then getAddrPtr sourceOffset
      else getAddrPtr (emu.regs source + sourceOffset)
    ⟨emu, emu.load16 p, some p⟩

/-- `as_flag == 3`: immediate or auto-incremented source. -/
def sourceAutoInc (emu : Emulator) (constant : Option (BitVec 16)) (source : Fin 16)
    (bw : Width) (disassemble : Bool) : SourceI :=
  match constant with
  | some c => ⟨emu, c, none⟩
  | none =>
    if source = 0 then
      ⟨(fetch emu).2, (fetch emu).1, some (getAddrPtr emu.pc)⟩
    else
      let p := getAddrPtr (emu.regs source)
      ⟨if disassemble then emu else autoIncrement emu source bw, emu.load16 p, some p⟩

/-- `ad_flag == 0`: the destination is the register cell, masked first by a byte
instruction that executes. -/
def destinationRegister (src : SourceI) (destination : Fin 16) (bw : Width)
    (disassemble : Bool) : OperandsI :=
  ⟨if disassemble then src.emu else maskByte src.emu destination bw,
    src.value, src.addr, .reg destination⟩

/-- `ad_flag == 1` once `destination_offset` has been fetched: symbolic, absolute or
indexed destination. -/
def destinationIndexed (emu : Emulator) (destination : Fin 16)
    (destinationOffset : BitVec 16) : Ptr :=
  -- the program counter is past the extension word, the offset counts from it
  if destination = 0 then getAddrPtr (emu.pc + destinationOffset - 2)
  else if destination = 2 then getAddrPtr destinationOffset
  else getAddrPtr (emu.regs destination + destinationOffset)

/-- The operand block of `decode_formatI`.  With an indexed destination the branches
`as_flag == 0` and `as_flag == 2` fetch `destination_offset` before they read the
source, the branches `1` and `3` after it. -/
def operandsI (emu : Emulator) (instruction : BitVec 16) (disassemble : Bool) :
    OperandsI :=
  let source := sourceReg instruction
  let destination := lowReg instruction
  let bw := bwFlag instruction
  let constant := generatedConstant source (asFlag instruction)
  let emu := getRegPtr (getRegPtr emu source) destination
  match asFlag instruction, adFlag instruction with
  | 0, false =>
    destinationRegister (sourceAt emu constant (.reg source)) destination bw disassemble
  | 0, true =>
    let destinationOffset := (fetch emu).1
    let src := sourceAt (fetch emu).2 constant (.reg source)
    ⟨src.emu, src.value, src.addr,
      destinationIndexed src.emu destination destinationOffset⟩
  | 1, false =>
    destinationRegister (sourceIndexed emu constant source 2) destination bw disassemble
  | 1, true =>
    -- a correction for two extension words, of which one has been fetched
    let src := sourceIndexed emu constant source 4
    let destinationOffset := (fetch src.emu).1
    let emu := (fetch src.emu).2
    ⟨emu, src.value, src.addr, destinationIndexed emu destination destinationOffset⟩
  | 2, false =>
    destinationRegister (sourceAt emu constant (getAddrPtr (emu.regs source)))
      destination bw disassemble
  | 2, true =>
    let destinationOffset := (fetch emu).1
    let emu := (fetch emu).2
    let src := sourceAt emu constant (getAddrPtr (emu.regs source))
    ⟨src.emu, src.value, src.addr,
      destinationIndexed src.emu destination destinationOffset⟩
  | 3, false =>
    destinationRegister (sourceAutoInc emu constant source bw disassemble)
      destination bw disassemble
  | 3, true =>
    let src := sourceAutoInc emu constant source bw disassemble
    let destinationOffset := (fetch src.emu).1
    let emu := (fetch src.emu).2
    ⟨emu, src.value, src.addr, destinationIndexed emu destination destinationOffset⟩

/-! ## The execute switch -/

/-- The carry bit as C adds it. -/
def carryBit (sr : StatusReg) : BitVec 16 := if sr.carry then 1 else 0

/-- `case 0x4`, MOV. -/
def execMov (emu : Emulator) (bw : Width) (sourceValue : BitVec 16) (p : Ptr) : Emulator :=
  match bw with
  | .word => emu.store16 p sourceValue
  | .byte => emu.store8 p (sourceValue.setWidth 8)

/-- `case 0x5`, ADD: `original_dst_value` is a `uint16_t`, `source_value` an
`int16_t`, and both are promoted for `is_carried`. -/
def execAdd (emu : Emulator) (bw : Width) (sourceValue : BitVec 16) (p : Ptr) : Emulator :=
  let originalDstValue := emu.load16 p
  let emu := match bw with
    | .word => emu.store16 p (emu.load16 p + sourceValue)
    | .byte => emu.store8 p (emu.load8 p + sourceValue.setWidth 8)
  { emu with sr := { emu.sr with
      zero := isZero (emu.load16 p) bw
      negative := isNegative (emu.load16 p) bw
      carry := isCarried (originalDstValue.setWidth 32) (sourceValue.signExtend 32) bw
      overflow := isOverflowed sourceValue originalDstValue (emu.load16 p) bw } }

/-- `case 0x6`, ADDC. -/
def execAddc (emu : Emulator) (bw : Width) (sourceValue : BitVec 16) (p : Ptr) : Emulator :=
  let originalDstValue := emu.load16 p
  let emu := match bw with
    | .word => emu.store16 p (emu.load16 p + (sourceValue + carryBit emu.sr))
    | .byte =>
      emu.store8 p (emu.load8 p + (sourceValue.setWidth 8 + (carryBit emu.sr).setWidth 8))
  { emu with sr := { emu.sr with
      zero := isZero (emu.load16 p) bw
      negative := isNegative (emu.load16 p) bw
      carry := isCarried (originalDstValue.setWidth 32) (sourceValue.signExtend 32) bw
      overflow := isOverflowed sourceValue originalDstValue (emu.load16 p) bw } }

/-- `case 0x7`, SUBC: here `original_dst_value` is an `int16_t` too. -/
def execSubc (emu : Emulator) (bw : Width) (sourceValue : BitVec 16) (p : Ptr) : Emulator :=
  let originalDstValue := emu.load16 p
  let sourceValue := ~~~sourceValue
  let emu := match bw with
    | .word => emu.store16 p (emu.load16 p + (sourceValue + carryBit emu.sr))
    | .byte =>
      emu.store8 p (emu.load8 p + (sourceValue.setWidth 8 + (carryBit emu.sr).setWidth 8))
  { emu with sr := { emu.sr with
      zero := isZero (emu.load16 p) bw
      negative := isNegative (emu.load16 p) bw
      carry := isCarried (originalDstValue.signExtend 32) (sourceValue.signExtend 32) bw
      overflow := isOverflowed sourceValue originalDstValue (emu.load16 p) bw } }

/-- `case 0x8`, SUB: the carry flag is set on a carry and otherwise left alone. -/
def execSub (emu : Emulator) (bw : Width) (sourceValue : BitVec 16) (p : Ptr) : Emulator :=
  let originalDstValue := emu.load16 p
  let sourceValue := ~~~sourceValue + 1
  let emu := match bw with
    | .word => emu.store16 p (emu.load16 p + sourceValue)
    | .byte => emu.store8 p (emu.load8 p + sourceValue.setWidth 8)
  { emu with sr := { emu.sr with
      zero := isZero (emu.load16 p) bw
      negative := isNegative (emu.load16 p) bw
      -- no branch clears the flag
      carry :=
        if isCarried (~~~(sourceValue.signExtend 32)) 1 bw
            || isCarried (originalDstValue.signExtend 32) (sourceValue.signExtend 32) bw
        then true else emu.sr.carry
      overflow := isOverflowed sourceValue originalDstValue (emu.load16 p) bw } }

/-- `case 0x9`, CMP: the difference goes to the local `result` only; in byte form it
is the 9-bit sum of the two low bytes. -/
def execCmp (emu : Emulator) (bw : Width) (sourceValue : BitVec 16) (p : Ptr) : Emulator :=
  let originalDstValue := emu.load16 p
  let unsignedSourceValue := ~~~sourceValue + 1
  let earlyCarry := isCarried ((~~~sourceValue).setWidth 32) 1 bw
  let result := match bw with
    | .word => emu.load16 p + unsignedSourceValue
    | .byte =>
      (emu.load8 p).setWidth 16 + (unsignedSourceValue.setWidth 8).setWidth 16
  { emu with sr := { emu.sr with
      negative := isNegative result bw
      zero := isZero result bw
      carry :=
        if !earlyCarry then
          isCarried (originalDstValue.signExtend 32) (unsignedSourceValue.setWidth 32) bw
        else true
      overflow := isOverflowed unsignedSourceValue originalDstValue result bw } }

/-- `case 0xB`, BIT. -/
def execBit (emu : Emulator) (bw : Width) (sourceValue : BitVec 16) (p : Ptr) : Emulator :=
  match bw with
  | .word =>
    let result := sourceValue &&& emu.load16 p
    { emu with sr := { emu.sr with
        zero := result == 0
        negative := result >>> 15 != 0
        carry := result != 0
        overflow := false } }
  | .byte =>
    let result := sourceValue.setWidth 8 &&& emu.load8 p
    { emu with sr := { emu.sr with
        zero := result == 0
        negative := result >>> 7 != 0
        carry := result != 0
        overflow := false } }

/-- `case 0xC`, BIC. -/
def execBic (emu : Emulator) (bw : Width) (sourceValue : BitVec 16) (p : Ptr) : Emulator :=
  match bw with
  | .word => emu.store16 p (emu.load16 p &&& ~~~sourceValue)
  | .byte => emu.store8 p (emu.load8 p &&& (~~~sourceValue).setWidth 8)

/-- `case 0xD`, BIS. -/
def execBis (emu : Emulator) (bw : Width) (sourceValue : BitVec 16) (p : Ptr) : Emulator :=
  match bw with
  | .word => emu.store16 p (emu.load16 p ||| sourceValue)
  | .byte => emu.store8 p (emu.load8 p ||| sourceValue.setWidth 8)

/-- `case 0xE`, XOR: the overflow flag is read off the operands before the store. -/
def execXor (emu : Emulator) (bw : Width) (sourceValue : BitVec 16) (p : Ptr) : Emulator :=
  match bw with
  | .word =>
    let overflow := emu.load16 p >>> 15 != 0 && sourceValue >>> 15 != 0
    let emu := emu.store16 p (emu.load16 p ^^^ sourceValue)
    { emu with sr := { emu.sr with
        overflow := overflow
        negative := emu.load16 p >>> 15 != 0
        zero := emu.load16 p == 0
        carry := emu.load16 p != 0 } }
  | .byte =>
    let overflow := emu.load8 p >>> 7 != 0 && sourceValue.setWidth 8 >>> 7 != 0
    let emu := emu.store8 p (emu.load8 p ^^^ sourceValue.setWidth 8)
    { emu with sr := { emu.sr with
        overflow := overflow
        negative := emu.load8 p >>> 7 != 0
        zero := emu.load8 p == 0
        carry := emu.load8 p != 0 } }

/-- `case 0xF`, AND. -/
def execAnd (emu : Emulator) (bw : Width) (sourceValue : BitVec 16) (p : Ptr) : Emulator :=
  match bw with
  | .word =>
    let emu := emu.store16 p (emu.load16 p &&& sourceValue)
    { emu with sr := { emu.sr with
        negative := emu.load16 p >>> 15 != 0
        zero := emu.load16 p == 0
        carry := emu.load16 p != 0
        overflow := false } }
  | .byte =>
    let emu := emu.store8 p (emu.load8 p &&& sourceValue.setWidth 8)
    { emu with sr := { emu.sr with
        negative := emu.load8 p >>> 7 != 0
        zero := emu.load8 p == 0
        carry := emu.load8 p != 0
        overflow := false } }

/-- The switch on the opcode; DADD (`case 0xA`) is empty. -/
def executeI (emu : Emulator) (opcode : Fin 16) (bw : Width) (sourceValue : BitVec 16)
    (p : Ptr) : Emulator :=
  match opcode with
  | 0x4 => execMov emu bw sourceValue p
  | 0x5 => execAdd emu bw sourceValue p
  | 0x6 => execAddc emu bw sourceValue p
  | 0x7 => execSubc emu bw sourceValue p
  | 0x8 => execSub emu bw sourceValue p
  | 0x9 => execCmp emu bw sourceValue p
  | 0xB => execBit emu bw sourceValue p
  | 0xC => execBic emu bw sourceValue p
  | 0xD => execBis emu bw sourceValue p
  | 0xE => execXor emu bw sourceValue p
  | 0xF => execAnd emu bw sourceValue p
  | _ => emu

/-- `decode_formatI`. -/
def decodeFormatI (emu : Emulator) (instruction : BitVec 16) (disassemble : Bool) :
    Emulator :=
  let o := operandsI emu instruction disassemble
  if disassemble then o.emu
  else executeI o.emu (formatId instruction) (bwFlag instruction) o.sourceValue
    o.destinationAddr

end Msp430
