/-
# Format II: the single-operand instructions (`devices/cpu/formatII.c`)

`decode_formatII` in its two parts, as for Format I.  Two facts about the source
shape the model:

* the operand block never looks at `disassemble`: the byte mask and the
  auto-increment are applied in both modes;
* on the symbolic path nothing is assigned to `source_value`, so that a PUSH there
  stores what the local happens to hold (`Emulator.residue`).
-/
import Msp430.FlagHandler
import Msp430.Fields

namespace Msp430

/-! ## Operand resolution -/

/-- The locals with which the operand block ends. -/
structure OperandsII where
  emu : Emulator
  sourceValue : BitVec 16
  sourceAddress : Ptr

/-- `source_value = bogus_reg = c; source_address = &bogus_reg`. -/
def bogusOperand (emu : Emulator) (c : BitVec 16) : OperandsII :=
  ⟨{ emu with bogusReg := c }, c, .bogus⟩

/-- `source_address = p; source_value = *source_address`. -/
def operandAt (emu : Emulator) (p : Ptr) : OperandsII := ⟨emu, emu.load16 p, p⟩

/-- `as_flag == 0`: constant or register, then the byte mask on the register. -/
def registerII (emu : Emulator) (constant : Option (BitVec 16)) (source : Fin 16)
    (bw : Width) : OperandsII :=
  let o := match constant with
    | some c => bogusOperand emu c
    | none => operandAt emu (.reg source)
  -- the mask falls on the register beside a constant, too
  { o with emu := maskByte o.emu source bw }

/-- `as_flag == 1`: constant, symbolic, absolute or indexed. -/
def indexedII (emu : Emulator) (constant : Option (BitVec 16)) (source : Fin 16)
    (uninitialised : BitVec 16) : OperandsII :=
  match constant with
  | some c => bogusOperand emu c
  | none =>
    let sourceOffset := (fetch emu).1
    let emu := (fetch emu).2
    if source = 0 then
      -- no assignment to `source_value` here
      ⟨emu, uninitialised, getAddrPtr (emu.pc + sourceOffset)⟩
    else if source = 2 then operandAt emu (getAddrPtr sourceOffset)
    else operandAt emu (getAddrPtr (emu.regs source + sourceOffset))

/-- `as_flag == 2`: constant or indirect. -/
def indirectII (emu : Emulator) (constant : Option (BitVec 16)) (source : Fin 16) :
    OperandsII :=
  match constant with
  | some c => bogusOperand emu c
  | none => operandAt emu (getAddrPtr (emu.regs source))

/-- `as_flag == 3`: constant, immediate or auto-increment. -/
def autoIncII (emu : Emulator) (constant : Option (BitVec 16)) (source : Fin 16)
    (bw : Width) : OperandsII :=
  match constant with
  | some c => bogusOperand emu c
  | none =>
    if source = 0 then bogusOperand (fetch emu).2 (fetch emu).1
    else
      let o := operandAt emu (getAddrPtr (emu.regs source))
      { o with emu := autoIncrement o.emu source bw }

/-- The operand block of `decode_formatII`. -/
def operandsII (emu : Emulator) (instruction : BitVec 16) : OperandsII :=
  let source := lowReg instruction
  let bw := bwFlag instruction
  let constant := generatedConstant source (asFlag instruction)
  let uninitialised := emu.residue 0
  let emu := getRegPtr { emu with residue := fun k => emu.residue (k + 1) } source
  match asFlag instruction with
  | 0 => registerII emu constant source bw
  | 1 => indexedII emu constant source uninitialised
  | 2 => indirectII emu constant source
  | 3 => autoIncII emu constant source bw

/-! ## The execute switch -/

/-- `case 0x0`, RRC. -/
def execRrc (emu : Emulator) (bw : Width) (p : Ptr) : Emulator :=
  let cf := emu.sr.carry
  let emu := match bw with
    | .word =>
      let emu := { emu with sr := { emu.sr with carry := emu.load16 p &&& 0x0001 != 0 } }
      let emu := emu.store16 p (emu.load16 p >>> 1)
      if cf then emu.store16 p (emu.load16 p ||| 0x8000) else emu
    | .byte =>
      let emu := { emu with sr := { emu.sr with carry := emu.load8 p &&& 0x01 != 0 } }
      let emu := emu.store8 p (emu.load8 p >>> 1)
      if cf then emu.store8 p (emu.load8 p ||| 0x80) else emu
  { emu with sr := { emu.sr with
      zero := isZero (emu.load16 p) bw
      negative := isNegative (emu.load16 p) bw
      overflow := false } }

/-- `case 0x1`, SWPB. -/
def execSwpb (emu : Emulator) (p : Ptr) : Emulator :=
  let upperNibble := ((emu.load16 p &&& 0xFF00) >>> 8).setWidth 8
  let lowerNibble := (emu.load16 p &&& 0x00FF).setWidth 8
  emu.store16 p (lowerNibble.setWidth 16 <<< 8 ||| upperNibble.setWidth 16)

/-- `case 0x2`, RRA: the byte form shifts and tests the whole word. -/
def execRra (emu : Emulator) (bw : Width) (p : Ptr) : Emulator :=
  let emu := { emu with sr := { emu.sr with carry := emu.load16 p &&& 0x0001 != 0 } }
  let emu := match bw with
    | .word =>
      let msb := emu.load16 p >>> 15 != 0
      let emu := emu.store16 p (emu.load16 p >>> 1)
      if msb then emu.store16 p (emu.load16 p ||| 0x8000) else emu
    | .byte =>
      -- any bit from the seventh up counts as the sign
      let msb := emu.load16 p >>> 7 != 0
      let emu := emu.store16 p (emu.load16 p >>> 1)
      if msb then emu.store16 p (emu.load16 p ||| 0x0080) else emu
  { emu with sr := { emu.sr with
      zero := isZero (emu.load16 p) bw
      negative := isNegative (emu.load16 p) bw
      overflow := false } }

/-- `case 0x3`, SXT. -/
def execSxt (emu : Emulator) (p : Ptr) : Emulator :=
  let emu :=
    if emu.load16 p &&& 0x0080 != 0 then emu.store16 p (emu.load16 p ||| 0xFF00)
    else emu.store16 p (emu.load16 p &&& 0x00FF)
  let zero := isZero (emu.load16 p) .word
  { emu with sr := { emu.sr with
      negative := isNegative (emu.load16 p) .word
      zero := zero
      carry := !zero
      overflow := false } }

/-- `case 0x4`, PUSH: `cpu->sp -= 2` in both widths; the operand is `source_value`. -/
def execPush (emu : Emulator) (bw : Width) (sourceValue : BitVec 16) : Emulator :=
  let emu := emu.setReg 1 (emu.sp - 2)
  let stackAddress := getStackPtr emu
  match bw with
  | .word => emu.store16 stackAddress sourceValue
  | .byte =>
    let emu := emu.store16 stackAddress (emu.load16 stackAddress &&& 0xFF00)
    emu.store16 stackAddress
      (emu.load16 stackAddress ||| (sourceValue.setWidth 8).setWidth 16)

/-- `case 0x5`, CALL: the operand is read through `source_address` after the return
address has been stored. -/
def execCall (emu : Emulator) (p : Ptr) : Emulator :=
  let emu := emu.setReg 1 (emu.sp - 2)
  let emu := emu.store16 (getStackPtr emu) emu.pc
  -- too late for an operand in the stack pointer or in the slot just written
  emu.setReg 0 (emu.load16 p)

/-- The switch on the opcode; RETI (`case 0x6`) and the default change nothing. -/
def executeII (emu : Emulator) (opcode : Fin 8) (bw : Width) (sourceValue : BitVec 16)
    (p : Ptr) : Emulator :=
  match opcode with
  | 0x0 => execRrc emu bw p
  | 0x1 => execSwpb emu p
  | 0x2 => execRra emu bw p
  | 0x3 => execSxt emu p
  | 0x4 => execPush emu bw sourceValue
  | 0x5 => execCall emu p
  | _ => emu

/-- `decode_formatII`. -/
def decodeFormatII (emu : Emulator) (instruction : BitVec 16) (disassemble : Bool) :
    Emulator :=
  let o := operandsII emu instruction
  if disassemble then o.emu
  else executeII o.emu (opcodeII instruction) (bwFlag instruction) o.sourceValue
    o.sourceAddress

end Msp430
