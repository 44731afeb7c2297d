/-
# The documented processor

What the emulator is for: the processor as the instruction set describes it, on its own
state.  A register is read and written by number, an operand by its addressing mode, and an
operation is defined once, on operands of any width.  Nothing here knows how the code
computes any of it.

A word access wants an even address, and the instruction set gives no meaning to one at an
odd address; nor is a meaning given here to DADD and RETI, which the emulator leaves out.
-/
import Msp430.Instructions
import Msp430.ShiftEffects
import Msp430.Overflow

namespace Msp430

/-! ## The state -/

/-- Registers, status register and memory.  Registers 2 and 3 have no cell: the one is the
status register, the other generates constants. -/
@[ext]
structure Processor where
  reg : Fin 16 → BitVec 16
  sr : StatusReg
  mem : BitVec 16 → BitVec 8
  reg_two : reg 2 = 0
  reg_three : reg 3 = 0

/-- The status register with the bits of a word. -/
def StatusReg.ofValue (v : BitVec 16) : StatusReg where
  reserved := v.extractLsb' 9 7
  overflow := v.getLsbD 8
  scg1 := v.getLsbD 7
  scg0 := v.getLsbD 6
  oscoff := v.getLsbD 5
  cpuoff := v.getLsbD 4
  gie := v.getLsbD 3
  negative := v.getLsbD 2
  zero := v.getLsbD 1
  carry := v.getLsbD 0

/-- A place that an instruction reads and writes; a constant has none. -/
inductive Place : Type where
  | reg (n : Fin 16) : Place
  | mem (a : BitVec 16) : Place
  | nowhere : Place
  deriving DecidableEq

/-- An even address. -/
def Aligned (a : BitVec 16) : Prop := a.toNat % 2 = 0

instance (a : BitVec 16) : Decidable (Aligned a) := inferInstanceAs (Decidable (_ = _))

/-- A width allows a place: a word in memory is aligned. -/
def Place.Allows : Place → Width → Prop
  | .mem a, .word => Aligned a
  | _, _ => True

instance (l : Place) (bw : Width) : Decidable (l.Allows bw) :=
  match l, bw with
  | .mem a, .word => inferInstanceAs (Decidable (Aligned a))
  | .mem _, .byte | .reg _, _ | .nowhere, _ => inferInstanceAs (Decidable True)

namespace Processor

/-- The program counter. -/
def pc (s : Processor) : BitVec 16 := s.reg 0

/-- The stack pointer. -/
def sp (s : Processor) : BitVec 16 := s.reg 1

/-- Read a register. -/
def readReg (s : Processor) (n : Fin 16) : BitVec 16 := if n = 2 then srToValue s.sr else s.reg n

/-- Write a register. -/
def writeReg (s : Processor) (n : Fin 16) (v : BitVec 16) : Processor :=
  if h : n = 2 ∨ n = 3 then
    if n = 2 then { s with sr := StatusReg.ofValue v } else s
  else
    { s with
      reg := Function.update s.reg n v
      reg_two := by
        rw [Function.update_of_ne (Ne.symm (not_or.mp h).1)]
        exact s.reg_two
      reg_three := by
        rw [Function.update_of_ne (Ne.symm (not_or.mp h).2)]
        exact s.reg_three }

/-- The word at an address. -/
def wordAt (s : Processor) (a : BitVec 16) : BitVec 16 := joinBytes (s.mem (a + 1)) (s.mem a)

/-- Write a word or a byte into memory. -/
def writeMem (s : Processor) : (bw : Width) → BitVec 16 → BitVec bw.bits → Processor
  | .word, a, v =>
    { s with mem := Function.update (Function.update s.mem a (v.setWidth 8)) (a + 1) (highByte v) }
  | .byte, a, b => { s with mem := Function.update s.mem a b }

/-- Write a place; a register is cleared above the width. -/
def write (s : Processor) (bw : Width) (l : Place) (v : BitVec bw.bits) : Processor :=
  match l with
  | .reg n => s.writeReg n (v.setWidth 16)
  | .mem a => s.writeMem bw a v
  | .nowhere => s

/-- The word at a place, of which a byte is the lower half. -/
def wordOf (s : Processor) : Place → BitVec 16
  | .reg n => s.readReg n
  | .mem a => s.wordAt a
  | .nowhere => 0

end Processor

/-! ## Operands -/

/-- How far an auto-increment moves a pointer; the stack pointer stays even. -/
def stride (n : Fin 16) : Width → BitVec 16
  | .word => 2
  | .byte => if n = 1 then 2 else 1

namespace Operand

/-- The place of an operand; `here` is the address of its extension word. -/
def place (s : Processor) (here : BitVec 16) : Operand → Place
  | register n _ => .reg n
  | indexed n x _ => .mem (s.reg n + x)
  | symbolic x => .mem (here + x)
  | absolute x => .mem x
  | indirect n _ | autoIncrement n _ => .mem (s.reg n)
  | immediate _ | constant _ => .nowhere

/-- The word that holds an operand. -/
def word (s : Processor) (here : BitVec 16) (o : Operand) : BitVec 16 :=
  match o with
  | immediate x => x
  | constant c => c.value
  | o => s.wordOf (o.place s here)

/-- The state once an operand has been evaluated. -/
def after (s : Processor) (bw : Width) : Operand → Processor
  | autoIncrement n _ => s.writeReg n (s.reg n + stride n bw)
  | _ => s

end Operand

/-- The place of a destination; `here` is the address of its extension word. -/
def Target.place (s : Processor) (here : BitVec 16) : Target → Place
  | .register n => .reg n
  | .indexed n x _ => .mem (s.reg n + x)
  | .symbolic x => .mem (here + x)
  | .absolute x => .mem x

/-! ## Operations -/

/-- The flags of the sum of two numbers and a carry. -/
def sumFlags {n : ℕ} (sr : StatusReg) (d x : BitVec n) (c : Bool) : StatusReg :=
  { sr with
    carry := decide (2 ^ n ≤ d.toNat + x.toNat + c.toNat)
    overflow := decide (2 ^ (n - 1) ≤ d.toInt + x.toInt + c.toNat ∨
      d.toInt + x.toInt + c.toNat < -2 ^ (n - 1))
    zero := d + x + BitVec.ofNat n c.toNat == 0
    negative := (d + x + BitVec.ofNat n c.toNat).msb }

namespace TwoOp

/-- The operations whose result is not stored. -/
def compares : TwoOp → Bool
  | cmp | bit => true
  | _ => false

/-- The operations that add: what they add to the destination, with a carry.  A subtraction
adds the complement and a carry. -/
def summand {n : ℕ} (op : TwoOp) (v : BitVec n) (carry : Bool) : Option (BitVec n × Bool) :=
  match op with
  | add => some (v, false)
  | addc => some (v, carry)
  | subc => some (~~~v, carry)
  | sub | cmp => some (~~~v, true)
  | _ => none

/-- The flags that an operation leaves. -/
def flags {n : ℕ} (op : TwoOp) (sr : StatusReg) (v d : BitVec n) : StatusReg :=
  match op.summand v sr.carry with
  | some x => sumFlags sr d x.1 x.2
  | none => logicalFlags op.code sr v d

end TwoOp

namespace OneOp

/-- The operations that replace their operand. -/
def shifts : OneOp → Bool
  | rrc | swpb | rra | sxt => true
  | _ => false

/-- The operations that have a byte form. -/
def hasByte : OneOp → Bool
  | rrc | rra | push => true
  | _ => false

end OneOp

/-- The documented result of a shift, at a width. -/
def shiftAt (op : OneOp) : (bw : Width) → Bool → BitVec bw.bits → BitVec bw.bits
  | .word, c, v => shiftResult (k := 15) op.code c v
  | .byte, c, v => shiftResult (k := 7) op.code c v

/-- The flags of a shift, at a width. -/
def shiftFlagsAt (op : OneOp) : (bw : Width) → StatusReg → BitVec bw.bits → StatusReg
  | .word, sr, v => shiftedFlags (k := 15) op.code sr v
  | .byte, sr, v => shiftedFlags (k := 7) op.code sr v

/-! ## Execution -/

namespace Processor

/-- Push a word or a byte. -/
def push (s : Processor) (bw : Width) (v : BitVec bw.bits) : Option Processor :=
  if Aligned s.sp then some ((s.writeReg 1 (s.sp - 2)).writeMem bw (s.sp - 2) v) else none

/-- A two-operand operation on a source and a place: the flags, and the result unless it is a
comparison. -/
def operate (s : Processor) (op : TwoOp) (bw : Width) (v : BitVec bw.bits) (l : Place) :
    Processor :=
  let d := (s.wordOf l).setWidth bw.bits
  let flagged := { s with sr := op.flags s.sr v d }
  if op.compares then flagged else flagged.write bw l (aluResult op.code v d s.sr.carry)

/-- A shift of an operand at a place: the flags and the result. -/
def shift (s : Processor) (op : OneOp) (bw : Width) (v : BitVec bw.bits) (l : Place) :
    Processor :=
  { s with sr := shiftFlagsAt op bw s.sr v }.write bw l (shiftAt op bw s.sr.carry v)

/-- A two-operand instruction, the program counter behind it; its first extension word is at
`here`. -/
def execTwo (s : Processor) (op : TwoOp) (bw : Width) (src : Operand) (dst : Target)
    (here : BitVec 16) : Option Processor :=
  let s' := src.after s bw
  let l := dst.place s' (here + 2 * BitVec.ofNat 16 src.extension.length)
  if op ≠ .dadd ∧ (src.place s here).Allows bw ∧ l.Allows bw then
    some (s'.operate op bw ((src.word s here).setWidth bw.bits) l)
  else none

/-- A single-operand instruction, the program counter behind it. -/
def execOne (s : Processor) (op : OneOp) (bw : Width) (operand : Operand)
    (here : BitVec 16) : Option Processor :=
  let l := operand.place s here
  let v := operand.word s here
  let s' := operand.after s bw
  if (bw = .byte → op.hasByte) ∧ l.Allows bw then
    if op.shifts then some (s'.shift op bw (v.setWidth bw.bits) l)
    else
      match op with
      | .push => s'.push bw (v.setWidth bw.bits)
      | .call => (s'.push .word s'.pc).map fun s'' => s''.writeReg 0 v
      | _ => none
  else none

/-- A jump, the program counter behind it. -/
def execJump (s : Processor) (condition : Fin 8) (offset : BitVec 10) : Processor :=
  if conditionHolds s.sr condition then s.writeReg 0 (s.pc + 2 * offset.signExtend 16) else s

/-- An instruction, the program counter behind it; its first extension word is at `here`. -/
def exec (s : Processor) (i : Instruction) (here : BitVec 16) : Option Processor :=
  match i with
  | .two op bw src dst => s.execTwo op bw src dst here
  | .one op bw operand => s.execOne op bw operand here
  | .jump condition offset => some (s.execJump condition offset)

/-- The three words from the program counter on: no instruction is longer. -/
def window (s : Processor) : List (BitVec 16) :=
  [s.wordAt s.pc, s.wordAt (s.pc + 2), s.wordAt (s.pc + 4)]

/-- The instruction at the program counter. -/
def current (s : Processor) : Option Instruction := (instructions.read s.window).map Prod.fst

/-- The address behind an instruction at the program counter. -/
def behind (s : Processor) (i : Instruction) : BitVec 16 :=
  s.pc + 2 * BitVec.ofNat 16 i.words.length

/-- The state in which an instruction at the program counter is executed. -/
def advanced (s : Processor) (i : Instruction) : Processor := s.writeReg 0 (s.behind i)

/-- One instruction. -/
def step (s : Processor) : Option Processor :=
  if Aligned s.pc then
    s.current.bind fun i => (s.advanced i).exec i (s.pc + 2)
  else none

/-- A number of instructions. -/
def run (s : Processor) : ℕ → Option Processor
  | 0 => some s
  | k + 1 => s.step.bind fun s' => s'.run k

end Processor

end Msp430
