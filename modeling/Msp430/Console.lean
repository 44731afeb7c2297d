/-
# The debugger console (`debugger.c`)

`exec_cmd` on a command line: the branches, with the words and numbers they read from the
line, and what they do to the machine, without the texts they print.  `none` is a
line on which the host fails: a word longer than the buffer it is scanned into, or a register
lookup that returns the null pointer.
-/
import Msp430.BoundedLog
import Msp430.CString
import Msp430.Run

namespace Msp430

open BoundedLog CString

/-! ## Register names (`utilities.c`) -/

/-- The names that `reg_name_to_num` knows, in the order in which it compares them. -/
def regNames : List (Fin 16 × Str) :=
  [(0, bytes "%r0"), (0, bytes "r0"), (0, bytes "%pc"), (0, bytes "pc"),
   (1, bytes "%r1"), (1, bytes "r1"), (1, bytes "%sp"), (1, bytes "sp"),
   (2, bytes "%r2"), (2, bytes "r2"), (2, bytes "%sr"), (2, bytes "sr"),
   (3, bytes "%r3"), (3, bytes "r3"), (3, bytes "%cg2"), (3, bytes "cg2"),
   (4, bytes "%r4"), (4, bytes "r4"),
   (5, bytes "%r5"), (5, bytes "r5"),
   (6, bytes "%r6"), (6, bytes "r6"),
   (7, bytes "%r7"), (7, bytes "r7"),
   (8, bytes "%r8"), (8, bytes "r8"),
   (9, bytes "%r9"), (9, bytes "r9"),
   (10, bytes "%r10"), (10, bytes "r10"),
   (11, bytes "%r11"), (11, bytes "r11"),
   (12, bytes "%r12"), (12, bytes "r12"),
   (13, bytes "%r13"), (13, bytes "r13"),
   (14, bytes "%r14"), (14, bytes "r14"),
   (15, bytes "%r15"), (15, bytes "r15")]

/-- `reg_name_to_num`; `none` is its `-1`. -/
def regNameToNum (name : Str) : Option (Fin 16) :=
  (regNames.find? fun entry => caseEq entry.2 name).map Prod.fst

/-! ## The branches of `exec_cmd` -/

/-- `sscanf(line, "%s %u %u", cmd, &op1, &op2)`: the command, the count `ops` and `op1`. -/
def scanCommand (line : Str) : Str × ℕ × BitVec 32 :=
  match scanWord line with
  | none => ([], 0, 0)
  | some (cmd, rest) =>
    match scanDecimal rest with
    | none => (cmd, 1, 0)
    | some (op1, rest) =>
      match scanDecimal rest with
      | none => (cmd, 2, op1)
      | some _ => (cmd, 3, op1)

/-- What stands behind the first word of the line. -/
def arguments (line : Str) : Str := ((scanWord line).map Prod.snd).getD []

/-- `reset`. -/
def execReset (emu : Emulator) : Emulator :=
  let emu := emu.setReg 0 0xC000
  disassemble emu emu.pc 1

/-- `quit`. -/
def execQuit (emu : Emulator) : Emulator := { emu with quit := true }

/-- The number of lines and the start address of `dis`. -/
def disArguments (emu : Emulator) (line : Str) : BitVec 32 × BitVec 16 :=
  match scanDecimal (arguments line) with
  | none => (10, emu.pc)
  | some (num, rest) =>
    match scanHex rest with
    | none => (num, emu.pc)
    | some (addr, _) => (num, addr.setWidth 16)

/-- `dis`; the count is passed on as a `uint8_t`. -/
def execDis (emu : Emulator) (line : Str) : Emulator :=
  disassemble emu (disArguments emu line).2 ((disArguments emu line).1.setWidth 8)

/-- The second word of the line, empty when there is none. -/
def secondWord (line : Str) : Str := ((scanWord (arguments line)).map Prod.fst).getD []

/-- The address at which `dump` starts, and the state once a register has been looked up. -/
def dumpStart (emu : Emulator) (line : Str) : Option (BitVec 16 × Emulator) :=
  let str := secondWord line
  match str.head? with
  | none => some (emu.pc, emu)
  | some c =>
    if 0x30 ≤ c ∧ c ≤ 0x39 then
      some ((((scanHex str).map fun r => r.1.setWidth 16).getD emu.pc), emu)
    else if c = 0x25 ∨ c = 0x72 ∨ c = 0x52 then
      -- an unknown name looks register 255 up
      (regNameToNum str).map fun n => ((getRegPtr emu n).regs n, getRegPtr emu n)
    else some (emu.pc, emu)

/-- `dump`, which prints the 32 bytes from the address on. -/
def execDump (emu : Emulator) (line : Str) : Option Emulator :=
  if 100 ≤ (secondWord line).length then none else (dumpStart emu line).map Prod.snd

/-- The value of `set`. -/
def setValue (line : Str) : BitVec 16 :=
  match scanWord (arguments line) with
  | none => 0
  | some (_, rest) => ((scanHex rest).map fun r => r.1.setWidth 16).getD 0

/-- `set` on a register. -/
def setRegister (emu : Emulator) (n : Fin 16) (value : BitVec 16) : Emulator :=
  if n = 2 then setSrValue emu value else (getRegPtr emu n).setReg n value

/-- `set`: a name that is no register is read as an address, by `strtol` to base zero. -/
def execSet (emu : Emulator) (line : Str) : Option Emulator :=
  if 50 ≤ (secondWord line).length then none
  else match regNameToNum (secondWord line) with
    | some n =>
      let emu := setRegister emu n (setValue line)
      some (disassemble emu emu.pc 1)
    | none =>
      let virtualAddr := (strtol (secondWord line)).setWidth 16
      some (emu.store16 (getAddrPtr virtualAddr) (setValue line))

/-- `MAX_BREAKPOINTS`. -/
def maxBreakpoints : ℕ := 100

/-- The cells of `struct Debugger` from `bp_addresses` on: the entries, `current_bp`, and the two
halves of `num_bps`, the low one first. -/
def debuggerCells (emu : Emulator) (i : ℕ) : BitVec 16 :=
  if i < maxBreakpoints then emu.bpAddresses i
  else if i = maxBreakpoints then emu.currentBp
  else if i = maxBreakpoints + 1 then BitVec.ofNat 16 emu.numBps
  else BitVec.ofNat 16 (emu.numBps / 2 ^ 16)

/-- The three fields as the cells have them. -/
def setDebuggerCells (emu : Emulator) (cells : ℕ → BitVec 16) : Emulator :=
  { emu with
    bpAddresses := fun i => if i < maxBreakpoints then cells i else emu.bpAddresses i
    currentBp := cells maxBreakpoints
    numBps := (cells (maxBreakpoints + 2) ++ cells (maxBreakpoints + 1)).toNat }

/-- The entry that `break` makes.  `sscanf` takes the pointer to the entry for one to an
`unsigned int`, and writes the cell behind it as well. -/
def addBreakpoint (emu : Emulator) (addr : BitVec 32) : Emulator :=
  let emu := setDebuggerCells emu (storePair (debuggerCells emu) emu.numBps
    (addr.setWidth 16) ((addr >>> 16).setWidth 16))
  { emu with numBps := emu.numBps + 1 }

/-- The write stays within the entries and `current_bp`: an entry changes only behind those that
count, and the count is not damaged. -/
theorem addBreakpoint_eq {emu : Emulator} (h : emu.numBps < maxBreakpoints) (addr : BitVec 32) :
    addBreakpoint emu addr
      = { emu with
          bpAddresses := fun i =>
            if i < maxBreakpoints then
              storePair emu.bpAddresses emu.numBps (addr.setWidth 16)
                ((addr >>> 16).setWidth 16) i
            else emu.bpAddresses i
          currentBp :=
            if maxBreakpoints = emu.numBps + 1 then (addr >>> 16).setWidth 16 else emu.currentBp
          numBps := emu.numBps + 1 } := by
  have hmax : maxBreakpoints = 100 := rfl
  obtain ⟨cells, hcells⟩ : ∃ cells, cells = storePair (debuggerCells emu) emu.numBps
      (addr.setWidth 16) ((addr >>> 16).setWidth 16) := ⟨_, rfl⟩
  have hcount : (cells (maxBreakpoints + 2) ++ cells (maxBreakpoints + 1)).toNat = emu.numBps := by
    have hhigh : cells (maxBreakpoints + 2) = 0 := by
      rw [hcells, storePair_of_gt _ _ _ (by omega)]
      show BitVec.ofNat 16 (emu.numBps / 2 ^ 16) = 0#16
      rw [Nat.div_eq_of_lt (by omega)]
    have hlow : cells (maxBreakpoints + 1) = BitVec.ofNat 16 emu.numBps := by
      rw [hcells, storePair_of_gt _ _ _ (by omega)]
      rfl
    rw [hhigh, hlow, BitVec.toNat_append, BitVec.toNat_ofNat, Nat.mod_eq_of_lt (by omega)]
    simp
  have hcurrent : cells maxBreakpoints
      = if maxBreakpoints = emu.numBps + 1 then (addr >>> 16).setWidth 16 else emu.currentBp := by
    rw [hcells, storePair, if_neg h.ne']
    rfl
  rw [addBreakpoint, ← hcells, setDebuggerCells, hcount, hcurrent]
  congr 1
  funext i
  refine if_ctx_congr Iff.rfl (fun hi => ?_) fun _ => rfl
  rw [hcells, storePair, storePair, debuggerCells, if_pos hi]

/-- `break`. -/
def execBreak (emu : Emulator) (line : Str) : Emulator :=
  if maxBreakpoints ≤ emu.numBps then emu
  else match scanHex (arguments line) with
    | none => emu
    | some (addr, _) => addBreakpoint emu addr

/-- `bps`: `current_bp` goes from 0 up to `num_bps` over the entries that are printed. -/
def execBps (emu : Emulator) : Emulator :=
  if 0 < emu.numBps then { emu with currentBp := (· + 1)^[emu.numBps] 0 } else emu

/-- `current_bp` ends at the count. -/
theorem execBps_eq (emu : Emulator) :
    execBps emu
      = { emu with currentBp :=
            if 0 < emu.numBps then BitVec.ofNat 16 emu.numBps else emu.currentBp } := by
  have hloop (n : ℕ) : (· + 1)^[n] (0 : BitVec 16) = BitVec.ofNat 16 n := by
    induction n with
    | zero => rfl
    | succ n ih =>
      rw [Function.iterate_succ_apply', ih, BitVec.ofNat_add]
      rfl
  rw [execBps, hloop]
  split_ifs <;> rfl

/-- The command is one of the names. -/
def named (cmd : Str) (names : List Str) : Bool := names.any fun s => caseEq s cmd

/-- `exec_cmd`. -/
def execCmd (emu : Emulator) (line : Str) : Option Emulator :=
  let (cmd, ops, op1) := scanCommand line
  if 100 ≤ cmd.length then none
  else if named cmd [bytes "reset", bytes "restart"] then some (execReset emu)
  else if named cmd [bytes "s", bytes "step"] then
    some (execStep emu (if ops = 2 then op1 else 1))
  else if named cmd [bytes "quit", bytes "q"] then some (execQuit emu)
  else if named cmd [bytes "run", bytes "r"] then some (execRun emu)
  else if named cmd [bytes "disas", bytes "dis", bytes "disassemble"] then
    some (execDis emu line)
  else if named cmd [bytes "dump"] then execDump emu line
  else if named cmd [bytes "set"] then execSet emu line
  else if named cmd [bytes "break"] then some (execBreak emu line)
  else if named cmd [bytes "bps"] then some (execBps emu)
  else if named cmd [bytes "regs"] then some (disassemble emu emu.pc 1)
  else if named cmd [bytes "help", bytes "h"] then some emu
  else some emu

end Msp430
