/-
# What commands and messages touch

The bytes of `MEMSPACE` and the peripheral registers that a console command, a client message
or a turn of the main loop reads or writes.  Peripheral registers are reached through pointers
that the `setup_…` functions store; the handlers read them after every instruction, and
`handle_usci` only while P1.2 is in its UART function.
-/
import Msp430.Accesses
import Msp430.Receive

namespace Msp430

open CString Footprint

/-! ## The commands -/

/-- The branches of `exec_cmd`. -/
inductive Command : Type where
  | overlong : Command
  | reset : Command
  | step (steps : BitVec 32) : Command
  | quit : Command
  | run : Command
  | dis : Command
  | dump : Command
  | set : Command
  | addBreak : Command
  | bps : Command
  | regs : Command
  | help : Command
  | invalid : Command
  deriving DecidableEq, Repr

/-- The branch that a line takes. -/
def command (line : Str) : Command :=
  let (cmd, ops, op1) := scanCommand line
  if 100 ≤ cmd.length then .overlong
  else if named cmd [bytes "reset", bytes "restart"] then .reset
  else if named cmd [bytes "s", bytes "step"] then .step (if ops = 2 then op1 else 1)
  else if named cmd [bytes "quit", bytes "q"] then .quit
  else if named cmd [bytes "run", bytes "r"] then .run
  else if named cmd [bytes "disas", bytes "dis", bytes "disassemble"] then .dis
  else if named cmd [bytes "dump"] then .dump
  else if named cmd [bytes "set"] then .set
  else if named cmd [bytes "break"] then .addBreak
  else if named cmd [bytes "bps"] then .bps
  else if named cmd [bytes "regs"] then .regs
  else if named cmd [bytes "help", bytes "h"] then .help
  else .invalid

/-- What a branch does. -/
def Command.exec (emu : Emulator) (line : Str) : Command → Option Emulator
  | .overlong => none
  | .reset => some (execReset emu)
  | .step steps => some (execStep emu steps)
  | .quit => some (execQuit emu)
  | .run => some (execRun emu)
  | .dis => some (execDis emu line)
  | .dump => execDump emu line
  | .set => execSet emu line
  | .addBreak => some (execBreak emu line)
  | .bps => some (execBps emu)
  | .regs => some (disassemble emu emu.pc 1)
  | .help => some emu
  | .invalid => some emu

/-- `exec_cmd` finds the branch and takes it. -/
theorem execCmd_eq (emu : Emulator) (line : Str) :
    execCmd emu line = (command line).exec emu line := by
  unfold execCmd command
  obtain ⟨cmd, ops, op1⟩ := scanCommand line
  simp only [apply_ite (Command.exec emu line)]
  rfl

/-- The command is the first word. -/
theorem scanCommand_fst {line w rest : Str} (h : scanWord line = some (w, rest)) :
    (scanCommand line).1 = w := by
  unfold scanCommand
  rw [h]
  dsimp only
  split
  · rfl
  · split <;> rfl

/-- A command other than `step` is decided by the first word. -/
theorem command_of_word {line w rest : Str} {c : Command} (h : scanWord line = some (w, rest))
    (hw : (scanCommand w).1 = w) (hc : command w = c) (hstep : ∀ steps, c ≠ .step steps) :
    command line = c := by
  have hcmd := scanCommand_fst h
  unfold command at hc ⊢
  rcases hline : scanCommand line with ⟨first, ops, op1⟩
  rcases hword : scanCommand w with ⟨cmd, ops', op1'⟩
  rw [hline] at hcmd
  rw [hword] at hw hc
  obtain rfl : first = w := hcmd
  obtain rfl : cmd = first := hw
  dsimp only at hc ⊢
  by_cases hlong : 100 ≤ cmd.length
  · rwa [if_pos hlong] at hc ⊢
  · rw [if_neg hlong] at hc ⊢
    by_cases hreset : named cmd [bytes "reset", bytes "restart"] = true
    · rwa [if_pos hreset] at hc ⊢
    · rw [if_neg hreset] at hc ⊢
      by_cases hs : named cmd [bytes "s", bytes "step"] = true
      · rw [if_pos hs] at hc
        exact absurd hc.symm (hstep _)
      · rwa [if_neg hs] at hc ⊢

/-! ## Accesses -/

/-- The peripherals that keep pointers to their registers. -/
inductive Peripheral : Type where
  | bcm : Peripheral
  | timerA : Peripheral
  | port1 : Peripheral
  | usci : Peripheral
  deriving DecidableEq, Repr

/-- What the program touches: a byte of `MEMSPACE`, or a register through the pointer that a
peripheral keeps. -/
inductive Access : Type where
  | byte (offset : ℕ) : Access
  | register (p : Peripheral) : Access
  deriving DecidableEq, Repr

/-- Bytes of `MEMSPACE`. -/
def bytesTouched (l : List ℕ) : List Access := l.map .byte

/-! ## The machine -/

/-- P1.2 is in its UART function. -/
def uartSelected (emu : Emulator) : Bool := emu.p1.sel 2 && emu.p1.sel2 2

/-- The handlers that run after an instruction. -/
def handlerAccesses (emu : Emulator) : List Access :=
  [.register .bcm, .register .timerA, .register .port1] ++
    if uartSelected (handlePort1 (handleTimerA (handleBcm emu))) then [.register .usci] else []

/-- One instruction and the peripheral handlers after it. -/
def machineAccesses (emu : Emulator) : List Access :=
  bytesTouched (cpuBytes emu) ++ handlerAccesses (cpuStep emu)

/-- `disassemble`. -/
def listingAccesses (emu : Emulator) (start : BitVec 16) (times : BitVec 8) : List Access :=
  bytesTouched (disassembleBytes emu start times)

/-- `handle_breakpoints`. -/
def breakpointAccesses (emu : Emulator) : List Access :=
  if (List.range emu.numBps).any (fun i => emu.pc == emu.bpAddresses i) then
    listingAccesses { emu with running := false, debugMode := true } emu.pc 1
  else []

/-! ## The console -/

/-- `reset`. -/
def resetAccesses (emu : Emulator) : List Access := listingAccesses (emu.setReg 0 0xC000) 0xC000 1

/-- `step`: the instructions, and the line that is listed after them. -/
def stepAccesses (emu : Emulator) (steps : BitVec 32) : List Access :=
  gather machineStep machineAccesses steps.toNat emu ++
    listingAccesses (machineStep^[steps.toNat] emu) (machineStep^[steps.toNat] emu).pc 1

/-- `dis`. -/
def disAccesses (emu : Emulator) (line : Str) : List Access :=
  listingAccesses emu (disArguments emu line).2 ((disArguments emu line).1.setWidth 8)

/-- `dump_memory`: four rows of eight bytes. -/
def dumpBytes (start : BitVec 16) : List ℕ := (List.range 32).map fun i => start.toNat + i

/-- `dump`. -/
def dumpAccesses (emu : Emulator) (line : Str) : List Access :=
  if 100 ≤ (secondWord line).length then []
  else match dumpStart emu line with
    | none => []
    | some (start, _) => bytesTouched (dumpBytes start)

/-- `set`: a register is listed after, an address is written as a word. -/
def setAccesses (emu : Emulator) (line : Str) : List Access :=
  if 50 ≤ (secondWord line).length then []
  else match regNameToNum (secondWord line) with
    | some n =>
      let emu := setRegister emu n (setValue line)
      listingAccesses emu emu.pc 1
    | none =>
      bytesTouched ((getAddrPtr ((strtol (secondWord line)).setWidth 16)).bytes .word)

/-- `exec_cmd`. -/
def commandAccesses (emu : Emulator) (line : Str) : List Access :=
  match command line with
  | .reset => resetAccesses emu
  | .step steps => stepAccesses emu steps
  | .dis => disAccesses emu line
  | .dump => dumpAccesses emu line
  | .set => setAccesses emu line
  | .regs => listingAccesses emu emu.pc 1
  | _ => []

/-! ## Messages -/

/-- `LWS_CALLBACK_RECEIVE`.  Serial data starts a thread, whose accesses are its own. -/
def receiveAccesses (h : Host) (m : Message) : List Access :=
  if h.upload.inProgress then []
  else match m.byteAt 0 with
    | 0x02 =>
      if h.emu.running then
        let emu := { h.emu with running := false, debugMode := true }
        listingAccesses emu emu.pc 1
      else []
    | 0x04 =>
      if 1000 < m.bytes.length then []
      else if !h.emu.running && h.emu.debugMode then commandAccesses h.emu m.line
      else []
    | _ => []

/-- Messages other than PAUSE and console lines touch nothing. -/
theorem receiveAccesses_of_other {h : Host} {m : Message} (hpause : m.byteAt 0 ≠ 0x02)
    (hconsole : m.byteAt 0 ≠ 0x04) : receiveAccesses h m = [] := by
  unfold receiveAccesses
  by_cases hup : h.upload.inProgress = true
  · rw [if_pos hup]
  · rw [if_neg hup]
    split
    · exact absurd ‹_› hpause
    · exact absurd ‹_› hconsole
    · rfl

end Msp430
