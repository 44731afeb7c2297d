/-
# What the program prints

The packets that the program queues while it runs, in the order of the calls: the texts of the
debugger and the disassembler, the register displays, the bytes of the serial interface and the
servo packets.  A transcript is what a run of the whole program queues, with the writable
callbacks in between and the trail of the executed instructions; `Transcript.reports` says that
the serial text in it is what the machine has sent.  A handler, a command, an instruction with
its handlers and an operation on the queue are each one event.  What `main` prints while it waits
for the firmware is a console text, left open.
-/
import Msp430.Client
import Msp430.Decimals
import Msp430.Emission
import Msp430.Listing
import Msp430.RegisterDisplay
import Msp430.Session

namespace Msp430

open CString Emission Reachability

/-! ## Texts -/

/-- `print_console` on one text after the other. -/
def console (texts : List Str) : List Operation := texts.map .printConsole

/-- The message of `decode` for a word that is no instruction. -/
def invalidText (instruction : BitVec 16) : Str :=
  printHex 4 instruction.toNat ++ bytes "\t[INVALID INSTRUCTION]\n"

/-- What is printed behind the operand block: the words, one blank at a time, the rest. -/
def instructionTexts (words : List (BitVec 16)) (mnemonic operands : Str) : List Str :=
  let hex := swapBytes (hexStr words)
  hex :: (List.replicate (12 - hex.length) (bytes " ") ++
    [bytes "\t", mnemonic ++ bytes "\t" ++ operands ++ bytes "\n"])

/-- What `decode` prints in `DISASSEMBLE` mode. -/
def decodeTexts (emu : Emulator) (instruction : BitVec 16) : List Str :=
  if formatId instruction = 1 then
    if emu.debugMode then
      instructionTexts (instruction :: (textII emu instruction).hexParts)
        (mnemonicII (opcodeII instruction) (bwFlag instruction))
        (textII emu instruction).asmOperand
    else []
  else if 2 ≤ formatId instruction ∧ formatId instruction ≤ 3 then
    if emu.debugMode then
      instructionTexts [instruction] (mnemonicIII (jumpCondition instruction))
        (jumpText emu instruction)
    else []
  else if 4 ≤ formatId instruction then
    if emu.debugMode then
      instructionTexts (instruction :: (textI emu instruction true).hexParts)
        (mnemonicI (formatId instruction) (bwFlag instruction))
        (textI emu instruction true).asmOperands
    else []
  else [invalidText instruction]

/-- What `disassemble` prints. -/
def disassembleTexts (emu : Emulator) (startAddr : BitVec 16) (times : BitVec 8) : List Str :=
  (List.range times.toNat).flatMap fun i =>
    let emu := disassembleLine^[i] (listingStart emu startAddr)
    (bytes "0x" ++ printHex 4 emu.pc.toNat ++ bytes ":\t") :: decodeTexts (fetch emu).2 (fetch emu).1

/-- What `dump_memory` prints. -/
def dumpTexts (emu : Emulator) (start : BitVec 16) : List Str :=
  bytes "\n" :: (List.range 4).flatMap fun i =>
    let a := start.toNat + 8 * i
    [bytes "0x" ++ printHex 4 a ++ bytes ":\t",
     List.intercalate (bytes "  ")
       ((List.range 8).map fun i => bytes "0x" ++ printHex 2 (emu.mem (a + i)).toNat) ++ bytes "\n"]

theorem flatten_instructionTexts (words : List (BitVec 16)) (mnemonic operands : Str) :
    (instructionTexts words mnemonic operands).flatten
      = printInstruction words mnemonic operands := by
  have hblanks (n : ℕ) : (List.replicate n (bytes " ")).flatten = List.replicate n 0x20 := by
    induction n with
    | zero => rfl
    | succ n ih =>
      rw [List.replicate_succ, List.flatten_cons, ih]
      rfl
  simp [instructionTexts, printInstruction, hblanks, List.append_assoc]

/-- **The calls of `decode` make up its text.** -/
theorem flatten_decodeTexts (emu : Emulator) (instruction : BitVec 16) :
    (decodeTexts emu instruction).flatten = decodeText emu instruction := by
  rw [decodeTexts, decodeText]
  split_ifs
  all_goals first | exact flatten_instructionTexts _ _ _ | exact List.append_nil _ | rfl

/-- The calls of `disassemble` make up its text. -/
theorem flatten_disassembleTexts (emu : Emulator) (startAddr : BitVec 16) (times : BitVec 8) :
    (disassembleTexts emu startAddr times).flatten = disassembleText emu startAddr times := by
  rw [disassembleTexts, disassembleText, List.flatten_eq_flatMap, List.flatMap_assoc]
  apply congrArg (fun f => List.flatMap f (List.range times.toNat))
  funext i
  rw [List.flatMap_id, List.flatten_cons, flatten_decodeTexts, disassembleLineText]

/-- The calls of `dump_memory` make up its text. -/
theorem flatten_dumpTexts (emu : Emulator) (start : BitVec 16) :
    (dumpTexts emu start).flatten = dumpMemory emu start := by
  rw [dumpTexts, dumpMemory, List.flatten_cons, List.flatten_eq_flatMap, List.flatMap_assoc]
  apply congrArg (fun f => bytes "\n" ++ List.flatMap f (List.range 4))
  funext i
  simp [dumpRow, List.append_assoc]

/-! ## The machine -/

/-- `display_registers` and `disassemble` of the current instruction. -/
def showMachine (emu : Emulator) : List Operation :=
  .printConsole (displayRegisters false emu) :: console (disassembleTexts emu emu.pc 1)

/-- What `handle_breakpoints` prints: the first breakpoint that is hit. -/
def breakpointOutput (emu : Emulator) : List Operation :=
  match (List.range emu.numBps).find? fun i => emu.pc == emu.bpAddresses i with
  | none => []
  | some i =>
    .printConsole (bytes "\n\t[Breakpoint " ++ printDecimal (i + 1) ++ bytes " hit]\n\n") ::
      showMachine { emu with running := false, debugMode := true }

/-- What `decode` prints in `EXECUTE` mode. -/
def executeOutput (instruction : BitVec 16) : List Operation :=
  if formatId instruction = 0 then console [invalidText instruction] else []

/-- `SERVO_MOTOR`. -/
def servoMotor : BitVec 8 := 0x21

/-- What `handle_timer_a` may send, once it has served the timer: in compare and up mode, and
where the period and the pulse width are new, an angle.  They are computed in floating point. -/
def ServoOutput (emu : Emulator) (ops : List Operation) : Prop :=
  ops = [] ∨ emu.timerA.compareMode0 = true ∧ emu.timerA.mode0 = .up ∧
    ∃ angle ∈ ([0, 30, 60, 90, 120, 150] : List (BitVec 8)),
      ops = [.sendControl servoMotor (some [angle])]

/-- What `handle_usci` sends. -/
def usciOutput (emu : Emulator) : List Operation :=
  if emu.p1.sel 2 && emu.p1.sel2 2 then
    if emu.load8 ifg2 &&& 0x02 != 0 then
      let c := emu.load8 uca0txbuf
      if c != 0 then [.printSerial [c]] else []
    else []
  else []

/-- What one instruction prints, with the peripheral handlers after it. -/
def StepOutput (emu : Emulator) (ops : List Operation) : Prop :=
  ∃ servo, ServoOutput (handleTimerA (handleBcm (cpuStep emu))) servo ∧
    ops = executeOutput (fetch emu).1 ++ servo ++
      usciOutput (handlePort1 (handleTimerA (handleBcm (cpuStep emu))))

/-- What a number of instructions print. -/
def StepsOutput (emu : Emulator) : ℕ → List Operation → Prop
  | 0, ops => ops = []
  | n + 1, ops => ∃ first rest, StepOutput emu first ∧ StepsOutput (machineStep emu) n rest ∧
      ops = first ++ rest

/-! ## The debugger -/

/-- What `break` prints. -/
def breakText (emu : Emulator) (line : Str) : Str :=
  if maxBreakpoints ≤ emu.numBps then bytes "Breakpoints are full.\n"
  else match scanHex (arguments line) with
    | none => bytes "error\n"
    | some _ =>
      bytes "\n\t[Breakpoint [" ++ printDecimal (emu.numBps + 1) ++ bytes "] Set]\n"

/-- What `bps` prints. -/
def bpsTexts (emu : Emulator) : List Str :=
  if 0 < emu.numBps then
    (List.range emu.numBps).map fun i =>
      bytes "\t[" ++ printDecimal (i + 1) ++ bytes "] 0x" ++
        printHex 4 (emu.bpAddresses i).toNat ++ bytes "\n"
  else [bytes "You have not set any breakpoints!\n"]

/-- `WebHelpStr`. -/
def webHelpStr : Str :=
  bytes "--------------------------------------------------\n" ++
  bytes " \t\t[MSP430-Emulator]\n" ++
  bytes " run\t\t\t[Run Program Until Breakpoint is Hit]\n" ++
  bytes " step [N]\t\t[Step Into Instruction]\n" ++
  bytes " dump [HEX_ADDR|Rn]\t[Dump Memory direct or at register value]\n" ++
  bytes " set [HEX_ADDR|Rn]\t[Set Memory or Register Location]\n" ++
  bytes " dis [N][HEX_ADDR]\t[Disassemble Instructions]\n" ++
  bytes " break ADDR\t\t[Set a Breakpoint]\n" ++
  bytes " bps\t\t\t[Display Breakpoints]\n" ++
  bytes " regs\t\t\t[Display Registers]\n" ++
  bytes " reset\t\t\t[Reset Machine]\n" ++
  bytes " quit\t\t\t[Exit program]\n" ++
  bytes "--------------------------------------------------\n"

/-- What a branch of `exec_cmd` prints. -/
def Command.Prints (emu : Emulator) (line : Str) (ops : List Operation) : Command → Prop
  | .overlong | .quit => ops = []
  | .reset => ops = showMachine (emu.setReg 0 0xC000)
  | .step steps => ∃ out, StepsOutput emu steps.toNat out ∧
      ops = out ++ showMachine (machineStep^[steps.toNat] emu)
  | .run => ops = updateRegisterDisplay (execRun emu)
  | .dis => ops = console (disassembleTexts emu (disArguments emu line).2
      ((disArguments emu line).1.setWidth 8))
  | .dump => ∃ r, dumpStart emu line = some r ∧ ops = console (dumpTexts r.2 r.1)
  | .set =>
    match regNameToNum (secondWord line) with
    | some n => ops = showMachine (setRegister emu n (setValue line))
    | none => ops = []
  | .addBreak => ops = console [breakText emu line]
  | .bps => ops = console (bpsTexts emu)
  | .regs => ops = showMachine emu
  | .help => ops = console [webHelpStr]
  | .invalid => ops = console [bytes "\t[Invalid command, type \"help\".]\n"]

/-! ## The program -/

/-- What the receive handler prints. -/
def ReceiveOutput (h : Host) (m : Message) (ops : List Operation) : Prop :=
  if h.upload.inProgress then ops = []
  else match m.byteAt 0 with
  | 0x01 => ops = updateRegisterDisplay (execRun h.emu)
  | 0x02 =>
    if h.emu.running then
      let emu := { h.emu with running := false, debugMode := true }
      ops = showMachine emu ++ updateRegisterDisplay (disassemble emu emu.pc 1)
    else ops = []
  | 0x04 =>
    if !h.emu.running && h.emu.debugMode then
      ∃ out, (command m.line).Prints h.emu m.line out ∧
        ∃ emu ∈ execCmd h.emu m.line, ops = out ++ updateRegisterDisplay emu
    else ops = []
  | _ => ops = []

/-- What `main` prints from `load_firmware` to its loop. -/
def initialiseOutput (tmpBin : List (BitVec 8)) (emu : Emulator) : List Operation :=
  let emu := loadImage (setUp emu) 0xC000 tmpBin
  console [bytes "Loading firmware: ( tmp.bin )\n",
    bytes "Placed " ++ printDecimal tmpBin.length ++ bytes " bytes into flash\n\n"] ++
    showMachine emu ++ updateRegisterDisplay (disassemble emu emu.pc 1)

/-- What a step of the program prints. -/
def Program.StepOutput (p : Program) (ops : List Operation) : ProgramStep → Prop
  | .message m => ReceiveOutput p.host m ops
  | .initialise tmpBin => ops = initialiseOutput tmpBin p.host.emu
  | .main =>
    match p.main with
    | .waiting => ops = [] ∨ ∃ text, ops = console [text]
    | .head => ops = if p.host.emu.running then breakpointOutput p.host.emu else []
    | .decode => Msp430.StepOutput p.host.emu ops

/-- What happens: a step of the program, a writable callback, or a byte that the serial input
delivers. -/
inductive Happening : Type where
  | program (a : ProgramStep) : Happening
  | writeable : Happening
  | input (b : BitVec 8) : Happening

/-- The program once it has happened. -/
def Program.happen (p : Program) : Happening → Option Program
  | .program a => p.step a
  | .writeable => some p
  | .input b =>
    if p.main = .waiting then none else some { p with host := { p.host with emu := deliver p.host.emu b } }

/-- The operations on the queue while it happens. -/
def Program.Queues (p : Program) : Happening → List Operation → Prop
  | .program a, ops => p.StepOutput ops a
  | .writeable, ops => ops = [.serverWriteable p.host.emu.p1]
  | .input _, ops => ops = []

/-- The states in which a message executes instructions. -/
def receiveExecutes (h : Host) (m : Message) : List Emulator :=
  if h.upload.inProgress then []
  else if m.byteAt 0 = 0x04 then executed h.emu (.command m.line)
  else []

/-- The states in which a happening executes instructions. -/
def Program.executes (p : Program) : Happening → List Emulator
  | .program (.message m) => receiveExecutes p.host m
  | .program .main => if p.main = .decode then [p.host.emu] else []
  | _ => []

/-- A transcript: the operations on the queue while the program gets from one state to another,
by happenings that meet a condition, and the states in which it executes instructions. -/
def Transcript (P : Program → Happening → Prop) (start : Program) (ops : List Operation)
    (trail : List Emulator) (p : Program) : Prop :=
  Emits Program.happen Program.Queues Program.executes P start ops trail p

/-- Anything may happen. -/
def Anything (_ : Program) (_ : Happening) : Prop := True

/-! ## Plain operations -/

/-- The operation is a text for the console, or a servo packet. -/
def Operation.Aside : Operation → Prop
  | .printConsole _ => True
  | .sendControl opcode data => opcode = servoMotor ∧ (data.getD []).length = 1
  | _ => False

theorem aside_console {texts : List Str} : ∀ op ∈ console texts, op.Aside := by
  intro op hop
  obtain ⟨text, -, rfl⟩ := List.mem_map.mp hop
  trivial

theorem aside_showMachine {emu : Emulator} : ∀ op ∈ showMachine emu, op.Aside := by
  intro op hop
  rcases List.mem_cons.mp hop with rfl | hop
  · trivial
  · exact aside_console op hop

theorem aside_breakpointOutput {emu : Emulator} : ∀ op ∈ breakpointOutput emu, op.Aside := by
  intro op hop
  unfold breakpointOutput at hop
  split at hop
  · cases hop
  · rcases List.mem_cons.mp hop with rfl | hop
    · trivial
    · exact aside_showMachine op hop

/-- The bytes that an operation sends. -/
theorem serialText_aside {ops : List Operation} (h : ∀ op ∈ ops, op.Aside) :
    ops.flatMap Operation.serialText = [] := by
  apply List.flatMap_eq_nil_iff.mpr
  intro op hop
  have haside := h op hop
  cases op with
  | printConsole buf => rfl
  | sendControl opcode data => rfl
  | printSerial buf => exact haside.elim
  | serverWriteable p1 => exact haside.elim

/-- One instruction prints asides, and then what the serial interface sends. -/
theorem StepOutput.split {emu : Emulator} {ops : List Operation} (h : StepOutput emu ops) :
    ∃ asides, (∀ op ∈ asides, op.Aside) ∧
      ops = asides ++ usciOutput (handlePort1 (handleTimerA (handleBcm (cpuStep emu)))) := by
  obtain ⟨servo, hservo, rfl⟩ := h
  refine ⟨_, ?_, rfl⟩
  intro op hop
  rcases List.mem_append.mp hop with hop | hop
  · unfold executeOutput at hop
    split_ifs at hop
    · exact aside_console op hop
    · cases hop
  · rcases hservo with rfl | ⟨-, -, angle, -, rfl⟩
    · cases hop
    · obtain rfl := List.mem_singleton.mp hop
      exact ⟨rfl, rfl⟩

/-- What the serial interface sends is one byte at most. -/
theorem usciOutput_cases (emu : Emulator) :
    (usciOutput emu = [] ∧ (handleUsci emu).serial = emu.serial) ∨
      ∃ c, c ≠ 0 ∧ usciOutput emu = [.printSerial [c]] ∧
        (handleUsci emu).serial = emu.serial ++ [c] := by
  simp only [usciOutput, handleUsci]
  split_ifs with hfun hflag hbyte
  · exact .inr ⟨_, by simpa using hbyte, rfl, rfl⟩
  all_goals exact .inl ⟨rfl, rfl⟩

/-- **One instruction** sends what it prints to the serial interface. -/
theorem StepOutput.serial {emu : Emulator} {ops : List Operation} (h : StepOutput emu ops) :
    (machineStep emu).serial = emu.serial ++ ops.flatMap Operation.serialText := by
  obtain ⟨asides, hasides, rfl⟩ := h.split
  have hcpu : (mirrored (cpuStep emu)).serial = emu.serial :=
    (serial_mirrored _).trans (congrArg (fun p => p.2.2.2) (peripherals_cpuStep emu))
  rw [List.flatMap_append, serialText_aside hasides, List.nil_append, machineStep,
    handlePeripherals_eq, ← hcpu]
  rcases usciOutput_cases (mirrored (cpuStep emu)) with ⟨hout, hserial⟩ | ⟨c, hc, hout, hserial⟩
  · rw [hserial, ← mirrored, hout]
    exact (List.append_nil _).symm
  · have htext : [c].takeWhile (· != 0) = [c] := List.takeWhile_cons_of_pos (by simpa using hc)
    rw [hserial, ← mirrored, hout, List.flatMap_cons, Operation.serialText, htext]
    rfl

theorem Operation.Aside.plain {op : Operation} (h : op.Aside) : op.Plain := by
  cases op with
  | sendControl opcode data =>
    obtain ⟨rfl, hlen⟩ := h
    refine ⟨by decide, ?_⟩
    omega
  | printConsole buf => trivial
  | printSerial buf => trivial
  | serverWriteable p1 => trivial

theorem plain_updateRegisterDisplay (emu : Emulator) :
    ∀ op ∈ updateRegisterDisplay emu, op.Plain := by
  intro op hop
  unfold updateRegisterDisplay at hop
  split_ifs at hop
  · obtain rfl := List.mem_singleton.mp hop
    exact ⟨by decide, by decide⟩
  · obtain ⟨n, -, rfl⟩ := List.mem_map.mp hop
    refine ⟨?_, ?_⟩
    · have hcode : ∀ n : Fin 16, 0x10 ≤ (updateRegPacket n).toNat := by decide
      exact hcode n
    · have hlen := length_registerText emu n
      rw [Option.getD_some]
      omega

/-! ## What is reported -/

/-- Plain operations whose serial text is what the machine has sent from one state to another. -/
structure Reports (emu emu' : Emulator) (ops : List Operation) : Prop where
  plain : ∀ op ∈ ops, op.Plain
  serial : emu'.serial = emu.serial ++ ops.flatMap Operation.serialText

section Reports

variable {emu emu' emu'' : Emulator} {ops ops' : List Operation}

theorem Reports.trans (h : Reports emu emu' ops) (h' : Reports emu' emu'' ops') :
    Reports emu emu'' (ops ++ ops') where
  plain := List.forall_mem_append.mpr ⟨h.plain, h'.plain⟩
  serial := by rw [h'.serial, h.serial, List.flatMap_append, List.append_assoc]

theorem Reports.of_eq (h : emu'.serial = emu.serial) : Reports emu emu' [] where
  plain := by simp
  serial := by rw [h, List.flatMap_nil, List.append_nil]

theorem Reports.asides (h : emu'.serial = emu.serial) (hops : ∀ op ∈ ops, op.Aside) :
    Reports emu emu' ops where
  plain := fun op hop => (hops op hop).plain
  serial := by rw [h, serialText_aside hops, List.append_nil]

theorem reports_updateRegisterDisplay (emu e : Emulator) :
    Reports emu emu (updateRegisterDisplay e) where
  plain := plain_updateRegisterDisplay e
  serial := by
    have hnone : (updateRegisterDisplay e).flatMap Operation.serialText = [] := by
      apply List.flatMap_eq_nil_iff.mpr
      intro op hop
      unfold updateRegisterDisplay at hop
      split_ifs at hop
      · obtain rfl := List.mem_singleton.mp hop
        rfl
      · obtain ⟨n, -, rfl⟩ := List.mem_map.mp hop
        rfl
    rw [hnone, List.append_nil]

/-- One instruction. -/
theorem StepOutput.reports (h : StepOutput emu ops) : Reports emu (machineStep emu) ops where
  plain := by
    obtain ⟨asides, hasides, rfl⟩ := h.split
    intro op hop
    rcases List.mem_append.mp hop with hop | hop
    · exact (hasides op hop).plain
    · rcases usciOutput_cases (mirrored (cpuStep emu)) with ⟨hout, -⟩ | ⟨c, -, hout, -⟩
      · rw [← mirrored, hout] at hop
        cases hop
      · rw [← mirrored, hout] at hop
        obtain rfl := List.mem_singleton.mp hop
        trivial
  serial := h.serial

/-- Instructions in a row. -/
theorem StepsOutput.reports {n : ℕ} (h : StepsOutput emu n ops) :
    Reports emu (machineStep^[n] emu) ops := by
  induction n generalizing emu ops with
  | zero =>
    obtain rfl : ops = [] := h
    exact .of_eq rfl
  | succ n ih =>
    obtain ⟨first, rest, hfirst, hrest, rfl⟩ := h
    rw [Function.iterate_succ_apply]
    exact hfirst.reports.trans (ih hrest)

theorem serial_disassemble (emu : Emulator) (start : BitVec 16) (times : BitVec 8) :
    (disassemble emu start times).serial = emu.serial :=
  congrArg (fun d => d.2.2.2.2) (device_disassemble emu start times)

theorem unseen_serial : Unseen Emulator.serial where
  host := fun _ _ h => congrArg (fun d => d.2.2.2.2) h
  input := by
    intro emu b
    unfold deliver
    split_ifs <;> rfl

/-- No other command than `step` sends anything. -/
theorem serial_execCmd {line : Str} (h : execCmd emu line = some emu')
    (hstep : ∀ steps, command line ≠ .step steps) : emu'.serial = emu.serial := by
  have hfollows := follows_execCmd unseen_serial (fun _ _ _ _ => rfl) h
  cases hc : command line <;> rw [hc] at hfollows
  case step steps => exact absurd hc (hstep steps)
  all_goals
    cases hfollows with
    | rest hserial => exact hserial

/-- **A command** reports what the machine sends in its steps. -/
theorem Command.Prints.reports {line : Str} (hp : (command line).Prints emu line ops)
    (h : execCmd emu line = some emu') : Reports emu emu' ops := by
  have hserial := serial_execCmd h
  cases hc : command line <;> rw [hc] at hp hserial
  case step steps =>
    obtain ⟨out, hout, rfl⟩ := hp
    rw [execCmd_eq, hc] at h
    obtain rfl := Option.some.inj h
    exact hout.reports.trans (.asides (serial_disassemble _ _ _) aside_showMachine)
  all_goals replace hserial := hserial fun _ => by simp
  case run =>
    obtain rfl : ops = _ := hp
    exact (Reports.of_eq hserial).trans (reports_updateRegisterDisplay emu' (execRun emu))
  case dump =>
    obtain ⟨r, -, rfl⟩ := hp
    exact .asides hserial aside_console
  case set =>
    simp only [Command.Prints] at hp
    cases hname : regNameToNum (secondWord line) with
    | none =>
      obtain rfl : ops = [] := by simpa only [hname] using hp
      exact .of_eq hserial
    | some n =>
      obtain rfl : ops = _ := by simpa only [hname] using hp
      exact .asides hserial aside_showMachine
  all_goals
    obtain rfl : ops = _ := hp
    first
    | exact .of_eq hserial
    | exact .asides hserial aside_showMachine
    | exact .asides hserial aside_console

/-- A command executes nothing unless the CPU stands in the debugger. -/
theorem executed_command_of_not {line : Str} (h : ¬ (!emu.running && emu.debugMode) = true) :
    executed emu (.command line) = [] := by
  rw [executed]
  split
  · exact if_neg h
  · rfl

/-- **A message** prints nothing, executes nothing and leaves the machine, or ends with the
registers. -/
theorem ReceiveOutput.cases {h h' : Host} {m : Message} (ho : ReceiveOutput h m ops)
    (hr : receive h m = some h') :
    (ops = [] ∧ h'.emu = h.emu ∧ receiveExecutes h m = []) ∨
      ∃ out, Reports h.emu h'.emu out ∧ ops = out ++ updateRegisterDisplay h'.emu := by
  unfold ReceiveOutput at ho
  unfold receive at hr
  unfold receiveExecutes
  by_cases hup : h.upload.inProgress = true
  · rw [if_pos hup] at ho hr
    obtain rfl := Option.some.inj hr
    exact .inl ⟨ho, (rest_uploadLoop h m.bytes).1, if_pos hup⟩
  rw [if_neg hup] at ho hr ⊢
  unfold receiveCommand at hr
  split at ho
  · rename_i hop
    rw [hop] at hr
    obtain rfl := Option.some.inj hr
    exact .inr ⟨[], .of_eq rfl, ho⟩
  · rename_i hop
    rw [hop] at hr
    obtain rfl := Option.some.inj hr
    unfold receivePause
    by_cases hrun : h.emu.running = true
    · rw [if_pos hrun] at ho ⊢
      exact .inr ⟨_, .asides (serial_disassemble _ _ _) aside_showMachine, ho⟩
    · rw [if_neg hrun] at ho ⊢
      exact .inl ⟨ho, rfl, if_neg (by rw [hop]; decide)⟩
  · rename_i hop
    rw [hop] at hr
    change receiveConsole h m = some h' at hr
    unfold receiveConsole at hr
    split_ifs at hr with hlen hlisten
    · rw [if_pos hlisten] at ho
      obtain ⟨emu, hemu, rfl⟩ := Option.map_eq_some_iff.mp hr
      obtain ⟨out, hout, emu', hemu', rfl⟩ := ho
      obtain rfl : emu' = emu := Option.some.inj (hemu'.symm.trans hemu)
      exact .inr ⟨out, hout.reports hemu, rfl⟩
    · rw [if_neg hlisten] at ho
      obtain rfl := Option.some.inj hr
      exact .inl ⟨ho, rfl, (if_pos hop).trans (executed_command_of_not hlisten)⟩
  · rename_i hplay hpause hconsole
    refine .inl ⟨ho, ?_, if_neg hconsole⟩
    split at hr
    · unfold receiveHeader at hr
      dsimp only at hr
      split_ifs at hr
      obtain rfl := Option.some.inj hr
      exact (rest_uploadLoop _ _).1
    · exact absurd ‹_› hplay
    · exact absurd ‹_› hpause
    · unfold receiveSerial at hr
      split_ifs at hr
      obtain rfl := Option.some.inj hr
      rfl
    · exact absurd ‹_› hconsole
    · obtain rfl := Option.some.inj hr
      rfl

/-- A message reports what the machine sends. -/
theorem ReceiveOutput.reports {h h' : Host} {m : Message} (ho : ReceiveOutput h m ops)
    (hr : receive h m = some h') : Reports h.emu h'.emu ops := by
  rcases ho.cases hr with ⟨rfl, hemu, -⟩ | ⟨out, hout, rfl⟩
  · exact .of_eq (by rw [hemu])
  · exact hout.trans (reports_updateRegisterDisplay _ _)

/-- The start of the machine ends with the registers. -/
theorem reports_initialise {tmpBin : List (BitVec 8)} (h : initialise tmpBin emu = some emu') :
    ∃ out, Reports emu emu' out ∧
      initialiseOutput tmpBin emu = out ++ updateRegisterDisplay emu' := by
  obtain ⟨e, hload, rfl⟩ := Option.map_eq_some_iff.mp h
  unfold loadFirmware at hload
  split_ifs at hload
  obtain rfl := Option.some.inj hload
  have hserial : (disassemble (loadImage (setUp emu) 0xC000 tmpBin)
      (loadImage (setUp emu) 0xC000 tmpBin).pc 1).serial = emu.serial := by
    rw [serial_disassemble]
    rfl
  refine ⟨_, .asides hserial ?_, rfl⟩
  exact List.forall_mem_append.mpr ⟨aside_console, aside_showMachine⟩

/-- What happens reports what the machine sends. -/
theorem Program.Queues.reports {p p' : Program} {a : Happening} (ho : p.Queues a ops)
    (hstep : p.happen a = some p') : Reports p.host.emu p'.host.emu ops := by
  cases a with
  | writeable =>
    obtain rfl : ops = _ := ho
    obtain rfl := Option.some.inj hstep
    exact ⟨by simp [Operation.Plain], (List.append_nil _).symm⟩
  | input b =>
    obtain rfl : ops = [] := ho
    simp only [Program.happen] at hstep
    split_ifs at hstep
    obtain rfl := Option.some.inj hstep
    exact .of_eq (unseen_serial.input _ _)
  | program a =>
    change p.StepOutput ops a at ho
    change p.step a = some p' at hstep
    cases a with
    | message m =>
      simp only [Program.step] at hstep
      split_ifs at hstep
      obtain ⟨h', hreceive, rfl⟩ := Option.map_eq_some_iff.mp hstep
      exact ReceiveOutput.reports ho hreceive
    | initialise tmpBin =>
      simp only [Program.step] at hstep
      split_ifs at hstep
      obtain ⟨emu, hinit, rfl⟩ := Option.map_eq_some_iff.mp hstep
      obtain rfl : ops = initialiseOutput tmpBin p.host.emu := ho
      obtain ⟨out, hout, heq⟩ := reports_initialise hinit
      rw [heq]
      exact hout.trans (reports_updateRegisterDisplay emu emu)
    | main =>
      simp only [Program.StepOutput] at ho
      simp only [Program.step] at hstep
      cases hmain : p.main with
      | waiting =>
        rw [hmain] at ho hstep
        obtain rfl := Option.some.inj hstep
        rcases ho with rfl | ⟨text, rfl⟩
        · exact .of_eq rfl
        · exact .asides rfl aside_console
      | head =>
        rw [hmain] at ho hstep
        dsimp only at ho hstep
        split_ifs at hstep with hquit hrun
        · obtain rfl := Option.some.inj hstep
          rw [if_neg (by simpa using hrun)] at ho
          obtain rfl := ho
          exact .of_eq rfl
        · obtain rfl := Option.some.inj hstep
          rw [if_pos (by simpa using hrun)] at ho
          obtain rfl := ho
          exact .asides (congrArg (fun d => d.2.2.2.2) (device_handleBreakpoints _))
            aside_breakpointOutput
      | decode =>
        rw [hmain] at ho hstep
        obtain rfl := Option.some.inj hstep
        exact StepOutput.reports ho

end Reports

/-! ## Transcripts -/

/-- **The serial text of a transcript is what the machine has sent**, and its operations are
plain. -/
theorem Transcript.reports {P : Program → Happening → Prop} {start p : Program}
    {ops : List Operation} {trail : List Emulator} (h : Transcript P start ops trail p) :
    Reports start.host.emu p.host.emu ops := by
  induction h with
  | start => exact .of_eq rfl
  | step _ _ hstep hprints ih => exact ih.trans (Program.Queues.reports hprints hstep)

end Msp430
