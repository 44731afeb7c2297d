/-
# From the machine to the client

The queue, the wire and the client under one roof with the program: in every interleaving of whole
handlers, commands, instructions and operations on the queue, the client that has read everything
shows the bytes that the machine has sent, the pins as the server has them down and the panel as
the program has last shown it; and what a firmware prints arrives.
-/
import Msp430.Firmware
import Msp430.Panel
import Msp430.PowerOn

namespace Msp430

open CString Emission Fifo

/-! ## The client of a program -/

/-- **The client in every interleaving**: what it shows of the serial text at any time is the
beginning of what the machine has sent, and with the pending packets all of it; of the console
text likewise; and the panel follows the machine. -/
theorem client_follows {P : Program → Happening → Prop} {ops : List Operation}
    {trail : List Emulator} {p : Program} (h : Transcript P startProgram ops trail p) (s : Server)
    (hlen : ∀ k ≤ ops.length, (queueAfter (ops.take k)).pending.length < 2 ^ 32) :
    ∃ c, ops.foldlM operate (connect s) = some c ∧
      (c.wire.foldl Client.read .start).serial <+: p.host.emu.serial ∧
      (c.wire.foldl Client.read .start).console <+: ops.flatMap Operation.consoleText ∧
      ∃ client, client = (c.wire ++ (queueAfter ops).pending).foldl Client.read .start ∧
        client.serial = p.host.emu.serial ∧
        client.console = ops.flatMap Operation.consoleText ∧ client.pins = c.p1On ∧
        (p.main ≠ .waiting → PanelFollows p trail client.panel) := by
  have hreports := h.reports
  have hserial : p.host.emu.serial = ops.flatMap Operation.serialText := hreports.serial
  obtain ⟨c, hc, hread, hpins⟩ := client_shows s hreports.plain hlen
  obtain ⟨hconsole, htext⟩ := texts_shown Client.start ops
  obtain ⟨hfirst, hsecond⟩ :=
    prefix_foldl_read (c.wire.foldl Client.read .start) (queueAfter ops).pending
  rw [← List.foldl_append, hread] at hfirst hsecond
  rw [hconsole] at hfirst
  rw [htext] at hsecond
  refine ⟨c, hc, ?_, hfirst, _, rfl, ?_, ?_, ?_, ?_⟩
  · rw [hserial]
    exact hsecond
  · rw [hread, htext, hserial]
    rfl
  · rw [hread, hconsole]
    rfl
  · rw [hread, hpins]
  · intro hset
    rw [hread]
    exact h.panelFollows hset

/-- PLAY before the firmware is there. -/
def playingStart : Program := { startProgram with host := receivePlay startProgram.host }

/-- What it puts on the queue, and a writable callback. -/
def dotsOperations : List Operation :=
  [.sendControl 0x20 (some (bytes "....")), .serverWriteable clearedPort1]

theorem transcript_playingStart :
    Transcript Anything startProgram dotsOperations [] playingStart := by
  have hfirst : Transcript Anything startProgram [] [] startProgram := .start
  exact Emits.step (a := Happening.writeable) (hfirst.play trivial rfl) trivial rfl rfl

/-- The client gets the dots. -/
theorem client_follows_dots : ∃ c, dotsOperations.foldlM operate (connect clearedServer) = some c ∧
    (c.wire.foldl Client.read .start).serial <+: playingStart.host.emu.serial ∧
    (c.wire.foldl Client.read .start).console <+: dotsOperations.flatMap Operation.consoleText ∧
    ∃ client, client = (c.wire ++ (queueAfter dotsOperations).pending).foldl Client.read .start ∧
      client.serial = playingStart.host.emu.serial ∧
      client.console = dotsOperations.flatMap Operation.consoleText ∧ client.pins = c.p1On ∧
      (playingStart.main ≠ .waiting → PanelFollows playingStart [] client.panel) :=
  client_follows transcript_playingStart clearedServer (by decide)

/-! ## Turns of the loop -/

/-- An instruction leaves `quit` and the breakpoints. -/
theorem supervision_machineStep (emu : Emulator) :
    (machineStep emu).supervision.2 = emu.supervision.2 := by
  have hdecode := supervision_decode (fetch emu).2 (fetch emu).1 false
  have hhandlers := congrArg Prod.snd (supervision_handlePeripherals (cpuStep emu))
  refine hhandlers.trans ?_
  rw [cpuStep, hdecode]
  split_ifs <;> rfl

/-- Nothing stops the loop: `quit` is not set, and there is no breakpoint. -/
def Unhindered (emu : Emulator) : Prop := emu.quit = false ∧ emu.numBps = 0

instance (emu : Emulator) : Decidable (Unhindered emu) := inferInstanceAs (Decidable (_ ∧ _))

/-- No breakpoint is hit. -/
theorem Unhindered.handleBreakpoints_eq {emu : Emulator} (h : Unhindered emu) :
    handleBreakpoints emu = emu := by
  simp [handleBreakpoints, h.2]

theorem Unhindered.machineStep {emu : Emulator} (h : Unhindered emu) :
    Unhindered (machineStep emu) := by
  have hkeep := supervision_machineStep emu
  exact ⟨(congrArg Prod.fst hkeep).trans h.1, (congrArg (fun v => v.2.1) hkeep).trans h.2⟩

/-- A turn that comes to its end: the machine stands, or an instruction is executed and the wait
behind it returns. -/
theorem Unhindered.mainLoop_cases {emu emu' : Emulator} (h : Unhindered emu)
    (hturn : mainLoop emu = some emu') :
    emu.running = false ∧ emu' = emu ∨
      emu.running = true ∧ SelectsDco (cpuStep emu) ∧ emu' = Msp430.machineStep emu := by
  cases hrun : emu.running with
  | false =>
    have hstands : mainLoop emu = some emu := by simp [mainLoop, hrun]
    exact .inl ⟨rfl, Option.some.inj (hturn.symm.trans hstands)⟩
  | true =>
    rw [mainLoop_of_running h.1 hrun, h.handleBreakpoints_eq] at hturn
    split_ifs at hturn with hdco
    exact .inr ⟨rfl, hdco, (Option.some.inj hturn).symm⟩

/-- The wait at the end of a turn of `main` returns. -/
def TurnsEnd (p : Program) (a : Happening) : Prop :=
  a = .program .main → p.main = .decode → SelectsDco (cpuStep p.host.emu)

section Turns

variable {start p : Program} {ops : List Operation} {trail : List Emulator}

/-- A turn of the loop. -/
theorem Transcript.turn (h : Transcript TurnsEnd start ops trail p) (hmain : p.main = .head)
    (hfree : Unhindered p.host.emu) {emu : Emulator} (hturn : mainLoop p.host.emu = some emu) :
    Unhindered emu ∧ ∃ out trail', Transcript TurnsEnd start (ops ++ out) trail'
      { host := { p.host with emu := emu }, main := .head } := by
  rcases hfree.mainLoop_cases hturn with ⟨-, rfl⟩ | ⟨hrun, hdco, rfl⟩
  · refine ⟨hfree, [], trail, ?_⟩
    rw [List.append_nil, ← hmain]
    exact h
  · refine ⟨hfree.machineStep, ?_⟩
    have hhead := h.head (fun _ hdecode => absurd (hmain.symm.trans hdecode) (by decide))
      hmain hfree.1 hrun
    rw [hfree.handleBreakpoints_eq] at hhead
    obtain ⟨out, -, hbody⟩ := hhead.body (fun _ _ => hdco) rfl
    refine ⟨breakpointOutput p.host.emu ++ out, trail ++ [p.host.emu], ?_⟩
    rw [← List.append_assoc]
    exact hbody

/-- Turns of the loop. -/
theorem Transcript.turns (n : ℕ) (h : Transcript TurnsEnd start ops trail p)
    (hmain : p.main = .head) (hfree : Unhindered p.host.emu) {emu : Emulator}
    (hturns : mainLoops n p.host.emu = some emu) :
    ∃ out trail' p', Transcript TurnsEnd start (ops ++ out) trail' p' ∧ p'.main = .head ∧
      p'.host.emu = emu := by
  induction n generalizing p ops trail with
  | zero =>
    refine ⟨[], trail, p, ?_, hmain, Option.some.inj hturns⟩
    rw [List.append_nil]
    exact h
  | succ n ih =>
    rw [mainLoops_succ] at hturns
    obtain ⟨next, hturn, hrest⟩ := Option.bind_eq_some_iff.mp hturns
    obtain ⟨hnext, first, trail', hfirst⟩ := h.turn hmain hfree hturn
    obtain ⟨rest, trail'', p', hout, hmain', hemu⟩ := ih hfirst rfl hnext hrest
    refine ⟨first ++ rest, trail'', p', ?_, hmain', hemu⟩
    rw [← List.append_assoc]
    exact hout

end Turns

/-! ## What a firmware prints -/

/-- A firmware that connects the transmitter and prints `"Hi"`. -/
def hiFirmware : List (BitVec 8) :=
  imageOf (instructions.writeAll ([
    .two .bis .byte (.constant .four) (.absolute 0x26),
    .two .bis .byte (.constant .four) (.absolute 0x41),
    .two .mov .word (.constant .two) (.register 14),
    .two .mov .word (.immediate 0xC042) (.register 15),
    .one .call .word (.immediate 0xC014),
    .jump 7 (-1)] ++ printCode 0x200) ++ [0x6948])

/-- The machine with it behind the call. -/
def hiCalled : Emulator := machineStep^[5] (execRun (firmwareStart hiFirmware))

theorem printCall_hiCalled : PrintCall (boardView hiCalled) 0xC014 0x200 [0x48, 0x69] where
  loaded := by
    have h : ∀ j (h : j < (instructions.writeAll (printCode 0x200)).length),
      (boardView hiCalled).cpu.wordAt (0xC014 + 2 * BitVec.ofNat 16 j)
        = (instructions.writeAll (printCode 0x200))[j] := by decide +kernel
    exact h
  code := by
    rintro a ⟨j, hj, ha⟩
    have hfree : ∀ j < (instructions.writeAll (printCode 0x200)).length,
      ¬ Written 0x200 (0xC014 + 2 * BitVec.ofNat 16 j) ∧
        ¬ Written 0x200 (0xC014 + 2 * BitVec.ofNat 16 j + 1) := by decide +kernel
    rcases ha with rfl | rfl
    · exact (hfree j hj).1
    · exact (hfree j hj).2
  aligned := by decide
  counter := by decide
  stack := by decide +kernel
  short := by decide
  length := by decide +kernel
  chars := by decide +kernel
  nonzero := by simp
  apart := by decide +kernel
  slot := by decide +kernel
  devices := by simp
  connected := by decide +kernel
  ready := by decide +kernel
  clocked := by decide +kernel
  timer := by decide +kernel
  empty := by decide +kernel

/-- The five turns before the call come to their end. -/
theorem mainLoops_hiCalled :
    mainLoops 5 (execRun (firmwareStart hiFirmware)) = some hiCalled := by
  have hready : (execRun (firmwareStart hiFirmware)).control = (true, false, 0) ∧
      RunsPlainly (execRun (firmwareStart hiFirmware)) 5 ∧
      StaysClocked (execRun (firmwareStart hiFirmware)) 5 := by decide +kernel
  exact mainLoops_eq _ 5 hready.1 hready.2.1 hready.2.2

theorem hiCalled_values : Runs hiCalled ∧ hiCalled.pc = 0xC014 ∧ hiCalled.serial = [] ∧
    Unhindered (execRun (firmwareStart hiFirmware)) ∧ hiFirmware.length ≤ 0x4000 := by
  decide +kernel

/-- The firmware is uploaded and told to run, and calls `print`. -/
theorem transcript_hiCalled : ∃ ops trail p, Transcript TurnsEnd startProgram ops trail p ∧
    p.main = .head ∧ p.host.emu = hiCalled := by
  obtain ⟨-, -, -, hfree, hfit⟩ := hiCalled_values
  obtain ⟨ops, p, hready, hhead, hidle, hstart⟩ := transcript_firmware TurnsEnd hfit
    (fun _ _ h => by cases h) (fun _ _ h => by cases h)
  have hplay := hready.play (fun h => by cases h) hidle
  rw [← hstart] at hfree
  have hturns := mainLoops_hiCalled
  rw [← hstart] at hturns
  obtain ⟨out, trail, p', hout, hmain, hcalled⟩ := hplay.turns 5 hhead hfree hturns
  exact ⟨_, trail, p', hout, hmain, hcalled⟩

end Msp430
