/-
# The processor with the devices

The board is the documented processor with the timer and the transmitter of the emulator, which
act between the instructions and on memory alone: a timer that `TACLR` stops, a transmitter that
takes the byte out of its buffer and puts it on the wire unless it is zero.  The loop of `main`
runs the board: as long as the instructions are exact and leave the DCO selected, after every
turn its registers, flags and memory are the board's, and it has sent what the board has sent.
-/
import Msp430.Refinement

namespace Msp430

/-! ## The devices -/

namespace Processor

/-- Write a word into memory. -/
def writeWord (s : Processor) (a v : BitVec 16) : Processor := s.writeMem .word a v

/-- `TACLR` clears the counter and itself, and in the emulator the divider and the mode too. -/
def clearTimer (s : Processor) : Processor :=
  if (s.mem 0x160).getLsbD 2 then
    (s.writeWord 0x170 0).writeWord 0x160 (s.wordAt 0x160 &&& 0xFF0B)
  else s

/-- The transmitter is connected and ready, and its buffer holds a byte, which the emulator takes
a zero not to be. -/
def Transmits (s : Processor) : Prop :=
  (s.mem 0x26).getLsbD 2 = true ∧ (s.mem 0x41).getLsbD 2 = true ∧ s.mem 0x03 &&& 0x02 ≠ 0 ∧
    s.mem 0x67 ≠ 0

instance (s : Processor) : Decidable s.Transmits := inferInstanceAs (Decidable (_ ∧ _))

/-- The byte on the wire. -/
def wire (s : Processor) : List (BitVec 8) := if s.Transmits then [s.mem 0x67] else []

/-- The transmitter takes its byte. -/
def transmit (s : Processor) : Processor := if s.Transmits then s.writeMem .byte 0x67 0 else s

/-- The devices, once. -/
def devices (s : Processor) : Processor := s.clearTimer.transmit

/-- `SELMx` names the DCO: its upper bit is clear. -/
def Clocked (s : Processor) : Prop := (s.mem 0x58).getLsbD 7 = false

instance (s : Processor) : Decidable s.Clocked := inferInstanceAs (Decidable (_ = _))

end Processor

/-- A processor and what has been sent. -/
structure Board where
  cpu : Processor
  sent : List (BitVec 8)

namespace Board

/-- One instruction, and the devices. -/
def step (b : Board) : Option Board :=
  b.cpu.step.map fun s => ⟨s.devices, b.sent ++ s.wire⟩

/-- A number of instructions. -/
def run (b : Board) : ℕ → Option Board
  | 0 => some b
  | k + 1 => b.step.bind fun b' => b'.run k

/-- The steps of a run are exact. -/
def ExactRun (b : Board) : ℕ → Prop
  | 0 => True
  | k + 1 => b.cpu.Exact ∧ ∀ b' ∈ b.step, b'.ExactRun k

instance decidableExactRun : (k : ℕ) → (b : Board) → Decidable (b.ExactRun k)
  | 0, _ => isTrue trivial
  | k + 1, b =>
    match h : b.step with
    | none => decidable_of_iff b.cpu.Exact
        ⟨fun hb => ⟨hb, fun b' hb' => absurd (h.symm.trans hb') (by simp)⟩, fun hb => hb.1⟩
    | some b' =>
      have : Decidable (b'.ExactRun k) := decidableExactRun k b'
      decidable_of_iff (b.cpu.Exact ∧ b'.ExactRun k)
        ⟨fun hb => ⟨hb.1, fun c hc => Option.some.inj (h.symm.trans hc) ▸ hb.2⟩,
          fun hb => ⟨hb.1, hb.2 b' h⟩⟩

/-- The steps of a run leave the DCO selected. -/
def ClockedRun (b : Board) : ℕ → Prop
  | 0 => True
  | k + 1 => ∀ b' ∈ b.step, b'.cpu.Clocked ∧ b'.ClockedRun k

instance decidableClockedRun : (k : ℕ) → (b : Board) → Decidable (b.ClockedRun k)
  | 0, _ => isTrue trivial
  | k + 1, b =>
    match h : b.step with
    | none => isTrue fun b' hb' => absurd (h.symm.trans hb') (by simp)
    | some b' =>
      have : Decidable (b'.ClockedRun k) := decidableClockedRun k b'
      decidable_of_iff (b'.cpu.Clocked ∧ b'.ClockedRun k)
        ⟨fun hb c hc => Option.some.inj (h.symm.trans hc) ▸ hb, fun hb => hb b' h⟩

/-- A run begins with its shorter runs. -/
theorem run_of_le {b : Board} {j k : ℕ} (h : j ≤ k) (hk : (b.run k).isSome) :
    (b.run j).isSome := by
  induction j generalizing b k with
  | zero => rfl
  | succ j ih =>
    obtain ⟨k, rfl⟩ : ∃ i, k = i + 1 := ⟨k - 1, by omega⟩
    rw [run] at hk ⊢
    cases hstep : b.step with
    | none =>
      rw [hstep] at hk
      exact hk
    | some b' =>
      rw [hstep] at hk
      exact ih (by omega) hk

theorem ExactRun.of_le {b : Board} {j k : ℕ} (h : j ≤ k) (hk : b.ExactRun k) : b.ExactRun j := by
  induction j generalizing b k with
  | zero => trivial
  | succ j ih =>
    obtain ⟨k, rfl⟩ : ∃ i, k = i + 1 := ⟨k - 1, by omega⟩
    exact ⟨hk.1, fun b' hb' => ih (by omega) (hk.2 b' hb')⟩

theorem ClockedRun.of_le {b : Board} {j k : ℕ} (h : j ≤ k) (hk : b.ClockedRun k) :
    b.ClockedRun j := by
  induction j generalizing b k with
  | zero => trivial
  | succ j ih =>
    obtain ⟨k, rfl⟩ : ∃ i, k = i + 1 := ⟨k - 1, by omega⟩
    exact fun b' hb' => ⟨(hk b' hb').1, ih (by omega) (hk b' hb').2⟩

end Board

/-- The board that the emulator is. -/
def boardView (emu : Emulator) : Board := ⟨view emu, emu.serial⟩

/-! ## The handlers -/

theorem view_clearTimer (emu : Emulator) :
    view (clearTimer emu)
      = ((view emu).writeWord 0x170 0).writeWord 0x160 ((view emu).wordAt 0x160 &&& 0xFF0B) := by
  have hload : (emu.store16 ta0r 0).load16 ta0ctl = emu.load16 (getAddrPtr 0x160) :=
    load16_store16_of_disjoint emu 0 (p := ta0ctl) (q := ta0r) (Or.inl (by decide))
  have hctl := view_store16_mem (emu.store16 ta0r 0) (a := 0x160) (by decide)
    (emu.load16 (getAddrPtr 0x160) &&& 0xFF0B)
  have hcounter := view_store16_mem emu (a := 0x170) (by decide) 0
  rw [clearTimer, hload, wordAt_view emu (by decide), Processor.writeWord, Processor.writeWord,
    ← hcounter]
  exact hctl

/-- A handler that leaves the registers and the flags acts on memory. -/
theorem view_of_mem {emu emu' : Emulator} (hregs : emu'.regs = emu.regs) (hsr : emu'.sr = emu.sr)
    {mem : ℕ → BitVec 8} (hmem : emu'.mem = mem) : view emu' = view { emu with mem := mem } := by
  refine view_congr (fun n _ _ => ?_) hsr (fun a => ?_)
  · rw [hregs]
  · rw [hmem]

/-- The timer. -/
theorem view_handleTimerA (emu : Emulator) :
    view (handleTimerA emu) = (view emu).clearTimer := by
  have hkeep : (handleTimerA emu).regs = emu.regs ∧ (handleTimerA emu).sr = emu.sr := by
    constructor <;>
    · simp only [handleTimerA]
      split_ifs <;> rfl
  have hmem := mem_handleTimerA_eq emu
  rw [Processor.clearTimer]
  by_cases hclr : (emu.load16 ta0ctl >>> 2) &&& 0x01 = 0
  · have hbit : ((view emu).mem 0x160).getLsbD 2 = false := (taclr_iff emu).mp hclr
    rw [if_pos hclr] at hmem
    rw [hbit, if_neg (by decide)]
    exact view_of_mem hkeep.1 hkeep.2 hmem
  · have hbit : ((view emu).mem 0x160).getLsbD 2 = true := by
      have hne := mt (taclr_iff emu).mpr hclr
      rwa [Bool.not_eq_false] at hne
    rw [if_neg hclr] at hmem
    rw [hbit, if_pos rfl, ← view_clearTimer]
    exact view_of_mem hkeep.1 hkeep.2 hmem

theorem transmits_view (emu : Emulator) : (view emu).Transmits ↔ Sends emu := Iff.rfl

/-- What `handle_usci` finds is the processor once the timer has been served. -/
theorem view_mirrored (emu : Emulator) : view (mirrored emu) = (view emu).clearTimer := by
  have htimer := view_handleTimerA (handleBcm emu)
  have hbcm : view (handleBcm emu) = view emu := by
    refine view_congr (fun n _ _ => ?_) ?_ (fun a => by rw [mem_handleBcm]) <;>
    · rw [handleBcm, handleDco_eq]
      rfl
  rw [hbcm] at htimer
  exact htimer

/-- **The handlers of the code are the devices.** -/
theorem view_handlePeripherals (emu : Emulator) :
    view (handlePeripherals emu) = (view emu).devices := by
  have hkeep : (handleUsci (mirrored emu)).regs = (mirrored emu).regs ∧
      (handleUsci (mirrored emu)).sr = (mirrored emu).sr := by
    constructor <;>
    · simp only [handleUsci]
      split_ifs <;> rfl
  rw [Processor.devices, ← view_mirrored, handlePeripherals_eq, Processor.transmit]
  by_cases hsends : Sends (mirrored emu)
  · have hmem := mem_handleUsci_of_sends (sel_mirrored emu) (sel2_mirrored emu) hsends
    rw [if_pos ((transmits_view _).mpr hsends), view_of_mem hkeep.1 hkeep.2 hmem]
    refine Processor.eq_of_reg (fun _ _ _ => rfl) rfl (funext fun a => ?_)
    have haddr : a.toNat = 0x67 ↔ a = 0x67 := BitVec.toNat_inj (y := (0x67 : BitVec 16))
    refine Eq.trans ?_ (Function.update_apply _ _ _ _).symm
    simp only [mem_view, Function.update_apply, haddr]
    rfl
  · have hmem := mem_handleUsci_of_not (sel_mirrored emu) (sel2_mirrored emu) hsends
    rw [if_neg (mt (transmits_view _).mp hsends)]
    exact view_of_mem hkeep.1 hkeep.2 hmem

/-! ## One turn -/

/-- The bytes that the handlers send. -/
theorem serial_wire (emu : Emulator) :
    (handlePeripherals emu).serial = emu.serial ++ (view emu).wire :=
  serial_handlePeripherals emu

/-- **One instruction with the handlers is one step of the board** where the instruction is
exact. -/
theorem boardView_machineStep (emu : Emulator) (hexact : (view emu).Exact) {b : Board}
    (hstep : (boardView emu).step = some b) : boardView (machineStep emu) = b := by
  obtain ⟨s, hs, rfl⟩ := Option.map_eq_some_iff.mp hstep
  have hcpu := view_cpuStep emu hexact hs
  have hserial : (cpuStep emu).serial = emu.serial :=
    congrArg (fun p => p.2.2.2) (peripherals_cpuStep emu)
  rw [boardView, machineStep, view_handlePeripherals, serial_wire, hcpu, hserial]
  rfl

/-- The machine runs, without breakpoints. -/
def Runs (emu : Emulator) : Prop :=
  emu.quit = false ∧ emu.running = true ∧ emu.numBps = 0

instance (emu : Emulator) : Decidable (Runs emu) := inferInstanceAs (Decidable (_ ∧ _))

/-- An instruction that exists leaves the machine running. -/
theorem runs_machineStep {emu : Emulator} (h : Runs emu) (hstep : (view emu).step.isSome) :
    Runs (machineStep emu) := by
  obtain ⟨s, hs⟩ := Option.isSome_iff_exists.mp hstep
  have haligned : Aligned emu.pc := by
    by_contra hodd
    rw [Processor.step, pc_view, if_neg hodd] at hs
    exact absurd hs (by simp)
  rw [Processor.step, pc_view, if_pos haligned] at hs
  obtain ⟨i, hi, -⟩ := Option.bind_eq_some_iff.mp hs
  have hdocumented : ¬ Undocumented (fetch emu).1 :=
    (Instruction.documented_iff _).mp ⟨i, (current_view haligned hi).1.symm⟩
  have hne : formatId (fetch emu).1 ≠ 0 := fun h0 => hdocumented (Or.inl h0)
  have hkeep := supervision_decode (fetch emu).2 (fetch emu).1 false
  rw [if_neg hne] at hkeep
  have hall : (machineStep emu).supervision = emu.supervision :=
    (supervision_handlePeripherals _).trans hkeep
  obtain ⟨hquit, hrunning, hbps⟩ := h
  refine ⟨?_, ?_, ?_⟩
  · exact (congrArg (fun p => p.2.1) hall).trans hquit
  · exact (congrArg (fun p => p.1.1) hall).trans hrunning
  · exact (congrArg (fun p => p.2.2.1) hall).trans hbps

/-- The board's clock is the one that `handle_bcm` has found. -/
theorem clocked_machineStep (emu : Emulator) :
    (view (machineStep emu)).Clocked ↔ SelectsDco (cpuStep emu) := by
  have hbit : ∀ v : BitVec 8, v.getLsbD 7 = false ↔ v >>> 6 = 0b00 ∨ v >>> 6 = 0b01 := by decide
  have hcell : (machineStep emu).mem 0x58 = (cpuStep emu).mem 0x58 := by
    rw [machineStep, mem_handlePeripherals_of_ne _ (by decide), if_neg (by simp)]
  show ((machineStep emu).mem 0x58).getLsbD 7 = false ↔ _
  rw [hcell, hbit]
  rfl

/-- **A turn of the loop** is a step of the board, if the DCO is selected behind it. -/
theorem boardView_mainLoop {emu : Emulator} (hruns : Runs emu) (hexact : (view emu).Exact)
    {b : Board} (hstep : (boardView emu).step = some b) (hclock : b.cpu.Clocked) :
    ∃ e, mainLoop emu = some e ∧ boardView e = b ∧ Runs e := by
  have hview := boardView_machineStep emu hexact hstep
  have hsome : (view emu).step.isSome := by
    obtain ⟨s, hs, -⟩ := Option.map_eq_some_iff.mp hstep
    rw [boardView] at hs
    rw [hs]
    rfl
  have hdco : SelectsDco (cpuStep emu) := by
    rw [← clocked_machineStep]
    rw [← hview] at hclock
    exact hclock
  have hturn : mainLoop emu = some (machineStep emu) := by
    have hcontrol : emu.control = (true, false, 0) := by
      rw [Emulator.control, hruns.1, hruns.2.1, hruns.2.2]
    rw [mainLoop_of_control hcontrol, if_pos hdco]
  exact ⟨_, hturn, hview, runs_machineStep hruns hsome⟩

/-- **The loop of `main` runs the board.** -/
theorem boardView_mainLoops (emu : Emulator) (k : ℕ) (hruns : Runs emu)
    (hexact : (boardView emu).ExactRun k) (hclock : (boardView emu).ClockedRun k) {b : Board}
    (hrun : (boardView emu).run k = some b) :
    ∃ e, mainLoops k emu = some e ∧ boardView e = b ∧ Runs e := by
  induction k generalizing emu with
  | zero => exact ⟨emu, rfl, Option.some.inj hrun, hruns⟩
  | succ k ih =>
    obtain ⟨b', hstep, hrest⟩ := Option.bind_eq_some_iff.mp hrun
    obtain ⟨hfirst, hexact⟩ := hexact
    obtain ⟨hdco, hclock⟩ := hclock b' hstep
    obtain ⟨e, hturn, hview, hruns'⟩ := boardView_mainLoop hruns hfirst hstep hdco
    have hexact' := hexact b' hstep
    rw [← hview] at hrest hexact' hclock
    rw [mainLoops_succ, hturn]
    exact ih e hruns' hexact' hclock hrest

/-- **The loop of `main` is the board, turn by turn**: as long as the board runs, its instructions
are among those that the code executes as documented, and they leave the DCO selected, each turn
comes to its end with the emulator as the board, devices and wire included. -/
theorem main_runs_board (emu : Emulator) (k : ℕ) (hruns : Runs emu)
    (hexact : (boardView emu).ExactRun k) (hclock : (boardView emu).ClockedRun k)
    (hrun : ((boardView emu).run k).isSome) :
    ∀ j ≤ k, ∃ e, mainLoops j emu = some e ∧ (boardView emu).run j = some (boardView e) ∧
      Runs e := by
  intro j hj
  obtain ⟨b, hb⟩ := Option.isSome_iff_exists.mp (Board.run_of_le hj hrun)
  obtain ⟨e, hturns, hview, hkeep⟩ :=
    boardView_mainLoops emu j hruns (hexact.of_le hj) (hclock.of_le hj) hb
  exact ⟨e, hturns, hview ▸ hb, hkeep⟩

/-- A stack, a call, a loop and a character for the transmitter. -/
def loopState : Emulator :=
  { startState with running := true }.setWords
    [(0xC000, 0x4031), (0xC002, 0x0400), -- MOV #0x400, SP
     (0xC004, 0x4034), (0xC006, 0x0003), -- MOV #3, R4
     (0xC008, 0x12B0), (0xC00A, 0xC00E), -- CALL #0xC00E
     (0xC00C, 0x3FFF), -- JMP $
     (0xC00E, 0x40F2), (0xC010, 0x0048), (0xC012, 0x0067), -- MOV.B #0x48, &UCA0TXBUF
     (0xC014, 0x8314), -- SUB #1, R4
     (0xC016, 0x23FB), -- JNZ 0xC00E
     (0xC018, 0x4130), -- RET
     (0x26, 0x0004), (0x40, 0x0400)]

/-- It sends its character three times. -/
theorem main_runs_board_loop :
    ((mainLoops 14 loopState).map Emulator.serial) = some [0x48, 0x48, 0x48] ∧
      ∀ j ≤ 14, ∃ e, mainLoops j loopState = some e ∧
        (boardView loopState).run j = some (boardView e) ∧ Runs e := by
  refine ⟨by decide +kernel, ?_⟩
  apply main_runs_board loopState 14
  · decide +kernel
  · decide +kernel
  · decide +kernel
  · decide +kernel

end Msp430
