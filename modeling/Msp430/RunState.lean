/-
# The run state of the program (`main.cpp`)

The whole program as a transition system: the web server hands it messages, `main` initialises
the machine once the firmware is uploaded and then turns its loop.  `cpu->running` and
`debugger->debug_mode` are written in both threads, and one place writes only one of them:
`initialize_msp_registers` stops the CPU and leaves `debug_mode`, so that a program that was
told to run before it was initialised is stopped and deaf.  `run_state_consistent` says that
nothing else can go wrong.
-/
import Msp430.CommandAccesses
import Msp430.Images
import Msp430.Modes
import Msp430.Reachability

namespace Msp430

open CString Reachability

/-! ## The program -/

/-- Where `main` stands: before `initialize_msp_memspace`, at the head of its loop, or behind
`handle_breakpoints`. -/
inductive MainStage : Type where
  | waiting : MainStage
  | head : MainStage
  | decode : MainStage
  deriving DecidableEq, Repr

/-- The program, with its two threads. -/
structure Program where
  host : Host
  main : MainStage

/-- What happens next. -/
inductive ProgramStep : Type where
  | message (m : Message) : ProgramStep
  | initialise (tmpBin : List (BitVec 8)) : ProgramStep
  | main : ProgramStep

/-- The machine as `main` sets it up before it loads the firmware. -/
def setUp (emu : Emulator) : Emulator :=
  loadBootloader (setupUsci (setupPort1 (setupTimerA (setupBcm
    (initializeMspRegisters (initializeMspMemspace emu))))))

/-- `main` from `initialize_msp_memspace` to its loop. -/
def initialise (tmpBin : List (BitVec 8)) (emu : Emulator) : Option Emulator :=
  (loadFirmware (setUp emu) tmpBin).map fun emu => disassemble emu emu.pc 1

/-- One step of the program, which ends where there is none. -/
def Program.step (p : Program) : ProgramStep → Option Program
  | .message m =>
    -- before the machine is set up `MEMSPACE` is the null pointer
    if p.main = .waiting ∧ receiveAccesses p.host m ≠ [] then none
    else (receive p.host m).map fun h => { p with host := h }
  | .initialise tmpBin =>
    if p.main = .waiting ∧ p.host.webFirmwareUploaded then
      (initialise tmpBin p.host.emu).map fun emu =>
        { host := { p.host with emu := emu }, main := .head }
    else none
  | .main =>
    match p.main with
    | .waiting => some p
    | .head =>
      if p.host.emu.quit then none
      else if !p.host.emu.running then some p
      else some { host := { p.host with emu := handleBreakpoints p.host.emu }, main := .decode }
    | .decode => some { host := { p.host with emu := machineStep p.host.emu }, main := .head }

/-- The program when the connection is established. -/
def startProgram : Program := { host := { freshHost with emu := allocated }, main := .waiting }

/-! ## What the steps do to the flags -/

/-- `running` or `debug_mode`, and not both. -/
def Consistent (emu : Emulator) : Prop := emu.running = true ↔ emu.debugMode = false

/-- A message with a console line is executed unless the CPU runs, or the message is part of a
file. -/
def Listens (h : Host) : Prop :=
  h.emu.running = false → h.upload.inProgress = false →
    ∀ m : Message, m.byteAt 0 = 0x04 → m.bytes.length ≤ 1000 →
      receive h m = (execCmd h.emu m.line).map fun emu => { h with emu := emu }

/-- The flags of a machine that runs. -/
def running : Bool × Bool := (true, false)

theorem consistent_iff (emu : Emulator) :
    Consistent emu ↔ emu.modes = halted ∨ emu.modes = running := by
  unfold Consistent Emulator.modes halted running
  cases emu.running <;> cases emu.debugMode <;> simp

theorem Consistent.keeps {emu emu' : Emulator} (h : Consistent emu)
    (hkeep : KeepsModes emu emu') : Consistent emu' := by
  rw [consistent_iff] at h ⊢
  rcases hkeep with hkeep | hkeep
  · rwa [hkeep]
  · exact Or.inl hkeep

/-- A consistent program that does not run listens. -/
theorem Consistent.listens {h : Host} (hc : Consistent h.emu) : Listens h := by
  intro hrun hidle m hop hlen
  have hdebug : h.emu.debugMode = true := by
    rw [← Bool.not_eq_false]
    exact fun hd => absurd (hc.mpr hd) (by simp [hrun])
  have hconsole : receive h m = receiveConsole h m := by
    rw [receive, if_neg (by simp [hidle]), receiveCommand, hop]
    rfl
  rw [hconsole, receiveConsole, if_neg (by omega), hrun, hdebug]
  rfl

/-- A breakpoint stops the machine or leaves it. -/
theorem keepsModes_handleBreakpoints (emu : Emulator) : KeepsModes emu (handleBreakpoints emu) := by
  unfold handleBreakpoints
  split_ifs
  · have hstop : KeepsModes emu { emu with running := false, debugMode := true } := Or.inr rfl
    exact hstop.trans (keepsModes_disassemble _ _ _)
  · exact KeepsModes.of_eq rfl

theorem modes_getRegPtr (emu : Emulator) (n : Fin 16) : (getRegPtr emu n).modes = emu.modes := by
  unfold getRegPtr
  split_ifs <;> rfl

theorem modes_setRegister (emu : Emulator) (n : Fin 16) (v : BitVec 16) :
    (setRegister emu n v).modes = emu.modes := by
  unfold setRegister
  split_ifs
  · rfl
  · exact modes_getRegPtr emu n

/-- `dump` looks one register up at most. -/
theorem dumpStart_cases {emu emu' : Emulator} {line : Str} {start : BitVec 16}
    (h : dumpStart emu line = some (start, emu')) : emu' = emu ∨ ∃ n, emu' = getRegPtr emu n := by
  unfold dumpStart at h
  cases hhead : (secondWord line).head? with
  | none =>
    simp only [hhead, Option.some.injEq, Prod.mk.injEq] at h
    exact Or.inl h.2.symm
  | some c =>
    simp only [hhead] at h
    split_ifs at h
    · simp only [Option.some.injEq, Prod.mk.injEq] at h
      exact Or.inl h.2.symm
    · obtain ⟨n, -, hn⟩ := Option.map_eq_some_iff.mp h
      simp only [Prod.mk.injEq] at hn
      exact Or.inr ⟨n, hn.2.symm⟩
    · simp only [Option.some.injEq, Prod.mk.injEq] at h
      exact Or.inl h.2.symm

theorem modes_dumpStart {emu emu' : Emulator} {line : Str} {start : BitVec 16}
    (h : dumpStart emu line = some (start, emu')) : emu'.modes = emu.modes := by
  rcases dumpStart_cases h with rfl | ⟨n, rfl⟩
  · rfl
  · exact modes_getRegPtr emu n

/-- `set` stops the machine at most. -/
theorem keepsModes_execSet {emu emu' : Emulator} {line : Str} (h : execSet emu line = some emu') :
    KeepsModes emu emu' := by
  unfold execSet at h
  split_ifs at h
  cases hname : regNameToNum (secondWord line) with
  | none =>
    simp only [hname, Option.some.injEq] at h
    rw [← h]
    exact KeepsModes.of_eq (modes_store16 _ _ _)
  | some n =>
    simp only [hname, Option.some.injEq] at h
    rw [← h]
    exact (KeepsModes.of_eq (modes_setRegister emu n _)).trans (keepsModes_disassemble _ _ _)

theorem keepsModes_execBreak (emu : Emulator) (line : Str) :
    KeepsModes emu (execBreak emu line) := by
  unfold execBreak
  split_ifs
  · exact KeepsModes.of_eq rfl
  · split
    · exact KeepsModes.of_eq rfl
    · exact KeepsModes.of_eq rfl

theorem modes_execBps (emu : Emulator) : (execBps emu).modes = emu.modes := by
  rw [execBps_eq]
  rfl

/-- **A command leaves the flags, stops the machine or starts it.** -/
theorem modes_execCmd {emu emu' : Emulator} {line : Str} (h : execCmd emu line = some emu') :
    KeepsModes emu emu' ∨ emu'.modes = running := by
  have hlisting (e : Emulator) (hm : KeepsModes emu e) :
      KeepsModes emu (disassemble e e.pc 1) := hm.trans (keepsModes_disassemble _ _ _)
  rw [execCmd_eq] at h
  cases hc : command line <;> rw [hc] at h
  case overlong => cases h
  case reset =>
    obtain rfl := Option.some.inj h
    exact Or.inl (hlisting (emu.setReg 0 0xC000) (KeepsModes.of_eq rfl))
  case step steps =>
    obtain rfl := Option.some.inj h
    exact Or.inl (hlisting _ (KeepsModes.iterate keepsModes_machineStep _ emu))
  case run =>
    obtain rfl := Option.some.inj h
    exact Or.inr rfl
  case dis =>
    obtain rfl := Option.some.inj h
    exact Or.inl (keepsModes_disassemble _ _ _)
  case dump =>
    change execDump emu line = some emu' at h
    unfold execDump at h
    split_ifs at h
    obtain ⟨⟨start, e⟩, hstart, rfl⟩ := Option.map_eq_some_iff.mp h
    exact Or.inl (KeepsModes.of_eq (modes_dumpStart hstart))
  case set => exact Or.inl (keepsModes_execSet h)
  case addBreak =>
    obtain rfl := Option.some.inj h
    exact Or.inl (keepsModes_execBreak emu line)
  case bps =>
    obtain rfl := Option.some.inj h
    exact Or.inl (KeepsModes.of_eq (modes_execBps emu))
  case regs =>
    obtain rfl := Option.some.inj h
    exact Or.inl (hlisting emu (KeepsModes.of_eq rfl))
  all_goals
    obtain rfl := Option.some.inj h
    exact Or.inl (KeepsModes.of_eq rfl)

/-- **A message** does the same: PLAY and the command `run` start the machine. -/
theorem modes_receive {h h' : Host} {m : Message} (hr : receive h m = some h') :
    KeepsModes h.emu h'.emu ∨ h'.emu.modes = running := by
  rcases receive_cases hr with ⟨hemu, -⟩ | rfl | rfl | ⟨-, rfl⟩ | ⟨-, emu, hemu, rfl⟩
  · rw [hemu]
    exact Or.inl (KeepsModes.of_eq rfl)
  · exact Or.inr rfl
  · unfold receivePause
    split_ifs
    · have hstop : KeepsModes h.emu { h.emu with running := false, debugMode := true } :=
        Or.inr rfl
      exact Or.inl (hstop.trans (keepsModes_disassemble _ _ _))
    · exact Or.inl (KeepsModes.of_eq rfl)
  · exact Or.inl (KeepsModes.of_eq rfl)
  · exact modes_execCmd hemu

/-! ## Initialising the machine -/

theorem modes_loadImage (emu : Emulator) (virtAddr : BitVec 16) (image : List (BitVec 8)) :
    (loadImage emu virtAddr image).modes = emu.modes := rfl

/-- Setting the machine up stops it and leaves `debug_mode` as it is. -/
theorem modes_setUp (emu : Emulator) : (setUp emu).modes = (false, emu.debugMode) := rfl

/-- The firmware fits, and its first instruction is listed. -/
theorem initialise_eq {tmpBin : List (BitVec 8)} {emu emu' : Emulator}
    (h : initialise tmpBin emu = some emu') : tmpBin.length ≤ 0x4000 ∧
      emu' = disassemble (loadImage (setUp emu) 0xC000 tmpBin) 0xC000 1 := by
  obtain ⟨e, hload, rfl⟩ := Option.map_eq_some_iff.mp h
  unfold loadFirmware at hload
  split_ifs at hload with hlen
  obtain rfl := Option.some.inj hload
  have hpc : (loadImage (setUp emu) 0xC000 tmpBin).pc = 0xC000 := by
    cases emu
    rfl
  exact ⟨by omega, by rw [hpc]⟩

/-- The first instruction word of the firmware, which `main` lists. -/
def firstWord (tmpBin : List (BitVec 8)) (emu : Emulator) : BitVec 16 :=
  (loadImage (setUp emu) 0xC000 tmpBin).load16 (getAddrPtr 0xC000)

/-- **The flags once the machine is initialised**: it stands, and `debug_mode` is as it was
unless the word listed is no instruction. -/
theorem modes_initialise {tmpBin : List (BitVec 8)} {emu emu' : Emulator}
    (h : initialise tmpBin emu = some emu') :
    emu'.modes
      = if formatId (firstWord tmpBin emu) = 0 then halted else (false, emu.debugMode) := by
  obtain ⟨e, he⟩ : ∃ e, e = loadImage (setUp emu) 0xC000 tmpBin := ⟨_, rfl⟩
  have hmodes : e.modes = (false, emu.debugMode) := by rw [he, modes_loadImage, modes_setUp]
  have hline : (disassemble e 0xC000 1).modes
      = (decode (fetch (listingStart e 0xC000)).2 (firstWord tmpBin emu) true).modes := by
    rw [firstWord, ← he]
    rfl
  rw [(initialise_eq h).2, ← he, hline, modes_decode, ← hmodes]
  rfl

/-- `main` does not initialise the machine while it runs, or lists a word that is none. -/
def StandsAtStart (p : Program) (a : ProgramStep) : Prop :=
  ∀ tmpBin, a = .initialise tmpBin →
    p.host.emu.running = false ∨ formatId (firstWord tmpBin p.host.emu) = 0

/-! ## Runs -/

section Runs

variable {p p' : Program} {a : ProgramStep}

/-- **One step** keeps the flags consistent exactly when it does not initialise a machine
that runs. -/
theorem Consistent.step_iff (h : Consistent p.host.emu) (hstep : p.step a = some p') :
    Consistent p'.host.emu ↔ StandsAtStart p a := by
  cases a with
  | message m =>
    simp only [Program.step] at hstep
    split_ifs at hstep with hunset
    obtain ⟨h', hreceive, rfl⟩ := Option.map_eq_some_iff.mp hstep
    refine iff_of_true ?_ (fun _ ha => by cases ha)
    rcases modes_receive hreceive with hkeep | hrun
    · exact h.keeps hkeep
    · exact (consistent_iff _).mpr (Or.inr hrun)
  | initialise tmpBin =>
    simp only [Program.step] at hstep
    split_ifs at hstep with hready
    obtain ⟨emu, hinit, rfl⟩ := Option.map_eq_some_iff.mp hstep
    have hmodes := modes_initialise hinit
    have hstands : StandsAtStart p (.initialise tmpBin) ↔ p.host.emu.running = false ∨
        formatId (firstWord tmpBin p.host.emu) = 0 :=
      ⟨fun hs => hs tmpBin rfl, fun hs _ ht => by cases ht; exact hs⟩
    rw [hstands, consistent_iff, hmodes]
    by_cases hword : formatId (firstWord tmpBin p.host.emu) = 0
    · simp [hword]
    · rw [if_neg hword]
      rcases (consistent_iff _).mp h with hm | hm
      · have hflags : p.host.emu.running = false ∧ p.host.emu.debugMode = true := by
          simpa [Emulator.modes, halted] using hm
        simp [hflags, halted]
      · have hflags : p.host.emu.running = true ∧ p.host.emu.debugMode = false := by
          simpa [Emulator.modes, running] using hm
        simp [hflags, halted, running, hword]
  | main =>
    refine iff_of_true ?_ (fun _ ha => by cases ha)
    cases hmain : p.main with
    | waiting =>
      simp only [Program.step, hmain, Option.some.injEq] at hstep
      exact hstep ▸ h
    | head =>
      simp only [Program.step, hmain] at hstep
      split_ifs at hstep
      · exact Option.some.inj hstep ▸ h
      · obtain rfl := Option.some.inj hstep
        exact h.keeps (keepsModes_handleBreakpoints _)
    | decode =>
      simp only [Program.step, hmain, Option.some.injEq] at hstep
      obtain rfl := hstep
      exact h.keeps (keepsModes_machineStep _)

/-- **The run state is consistent in every run that does not initialise a machine that runs**,
and the program listens whenever it does not run and takes no file; the first step that does
breaks it. -/
theorem run_state_consistent (p : Program)
    (h : ReachedBy Program.step StandsAtStart startProgram p) :
    (Consistent p.host.emu ∧ Listens p.host) ∧
      ∀ a p', p.step a = some p' → (Consistent p'.host.emu ↔ StandsAtStart p a) := by
  have hcons : Consistent p.host.emu :=
    h.invariant (I := fun p => Consistent p.host.emu) (by unfold Consistent; decide)
      fun _ _ _ hs hstands hstep => (hs.step_iff hstep).mpr hstands
  exact ⟨⟨hcons, hcons.listens⟩, fun a p' hstep => hcons.step_iff hstep⟩

end Runs

/-! ## PLAY before and after -/

/-- The upload of a firmware, in any stage. -/
theorem step_elfFile {p : Program} (hidle : p.host.upload.inProgress = false)
    {image : List (BitVec 8)} (hfit : image.length ≤ 0x4000) :
    ∃ h, p.step (.message (elfFile image)) = some { p with host := h } ∧
      h.webFirmwareUploaded = true ∧ h.upload.inProgress = false ∧ h.emu = p.host.emu := by
  obtain ⟨h, hreceive, hup, hidle', hemu⟩ := receive_elfFile hidle hfit
  have hop : (elfFile image).byteAt 0 = 0x00 := rfl
  have hnone : receiveAccesses p.host (elfFile image) = [] :=
    receiveAccesses_of_other (by rw [hop]; decide) (by rw [hop]; decide)
  refine ⟨h, ?_, hup, hidle', hemu⟩
  simp only [Program.step, hnone, hreceive]
  simp

/-- PLAY is taken in any stage. -/
theorem step_play {p : Program} (h : p.host.upload.inProgress = false) :
    p.step (.message (opcodeMessage 0x01)) = some { p with host := receivePlay p.host } := by
  have hnone : receiveAccesses p.host (opcodeMessage 0x01) = [] :=
    receiveAccesses_of_other (by decide) (by decide)
  have hplay : receive p.host (opcodeMessage 0x01) = some (receivePlay p.host) := by
    rw [receive, if_neg (by simp [h])]
    rfl
  simp only [Program.step, hnone, hplay]
  simp

/-- The machine is initialised once the upload is complete. -/
theorem step_initialise {tmpBin : List (BitVec 8)} {p : Program} (hwait : p.main = .waiting)
    (hup : p.host.webFirmwareUploaded = true) (hfit : tmpBin.length ≤ 0x4000) :
    ∃ emu, initialise tmpBin p.host.emu = some emu ∧
      p.step (.initialise tmpBin)
        = some { host := { p.host with emu := emu }, main := .head } := by
  obtain ⟨emu, hemu⟩ : ∃ emu, initialise tmpBin p.host.emu = some emu := by
    unfold initialise loadFirmware
    rw [if_neg (by omega)]
    exact ⟨_, rfl⟩
  refine ⟨emu, hemu, ?_⟩
  simp only [Program.step]
  rw [if_pos ⟨hwait, hup⟩, hemu]
  rfl

/-- The machine is initialised and then told to run. -/
theorem run_state_consistent_playing :
    ∃ p : Program, p.host.emu.running = true ∧ (Consistent p.host.emu ∧ Listens p.host) := by
  have hstands (p : Program) (m : Message) : StandsAtStart p (.message m) :=
    fun _ ha => by cases ha
  have hfit : moveFirmware.length ≤ 0x4000 := by decide
  obtain ⟨h, hfile, hup, hidle, hemu⟩ := step_elfFile (p := startProgram) rfl hfit
  have hp := ReachedBy.start.step (hstands _ _) hfile
  have hinit : StandsAtStart { startProgram with host := h } (.initialise moveFirmware) :=
    fun _ _ => Or.inl (by rw [hemu]; rfl)
  obtain ⟨emu, -, hstep⟩ := step_initialise (p := { startProgram with host := h }) rfl hup hfit
  have hplaying := (hp.step hinit hstep).step (hstands _ _) (step_play hidle)
  exact ⟨_, rfl, (run_state_consistent _ hplaying).1⟩

/-- **A program that is told to run before it is initialised** stands, and executes no line. -/
theorem stopped_and_deaf :
    ¬ ∀ p, ReachedBy Program.step AnyStep startProgram p →
      Consistent p.host.emu ∧ Listens p.host := by
  intro hclaim
  obtain ⟨q, hq⟩ : ∃ q : Program,
      q = { startProgram with host := receivePlay startProgram.host } := ⟨_, rfl⟩
  have hplay : ReachedBy Program.step AnyStep startProgram q :=
    .step .start trivial (by rw [hq]; exact step_play rfl)
  have hfit : moveFirmware.length ≤ 0x4000 := by decide
  obtain ⟨h, hfile, hup, -, hemu⟩ := step_elfFile (p := q) (by rw [hq]; rfl) hfit
  obtain ⟨emu, hinit, hstep⟩ := step_initialise (p := { q with host := h }) (by rw [hq]; rfl) hup
    hfit
  obtain ⟨hcons, -⟩ := hclaim _ ((hplay.step trivial hfile).step trivial hstep)
  -- the word that is listed is an instruction, so that nothing sets `debug_mode` again
  have hword : formatId (firstWord moveFirmware h.emu) ≠ 0 := by
    have hlow : (loadImage (setUp h.emu) 0xC000 moveFirmware).mem 0xC000 = 0x15 := rfl
    have hhigh : (loadImage (setUp h.emu) 0xC000 moveFirmware).mem 0xC001 = 0x43 := rfl
    show formatId (joinBytes (Emulator.mem _ 0xC001) (Emulator.mem _ 0xC000)) ≠ 0
    rw [hlow, hhigh]
    decide
  have hmodes : emu.modes = (false, false) := by
    rw [modes_initialise hinit, if_neg hword, hemu, hq]
    rfl
  rw [consistent_iff] at hcons
  exact absurd hcons (by simp [hmodes, halted, running])

end Msp430
