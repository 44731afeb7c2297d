/-
# Debugging a program

Somebody debugs: plays, pauses, steps, sets breakpoints, lists, dumps, types on the serial
line, in any order.  What happens to the machine is what the moves of the session make of it:
its instructions, the bytes that arrive, and what `set` and `reset` change on purpose.  The rest
is not seen, as long as no listing on the way disturbs (`session_moves`).  A session that sets
and types nothing runs the board, the documented processor with the devices of the emulator, one
step for each instruction (`session_runs_board`).
-/
import Msp430.Board
import Msp430.Breakpoints
import Msp430.Session
import Msp430.Transparency

namespace Msp430

open CString Trail

/-! ## Moves -/

/-- What a session does to the machine on purpose. -/
inductive Move : Type where
  | step : Move
  | input (b : BitVec 8) : Move
  | set (line : Str) : Move
  | reset : Move
  deriving DecidableEq

/-- `set`, without its listing. -/
def setBare (emu : Emulator) (line : Str) : Emulator :=
  match regNameToNum (secondWord line) with
  | some n => setRegister emu n (setValue line)
  | none => emu.store16 (getAddrPtr ((strtol (secondWord line)).setWidth 16)) (setValue line)

/-- The machine after a move. -/
def Move.apply (emu : Emulator) : Move → Emulator
  | .step => machineStep emu
  | .input b => deliver emu b
  | .set line => setBare emu line
  | .reset => emu.setReg 0 0xC000

/-- The console executes a line. -/
def Attends (emu : Emulator) : Prop := (!emu.running && emu.debugMode) = true

instance (emu : Emulator) : Decidable (Attends emu) := inferInstanceAs (Decidable (_ = _))

/-- The moves of a command. -/
def Command.moves (line : Str) : Command → List Move
  | .step steps => List.replicate steps.toNat .step
  | .set => [.set line]
  | .reset => [.reset]
  | _ => []

/-- The moves of an event. -/
def moves (emu : Emulator) : SessionEvent → List Move
  | .command line => if Attends emu then (command line).moves line else []
  | .input b => [.input b]
  | .body => [.step]
  | _ => []

/-- The moves of a session. -/
def movesIn (emu : Emulator) (evs : List SessionEvent) : List Move := taken perform moves emu evs

/-! ## What must not be listed -/

/-- The listing of the instruction at the program counter is not seen. -/
def Hidden (emu : Emulator) : Prop := ¬ Disturbs emu (fetch emu).1

instance (emu : Emulator) : Decidable (Hidden emu) := inferInstanceAs (Decidable (¬ _))

/-- The instruction does not push an unassigned local. -/
def Assigned (emu : Emulator) : Prop := ¬ PushesSymbolic (fetch emu).1

instance (emu : Emulator) : Decidable (Assigned emu) :=
  inferInstanceAs (Decidable (¬ (_ ∧ _ ∧ _)))

/-- A command lists nothing that disturbs. -/
def Command.Gentle (emu : Emulator) (line : Str) : Command → Prop
  | .step steps =>
    (∀ i < steps.toNat, Assigned (machineStep^[i] emu)) ∧ Hidden (machineStep^[steps.toNat] emu)
  | .dis => ∀ i < ((disArguments emu line).1.setWidth 8).toNat,
      ¬ Disturbs emu (lineWord emu (disArguments emu line).2 i)
  | .set => (regNameToNum (secondWord line)).isSome → Hidden (setBare emu line)
  | .reset => Hidden (emu.setReg 0 0xC000)
  | .regs => Hidden emu
  | _ => True

instance Command.decidableGentle (emu : Emulator) (line : Str) :
    (c : Command) → Decidable (c.Gentle emu line)
  | .step steps => inferInstanceAs (Decidable
      ((∀ i < steps.toNat, Assigned (machineStep^[i] emu)) ∧
        Hidden (machineStep^[steps.toNat] emu)))
  | .dis => inferInstanceAs (Decidable
      (∀ i < ((disArguments emu line).1.setWidth 8).toNat,
        ¬ Disturbs emu (lineWord emu (disArguments emu line).2 i)))
  | .set => inferInstanceAs (Decidable
      ((regNameToNum (secondWord line)).isSome → Hidden (setBare emu line)))
  | .reset => inferInstanceAs (Decidable (Hidden (emu.setReg 0 0xC000)))
  | .regs => inferInstanceAs (Decidable (Hidden emu))
  | .overlong | .quit | .run | .dump | .addBreak | .bps | .help | .invalid =>
    inferInstanceAs (Decidable True)

/-- An event lists nothing that disturbs, and executes nothing that pushes an unassigned
local. -/
def SessionEvent.Gentle (emu : Emulator) : SessionEvent → Prop
  | .command line => Attends emu → (Msp430.command line).Gentle emu line
  | .pause => emu.running = true → Hidden emu
  | .head => AtBreakpoint emu → Hidden emu
  | .body => Assigned emu
  | _ => True

instance SessionEvent.decidableGentle (emu : Emulator) :
    (ev : SessionEvent) → Decidable (ev.Gentle emu)
  | .command line =>
    inferInstanceAs (Decidable (Attends emu → (Msp430.command line).Gentle emu line))
  | .pause => inferInstanceAs (Decidable (emu.running = true → Hidden emu))
  | .head => inferInstanceAs (Decidable (AtBreakpoint emu → Hidden emu))
  | .body => inferInstanceAs (Decidable (Assigned emu))
  | .play | .input _ => inferInstanceAs (Decidable True)

/-- The events of a session are gentle, each in its state. -/
def Gentle (emu : Emulator) (evs : List SessionEvent) : Prop :=
  Along perform (fun emu ev => ev.Gentle emu) emu evs

instance (emu : Emulator) (evs : List SessionEvent) : Decidable (Gentle emu evs) :=
  inferInstanceAs (Decidable (Along _ _ _ _))

/-! ## Moves on alike machines -/

section Alike

variable {emu emu' : Emulator}

theorem Alike.deliver (h : Alike emu emu') (b : BitVec 8) :
    Alike (deliver emu b) (deliver emu' b) := by
  have hbuf := h.store8 (.mem 0x66) b
  have hifg : emu'.load8 ifg2 = emu.load8 ifg2 := h.load8_mem _
  have hifg' : (emu'.store8 (.mem 0x66) b).load8 ifg2 = (emu.store8 (.mem 0x66) b).load8 ifg2 :=
    hbuf.load8_mem _
  rw [Msp430.deliver, Msp430.deliver, hifg]
  split_ifs
  · exact h
  · simp only [hifg']
    exact hbuf.store8 _ _

theorem Alike.setRegister (h : Alike emu emu') (n : Fin 16) (v : BitVec 16) :
    Alike (setRegister emu n v) (setRegister emu' n v) := by
  rw [Msp430.setRegister, Msp430.setRegister]
  by_cases hn : n = 2
  · rw [if_pos hn, if_pos hn]
    exact { h with sr := rfl }
  · rw [if_neg hn, if_neg hn, getRegPtr, getRegPtr, if_neg hn, if_neg hn]
    exact h.setReg n v

theorem Alike.setBare (h : Alike emu emu') (line : Str) :
    Alike (setBare emu line) (setBare emu' line) := by
  rw [Msp430.setBare, Msp430.setBare]
  cases regNameToNum (secondWord line) with
  | none => exact h.store16 _ _
  | some n => exact h.setRegister n _

/-- A look at a register is not seen. -/
theorem Alike.getRegPtr (h : Alike emu emu') (n : Fin 16) : Alike emu (getRegPtr emu' n) := by
  rw [Msp430.getRegPtr]
  split_ifs
  · refine { h with regs := ?_ }
    intro m hm
    rw [Emulator.regs_setReg, if_neg hm]
    exact h.regs m hm
  · exact h

/-- Several instructions. -/
theorem Alike.machineStep_iterate (h : Alike emu emu') {k : ℕ}
    (hk : ∀ i < k, Assigned (Msp430.machineStep^[i] emu')) :
    Alike (Msp430.machineStep^[k] emu) (Msp430.machineStep^[k] emu') := by
  induction k with
  | zero => exact h
  | succ k ih =>
    rw [Function.iterate_succ_apply', Function.iterate_succ_apply']
    apply (ih fun i hi => hk i (by omega)).machineStep
    have hassigned := hk k (by omega)
    rwa [Assigned, (ih fun i hi => hk i (by omega)).fetch_fst] at hassigned

/-- The listing behind a command is not seen. -/
theorem Alike.hidden (h : Alike emu emu') (hd : Hidden emu') :
    Alike emu (disassemble emu' emu'.pc 1) :=
  h.trans ((Alike.refl emu').list hd)

end Alike

/-! ## Events -/

section Events

variable {emu emu' : Emulator}

theorem foldl_replicate_step (emu : Emulator) (n : ℕ) :
    (List.replicate n Move.step).foldl Move.apply emu = machineStep^[n] emu := by
  induction n generalizing emu with
  | zero => rfl
  | succ n ih => exact ih (machineStep emu)

/-- `set`, its listing included. -/
theorem execSet_alike {f : Emulator} {line : Str} (h : Alike emu emu')
    (hg : (regNameToNum (secondWord line)).isSome → Hidden (setBare emu' line))
    (hset : execSet emu' line = some f) : Alike (setBare emu line) f := by
  have hbare := h.setBare line
  unfold execSet at hset
  unfold setBare at hbare hg ⊢
  split_ifs at hset
  cases hname : regNameToNum (secondWord line) with
  | none =>
    simp only [hname, Option.some.injEq] at hset hbare ⊢
    rwa [← hset]
  | some n =>
    simp only [hname, Option.some.injEq, Option.isSome_some, forall_const] at hset hbare hg ⊢
    rw [← hset]
    exact hbare.hidden hg

/-- `dump` looks a register up, and prints. -/
theorem execDump_alike {f : Emulator} {line : Str} (h : Alike emu emu')
    (hdump : execDump emu' line = some f) : Alike emu f := by
  unfold execDump at hdump
  split_ifs at hdump
  obtain ⟨⟨start, e⟩, hstart, rfl⟩ := Option.map_eq_some_iff.mp hdump
  unfold dumpStart at hstart
  cases hhead : (secondWord line).head? with
  | none =>
    simp only [hhead, Option.some.injEq, Prod.mk.injEq] at hstart
    rwa [← hstart.2]
  | some c =>
    simp only [hhead] at hstart
    split_ifs at hstart
    · simp only [Option.some.injEq, Prod.mk.injEq] at hstart
      rwa [← hstart.2]
    · obtain ⟨n, -, hn⟩ := Option.map_eq_some_iff.mp hstart
      rw [Prod.mk.injEq] at hn
      rw [← hn.2]
      exact h.getRegPtr n
    · simp only [Option.some.injEq, Prod.mk.injEq] at hstart
      rwa [← hstart.2]

/-- `reset`, its listing included. -/
theorem execReset_alike (h : Alike emu emu') (hg : Hidden (emu'.setReg 0 0xC000)) :
    Alike (emu.setReg 0 0xC000) (execReset emu') :=
  Alike.hidden (h.setReg 0 0xC000) hg

/-- `step`, its listing included. -/
theorem execStep_alike (h : Alike emu emu') {steps : BitVec 32}
    (hassigned : ∀ i < steps.toNat, Assigned (machineStep^[i] emu'))
    (hhidden : Hidden (machineStep^[steps.toNat] emu')) :
    Alike (machineStep^[steps.toNat] emu) (execStep emu' steps) := by
  rw [execStep]
  exact (h.machineStep_iterate hassigned).hidden hhidden

/-- **A command is its moves.** -/
theorem execCmd_alike {f : Emulator} {line : Str} (h : Alike emu emu')
    (hg : (command line).Gentle emu' line) (hcmd : execCmd emu' line = some f) :
    Alike (((command line).moves line).foldl Move.apply emu) f := by
  rw [execCmd_eq] at hcmd
  cases hc : command line <;> rw [hc] at hcmd hg
  case overlong => cases hcmd
  case reset =>
    obtain rfl := Option.some.inj hcmd
    exact execReset_alike h hg
  case step steps =>
    obtain rfl := Option.some.inj hcmd
    change Alike ((List.replicate steps.toNat Move.step).foldl Move.apply emu) _
    rw [foldl_replicate_step]
    exact execStep_alike h hg.1 hg.2
  case dis =>
    obtain rfl := Option.some.inj hcmd
    apply h.trans
    apply disassemble_alike
    exact hg
  case dump => exact execDump_alike h hcmd
  case set => exact execSet_alike h hg hcmd
  case addBreak =>
    obtain rfl := Option.some.inj hcmd
    change Alike emu (execBreak emu' line)
    unfold execBreak
    split_ifs
    · exact h
    · cases scanHex (arguments line) with
      | none => exact h
      | some r => exact { h with }
  case bps =>
    obtain rfl := Option.some.inj hcmd
    change Alike emu (execBps emu')
    rw [execBps_eq]
    exact { h with }
  case regs =>
    obtain rfl := Option.some.inj hcmd
    exact h.hidden hg
  all_goals
    obtain rfl := Option.some.inj hcmd
    exact { h with }

/-- **An event is its moves.** -/
theorem perform_alike {f : Emulator} {ev : SessionEvent} (hg : ev.Gentle emu')
    (h : Alike emu emu') (hev : perform emu' ev = some f) :
    Alike ((moves emu' ev).foldl Move.apply emu) f := by
  cases ev with
  | command line =>
    rw [moves]
    change (if Attends emu' then execCmd emu' line else some emu') = some f at hev
    by_cases hattends : Attends emu'
    · rw [if_pos hattends] at hev ⊢
      exact execCmd_alike h (hg hattends) hev
    · rw [if_neg hattends] at hev ⊢
      obtain rfl := Option.some.inj hev
      exact h
  | play =>
    obtain rfl := Option.some.inj hev
    exact { h with }
  | pause =>
    obtain rfl := Option.some.inj hev
    change Alike emu (pauseRun emu')
    unfold pauseRun
    split_ifs with hrunning
    · have hstopped : Alike emu { emu' with running := false, debugMode := true } := { h with }
      exact hstopped.hidden (hg hrunning)
    · exact h
  | input b =>
    obtain rfl := Option.some.inj hev
    exact h.deliver b
  | head =>
    rw [perform] at hev
    split_ifs at hev with hquit hrunning
    · obtain rfl := Option.some.inj hev
      exact h
    · obtain rfl := Option.some.inj hev
      change Alike emu (handleBreakpoints emu')
      unfold handleBreakpoints
      split_ifs with hany
      · have hat : AtBreakpoint emu' := by
          refine ⟨by simpa using hquit, by simpa using hrunning, ?_⟩
          simpa using hany
        have hstopped : Alike emu { emu' with running := false, debugMode := true } := { h with }
        exact hstopped.hidden (hg hat)
      · exact h
  | body =>
    obtain rfl := Option.some.inj hev
    apply h.machineStep
    rwa [SessionEvent.Gentle, Assigned, h.fetch_fst] at hg

end Events


/-! ## Sessions -/

/-- **A session is its moves.** -/
theorem session_alike_moves {emu emu' : Emulator} {evs : List SessionEvent}
    (h : session emu evs = some emu') (hg : Gentle emu evs) :
    Alike ((movesIn emu evs).foldl Move.apply emu) emu' :=
  rel_taken (fun hev hst hperform => perform_alike hev hst hperform) hg (Alike.refl emu) h

/-- Alike machines are the same board. -/
theorem Alike.boardView {emu emu' : Emulator} (h : Alike emu emu') :
    boardView emu' = boardView emu := by
  have hview : view emu' = view emu := by
    refine Processor.ext (funext fun n => ?_) h.sr (funext fun a => ?_)
    · by_cases hn : n = 2 ∨ n = 3
      · simp only [view, if_pos hn]
      · simp only [view, if_neg hn]
        exact h.regs n fun h2 => hn (.inl h2)
    · simp only [view, h.mem]
  rw [Msp430.boardView, Msp430.boardView, hview, h.serial]

/-- The instructions of the machine are the steps of the board. -/
theorem boardView_machineStep_iterate (emu : Emulator) (k : ℕ)
    (hexact : (boardView emu).ExactRun k) {b : Board} (hrun : (boardView emu).run k = some b) :
    boardView (machineStep^[k] emu) = b := by
  induction k generalizing emu with
  | zero => exact Option.some.inj hrun
  | succ k ih =>
    rcases hexact with ⟨hexact, hrest⟩
    rw [Board.run] at hrun
    obtain ⟨b', hstep, hrun⟩ := Option.bind_eq_some_iff.mp hrun
    have hb' := boardView_machineStep emu hexact hstep
    rw [Function.iterate_succ_apply]
    apply ih (machineStep emu)
    · rw [hb']
      exact hrest b' hstep
    · rwa [hb']

/-- **Debugging does not change what a program computes**: whatever is played, paused, stepped,
listed, dumped, typed and set in whatever order, the registers, the flags, the memory and the
peripherals end as the moves of the session alone leave them, unless a listing on the way
disturbs or an instruction pushes an unassigned local. -/
theorem session_moves (emu emu' : Emulator) (evs : List SessionEvent)
    (h : session emu evs = some emu') (hg : Gentle emu evs) :
    Alike ((movesIn emu evs).foldl Move.apply emu) emu' :=
  session_alike_moves h hg

/-- A program in the debugger. -/
def debuggedStart : Emulator := { loopState with running := false, debugMode := true }

/-- It is stopped at a breakpoint, stepped, looked at, given a character, changed and resumed. -/
def debuggedEvents : List SessionEvent :=
  [.command (bytes "break C00E"), .play, .head, .body, .head, .body, .head, .body, .head, .body,
   .head, .command (bytes "step 2"), .input 0x41, .command (bytes "dump C000"),
   .command (bytes "dis 3 C000"), .command (bytes "set r4 7"), .command (bytes "regs"),
   .command (bytes "bps"), .play, .head, .body, .pause]

theorem session_moves_debugged :
    (session debuggedStart debuggedEvents).isSome ∧
    ∀ emu' ∈ session debuggedStart debuggedEvents,
      Alike ((movesIn debuggedStart debuggedEvents).foldl Move.apply debuggedStart) emu' :=
  ⟨by decide +kernel, fun emu' h =>
    session_moves debuggedStart emu' debuggedEvents h (by decide +kernel)⟩

/-- A session that sets and types nothing, on the board. -/
theorem boardView_of_session {emu emu' : Emulator} {evs : List SessionEvent}
    (h : session emu evs = some emu') (hg : Gentle emu evs)
    (hsteps : ∀ m ∈ movesIn emu evs, m = .step)
    (hexact : (boardView emu).ExactRun (movesIn emu evs).length)
    (hrun : ((boardView emu).run (movesIn emu evs).length).isSome) :
    (boardView emu).run (movesIn emu evs).length = some (boardView emu') := by
  have halike := session_alike_moves h hg
  rw [List.eq_replicate_of_mem hsteps, foldl_replicate_step] at halike
  obtain ⟨b, hb⟩ := Option.isSome_iff_exists.mp hrun
  rw [hb, halike.boardView, boardView_machineStep_iterate emu _ hexact hb]

/-- **A debugged program runs the board**, an instruction of the session for a step of the board,
whatever the debugger does between the instructions, in every gentle session that moves by
instructions alone, as long as these are among those that the code executes as documented. -/
theorem session_runs_board (emu emu' : Emulator) (evs : List SessionEvent)
    (h : session emu evs = some emu') (hg : Gentle emu evs)
    (hsteps : ∀ m ∈ movesIn emu evs, m = .step)
    (hexact : (boardView emu).ExactRun (movesIn emu evs).length)
    (hrun : ((boardView emu).run (movesIn emu evs).length).isSome) :
    (boardView emu).run (movesIn emu evs).length = some (boardView emu') :=
  boardView_of_session h hg hsteps hexact hrun

/-- The session without the character and without the change. -/
def watchedEvents : List SessionEvent :=
  [.command (bytes "break C00E"), .play, .head, .body, .head, .body, .head, .body, .head, .body,
   .head, .command (bytes "step 2"), .command (bytes "dump C000"),
   .command (bytes "dis 3 C000"), .command (bytes "regs"), .command (bytes "bps"), .play, .head,
   .body, .pause]

theorem session_runs_board_watched :
    (session debuggedStart watchedEvents).isSome ∧
    ∀ emu' ∈ session debuggedStart watchedEvents,
      (boardView debuggedStart).run 7 = some (boardView emu') := by
  refine ⟨by decide +kernel, ?_⟩
  intro emu' h
  have hlength : (movesIn debuggedStart watchedEvents).length = 7 := by decide +kernel
  rw [← hlength]
  apply session_runs_board debuggedStart emu' watchedEvents h
  · decide +kernel
  · decide +kernel
  · decide +kernel
  · decide +kernel

end Msp430
