/-
# Machines under one debugger

Two machines agree, hold the same in the locals of the decoders and stand under the same
debugger, but their peripherals may keep different mirrors.  The handlers write memory by what
they find there and not by the mirrors, so that every event keeps such twins together: what the
registers hold at the end of a session does not depend on the mirrors at its start.
-/
import Msp430.Agree
import Msp430.Session

namespace Msp430

open CString Trail

/-- The machines agree, and the debugger and the locals of the decoders are the same. -/
structure Twin (emu emu' : Emulator) : Prop where
  agree : Agree emu emu'
  residue : emu'.residue = emu.residue
  supervision : emu'.supervision = emu.supervision

namespace Twin

variable {emu emu' : Emulator}

theorem pc (h : Twin emu emu') : emu'.pc = emu.pc := h.agree.pc

theorem flags (h : Twin emu emu') :
    emu'.running = emu.running ∧ emu'.debugMode = emu.debugMode ∧ emu'.quit = emu.quit ∧
      emu'.numBps = emu.numBps ∧ emu'.bpAddresses = emu.bpAddresses := by
  have hs := h.supervision
  simp only [Emulator.supervision, Prod.mk.injEq] at hs
  exact ⟨hs.1.1, hs.1.2, hs.2.1, hs.2.2.1, hs.2.2.2⟩

/-- A write of the CPU to both machines. -/
theorem of_agree {e e' : Emulator} (h : Twin emu emu') (hagree : Agree e e')
    (hres : e.residue = emu.residue ∧ e'.residue = emu'.residue)
    (hsup : e.supervision = emu.supervision ∧ e'.supervision = emu'.supervision) : Twin e e' where
  agree := hagree
  residue := by rw [hres.1, hres.2, h.residue]
  supervision := by rw [hsup.1, hsup.2, h.supervision]

theorem setReg (h : Twin emu emu') (n : Fin 16) (v : BitVec 16) :
    Twin (emu.setReg n v) (emu'.setReg n v) :=
  h.of_agree (h.agree.setReg n v) ⟨rfl, rfl⟩ ⟨rfl, rfl⟩

theorem store16 (h : Twin emu emu') (p : Ptr) (v : BitVec 16) :
    Twin (emu.store16 p v) (emu'.store16 p v) :=
  h.of_agree (h.agree.store16 p v)
    ⟨outside_residue.store16 _ _ _, outside_residue.store16 _ _ _⟩
    ⟨outside_supervision.store16 _ _ _, outside_supervision.store16 _ _ _⟩

theorem store8 (h : Twin emu emu') (p : Ptr) (b : BitVec 8) :
    Twin (emu.store8 p b) (emu'.store8 p b) :=
  h.of_agree (h.agree.store8 p b)
    ⟨outside_residue.store8 _ _ _, outside_residue.store8 _ _ _⟩
    ⟨outside_supervision.store8 _ _ _, outside_supervision.store8 _ _ _⟩

/-! ## Instructions and handlers -/

theorem decode (h : Twin emu emu') (w : BitVec 16) (disassemble : Bool) :
    Twin (decode emu w disassemble) (decode emu' w disassemble) where
  agree := h.agree.decode w disassemble fun _ => congrFun h.residue 0
  residue := by rw [residue_decode, residue_decode, h.residue]
  supervision := by rw [supervision_decode, supervision_decode, h.supervision]

theorem fetch (h : Twin emu emu') :
    (fetch emu').1 = (fetch emu).1 ∧ Twin (fetch emu).2 (fetch emu').2 :=
  ⟨h.agree.fetch_fst, h.of_agree h.agree.fetch_snd ⟨rfl, rfl⟩ ⟨rfl, rfl⟩⟩

/-- **A machine step** keeps twins together. -/
theorem machineStep (h : Twin emu emu') : Twin (machineStep emu) (machineStep emu') := by
  have hcpu : Twin (cpuStep emu) (cpuStep emu') := by
    rw [cpuStep, cpuStep, h.fetch.1]
    exact h.fetch.2.decode _ false
  have hregs := regs_handlePeripherals (cpuStep emu)
  have hregs' := regs_handlePeripherals (cpuStep emu')
  have hres (e : Emulator) : (handlePeripherals e).residue = e.residue :=
    Aside.handlePeripherals ⟨fun _ _ _ _ _ _ => rfl⟩ e
  refine hcpu.of_agree ⟨fun n hn => ?_, ?_, mem_handlePeripherals_congr hcpu.agree.mem⟩
    ⟨hres _, hres _⟩ ⟨supervision_handlePeripherals _, supervision_handlePeripherals _⟩
  · rw [Msp430.machineStep, Msp430.machineStep, hregs.1, hregs'.1, hcpu.agree.regs n hn]
  · rw [Msp430.machineStep, Msp430.machineStep, hregs.2, hregs'.2, hcpu.agree.sr]

theorem iterate {f : Emulator → Emulator} (hf : ∀ {e e'}, Twin e e' → Twin (f e) (f e'))
    (n : ℕ) (h : Twin emu emu') : Twin (f^[n] emu) (f^[n] emu') := by
  induction n generalizing emu emu' with
  | zero => exact h
  | succ n ih => exact ih (hf h)

/-- **A listing** keeps twins together. -/
theorem disassemble (h : Twin emu emu') (start : BitVec 16) (times : BitVec 8) :
    Twin (disassemble emu start times) (disassemble emu' start times) := by
  have hline {e e' : Emulator} (he : Twin e e') :
      Twin (disassembleLine e) (disassembleLine e') := by
    rw [disassembleLine, disassembleLine, he.fetch.1]
    exact he.fetch.2.decode _ true
  have hstart : Twin (listingStart emu start) (listingStart emu' start) :=
    (h.setReg 0 start).of_agree { (h.setReg 0 start).agree with } ⟨rfl, rfl⟩ ⟨rfl, rfl⟩
  have hrun := iterate hline times.toNat hstart
  have hoff {e e' : Emulator} (he : Twin e e') :
      Twin { e with disassembleMode := false } { e' with disassembleMode := false } :=
    he.of_agree ⟨he.agree.regs, he.agree.sr, he.agree.mem⟩ ⟨rfl, rfl⟩ ⟨rfl, rfl⟩
  rw [disassemble_eq, disassemble_eq, h.pc]
  exact (hoff hrun).setReg 0 emu.pc

/-- The listing of the instruction at the program counter. -/
theorem list (h : Twin emu emu') : Twin (list emu) (list emu') := by
  rw [Msp430.list, Msp430.list, h.pc]
  exact h.disassemble emu.pc 1

/-! ## Commands -/

theorem getRegPtr (h : Twin emu emu') (n : Fin 16) :
    Twin (getRegPtr emu n) (getRegPtr emu' n) := by
  unfold Msp430.getRegPtr
  split_ifs
  · rw [h.agree.sr]
    exact h.setReg 2 _
  · exact h

theorem setRegister (h : Twin emu emu') (n : Fin 16) (v : BitVec 16) :
    Twin (setRegister emu n v) (setRegister emu' n v) := by
  unfold Msp430.setRegister
  split_ifs
  · exact ⟨⟨h.agree.regs, rfl, h.agree.mem⟩, h.residue, h.supervision⟩
  · exact (h.getRegPtr n).setReg n v

theorem execDump (h : Twin emu emu') (line : Str) :
    Option.Rel Twin (execDump emu line) (execDump emu' line) := by
  unfold Msp430.execDump dumpStart
  split_ifs
  · exact .none
  · cases hhead : (secondWord line).head? with
    | none =>
      simp only [hhead]
      exact .some h
    | some c =>
      simp only [hhead]
      split_ifs
      · exact .some h
      · cases regNameToNum (secondWord line) with
        | none => exact .none
        | some n => exact .some (h.getRegPtr n)
      · exact .some h

theorem execSet (h : Twin emu emu') (line : Str) :
    Option.Rel Twin (execSet emu line) (execSet emu' line) := by
  unfold Msp430.execSet
  split_ifs
  · exact .none
  · cases regNameToNum (secondWord line) with
    | none => exact .some (h.store16 _ _)
    | some n => exact .some (h.setRegister n _).list

theorem execBreak (h : Twin emu emu') (line : Str) :
    Twin (execBreak emu line) (execBreak emu' line) := by
  obtain ⟨hrun, hdebug, hquit, hnum, hbps⟩ := h.flags
  unfold Msp430.execBreak
  rw [hnum]
  split_ifs with hfull
  · exact h
  · cases scanHex (arguments line) with
    | none => exact h
    | some r =>
      have hroom : emu.numBps < maxBreakpoints := Nat.not_le.mp hfull
      dsimp only
      rw [addBreakpoint_eq hroom, addBreakpoint_eq (hnum.symm ▸ hroom)]
      refine ⟨⟨h.agree.regs, h.agree.sr, h.agree.mem⟩, h.residue, ?_⟩
      simp only [Emulator.supervision, hrun, hdebug, hquit, hnum, hbps]

theorem execBps (h : Twin emu emu') : Twin (execBps emu) (execBps emu') := by
  rw [execBps_eq, execBps_eq emu']
  exact ⟨⟨h.agree.regs, h.agree.sr, h.agree.mem⟩, h.residue, h.supervision⟩

theorem play (h : Twin emu emu') : Twin (execRun emu) (execRun emu') := by
  refine ⟨⟨h.agree.regs, h.agree.sr, h.agree.mem⟩, h.residue, ?_⟩
  simp only [execRun, Emulator.supervision, h.flags]

/-- **A command** keeps twins together, or fails for both. -/
theorem execCmd (h : Twin emu emu') (line : Str) :
    Option.Rel Twin (execCmd emu line) (execCmd emu' line) := by
  obtain ⟨hrun, hdebug, hquit, hnum, hbps⟩ := h.flags
  rw [execCmd_eq, execCmd_eq]
  cases command line with
  | overlong => exact .none
  | reset => exact .some (h.setReg 0 0xC000).list
  | step steps => exact .some (iterate machineStep steps.toNat h).list
  | quit =>
    refine .some ⟨⟨h.agree.regs, h.agree.sr, h.agree.mem⟩, h.residue, ?_⟩
    simp only [execQuit, Emulator.supervision, hrun, hdebug, hnum, hbps]
  | run =>
    exact .some h.play
  | dis =>
    have hargs : disArguments emu' line = disArguments emu line := by
      rw [disArguments, disArguments, h.pc]
    apply Option.Rel.some
    rw [execDis, execDis, hargs]
    exact h.disassemble _ _
  | dump => exact h.execDump line
  | set => exact h.execSet line
  | addBreak => exact .some (h.execBreak line)
  | bps => exact .some h.execBps
  | regs => exact .some h.list
  | help => exact .some h
  | invalid => exact .some h

/-! ## Sessions -/

/-- The debugger stops the machine and lists the next instruction. -/
theorem stop (h : Twin emu emu') :
    Twin (Msp430.list { emu with running := false, debugMode := true })
      (Msp430.list { emu' with running := false, debugMode := true }) := by
  refine Twin.list ⟨⟨h.agree.regs, h.agree.sr, h.agree.mem⟩, h.residue, ?_⟩
  simp only [Emulator.supervision, h.flags]

/-- **An event** keeps twins together, or is impossible for both. -/
theorem perform (h : Twin emu emu') (ev : SessionEvent) :
    Option.Rel Twin (perform emu ev) (perform emu' ev) := by
  obtain ⟨hrun, hdebug, hquit, hnum, hbps⟩ := h.flags
  cases ev with
  | command line =>
    simp only [Msp430.perform, hrun, hdebug]
    split_ifs
    · exact h.execCmd line
    · exact .some h
  | play => exact .some h.play
  | pause =>
    apply Option.Rel.some
    unfold pauseRun
    rw [hrun]
    split_ifs
    · exact h.stop
    · exact h
  | input b =>
    apply Option.Rel.some
    have hload {e e' : Emulator} (he : Twin e e') : e'.load8 ifg2 = e.load8 ifg2 :=
      he.agree.load8_mem _
    simp only [deliver, hload h, hload (h.store8 (.mem 0x66) b)]
    split_ifs
    · exact h
    · exact (h.store8 _ b).store8 ifg2 _
  | head =>
    simp only [Msp430.perform, hrun, hquit]
    split_ifs
    · exact .none
    · exact .some h
    · apply Option.Rel.some
      have hany : (List.range emu'.numBps).any (fun i => emu'.pc == emu'.bpAddresses i)
          = (List.range emu.numBps).any (fun i => emu.pc == emu.bpAddresses i) := by
        rw [hnum, hbps, h.pc]
      rw [handleBreakpoints, handleBreakpoints, hany]
      split_ifs
      · exact h.stop
      · exact h
  | body => exact .some h.machineStep

/-- **Sessions** keep twins together. -/
theorem session (h : Twin emu emu') (evs : List SessionEvent) :
    Option.Rel Twin (session emu evs) (session emu' evs) :=
  rel_session (fun ev _ _ hs => hs.perform ev) evs h

end Twin

end Msp430
