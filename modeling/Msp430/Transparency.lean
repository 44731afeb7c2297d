/-
# Listing and stepping

The debugger lists the instruction at the program counter after every command, and the
listing runs the decoders.  `decode_formatI` looks at `disassemble` before it touches a
register, `decode_formatII` does not: a listed single-operand instruction masks a byte
register or increments its pointer, as if it were executed.
`debugging_transparent` says exactly which listings show, and that without such
listings the `step` commands and the main loop, while it comes through its turns, end alike.
-/
import Msp430.Alike
import Msp430.Observation

namespace Msp430

/-! ## The effect of a listing -/

/-- The registers, the status register and the memory are those of the other state. -/
def SameMachine (emu emu' : Emulator) : Prop :=
  (∀ n, n ≠ 2 → emu'.regs n = emu.regs n) ∧ emu'.sr = emu.sr ∧ emu'.mem = emu.mem

theorem Alike.sameMachine {emu emu' : Emulator} (h : Alike emu emu') :
    SameMachine emu emu' := ⟨h.regs, h.sr, h.mem⟩

/-- The listing of the instruction changes a register: an auto-increment, or a byte mask
that takes a high byte. -/
def Disturbs (emu : Emulator) (w : BitVec 16) : Prop :=
  formatId w = 1 ∧
    (autoIncrementsII w = true ∨
      (masksOperand w = true ∧ lowReg w ≠ 0 ∧ lowReg w ≠ 2 ∧
        highByte (emu.regs (lowReg w)) ≠ 0))

instance (emu : Emulator) (w : BitVec 16) : Decidable (Disturbs emu w) :=
  inferInstanceAs (Decidable (_ ∧ _))

/-- The address of the line after the one at `a`.  A byte instruction on the program
counter masks it in the listing, too. -/
def nextLine (emu : Emulator) (a : BitVec 16) : BitVec 16 :=
  let w := emu.load16 (getAddrPtr a)
  if formatId w = 1 then
    if masksOperand w ∧ lowReg w = 0 then (a + 2) &&& 0x00FF else a + 2 + advanceII w
  else if 4 ≤ formatId w then a + 2 + advanceI w
  else a + 2

/-- The instruction word in a line of the listing that starts at `start`. -/
def lineWord (emu : Emulator) (start : BitVec 16) (i : ℕ) : BitVec 16 :=
  emu.load16 (getAddrPtr ((nextLine emu)^[i] start))

/-- A listed instruction writes no memory. -/
theorem mem_listed (emu : Emulator) (w : BitVec 16) : (decode emu w true).mem = emu.mem := by
  rcases formatId_cases w with h0 | h1 | h3 | h4
  · rw [decode_invalid _ _ _ h0]
  · rw [decode_formatII _ _ _ h1, decodeFormatII, if_pos rfl, operandsII_emu]
  · rw [decode_formatIII _ _ _ h3, decodeFormatIII, if_pos rfl]
  · rw [decode_formatI _ _ _ h4, decodeFormatI, if_pos rfl, operandsI_emu]

/-- The register cells after a listed line of Format I. -/
theorem regsI_listed (emu : Emulator) (w : BitVec 16) {n : Fin 16} (h2 : n ≠ 2) :
    regsI emu w true n = emu.regs n + if n = 0 then advanceI w else 0 := by
  have hlook := regs_lookupsI_of_ne emu w h2
  simp [regsI, unmaskedI, hlook]

/-- The program counter after a listed line of Format II that increments nothing. -/
theorem regsII_zero_listed (emu : Emulator) (w : BitVec 16)
    (hinc : autoIncrementsII w = false) :
    regsII emu w 0
      = if masksOperand w ∧ lowReg w = 0 then emu.pc &&& 0x00FF else emu.pc + advanceII w := by
  have hlook : (lookupII emu w).regs 0 = emu.pc := regs_lookupII_of_ne emu w (by decide)
  have hplain : unmaskedII emu w 0 = emu.pc + advanceII w := by
    simp [unmaskedII, hlook, hinc]
  rw [regsII, hplain]
  by_cases hm : masksOperand w = true
  · -- a masked operand has no extension word
    have hadv : advanceII w = 0 := by
      simp only [masksOperand, Bool.and_eq_true, beq_iff_eq] at hm
      simp [advanceII, extendedII, immediateII, hm.2]
    by_cases h0 : lowReg w = 0
    · simp [hm, h0, hadv]
    · simp [hm, h0, Ne.symm h0]
  · simp [hm]

/-- The word of a line, and the state with the program counter on it. -/
theorem fetch_line {emu e : Emulator} {a : BitVec 16} (h : Alike (emu.setReg 0 a) e) :
    (fetch e).1 = emu.load16 (getAddrPtr a) ∧ Alike (emu.setReg 0 (a + 2)) (fetch e).2 := by
  have hpc : e.pc = a := h.pc
  constructor
  · rw [fetch, hpc]
    exact h.load16 a
  · rw [fetch, hpc]
    refine { h with regs := ?_ }
    intro n hn
    by_cases h0 : n = 0
    · simp [h0]
    · have := h.regs n hn
      simpa [h0] using this

/-- **A line that disturbs nothing** only moves the program counter. -/
theorem line_keeps {emu e : Emulator} {a : BitVec 16} (h : Alike (emu.setReg 0 a) e)
    (hd : ¬ Disturbs emu (emu.load16 (getAddrPtr a))) :
    Alike (emu.setReg 0 (nextLine emu a)) (disassembleLine e) := by
  obtain ⟨hword, hfetch⟩ := fetch_line h
  have hpc : (fetch e).2.pc = a + 2 := hfetch.pc
  rw [disassembleLine, nextLine, hword]
  obtain ⟨w, hw⟩ : ∃ w, w = emu.load16 (getAddrPtr a) := ⟨_, rfl⟩
  rw [← hw] at hd ⊢
  rcases formatId_cases w with h0 | h1 | h3 | h4
  · rw [decode_invalid _ _ _ h0]
    simp only [h0]
    exact { hfetch with }
  · rw [decode_formatII _ _ _ h1, if_pos h1]
    simp only [decodeFormatII, if_true, operandsII_emu]
    have hinc : autoIncrementsII w = false := by
      by_contra hc
      exact hd ⟨h1, Or.inl (by simpa using hc)⟩
    refine { hfetch with regs := ?_ }
    intro n hn
    -- the program counter may be masked, another register only if that does not show
    by_cases hn0 : n = 0
    · simp only [hn0, regsII_zero_listed _ w hinc, hpc]
      simp
    · have hreg : (fetch e).2.regs n = emu.regs n := by
        have := hfetch.regs n hn
        simpa [hn0] using this
      simp only [regsII_of_ne _ w n hn0 hn (by simp [hinc]), hreg, Emulator.regs_setReg,
        if_neg hn0]
      split_ifs with hm
      · obtain ⟨hm, rfl⟩ := hm
        rw [mask_eq_self_iff]
        by_contra hhigh
        exact hd ⟨h1, Or.inr ⟨hm, hn0, hn, hhigh⟩⟩
      · rfl
  · have hlt : ¬ 4 ≤ formatId w := fun hc => absurd (le_trans hc h3.2) (by decide)
    rw [decode_formatIII _ _ _ h3, if_neg (formatId_ne_one h3.1), if_neg hlt]
    exact hfetch
  · have hne : formatId w ≠ 1 := formatId_ne_one (le_trans (by decide) h4)
    rw [decode_formatI _ _ _ h4, if_neg hne, if_pos h4]
    simp only [decodeFormatI, if_true, operandsI_emu]
    refine { hfetch with regs := ?_ }
    intro n hn
    have hreg := hfetch.regs n hn
    simp only [regsI_listed _ w hn, hreg]
    by_cases hn0 : n = 0
    · simp [hn0]
    · simp [hn0]

/-- **A line that disturbs** leaves its register changed. -/
theorem line_disturbs {emu e : Emulator} {a : BitVec 16} (h : Alike (emu.setReg 0 a) e)
    (hd : Disturbs emu (emu.load16 (getAddrPtr a))) :
    ∃ n, n ≠ 0 ∧ n ≠ 2 ∧ (disassembleLine e).regs n ≠ emu.regs n := by
  obtain ⟨hword, hfetch⟩ := fetch_line h
  rw [disassembleLine, hword]
  obtain ⟨w, hw⟩ : ∃ w, w = emu.load16 (getAddrPtr a) := ⟨_, rfl⟩
  rw [← hw] at hd ⊢
  obtain ⟨h1, hd⟩ := hd
  have hreg (n : Fin 16) (h0 : n ≠ 0) (h2 : n ≠ 2) : (fetch e).2.regs n = emu.regs n := by
    have := hfetch.regs n h2
    simpa [h0] using this
  have hline (n : Fin 16) :
      (decode (fetch e).2 w true).regs n = regsII (fetch e).2 w n := by
    rw [decode_formatII _ _ _ h1]
    simp only [decodeFormatII, if_true, operandsII_emu]
  refine ⟨lowReg w, ?_⟩
  rw [hline]
  rcases hd with hinc | ⟨hm, h0, h2, hhigh⟩
  · have hcond := hinc
    simp only [autoIncrementsII, Bool.and_eq_true, Option.isNone_iff_eq_none, beq_iff_eq,
      bne_iff_ne] at hcond
    obtain ⟨⟨hc, ha⟩, h0⟩ := hcond
    have h2 : lowReg w ≠ 2 := lowReg_ne_two hc (by rw [ha]; decide)
    have hm : masksOperand w = false := by
      by_contra hc
      exact not_autoIncrementsII_of_masksOperand (by simpa using hc) hinc
    have hlook : (lookupII (fetch e).2 w).regs (lowReg w) = emu.regs (lowReg w) := by
      rw [regs_lookupII_of_ne _ w h2, hreg _ h0 h2]
    refine ⟨h0, h2, ?_⟩
    have hne (v : BitVec 16) : v + increment (bwFlag w) ≠ v := by
      cases bwFlag w <;> simp only [increment] <;> bv_omega
    simpa [regsII, unmaskedII, hm, hlook, h0, hinc] using hne (emu.regs (lowReg w))
  · refine ⟨h0, h2, ?_⟩
    have hinc : ¬ (autoIncrementsII w = true ∧ lowReg w = lowReg w) := fun hc =>
      not_autoIncrementsII_of_masksOperand hm hc.1
    rw [regsII_of_ne _ w _ h0 h2 hinc, if_pos ⟨hm, rfl⟩, hreg _ h0 h2]
    exact fun he => hhigh ((mask_eq_self_iff _).mp he)

/-! ## The effect of a whole listing -/

/-- The state in which a listing starts. -/
def listingStart (emu : Emulator) (start : BitVec 16) : Emulator :=
  { emu with disassembleMode := true }.setReg 0 start

/-- `disassemble` is the iteration of its lines. -/
theorem disassemble_eq (emu : Emulator) (start : BitVec 16) (times : BitVec 8) :
    disassemble emu start times
      = { disassembleLine^[times.toNat] (listingStart emu start) with
          disassembleMode := false }.setReg 0 emu.pc := rfl

/-- Lines that disturb nothing, one after the other. -/
theorem listing_run (emu : Emulator) (start : BitVec 16) (i : ℕ)
    (h : ∀ j < i, ¬ Disturbs emu (lineWord emu start j)) :
    Alike (emu.setReg 0 ((nextLine emu)^[i] start))
      (disassembleLine^[i] (listingStart emu start)) := by
  induction i with
  | zero => exact { Alike.refl (emu.setReg 0 start) with }
  | succ i ih =>
    rw [Function.iterate_succ_apply', Function.iterate_succ_apply']
    exact line_keeps (ih fun j hj => h j (by omega)) (h i (by omega))

/-- A listing that disturbs nothing leaves an alike state. -/
theorem disassemble_alike (emu : Emulator) (start : BitVec 16) (times : BitVec 8)
    (h : ∀ i < times.toNat, ¬ Disturbs emu (lineWord emu start i)) :
    Alike emu (disassemble emu start times) := by
  have hrun := (listing_run emu start times.toNat h).setReg 0 emu.pc
  rw [disassemble_eq]
  refine { hrun with regs := ?_ }
  intro n hn
  have hreg := hrun.regs n hn
  rw [Emulator.regs_setReg] at hreg ⊢
  by_cases h0 : n = 0
  · rw [if_pos h0, h0]
    rfl
  · simpa [h0] using hreg

/-- **Listings leave the machine as it is exactly when no line disturbs**: up to a number of
lines, and the lines before the last. -/
theorem disassemble_transparent_iff (emu : Emulator) (start : BitVec 16) (times : BitVec 8) :
    (∀ k ≤ times, SameMachine emu (disassemble emu start k))
      ↔ ∀ i < times.toNat, ¬ Disturbs emu (lineWord emu start i) := by
  constructor
  · intro hsame i
    induction i using Nat.strong_induction_on with
    | _ i ih =>
      intro hi hd
      -- the lines before have disturbed nothing, and line `i` shows in a listing up to it
      have hrun := listing_run emu start i fun j hj => ih j hj (by omega)
      obtain ⟨n, h0, h2, hne⟩ := line_disturbs hrun hd
      have hlt := times.isLt
      have hk : (BitVec.ofNat 8 (i + 1)).toNat = i + 1 := by
        rw [BitVec.toNat_ofNat, Nat.mod_eq_of_lt (by omega)]
      have hle : BitVec.ofNat 8 (i + 1) ≤ times := by
        rw [BitVec.le_def, hk]
        omega
      have hreg := (hsame _ hle).1 n h2
      rw [disassemble_eq, hk, Function.iterate_succ_apply', Emulator.regs_setReg,
        if_neg h0] at hreg
      exact hne hreg
  · intro h k hk
    refine (disassemble_alike emu start k fun i hi => h i ?_).sameMachine
    rw [BitVec.le_def] at hk
    omega

/-! ## The main loop as an iteration -/

/-- What the main loop looks at between two instructions. -/
def Emulator.control (emu : Emulator) : Bool × Bool × ℕ := (emu.running, emu.quit, emu.numBps)

/-- States that agree on what the debugger keeps agree on that. -/
theorem control_congr {emu emu' : Emulator} (h : emu'.supervision = emu.supervision) :
    emu'.control = emu.control := by
  simp only [Emulator.supervision, Prod.mk.injEq] at h
  rw [Emulator.control, Emulator.control, h.1.1, h.2.1, h.2.2.1]

/-- A valid instruction leaves alone what the main loop looks at. -/
theorem control_cpuStep (emu : Emulator) (h : formatId (fetch emu).1 ≠ 0) :
    (cpuStep emu).control = emu.control := by
  have hdecode := supervision_decode (fetch emu).2 (fetch emu).1 false
  rw [if_neg h] at hdecode
  exact control_congr hdecode

/-- So do the peripheral handlers. -/
theorem control_handlePeripherals (emu : Emulator) :
    (handlePeripherals emu).control = emu.control :=
  control_congr (supervision_handlePeripherals emu)

/-- The next `k` instructions are valid, and none pushes an unassigned local. -/
def RunsPlainly (emu : Emulator) (k : ℕ) : Prop :=
  ∀ i < k, formatId (fetch (machineStep^[i] emu)).1 ≠ 0 ∧
    ¬ PushesSymbolic (fetch (machineStep^[i] emu)).1

/-- The next `k` instructions leave the DCO selected. -/
def StaysClocked (emu : Emulator) (k : ℕ) : Prop :=
  ∀ i < k, SelectsDco (cpuStep (machineStep^[i] emu))

instance (w : BitVec 16) : Decidable (PushesSymbolic w) :=
  inferInstanceAs (Decidable (Pushes w ∧ asFlag w = 1 ∧ lowReg w = 0))

instance (emu : Emulator) (k : ℕ) : Decidable (RunsPlainly emu k) :=
  inferInstanceAs (Decidable (∀ i < k, _ ∧ _))

instance (emu : Emulator) (k : ℕ) : Decidable (StaysClocked emu k) :=
  inferInstanceAs (Decidable (∀ i < k, _))

/-- A turn that meets no breakpoint. -/
theorem mainLoop_of_control {emu : Emulator} (h : emu.control = (true, false, 0)) :
    mainLoop emu = if SelectsDco (cpuStep emu) then some (machineStep emu) else none := by
  simp only [Emulator.control, Prod.mk.injEq] at h
  obtain ⟨hr, hq, hb⟩ := h
  have hbreak : handleBreakpoints emu = emu := by simp [handleBreakpoints, hb]
  rw [mainLoop_of_running hq hr, hbreak]

/-- **The main loop without breakpoints** runs one instruction after the other while the DCO is
selected. -/
theorem mainLoops_eq (emu : Emulator) (k : ℕ) (hcontrol : emu.control = (true, false, 0))
    (h : RunsPlainly emu k) (hclock : StaysClocked emu k) :
    mainLoops k emu = some (machineStep^[k] emu) := by
  induction k generalizing emu with
  | zero => rfl
  | succ k ih =>
    -- nothing stops the loop here, and the step changes nothing that could stop it later
    have hloop : mainLoop emu = some (machineStep emu) := by
      rw [mainLoop_of_control hcontrol]
      exact if_pos (hclock 0 (by omega))
    have hstep : (machineStep emu).control = (true, false, 0) := by
      rw [machineStep, control_handlePeripherals, control_cpuStep emu (h 0 (by omega)).1,
        hcontrol]
    rw [mainLoops_succ, hloop, Option.bind_some, Function.iterate_succ_apply]
    exact ih (machineStep emu) hstep (fun i hi => h (i + 1) (by omega))
      fun i hi => hclock (i + 1) (by omega)

/-! ## Commands and the main loop -/

/-- The listing at the end of a command. -/
def list (emu : Emulator) : Emulator := disassemble emu emu.pc 1

/-- Whether the listing of the next instruction disturbs depends on the machine only. -/
theorem Alike.disturbs_iff {emu emu' : Emulator} (h : Alike emu emu') (w : BitVec 16) :
    Disturbs emu' w ↔ Disturbs emu w := by
  unfold Disturbs
  by_cases h2 : lowReg w = 2
  · simp [h2]
  · rw [h.regs _ h2]

/-- A listing that does not disturb is not seen. -/
theorem Alike.list {emu emu' : Emulator} (h : Alike emu emu')
    (hd : ¬ Disturbs emu (fetch emu).1) : Alike emu (list emu') := by
  refine h.trans (disassemble_alike emu' emu'.pc 1 fun i hi => ?_)
  have h0 : i = 0 := by
    have h1 : (1 : BitVec 8).toNat = 1 := rfl
    omega
  rw [h0, h.disturbs_iff, show lineWord emu' emu'.pc 0 = (fetch emu').1 from rfl, h.fetch_fst]
  exact hd

/-- **A session of steps and listings** ends like the run of its steps. -/
theorem session_alike {emu emu' : Emulator} (l : List Observation.Action)
    (hl : Observation.Allowed machineStep (fun e => ¬ PushesSymbolic (fetch e).1)
      (fun e => ¬ Disturbs e (fetch e).1) l emu) (h : Alike emu emu') :
    Alike (machineStep^[Observation.steps l] emu)
      (Observation.run machineStep Msp430.list l emu') :=
  Observation.run_rel (fun _ _ hs h => h.machineStep hs) (fun _ _ hd h => h.list hd) l hl h

/-- The `step` command, as a session. -/
def stepSession (steps : BitVec 32) : List Observation.Action :=
  List.replicate steps.toNat .step ++ [.look]

theorem execStep_eq_run (emu : Emulator) (steps : BitVec 32) :
    execStep emu steps = Observation.run machineStep list (stepSession steps) emu := by
  rw [stepSession, Observation.run_append, Observation.run_replicate]
  rfl

theorem steps_stepSession (steps : BitVec 32) :
    Observation.steps (stepSession steps) = steps.toNat := by
  simp [stepSession, Observation.steps]

/-- A `step` command whose instructions run plainly and whose listing does not disturb. -/
theorem allowed_stepSession (emu : Emulator) (steps : BitVec 32)
    (hplain : RunsPlainly emu steps.toNat)
    (hlist : ¬ Disturbs (machineStep^[steps.toNat] emu)
      (fetch (machineStep^[steps.toNat] emu)).1) :
    Observation.Allowed machineStep (fun e => ¬ PushesSymbolic (fetch e).1)
      (fun e => ¬ Disturbs e (fetch e).1) (stepSession steps) emu := by
  rw [stepSession, Observation.allowed_append, Observation.allowed_replicate,
    Observation.steps_replicate]
  exact ⟨fun k hk => (hplain k hk).2, hlist, trivial⟩

/-- Alike states select the same source. -/
theorem Alike.selectsDco_iff {emu emu' : Emulator} (h : Alike emu emu') :
    SelectsDco emu' ↔ SelectsDco emu := by
  simp only [SelectsDco, bcsctl2, Emulator.load8, h.mem]

/-- The main loop after the `run` command ends like the steps. -/
theorem mainLoops_alike (emu : Emulator) (k : ℕ) (hquit : emu.quit = false)
    (hbps : emu.numBps = 0) (hplain : RunsPlainly emu k) (hclock : StaysClocked emu k) :
    ∃ e, mainLoops k (execRun emu) = some e ∧ Alike (machineStep^[k] emu) e := by
  have hstart : Alike emu (execRun emu) := { Alike.refl emu with }
  have hiter (i : ℕ) (hi : i ≤ k) :
      Alike (machineStep^[i] emu) (machineStep^[i] (execRun emu)) := by
    have hl := session_alike (List.replicate i .step)
      ((Observation.allowed_replicate _ _ _ _ _).mpr fun j hj =>
        (hplain j (by omega)).2) hstart
    rwa [Observation.steps_replicate, Observation.run_replicate] at hl
  have hcontrol : (execRun emu).control = (true, false, 0) := by
    simp [execRun, Emulator.control, hquit, hbps]
  refine ⟨_, mainLoops_eq _ _ hcontrol ?_ ?_, hiter k le_rfl⟩
  · intro i hi
    rw [(hiter i (by omega)).fetch_fst]
    exact hplain i hi
  · intro i hi
    rw [((hiter i (by omega)).cpuStep (hplain i hi).2).selectsDco_iff]
    exact hclock i hi

/-- **Commands and the main loop end alike** when the listings between do not disturb. -/
theorem commands_agree (emu : Emulator) (m n : BitVec 32)
    (hmn : m.toNat + n.toNat < 2 ^ 32) (hquit : emu.quit = false) (hbps : emu.numBps = 0)
    (hplain : RunsPlainly emu (m.toNat + n.toNat))
    (hclock : StaysClocked emu (m.toNat + n.toNat))
    (hm : ¬ Disturbs (machineStep^[m.toNat] emu) (fetch (machineStep^[m.toNat] emu)).1)
    (hn : ¬ Disturbs (machineStep^[m.toNat + n.toNat] emu)
      (fetch (machineStep^[m.toNat + n.toNat] emu)).1) :
    ∃ e, mainLoops (m.toNat + n.toNat) (execRun emu) = some e ∧
      Alike e (execStep (execStep emu m) n) ∧ Alike e (execStep emu (m + n)) := by
  obtain ⟨e, he, hloop⟩ := mainLoops_alike emu _ hquit hbps hplain hclock
  have hsum : (m + n).toNat = m.toNat + n.toNat := by
    rw [BitVec.toNat_add, Nat.mod_eq_of_lt hmn]
  have hadd (k : ℕ) :
      machineStep^[m.toNat + k] emu = machineStep^[k] (machineStep^[m.toNat] emu) := by
    rw [Nat.add_comm, Function.iterate_add_apply]
  have hfirst := allowed_stepSession emu m (fun i hi => hplain i (by omega)) hm
  have hsecond : Observation.Allowed machineStep (fun e => ¬ PushesSymbolic (fetch e).1)
      (fun e => ¬ Disturbs e (fetch e).1) (stepSession n) (machineStep^[m.toNat] emu) := by
    refine allowed_stepSession _ n ?_ ?_
    · intro i hi
      rw [← hadd]
      exact hplain (m.toNat + i) (by omega)
    · rwa [← hadd]
  -- both command sequences are sessions, with two listings and with one
  refine ⟨e, he, ?_, ?_⟩
  · have hl := session_alike (stepSession m ++ stepSession n)
      ((Observation.allowed_append _ _ _ _ _ _).mpr
        ⟨hfirst, by rwa [steps_stepSession]⟩) (Alike.refl emu)
    rw [Observation.steps_append, steps_stepSession, steps_stepSession,
      Observation.run_append, ← execStep_eq_run, ← execStep_eq_run] at hl
    exact hloop.symm.trans hl
  · have hl := session_alike (stepSession (m + n))
      (allowed_stepSession emu (m + n) (by rwa [hsum]) (by rwa [hsum])) (Alike.refl emu)
    rw [steps_stepSession, hsum, ← execStep_eq_run] at hl
    exact hloop.symm.trans hl

/-! ## Both -/

/-- **Debugging is transparent, but for the listing of single-operand instructions.**  A
listing leaves the machine as it is exactly when none of its lines increments or masks a
register.  Where the listings at the end of the commands do not, and the instructions leave the
DCO selected, the main loop comes through its turns, and `step m` then `step n` and
`step (m + n)` end as it does. -/
theorem debugging_transparent (emu : Emulator) (start : BitVec 16) (times : BitVec 8) :
    ((∀ k ≤ times, SameMachine emu (disassemble emu start k))
        ↔ ∀ i < times.toNat, ¬ Disturbs emu (lineWord emu start i)) ∧
      ∀ m n : BitVec 32, m.toNat + n.toNat < 2 ^ 32 → emu.quit = false → emu.numBps = 0 →
        RunsPlainly emu (m.toNat + n.toNat) → StaysClocked emu (m.toNat + n.toNat) →
        ¬ Disturbs (machineStep^[m.toNat] emu) (fetch (machineStep^[m.toNat] emu)).1 →
        ¬ Disturbs (machineStep^[m.toNat + n.toNat] emu)
          (fetch (machineStep^[m.toNat + n.toNat] emu)).1 →
        ∃ e, mainLoops (m.toNat + n.toNat) (execRun emu) = some e ∧
          SameMachine e (execStep (execStep emu m) n) ∧ SameMachine e (execStep emu (m + n)) := by
  refine ⟨disassemble_transparent_iff emu start times, ?_⟩
  intro m n hmn hquit hbps hplain hclock hm hn
  obtain ⟨e, he, htwo, hone⟩ := commands_agree emu m n hmn hquit hbps hplain hclock hm hn
  exact ⟨e, he, htwo.sameMachine, hone.sameMachine⟩

/-- The listing of `RRC.B R5` clears the high byte of `R5`. -/
theorem debugging_not_transparent :
    ¬ SameMachine ((startState.setWords [(0xC000, 0x1045)]).setReg 5 0x1234)
      (disassemble ((startState.setWords [(0xC000, 0x1045)]).setReg 5 0x1234) 0xC000 1) := by
  rintro ⟨hregs, -⟩
  have h5 := hregs 5 (by decide)
  revert h5
  decide

/-- Three times `ADD #1, R5`. -/
def countingStart : Emulator :=
  startState.setWords [(0xC000, 0x5315), (0xC002, 0x5315), (0xC004, 0x5315)]

/-- Two steps of counting, and the listing of three. -/
theorem debugging_transparent_counting :
    SameMachine countingStart (disassemble countingStart 0xC000 3) ∧
      ∃ e, mainLoops 2 (execRun countingStart) = some e ∧
        SameMachine e (execStep (execStep countingStart 1) 1) := by
  refine ⟨(debugging_transparent countingStart 0xC000 3).1.mpr ?_ 3 (BitVec.le_refl 3), ?_⟩
  · intro i hi
    have hlt : i < 3 := hi
    interval_cases i <;> decide
  · have hruns := (debugging_transparent countingStart 0xC000 3).2 1 1 (by decide) rfl rfl
      ?_ ?_ (by decide) (by decide)
    · obtain ⟨e, he, htwo, -⟩ := hruns
      exact ⟨e, he, htwo⟩
    · intro i hi
      have hlt : i < 2 := hi
      interval_cases i <;> exact ⟨by decide, fun h => absurd h.1.1 (by decide)⟩
    · intro i hi
      have hlt : i < 2 := hi
      interval_cases i <;> decide

end Msp430
