/-
# The panel of registers

The client shows the registers in a panel, and dots while the machine runs.  The program sends
the registers when a command has been executed, at PLAY and at PAUSE, and at no other time:
`panel_follows` says what the panel shows of a machine that stands, in any interleaving of the
threads.  A message that is handled between `handle_breakpoints` and the instruction is answered
with registers that the instruction then changes; without one the panel is never out of date.
-/
import Msp430.Transcript

namespace Msp430

open CString Emission Reachability

/-! ## Operations and the panel -/

/-- `"...."` in every place. -/
def dots : Fin 16 → Str := fun _ => bytes "...."

/-- What `update_register_display` is to show. -/
def panelOf (emu : Emulator) : Fin 16 → Str := if emu.running then dots else registerText emu

/-- The operation does not change the panel. -/
def Operation.LeavesPanel (op : Operation) : Prop := ∀ c, (op.shown c).panel = c.panel

section Shown

variable (c : Client) (emu : Emulator)

theorem Operation.Aside.leavesPanel {op : Operation} (h : op.Aside) : op.LeavesPanel := by
  intro c
  cases op with
  | printConsole buf => rfl
  | sendControl opcode data =>
    obtain ⟨rfl, -⟩ := h
    rfl
  | printSerial buf => exact h.elim
  | serverWriteable p1 => exact h.elim

theorem panel_foldl_leaves {ops : List Operation} (h : ∀ op ∈ ops, op.LeavesPanel) :
    (ops.foldl Operation.shown c).panel = c.panel := by
  induction ops generalizing c with
  | nil => rfl
  | cons op ops ih =>
    obtain ⟨hop, hops⟩ := List.forall_mem_cons.mp h
    rw [List.foldl_cons, ih _ hops, hop c]

/-- The packet of a register. -/
theorem panel_control_register (n : Fin 16) (text : Str) :
    (c.control (updateRegPacket n) text).panel = Function.update c.panel n text := by
  have hcode : ∀ n : Fin 16, ¬ (updateRegPacket n).toNat < 0x10 ∧
      (updateRegPacket n).toNat < 0x20 ∧
      Fin.ofNat 16 ((updateRegPacket n).toNat - 0x10) = n := by decide
  obtain ⟨hpin, hreg, hn⟩ := hcode n
  simp only [Client.control, if_neg hpin, if_pos hreg, hn]

/-- The registers one after the other. -/
theorem panel_foldl_registers (l : List (Fin 16)) :
    ((l.map fun n => Operation.sendControl (updateRegPacket n)
        (some (registerText emu n))).foldl Operation.shown c).panel
      = fun m => if m ∈ l then registerText emu m else c.panel m := by
  induction l generalizing c with
  | nil =>
    funext m
    simp
  | cons n l ih =>
    rw [List.map_cons, List.foldl_cons, ih]
    funext m
    have hn : (Operation.shown c (.sendControl (updateRegPacket n)
        (some (registerText emu n)))).panel = Function.update c.panel n (registerText emu n) :=
      panel_control_register c n _
    rw [hn]
    by_cases hm : m = n
    · subst hm
      simp
    · rw [Function.update_of_ne hm]
      simp [hm]

/-- **`update_register_display` shows the whole panel**, whatever it showed before. -/
theorem panel_updateRegisterDisplay (ops : List Operation) :
    ((ops ++ updateRegisterDisplay emu).foldl Operation.shown c).panel = panelOf emu := by
  rw [List.foldl_append, updateRegisterDisplay, panelOf]
  by_cases hrun : emu.running = true
  · rw [if_pos hrun, if_pos hrun]
    rfl
  · rw [if_neg hrun, if_neg hrun, panel_foldl_registers]
    funext m
    rw [if_pos (List.mem_finRange m)]

/-- **The two displays agree**: read back, the text on the console has the registers and the
flags of the machine, as the panel of a machine that stands has the registers, whatever was
shown before; and the text fits `full[1000]`, with the colours of the console or without. -/
theorem displays_agree :
    (∀ n, registerIn (displayRegisters false emu) n = some (shownValue emu n)) ∧
      (flagIn (displayRegisters false emu) (bytes "C:") = some emu.sr.carry ∧
        flagIn (displayRegisters false emu) (bytes "Z:") = some emu.sr.zero ∧
        flagIn (displayRegisters false emu) (bytes "N:") = some emu.sr.negative ∧
        flagIn (displayRegisters false emu) (bytes "V:") = some emu.sr.overflow) ∧
      (∀ ops n, emu.running = false →
        (scanHex (((ops ++ updateRegisterDisplay emu).foldl Operation.shown c).panel n)).map
          (fun r => r.1.setWidth 16) = some (shownValue emu n)) ∧
      ∀ consoleInterface, (displayRegisters consoleInterface emu).length < 1000 := by
  refine ⟨registerIn_displayRegisters emu, flagIn_displayRegisters emu, ?_, ?_⟩
  · intro ops n hstands
    rw [panel_updateRegisterDisplay, panelOf, if_neg (by rw [hstands]; decide)]
    exact scanHex_registerText emu n
  · intro consoleInterface
    rw [length_displayRegisters]
    split_ifs <;> omega

/-- One instruction leaves the panel. -/
theorem StepOutput.panel {ops : List Operation} (h : StepOutput emu ops) :
    (ops.foldl Operation.shown c).panel = c.panel := by
  obtain ⟨asides, hasides, rfl⟩ := h.split
  apply panel_foldl_leaves
  intro op hop
  rcases List.mem_append.mp hop with hop | hop
  · exact (hasides op hop).leavesPanel
  · rcases usciOutput_cases (mirrored (cpuStep emu)) with ⟨hout, -⟩ | ⟨b, -, hout, -⟩
    · rw [← mirrored, hout] at hop
      cases hop
    · rw [← mirrored, hout] at hop
      obtain rfl := List.mem_singleton.mp hop
      exact fun _ => rfl

end Shown

/-! ## What happens to the panel -/

/-- What happens, as far as the panel is concerned: the registers are shown; nothing happens to
them; the head of the loop of `main`; or an instruction. -/
inductive PanelStep (p p' : Program) (a : Happening) (c : Client) (panel : Fin 16 → Str) :
    Prop where
  | shown (hmain : p'.main = .head ∨ p'.main = p.main ∧ ∃ m, a = .program (.message m))
      (hpanel : panel = panelOf p'.host.emu)
  | idle (hmain : p'.main = p.main) (hrun : p'.host.emu.running = p.host.emu.running)
      (hregs : shownValue p'.host.emu = shownValue p.host.emu) (hnone : p.executes a = [])
      (hpanel : panel = c.panel)
  | head (hmain : p.main = .head ∧ p'.main = .decode) (hrun : p.host.emu.running = true)
      (hpanel : panel = c.panel)
  | body (hmain : p.main = .decode ∧ p'.main = .head)
      (hemu : p'.host.emu = machineStep p.host.emu) (hone : p.executes a = [p.host.emu])
      (hpanel : panel = c.panel)

theorem running_deliver (emu : Emulator) (b : BitVec 8) :
    (deliver emu b).running = emu.running ∧ shownValue (deliver emu b) = shownValue emu := by
  unfold deliver
  split_ifs <;> exact ⟨rfl, rfl⟩

/-- The four cases; only a message or the start of the machine shows the registers. -/
theorem Program.Queues.panelStep {p p' : Program} {a : Happening} {ops : List Operation}
    (ho : p.Queues a ops) (hstep : p.happen a = some p') (c : Client) :
    PanelStep p p' a c (ops.foldl Operation.shown c).panel := by
  cases a with
  | writeable =>
    obtain rfl : ops = _ := ho
    obtain rfl := Option.some.inj hstep
    exact .idle rfl rfl rfl rfl rfl
  | input b =>
    obtain rfl : ops = [] := ho
    simp only [Program.happen] at hstep
    split_ifs at hstep
    obtain rfl := Option.some.inj hstep
    obtain ⟨hrun, hregs⟩ := running_deliver p.host.emu b
    exact .idle rfl hrun hregs rfl rfl
  | program a =>
    change p.StepOutput ops a at ho
    change p.step a = some p' at hstep
    cases a with
    | message m =>
      simp only [Program.step] at hstep
      split_ifs at hstep
      obtain ⟨h', hreceive, rfl⟩ := Option.map_eq_some_iff.mp hstep
      rcases ReceiveOutput.cases ho hreceive with ⟨rfl, hemu, hnone⟩ | ⟨out, -, rfl⟩
      · exact .idle rfl (by rw [hemu]) (by rw [hemu]) hnone rfl
      · exact .shown (.inr ⟨rfl, m, rfl⟩) (panel_updateRegisterDisplay c _ out)
    | initialise tmpBin =>
      simp only [Program.step] at hstep
      split_ifs at hstep
      obtain ⟨emu, hinit, rfl⟩ := Option.map_eq_some_iff.mp hstep
      obtain rfl : ops = initialiseOutput tmpBin p.host.emu := ho
      obtain ⟨out, -, hout⟩ := reports_initialise hinit
      rw [hout]
      exact .shown (.inl rfl) (panel_updateRegisterDisplay c emu out)
    | main =>
      simp only [Program.StepOutput] at ho
      simp only [Program.step] at hstep
      cases hmain : p.main with
      | waiting =>
        rw [hmain] at ho hstep
        obtain rfl := Option.some.inj hstep
        refine .idle rfl rfl rfl (if_neg (by rw [hmain]; decide)) ?_
        rcases ho with rfl | ⟨text, rfl⟩ <;> rfl
      | head =>
        rw [hmain] at ho hstep
        dsimp only at ho hstep
        split_ifs at hstep with hquit hrun
        · obtain rfl := Option.some.inj hstep
          rw [if_neg (by simpa using hrun)] at ho
          obtain rfl := ho
          exact .idle rfl rfl rfl (if_neg (by rw [hmain]; decide)) rfl
        · obtain rfl := Option.some.inj hstep
          rw [Bool.not_eq_true, Bool.not_eq_false'] at hrun
          rw [if_pos hrun] at ho
          obtain rfl := ho
          refine .head ⟨hmain, rfl⟩ hrun (panel_foldl_leaves c ?_)
          exact fun op hop => (aside_breakpointOutput op hop).leavesPanel
      | decode =>
        rw [hmain] at ho hstep
        obtain rfl := Option.some.inj hstep
        exact .body ⟨hmain, rfl⟩ rfl (if_pos hmain) (StepOutput.panel c _ ho)

/-! ## What the panel shows -/

/-- No message is handled between `handle_breakpoints` and the instruction. -/
def Undisturbed (p : Program) (a : Happening) : Prop :=
  ∀ m, a = .program (.message m) → p.main ≠ .decode

/-- The panel shows the registers as they were before the last instruction of the trail, which
has made them what they are. -/
def OneBehind (p : Program) (trail : List Emulator) (panel : Fin 16 → Str) : Prop :=
  p.main = .head ∧ ∃ e, trail.getLast? = some e ∧
    shownValue p.host.emu = shownValue (machineStep e) ∧ panel = registerText e

/-- What the panel shows: dots while the machine runs, and of a machine that stands dots, the
registers, or the registers before the last instruction. -/
structure PanelFollows (p : Program) (trail : List Emulator) (panel : Fin 16 → Str) : Prop where
  runs : p.host.emu.running = true → panel = dots
  stands : p.host.emu.running = false →
    panel = dots ∨ panel = registerText p.host.emu ∨ OneBehind p trail panel

/-- What it shows as long as nothing is disturbed. -/
structure PanelTrue (p : Program) (panel : Fin 16 → Str) : Prop where
  runs : p.host.emu.running = true → panel = dots
  stands : p.host.emu.running = false → panel = dots ∨ panel = registerText p.host.emu
  decode : p.main = .decode → panel = dots

theorem registerText_congr {emu emu' : Emulator} (h : shownValue emu' = shownValue emu) :
    registerText emu' = registerText emu := by
  funext n
  rw [registerText, registerText, h]

theorem panelOf_cases (emu : Emulator) :
    (emu.running = true → panelOf emu = dots) ∧
      (emu.running = false → panelOf emu = registerText emu) := by
  constructor
  · intro h
    rw [panelOf, if_pos h]
  · intro h
    rw [panelOf, h]
    rfl

/-- An instruction does not start the machine. -/
theorem running_of_machineStep {emu : Emulator} (h : (machineStep emu).running = true) :
    emu.running = true := by
  rcases keepsModes_machineStep emu with hkeep | hhalt
  · rw [← h]
    exact (congrArg Prod.fst hkeep).symm
  · have hstopped : (machineStep emu).running = false := congrArg Prod.fst hhalt
    rw [hstopped] at h
    cases h

section Steps

variable {p p' : Program} {a : Happening} {c : Client} {panel : Fin 16 → Str}
  {trail : List Emulator}

/-- **One step** of the panel, in any interleaving. -/
theorem PanelStep.follows (h : PanelStep p p' a c panel)
    (hp : p.main ≠ .waiting → PanelFollows p trail c.panel) (hset : p'.main ≠ .waiting) :
    PanelFollows p' (trail ++ p.executes a) panel := by
  cases h with
  | shown hmain hpanel =>
    obtain ⟨hruns, hstands⟩ := panelOf_cases p'.host.emu
    exact ⟨fun h => hpanel.trans (hruns h), fun h => .inr (.inl (hpanel.trans (hstands h)))⟩
  | idle hmain hrun hregs hnone hpanel =>
    have hold := hp (hmain ▸ hset)
    rw [hpanel, hnone, List.append_nil]
    refine ⟨fun h => hold.runs (hrun ▸ h), ?_⟩
    intro hstand
    rcases hold.stands (hrun ▸ hstand) with hdots | htext | ⟨hhead, e, hlast, hvalues, htext⟩
    · exact .inl hdots
    · exact .inr (.inl (htext.trans (registerText_congr hregs).symm))
    · exact .inr (.inr ⟨hmain.trans hhead, e, hlast, hregs.trans hvalues, htext⟩)
  | head hmain hrun hpanel =>
    have hold := hp (by rw [hmain.1]; simp)
    have hdots := hpanel.trans (hold.runs hrun)
    exact ⟨fun _ => hdots, fun _ => .inl hdots⟩
  | body hmain hemu hone hpanel =>
    have hold := hp (by rw [hmain.1]; simp)
    rw [hpanel, hone]
    constructor
    · intro hrun
      rw [hemu] at hrun
      exact hold.runs (running_of_machineStep hrun)
    · intro _
      cases hrun : p.host.emu.running with
      | true => exact .inl (hold.runs hrun)
      | false =>
        rcases hold.stands hrun with hdots | htext | ⟨hhead, -⟩
        · exact .inl hdots
        · exact .inr (.inr ⟨hmain.2, p.host.emu, List.getLast?_concat, by rw [hemu], htext⟩)
        · rw [hmain.1] at hhead
          cases hhead

/-- **One step** of the panel that is not disturbed. -/
theorem PanelStep.keepsTrue (h : PanelStep p p' a c panel) (hquiet : Undisturbed p a)
    (hp : p.main ≠ .waiting → PanelTrue p c.panel) (hset : p'.main ≠ .waiting) :
    PanelTrue p' panel := by
  cases h with
  | shown hmain hpanel =>
    obtain ⟨hruns, hstands⟩ := panelOf_cases p'.host.emu
    refine ⟨fun h => hpanel.trans (hruns h), fun h => .inr (hpanel.trans (hstands h)), ?_⟩
    intro hdecode
    rcases hmain with hhead | ⟨hsame, m, rfl⟩
    · rw [hhead] at hdecode
      cases hdecode
    · exact absurd (hsame ▸ hdecode) (hquiet m rfl)
  | idle hmain hrun hregs _ hpanel =>
    have hold := hp (hmain ▸ hset)
    rw [hpanel]
    refine ⟨fun h => hold.runs (hrun ▸ h), ?_, fun h => hold.decode (hmain ▸ h)⟩
    intro hstand
    rcases hold.stands (hrun ▸ hstand) with hdots | htext
    · exact .inl hdots
    · exact .inr (htext.trans (registerText_congr hregs).symm)
  | head hmain hrun hpanel =>
    have hold := hp (by rw [hmain.1]; simp)
    have hdots := hpanel.trans (hold.runs hrun)
    exact ⟨fun _ => hdots, fun _ => .inl hdots, fun _ => hdots⟩
  | body hmain _ _ hpanel =>
    have hold := hp (by rw [hmain.1]; simp)
    have hdots := hpanel.trans (hold.decode hmain.1)
    exact ⟨fun _ => hdots, fun _ => .inl hdots, fun _ => hdots⟩

end Steps

section Runs

variable {P : Program → Happening → Prop} {ops : List Operation} {trail : List Emulator}
  {p : Program}

/-- The panel in any interleaving. -/
theorem Transcript.panelFollows (h : Transcript P startProgram ops trail p)
    (hset : p.main ≠ .waiting) :
    PanelFollows p trail (ops.foldl Operation.shown .start).panel := by
  refine h.observed
    (I := fun p trail (c : Client) => p.main ≠ .waiting → PanelFollows p trail c.panel)
    (fun hc => absurd rfl hc) ?_ hset
  intro p a p' trail more c hp _ hstep hprints hset
  exact (Program.Queues.panelStep hprints hstep c).follows hp hset

/-- The panel as long as nothing is disturbed. -/
theorem Transcript.panelTrue (h : Transcript P startProgram ops trail p)
    (hquiet : ∀ p a, P p a → Undisturbed p a) (hset : p.main ≠ .waiting) :
    PanelTrue p (ops.foldl Operation.shown .start).panel := by
  refine h.observed (I := fun p _ (c : Client) => p.main ≠ .waiting → PanelTrue p c.panel)
    (fun hc => absurd rfl hc) ?_ hset
  intro p a p' _ more c hp hpa hstep hprints hset
  exact (Program.Queues.panelStep hprints hstep c).keepsTrue (hquiet p a hpa) hp hset

/-- **The panel in every interleaving**: once the machine is set up, dots while it runs; of a
machine that stands, dots, its registers, or the registers before the last instruction of the run,
and these only where a message came between `handle_breakpoints` and the instruction. -/
theorem panel_follows (h : Transcript P startProgram ops trail p) (hset : p.main ≠ .waiting) :
    PanelFollows p trail (ops.foldl Operation.shown .start).panel ∧
      ((∀ p a, P p a → Undisturbed p a) → PanelTrue p (ops.foldl Operation.shown .start).panel) :=
  ⟨h.panelFollows hset, fun hquiet => h.panelTrue hquiet hset⟩

end Runs

/-! ## One instruction behind -/

section Steps

variable {P : Program → Happening → Prop} {start p : Program} {ops : List Operation}
  {trail : List Emulator}

/-- A step of the program in a transcript. -/
theorem Transcript.program {p' : Program} {more : List Operation}
    (h : Transcript P start ops trail p) (a : ProgramStep) (hP : P p (.program a))
    (hstep : p.step a = some p') (hout : p.StepOutput more a) :
    Transcript P start (ops ++ more) (trail ++ p.executes (.program a)) p' :=
  Emits.step (a := Happening.program a) h hP hstep hout

/-- A step of the program that executes nothing. -/
theorem Transcript.aside {p' : Program} {more : List Operation}
    (h : Transcript P start ops trail p) (a : ProgramStep) (hP : P p (.program a))
    (hstep : p.step a = some p') (hout : p.StepOutput more a)
    (hnone : p.executes (.program a) = []) : Transcript P start (ops ++ more) trail p' := by
  have hnext := h.program a hP hstep hout
  rwa [hnone, List.append_nil] at hnext

/-- A message that is no console line executes nothing. -/
theorem receiveExecutes_of_ne (h : Host) {m : Message} (hop : m.byteAt 0 ≠ 0x04) :
    receiveExecutes h m = [] := by
  unfold receiveExecutes
  split_ifs <;> rfl

/-- PLAY in a transcript. -/
theorem Transcript.play (h : Transcript P start ops trail p)
    (hP : P p (.program (.message (opcodeMessage 0x01))))
    (hidle : p.host.upload.inProgress = false) :
    Transcript P start (ops ++ updateRegisterDisplay (execRun p.host.emu)) trail
      { p with host := receivePlay p.host } := by
  refine h.aside _ hP (step_play hidle) ?_
    (receiveExecutes_of_ne _ (show (0x01 : BitVec 8) ≠ 0x04 by decide))
  show ReceiveOutput p.host (opcodeMessage 0x01) _
  rw [ReceiveOutput, if_neg (by simp [hidle])]
  rfl

/-- PAUSE in a transcript, once the machine is set up. -/
theorem Transcript.pause (h : Transcript P start ops trail p)
    (hP : P p (.program (.message (opcodeMessage 0x02))))
    (hidle : p.host.upload.inProgress = false) (hset : p.main ≠ .waiting)
    (hrun : p.host.emu.running = true) :
    ∃ out, Transcript P start (ops ++ (out ++ updateRegisterDisplay (pauseRun p.host.emu))) trail
      { p with host := { p.host with emu := pauseRun p.host.emu } } := by
  have hpause : p.step (.message (opcodeMessage 0x02))
      = some { p with host := { p.host with emu := pauseRun p.host.emu } } := by
    have hreceive : receive p.host (opcodeMessage 0x02)
        = some { p.host with emu := pauseRun p.host.emu } := by
      rw [receive, if_neg (by simp [hidle])]
      show some (receivePause p.host) = _
      rw [receivePause, pauseRun, if_pos hrun, if_pos hrun]
    simp only [Program.step, hreceive]
    simp [hset]
  refine ⟨showMachine { p.host.emu with running := false, debugMode := true },
    h.aside _ hP hpause ?_
      (receiveExecutes_of_ne _ (show (0x02 : BitVec 8) ≠ 0x04 by decide))⟩
  show ReceiveOutput p.host (opcodeMessage 0x02) _
  rw [ReceiveOutput, if_neg (by simp [hidle])]
  show if _ then _ else _
  rw [if_pos hrun, pauseRun, if_pos hrun]

/-- The two halves of a turn of `main`. -/
theorem Transcript.head (h : Transcript P start ops trail p) (hP : P p (.program .main))
    (hmain : p.main = .head) (hquit : p.host.emu.quit = false)
    (hrun : p.host.emu.running = true) :
    Transcript P start (ops ++ breakpointOutput p.host.emu) trail
      { host := { p.host with emu := handleBreakpoints p.host.emu }, main := .decode } := by
  refine h.aside .main hP ?_ ?_ (if_neg (by rw [hmain]; decide))
  · simp [Program.step, hmain, hquit, hrun]
  · simp [Program.StepOutput, hmain, hrun]

theorem Transcript.body (h : Transcript P start ops trail p) (hP : P p (.program .main))
    (hmain : p.main = .decode) :
    ∃ out, StepOutput p.host.emu out ∧
      Transcript P start (ops ++ out) (trail ++ [p.host.emu])
        { host := { p.host with emu := machineStep p.host.emu }, main := .head } := by
  have hout : StepOutput p.host.emu (executeOutput (fetch p.host.emu).1 ++ [] ++
      usciOutput (handlePort1 (handleTimerA (handleBcm (cpuStep p.host.emu))))) :=
    ⟨[], .inl rfl, rfl⟩
  have hone : p.executes (.program .main) = [p.host.emu] := if_pos hmain
  refine ⟨_, hout, hone ▸ h.program .main hP ?_ ?_⟩
  · simp [Program.step, hmain]
  · simp only [Program.StepOutput, hmain]
    exact hout

end Steps

/-- **PLAY, and PAUSE behind `handle_breakpoints`**: from any machine that stands the panel is left
one instruction behind. -/
theorem Transcript.behind {p : Program} {ops : List Operation} {trail : List Emulator}
    (h : Transcript Anything startProgram ops trail p) (hidle : p.host.upload.inProgress = false)
    (hmain : p.main = .head) {e : Emulator} (he : e = handleBreakpoints (execRun p.host.emu))
    (hquit : p.host.emu.quit = false) (hrun : e.running = true) :
    ∃ ops' p', Transcript Anything startProgram ops' (trail ++ [pauseRun e]) p' ∧
      p'.main = .head ∧ p'.host.emu = machineStep (pauseRun e) ∧
      (ops'.foldl Operation.shown .start).panel = panelOf (pauseRun e) := by
  subst he
  have hset : (MainStage.decode : MainStage) ≠ .waiting := by decide
  obtain ⟨out, hpaused⟩ :=
    ((h.play trivial hidle).head trivial hmain hquit rfl).pause trivial hidle hset hrun
  obtain ⟨last, hlast, hbehind⟩ := hpaused.body trivial rfl
  refine ⟨_, _, hbehind, rfl, rfl, ?_⟩
  rw [List.foldl_append, StepOutput.panel _ _ hlast, ← List.append_assoc,
    panel_updateRegisterDisplay]
  rfl

/-- The machine with `MOV #1, R5` that has been told to run. -/
def movePlaying : Emulator := handleBreakpoints (execRun (firmwareStart moveFirmware))

theorem movePlaying_values : movePlaying.running = true ∧
    (firmwareStart moveFirmware).quit = false ∧ (machineStep (pauseRun movePlaying)).regs 5 = 1 ∧
    panelOf (pauseRun movePlaying) 5 = bytes "0000" := by
  decide +kernel

/-- A firmware is uploaded, and the machine set up with it. -/
theorem transcript_firmware (P : Program → Happening → Prop) {image : List (BitVec 8)}
    (hfit : image.length ≤ 0x4000) (hmessage : ∀ p m, P p (.program (.message m)))
    (hinit : ∀ p tmpBin, P p (.program (.initialise tmpBin))) :
    ∃ ops p, Transcript P startProgram ops [] p ∧ p.main = .head ∧
      p.host.upload.inProgress = false ∧ p.host.emu = firmwareStart image := by
  obtain ⟨h, hfile, hup, hidle, hemu⟩ := step_elfFile (p := startProgram) rfl hfit
  obtain ⟨emu, hstart, hstep⟩ := step_initialise (p := { startProgram with host := h }) rfl hup hfit
  rw [hemu] at hstart
  obtain rfl : emu = firmwareStart image := (initialise_eq hstart).2
  have hfirst : Transcript P startProgram [] [] startProgram := .start
  have hloaded := hfirst.aside _ (hmessage _ _) hfile rfl
    (receiveExecutes_of_ne _ (show (0x00 : BitVec 8) ≠ 0x04 by decide))
  exact ⟨_, _, hloaded.aside _ (hinit _ _) hstep rfl rfl, rfl, hidle, rfl⟩

/-- R5 is shown as zero when it is one. -/
theorem panel_follows_behind : ∃ ops trail p, Transcript Anything startProgram ops trail p ∧
    p.host.emu.regs 5 = 1 ∧ (ops.foldl Operation.shown .start).panel 5 = bytes "0000" ∧
    PanelFollows p trail (ops.foldl Operation.shown .start).panel := by
  obtain ⟨hrun, hquit, hreg, htext⟩ := movePlaying_values
  obtain ⟨_, p, hready, hhead, hidle, hstart⟩ := transcript_firmware Anything
    (show moveFirmware.length ≤ 0x4000 by decide) (fun _ _ => trivial) fun _ _ => trivial
  have hplaying : movePlaying = handleBreakpoints (execRun p.host.emu) := by
    rw [hstart]
    rfl
  obtain ⟨ops, q, hq, hmain, hemu, hpanel⟩ :=
    hready.behind hidle hhead hplaying (by rw [hstart]; exact hquit) hrun
  refine ⟨ops, _, q, hq, ?_, ?_, (panel_follows hq (by rw [hmain]; simp)).1⟩
  · rw [hemu]
    exact hreg
  · rw [hpanel]
    exact htext

end Msp430
