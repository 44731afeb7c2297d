/-
# Sessions

What happens to the machine once `main` has initialised it: console lines, PLAY and PAUSE, the
bytes that the serial input delivers, and the two halves of a turn of the main loop, in any
order.  `session_of_program` says that the program does nothing else.  A session leaves a trail,
the states in which instructions were executed; `follows_perform` says that between them
nothing changes in the memory and the peripherals, but for `set` and the serial input.
-/
import Msp430.RunState
import Msp430.Trail

namespace Msp430

open CString Footprint Trail

/-! ## Events -/

/-- What happens to an initialised machine. -/
inductive SessionEvent : Type where
  | command (line : Str) : SessionEvent
  | play : SessionEvent
  | pause : SessionEvent
  | input (b : BitVec 8) : SessionEvent
  | head : SessionEvent
  | body : SessionEvent

/-- `case 0x02` of the messages, on the machine. -/
def pauseRun (emu : Emulator) : Emulator :=
  if emu.running then
    let emu := { emu with running := false, debugMode := true }
    disassemble emu emu.pc 1
  else emu

/-- `thrd` of `emu_server.cpp` with its next byte: it waits while `RXIFG` is set. -/
def deliver (emu : Emulator) (b : BitVec 8) : Emulator :=
  if emu.load8 ifg2 &&& 0x01 != 0 then emu
  else
    let emu := emu.store8 (.mem 0x66) b
    emu.store8 ifg2 (emu.load8 ifg2 ||| 0x01)

/-- One event.  A console line is executed only while the CPU stands in the debugger; `head`
is the head of the loop of `main` with `handle_breakpoints`, `body` the rest of the turn. -/
def perform (emu : Emulator) : SessionEvent → Option Emulator
  | .command line => if !emu.running && emu.debugMode then execCmd emu line else some emu
  | .play => some (execRun emu)
  | .pause => some (pauseRun emu)
  | .input b => some (deliver emu b)
  | .head =>
    if emu.quit then none else if !emu.running then some emu else some (handleBreakpoints emu)
  | .body => some (machineStep emu)

/-- The states in which an event executes instructions. -/
def executed (emu : Emulator) : SessionEvent → List Emulator
  | .command line =>
    match command line with
    | .step steps =>
      if !emu.running && emu.debugMode then gather machineStep (fun e => [e]) steps.toNat emu
      else []
    | _ => []
  | .body => [emu]
  | _ => []

/-- A session: one event after the other. -/
def session (emu : Emulator) (evs : List SessionEvent) : Option Emulator := evs.foldlM perform emu

/-- The states in which a session executes instructions. -/
def executedIn (emu : Emulator) (evs : List SessionEvent) : List Emulator :=
  taken perform executed emu evs

/-- The machine as `main` starts it with a firmware, on its zeroed allocations. -/
def firmwareStart (tmpBin : List (BitVec 8)) : Emulator :=
  disassemble (loadImage (setUp allocated) 0xC000 tmpBin) 0xC000 1

theorem session_append {emu emu' : Emulator} {evs : List SessionEvent}
    (h : session emu evs = some emu') (evs' : List SessionEvent) :
    session emu (evs ++ evs') = session emu' evs' := by
  rw [session, List.foldlM_append, show evs.foldlM perform emu = some emu' from h]
  rfl

/-! ## The program -/

/-- A message is an event, or does not reach the machine. -/
theorem session_of_receive {h h' : Host} {m : Message} (hr : receive h m = some h') :
    ∃ evs, session h.emu evs = some h'.emu := by
  have hnone {h'' : Host} (he : h''.emu = h.emu) : ∃ evs, session h.emu evs = some h''.emu :=
    ⟨[], by rw [he]; rfl⟩
  have hone {h'' : Host} (ev : SessionEvent) (he : perform h.emu ev = some h''.emu) :
      ∃ evs, session h.emu evs = some h''.emu :=
    ⟨[ev], by rw [session, List.foldlM_cons, he]; rfl⟩
  rcases receive_cases hr with ⟨hemu, -⟩ | rfl | rfl | ⟨-, rfl⟩ | ⟨hlisten, emu, hemu, rfl⟩
  · exact hnone hemu
  · exact hone .play rfl
  · apply hone .pause
    unfold perform receivePause pauseRun
    split_ifs <;> rfl
  · exact hnone rfl
  · apply hone (.command m.line)
    rw [perform, if_pos hlisten]
    exact hemu

/-- **The program is a session**: whatever an initialised program does to its machine is a
session of the events. -/
theorem session_of_program {p p' : Program} (hset : p.main ≠ .waiting)
    (h : Reachability.ReachedBy Program.step Reachability.AnyStep p p') :
    p'.main ≠ .waiting ∧ ∃ evs, session p.host.emu evs = some p'.host.emu := by
  induction h with
  | start => exact ⟨hset, [], rfl⟩
  | @step q q' a _ _ hstep ih =>
    obtain ⟨hq, evs, hevs⟩ := ih
    have hnext (evs' : List SessionEvent) (h' : session q.host.emu evs' = some q'.host.emu) :
        ∃ evs, session p.host.emu evs = some q'.host.emu :=
      ⟨evs ++ evs', by rw [session_append hevs]; exact h'⟩
    cases a with
    | message m =>
      simp only [Program.step, hq, false_and, if_false] at hstep
      obtain ⟨h', hreceive, rfl⟩ := Option.map_eq_some_iff.mp hstep
      obtain ⟨evs', hevs'⟩ := session_of_receive hreceive
      exact ⟨hq, hnext evs' hevs'⟩
    | initialise tmpBin =>
      simp only [Program.step, hq, false_and, if_false] at hstep
      cases hstep
    | main =>
      cases hmain : q.main with
      | waiting => exact absurd hmain hq
      | head =>
        simp only [Program.step, hmain] at hstep
        split_ifs at hstep with hquit hrun
        · obtain rfl := Option.some.inj hstep
          exact ⟨hq, evs, hevs⟩
        · obtain rfl := Option.some.inj hstep
          refine ⟨MainStage.noConfusion, hnext [.head] ?_⟩
          rw [session, List.foldlM_cons, perform, if_neg hquit, if_neg hrun]
          rfl
      | decode =>
        simp only [Program.step, hmain, Option.some.injEq] at hstep
        obtain rfl := hstep
        exact ⟨MainStage.noConfusion, hnext [.body] rfl⟩

/-! ## What changes between the instructions -/

/-- The memory and the peripherals. -/
def Emulator.device (emu : Emulator) :
    (ℕ → BitVec 8) × Port1 × Bcm × TimerA × List (BitVec 8) := (emu.mem, emu.peripherals)

/-- `set` on an address. -/
def SetsMemory (line : Str) : Prop :=
  command line = .set ∧ regNameToNum (secondWord line) = none

instance (line : Str) : Decidable (SetsMemory line) := inferInstanceAs (Decidable (_ ∧ _))

section Device

theorem device_disassemble (emu : Emulator) (start : BitVec 16) (times : BitVec 8) :
    (disassemble emu start times).device = emu.device := by
  have hline (e : Emulator) : (disassembleLine e).device = e.device := by
    have hmem : (disassembleLine e).mem = e.mem := mem_listed (fetch e).2 _
    have hper : (disassembleLine e).peripherals = e.peripherals :=
      peripherals_decode (fetch e).2 _ _
    rw [Emulator.device, hmem, hper]
    rfl
  rw [disassemble_eq]
  exact view_iterate hline times.toNat (listingStart emu start)

theorem device_handleBreakpoints (emu : Emulator) :
    (handleBreakpoints emu).device = emu.device := by
  unfold handleBreakpoints
  split_ifs
  · exact device_disassemble _ _ _
  · rfl

theorem device_pauseRun (emu : Emulator) : (pauseRun emu).device = emu.device := by
  unfold pauseRun
  split_ifs
  · exact device_disassemble _ _ _
  · rfl

theorem device_getRegPtr (emu : Emulator) (n : Fin 16) :
    (getRegPtr emu n).device = emu.device := by
  unfold getRegPtr
  split_ifs <;> rfl

theorem device_setRegister (emu : Emulator) (n : Fin 16) (v : BitVec 16) :
    (setRegister emu n v).device = emu.device := by
  unfold setRegister
  split_ifs
  · rfl
  · exact device_getRegPtr emu n

theorem device_dumpStart {emu emu' : Emulator} {line : Str} {start : BitVec 16}
    (h : dumpStart emu line = some (start, emu')) : emu'.device = emu.device := by
  rcases dumpStart_cases h with rfl | ⟨n, rfl⟩
  · rfl
  · exact device_getRegPtr emu n

theorem device_execBreak (emu : Emulator) (line : Str) :
    (execBreak emu line).device = emu.device := by
  unfold execBreak
  split_ifs
  · rfl
  · split <;> rfl

theorem device_execBps (emu : Emulator) : (execBps emu).device = emu.device := by
  rw [execBps_eq]
  rfl

/-- A `set` that names a register. -/
theorem device_execSet {emu emu' : Emulator} {line : Str} (h : execSet emu line = some emu')
    (hname : regNameToNum (secondWord line) ≠ none) : emu'.device = emu.device := by
  obtain ⟨n, hn⟩ := Option.ne_none_iff_exists'.mp hname
  unfold execSet at h
  split_ifs at h
  simp only [hn, Option.some.injEq] at h
  rw [← h, device_disassemble, device_setRegister]

end Device

/-- A view of the memory and the peripherals that does not see the serial input. -/
structure Unseen {γ : Type*} (V : Emulator → γ) : Prop where
  host : ∀ emu emu', emu'.device = emu.device → V emu' = V emu
  input : ∀ emu b, V (deliver emu b) = V emu

section Unseen

variable {γ : Type*} {V : Emulator → γ}

/-- What a command does after its steps is not seen, unless it sets memory. -/
theorem follows_execCmd (hV : Unseen V) {emu emu' : Emulator} {line : Str}
    (hset : SetsMemory line → ∀ emu a v, V (Emulator.store16 emu (.mem a) v) = V emu)
    (h : execCmd emu line = some emu') :
    Follows machineStep V emu
      (match command line with
        | .step steps => gather machineStep (fun e => [e]) steps.toNat emu
        | _ => []) emu' := by
  have hrest (e : Emulator) (he : e.device = emu.device) : Follows machineStep V emu [] e :=
    .rest (hV.host emu e he)
  rw [execCmd_eq] at h
  cases hc : command line <;> rw [hc] at h
  case overlong => cases h
  case reset =>
    obtain rfl := Option.some.inj h
    exact hrest _ (device_disassemble _ _ _)
  case step steps =>
    obtain rfl := Option.some.inj h
    exact (follows_gather steps.toNat emu).congr_right (hV.host _ _ (device_disassemble _ _ _))
  case dis =>
    obtain rfl := Option.some.inj h
    exact hrest _ (device_disassemble _ _ _)
  case dump =>
    change execDump emu line = some emu' at h
    unfold execDump at h
    split_ifs at h
    obtain ⟨⟨start, e⟩, hstart, rfl⟩ := Option.map_eq_some_iff.mp h
    exact hrest _ (device_dumpStart hstart)
  case set =>
    change execSet emu line = some emu' at h
    by_cases hname : regNameToNum (secondWord line) = none
    · apply Follows.rest
      unfold execSet at h
      split_ifs at h
      simp only [hname, Option.some.injEq] at h
      rw [← h]
      exact hset ⟨hc, hname⟩ emu _ _
    · exact hrest _ (device_execSet h hname)
  case addBreak =>
    obtain rfl := Option.some.inj h
    exact hrest _ (device_execBreak emu line)
  case bps =>
    obtain rfl := Option.some.inj h
    exact hrest _ (device_execBps emu)
  case regs =>
    obtain rfl := Option.some.inj h
    exact hrest _ (device_disassemble _ _ _)
  all_goals
    obtain rfl := Option.some.inj h
    exact hrest _ rfl

/-- **An event** leaves the states in which it executes instructions as its trail. -/
theorem follows_perform (hV : Unseen V) {emu emu' : Emulator} {ev : SessionEvent}
    (hset : ∀ line, ev = .command line → SetsMemory line →
      ∀ emu a v, V (Emulator.store16 emu (.mem a) v) = V emu)
    (h : perform emu ev = some emu') : Follows machineStep V emu (executed emu ev) emu' := by
  cases ev with
  | command line =>
    rw [perform] at h
    by_cases hlisten : (!emu.running && emu.debugMode) = true
    · rw [if_pos hlisten] at h
      have hcmd := follows_execCmd hV (hset line rfl) h
      rw [executed]
      cases hc : command line <;> simp only [hc] at hcmd ⊢ <;> try exact hcmd
      rwa [if_pos hlisten]
    · rw [if_neg hlisten] at h
      obtain rfl := Option.some.inj h
      have hnone : executed emu (.command line) = [] := by
        rw [executed]
        cases command line <;> simp only [if_neg hlisten]
      rw [hnone]
      exact .refl emu
  | play =>
    obtain rfl := Option.some.inj h
    exact .rest (hV.host _ _ rfl)
  | pause =>
    obtain rfl := Option.some.inj h
    exact .rest (hV.host _ _ (device_pauseRun emu))
  | input b =>
    obtain rfl := Option.some.inj h
    exact .rest (hV.input emu b)
  | head =>
    rw [perform] at h
    split_ifs at h
    · obtain rfl := Option.some.inj h
      exact .refl emu
    · obtain rfl := Option.some.inj h
      exact .rest (hV.host _ _ (device_handleBreakpoints emu))
  | body =>
    obtain rfl := Option.some.inj h
    exact .step rfl (.refl _)

/-- **The trail of a session.** -/
theorem follows_session (hV : Unseen V) {emu emu' : Emulator} {evs : List SessionEvent}
    (hset : ∀ line, .command line ∈ evs → SetsMemory line →
      ∀ emu a v, V (Emulator.store16 emu (.mem a) v) = V emu)
    (h : session emu evs = some emu') : Follows machineStep V emu (executedIn emu evs) emu' :=
  follows_taken id (fun _ hev _ _ hperform =>
    follows_perform hV (fun line hl => hset line (hl ▸ hev)) hperform) h

end Unseen

end Msp430
