/-
# The order of the start (`main.cpp`)

The web server takes messages from the moment the connection is established; the memory and the
pointers to the peripheral registers come later, one statement of `main` after the other, and
the first of them only when the firmware is uploaded.  What a message may do before it depends
on how far `main` has got: `nothing_unset_touched` says which messages are harmless when, and
that every other one lets the program reach through a null pointer.
-/
import Msp430.CommandAccesses
import Msp430.Reachability

namespace Msp430

open CString Footprint Reachability

/-! ## The start -/

/-- The statements of `main` between the upload and the loading of the images. -/
def startSequence : List (Emulator → Emulator) :=
  [initializeMspMemspace, initializeMspRegisters, setupBcm, setupTimerA, setupPort1, setupUsci]

/-- How many of these statements it takes until something exists. -/
def Access.since : Access → ℕ
  | .byte _ => 1
  | .register .bcm => 3
  | .register .timerA => 4
  | .register .port1 => 5
  | .register .usci => 6

/-- The program while it starts: how many statements are done, how many of the input threads
have looked at `IFG2`, and whether something has been touched that did not exist. -/
structure Starting where
  host : Host
  done : ℕ
  looked : ℕ
  unset : Bool

/-- What happens next: a message, a statement of `main`, or the first look of an input thread. -/
inductive StartStep : Type where
  | message (m : Message) : StartStep
  | setup : StartStep
  | look : StartStep

/-- One step of the start, which ends where there is none. -/
def Starting.step (s : Starting) : StartStep → Option Starting
  | .message m =>
    if s.unset then none
    else if ∀ x ∈ receiveAccesses s.host m, x.since ≤ s.done then
      (receive s.host m).map fun h => { s with host := h }
    else some { s with unset := true }
  | .setup =>
    if s.unset then none
    else if s.done = 0 ∧ s.host.webFirmwareUploaded = false then none
    else (startSequence[s.done]?).map fun f =>
      { s with host := { s.host with emu := f s.host.emu }, done := s.done + 1 }
  | .look =>
    -- `while (*usci->IFG2 & RXIFG)`
    if s.unset ∨ s.host.serialInput.length ≤ s.looked then none
    else if (Access.register .usci).since ≤ s.done then some { s with looked := s.looked + 1 }
    else some { s with unset := true }

/-- The program when the connection is established. -/
def startStarting : Starting := ⟨{ freshHost with emu := allocated }, 0, 0, false⟩

/-! ## Harmless messages -/

/-- A command that touches nothing that does not exist yet. -/
def HarmlessCommand (done : ℕ) (emu : Emulator) (line : Str) : Prop :=
  match command line with
  | .reset | .regs => 1 ≤ done
  | .step steps => 1 ≤ done ∧ (steps = 0 ∨ 5 ≤ done ∧
      (6 ≤ done ∨ ∀ k < steps.toNat, uartSelected (machineStep^[k + 1] emu) = false))
  | .dis => 1 ≤ done ∨ (disArguments emu line).1.setWidth 8 = 0#8
  | .dump => 1 ≤ done ∨ 100 ≤ (secondWord line).length ∨ dumpStart emu line = none
  | .set => 1 ≤ done ∨ 50 ≤ (secondWord line).length
  | _ => True

/-- A message that touches nothing that does not exist yet, and starts no thread that does. -/
def HarmlessMessage (done : ℕ) (h : Host) (m : Message) : Prop :=
  h.upload.inProgress = true ∨
    match m.byteAt 0 with
    | 0x02 => h.emu.running = false ∨ 1 ≤ done
    | 0x03 => 1000 < m.bytes.length ∨ 6 ≤ done
    | 0x04 => 1000 < m.bytes.length ∨ h.emu.running = true ∨ h.emu.debugMode = false ∨
        HarmlessCommand done h.emu m.line
    | _ => True

/-- Only messages can do harm. -/
def Harmless (s : Starting) (a : StartStep) : Prop :=
  ∀ m, a = .message m → HarmlessMessage s.done s.host m

/-! ## What is touched, and when it exists -/

theorem bytesTouched_iff (l : List ℕ) (n : ℕ) :
    (∀ x ∈ bytesTouched l, x.since ≤ n) ↔ l = [] ∨ 1 ≤ n := by
  constructor
  · intro h
    cases l with
    | nil => exact Or.inl rfl
    | cons a l => exact Or.inr (h (.byte a) (by simp [bytesTouched]))
  · rintro (rfl | hn) x hx
    · simp [bytesTouched] at hx
    · obtain ⟨a, -, rfl⟩ := List.mem_map.mp hx
      exact hn

/-- A listing touches memory unless it has no line. -/
theorem listingAccesses_iff (emu : Emulator) (start : BitVec 16) (times : BitVec 8) (n : ℕ) :
    (∀ x ∈ listingAccesses emu start times, x.since ≤ n) ↔ times = 0#8 ∨ 1 ≤ n := by
  rw [listingAccesses, bytesTouched_iff]
  refine or_congr_left ?_
  rw [disassembleBytes, ← BitVec.toNat_inj]
  cases h : times.toNat with
  | zero => exact iff_of_true rfl rfl
  | succ k =>
    refine iff_of_false ?_ (by simp)
    simp [gather, lineBytes, fetchBytes, getAddrPtr, Ptr.bytes]

theorem p1_handleUsci (emu : Emulator) : (handleUsci emu).p1 = emu.p1 := by
  simp only [handleUsci]
  split_ifs <;> rfl

/-- An instruction needs the memory and the peripherals, the serial interface only while its
pin is selected. -/
theorem machineAccesses_iff (emu : Emulator) (n : ℕ) :
    (∀ x ∈ machineAccesses emu, x.since ≤ n) ↔
      5 ≤ n ∧ (6 ≤ n ∨ uartSelected (machineStep emu) = false) := by
  have hselected : uartSelected (machineStep emu)
      = uartSelected (handlePort1 (handleTimerA (handleBcm (cpuStep emu)))) := by
    unfold uartSelected
    rw [machineStep, handlePeripherals, p1_handleUsci]
  have hbytes : cpuBytes emu ≠ [] := by simp [cpuBytes, fetchBytes, getAddrPtr, Ptr.bytes]
  rw [hselected, machineAccesses, List.forall_mem_append, bytesTouched_iff, handlerAccesses,
    List.forall_mem_append]
  cases uartSelected (handlePort1 (handleTimerA (handleBcm (cpuStep emu)))) with
  | false =>
    simp [hbytes, Access.since]
    omega
  | true =>
    simp [hbytes, Access.since]
    omega

/-- `step` needs what its instructions need, and lists a line. -/
theorem stepAccesses_iff (emu : Emulator) (steps : BitVec 32) (n : ℕ) :
    (∀ x ∈ stepAccesses emu steps, x.since ≤ n) ↔ 1 ≤ n ∧ (steps = 0 ∨ 5 ≤ n ∧
      (6 ≤ n ∨ ∀ k < steps.toNat, uartSelected (machineStep^[k + 1] emu) = false)) := by
  have hline : ¬ (1 : BitVec 8) = 0#8 := by decide
  rw [stepAccesses, List.forall_mem_append, forall_gather_iff, listingAccesses_iff]
  simp only [machineAccesses_iff, hline, false_or, ← Function.iterate_succ_apply']
  rw [and_comm]
  refine and_congr_right fun hn => ?_
  constructor
  · intro h
    by_cases h0 : steps = 0
    · exact Or.inl h0
    · have hpos : 0 < steps.toNat := by
        rw [Nat.pos_iff_ne_zero, ne_eq, ← BitVec.toNat_inj] at *
        simpa using h0
      refine Or.inr ⟨(h 0 hpos).1, ?_⟩
      by_cases h6 : 6 ≤ n
      · exact Or.inl h6
      · exact Or.inr fun k hk => (h k hk).2.resolve_left h6
  · rintro (rfl | ⟨h5, h⟩) k hk
    · exact absurd hk (by simp)
    · exact ⟨h5, h.imp_right fun hsel => hsel k hk⟩

/-- **A command touches what exists exactly when it is harmless.** -/
theorem commandAccesses_iff (emu : Emulator) (line : Str) (n : ℕ) :
    (∀ x ∈ commandAccesses emu line, x.since ≤ n) ↔ HarmlessCommand n emu line := by
  unfold commandAccesses HarmlessCommand
  cases command line with
  | reset =>
    show (∀ x ∈ listingAccesses _ _ _, _) ↔ _
    rw [listingAccesses_iff]
    simp
  | step steps => exact stepAccesses_iff emu steps n
  | dis =>
    show (∀ x ∈ listingAccesses _ _ _, _) ↔ _
    rw [listingAccesses_iff, or_comm]
  | dump =>
    show (∀ x ∈ dumpAccesses emu line, _) ↔ _
    unfold dumpAccesses
    by_cases hlen : 100 ≤ (secondWord line).length
    · simp [hlen]
    · rw [if_neg hlen]
      cases hstart : dumpStart emu line with
      | none => simp
      | some r =>
        show (∀ x ∈ bytesTouched (dumpBytes r.1), _) ↔ _
        rw [bytesTouched_iff]
        simp [hlen, dumpBytes]
  | set =>
    show (∀ x ∈ setAccesses emu line, _) ↔ _
    unfold setAccesses
    by_cases hlen : 50 ≤ (secondWord line).length
    · simp [hlen]
    · rw [if_neg hlen]
      cases regNameToNum (secondWord line) with
      | none =>
        show (∀ x ∈ bytesTouched _, _) ↔ _
        rw [bytesTouched_iff]
        simp [hlen, getAddrPtr, Ptr.bytes]
      | some r =>
        show (∀ x ∈ listingAccesses _ _ _, _) ↔ _
        rw [listingAccesses_iff]
        simp [hlen]
  | regs =>
    show (∀ x ∈ listingAccesses _ _ _, _) ↔ _
    rw [listingAccesses_iff]
    simp
  | _ => simp

/-- The input threads after a message: one more for serial data that is not too long. -/
theorem serialInput_receive {h h' : Host} {m : Message} (hr : receive h m = some h') :
    h'.serialInput = h.serialInput ∨
      (h.upload.inProgress = false ∧ m.byteAt 0 = 0x03 ∧ m.bytes.length ≤ 1000) ∧
        h'.serialInput = h.serialInput ++ [m.bytes.drop 1] := by
  rcases receive_cases hr with ⟨-, hserial⟩ | rfl | rfl | ⟨hdata, rfl⟩ | ⟨-, emu, -, rfl⟩
  · exact Or.inl hserial
  · exact Or.inl rfl
  · refine Or.inl ?_
    unfold receivePause
    split_ifs <;> rfl
  · exact Or.inr ⟨hdata, rfl⟩
  · exact Or.inl rfl

/-- Such data starts a thread. -/
theorem startsThread_iff (h : Host) (m : Message) :
    (∃ h', receive h m = some h' ∧ h'.serialInput ≠ h.serialInput) ↔
      h.upload.inProgress = false ∧ m.byteAt 0 = 0x03 ∧ m.bytes.length ≤ 1000 := by
  constructor
  · rintro ⟨h', hr, hne⟩
    exact ((serialInput_receive hr).resolve_left hne).1
  · rintro ⟨hup, hop, hlen⟩
    have hrun : receive h m
        = some { h with serialInput := h.serialInput ++ [m.bytes.drop 1] } := by
      rw [receive, if_neg (by simp [hup]), receiveCommand]
      simp only [hop]
      exact if_neg (by omega)
    exact ⟨_, hrun, by simp⟩

/-- **A message** touches what exists and starts no thread that does otherwise exactly when it
is harmless. -/
theorem harmlessMessage_iff (h : Host) (m : Message) (n : ℕ) :
    HarmlessMessage n h m ↔ (∀ x ∈ receiveAccesses h m, x.since ≤ n) ∧
      ((∃ h', receive h m = some h' ∧ h'.serialInput ≠ h.serialInput) → 6 ≤ n) := by
  rw [startsThread_iff]
  unfold HarmlessMessage
  by_cases hup : h.upload.inProgress = true
  · simp [hup, receiveAccesses]
  rw [or_iff_right hup]
  have hidle : h.upload.inProgress = false := by simpa using hup
  by_cases h2 : m.byteAt 0 = 0x02
  · rw [receiveAccesses, if_neg hup, h2]
    cases hrun : h.emu.running with
    | false => simp
    | true => simp [listingAccesses_iff]
  by_cases h4 : m.byteAt 0 = 0x04
  · rw [receiveAccesses, if_neg hup, h4]
    by_cases hlen : 1000 < m.bytes.length
    · simp [hlen]
    · cases hrun : h.emu.running <;> cases hdebug : h.emu.debugMode <;>
        simp [hlen, commandAccesses_iff]
  rw [receiveAccesses_of_other h2 h4]
  by_cases h3 : m.byteAt 0 = 0x03
  · rw [h3]
    simp [hidle]
    omega
  · refine iff_of_true ?_ ⟨fun _ hx => absurd hx List.not_mem_nil, fun hc => absurd hc.2.1 h3⟩
    split
    · exact absurd ‹_› h2
    · exact absurd ‹_› h3
    · exact absurd ‹_› h4
    · trivial

/-! ## Runs -/

section Runs

variable {s s' : Starting} {a : StartStep}

/-- The input threads that have not looked yet find `IFG2` set up. -/
structure Intact (s : Starting) : Prop where
  unset : s.unset = false
  looked : s.looked ≤ s.host.serialInput.length
  pending : s.looked < s.host.serialInput.length → 6 ≤ s.done

/-- **A harmless step** touches nothing that does not exist. -/
theorem Intact.step (h : Intact s) (hharmless : Harmless s a) (hstep : s.step a = some s') :
    Intact s' := by
  cases a with
  | message m =>
    obtain ⟨hexist, hthread⟩ := (harmlessMessage_iff s.host m s.done).mp (hharmless m rfl)
    rw [Starting.step, if_neg (by simp [h.unset]), if_pos hexist] at hstep
    obtain ⟨h', hreceive, rfl⟩ := Option.map_eq_some_iff.mp hstep
    rcases serialInput_receive hreceive with hserial | ⟨-, hserial⟩
    · exact ⟨h.unset, hserial.symm ▸ h.looked, fun hp => h.pending (hserial ▸ hp)⟩
    · refine ⟨h.unset, ?_, fun _ => hthread ⟨h', hreceive, by simp [hserial]⟩⟩
      show s.looked ≤ h'.serialInput.length
      rw [hserial, List.length_append]
      exact le_trans h.looked (Nat.le_add_right _ _)
  | setup =>
    simp only [Starting.step] at hstep
    split_ifs at hstep
    obtain ⟨f, -, rfl⟩ := Option.map_eq_some_iff.mp hstep
    exact ⟨h.unset, h.looked, fun hpending => le_trans (h.pending hpending) (Nat.le_succ _)⟩
  | look =>
    simp only [Starting.step] at hstep
    split_ifs at hstep with hnone hset
    · push Not at hnone
      obtain rfl := Option.some.inj hstep
      exact ⟨h.unset, hnone.2, fun _ => hset⟩
    · -- a thread that may look was started when the interface was set up
      push Not at hnone
      exact absurd (h.pending hnone.2) hset

/-- A message that is not harmless lets the program touch what does not exist, itself or
through the thread that it starts. -/
theorem Intact.harmful (h : Intact s) {m : Message} (hharm : ¬ HarmlessMessage s.done s.host m) :
    ∃ s', ReachedBy Starting.step AnyStep s s' ∧ s'.unset = true := by
  have hset : ¬ s.unset = true := by simp [h.unset]
  by_cases hexist : ∀ x ∈ receiveAccesses s.host m, x.since ≤ s.done
  · rw [harmlessMessage_iff, not_and] at hharm
    have hthread := hharm hexist
    push Not at hthread
    obtain ⟨⟨h', hreceive, hne⟩, hearly⟩ := hthread
    obtain ⟨-, hserial⟩ := (serialInput_receive hreceive).resolve_left hne
    have hmessage : s.step (.message m) = some { s with host := h' } := by
      rw [Starting.step, if_neg hset, if_pos hexist, hreceive]
      rfl
    have hlook : Starting.step { s with host := h' } .look
        = some { s with host := h', unset := true } := by
      have hpending : ¬ (s.unset = true ∨ h'.serialInput.length ≤ s.looked) := by
        rintro (hu | hle)
        · exact hset hu
        · have := h.looked
          rw [hserial, List.length_append, List.length_singleton] at hle
          omega
      exact (if_neg hpending).trans (if_neg (Nat.not_le.mpr hearly))
    exact ⟨_, .step (.step .start trivial hmessage) trivial hlook, rfl⟩
  · have hstep : s.step (.message m) = some { s with unset := true } := by
      rw [Starting.step, if_neg hset, if_neg hexist]
    exact ⟨_, .step .start trivial hstep, rfl⟩

/-- **Nothing is touched before it exists in every run of harmless messages**, and any other
message can make the program do so. -/
theorem nothing_unset_touched (s : Starting)
    (h : ReachedBy Starting.step Harmless startStarting s) :
    s.unset = false ∧ ∀ m, ¬ HarmlessMessage s.done s.host m →
      ∃ s', ReachedBy Starting.step AnyStep s s' ∧ s'.unset = true := by
  have hintact : Intact s := h.invariant ⟨rfl, le_rfl, fun hp => absurd hp (by decide)⟩
    fun _ _ _ hs hharmless hstep => hs.step hharmless hstep
  exact ⟨hintact.unset, fun m hharm => hintact.harmful hharm⟩

end Runs

/-- A harmless message is handled. -/
theorem step_message {s : Starting} {m : Message} {h' : Host} (hunset : s.unset = false)
    (hharmless : HarmlessMessage s.done s.host m) (hreceive : receive s.host m = some h') :
    s.step (.message m) = some { s with host := h' } := by
  rw [Starting.step, if_neg (by simp [hunset]),
    if_pos ((harmlessMessage_iff _ _ _).mp hharmless).1, hreceive]
  rfl

/-- The first statement of the initialisation, once the firmware is there. -/
theorem step_setup {s : Starting} (hunset : s.unset = false) (hdone : s.done = 0)
    (hup : s.host.webFirmwareUploaded = true) :
    s.step .setup = some { s with
      host := { s.host with emu := initializeMspMemspace s.host.emu }, done := 1 } := by
  rw [Starting.step, if_neg (by simp [hunset]), if_neg (by simp [hup]), hdone]
  rfl

/-- PLAY before the memory exists, and PAUSE after. -/
theorem nothing_unset_touched_paused :
    ∃ s : Starting, s.done = 1 ∧ s.host.emu.debugMode = true ∧ (s.unset = false ∧
      ∀ m, ¬ HarmlessMessage s.done s.host m →
        ∃ s', ReachedBy Starting.step AnyStep s s' ∧ s'.unset = true) := by
  have hmessage {s : Starting} {m : Message} (hm : HarmlessMessage s.done s.host m) :
      Harmless s (.message m) := fun _ ha => by cases ha; exact hm
  have hsetup (s : Starting) : Harmless s .setup := fun _ ha => by cases ha
  obtain ⟨h, hfile, hup, hidle, hemu⟩ := receive_elfFile (h := startStarting.host) rfl
    (show moveFirmware.length ≤ 0x4000 by decide)
  have hupload : HarmlessMessage 0 startStarting.host (elfFile moveFirmware) := Or.inr trivial
  have h₁ : ReachedBy Starting.step Harmless startStarting { startStarting with host := h } :=
    .step .start (hmessage hupload) (step_message rfl hupload hfile)
  have hplay : HarmlessMessage 0 h (opcodeMessage 0x01) := Or.inr trivial
  have hplaying : receive h (opcodeMessage 0x01) = some (receivePlay h) := by
    rw [receive, if_neg (by simp [hidle])]
    rfl
  have h₂ := h₁.step (hmessage hplay) (step_message rfl hplay hplaying)
  have h₃ := h₂.step (hsetup _) (step_setup rfl rfl hup)
  obtain ⟨g, hg⟩ : ∃ g : Host, g = { receivePlay h with
    emu := initializeMspMemspace (receivePlay h).emu } := ⟨_, rfl⟩
  have hpause : HarmlessMessage 1 g (opcodeMessage 0x02) := Or.inr (Or.inr le_rfl)
  have hpaused : receive g (opcodeMessage 0x02) = some (receivePause g) := by
    rw [receive, if_neg (by simp [hg, receivePlay, hidle])]
    rfl
  rw [← hg] at h₃
  have h₄ := h₃.step (hmessage hpause) (step_message rfl hpause hpaused)
  refine ⟨_, rfl, ?_, nothing_unset_touched _ h₄⟩
  show (receivePause g).emu.debugMode = true
  have hemug : g.emu = initializeMspMemspace (execRun allocated) := by
    rw [hg, receivePlay, hemu]
    rfl
  rw [receivePause, hemug]
  rfl

/-- PLAY and PAUSE before the upload: the instruction at the program counter is listed. -/
theorem paused_too_early :
    ¬ ∀ (ms : List Message) (s : Starting), (∀ m ∈ ms, 0x01 ≤ m.byteAt 0 ∧ m.byteAt 0 ≤ 0x04) →
      (ms.map StartStep.message).foldlM Starting.step startStarting = some s →
        s.unset = false := by
  intro hclaim
  obtain ⟨s, hs⟩ : ∃ s, s = { startStarting with host := receivePlay startStarting.host } :=
    ⟨_, rfl⟩
  have hplay : startStarting.step (.message (opcodeMessage 0x01)) = some s := by
    rw [hs]
    rfl
  have hpause : s.step (.message (opcodeMessage 0x02)) = some { s with unset := true } := by
    rw [hs]
    rfl
  have hunset := hclaim [opcodeMessage 0x01, opcodeMessage 0x02] { s with unset := true }
    (by decide) (by
      rw [List.map_cons, List.foldlM_cons, hplay]
      exact (congrArg (· >>= pure) hpause))
  cases hunset

end Msp430
