/-
# The serial output of a run

`handle_usci` looks at `UCA0TXBUF` after every instruction and takes a byte other than zero for
one to send.  While P1.2 is in its UART function and the program leaves `IFG2` alone, the buffer
is zero between the instructions, so that every byte stored there goes out once and in order;
but a zero is never sent, and what a word instruction puts there is sent as well.
`uart_output_iff` says that nothing else goes wrong.
-/
import Msp430.Session

namespace Msp430

open CString Trail

/-! ## Stores to the transmit buffer -/

/-- P1.2 is in its UART function. -/
def UartFunction (emu : Emulator) : Prop :=
  (emu.mem 0x26).getLsbD 2 = true ∧ (emu.mem 0x41).getLsbD 2 = true

/-- The instruction stores a byte to `UCA0TXBUF`: a byte operation, a byte shift or a byte
pushed there. -/
def StoresByte (emu : Emulator) : Prop :=
  let w := (fetch emu).1
  let e := (fetch emu).2
  bwFlag w = .byte ∧
    ((Writes (formatId w) ∧ destinationI e w false = uca0txbuf) ∨
      (formatId w = 1 ∧ (opcodeII w = 0 ∨ opcodeII w = 2) ∧ sourceCellII e w = uca0txbuf) ∨
      (Pushes w ∧ getAddrPtr (regsII e w 1 - 2) = uca0txbuf))

instance (emu : Emulator) : Decidable (UartFunction emu) :=
  inferInstanceAs (Decidable (_ ∧ _))

instance (emu : Emulator) : Decidable (StoresByte emu) := by
  unfold StoresByte
  infer_instance

/-- The byte that an instruction stores to `UCA0TXBUF`, if it stores one. -/
def storedByte (emu : Emulator) : List (BitVec 8) :=
  if StoresByte emu then [(cpuStep emu).mem 0x67] else []

/-- The instruction stores a byte other than zero there, or leaves the buffer alone. -/
def TransmitsRight (emu : Emulator) : Prop :=
  if StoresByte emu then (cpuStep emu).mem 0x67 ≠ 0 else (cpuStep emu).mem 0x67 = emu.mem 0x67

instance (emu : Emulator) : Decidable (TransmitsRight emu) :=
  inferInstanceAs (Decidable (if StoresByte emu then _ else _))

/-! ## The transmitter between the instructions -/

/-- What the transmitter goes by: `TXIFG`, the buffer and the function of P1.2, with the bytes
sent. -/
def transmitter (emu : Emulator) :
    Bool × BitVec 8 × BitVec 8 × BitVec 8 × List (BitVec 8) :=
  ((emu.mem 0x03).getLsbD 1, emu.mem 0x67, emu.mem 0x26, emu.mem 0x41, emu.serial)

/-- The serial input sets `RXIFG` and its own buffer. -/
theorem unseen_transmitter : Unseen transmitter where
  host := by
    intro emu emu' h
    simp only [Emulator.device, Emulator.peripherals, Prod.mk.injEq] at h
    simp only [transmitter, h]
  input := by
    intro emu b
    unfold deliver
    split_ifs
    · rfl
    · simp [transmitter, ifg2, Emulator.load8, Emulator.store8, Emulator.setByte]

/-- The transmitter is ready: `TXIFG` is set, and nothing waits once it is selected. -/
def Ready (tx : Bool × BitVec 8 × BitVec 8 × BitVec 8 × List (BitVec 8)) : Prop :=
  tx.1 = true ∧
    (tx.2.2.1.getLsbD 2 = true ∧ tx.2.2.2.1.getLsbD 2 = true → tx.2.1 = 0)

theorem txifg_iff (v : BitVec 8) : v &&& 0x02 ≠ 0 ↔ v.getLsbD 1 = true := by
  revert v
  decide

/-- The handlers write the registers of the timer and the buffer alone. -/
theorem mem_machineStep_of_ne (emu : Emulator) {a : ℕ} (ha : a ∉ timerCells) (h67 : a ≠ 0x67) :
    (machineStep emu).mem a = (cpuStep emu).mem a := by
  rw [machineStep, mem_handlePeripherals_of_ne _ ha, if_neg fun hc => h67 hc.2]

/-- They leave the function of P1.2. -/
theorem uartFunction_machineStep {emu : Emulator} (h : UartFunction (cpuStep emu)) :
    UartFunction (machineStep emu) := by
  unfold UartFunction at h ⊢
  rwa [mem_machineStep_of_ne emu (a := 0x26) (by decide) (by decide),
    mem_machineStep_of_ne emu (a := 0x41) (by decide) (by decide)]

section Step

variable {emu : Emulator} (hifg : (cpuStep emu).mem 0x03 = emu.mem 0x03)
  (hready : Ready (transmitter emu))

include hifg hready

/-- After an instruction a byte is sent exactly when there is one and P1.2 is selected. -/
theorem sends_cpuStep_iff :
    Sends (cpuStep emu) ↔ UartFunction (cpuStep emu) ∧ (cpuStep emu).mem 0x67 ≠ 0 := by
  have htx : (cpuStep emu).mem 0x03 &&& 0x02 ≠ 0 := by
    rw [hifg, txifg_iff]
    exact hready.1
  unfold Sends UartFunction
  tauto

/-- **An instruction and the handlers leave the transmitter ready**, if the instruction does
not write `IFG2`. -/
theorem Ready.machineStep : Ready (transmitter (machineStep emu)) := by
  have h3 := mem_machineStep_of_ne emu (a := 0x03) (by decide) (by decide)
  have h26 := mem_machineStep_of_ne emu (a := 0x26) (by decide) (by decide)
  have h41 := mem_machineStep_of_ne emu (a := 0x41) (by decide) (by decide)
  refine ⟨?_, fun hsel => ?_⟩
  · show ((Msp430.machineStep emu).mem 0x03).getLsbD 1 = true
    rw [h3, hifg]
    exact hready.1
  · change ((Msp430.machineStep emu).mem 0x26).getLsbD 2 = true ∧
      ((Msp430.machineStep emu).mem 0x41).getLsbD 2 = true at hsel
    rw [h26, h41] at hsel
    show (Msp430.machineStep emu).mem 0x67 = 0
    rw [Msp430.machineStep, mem_handlePeripherals_of_ne _ (by decide)]
    split_ifs with hsends
    · rfl
    · by_contra hbyte
      exact hsends ⟨(sends_cpuStep_iff hifg hready).mpr ⟨hsel, hbyte⟩, rfl⟩

/-- **What a step sends** while P1.2 is selected. -/
theorem serial_machineStep (hsel : UartFunction (cpuStep emu)) :
    (Msp430.machineStep emu).serial
      = emu.serial ++ if (cpuStep emu).mem 0x67 ≠ 0 then [(cpuStep emu).mem 0x67] else [] := by
  have hserial : (cpuStep emu).serial = emu.serial := by
    have hper := peripherals_cpuStep emu
    simp only [Emulator.peripherals, Prod.mk.injEq] at hper
    exact hper.2.2.2
  have hiff := sends_cpuStep_iff hifg hready
  rw [Msp430.machineStep, serial_handlePeripherals, hserial]
  simp only [hiff, hsel, true_and]

end Step

/-- With an empty buffer, an instruction transmits right exactly when it stores a byte just if
there is one afterwards. -/
theorem transmitsRight_iff {emu : Emulator} (hempty : emu.mem 0x67 = 0) :
    TransmitsRight emu ↔ (StoresByte emu ↔ (cpuStep emu).mem 0x67 ≠ 0) := by
  unfold TransmitsRight
  split_ifs with hs
  · simp [hs]
  · simp [hs, hempty]

/-! ## Runs -/

/-- `setup_usci` leaves the transmitter ready. -/
theorem ready_initialise {tmpBin : List (BitVec 8)} {host start : Emulator}
    (h : initialise tmpBin host = some start) : Ready (transmitter start) := by
  have hmem {a : ℕ} (ha : a < 0xC000) :
      (loadImage (setUp host) 0xC000 tmpBin).mem a = (setUp host).mem a :=
    if_neg fun hc => absurd hc.1 (by simpa using ha)
  rw [(initialise_eq h).2, unseen_transmitter.host _ _ (device_disassemble _ 0xC000 1)]
  have hflag : (loadImage (setUp host) 0xC000 tmpBin).mem 0x03 = (0 ||| 0x02) &&& ~~~0x01 :=
    hmem (by decide)
  refine ⟨?_, fun _ => hmem (a := 0x67) (by decide)⟩
  show ((loadImage (setUp host) 0xC000 tmpBin).mem 0x03).getLsbD 1 = true
  rw [hflag]
  decide

/-- A run with P1.2 in its UART function, any time after the machine was initialised.  P1.2
stays there, the program has not written `IFG2`, and the debugger writes no memory. -/
structure UartRun (start emu emu' : Emulator) (before after : List SessionEvent) : Prop where
  initialised : ∃ tmpBin host, initialise tmpBin host = some start
  earlier : session start before = some emu
  run : session emu after = some emu'
  plain : ∀ line, .command line ∈ before ++ after → ¬ SetsMemory line
  ifg : ∀ e ∈ executedIn start (before ++ after), (cpuStep e).mem 0x03 = e.mem 0x03
  selected : UartFunction emu
  stays : ∀ e ∈ executedIn emu after, UartFunction (cpuStep e)

section Runs

variable {start emu emu' : Emulator} {before after : List SessionEvent}

theorem UartRun.executedIn_eq (h : UartRun start emu emu' before after) :
    executedIn start (before ++ after) = executedIn start before ++ executedIn emu after :=
  taken_append h.earlier

theorem UartRun.ifg_after (h : UartRun start emu emu' before after) :
    ∀ e ∈ executedIn emu after, (cpuStep e).mem 0x03 = e.mem 0x03 := by
  intro e he
  apply h.ifg e
  rw [h.executedIn_eq]
  exact List.mem_append_right _ he

/-- The transmitter is ready where the run begins. -/
theorem UartRun.ready (h : UartRun start emu emu' before after) : Ready (transmitter emu) := by
  obtain ⟨tmpBin, host, hinit⟩ := h.initialised
  have htrail := follows_session unseen_transmitter (fun line hline hs =>
    absurd hs (h.plain line (List.mem_append_left _ hline))) h.earlier
  refine (htrail.invariant (ready_initialise hinit) fun e he hr => hr.machineStep ?_).2
  apply h.ifg e
  rw [h.executedIn_eq]
  exact List.mem_append_left _ he

theorem UartRun.trail (h : UartRun start emu emu' before after) :
    Follows machineStep transmitter emu (executedIn emu after) emu' :=
  follows_session unseen_transmitter (fun line hline hs =>
    absurd hs (h.plain line (List.mem_append_right _ hline))) h.run

/-- It is ready and selected in every state of the run, since no handler deselects it. -/
theorem UartRun.ready_of_mem (h : UartRun start emu emu' before after) :
    ∀ e ∈ executedIn emu after, Ready (transmitter e) ∧ UartFunction e := by
  refine (h.trail.invariant (I := fun tx => Ready tx ∧
    (tx.2.2.1.getLsbD 2 = true ∧ tx.2.2.2.1.getLsbD 2 = true)) ⟨h.ready, h.selected⟩ ?_).1
  intro e he hr
  exact ⟨hr.1.machineStep (h.ifg_after e he), uartFunction_machineStep (h.stays e he)⟩

/-- **The serial output is what the program stores to `UCA0TXBUF`, exactly when** every byte
stored there is other than zero and no other instruction writes the buffer. -/
theorem uart_output_iff (h : UartRun start emu emu' before after) :
    emu'.serial = emu.serial ++ (executedIn emu after).flatMap storedByte
      ↔ ∀ e ∈ executedIn emu after, TransmitsRight e := by
  have hout := h.trail.output (fun tx => tx.2.2.2.2)
    (fun e => if (cpuStep e).mem 0x67 ≠ 0 then [(cpuStep e).mem 0x67] else [])
    fun e he => serial_machineStep (h.ifg_after e he) (h.ready_of_mem e he).1 (h.stays e he)
  change emu'.serial = emu.serial ++ _ at hout
  rw [hout, List.append_cancel_left_eq]
  -- what is sent goes by the byte, what is stored by the instruction
  refine (flatMap_selected_eq_iff (executedIn emu after) (fun e => (cpuStep e).mem 0x67)
    (fun c => c ≠ 0) StoresByte).trans (forall₂_congr fun e he => ?_)
  obtain ⟨hr, hs⟩ := h.ready_of_mem e he
  exact (transmitsRight_iff (hr.2 hs)).symm

end Runs

/-! ## A program that sends -/

/-- `MOV.B #4, &P1SEL`, `MOV.B #4, &P1SEL2`, and a constant to `UCA0TXBUF`: the byte `0xC2` is
zero, `0xD2` is one. -/
def uartFirmware (constant : BitVec 8) : List (BitVec 8) :=
  [0xE2, 0x42, 0x26, 0x00, 0xE2, 0x42, 0x41, 0x00, constant, 0x43, 0x67, 0x00]

/-- The machine with this firmware. -/
def uartStart (constant : BitVec 8) : Emulator := firmwareStart (uartFirmware constant)

/-- The machine once P1.2 is selected. -/
def uartSending (constant : BitVec 8) : Emulator :=
  machineStep (machineStep (execRun (uartStart constant)))

set_option maxRecDepth 4000 in
/-- The machine is told to run, selects P1.2 and then sends. -/
theorem uartRun_sending {constant : BitVec 8} (hc : constant = 0xC2 ∨ constant = 0xD2) :
    UartRun (uartStart constant) (uartSending constant) (machineStep (uartSending constant))
        [.play, .head, .body, .head, .body] [.head, .body] ∧
      executedIn (uartSending constant) [.head, .body] = [uartSending constant] := by
  have hall : executedIn (uartStart constant)
      ([.play, .head, .body, .head, .body] ++ [.head, .body])
      = [execRun (uartStart constant), machineStep (execRun (uartStart constant)),
        uartSending constant] := by
    rcases hc with rfl | rfl <;> rfl
  have hlast : executedIn (uartSending constant) [.head, .body] = [uartSending constant] := by
    rcases hc with rfl | rfl <;> rfl
  refine ⟨⟨⟨uartFirmware constant, allocated, rfl⟩, ?_, ?_, by simp, ?_, ?_, ?_⟩, hlast⟩
  · rcases hc with rfl | rfl <;> rfl
  · rcases hc with rfl | rfl <;> rfl
  · rw [hall]
    simp only [List.forall_mem_cons]
    rcases hc with rfl | rfl <;>
      exact ⟨by decide +kernel, by decide +kernel, by decide +kernel, by simp⟩
  · rcases hc with rfl | rfl <;> decide +kernel
  · rw [hlast, List.forall_mem_singleton]
    rcases hc with rfl | rfl <;> decide +kernel

/-- A zero is stored, and nothing is sent. -/
theorem uart_loses_zero :
    ¬ ∀ start emu emu' before after, UartRun start emu emu' before after →
      emu'.serial = emu.serial ++ (executedIn emu after).flatMap storedByte := by
  intro hclaim
  obtain ⟨hrun, hexec⟩ := uartRun_sending (Or.inl (rfl : (0xC2 : BitVec 8) = 0xC2))
  have hserial := hclaim _ _ _ _ _ hrun
  rw [hexec] at hserial
  revert hserial
  decide +kernel

/-- A one is stored and sent. -/
theorem uart_output_iff_one :
    (machineStep (uartSending 0xD2)).serial
      = (uartSending 0xD2).serial ++ [uartSending 0xD2].flatMap storedByte := by
  obtain ⟨hrun, hexec⟩ := uartRun_sending (Or.inr (rfl : (0xD2 : BitVec 8) = 0xD2))
  rw [← hexec]
  apply (uart_output_iff hrun).mpr
  rw [hexec, List.forall_mem_singleton]
  decide +kernel

end Msp430
