/-
# The peripheral handlers (`devices/peripherals/`)

The four handlers that run after every instruction: the basic clock module, timer A,
port 1 and the serial interface.  Each reads its memory-mapped registers through the
pointers that the `setup_…` functions fix, so that the model uses the addresses
themselves.  The servo packets of `handle_timer_a` are computed in floating point,
go to the client only, and are not modelled.
-/
import Msp430.Machine

namespace Msp430

/-! ## Basic clock module (`bcm.c`) -/

/-- `BCSCTL2`, at `0x58`. -/
def bcsctl2 (emu : Emulator) : BitVec 8 := emu.load8 (.mem 0x58)

/-- The MCLK part of `handle_bcm`: `mclk_freq` is computed with the divider of the
previous call, before the switch on `DIVMx` assigns the new one.  The division is one of
doubles, exact for the frequencies and dividers there are; before the first call the
divider is zero and the converted infinity is whatever the host makes of it. -/
def handleMclk (emu : Emulator) : Emulator :=
  let selMx := bcsctl2 emu >>> 6
  let divMx := (bcsctl2 emu >>> 4) &&& 0x03
  let bcm :=
    if selMx = 0b00 ∨ selMx = 0b01 then
      { emu.bcm with mclkSource := .dcoclk, mclkFreq := emu.bcm.dcoFreq / emu.bcm.mclkDiv }
    else if selMx = 0b10 then { emu.bcm with mclkSource := .xt2clk }
    else { emu.bcm with mclkSource := .vloclk }
  { emu with bcm := { bcm with mclkDiv :=
      if divMx = 0b00 then 1 else if divMx = 0b01 then 2 else if divMx = 0b10 then 4
      else 8 } }

/-- The DCO part of `handle_bcm`: the five settings it knows; any other leaves the
frequency as it was. -/
def handleDco (emu : Emulator) : Emulator :=
  let dcox := emu.load8 (.mem 0x56) >>> 5
  let rselx := emu.load8 (.mem 0x57) &&& 0x0F
  let setDco (freq period pulseWidth : ℕ) : Emulator :=
    { emu with bcm := { emu.bcm with
        dcoFreq := freq, dcoPeriod := period, dcoPulseWidth := pulseWidth } }
  if dcox = 0b011 ∧ rselx = 0b0111 then setDco 1030000 971 485
  else if dcox = 0b100 ∧ rselx = 0b1111 then setDco 16000000 63 31
  else if dcox = 0b100 ∧ rselx = 0b1110 then setDco 12000000 83 42
  else if dcox = 0b100 ∧ rselx = 0b1101 then setDco 8000000 125 62
  else if dcox = 0b110 ∧ rselx = 0b0110 then setDco 1000000 1000 500
  else emu

/-- `handle_bcm`. -/
def handleBcm (emu : Emulator) : Emulator := handleDco (handleMclk emu)

/-! ## Timer A (`timer_a.c`) -/

/-- `TA0CTL`, at `0x160`. -/
def ta0ctl : Ptr := .mem 0x160

/-- `TA0R`, at `0x170`. -/
def ta0r : Ptr := .mem 0x170

/-- `handle_timer_a`: the mode and the source are decoded from the copy of `TA0CTL`
taken on entry; `TACLR` clears the counter and is then masked out of the register. -/
def handleTimerA (emu : Emulator) : Emulator :=
  let ctl := emu.load16 ta0ctl
  let tassel0 := (ctl >>> 8) &&& 0x03
  let id0 := (ctl >>> 6) &&& 0x03
  let mc0 := (ctl >>> 4) &&& 0x03
  let ta0clr := (ctl >>> 2) &&& 0x01
  let timer := { emu.timerA with
    source0 :=
      if tassel0 = 0b00 then .taclk else if tassel0 = 0b01 then .aclk
      else if tassel0 = 0b10 then .smclk else .inclk
    idiv0 :=
      if id0 = 0b00 then 1 else if id0 = 0b01 then 2 else if id0 = 0b10 then 4 else 8
    mode0 :=
      if mc0 = 0b00 then .stop else if mc0 = 0b01 then .up
      else if mc0 = 0b10 then .continous else .upDown }
  let emu :=
    if ta0clr != 0 then
      (emu.store16 ta0r 0).store16 ta0ctl ((emu.store16 ta0r 0).load16 ta0ctl &&& 0xFF0B)
    else emu
  let cap := (emu.load16 (.mem 0x164)).getLsbD 8
  { emu with timerA := { timer with
      captureMode0 := cap
      compareMode0 := !cap
      timer0Running := timer.timer0Running || mc0 != 0 } }

/-! ## Port 1 (`port1.c`) -/

/-- `handle_port_1`: eight blocks, one for each pin.  Only the blocks of P1.0, P1.1
and P1.2 look at the select registers. -/
def handlePort1 (emu : Emulator) : Emulator :=
  let out := emu.load8 (.mem 0x21)
  let dir := emu.load8 (.mem 0x22)
  let ifg := emu.load8 (.mem 0x23)
  let ie := emu.load8 (.mem 0x25)
  let sel := emu.load8 (.mem 0x26)
  let sel2 := emu.load8 (.mem 0x41)
  let p := emu.p1
  { emu with p1 :=
    { dir := fun n => dir.getLsbD n
      out := fun n => if dir.getLsbD n then out.getLsbD n else p.out n
      ie := fun n => ie.getLsbD n
      ifg := fun n => if ie.getLsbD n then ifg.getLsbD n else p.ifg n
      sel := fun n => if n ≤ 2 then sel.getLsbD n else p.sel n
      sel2 := fun n => if n ≤ 2 then sel2.getLsbD n else p.sel2 n } }

/-! ## Serial interface (`usci.c`) -/

/-- `IFG2`, at `0x03`. -/
def ifg2 : Ptr := .mem 0x03

/-- `UCA0TXBUF`, at `0x67`. -/
def uca0txbuf : Ptr := .mem 0x67

/-- `handle_usci`: with P1.2 in its UART function and `TXIFG` set, a non-zero
transmit buffer is sent and cleared. -/
def handleUsci (emu : Emulator) : Emulator :=
  if emu.p1.sel 2 && emu.p1.sel2 2 then
    if emu.load8 ifg2 &&& 0x02 != 0 then
      let c := emu.load8 uca0txbuf
      let emu := emu.store8 ifg2 (emu.load8 ifg2 &&& ~~~0x02)
      let emu :=
        if c != 0 then
          { emu with serial := emu.serial ++ [c] }.store8 uca0txbuf 0
        else emu
      emu.store8 ifg2 (emu.load8 ifg2 ||| 0x02)
    else emu
  else emu

/-- The handlers in the order in which the main loop and the `step` command call
them. -/
def handlePeripherals (emu : Emulator) : Emulator :=
  handleUsci (handlePort1 (handleTimerA (handleBcm emu)))

end Msp430
