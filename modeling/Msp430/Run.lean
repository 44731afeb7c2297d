/-
# The main loop and the `step` command (`main.cpp`, `debugger.c`)

The two ways in which the program makes the machine run: the fetch-decode-execute
loop of `main`, which the `run` command starts, and the `step` branch of `exec_cmd`.
Waiting changes no modelled state, but a turn of the loop ends with `mclk_wait_cycles`, which
returns only while MCLK comes from the DCO: `main` may stay in a turn for ever.
-/
import Msp430.Decoder
import Msp430.Peripherals
import Msp430.Progress

namespace Msp430

/-- One instruction and the peripheral handlers after it. -/
def machineStep (emu : Emulator) : Emulator := handlePeripherals (cpuStep emu)

/-- `handle_breakpoints`: at the first breakpoint equal to the program counter the
CPU is stopped and the instruction there is listed. -/
def handleBreakpoints (emu : Emulator) : Emulator :=
  if (List.range emu.numBps).any (fun i => emu.pc == emu.bpAddresses i) then
    disassemble { emu with running := false, debugMode := true } emu.pc 1
  else emu

/-- `mclk_wait_cycles (emu, 4)`: only the branch for the DCO leaves the inner loop, so that with
another source there is no state behind the wait. -/
def mclkWait (emu : Emulator) : Option Emulator :=
  if emu.bcm.mclkSource = .dcoclk then some emu else none

/-- One iteration of the loop of `main`, if it comes to its end. -/
def mainLoop (emu : Emulator) : Option Emulator :=
  if emu.quit then some emu
  else if !emu.running then some emu
  -- the instruction at a breakpoint is still executed
  else mclkWait (machineStep (handleBreakpoints emu))

/-- A number of iterations. -/
def mainLoops (n : ℕ) (emu : Emulator) : Option Emulator := Progress.turns mainLoop n emu

theorem mainLoops_succ (n : ℕ) (emu : Emulator) :
    mainLoops (n + 1) emu = (mainLoop emu).bind (mainLoops n) := rfl

/-- The `run` branch of `exec_cmd`. -/
def execRun (emu : Emulator) : Emulator := { emu with running := true, debugMode := false }

/-- The `step` branch of `exec_cmd` for the count it has parsed: `i` is a `uint32_t`,
so that the loop runs `steps` times as an unsigned number. -/
def execStep (emu : Emulator) (steps : BitVec 32) : Emulator :=
  let emu := machineStep^[steps.toNat] emu
  disassemble emu emu.pc 1

end Msp430
