/-
# Power on

What the machine is when `main` enters its loop, without the way there: the registers, the
memory map (the values of the peripherals' registers, the calibration data of the clock, the
bootloader, the firmware, and erased memory elsewhere), and the instructions that stand in the
firmware.  From there a session is a run of the board, the documented processor with the devices
of the emulator (`firmware_starts`).
-/
import Msp430.Debugging
import Msp430.GuestLogic
import Msp430.RunState

namespace Msp430

/-! ## The memory map -/

/-- The registers of the peripherals that do not start at zero, and the calibration data. -/
def startBytes : List (ℕ × BitVec 8) :=
  [(0x03, 0x02), (0x53, 0x05), (0x56, 0x60), (0x57, 0x87), (0x61, 0x01),
   (0x10F8, 0x95), (0x10F9, 0x8F), (0x10FA, 0x9E), (0x10FB, 0x8E),
   (0x10FC, 0x92), (0x10FD, 0x8D), (0x10FE, 0xD1), (0x10FF, 0x86)]

/-- The information memory and the code memory, which are erased. -/
def Erased (a : ℕ) : Prop := 0x1000 ≤ a ∧ a < 0x1100 ∨ 0xC000 ≤ a ∧ a < 0x10000

instance (a : ℕ) : Decidable (Erased a) := inferInstanceAs (Decidable (_ ∨ _))

/-- A byte of the memory before the firmware is loaded. -/
def startByte (a : ℕ) : BitVec 8 :=
  if 0x0C00 ≤ a ∧ a < 0x0C00 + blc.length then blc.getD (a - 0x0C00) 0
  else (startBytes.lookup a).getD (if Erased a then 0xFF else 0)

/-- A byte of the memory with the firmware. -/
def powerOnByte (tmpBin : List (BitVec 8)) (a : ℕ) : BitVec 8 :=
  if 0xC000 ≤ a ∧ a < 0xC000 + tmpBin.length then tmpBin.getD (a - 0xC000) 0 else startByte a

section Memory

theorem mem_setBytes (emu : Emulator) {bytes : List (ℕ × BitVec 8)} {a : ℕ}
    (h : ∀ b ∈ bytes, a ≠ b.1) : (emu.setBytes bytes).mem a = emu.mem a := by
  induction bytes generalizing emu with
  | nil => rfl
  | cons b bytes ih =>
    rw [Emulator.setBytes, List.foldl_cons, ← Emulator.setBytes,
      ih _ fun c hc => h c (List.mem_cons_of_mem _ hc)]
    exact if_neg (h b List.mem_cons_self)

theorem mem_setWords (emu : Emulator) {words : List (ℕ × BitVec 16)} {a : ℕ}
    (h : ∀ w ∈ words, a ≠ w.1 ∧ a ≠ w.1 + 1) : (emu.setWords words).mem a = emu.mem a := by
  induction words generalizing emu with
  | nil => rfl
  | cons w words ih =>
    rw [Emulator.setWords, List.foldl_cons, ← Emulator.setWords,
      ih _ fun v hv => h v (List.mem_cons_of_mem _ hv)]
    obtain ⟨h1, h2⟩ := h w List.mem_cons_self
    exact (if_neg h2).trans (if_neg h1)

/-- The registers of the peripherals are below `0x200`. -/
theorem mem_setups (emu : Emulator) {a : ℕ} (ha : 0x200 ≤ a) :
    (setupUsci (setupPort1 (setupTimerA (setupBcm emu)))).mem a = emu.mem a := by
  have hbytes (emu : Emulator) (bytes : List (ℕ × BitVec 8)) (h : ∀ b ∈ bytes, b.1 < 0x200) :
      (emu.setBytes bytes).mem a = emu.mem a :=
    mem_setBytes emu fun b hb => by
      have hlt := h b hb
      omega
  have hwords (emu : Emulator) (words : List (ℕ × BitVec 16))
      (h : ∀ w ∈ words, w.1 + 1 < 0x200) : (emu.setWords words).mem a = emu.mem a :=
    mem_setWords emu fun w hw => by
      have hlt := h w hw
      omega
  have hbcm : (setupBcm emu).mem a = emu.mem a := by
    simp only [setupBcm]
    exact hbytes emu _ (by decide)
  have htimer (emu : Emulator) : (setupTimerA emu).mem a = emu.mem a := by
    simp only [setupTimerA]
    exact hwords emu _ (by decide)
  have hport (emu : Emulator) : (setupPort1 emu).mem a = emu.mem a := by
    simp only [setupPort1]
    exact hbytes emu _ (by decide)
  have husci (emu : Emulator) : (setupUsci emu).mem a = emu.mem a := by
    have hifg (e : Emulator) (b : BitVec 8) : (e.setByte 0x03 b).mem a = e.mem a :=
      if_neg (by omega)
    rw [setupUsci, hifg, hifg]
    exact hbytes emu _ (by decide)
  rw [husci, hport, htimer, hbcm]

/-- The memory that `initialize_msp_memspace` leaves. -/
theorem mem_initializeMspMemspace (emu : Emulator) {a : ℕ} (ha : 0x200 ≤ a) :
    (initializeMspMemspace emu).mem a
      = (startBytes.lookup a).getD (if Erased a then 0xFF else 0) := by
  by_cases hcal : 0x10F8 ≤ a ∧ a < 0x1100
  · have hall : ∀ i < 8, (initializeMspMemspace allocated).mem (0x10F8 + i)
        = (startBytes.lookup (0x10F8 + i)).getD (if Erased (0x10F8 + i) then 0xFF else 0) := by
      decide +kernel
    have hi := hall (a - 0x10F8) (by omega)
    rw [show 0x10F8 + (a - 0x10F8) = a by omega] at hi
    rw [← hi]
    rfl
  · have hlookup : startBytes.lookup a = none := by
      rw [List.lookup_eq_none_iff]
      intro p hp
      fin_cases hp <;> simp <;> omega
    rw [hlookup, initializeMspMemspace, mem_setBytes _ fun b hb => by
      fin_cases hb <;> simp <;> omega]
    rfl

/-- **The memory map** before the firmware is loaded, whatever was there. -/
theorem mem_setUp (emu : Emulator) (a : ℕ) : (setUp emu).mem a = startByte a := by
  by_cases hlow : a < 0x200
  · have hall : ∀ a < 0x200, (setUp allocated).mem a = startByte a := by decide +kernel
    rw [← hall a hlow]
    rfl
  · have haddr : (0x0C00 : BitVec 16).toNat = 0x0C00 := rfl
    have hmem := mem_initializeMspMemspace emu (show 0x200 ≤ a by omega)
    rw [startByte, ← hmem, setUp, loadBootloader]
    simp only [loadImage, haddr]
    rw [mem_setups _ (by omega)]
    rfl

end Memory

/-! ## The machine -/

/-- The processor at power on, with a firmware. -/
def powerOn (tmpBin : List (BitVec 8)) : Processor where
  reg n := if n = 0 then 0xC000 else if n = 1 then 0x400 else 0
  sr := ⟨0, false, false, false, false, false, false, false, false, false⟩
  mem a := powerOnByte tmpBin a.toNat
  reg_two := rfl
  reg_three := rfl

/-- The listing of the first instruction changes a register: it is a single-operand instruction
that increments its register, or a byte instruction on the stack pointer. -/
def ListingShows (tmpBin : List (BitVec 8)) : Prop :=
  let w := (powerOn tmpBin).wordAt 0xC000
  formatId w = 1 ∧ (autoIncrementsII w = true ∨ masksOperand w = true ∧ lowReg w = 1)

instance (tmpBin : List (BitVec 8)) : Decidable (ListingShows tmpBin) :=
  inferInstanceAs (Decidable (_ ∧ _))

section PowerOn

variable {tmpBin : List (BitVec 8)}

/-- The machine with its firmware, before anything is listed. -/
theorem view_loadImage (emu : Emulator) (tmpBin : List (BitVec 8)) :
    view (loadImage (setUp emu) 0xC000 tmpBin) = powerOn tmpBin := by
  have haddr : (0xC000 : BitVec 16).toNat = 0xC000 := rfl
  refine Processor.ext (funext fun n => ?_) rfl (funext fun a => ?_)
  · have hregs : (loadImage (setUp emu) 0xC000 tmpBin).regs
        = fun n => if n = 0 then 0xC000 else if n = 1 then 0x400 else if n = 2 then emu.regs 2
            else 0 := rfl
    simp only [view, powerOn, hregs]
    fin_cases n <;> rfl
  · simp only [view, powerOn, loadImage, powerOnByte, mem_setUp, haddr]

/-- What the listing looks at. -/
theorem disturbs_loadImage (emu : Emulator) :
    Disturbs (loadImage (setUp emu) 0xC000 tmpBin) ((powerOn tmpBin).wordAt 0xC000)
      ↔ ListingShows tmpBin := by
  have hhigh : ∀ n : Fin 16, n ≠ 2 →
      ((n ≠ 0 ∧ n ≠ 2 ∧ highByte ((loadImage (setUp emu) 0xC000 tmpBin).regs n) ≠ 0) ↔ n = 1) := by
    have hregs (n : Fin 16) (hn : n ≠ 2) : (loadImage (setUp emu) 0xC000 tmpBin).regs n
        = if n = 0 then 0xC000 else if n = 1 then 0x400 else 0 :=
      if_ctx_congr Iff.rfl (fun _ => rfl) fun _ => if_ctx_congr Iff.rfl (fun _ => rfl)
        fun _ => if_neg hn
    intro n hn
    rw [hregs n hn]
    revert n
    decide
  rw [Disturbs, ListingShows]
  refine and_congr_right fun _ => or_congr_right (and_congr_right fun _ => ?_)
  by_cases h2 : lowReg ((powerOn tmpBin).wordAt 0xC000) = 2
  · rw [h2]
    exact iff_of_false (fun h => h.2.1 rfl) (by decide)
  · exact hhigh _ h2

/-- **The machine when `main` enters its loop** is the processor at power on. -/
theorem boardView_initialise {emu emu' : Emulator} (h : initialise tmpBin emu = some emu')
    (hlisted : ¬ ListingShows tmpBin) : boardView emu' = ⟨powerOn tmpBin, emu.serial⟩ := by
  have hview := view_loadImage emu tmpBin
  have hword : (loadImage (setUp emu) 0xC000 tmpBin).load16 (getAddrPtr 0xC000)
      = (powerOn tmpBin).wordAt 0xC000 := by
    rw [← hview]
    rfl
  have halike := disassemble_alike (loadImage (setUp emu) 0xC000 tmpBin) 0xC000 1 fun i hi => by
    have hone : (1 : BitVec 8).toNat = 1 := rfl
    obtain rfl : i = 0 := by omega
    rw [lineWord, Function.iterate_zero_apply, hword, disturbs_loadImage]
    exact hlisted
  rw [(initialise_eq h).2, halike.boardView, boardView, hview]
  rfl

end PowerOn

/-! ## The firmware -/

/-- The words of an image, the low byte of each first. -/
def imageOf (words : List (BitVec 16)) : List (BitVec 8) :=
  words.flatMap fun w => [w.setWidth 8, highByte w]

theorem length_imageOf (words : List (BitVec 16)) : (imageOf words).length = 2 * words.length := by
  induction words with
  | nil => rfl
  | cons w words ih =>
    rw [imageOf, List.flatMap_cons, List.length_append, ← imageOf, ih, List.length_cons,
      List.length_cons, List.length_cons, List.length_nil]
    omega

/-- A word of the image. -/
theorem getD_imageOf (words : List (BitVec 16)) (data : List (BitVec 8)) {j : ℕ}
    (h : j < words.length) :
    (imageOf words ++ data).getD (2 * j) 0 = (words[j]).setWidth 8 ∧
      (imageOf words ++ data).getD (2 * j + 1) 0 = highByte words[j] := by
  induction words generalizing j with
  | nil => exact absurd h (Nat.not_lt_zero j)
  | cons w words ih =>
    cases j with
    | zero => exact ⟨rfl, rfl⟩
    | succ j => exact ih (by simpa using h)

/-- **The instructions of the firmware stand at the start of the code memory.** -/
theorem loaded_powerOn (code : List Instruction) (data : List (BitVec 8))
    (hfit : (imageOf (instructions.writeAll code) ++ data).length ≤ 0x4000) :
    (powerOn (imageOf (instructions.writeAll code) ++ data)).Loaded 0xC000 code := by
  intro j hj
  rw [List.length_append, length_imageOf] at hfit
  obtain ⟨hlow, hhigh⟩ := getD_imageOf _ data hj
  have haddr (c : ℕ) (hc : c < 2) :
      (0xC000 + 2 * BitVec.ofNat 16 j + BitVec.ofNat 16 c : BitVec 16).toNat
        = 0xC000 + (2 * j + c) := by
    simp only [BitVec.toNat_add, BitVec.toNat_mul, BitVec.toNat_ofNat, BitVec.reduceToNat]
    omega
  have hbyte (c : ℕ) (hc : c < 2) :
      (powerOn (imageOf (instructions.writeAll code) ++ data)).mem
          (0xC000 + 2 * BitVec.ofNat 16 j + BitVec.ofNat 16 c)
        = (imageOf (instructions.writeAll code) ++ data).getD (2 * j + c) 0 := by
    simp only [powerOn]
    rw [haddr c hc, powerOnByte, if_pos, Nat.add_sub_cancel_left]
    rw [List.length_append, length_imageOf]
    omega
  have hzero : (powerOn (imageOf (instructions.writeAll code) ++ data)).mem
      (0xC000 + 2 * BitVec.ofNat 16 j) = ((instructions.writeAll code)[j]).setWidth 8 := by
    rw [← hlow, ← Nat.add_zero (2 * j), ← hbyte 0 (by decide)]
    exact congrArg _ (BitVec.add_zero _).symm
  have hone := hbyte 1 (by decide)
  rw [hhigh] at hone
  rw [Processor.wordAt, hzero]
  exact (congrArg (joinBytes · _) hone).trans (joinBytes_highByte _)

/-- **A firmware is started as it was written**: its instructions stand where the processor
starts, and in any gentle session that moves by instructions alone on the machine that `main` has
initialised, played, stepped and looked at in any order, these are the steps of the board from
power on, as long as the code executes them as documented. -/
theorem firmware_starts (code : List Instruction) (data : List (BitVec 8))
    {tmpBin : List (BitVec 8)} (himage : tmpBin = imageOf (instructions.writeAll code) ++ data)
    {emu emu' e : Emulator} (hinit : initialise tmpBin emu = some emu')
    (hlisted : ¬ ListingShows tmpBin) {evs : List SessionEvent} (h : session emu' evs = some e)
    (hg : Gentle emu' evs) (hsteps : ∀ m ∈ movesIn emu' evs, m = .step)
    (hexact : Board.ExactRun ⟨powerOn tmpBin, emu.serial⟩ (movesIn emu' evs).length)
    (hrun : (Board.run ⟨powerOn tmpBin, emu.serial⟩ (movesIn emu' evs).length).isSome) :
    (powerOn tmpBin).Loaded 0xC000 code ∧
      Board.run ⟨powerOn tmpBin, emu.serial⟩ (movesIn emu' evs).length = some (boardView e) := by
  have hstart := boardView_initialise hinit hlisted
  rw [← hstart] at hexact hrun ⊢
  refine ⟨?_, boardView_of_session h hg hsteps hexact hrun⟩
  rw [himage]
  apply loaded_powerOn
  rw [← himage]
  exact (initialise_eq hinit).1

/-- Three instructions: the stack pointer is set, a constant is stored, and a loop. -/
def smallCode : List Instruction :=
  [.two .mov .word (.immediate 0x0400) (.register 1),
   .two .mov .word (.immediate 0x1234) (.absolute 0x0200), .jump 7 (-1)]

/-- It is played, paused and stepped. -/
def smallEvents : List SessionEvent :=
  [.command (CString.bytes "dis 3"), .play, .head, .body, .pause, .command (CString.bytes "step 2")]

theorem firmware_starts_small :
    (powerOn (imageOf (instructions.writeAll smallCode))).Loaded 0xC000 smallCode ∧
      ∃ e, session (firmwareStart (imageOf (instructions.writeAll smallCode))) smallEvents = some e ∧
        Board.run ⟨powerOn (imageOf (instructions.writeAll smallCode)), []⟩ 3
          = some (boardView e) := by
  have hinit : initialise (imageOf (instructions.writeAll smallCode)) allocated
      = some (firmwareStart (imageOf (instructions.writeAll smallCode))) := rfl
  have hsome : (session (firmwareStart (imageOf (instructions.writeAll smallCode)))
      smallEvents).isSome := by decide +kernel
  have hlength : (movesIn (firmwareStart (imageOf (instructions.writeAll smallCode)))
      smallEvents).length = 3 := by decide +kernel
  obtain ⟨e, he⟩ := Option.isSome_iff_exists.mp hsome
  have h := firmware_starts smallCode [] (List.append_nil _).symm hinit (by decide +kernel) he
    (by decide +kernel) (by decide +kernel) (by decide +kernel) (by decide +kernel)
  rw [hlength] at h
  exact ⟨h.1, e, he, h.2⟩

end Msp430
