/-
# What the peripheral handlers do

The four handlers as one function of the state: they change no register and no flag, and in
memory the timer's own registers and the transmit buffer alone.  What they write depends on
the memory they find, not on the mirrors of the peripherals; `Sends` says when a byte goes out.
-/
import Msp430.Peripherals
import Msp430.Shifts

namespace Msp430

/-- The DCO part assigns to the clock values alone. -/
theorem handleDco_eq (emu : Emulator) :
    handleDco emu = { emu with bcm := (handleDco emu).bcm } := by
  simp only [handleDco]
  split_ifs <;> rfl

/-! ## The source of MCLK -/

/-- `SELMx` names the DCO as the source of MCLK. -/
def SelectsDco (emu : Emulator) : Prop :=
  bcsctl2 emu >>> 6 = 0b00 ∨ bcsctl2 emu >>> 6 = 0b01

instance (emu : Emulator) : Decidable (SelectsDco emu) :=
  inferInstanceAs (Decidable (_ ∨ _))

theorem mclkSource_handleDco (emu : Emulator) :
    (handleDco emu).bcm.mclkSource = emu.bcm.mclkSource := by
  unfold handleDco
  dsimp only
  split_ifs <;> rfl

/-- **The source** of MCLK after the handler is the DCO exactly when the register selects it. -/
theorem mclkSource_handleBcm (emu : Emulator) :
    (handleBcm emu).bcm.mclkSource = .dcoclk ↔ SelectsDco emu := by
  rw [handleBcm, mclkSource_handleDco]
  by_cases h : SelectsDco emu
  · refine iff_of_true ?_ h
    unfold SelectsDco at h
    simp only [handleMclk, if_pos h]
  · refine iff_of_false ?_ h
    unfold SelectsDco at h
    simp only [handleMclk, if_neg h]
    split_ifs <;> decide

/-! ## The memory after the peripheral handlers -/

/-- `handle_usci` has a byte to send. -/
def Sends (emu : Emulator) : Prop :=
  (emu.mem 0x26).getLsbD 2 = true ∧ (emu.mem 0x41).getLsbD 2 = true ∧
    emu.mem 0x03 &&& 0x02 ≠ 0 ∧ emu.mem 0x67 ≠ 0

/-- The handlers find no timer to clear and no byte to send. -/
def HandlersIdle (emu : Emulator) : Prop :=
  (emu.load16 ta0ctl >>> 2) &&& 0x01 = 0 ∧ ¬ Sends emu

instance (emu : Emulator) : Decidable (Sends emu) :=
  inferInstanceAs (Decidable (_ ∧ _ ∧ _ ∧ _))

instance (emu : Emulator) : Decidable (HandlersIdle emu) :=
  inferInstanceAs (Decidable (_ ∧ ¬ _))

/-- `handle_bcm` writes no memory. -/
theorem mem_handleBcm (emu : Emulator) : (handleBcm emu).mem = emu.mem := by
  rw [handleBcm, handleDco_eq]
  rfl

section Usci

variable {emu : Emulator} (hsel : emu.p1.sel 2 = (emu.mem 0x26).getLsbD 2)
  (hsel2 : emu.p1.sel2 2 = (emu.mem 0x41).getLsbD 2)

include hsel hsel2

/-- The transmit flag is cleared and set again, and a byte that is sent is cleared. -/
theorem mem_handleUsci_of_sends (h : Sends emu) :
    (handleUsci emu).mem = Function.update emu.mem 0x67 0 := by
  have hset : ∀ v : BitVec 8, v &&& 0x02 ≠ 0 → (v &&& 0xFD) ||| 0x02 = v := by decide
  obtain ⟨h26, h41, hifg, hc⟩ := h
  have hback := hset _ hifg
  have hload : emu.load8 ifg2 &&& 0x02 ≠ 0 := hifg
  have htx : emu.load8 uca0txbuf ≠ 0 := hc
  simp only [handleUsci, hsel, hsel2, h26, h41, hload, htx, Bool.and_self, bne_iff_ne, ne_eq,
    not_false_eq_true, if_true]
  funext a
  by_cases h3 : a = 0x03
  · simpa [ifg2, uca0txbuf, Emulator.load8, Emulator.store8, Emulator.setByte, h3] using hback
  · by_cases h67 : a = 0x67
    · simp [ifg2, uca0txbuf, Emulator.store8, Emulator.setByte, h67]
    · simp [ifg2, uca0txbuf, Emulator.store8, Emulator.setByte, h3, h67]

theorem mem_handleUsci_of_not (h : ¬ Sends emu) : (handleUsci emu).mem = emu.mem := by
  have hset : ∀ v : BitVec 8, v &&& 0x02 ≠ 0 → (v &&& 0xFD) ||| 0x02 = v := by decide
  have hload : emu.load8 ifg2 = emu.mem 0x03 := rfl
  have htx : emu.load8 uca0txbuf = emu.mem 0x67 := rfl
  simp only [handleUsci, hsel, hsel2, hload, htx, Bool.and_eq_true, bne_iff_ne]
  split_ifs with hfun hifg hc
  · exact absurd ⟨hfun.1, hfun.2, hifg, hc⟩ h
  · funext a
    by_cases h3 : a = 0x03
    · simpa [ifg2, Emulator.load8, Emulator.store8, Emulator.setByte, h3] using hset _ hifg
    · simp [ifg2, Emulator.store8, Emulator.setByte, h3]
  · rfl
  · rfl

end Usci

/-- `TACLR` is bit 2 of the register. -/
theorem taclr_iff (emu : Emulator) :
    (emu.load16 ta0ctl >>> 2) &&& 0x01 = 0 ↔ (emu.mem 0x160).getLsbD 2 = false := by
  have hlow : (emu.load16 ta0ctl).getLsbD 2 = (emu.mem 0x160).getLsbD 2 := by
    simp [ta0ctl, Emulator.load16, joinBytes]
  have hone := and_one_ne_zero (emu.load16 ta0ctl >>> 2)
  rw [BitVec.getLsbD_ushiftRight, hlow] at hone
  rw [← hone]
  simp

/-- The registers of the timer once `TACLR` is served. -/
def clearTimer (emu : Emulator) : Emulator :=
  (emu.store16 ta0r 0).store16 ta0ctl ((emu.store16 ta0r 0).load16 ta0ctl &&& 0xFF0B)

/-- `handle_timer_a` writes no memory unless `TACLR` is set. -/
theorem mem_handleTimerA_eq (emu : Emulator) :
    (handleTimerA emu).mem
      = if (emu.load16 ta0ctl >>> 2) &&& 0x01 = 0 then emu.mem else (clearTimer emu).mem := by
  by_cases h : (emu.load16 ta0ctl >>> 2) &&& 0x01 = 0
  · have hclr : ¬ ((emu.load16 ta0ctl >>> 2) &&& 0x01 != 0) = true := by simpa using h
    rw [if_pos h]
    simp only [handleTimerA, if_neg hclr]
  · have hclr : ((emu.load16 ta0ctl >>> 2) &&& 0x01 != 0) = true := by simpa using h
    rw [if_neg h]
    simp only [handleTimerA, if_pos hclr, clearTimer]

/-- `handle_timer_a` writes no memory unless `TACLR` is set, which it then clears. -/
theorem mem_handleTimerA (emu : Emulator) :
    if (emu.load16 ta0ctl >>> 2) &&& 0x01 = 0 then (handleTimerA emu).mem = emu.mem
    else (handleTimerA emu).mem 0x160 ≠ emu.mem 0x160 := by
  rw [mem_handleTimerA_eq]
  split_ifs with h
  · rfl
  · have hclear (e : Emulator) (x : BitVec 16) :
        ((e.store16 ta0ctl (x &&& 0xFF0B)).mem 0x160).getLsbD 2 = false := by
      simp [ta0ctl, Emulator.store16, Emulator.setByte]
    intro hsame
    apply h
    rw [taclr_iff, ← hsame]
    exact hclear _ _

/-- The cells of `TA0CTL` and `TA0R`. -/
def timerCells : List ℕ := [0x160, 0x161, 0x170, 0x171]

theorem mem_handleTimerA_of_ne (emu : Emulator) {a : ℕ} (ha : a ∉ timerCells) :
    (handleTimerA emu).mem a = emu.mem a := by
  rw [mem_handleTimerA_eq]
  split_ifs
  · rfl
  · have hne : a ≠ 0x160 ∧ a ≠ 0x161 ∧ a ≠ 0x170 ∧ a ≠ 0x171 := by
      simpa [timerCells] using ha
    simp [clearTimer, ta0ctl, ta0r, Emulator.store16, Emulator.setByte, hne]

/-! ## What the handlers leave -/

/-- The view sees no memory and nothing of the peripherals. -/
structure Aside {γ : Type*} (V : Emulator → γ) : Prop where
  kept : ∀ (emu : Emulator) (mem : ℕ → BitVec 8) (p1 : Port1) (bcm : Bcm) (timerA : TimerA)
    (serial : List (BitVec 8)),
    V { emu with mem := mem, p1 := p1, bcm := bcm, timerA := timerA, serial := serial } = V emu

/-- **The handlers** leave all that stands aside from memory and peripherals. -/
theorem Aside.handlePeripherals {γ : Type*} {V : Emulator → γ} (h : Aside V) (emu : Emulator) :
    V (handlePeripherals emu) = V emu := by
  have hbcm (e : Emulator) : V (handleBcm e) = V e := by
    rw [handleBcm, handleDco_eq]
    exact h.kept e e.mem e.p1 _ e.timerA e.serial
  have htimer (e : Emulator) : V (handleTimerA e) = V e := by
    by_cases hc : ((e.load16 ta0ctl >>> 2) &&& 0x01 != 0) = true
    · simp only [handleTimerA, if_pos hc]
      exact h.kept e _ e.p1 e.bcm _ e.serial
    · simp only [handleTimerA, if_neg hc]
      exact h.kept e e.mem e.p1 e.bcm _ e.serial
  have hport (e : Emulator) : V (handlePort1 e) = V e := h.kept e e.mem _ e.bcm e.timerA e.serial
  have husci (e : Emulator) : V (handleUsci e) = V e := by
    simp only [handleUsci]
    split_ifs
    · exact h.kept e _ e.p1 e.bcm e.timerA _
    · exact h.kept e _ e.p1 e.bcm e.timerA e.serial
    · rfl
    · rfl
  rw [Msp430.handlePeripherals, husci, hport, htimer, hbcm]

/-- The handlers change no register and no flag. -/
theorem regs_handlePeripherals (emu : Emulator) :
    (handlePeripherals emu).regs = emu.regs ∧ (handlePeripherals emu).sr = emu.sr :=
  ⟨Aside.handlePeripherals ⟨fun _ _ _ _ _ _ => rfl⟩ emu,
    Aside.handlePeripherals ⟨fun _ _ _ _ _ _ => rfl⟩ emu⟩

theorem bcm_handleTimerA (emu : Emulator) : (handleTimerA emu).bcm = emu.bcm := by
  by_cases hc : ((emu.load16 ta0ctl >>> 2) &&& 0x01 != 0) = true
  · simp only [handleTimerA, if_pos hc]
    rfl
  · simp only [handleTimerA, if_neg hc]

/-- The clock values after the handlers are those of `handle_bcm`. -/
theorem bcm_handlePeripherals (emu : Emulator) :
    (handlePeripherals emu).bcm = (handleBcm emu).bcm := by
  have husci (e : Emulator) : (handleUsci e).bcm = e.bcm := by
    simp only [handleUsci]
    split_ifs <;> rfl
  rw [handlePeripherals, husci]
  exact bcm_handleTimerA _

/-! ## The handlers together -/

/-- The state that `handle_usci` finds. -/
def mirrored (emu : Emulator) : Emulator := handlePort1 (handleTimerA (handleBcm emu))

section Mirrored

variable (emu : Emulator)

theorem handlePeripherals_eq : handlePeripherals emu = handleUsci (mirrored emu) := rfl

theorem mem_mirrored : (mirrored emu).mem = (handleTimerA (handleBcm emu)).mem := rfl

/-- The port mirror is that of the memory. -/
theorem sel_mirrored : (mirrored emu).p1.sel 2 = ((mirrored emu).mem 0x26).getLsbD 2 := rfl

theorem sel2_mirrored : (mirrored emu).p1.sel2 2 = ((mirrored emu).mem 0x41).getLsbD 2 := rfl

theorem mem_mirrored_of_ne {a : ℕ} (ha : a ∉ timerCells) : (mirrored emu).mem a = emu.mem a := by
  rw [mem_mirrored, mem_handleTimerA_of_ne _ ha, mem_handleBcm]

/-- Nothing before `handle_usci` sends or keeps from sending. -/
theorem sends_mirrored_iff : Sends (mirrored emu) ↔ Sends emu := by
  unfold Sends
  rw [mem_mirrored_of_ne emu (a := 0x26) (by decide),
    mem_mirrored_of_ne emu (a := 0x41) (by decide),
    mem_mirrored_of_ne emu (a := 0x03) (by decide),
    mem_mirrored_of_ne emu (a := 0x67) (by decide)]

theorem serial_mirrored : (mirrored emu).serial = emu.serial := by
  have hbcm : (handleBcm emu).serial = emu.serial := by
    rw [handleBcm, handleDco_eq]
    rfl
  have htimer (e : Emulator) : (handleTimerA e).serial = e.serial := by
    by_cases hc : ((e.load16 ta0ctl >>> 2) &&& 0x01 != 0) = true
    · simp only [handleTimerA, if_pos hc]
      rfl
    · simp only [handleTimerA, if_neg hc]
  exact (htimer _).trans hbcm

/-- **What the handlers send.** -/
theorem serial_handlePeripherals :
    (handlePeripherals emu).serial
      = emu.serial ++ if Sends emu then [emu.mem 0x67] else [] := by
  have hload : (mirrored emu).load8 ifg2 = emu.mem 0x03 :=
    mem_mirrored_of_ne emu (by decide)
  have htx : (mirrored emu).load8 uca0txbuf = emu.mem 0x67 :=
    mem_mirrored_of_ne emu (by decide)
  have hfun : ((mirrored emu).p1.sel 2 && (mirrored emu).p1.sel2 2) = true
      ↔ (emu.mem 0x26).getLsbD 2 = true ∧ (emu.mem 0x41).getLsbD 2 = true := by
    rw [sel_mirrored, sel2_mirrored, mem_mirrored_of_ne emu (a := 0x26) (by decide),
      mem_mirrored_of_ne emu (a := 0x41) (by decide), Bool.and_eq_true]
  rw [handlePeripherals_eq, ← serial_mirrored emu]
  simp only [handleUsci, hload, htx, bne_iff_ne]
  split_ifs with h1 h2 h3 hs hs hs hs
  · rfl
  · exact absurd ⟨(hfun.mp h1).1, (hfun.mp h1).2, h2, h3⟩ hs
  · exact absurd hs.2.2.2 h3
  · exact (List.append_nil _).symm
  · exact absurd hs.2.2.1 h2
  · exact (List.append_nil _).symm
  · exact absurd (hfun.mpr ⟨hs.1, hs.2.1⟩) h1
  · exact (List.append_nil _).symm

/-- **What the handlers leave in memory**, the timer's registers apart. -/
theorem mem_handlePeripherals_of_ne {a : ℕ} (ha : a ∉ timerCells) :
    (handlePeripherals emu).mem a = if Sends emu ∧ a = 0x67 then 0 else emu.mem a := by
  rw [handlePeripherals_eq]
  by_cases hs : Sends emu
  · rw [mem_handleUsci_of_sends (sel_mirrored emu) (sel2_mirrored emu)
      ((sends_mirrored_iff emu).mpr hs)]
    by_cases h67 : a = 0x67
    · rw [if_pos ⟨hs, h67⟩, h67, Function.update_self]
    · rw [if_neg (fun h => h67 h.2), Function.update_of_ne h67, mem_mirrored_of_ne emu ha]
  · rw [mem_handleUsci_of_not (sel_mirrored emu) (sel2_mirrored emu)
      ((sends_mirrored_iff emu).not.mpr hs), if_neg (fun h => hs h.1), mem_mirrored_of_ne emu ha]

/-- **What the handlers leave in the timer's registers.** -/
theorem mem_handlePeripherals_of_mem {a : ℕ} (ha : a ∈ timerCells) :
    (handlePeripherals emu).mem a
      = if (emu.mem 0x160).getLsbD 2 then (clearTimer emu).mem a else emu.mem a := by
  have hne : a ≠ 0x67 := by
    rintro rfl
    exact absurd ha (by decide)
  have hbcm : (handleBcm emu).mem = emu.mem := mem_handleBcm emu
  have hmirrored : (mirrored emu).mem a
      = if (emu.mem 0x160).getLsbD 2 then (clearTimer emu).mem a else emu.mem a := by
    rw [mem_mirrored, mem_handleTimerA_eq]
    simp only [taclr_iff, hbcm]
    cases (emu.mem 0x160).getLsbD 2
    · rfl
    · simp only [clearTimer, ta0ctl, ta0r, Emulator.store16, Emulator.setByte, Emulator.load16,
        hbcm]
      rfl
  rw [handlePeripherals_eq, ← hmirrored]
  by_cases hs : Sends (mirrored emu)
  · rw [mem_handleUsci_of_sends (sel_mirrored emu) (sel2_mirrored emu) hs,
      Function.update_of_ne hne]
  · rw [mem_handleUsci_of_not (sel_mirrored emu) (sel2_mirrored emu) hs]

end Mirrored

/-- The handlers find the same work in the same memory. -/
theorem mem_handlePeripherals_congr {emu emu' : Emulator} (h : emu'.mem = emu.mem) :
    (handlePeripherals emu').mem = (handlePeripherals emu).mem := by
  have hbcm : (handleBcm emu').mem = (handleBcm emu).mem := by
    rw [mem_handleBcm, mem_handleBcm, h]
  have hstored (e e' : Emulator) (he : e'.mem = e.mem) (p : ℕ) (v : BitVec 16) :
      (e'.store16 (.mem p) v).mem = (e.store16 (.mem p) v).mem := by
    simp only [Emulator.store16, Emulator.setByte, he]
  have hload (e e' : Emulator) (he : e'.mem = e.mem) :
      e'.load16 ta0ctl = e.load16 ta0ctl := by
    simp only [ta0ctl, Emulator.load16, he]
  have htimer : (handleTimerA (handleBcm emu')).mem = (handleTimerA (handleBcm emu)).mem := by
    have hclear : (clearTimer (handleBcm emu')).mem = (clearTimer (handleBcm emu)).mem := by
      have hr := hstored _ _ hbcm 0x170 0
      rw [clearTimer, clearTimer, ta0r, hload _ _ hr]
      exact hstored _ _ hr _ _
    rw [mem_handleTimerA_eq, mem_handleTimerA_eq, hload _ _ hbcm, hbcm, hclear]
  have hmirrored : (mirrored emu').mem = (mirrored emu).mem := htimer
  have hsends : Sends (mirrored emu') ↔ Sends (mirrored emu) := by
    rw [Sends, Sends, hmirrored]
  rw [handlePeripherals_eq, handlePeripherals_eq]
  by_cases hs : Sends (mirrored emu)
  · rw [mem_handleUsci_of_sends (sel_mirrored emu) (sel2_mirrored emu) hs,
      mem_handleUsci_of_sends (sel_mirrored emu') (sel2_mirrored emu') (hsends.mpr hs), hmirrored]
  · rw [mem_handleUsci_of_not (sel_mirrored emu) (sel2_mirrored emu) hs,
      mem_handleUsci_of_not (sel_mirrored emu') (sel2_mirrored emu') (hsends.not.mpr hs),
      hmirrored]

/-- **The handlers leave the memory exactly when they are idle.** -/
theorem mem_handlePeripherals_iff (emu : Emulator) :
    (handlePeripherals emu).mem = emu.mem ↔ HandlersIdle emu := by
  have hctl : (handleBcm emu).load16 ta0ctl = emu.load16 ta0ctl := by
    simp only [ta0ctl, Emulator.load16, mem_handleBcm]
  have htimer := mem_handleTimerA (handleBcm emu)
  rw [hctl, mem_handleBcm, ← mem_mirrored] at htimer
  unfold HandlersIdle
  by_cases hclr : (emu.load16 ta0ctl >>> 2) &&& 0x01 = 0
  · rw [if_pos hclr] at htimer
    by_cases hs : Sends emu
    · refine iff_of_false (fun h => ?_) (fun h => h.2 hs)
      -- the byte sent is gone
      have h67 := mem_handlePeripherals_of_ne emu (a := 0x67) (by decide)
      rw [if_pos ⟨hs, rfl⟩, h] at h67
      exact hs.2.2.2 h67
    · rw [handlePeripherals_eq, mem_handleUsci_of_not (sel_mirrored emu) (sel2_mirrored emu)
        ((sends_mirrored_iff emu).not.mpr hs), htimer]
      exact iff_of_true rfl ⟨hclr, hs⟩
  · rw [if_neg hclr] at htimer
    refine iff_of_false (fun h => htimer ?_) (fun h => hclr h.1)
    -- the transmitter does not bring the timer's register back
    rw [← h, handlePeripherals_eq]
    by_cases hs : Sends (mirrored emu)
    · rw [mem_handleUsci_of_sends (sel_mirrored emu) (sel2_mirrored emu) hs]
      rfl
    · rw [mem_handleUsci_of_not (sel_mirrored emu) (sel2_mirrored emu) hs]

end Msp430
