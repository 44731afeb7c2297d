/-
# One update of the clock values

`handle_bcm` computes the frequency of MCLK first, and then the divider and the frequency of the
DCO of which it is the quotient.  What it stores is the quotient of the values from before the
call, and a second call stores that of the values which the first has left.
`clock_update_iff` says when the two are the same.
-/
import Msp430.Clocks

namespace Msp430

attribute [ext] Bcm

/-! ## What the registers select -/

/-- The frequency of the DCO for `DCOx` and `RSELx`, where the handler knows one. -/
def dcoFrequency (dcox rselx : BitVec 8) : Option ℕ :=
  if dcox = 0b011 ∧ rselx = 0b0111 then some 1030000
  else if dcox = 0b100 ∧ rselx = 0b1111 then some 16000000
  else if dcox = 0b100 ∧ rselx = 0b1110 then some 12000000
  else if dcox = 0b100 ∧ rselx = 0b1101 then some 8000000
  else if dcox = 0b110 ∧ rselx = 0b0110 then some 1000000
  else none

section Update

variable (emu : Emulator)

/-- The frequency that the registers select; a setting that the handler does not know keeps the
one from before. -/
def selectedFreq : ℕ :=
  (dcoFrequency (emu.load8 (.mem 0x56) >>> 5) (emu.load8 (.mem 0x57) &&& 0x0F)).getD
    emu.bcm.dcoFreq

/-- The divider that the registers select. -/
def selectedDiv : ℕ := 2 ^ ((bcsctl2 emu >>> 4) &&& 0x03).toNat

theorem dcoFreq_handleMclk : (handleMclk emu).bcm.dcoFreq = emu.bcm.dcoFreq := by
  unfold handleMclk
  dsimp only
  split_ifs <;> rfl

/-- **The frequency of the DCO** after the call. -/
theorem dcoFreq_handleBcm_eq : (handleBcm emu).bcm.dcoFreq = selectedFreq emu := by
  have hdco (e : Emulator) : (handleDco e).bcm.dcoFreq = selectedFreq e := by
    unfold handleDco selectedFreq dcoFrequency
    dsimp only
    split_ifs <;> rfl
  have hfreq := dcoFreq_handleMclk emu
  rw [handleBcm, hdco]
  unfold selectedFreq
  rw [hfreq]
  rfl

/-- **The divider** after the call. -/
theorem mclkDiv_handleBcm_eq : (handleBcm emu).bcm.mclkDiv = selectedDiv emu := by
  have hdiv : ∀ d : BitVec 8, (if (d >>> 4) &&& 0x03 = 0b00 then 1
      else if (d >>> 4) &&& 0x03 = 0b01 then 2
      else if (d >>> 4) &&& 0x03 = 0b10 then 4 else 8) = 2 ^ ((d >>> 4) &&& 0x03).toNat := by
    decide +kernel
  rw [handleBcm, (mclk_handleDco _).1]
  exact hdiv (bcsctl2 emu)

/-! ## A second call -/

/-- The registers stay as they are. -/
theorem registers_handleBcm : bcsctl2 (handleBcm emu) = bcsctl2 emu ∧
    (handleBcm emu).load8 (.mem 0x56) = emu.load8 (.mem 0x56) ∧
    (handleBcm emu).load8 (.mem 0x57) = emu.load8 (.mem 0x57) := by
  unfold bcsctl2 Emulator.load8
  rw [mem_handleBcm]
  exact ⟨rfl, rfl, rfl⟩

/-- A second call finds the same selection as the first. -/
theorem selected_handleBcm : selectedFreq (handleBcm emu) = selectedFreq emu ∧
    selectedDiv (handleBcm emu) = selectedDiv emu := by
  obtain ⟨hctl2, hdcoctl, hctl1⟩ := registers_handleBcm emu
  constructor
  · have hfreq := dcoFreq_handleBcm_eq emu
    unfold selectedFreq at hfreq ⊢
    rw [hdcoctl, hctl1, hfreq]
    cases dcoFrequency (emu.load8 (.mem 0x56) >>> 5) (emu.load8 (.mem 0x57) &&& 0x0F) <;> rfl
  · rw [selectedDiv, hctl2, selectedDiv]

theorem selectsDco_handleBcm : SelectsDco (handleBcm emu) ↔ SelectsDco emu := by
  rw [SelectsDco, (registers_handleBcm emu).1, SelectsDco]

/-- The three values of the DCO. -/
def dcoValues (bcm : Bcm) : ℕ × ℕ × ℕ := (bcm.dcoFreq, bcm.dcoPeriod, bcm.dcoPulseWidth)

theorem dcoValues_handleMclk : dcoValues (handleMclk emu).bcm = dcoValues emu.bcm := by
  unfold handleMclk
  dsimp only
  split_ifs <;> rfl

/-- The DCO part sets the values that it finds after an earlier run on the same registers. -/
theorem dcoValues_handleDco_twice {e e' : Emulator} (hdcoctl : e'.load8 (.mem 0x56)
    = e.load8 (.mem 0x56)) (hctl1 : e'.load8 (.mem 0x57) = e.load8 (.mem 0x57))
    (hvalues : dcoValues e'.bcm = dcoValues (handleDco e).bcm) :
    dcoValues (handleDco e').bcm = dcoValues (handleDco e).bcm := by
  unfold handleDco at hvalues ⊢
  dsimp only at hvalues ⊢
  rw [hdcoctl, hctl1]
  split_ifs at hvalues ⊢
  all_goals first | rfl | exact hvalues

theorem dcoValues_handleBcm_twice :
    dcoValues (handleBcm (handleBcm emu)).bcm = dcoValues (handleBcm emu).bcm := by
  obtain ⟨-, hdcoctl, hctl1⟩ := registers_handleBcm emu
  have hsecond : dcoValues (handleMclk (handleBcm emu)).bcm = dcoValues (handleBcm emu).bcm :=
    dcoValues_handleMclk _
  exact dcoValues_handleDco_twice hdcoctl hctl1 hsecond

/-- The handler changes the clock values alone. -/
theorem handleBcm_eq : handleBcm emu = { emu with bcm := (handleBcm emu).bcm } := by
  rw [handleBcm, handleDco_eq]
  rfl

/-- **With the DCO selected a second call can change the frequency of MCLK alone.** -/
theorem handleBcm_twice_iff (h : SelectsDco emu) : handleBcm (handleBcm emu) = handleBcm emu
    ↔ (handleBcm (handleBcm emu)).bcm.mclkFreq = (handleBcm emu).bcm.mclkFreq := by
  constructor
  · intro heq
    rw [heq]
  · intro hfreq
    have hsource : (handleBcm (handleBcm emu)).bcm.mclkSource = (handleBcm emu).bcm.mclkSource := by
      rw [(mclkSource_handleBcm emu).mpr h,
        (mclkSource_handleBcm _).mpr ((selectsDco_handleBcm emu).mpr h)]
    have hdiv : (handleBcm (handleBcm emu)).bcm.mclkDiv = (handleBcm emu).bcm.mclkDiv := by
      rw [mclkDiv_handleBcm_eq, mclkDiv_handleBcm_eq, (selected_handleBcm emu).2]
    have hdco := dcoValues_handleBcm_twice emu
    simp only [dcoValues, Prod.mk.injEq] at hdco
    have hbcm : (handleBcm (handleBcm emu)).bcm = (handleBcm emu).bcm :=
      Bcm.ext hdco.1 hdco.2.1 hdco.2.2 hsource hdiv hfreq
    rw [handleBcm_eq (handleBcm emu), hbcm]

end Update

/-! ## When the values are consistent -/

/-- The frequency of MCLK is the quotient of what the registers select, and a second call
changes nothing. -/
structure ClockConsistent (emu : Emulator) : Prop where
  freq : (handleBcm emu).bcm.mclkFreq = selectedFreq emu / selectedDiv emu
  again : handleBcm (handleBcm emu) = handleBcm emu

/-- **One call leaves consistent values exactly when** the values from before have the quotient
that the registers select. -/
theorem clock_update_iff {emu : Emulator} (h : SelectsDco emu) :
    ClockConsistent emu ↔
      emu.bcm.dcoFreq / emu.bcm.mclkDiv = selectedFreq emu / selectedDiv emu := by
  have hfirst : (handleBcm emu).bcm.mclkFreq = emu.bcm.dcoFreq / emu.bcm.mclkDiv := by
    rw [mclkFreq_handleBcm, if_pos h]
  have hsecond : (handleBcm (handleBcm emu)).bcm.mclkFreq
      = selectedFreq emu / selectedDiv emu := by
    rw [mclkFreq_handleBcm, if_pos ((selectsDco_handleBcm emu).mpr h), dcoFreq_handleBcm_eq,
      mclkDiv_handleBcm_eq]
  constructor
  · rintro ⟨hfreq, -⟩
    rwa [hfirst] at hfreq
  · intro hquot
    rw [← hfirst] at hquot
    exact ⟨hquot, (handleBcm_twice_iff emu h).mpr (hsecond.trans hquot.symm)⟩

/-- A call on the registers of an earlier one. -/
theorem clock_update_iff_again : ClockConsistent (handleBcm startState) := by
  apply (clock_update_iff (by decide +kernel)).mpr
  decide +kernel

/-- `NOP` and `BIS.B #0x30, &BCSCTL2` are the first instructions: the machine before the handler
is called for the second. -/
def dividerStored : Emulator :=
  cpuStep (machineStep (execRun
    (firmwareStart [0x03, 0x43, 0xF2, 0xD0, 0x30, 0x00, 0x58, 0x00])))

/-- The divider is eight, and the frequency stays that of the DCO. -/
theorem frequency_stale : SelectsDco dividerStored ∧ ¬ ClockConsistent dividerStored := by
  refine ⟨by decide +kernel, fun h => ?_⟩
  have hstale : (handleBcm dividerStored).bcm.mclkFreq = 1030000 := by decide +kernel
  have hselected : selectedFreq dividerStored / selectedDiv dividerStored = 128750 := by
    decide +kernel
  have hfreq := h.freq
  rw [hstale, hselected] at hfreq
  exact absurd hfreq (by decide)

end Msp430
