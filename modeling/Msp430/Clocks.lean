/-
# The clock values along a session

`handle_bcm` derives the clock values from the registers of the guest and from the values of its
previous call: the frequency of MCLK is computed with the divider that the call before has left.
Nothing else writes the values, so that along a session each call finds what the one before it
left, and the first what `setup_bcm` left.
-/
import Msp430.Session

namespace Msp430

open Trail

/-! ## One call of the handler -/

/-- The lowest frequency that the handler knows for the DCO. -/
def minDcoFreq : ℕ := 1000000

section Handler

variable (emu : Emulator)

/-- The DCO part leaves the values of MCLK. -/
theorem mclk_handleDco : (handleDco emu).bcm.mclkDiv = emu.bcm.mclkDiv ∧
    (handleDco emu).bcm.mclkFreq = emu.bcm.mclkFreq := by
  unfold handleDco
  dsimp only
  split_ifs <;> exact ⟨rfl, rfl⟩

/-- **The divider** is that of the registers. -/
theorem mclkDiv_handleBcm :
    1 ≤ (handleBcm emu).bcm.mclkDiv ∧ (handleBcm emu).bcm.mclkDiv ≤ 8 := by
  rw [handleBcm, (mclk_handleDco _).1]
  unfold handleMclk
  dsimp only
  split_ifs <;> decide

/-- **The frequency of MCLK** is computed with the divider from before. -/
theorem mclkFreq_handleBcm : (handleBcm emu).bcm.mclkFreq
    = if SelectsDco emu then emu.bcm.dcoFreq / emu.bcm.mclkDiv else emu.bcm.mclkFreq := by
  rw [handleBcm, (mclk_handleDco _).2]
  by_cases h : SelectsDco emu
  · rw [if_pos h]
    unfold SelectsDco at h
    simp only [handleMclk, if_pos h]
  · rw [if_neg h]
    unfold SelectsDco at h
    simp only [handleMclk, if_neg h]
    split_ifs <;> rfl

/-- **The frequency of the DCO** is never below the lowest. -/
theorem dcoFreq_handleBcm (h : minDcoFreq ≤ emu.bcm.dcoFreq) :
    minDcoFreq ≤ (handleBcm emu).bcm.dcoFreq := by
  have hmclk : (handleMclk emu).bcm.dcoFreq = emu.bcm.dcoFreq := by
    unfold handleMclk
    dsimp only
    split_ifs <;> rfl
  rw [← hmclk] at h
  unfold handleBcm handleDco
  dsimp only
  split_ifs
  all_goals first | exact h | norm_num [minDcoFreq]

end Handler

/-! ## Along a session -/

/-- Between the instructions nothing writes the clock values. -/
theorem unseen_bcm : Unseen Emulator.bcm where
  host := by
    intro emu emu' h
    simp only [Emulator.device, Emulator.peripherals, Prod.mk.injEq] at h
    exact h.2.2.1
  input := by
    intro emu b
    unfold deliver
    split_ifs <;> rfl

/-- `setup_bcm` sets the frequency of the DCO and leaves the values of MCLK as they were
allocated. -/
theorem bcm_initialise {tmpBin : List (BitVec 8)} {host start : Emulator}
    (h : initialise tmpBin host = some start) :
    start.bcm.mclkDiv = host.bcm.mclkDiv ∧ start.bcm.mclkFreq = host.bcm.mclkFreq ∧
      start.bcm.dcoFreq = 1030000 := by
  have hload (m : Emulator) : (loadImage m 0xC000 tmpBin).bcm = m.bcm := rfl
  rw [(initialise_eq h).2, unseen_bcm.host _ _ (device_disassemble _ 0xC000 1), hload]
  cases host
  exact ⟨rfl, rfl, rfl⟩

/-- The clock values before instruction `i` of a list: the divider is zero before the first and
none later, and the frequency of MCLK is known once an instruction, other than the very first,
has left the DCO selected. -/
structure ClockValues (l : List Emulator) (i : ℕ) (bcm : Bcm) : Prop where
  div : bcm.mclkDiv = 0 ↔ i = 0
  div_le : bcm.mclkDiv ≤ 8
  dco : minDcoFreq ≤ bcm.dcoFreq
  freq : bcm.mclkFreq ≠ 0
    ↔ ∃ j e, 0 < j ∧ j < i ∧ l[j]? = some e ∧ SelectsDco (cpuStep e)

/-- **One instruction.** -/
theorem ClockValues.next {l : List Emulator} {i : ℕ} {e : Emulator} (h : ClockValues l i e.bcm)
    (he : l[i]? = some e) : ClockValues l (i + 1) (machineStep e).bcm := by
  obtain ⟨hdiv, hle, hdco, hfreq⟩ := h
  obtain ⟨h1, h8⟩ := mclkDiv_handleBcm (cpuStep e)
  rw [bcm_machineStep]
  refine ⟨by omega, h8, dcoFreq_handleBcm _ (by rw [bcm_cpuStep]; exact hdco), ?_⟩
  rw [mclkFreq_handleBcm, bcm_cpuStep]
  by_cases hsel : SelectsDco (cpuStep e)
  · rw [if_pos hsel]
    have hquot : e.bcm.dcoFreq / e.bcm.mclkDiv ≠ 0 ↔ 0 < i := by
      unfold minDcoFreq at hdco
      rw [Nat.pos_iff_ne_zero, ne_eq, ne_eq, Nat.div_eq_zero_iff, ← hdiv, not_iff_not]
      omega
    rw [hquot]
    constructor
    · intro hpos
      exact ⟨i, e, hpos, Nat.lt_succ_self i, he, hsel⟩
    · rintro ⟨j, -, hj, hji, -⟩
      omega
  · rw [if_neg hsel, hfreq]
    constructor
    · rintro ⟨j, e', hj, hji, he', hs⟩
      exact ⟨j, e', hj, by omega, he', hs⟩
    · rintro ⟨j, e', hj, hji, he', hs⟩
      have hne : j ≠ i := by
        rintro rfl
        rw [he] at he'
        obtain rfl := Option.some.inj he'
        exact hsel hs
      exact ⟨j, e', hj, by omega, he', hs⟩

/-- **The clock values at the instructions of a trail** that starts before the first call. -/
theorem clockValues_of_follows {emu emu' : Emulator} {l : List Emulator}
    (h : Follows machineStep Emulator.bcm emu l emu') (hdiv : emu.bcm.mclkDiv = 0)
    (hfreq : emu.bcm.mclkFreq = 0) (hdco : minDcoFreq ≤ emu.bcm.dcoFreq) {i : ℕ} {e : Emulator}
    (he : l[i]? = some e) : ClockValues l i e.bcm := by
  induction i generalizing e with
  | zero =>
    rw [h.first he]
    refine ⟨by simp [hdiv], by simp [hdiv], hdco, ?_⟩
    exact iff_of_false (fun hc => hc hfreq) (fun ⟨j, _, _, hj, _⟩ => absurd hj (Nat.not_lt_zero j))
  | succ i ih =>
    have hi : i < l.length := by
      have hlen := (List.getElem?_eq_some_iff.mp he).1
      omega
    have hd : l[i]? = some l[i] := List.getElem?_eq_getElem hi
    rw [h.next hd he]
    exact (ih hd).next hd

end Msp430
