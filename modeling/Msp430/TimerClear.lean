/-
# Clearing the timer

A program stores to `TA0CTL`, and `handle_timer_a` is called any number of times before it stores
there again.  The call that finds `TACLR` set masks the register with `0xFF0B`, which takes the
bits of `MC` and `ID` away as well: the calls after it find a timer that stands still.
`timer_clear_iff` says when every call derives the mode that was stored.
-/
import Msp430.Handlers
import Msp430.Startup
import Msp430.Trail

namespace Msp430

open Trail

/-! ## What a stored value selects -/

/-- The mode that the `MC` bits select. -/
def selectedMode (v : BitVec 16) : TimerMode :=
  match (v >>> 4).setWidth 2 with
  | 0b00#2 => .stop
  | 0b01#2 => .up
  | 0b10#2 => .continous
  | 0b11#2 => .upDown

/-- The source that the `TASSEL` bits select. -/
def selectedSource (v : BitVec 16) : Clock :=
  match (v >>> 8).setWidth 2 with
  | 0b00#2 => .taclk
  | 0b01#2 => .aclk
  | 0b10#2 => .smclk
  | 0b11#2 => .inclk

/-- `TA0CTL` after a call that found `v` there. -/
def clearedControl (v : BitVec 16) : BitVec 16 := if v.getLsbD 2 then v &&& 0xFF0B else v

@[simp] theorem clear_clearedControl (v : BitVec 16) : (clearedControl v).getLsbD 2 = false := by
  unfold clearedControl
  split_ifs with h
  · simp
  · simpa using h

/-- The mask keeps the bits of `TASSEL`. -/
theorem selectedSource_clearedControl (v : BitVec 16) :
    selectedSource (clearedControl v) = selectedSource v := by
  have hbits : (clearedControl v >>> 8).setWidth 2 = ((v >>> 8).setWidth 2 : BitVec 2) := by
    unfold clearedControl
    split_ifs
    · apply BitVec.eq_of_getLsbD_eq
      intro i hi
      interval_cases i <;> simp
    · rfl
  rw [selectedSource, hbits, selectedSource]

/-- The mask takes the bits of `MC`. -/
theorem selectedMode_clearedControl (v : BitVec 16) :
    selectedMode (clearedControl v) = if v.getLsbD 2 then .stop else selectedMode v := by
  unfold clearedControl
  split_ifs
  · have hbits : ((v &&& 0xFF0B) >>> 4).setWidth 2 = 0b00#2 := by
      apply BitVec.eq_of_getLsbD_eq
      intro i hi
      interval_cases i <;> simp
    rw [selectedMode, hbits]
    rfl
  · rfl

/-! ## One call -/

section Call

variable (emu : Emulator)

/-- The low two bits of a word. -/
theorem and_three (v : BitVec 16) : v &&& 0x03 = (v.setWidth 2 : BitVec 2).setWidth 16 := by
  apply BitVec.eq_of_toNat_eq
  rw [BitVec.toNat_and, BitVec.toNat_setWidth, BitVec.toNat_setWidth]
  have hlow := Nat.and_two_pow_sub_one_eq_mod v.toNat 2
  simp at hlow ⊢
  omega

/-- **The mode and the source** are decoded from the value that the call finds. -/
theorem selected_handleTimerA :
    (handleTimerA emu).timerA.mode0 = selectedMode (emu.load16 ta0ctl) ∧
      (handleTimerA emu).timerA.source0 = selectedSource (emu.load16 ta0ctl) := by
  have hmode : ∀ m : BitVec 2, (if m.setWidth 16 = 0b00#16 then TimerMode.stop
      else if m.setWidth 16 = 0b01#16 then .up
      else if m.setWidth 16 = 0b10#16 then .continous else .upDown)
      = match m with
        | 0b00#2 => .stop
        | 0b01#2 => .up
        | 0b10#2 => .continous
        | 0b11#2 => .upDown := by decide
  have hsource : ∀ m : BitVec 2, (if m.setWidth 16 = 0b00#16 then Clock.taclk
      else if m.setWidth 16 = 0b01#16 then .aclk
      else if m.setWidth 16 = 0b10#16 then .smclk else .inclk)
      = match m with
        | 0b00#2 => .taclk
        | 0b01#2 => .aclk
        | 0b10#2 => .smclk
        | 0b11#2 => .inclk := by decide
  constructor
  · rw [selectedMode, ← hmode, ← and_three]
    rfl
  · rw [selectedSource, ← hsource, ← and_three]
    rfl

/-- The registers once `TACLR` is served. -/
theorem load16_clearTimer : (clearTimer emu).load16 ta0ctl = emu.load16 ta0ctl &&& 0xFF0B ∧
    (clearTimer emu).load16 ta0r = 0 := by
  have hctl : (emu.store16 ta0r 0).load16 ta0ctl = emu.load16 ta0ctl := by
    simp [ta0ctl, ta0r, Emulator.load16, Emulator.store16, Emulator.setByte]
  have hr (e : Emulator) (v : BitVec 16) : (e.store16 ta0ctl v).load16 ta0r = e.load16 ta0r := by
    simp [ta0ctl, ta0r, Emulator.load16, Emulator.store16, Emulator.setByte]
  constructor
  · rw [clearTimer, Emulator.load16_store16, hctl]
  · rw [clearTimer, hr, Emulator.load16_store16]

/-- **The registers of the timer** after the call. -/
theorem load16_handleTimerA :
    (handleTimerA emu).load16 ta0ctl = clearedControl (emu.load16 ta0ctl) ∧
      (handleTimerA emu).load16 ta0r
        = if (emu.load16 ta0ctl).getLsbD 2 then 0 else emu.load16 ta0r := by
  have hlow : (emu.load16 ta0ctl).getLsbD 2 = (emu.mem 0x160).getLsbD 2 := by
    simp [ta0ctl, Emulator.load16, joinBytes]
  have hmem := mem_handleTimerA_eq emu
  simp only [taclr_iff, ← hlow] at hmem
  unfold clearedControl
  cases hclr : (emu.load16 ta0ctl).getLsbD 2 with
  | false =>
    rw [if_pos hclr] at hmem
    simp [ta0ctl, ta0r, Emulator.load16, hmem]
  | true =>
    rw [if_neg (by simp [hclr])] at hmem
    obtain ⟨hctl, hr⟩ := load16_clearTimer emu
    rw [if_pos rfl, if_pos rfl, ← hctl, ← hr]
    simp [ta0ctl, ta0r, Emulator.load16, hmem]

end Call

/-! ## Any number of calls -/

/-- What a program reads in `TA0CTL`. -/
def control (emu : Emulator) : BitVec 16 := emu.load16 ta0ctl

section Calls

variable {emu emu' : Emulator} {l : List Emulator}

/-- Without `TACLR` every call finds the value of the first. -/
theorem control_of_clear (h : Follows handleTimerA control emu l emu')
    (hclear : (control emu).getLsbD 2 = false) : ∀ e ∈ l, control e = control emu := by
  induction h with
  | rest h => simp
  | step h hl ih =>
    rename_i s e t l
    have hafter : control (handleTimerA e) = control s := by
      rw [control, (load16_handleTimerA e).1, ← control, h, clearedControl,
        if_neg (by rw [hclear]; decide)]
    intro e' he'
    rcases List.mem_cons.mp he' with rfl | he'
    · exact h
    · rw [ih (by rw [hafter]; exact hclear) e' he', hafter]

/-- **The calls** find the stored value first and then what the first call has left. -/
theorem control_calls (h : Follows handleTimerA control emu l emu') :
    (∀ e ∈ l.head?, control e = control emu) ∧
      ∀ e ∈ l.tail, control e = clearedControl (control emu) := by
  cases h with
  | rest h => simp
  | step h hl =>
    rename_i e l
    have hafter : control (handleTimerA e) = clearedControl (control emu) := by
      rw [control, (load16_handleTimerA e).1, ← control, h]
    refine ⟨fun e' he' => ?_, fun e' he' => ?_⟩
    · obtain rfl := Option.some.inj he'
      exact h
    · rw [control_of_clear hl (by rw [hafter]; exact clear_clearedControl _) e' he', hafter]

end Calls

/-- What clearing the timer should be over the calls `l` after `v` was stored: each derives the
mode and the source of `v`, and leaves `TACLR` zero; `TA0R` is zero after the first if `TACLR`
was set, and no other changes it. -/
structure TimerKept (v : BitVec 16) (l : List Emulator) : Prop where
  mode : ∀ e ∈ l, (handleTimerA e).timerA.mode0 = selectedMode v
  source : ∀ e ∈ l, (handleTimerA e).timerA.source0 = selectedSource v
  clear : ∀ e ∈ l, (control (handleTimerA e)).getLsbD 2 = false
  counter : v.getLsbD 2 = true → ∀ e ∈ l.head?, (handleTimerA e).load16 ta0r = 0
  left : ∀ e ∈ l.tail, (handleTimerA e).load16 ta0r = e.load16 ta0r

/-- **The timer is kept exactly when** `TACLR` was not set, or the stored mode is that of a timer
that stands still, or there is at most one call. -/
theorem timer_clear_iff {emu emu' : Emulator} {l : List Emulator}
    (h : Follows handleTimerA control emu l emu') :
    TimerKept (control emu) l ↔
      (control emu).getLsbD 2 = false ∨ selectedMode (control emu) = .stop ∨ l.length ≤ 1 := by
  obtain ⟨hhead, htail⟩ := control_calls h
  have hmode (e : Emulator) : (handleTimerA e).timerA.mode0 = selectedMode (control e) :=
    (selected_handleTimerA e).1
  constructor
  · rintro ⟨hkept, -, -, -, -⟩
    by_contra hnot
    simp only [not_or, Bool.not_eq_false] at hnot
    obtain ⟨hclr, hrunning, hlen⟩ := hnot
    -- the second call derives the mode of the masked value
    obtain ⟨e, he⟩ := List.exists_mem_of_length_pos (l := l.tail) (by simp; omega)
    have hsecond := hkept e (List.mem_of_mem_tail he)
    rw [hmode, htail e he, selectedMode_clearedControl, if_pos hclr] at hsecond
    exact hrunning hsecond.symm
  · intro hcond
    have hcall : ∀ e ∈ l, control e = control emu ∨
        control e = clearedControl (control emu) ∧ e ∈ l.tail := by
      cases l with
      | nil => simp
      | cons e l =>
        intro e' he'
        rcases List.mem_cons.mp he' with rfl | he'
        · exact .inl (hhead _ rfl)
        · exact .inr ⟨htail e' he', he'⟩
    refine ⟨fun e he => ?_, fun e he => ?_, fun e he => ?_, fun hclr e he => ?_, fun e he => ?_⟩
    · rw [hmode]
      rcases hcall e he with hc | ⟨hc, htl⟩
      · rw [hc]
      · rw [hc, selectedMode_clearedControl]
        rcases hcond with hclr | hstop | hlen
        · rw [if_neg (by rw [hclr]; decide)]
        · rw [hstop, ite_self]
        · have hpos := List.length_pos_of_mem htl
          rw [List.length_tail] at hpos
          omega
    · rw [(selected_handleTimerA e).2, ← control]
      rcases hcall e he with hc | ⟨hc, -⟩
      · rw [hc]
      · rw [hc, selectedSource_clearedControl]
    · rw [control, (load16_handleTimerA e).1]
      exact clear_clearedControl _
    · rw [(load16_handleTimerA e).2, ← control, hhead e he, if_pos hclr]
    · have hclr : ¬ (control e).getLsbD 2 = true := by
        rw [htail e he, clear_clearedControl]
        decide
      rw [(load16_handleTimerA e).2, ← control, if_neg hclr]

/-- Two calls after a store to `TA0CTL`. -/
theorem follows_two_calls (emu : Emulator) :
    Follows handleTimerA control emu [emu, handleTimerA emu] (handleTimerA (handleTimerA emu)) :=
  .step rfl (.step rfl (.refl _))

/-- `SMCLK` in up mode, stored without `TACLR`. -/
theorem timer_clear_iff_up : TimerKept 0x0210
    [startState.store16 ta0ctl 0x0210, handleTimerA (startState.store16 ta0ctl 0x0210)] :=
  (timer_clear_iff (follows_two_calls (startState.store16 ta0ctl 0x0210))).mpr (.inl rfl)

/-- The same with `TACLR`: the second call finds the timer stopped. -/
theorem timer_stopped : ¬ ∀ (emu emu' : Emulator) (l : List Emulator),
    Follows handleTimerA control emu l emu' → TimerKept (control emu) l := by
  intro hclaim
  have hkept := hclaim _ _ _ (follows_two_calls (startState.store16 ta0ctl 0x0214))
  have hsecond := hkept.mode (handleTimerA (startState.store16 ta0ctl 0x0214)) (by simp)
  exact absurd hsecond (by decide +kernel)

end Msp430
