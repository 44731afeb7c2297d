/-
# The mirror of port 1

`handle_port_1` copies the registers of the port into the flags of `struct Port_1`, in eight
blocks that should be alike.  The blocks of P1.3 to P1.7 end behind the interrupt flags: their
select flags exist and are cleared by `setup_port_1`, but nothing sets them.
`port_mirror_iff` says that nothing else is lost.
-/
import Msp430.Startup
import Msp430.Peripherals

namespace Msp430

/-! ## What the mirror should hold -/

/-- Pin `n` in the register at `a`. -/
def pinBit (emu : Emulator) (a : ℕ) (n : Fin 8) : Bool := (emu.load8 (.mem a)).getLsbD n

/-- The flags of one pin after the handler, by the registers and by the flags before.  An output
is mirrored while its pin is one, an interrupt flag while its interrupt is enabled. -/
structure PinMirrored (emu : Emulator) (n : Fin 8) : Prop where
  dir : (handlePort1 emu).p1.dir n = pinBit emu 0x22 n
  out : (handlePort1 emu).p1.out n = if pinBit emu 0x22 n then pinBit emu 0x21 n else emu.p1.out n
  ie : (handlePort1 emu).p1.ie n = pinBit emu 0x25 n
  ifg : (handlePort1 emu).p1.ifg n = if pinBit emu 0x25 n then pinBit emu 0x23 n else emu.p1.ifg n
  sel : (handlePort1 emu).p1.sel n = pinBit emu 0x26 n
  sel2 : (handlePort1 emu).p1.sel2 n = pinBit emu 0x41 n

/-- Every pin is mirrored, and the handler changes nothing but the mirror. -/
def PortMirrored (emu : Emulator) : Prop :=
  (∀ n, PinMirrored emu n) ∧ handlePort1 emu = { emu with p1 := (handlePort1 emu).p1 }

/-! ## What it holds -/

/-- The select flags of a pin as the handler finds them are those of the registers. -/
def SelectKept (emu : Emulator) (n : Fin 8) : Prop :=
  emu.p1.sel n = pinBit emu 0x26 n ∧ emu.p1.sel2 n = pinBit emu 0x41 n

instance (emu : Emulator) (n : Fin 8) : Decidable (SelectKept emu n) :=
  inferInstanceAs (Decidable (_ ∧ _))

/-- The blocks of P1.0 to P1.2 are complete. -/
theorem pinMirrored_of_le (emu : Emulator) {n : Fin 8} (h : n ≤ 2) : PinMirrored emu n where
  dir := rfl
  out := rfl
  ie := rfl
  ifg := rfl
  sel := if_pos h
  sel2 := if_pos h

/-- The other blocks leave the select flags. -/
theorem pinMirrored_iff_of_lt (emu : Emulator) {n : Fin 8} (h : 2 < n) :
    PinMirrored emu n ↔ SelectKept emu n := by
  have hsel : (handlePort1 emu).p1.sel n = emu.p1.sel n := if_neg (not_le.mpr h)
  have hsel2 : (handlePort1 emu).p1.sel2 n = emu.p1.sel2 n := if_neg (not_le.mpr h)
  constructor
  · intro hpin
    exact ⟨hsel ▸ hpin.sel, hsel2 ▸ hpin.sel2⟩
  · rintro ⟨hs, hs2⟩
    exact ⟨rfl, rfl, rfl, rfl, hsel.trans hs, hsel2.trans hs2⟩

/-- **The mirror matches the registers exactly when** the select flags of P1.3 to P1.7 did
before. -/
theorem port_mirror_iff (emu : Emulator) :
    PortMirrored emu ↔ ∀ n, 2 < n → SelectKept emu n := by
  constructor
  · rintro ⟨hpins, -⟩ n hn
    exact (pinMirrored_iff_of_lt emu hn).mp (hpins n)
  · intro hkept
    refine ⟨fun n => ?_, rfl⟩
    rcases le_or_gt n 2 with hn | hn
    · exact pinMirrored_of_le emu hn
    · exact (pinMirrored_iff_of_lt emu hn).mpr (hkept n hn)

/-- `P1SEL` with bit 3 set, on the machine as it starts. -/
theorem port_mirror_wrong : ¬ PortMirrored (startState.setByte 0x26 0x08) := by
  rintro ⟨hpins, -⟩
  exact absurd (hpins 3).sel (by decide)

end Msp430
