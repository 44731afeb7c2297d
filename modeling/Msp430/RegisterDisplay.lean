/-
# The register displays (`debugger/register_display.c`, `devices/cpu/registers.c`)

`display_registers` prints the sixteen registers and the four flags to the console, and
`update_register_display` sends the registers to the panel of the client.  What is printed can
be read back, word by word, and fits the buffer it is printed into, with the colours of the
console interface as well as without.
-/
import Msp430.Columns
import Msp430.EmuServer
import Msp430.Numerals

namespace Msp430

open CString

/-! ## The text -/

/-- The strings that `display_registers` chooses by `console_interface`. -/
structure Palette where
  red : Str
  cyan : Str
  regCol : Str
  decorCol : Str
  valueCol : Str
  vFlag : Str
  nFlag : Str
  zFlag : Str
  cFlag : Str

/-- The choice. -/
def palette (consoleInterface : Bool) : Palette :=
  if consoleInterface then
    { red := bytes "\x1b[31;1m"
      cyan := bytes "\x1b[36;1m"
      regCol := bytes "\x1b[34;1m"
      decorCol := bytes "\x1b[32;1m"
      valueCol := bytes "\x1b[37;1m"
      vFlag := bytes "V\x1b[0m"
      nFlag := bytes "\x1b[36;1mN\x1b[0m"
      zFlag := bytes "\x1b[36;1mZ\x1b[0m"
      cFlag := bytes "\x1b[36;1mC\x1b[0m" }
  else
    { red := []
      cyan := []
      regCol := []
      decorCol := []
      valueCol := []
      vFlag := bytes "V"
      nFlag := bytes "N"
      zFlag := bytes "Z"
      cFlag := bytes "C" }

/-- The value that is shown of a register: of the status register its `sr_to_value`. -/
def shownValue (emu : Emulator) (n : Fin 16) : BitVec 16 :=
  if n = 2 then srToValue emu.sr else emu.regs n

/-- `r0_name … r15_name`. -/
def registerName : Fin 16 → Str
  | 0 => bytes "PC"
  | 1 => bytes "SP"
  | 2 => bytes "SR"
  | 3 => bytes "CG2"
  | 4 => bytes "R4"
  | 5 => bytes "R5"
  | 6 => bytes "R6"
  | 7 => bytes "R7"
  | 8 => bytes "R8"
  | 9 => bytes "R9"
  | 10 => bytes "R10"
  | 11 => bytes "R11"
  | 12 => bytes "R12"
  | 13 => bytes "R13"
  | 14 => bytes "R14"
  | 15 => bytes "R15"
  | _ => []

/-- The blanks between a register's colon and its value. -/
def registerGap (n : Fin 16) : Str :=
  if n < 3 then bytes "   " else if n < 10 then bytes "  " else bytes " "

/-- `"%s%s%s:   %s%04X  "` for a register with a use of its own, `"%s%%%s%s%s:  %s%04X  "` for
one with a number. -/
def registerCell (p : Palette) (emu : Emulator) (n : Fin 16) : Str :=
  (if n < 4 then p.red else p.decorCol ++ bytes "%" ++ p.regCol) ++ registerName n ++
    p.decorCol ++ bytes ":" ++ registerGap n ++ p.valueCol ++
    printHex 4 (shownValue emu n).toNat ++ bytes "  "

/-- `"%s%s%s: %s%d\n"`: a flag. -/
def flagCell (p : Palette) (name : Str) (flag : Bool) : Str :=
  p.cyan ++ name ++ p.decorCol ++ bytes ":" ++ bytes " " ++ p.valueCol ++
    (if flag then bytes "1" else bytes "0") ++ bytes "\n"

/-- The conversions of the one `sprintf`, in their order. -/
def displayCells (p : Palette) (emu : Emulator) : List Str :=
  [ registerCell p emu 0, registerCell p emu 1, registerCell p emu 2, registerCell p emu 3,
    flagCell p p.cFlag emu.sr.carry,
    registerCell p emu 4, registerCell p emu 5, registerCell p emu 6, registerCell p emu 7,
    flagCell p p.zFlag emu.sr.zero,
    registerCell p emu 8, registerCell p emu 9, registerCell p emu 10, registerCell p emu 11,
    flagCell p p.nFlag emu.sr.negative,
    registerCell p emu 12, registerCell p emu 13, registerCell p emu 14, registerCell p emu 15,
    flagCell p p.vFlag emu.sr.overflow ]

/-- `display_registers`: what it prints. -/
def displayRegisters (consoleInterface : Bool) (emu : Emulator) : Str :=
  bytes "\n" ++ (displayCells (palette consoleInterface) emu).flatten ++ bytes "\n"

/-! ## The panel -/

/-- `"%04X"` of a register. -/
def registerText (emu : Emulator) (n : Fin 16) : Str := printHex 4 (shownValue emu n).toNat

/-- `UPDATE_REG_Rn_PACKET`. -/
def updateRegPacket (n : Fin 16) : BitVec 8 := BitVec.ofNat 8 (0x10 + n)

/-- `update_register_display`: the control packets it sends, in their order. -/
def updateRegisterDisplay (emu : Emulator) : List Operation :=
  if emu.running then [.sendControl 0x20 (some (bytes "...."))]
  else (List.finRange 16).map fun n => .sendControl (updateRegPacket n) (some (registerText emu n))

/-! ## Reading the text -/

/-- The word of the text that stands for a register. -/
def registerLabel (n : Fin 16) : Str :=
  (if n < 4 then [] else bytes "%") ++ registerName n ++ bytes ":"

/-- The word behind a label, in a list of labels and values. -/
def wordBehind (label : Str) : List Str → Option Str
  | l :: v :: rest => if l = label then some v else wordBehind label rest
  | _ => none

/-- The register that a text shows. -/
def registerIn (text : Str) (n : Fin 16) : Option (BitVec 16) :=
  (wordBehind (registerLabel n) (tokens text)).bind fun v =>
    (scanHex v).map fun r => r.1.setWidth 16

/-- The flag that a text shows. -/
def flagIn (text label : Str) : Option Bool :=
  (wordBehind label (tokens text)).map fun v => v == bytes "1"

/-! ## What is read back -/

/-- A cell that reads as a label and a value. -/
def Reads (cell : Str) (pair : Str × Str) : Prop :=
  ∀ t, tokens (cell ++ t) = pair.1 :: pair.2 :: tokens t

/-- A word: not empty, and without blanks. -/
def IsToken (s : Str) : Prop := s ≠ [] ∧ (s.all fun c => !isSpace c) = true

instance (s : Str) : Decidable (IsToken s) := inferInstanceAs (Decidable (_ ∧ _))

/-- Blanks. -/
def IsGap (s : Str) : Prop := s ≠ [] ∧ s.all isSpace = true

instance (s : Str) : Decidable (IsGap s) := inferInstanceAs (Decidable (_ ∧ _))

theorem IsToken.isSpace_eq_false {s : Str} (h : IsToken s) : ∀ c ∈ s, isSpace c = false :=
  fun c hc => by simpa using List.all_eq_true.mp h.2 c hc

theorem IsGap.isSpace_eq_true {s : Str} (h : IsGap s) : ∀ c ∈ s, isSpace c = true :=
  List.all_eq_true.mp h.2

section Reading

variable {name gap value blanks : Str}

theorem reads_pair (hname : IsToken name) (hgap : IsGap gap) (hvalue : IsToken value)
    (hblanks : IsGap blanks) : Reads (name ++ gap ++ value ++ blanks) (name, value) := by
  intro t
  have hsplit : name ++ gap ++ value ++ blanks ++ t = name ++ gap ++ (value ++ blanks ++ t) := by
    simp only [List.append_assoc]
  rw [hsplit, tokens_word hname.1 hname.isSpace_eq_false hgap.isSpace_eq_true hgap.1,
    tokens_word hvalue.1 hvalue.isSpace_eq_false hblanks.isSpace_eq_true hblanks.1]

theorem isToken_printHex {w n : ℕ} (hw : 0 < w) : IsToken (printHex w n) := by
  have hplain := isSpace_of_plain (plain_of_isDigit (isDigit_printHex w n))
  refine ⟨fun hnil => ?_, List.all_eq_true.mpr fun c hc => by rw [hplain c hc]; rfl⟩
  have hlen : w ≤ (printHex w n).length := by
    rw [printHex, length_fixedHex]
    exact le_max_left _ _
  rw [hnil, List.length_nil] at hlen
  omega

theorem reads_registerCell (emu : Emulator) (n : Fin 16) :
    Reads (registerCell (palette false) emu n) (registerLabel n, registerText emu n) := by
  have hname : ∀ n, IsToken (registerLabel n) := by decide
  have hgap : ∀ n, IsGap (registerGap n) := by decide
  have hcell : registerCell (palette false) emu n
      = registerLabel n ++ registerGap n ++ registerText emu n ++ bytes "  " := by
    simp [registerCell, registerLabel, registerText, palette]
  rw [hcell]
  exact reads_pair (hname n) (hgap n) (isToken_printHex (by decide)) (by decide)

/-- The digit of a flag. -/
def flagDigit (flag : Bool) : Str := if flag then bytes "1" else bytes "0"

theorem reads_flagCell (hname : IsToken (name ++ bytes ":")) (flag : Bool) :
    Reads (flagCell (palette false) name flag) (name ++ bytes ":", flagDigit flag) := by
  have hcell : flagCell (palette false) name flag
      = name ++ bytes ":" ++ bytes " " ++ flagDigit flag ++ bytes "\n" := by
    simp [flagCell, palette, flagDigit]
  rw [hcell]
  exact reads_pair hname (by decide) (by cases flag <;> decide) (by decide)

/-- Cells one behind the other. -/
theorem tokens_flatten {cells : List Str} {pairs : List (Str × Str)}
    (h : List.Forall₂ Reads cells pairs) (t : Str) :
    tokens (cells.flatten ++ t) = pairs.flatMap (fun p => [p.1, p.2]) ++ tokens t := by
  induction h with
  | nil => rfl
  | cons hcell _ ih =>
    rw [List.flatten_cons, List.append_assoc, hcell, ih]
    rfl

theorem wordBehind_flatMap (label : Str) (pairs : List (Str × Str)) :
    wordBehind label (pairs.flatMap fun p => [p.1, p.2]) = pairs.lookup label := by
  induction pairs with
  | nil => rfl
  | cons p pairs ih =>
    by_cases h : p.1 = label
    · simp [wordBehind, List.lookup, h]
    · have h' : ¬ label = p.1 := fun hc => h hc.symm
      simp [wordBehind, List.lookup, h, beq_false_of_ne h', ih]

end Reading

/-- The labels and the values of the display. -/
def displayPairs (emu : Emulator) : List (Str × Str) :=
  let pair (n : Fin 16) : Str × Str := (registerLabel n, registerText emu n)
  [pair 0, pair 1, pair 2, pair 3, (bytes "C:", flagDigit emu.sr.carry),
   pair 4, pair 5, pair 6, pair 7, (bytes "Z:", flagDigit emu.sr.zero),
   pair 8, pair 9, pair 10, pair 11, (bytes "N:", flagDigit emu.sr.negative),
   pair 12, pair 13, pair 14, pair 15, (bytes "V:", flagDigit emu.sr.overflow)]

/-- The words of the display. -/
theorem tokens_displayRegisters (emu : Emulator) :
    tokens (displayRegisters false emu)
      = (displayPairs emu).flatMap fun p => [p.1, p.2] := by
  have hcells : List.Forall₂ Reads (displayCells (palette false) emu) (displayPairs emu) := by
    have hreg := reads_registerCell emu
    exact .cons (hreg 0) (.cons (hreg 1) (.cons (hreg 2) (.cons (hreg 3)
      (.cons (reads_flagCell (by decide) _)
      (.cons (hreg 4) (.cons (hreg 5) (.cons (hreg 6) (.cons (hreg 7)
      (.cons (reads_flagCell (by decide) _)
      (.cons (hreg 8) (.cons (hreg 9) (.cons (hreg 10) (.cons (hreg 11)
      (.cons (reads_flagCell (by decide) _)
      (.cons (hreg 12) (.cons (hreg 13) (.cons (hreg 14) (.cons (hreg 15)
      (.cons (reads_flagCell (by decide) _) .nil)))))))))))))))))))
  rw [displayRegisters, List.append_assoc, tokens_blanks (List.all_eq_true.mp rfl), tokens_flatten hcells]
  exact List.append_nil _

/-- The number that a printed register is read as. -/
theorem scanHex_registerText (emu : Emulator) (n : Fin 16) :
    (scanHex (registerText emu n)).map (fun r => r.1.setWidth 16) = some (shownValue emu n) := by
  have hspelling : HexSpelling (registerText emu n) (shownValue emu n).toNat := by
    have h := HexSpelling.digits (isToken_printHex (w := 4) (by decide)).1
      (isDigit_printHex 4 (shownValue emu n).toNat)
    rwa [numberOf_printHex] at h
  have hscan := hspelling.scanHex_eq [] (by simp)
  have hlt := (shownValue emu n).isLt
  rw [List.nil_append] at hscan
  rw [hscan, Option.map_some, setWidth_scanned (by omega), BitVec.ofNat_toNat, BitVec.setWidth_eq]

/-- **The registers are read back.** -/
theorem registerIn_displayRegisters (emu : Emulator) (n : Fin 16) :
    registerIn (displayRegisters false emu) n = some (shownValue emu n) := by
  have hlookup : (displayPairs emu).lookup (registerLabel n) = some (registerText emu n) := by
    fin_cases n <;> rfl
  rw [registerIn, tokens_displayRegisters, wordBehind_flatMap, hlookup, Option.bind_some,
    scanHex_registerText]

/-- **The flags are read back.** -/
theorem flagIn_displayRegisters (emu : Emulator) :
    flagIn (displayRegisters false emu) (bytes "C:") = some emu.sr.carry ∧
      flagIn (displayRegisters false emu) (bytes "Z:") = some emu.sr.zero ∧
      flagIn (displayRegisters false emu) (bytes "N:") = some emu.sr.negative ∧
      flagIn (displayRegisters false emu) (bytes "V:") = some emu.sr.overflow := by
  have hdigit (flag : Bool) : (flagDigit flag == bytes "1") = flag := by
    cases flag <;> decide
  simp only [flagIn, tokens_displayRegisters, wordBehind_flatMap]
  refine ⟨?_, ?_, ?_, ?_⟩ <;> exact congrArg some (hdigit _)

/-! ## The buffer -/

theorem length_registerText (emu : Emulator) (n : Fin 16) : (registerText emu n).length = 4 := by
  rw [registerText, printHex_of_lt (shownValue emu n).isLt, length_fixedHex]

theorem length_registerCell (p : Palette) (emu : Emulator) (n : Fin 16) :
    (registerCell p emu n).length
      = (if n < 4 then p.red else p.decorCol ++ bytes "%" ++ p.regCol).length +
          (registerName n).length + p.decorCol.length + 1 + (registerGap n).length +
          p.valueCol.length + 4 + 2 := by
  have hvalue := length_registerText emu n
  rw [registerText] at hvalue
  rw [registerCell]
  simp only [List.length_append, hvalue]
  rfl

theorem length_flagCell (p : Palette) (name : Str) (flag : Bool) :
    (flagCell p name flag).length
      = p.cyan.length + name.length + p.decorCol.length + 2 + p.valueCol.length + 2 := by
  rw [flagCell]
  cases flag <;> simp only [List.length_append] <;> rfl

/-- **The text fits `full[1000]`**, whatever is shown. -/
theorem length_displayRegisters (consoleInterface : Bool) (emu : Emulator) :
    (displayRegisters consoleInterface emu).length = if consoleInterface then 755 else 214 := by
  simp only [displayRegisters, displayCells, List.length_append, List.length_flatten,
    List.map_cons, List.map_nil, length_registerCell, length_flagCell]
  cases consoleInterface <;> rfl

end Msp430
