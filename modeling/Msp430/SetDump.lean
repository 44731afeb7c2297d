/-
# The addresses of `set` and `dump`

Both commands take an address in hexadecimal.  `dump` reads a word that starts with a digit by
`%X` and falls back to the program counter for any other; `set` reads its word by `strtol` to base
zero, which takes `0x` for hexadecimal, a zero for octal and the rest for decimal.
`set_dump_iff` says for which spellings of an address both mean it.
-/
import Msp430.CommandAccesses
import Msp430.Numerals
import Msp430.Startup

namespace Msp430

open CString

/-! ## The text of `dump` -/

/-- A line of `dump_memory`: the address and eight bytes. -/
def dumpRow (emu : Emulator) (a : ℕ) : Str :=
  bytes "0x" ++ printHex 4 a ++ bytes ":\t" ++
    List.intercalate (bytes "  ")
      ((List.range 8).map fun i => bytes "0x" ++ printHex 2 (emu.mem (a + i)).toNat) ++
    bytes "\n"

/-- `dump_memory` in steps of a byte, as far as the console sees it. -/
def dumpMemory (emu : Emulator) (start : BitVec 16) : Str :=
  bytes "\n" ++ (List.range 4).flatMap fun i => dumpRow emu (start.toNat + 8 * i)

/-- The text of `dump`. -/
def dumpText (emu : Emulator) (line : Str) : Option Str :=
  if 100 ≤ (secondWord line).length then none
  else (dumpStart emu line).map fun r => dumpMemory r.2 r.1

/-- How a listing begins that starts at `a` with the bytes of `v`. -/
def listingHead (a : ℕ) (v : BitVec 16) : Str :=
  bytes "\n0x" ++ printHex 4 a ++ bytes ":\t0x" ++ printHex 2 (v.setWidth 8).toNat ++
    bytes "  0x" ++ printHex 2 (highByte v).toNat

/-- A listing shows its first word at its head. -/
theorem listingHead_prefix_dumpMemory (emu : Emulator) (start : BitVec 16) :
    listingHead start.toNat (emu.load16 (getAddrPtr start)) <+: dumpMemory emu start := by
  have hlow : (emu.load16 (getAddrPtr start)).setWidth 8 = emu.mem start.toNat :=
    setWidth_joinBytes _ _
  have hhigh : highByte (emu.load16 (getAddrPtr start)) = emu.mem (start.toNat + 1) :=
    highByte_joinBytes _ _
  have hhead : bytes "\n0x" = bytes "\n" ++ bytes "0x" := by decide
  have hcolon : bytes ":\t0x" = bytes ":\t" ++ bytes "0x" := by decide
  have hblank : bytes "  0x" = bytes "  " ++ bytes "0x" := by decide
  rw [listingHead, hlow, hhigh, hhead, hcolon, hblank]
  simp [dumpMemory, dumpRow, List.range_succ, List.intercalate, List.intersperse]

/-! ## The two lines -/

/-- `set s t`. -/
def setLine (s t : Str) : Str := bytes "set" ++ (bytes " " ++ (s ++ (bytes " " ++ t)))

/-- `dump s`. -/
def dumpLine (s : Str) : Str := bytes "dump" ++ (bytes " " ++ s)

section Lines

variable {s t : Str} {n m : ℕ}

/-- The words of `set s t`. -/
theorem words_setLine (hs : HexSpelling s n) :
    scanWord (setLine s t) = some (bytes "set", bytes " " ++ (s ++ (bytes " " ++ t))) ∧
      scanWord (arguments (setLine s t)) = some (s, bytes " " ++ t) := by
  have hfirst : scanWord (setLine s t)
      = some (bytes "set", bytes " " ++ (s ++ (bytes " " ++ t))) :=
    scanWord_word (by decide) (by decide) (by simp [bytes, isSpace])
  refine ⟨hfirst, ?_⟩
  rw [arguments, hfirst]
  exact scanWord_eq isSpace_blank hs.ne_nil hs.isSpace_eq_false (by simp [bytes, isSpace])

/-- The words of `dump s`. -/
theorem words_dumpLine (hs : HexSpelling s n) :
    scanWord (dumpLine s) = some (bytes "dump", bytes " " ++ s) ∧
      secondWord (dumpLine s) = s := by
  have hfirst : scanWord (dumpLine s) = some (bytes "dump", bytes " " ++ s) :=
    scanWord_word (by decide) (by decide) (by simp [bytes, isSpace])
  refine ⟨hfirst, ?_⟩
  have hsecond := @scanWord_eq _ s [] isSpace_blank hs.ne_nil hs.isSpace_eq_false (by simp)
  rw [List.append_nil] at hsecond
  rw [secondWord, arguments, hfirst, Option.map_some, Option.getD_some, hsecond]
  rfl

/-- The line is a `set`. -/
theorem command_setLine (hs : HexSpelling s n) : command (setLine s t) = .set :=
  command_of_word (words_setLine hs).1 (by decide) (by decide) (by simp)

/-- No spelling of a number is the name of a register. -/
theorem regNameToNum_spelling (hs : HexSpelling s n) : regNameToNum s = none := by
  have hnames : (regNames.all fun entry => (entry.2.map toLower).any fun c =>
      !isDigit 16 c && c != 0x78) = true := by decide +kernel
  have hlower : ∀ c, isDigit 16 c = true → isDigit 16 (toLower c) = true := by decide +kernel
  have hchars : ∀ c ∈ s.map toLower, isDigit 16 c = true ∨ c = 0x78 := by
    cases hs with
    | digits hne h =>
      intro c hc
      obtain ⟨d, hd, rfl⟩ := List.mem_map.mp hc
      exact .inl (hlower d (h d hd))
    | prefixed hx hne h =>
      intro c hc
      rw [List.map_cons, List.map_cons, hx] at hc
      rcases List.mem_cons.mp hc with rfl | hc
      · exact .inl (by decide)
      · rcases List.mem_cons.mp hc with rfl | hc
        · exact .inr rfl
        · obtain ⟨d, hd, rfl⟩ := List.mem_map.mp hc
          exact .inl (hlower d (h d hd))
  rw [regNameToNum, Option.map_eq_none_iff, List.find?_eq_none]
  intro entry hentry heq
  obtain ⟨c, hc, hletter⟩ := List.any_eq_true.mp (List.all_eq_true.mp hnames entry hentry)
  obtain ⟨hdigit, hx⟩ : isDigit 16 c = false ∧ c ≠ 0x78 := by simpa using hletter
  rw [caseEq, beq_iff_eq] at heq
  rw [heq] at hc
  rcases hchars c hc with h | h
  · rw [hdigit] at h
    exact Bool.false_ne_true h
  · exact hx h

/-- **What `set s t` does**: it stores the value at the address that `strtol` reads. -/
theorem execCmd_setLine (emu : Emulator) (hs : HexSpelling s n) {v : BitVec 16}
    (ht : HexSpelling t v.toNat) :
    execCmd emu (setLine s t)
      = if 50 ≤ s.length then none
        else some (emu.store16 (getAddrPtr ((strtol s).setWidth 16)) v) := by
  have hsecond : secondWord (setLine s t) = s := by
    rw [secondWord, (words_setLine hs).2]
    rfl
  have hvalue : setValue (setLine s t) = v := by
    rw [setValue, (words_setLine hs).2]
    dsimp only
    rw [ht.scanHex_eq _ isSpace_blank, Option.map_some, Option.getD_some,
      setWidth_scanned (by omega), BitVec.ofNat_toNat, BitVec.setWidth_eq]
  rw [execCmd_eq, command_setLine hs]
  change execSet emu (setLine s t) = _
  rw [execSet, hsecond, regNameToNum_spelling hs, hvalue]

/-- **What `dump s` shows**: the memory from the number on, if the first character is a digit
to base ten. -/
theorem dumpText_dumpLine (emu : Emulator) {a : BitVec 16} (hs : HexSpelling s a.toNat)
    (hlen : s.length < 100) {c : BitVec 8} (hhead : s.head? = some c)
    (hc : 0x30 ≤ c ∧ c ≤ 0x39) : dumpText emu (dumpLine s) = some (dumpMemory emu a) := by
  have hread := hs.scanHex_eq [] (by simp)
  rw [List.nil_append] at hread
  rw [dumpText, dumpStart, (words_dumpLine hs).2, if_neg (not_le.mpr hlen), hhead]
  dsimp only
  rw [if_pos hc, hread]
  simp only [Option.map_some, Option.getD_some]
  rw [setWidth_scanned (by omega), BitVec.ofNat_toNat, BitVec.setWidth_eq]

end Lines

/-! ## When they mean the same address -/

/-- The two bytes at `a` become those of `v`, and nothing else changes. -/
def WordSet (emu emu' : Emulator) (a : ℕ) (v : BitVec 16) : Prop :=
  emu' = { emu with mem := fun a' =>
    if a' = a then v.setWidth 8 else if a' = a + 1 then highByte v else emu.mem a' }

/-- In every state `set s t`, for a spelling `t` of any value, sets the word at `a`, and `dump s`
then starts at `a` and shows this word first. -/
def MeansAddress (s : Str) (a : BitVec 16) : Prop :=
  ∀ (emu : Emulator) (v : BitVec 16) (t : Str), HexSpelling t v.toNat →
    ∃ emu', execCmd emu (setLine s t) = some emu' ∧ WordSet emu emu' a.toNat v ∧
      ∃ text, dumpText emu' (dumpLine s) = some text ∧ listingHead a.toNat v <+: text

/-- A store of a word sets its two bytes. -/
theorem wordSet_store16 (emu : Emulator) (a : BitVec 16) (v : BitVec 16) :
    WordSet emu (emu.store16 (getAddrPtr a) v) a.toNat v := by
  unfold WordSet getAddrPtr Emulator.store16 Emulator.setByte
  dsimp only
  congr 1
  funext a'
  by_cases h : a' = a.toNat
  · rw [if_neg (by omega), if_pos h, if_pos h]
  · rw [if_neg h, if_neg h]

/-- The address that `strtol` reads, as `set` uses it. -/
theorem strtol_address {s : Str} {a : BitVec 16} (hs : HexSpelling s a.toNat) :
    ((strtol s).setWidth 16 = a ↔ hexPrefixed s = true ∨ a.toNat < plainBase s) := by
  obtain ⟨m, hle, hread, hiff⟩ := hs.strtol_eq (by omega)
  have hm : ((strtol s).setWidth 16).toNat = m := by
    rw [hread, BitVec.toNat_setWidth, BitVec.toNat_ofNat]
    omega
  rw [← hiff, ← hm, BitVec.toNat_inj]

/-- A spelling that `set` understands starts with a digit to base ten. -/
theorem head_of_understood {s : Str} {n : ℕ} (hs : HexSpelling s n)
    (h : hexPrefixed s = true ∨ n < plainBase s) :
    ∃ c, s.head? = some c ∧ (0x30 ≤ c ∧ c ≤ 0x39) := by
  cases hs with
  | prefixed hx hne hdigits => exact ⟨0x30, rfl, by decide⟩
  | digits hne hdigits =>
    obtain ⟨c, s', rfl⟩ := List.exists_cons_of_ne_nil hne
    rw [hexPrefixed_digits hdigits, or_iff_right Bool.false_ne_true] at h
    have hsmall : CString.numberOf 16 (c :: s') < 10 := by
      have hbase : plainBase (c :: s') ≤ 10 := by
        unfold plainBase
        split_ifs <;> decide
      omega
    obtain ⟨d, -, hd⟩ := exists_digitValue (hdigits c (by simp))
    have hle := digit_le_numberOf (s := c :: s') (by simp) hd
    have hten : ∀ c : BitVec 8, isDigit 10 c = true → 0x30 ≤ c ∧ c ≤ 0x39 := by decide +kernel
    exact ⟨c, rfl, hten c ((isDigit_of_value hd).mpr (by omega))⟩

/-- **Both commands mean the address exactly when** the spelling fits the buffer of `set`, and
has `0x` before it or spells a number below the base that its first character selects. -/
theorem set_dump_iff {s : Str} {a : BitVec 16} (hs : HexSpelling s a.toNat) :
    MeansAddress s a ↔ s.length < 50 ∧ (hexPrefixed s = true ∨ a.toNat < plainBase s) := by
  rw [← strtol_address hs]
  constructor
  · intro h
    -- a value of two equal bytes over an empty memory shows where `set` stores it
    have hspelling : HexSpelling (bytes "101") (0x0101 : BitVec 16).toNat :=
      .digits (by decide) (by decide)
    obtain ⟨emu', hexec, hset, -⟩ := h { startState with mem := fun _ => 0 } _ _ hspelling
    rw [execCmd_setLine _ hs hspelling] at hexec
    split_ifs at hexec with hlen
    obtain rfl := Option.some.inj hexec
    have hmem := congrArg Emulator.mem hset
    have hlow := congrFun hmem a.toNat
    have hhigh := congrFun hmem (a.toNat + 1)
    simp only [getAddrPtr, Emulator.store16, Emulator.setByte] at hlow hhigh
    refine ⟨by omega, ?_⟩
    rw [← BitVec.toNat_inj]
    split_ifs at hlow hhigh
    all_goals first | omega | exact absurd hlow (by decide) | exact absurd hhigh (by decide)
  · rintro ⟨hlen, haddr⟩ emu v t ht
    refine ⟨emu.store16 (getAddrPtr a) v, ?_, wordSet_store16 emu a v,
      dumpMemory (emu.store16 (getAddrPtr a) v) a, ?_, ?_⟩
    · rw [execCmd_setLine emu hs ht, if_neg (not_le.mpr hlen), haddr]
    · obtain ⟨c, hhead, hc⟩ := head_of_understood hs ((strtol_address hs).mp haddr)
      exact dumpText_dumpLine _ hs (by omega) hhead hc
    · have hprefix := listingHead_prefix_dumpMemory (emu.store16 (getAddrPtr a) v) a
      rwa [Emulator.load16_store16] at hprefix

/-- An address with `0x` before it. -/
theorem set_dump_iff_prefixed : MeansAddress (bytes "0x200") 0x0200 :=
  (set_dump_iff (.prefixed (s := bytes "200") rfl (by decide) (by decide))).mpr (by decide)

/-- `200` is decimal to `set` and hexadecimal to `dump`. -/
theorem set_two_hundred : ¬ ∀ (s : Str) (a : BitVec 16), a.toNat < 0xFFE0 →
    HexSpelling s a.toNat → MeansAddress s a := by
  intro hclaim
  have hspelling : HexSpelling (bytes "200") (0x0200 : BitVec 16).toNat :=
    .digits (by decide) (by decide)
  have hone : HexSpelling (bytes "1") (1 : BitVec 16).toNat := .digits (by decide) (by decide)
  obtain ⟨emu', hexec, hset, -⟩ := hclaim _ 0x0200 (by decide) hspelling
    { startState with mem := fun _ => 0 } 1 _ hone
  rw [execCmd_setLine _ hspelling hone, if_neg (by decide)] at hexec
  obtain rfl := Option.some.inj hexec
  have hlow := congrFun (congrArg Emulator.mem hset) 0x200
  exact absurd hlow (by decide +kernel)

end Msp430
