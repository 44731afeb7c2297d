/-
# What a listing shows

`disassemble` prints a line for each instruction, with its address and its words.  The words are
collected in the branches of the operand blocks and the lines are counted in a byte:
`listing_iff` says when the listing of `dis N ADDR` has its lines, and in each line the bytes of
its own instruction.
-/
import Msp430.PrintedLines
import Msp430.Encodings
import Msp430.SetDump

namespace Msp430

open CString

/-! ## The text of `dis` -/

/-- What `disassemble` prints. -/
def disassembleText (emu : Emulator) (startAddr : BitVec 16) (times : BitVec 8) : Str :=
  (List.range times.toNat).flatMap fun i =>
    disassembleLineText (disassembleLine^[i] (listingStart emu startAddr))

/-- What `exec_cmd` prints on a line with `dis`. -/
def disText (emu : Emulator) (line : Str) : Option Str :=
  if command line = .dis then
    some (disassembleText emu (disArguments emu line).2 ((disArguments emu line).1.setWidth 8))
  else none

/-- `dis s t`. -/
def disLine (s t : Str) : Str := bytes "dis" ++ (bytes " " ++ (s ++ (bytes " " ++ t)))

/-! ## The memory of the guest -/

/-- The word at an address, in a memory that goes round. -/
def guestWord (emu : Emulator) (a : BitVec 16) : BitVec 16 :=
  joinBytes (emu.mem (a + 1).toNat) (emu.mem a.toNat)

/-- The words from an address on. -/
def guestWords (emu : Emulator) : BitVec 16 → ℕ → List (BitVec 16)
  | _, 0 => []
  | a, n + 1 => guestWord emu a :: guestWords emu (a + 2) n

/-- The bytes from an address on. -/
def guestBytes (emu : Emulator) : BitVec 16 → ℕ → List (BitVec 8)
  | _, 0 => []
  | a, n + 1 => emu.mem a.toNat :: guestBytes emu (a + 1) n

/-- The number of words of a documented instruction. -/
def instructionWords (w : BitVec 16) : ℕ :=
  if 2 ≤ formatId w ∧ formatId w ≤ 3 then 1 else 1 + extensionWords w

/-- An instruction has a word. -/
theorem instructionWords_pos (w : BitVec 16) : 0 < instructionWords w := by
  rw [instructionWords]
  split_ifs <;> omega

/-- The number of bytes of the instruction at an address. -/
def instructionBytes (emu : Emulator) (a : BitVec 16) : ℕ :=
  2 * instructionWords (guestWord emu a)

/-- The address of an instruction, counted from the one at `a`. -/
def instructionAt (emu : Emulator) (a : BitVec 16) : ℕ → BitVec 16
  | 0 => a
  | i + 1 => instructionAt emu a i + BitVec.ofNat 16 (instructionBytes emu (instructionAt emu a i))

/-- The number of bytes of the first `k` instructions. -/
def stretchBytes (emu : Emulator) (a : BitVec 16) (k : ℕ) : ℕ :=
  ((List.range k).map fun i => instructionBytes emu (instructionAt emu a i)).sum

/-- The first `k` instructions from `a` on are documented. -/
def DocumentedStretch (emu : Emulator) (a : BitVec 16) (k : ℕ) : Prop :=
  ∀ i < k, ¬ Undocumented (guestWord emu (instructionAt emu a i))

/-! ## What a listing should show -/

/-- The first column of the line for an address. -/
def addressLabel (a : BitVec 16) : Str := bytes "0x" ++ printHex 4 a.toNat ++ bytes ":"

/-- A line shows the address of an instruction and its bytes, no more and no fewer. -/
structure LineCovers (emu : Emulator) (a : BitVec 16) (line : Str) : Prop where
  label : (columns line).getD 0 [] = addressLabel a
  bytes : hexColumn line = hexBytes (guestBytes emu a (instructionBytes emu a))

/-- A listing of `n` lines: along a stretch of documented instructions from `a` on, each line
covers its own, and together they show the bytes of the stretch in their order. -/
structure ListingRight (emu : Emulator) (text : Str) (a : BitVec 16) (n : ℕ) : Prop where
  count : (lines text).length = n
  covers : ∀ k ≤ n, DocumentedStretch emu a k → ∀ i < k,
    LineCovers emu (instructionAt emu a i) ((lines text).getD i [])
  joined : ∀ k ≤ n, DocumentedStretch emu a k →
    ((lines text).take k).flatMap hexColumn = hexBytes (guestBytes emu a (stretchBytes emu a k))

/-! ## When it does -/

/-- A word is read from both ends of the guest memory only where the byte behind it is the
first one. -/
def ReadsRound (emu : Emulator) (a : BitVec 16) : Prop :=
  a = 0xFFFF → emu.mem 0x10000 = emu.mem 0

/-- A Format II word with an absolute operand. -/
def AbsoluteII (w : BitVec 16) : Prop := formatId w = 1 ∧ asFlag w = 1 ∧ lowReg w = 2

section Decidability

variable (emu : Emulator) (a : BitVec 16)

instance (w : BitVec 16) : Decidable (AbsoluteII w) := inferInstanceAs (Decidable (_ ∧ _ ∧ _))

instance : Decidable (ReadsRound emu a) := inferInstanceAs (Decidable (_ → _))

instance (k : ℕ) : Decidable (DocumentedStretch emu a k) := inferInstanceAs (Decidable (∀ i < k, _))

end Decidability

/-- The words that are recorded for the instruction at `a` are its own: behind a Format II word
with an absolute operand stands the operand instead of its address. -/
def RecordsOwnWords (emu : Emulator) (a : BitVec 16) : Prop :=
  if AbsoluteII (guestWord emu a) then
    ReadsRound emu a ∧
      emu.load16 (getAddrPtr (emu.load16 (getAddrPtr (a + 2)))) = guestWord emu (a + 2)
  else ∀ j < instructionWords (guestWord emu a), ReadsRound emu (a + BitVec.ofNat 16 (2 * j))

/-- Listing the instruction at `a` masks the program counter behind it. -/
def MasksListedPc (emu : Emulator) (a : BitVec 16) : Prop :=
  formatId (guestWord emu a) = 1 ∧ masksOperand (guestWord emu a) = true ∧
    lowReg (guestWord emu a) = 0 ∧ highByte (a + 2) ≠ 0

instance (emu : Emulator) (a : BitVec 16) : Decidable (RecordsOwnWords emu a) := by
  unfold RecordsOwnWords
  infer_instance

instance (emu : Emulator) (a : BitVec 16) : Decidable (MasksListedPc emu a) :=
  inferInstanceAs (Decidable (_ ∧ _ ∧ _ ∧ _))

/-- Along every documented stretch of up to `n` instructions each records its own words, and
none but the last masks the program counter. -/
def ListsFaithfully (emu : Emulator) (a : BitVec 16) (n : ℕ) : Prop :=
  ∀ k ≤ n, DocumentedStretch emu a k → ∀ i < k, RecordsOwnWords emu (instructionAt emu a i) ∧
    (i + 1 < k → ¬ MasksListedPc emu (instructionAt emu a i))

instance (emu : Emulator) (a : BitVec 16) (n : ℕ) : Decidable (ListsFaithfully emu a n) := by
  unfold ListsFaithfully
  infer_instance

/-! ## Bytes and words of the memory -/

section Memory

variable (emu : Emulator)

/-- Words are read two bytes at a time. -/
theorem guestBytes_two_mul (a : BitVec 16) (n : ℕ) :
    guestBytes emu a (2 * n) = wordBytes (guestWords emu a n) := by
  induction n generalizing a with
  | zero => rfl
  | succ n ih =>
    have htwo : a + 1 + 1 = a + 2 := by bv_omega
    rw [Nat.mul_succ, guestWords]
    change emu.mem a.toNat :: emu.mem (a + 1).toNat :: guestBytes emu (a + 1 + 1) (2 * n) = _
    rw [htwo, ih, wordBytes, wordBytes, List.flatMap_cons, guestWord, setWidth_joinBytes,
      highByte_joinBytes]
    rfl

theorem guestBytes_add (a : BitVec 16) (m n : ℕ) :
    guestBytes emu a (m + n)
      = guestBytes emu a m ++ guestBytes emu (a + BitVec.ofNat 16 m) n := by
  induction m generalizing a with
  | zero => simp [guestBytes]
  | succ m ih =>
    have hnext : a + 1 + BitVec.ofNat 16 m = a + BitVec.ofNat 16 (m + 1) := by
      rw [BitVec.ofNat_add]
      bv_omega
    rw [Nat.succ_add_eq_add_succ, Nat.add_succ, guestBytes, ih, hnext]
    rfl

/-- **What a pointer reads is the word of the guest** but at the end of its memory. -/
theorem load16_eq_guestWord_iff (a : BitVec 16) :
    emu.load16 (getAddrPtr a) = guestWord emu a ↔ ReadsRound emu a := by
  have hload : emu.load16 (getAddrPtr a) = joinBytes (emu.mem (a.toNat + 1)) (emu.mem a.toNat) :=
    rfl
  rw [hload, guestWord, joinBytes_eq_iff, setWidth_joinBytes, highByte_joinBytes,
    and_iff_right rfl, ReadsRound]
  by_cases ha : a = 0xFFFF
  · rw [ha]
    exact ⟨fun h _ => h, fun h => h rfl⟩
  · have hnext : (a + 1).toNat = a.toNat + 1 := by bv_omega
    rw [hnext]
    exact iff_of_true rfl fun h => absurd h ha

end Memory

/-! ## The words of a line -/

section Words

variable (emu : Emulator)

/-- The words that pointers read from an address on. -/
def loadedWords : BitVec 16 → ℕ → List (BitVec 16)
  | _, 0 => []
  | a, n + 1 => emu.load16 (getAddrPtr a) :: loadedWords (a + 2) n

theorem loadedWords_eq_iff (a : BitVec 16) (n : ℕ) :
    loadedWords emu a n = guestWords emu a n
      ↔ ∀ j < n, ReadsRound emu (a + BitVec.ofNat 16 (2 * j)) := by
  induction n generalizing a with
  | zero => exact iff_of_true rfl fun j hj => absurd hj (Nat.not_lt_zero j)
  | succ n ih =>
    have hnext (j : ℕ) : a + 2 + BitVec.ofNat 16 (2 * j) = a + BitVec.ofNat 16 (2 * (j + 1)) := by
      rw [Nat.mul_succ, BitVec.ofNat_add]
      bv_omega
    have hzero : a + BitVec.ofNat 16 (2 * 0) = a := by bv_omega
    rw [loadedWords, guestWords, List.cons.injEq, load16_eq_guestWord_iff, ih]
    constructor
    · rintro ⟨hfirst, hrest⟩ j hj
      cases j with
      | zero => exact hzero.symm ▸ hfirst
      | succ j => exact hnext j ▸ hrest j (by omega)
    · intro h
      exact ⟨hzero ▸ h 0 (by omega), fun j hj => (hnext j).symm ▸ h (j + 1) (by omega)⟩

/-- The words that the line of an instruction shows. -/
def shownWords (a : BitVec 16) : List (BitVec 16) :=
  emu.load16 (getAddrPtr a) ::
    if AbsoluteII (emu.load16 (getAddrPtr a)) then
      [emu.load16 (getAddrPtr (emu.load16 (getAddrPtr (a + 2))))]
    else loadedWords emu (a + 2) (instructionWords (emu.load16 (getAddrPtr a)) - 1)

variable {emu}

/-- The extension words of Format I in a line. -/
theorem extensionsI_eq {e : Emulator} {a w : BitVec 16} (hmem : e.mem = emu.mem)
    (hpc : e.pc = a) (h : 4 ≤ formatId w) :
    extensionsI e w = loadedWords emu a (instructionWords w - 1) := by
  have hne : formatId w ≠ 1 := formatId_ne_one (le_trans (by decide) h)
  have hnot : ¬ (2 ≤ formatId w ∧ formatId w ≤ 3) := fun hc =>
    absurd (le_trans h hc.2) (by decide)
  have hfield : fieldExtended (sourceReg w) (asFlag w) = sourceExtended w := fieldExtended_eq _ _
  have hload (x : BitVec 16) : e.load16 (getAddrPtr x) = emu.load16 (getAddrPtr x) :=
    load16_congr_mem hmem x
  rw [instructionWords, if_neg hnot, extensionWords, if_neg hne, hfield, extensionsI,
    destinationExtension, sourceAdvance, sourceExtension, hload, hload, hpc]
  cases sourceExtended w <;> cases adFlag w <;> simp [loadedWords]

/-- The words that Format II records in a line. -/
theorem hexParts_textII {e : Emulator} {a w : BitVec 16} (hmem : e.mem = emu.mem)
    (hpc : e.pc = a) (h : formatId w = 1) :
    (textII e w).hexParts
      = if AbsoluteII w then [emu.load16 (getAddrPtr (emu.load16 (getAddrPtr a)))]
        else loadedWords emu a (instructionWords w - 1) := by
  have hnot : ¬ (2 ≤ formatId w ∧ formatId w ≤ 3) := by
    rw [h]
    decide
  have hcount : instructionWords w - 1 = (fieldExtended (lowReg w) (asFlag w)).toNat := by
    rw [instructionWords, if_neg hnot, extensionWords, if_pos h, Nat.add_sub_cancel_left]
  have hfetch : (fetch (getRegPtr e (lowReg w))).1 = emu.load16 (getAddrPtr a) := by
    rw [← hpc, ← load16_congr_mem hmem]
    simp [fetch]
  have hload (x : BitVec 16) : (fetch (getRegPtr e (lowReg w))).2.load16 (getAddrPtr x)
      = emu.load16 (getAddrPtr x) := by
    apply load16_congr_mem
    rw [← hmem, getRegPtr_eq]
    rfl
  rw [hcount, fieldExtended_eq]
  simp only [textII]
  rcases asFlag_cases w with has | has | has | has <;> simp only [has, AbsoluteII, h]
  · simp [loadedWords]
  · cases hc : generatedConstant (lowReg w) 1 with
    | some c =>
      have h2 : lowReg w ≠ 2 := by
        intro h2
        rw [h2] at hc
        contradiction
      simp [indexedTextII, h2, loadedWords]
    | none =>
      simp only [indexedTextII, hfetch, hload]
      by_cases h0 : lowReg w = 0
      · simp [h0, loadedWords]
      · by_cases h2 : lowReg w = 2
        · simp [h2]
        · simp [h0, h2, loadedWords]
  · simp [loadedWords]
  · cases hc : generatedConstant (lowReg w) 3 with
    | some c => simp [autoIncTextII, loadedWords]
    | none =>
      simp only [autoIncTextII, hfetch]
      by_cases h0 : lowReg w = 0
      · simp [h0, loadedWords]
      · have hbeq : (lowReg w == 0) = false := beq_eq_false_iff_ne.mpr h0
        simp [h0, hbeq, loadedWords]

/-- The columns of the line of an instruction. -/
theorem columns_decodeText {e : Emulator} {a : BitVec 16} (hmem : e.mem = emu.mem)
    (hpc : e.pc = a) (hd : e.debugMode = true) (hw : formatId (emu.load16 (getAddrPtr a)) ≠ 0) :
    (columns (decodeText (fetch e).2 (fetch e).1)).getD 0 [] = paddedHex (shownWords emu a) := by
  obtain ⟨w, hword⟩ : ∃ w, w = emu.load16 (getAddrPtr a) := ⟨_, rfl⟩
  have hfetch : (fetch e).1 = w := by
    rw [fetch, hpc, hword]
    exact load16_congr_mem hmem a
  have hmem2 : (fetch e).2.mem = emu.mem := hmem
  have hpc2 : (fetch e).2.pc = a + 2 := by rw [← hpc]; rfl
  have hd2 : (fetch e).2.debugMode = true := hd
  rw [shownWords, ← hword, hfetch]
  rw [← hword] at hw
  rcases formatId_cases w with h0 | h1 | h3 | h4
  · exact absurd h0 hw
  · rw [columns_formatII hd2 h1, hexParts_textII hmem2 hpc2 h1]
    rfl
  · have habs : ¬ AbsoluteII w := fun hc => formatId_ne_one h3.1 hc.1
    rw [columns_formatIII hd2 h3, if_neg habs, instructionWords, if_pos h3]
    rfl
  · have habs : ¬ AbsoluteII w := fun hc =>
      formatId_ne_one (le_trans (by decide) h4) hc.1
    rw [columns_formatI hd2 h4, if_neg habs, extensionsI_eq hmem2 hpc2 h4]
    rfl

end Words

/-! ## The bytes of a line -/

section Bytes

variable {emu : Emulator} {a : BitVec 16}

/-- The bytes that a line shows; a word that is none is printed as a number. -/
def shownBytes (emu : Emulator) (a : BitVec 16) : List (BitVec 8) :=
  let w := emu.load16 (getAddrPtr a)
  if formatId w = 0 then [highByte w, w.setWidth 8] else wordBytes (shownWords emu a)

theorem plain_addressLabel (a : BitVec 16) : plain (addressLabel a) = true := by
  rw [addressLabel, plain_append, plain_append, plain_of_isDigit (isDigit_printHex 4 a.toNat)]
  rfl

/-- An address can be read back from its label. -/
theorem addressLabel_injective : Function.Injective addressLabel := by
  intro a b h
  have hdigits : printHex 4 a.toNat = printHex 4 b.toNat :=
    List.append_cancel_left (List.append_cancel_right h)
  apply BitVec.eq_of_toNat_eq
  rw [← numberOf_printHex 4 a.toNat, hdigits, numberOf_printHex]

/-- The first column is the address. -/
theorem columns_disassembleLineText (e : Emulator) :
    columns (disassembleLineText e)
      = addressLabel e.pc :: columns (decodeText (fetch e).2 (fetch e).1) := by
  have hline : disassembleLineText e
      = addressLabel e.pc ++ bytes "\t" ++ decodeText (fetch e).2 (fetch e).1 := by
    simp only [disassembleLineText, addressLabel, List.append_assoc]
    rfl
  have hplain := plain_addressLabel e.pc
  rw [hline, columns_cons (not_mem_of_plain hplain (by decide))
    (not_mem_of_plain hplain (by decide))]

/-- **What a line shows.** -/
theorem hexColumn_disassembleLineText {e : Emulator} (hmem : e.mem = emu.mem) (hpc : e.pc = a)
    (hd : e.debugMode = true) :
    hexColumn (disassembleLineText e) = hexBytes (shownBytes emu a) := by
  have hword : (fetch e).1 = emu.load16 (getAddrPtr a) := by
    rw [fetch, hpc]
    exact load16_congr_mem hmem a
  rw [hexColumn, columns_disassembleLineText]
  change ((columns (decodeText (fetch e).2 (fetch e).1)).getD 0 []).takeWhile _ = _
  by_cases h0 : formatId (emu.load16 (getAddrPtr a)) = 0
  · have hdigits := isDigit_printHex 4 (emu.load16 (getAddrPtr a)).toNat
    have hplain := plain_of_isDigit hdigits
    have htext : decodeText (fetch e).2 (fetch e).1
        = printHex 4 (emu.load16 (getAddrPtr a)).toNat ++ bytes "\t"
          ++ bytes "[INVALID INSTRUCTION]\n" := by
      rw [decodeText, hword, h0, List.append_assoc]
      rfl
    rw [htext, columns_cons (not_mem_of_plain hplain (by decide))
      (not_mem_of_plain hplain (by decide)), shownBytes, if_pos h0]
    change (printHex 4 _).takeWhile _ = _
    rw [List.takeWhile_eq_self_iff.mpr hdigits, printHex_word]
    simp [hexBytes]
  · rw [columns_decodeText hmem hpc hd h0, takeWhile_paddedHex, shownBytes, if_neg h0]

/-- The absolute operand of Format II is one word. -/
theorem instructionWords_absoluteII {w : BitVec 16} (h : AbsoluteII w) :
    instructionWords w = 2 := by
  obtain ⟨h1, has, hr⟩ := h
  simp [instructionWords, extensionWords, fieldExtended, h1, has, hr]

/-- A line whose first word is not read from both ends shows its own bytes when it records its
own words. -/
theorem shownBytes_eq_iff_of_readsRound (hround : ReadsRound emu a)
    (hdoc : ¬ Undocumented (guestWord emu a)) :
    shownBytes emu a = guestBytes emu a (instructionBytes emu a) ↔ RecordsOwnWords emu a := by
  have hword := (load16_eq_guestWord_iff emu a).mpr hround
  have h0 : formatId (guestWord emu a) ≠ 0 := fun h => hdoc (.inl h)
  rw [shownBytes, hword, if_neg h0, instructionBytes, guestBytes_two_mul,
    wordBytes_injective.eq_iff, shownWords, hword, RecordsOwnWords]
  by_cases habs : AbsoluteII (guestWord emu a)
  · rw [if_pos habs, if_pos habs, instructionWords_absoluteII habs]
    simp [guestWords, hround]
  · have hsucc : instructionWords (guestWord emu a) - 1 + 1 = instructionWords (guestWord emu a) :=
      Nat.sub_add_cancel (instructionWords_pos _)
    have hload : guestWord emu a :: loadedWords emu (a + 2) (instructionWords (guestWord emu a) - 1)
        = loadedWords emu a (instructionWords (guestWord emu a)) := by
      rw [← hsucc, loadedWords, hword, Nat.add_sub_cancel]
    rw [if_neg habs, if_neg habs, hload, loadedWords_eq_iff]

/-- A first word that is read from both ends is shown wrongly, also where the word that is read
is none. -/
theorem shownBytes_ne (hround : ¬ ReadsRound emu a) {n : ℕ} (hn : 0 < n) :
    shownBytes emu a ≠ wordBytes (guestWords emu a n) := by
  rw [← load16_eq_guestWord_iff] at hround
  obtain ⟨m, rfl⟩ := Nat.exists_eq_succ_of_ne_zero hn.ne'
  have hlow : (emu.load16 (getAddrPtr a)).setWidth 8 = (guestWord emu a).setWidth 8 := by
    rw [guestWord, setWidth_joinBytes]
    exact setWidth_joinBytes _ _
  intro h
  rw [shownBytes, guestWords] at h
  apply hround
  by_cases h0 : formatId (emu.load16 (getAddrPtr a)) = 0
  · rw [if_pos h0] at h
    obtain ⟨hfirst, hsecond, -⟩ :
        highByte (emu.load16 (getAddrPtr a)) = (guestWord emu a).setWidth 8
        ∧ (emu.load16 (getAddrPtr a)).setWidth 8 = highByte (guestWord emu a) ∧
          [] = wordBytes (guestWords emu (a + 2) m) := by
      simpa [wordBytes] using h
    -- the two bytes are the same, and so are those of the word of the guest
    rw [← joinBytes_highByte (emu.load16 (getAddrPtr a)), ← joinBytes_highByte (guestWord emu a),
      hlow, hfirst, ← hsecond, hlow]
  · rw [if_neg h0, shownWords] at h
    exact (List.cons.inj (wordBytes_injective h)).1

/-- A line that records its own words does not read the first from both ends. -/
theorem RecordsOwnWords.readsRound (h : RecordsOwnWords emu a) : ReadsRound emu a := by
  rw [RecordsOwnWords] at h
  split_ifs at h with habs
  · exact h.1
  · simpa using h 0 (instructionWords_pos _)

/-- **A line shows the bytes of its instruction exactly when** it records its own words. -/
theorem shownBytes_eq_iff (hdoc : ¬ Undocumented (guestWord emu a)) :
    shownBytes emu a = guestBytes emu a (instructionBytes emu a) ↔ RecordsOwnWords emu a := by
  by_cases hround : ReadsRound emu a
  · exact shownBytes_eq_iff_of_readsRound hround hdoc
  · rw [instructionBytes, guestBytes_two_mul]
    exact iff_of_false (shownBytes_ne hround (instructionWords_pos _)) fun h => hround h.readsRound

end Bytes

/-! ## The address of the next line -/

section Addresses

variable {emu : Emulator}

/-- A byte mask on the program counter has no extension word beside it. -/
theorem instructionWords_masks {w : BitVec 16} (h1 : formatId w = 1) (hm : masksOperand w = true) :
    instructionWords w = 1 := by
  have has : asFlag w = 0 := by
    simp only [masksOperand, Bool.and_eq_true, beq_iff_eq] at hm
    exact hm.2
  simp [instructionWords, extensionWords, fieldExtended, h1, has]

/-- **The line behind a documented instruction** is that of the next one, unless the byte mask
falls on the program counter. -/
theorem pc_disassembleLine {e : Emulator} {a : BitVec 16} (hmem : e.mem = emu.mem)
    (hpc : e.pc = a) (hround : ReadsRound emu a) (hdoc : ¬ Undocumented (guestWord emu a)) :
    (disassembleLine e).pc = a + BitVec.ofNat 16 (instructionBytes emu a)
      ↔ ¬ MasksListedPc emu a := by
  obtain ⟨w, hw⟩ : ∃ w, w = guestWord emu a := ⟨_, rfl⟩
  have hfetch : (fetch e).1 = w := by
    rw [hw, ← (load16_eq_guestWord_iff emu a).mpr hround, fetch, hpc]
    exact load16_congr_mem hmem a
  have hpc2 : (fetch e).2.pc = a + 2 := by rw [← hpc]; rfl
  rw [disassembleLine, hfetch, instructionBytes, MasksListedPc, ← hw]
  rw [← hw] at hdoc
  have hbytes (h : ¬ (2 ≤ formatId w ∧ formatId w ≤ 3)) : BitVec.ofNat 16 (2 * instructionWords w)
      = 2 + BitVec.ofNat 16 (2 * extensionWords w) := by
    rw [instructionWords, if_neg h, Nat.mul_add, BitVec.ofNat_add]
    rfl
  rcases formatId_cases w with h0 | h1 | h3 | h4
  · exact absurd (.inl h0) hdoc
  · have hnot : ¬ (2 ≤ formatId w ∧ formatId w ≤ 3) := by
      rw [h1]
      decide
    have hstep : (decode (fetch e).2 w true).pc = regsII (fetch e).2 w 0 := by
      rw [decode_formatII _ _ _ h1, decodeFormatII, if_pos rfl, operandsII_emu]
      rfl
    rw [hstep, regsII_pc, hpc2, advanceII_eq h1]
    by_cases hm : masksOperand w = true ∧ lowReg w = 0
    · have hnext : a + 2 + BitVec.ofNat 16 (2 * extensionWords w) = a + 2 := by
        rw [BitVec.add_assoc, ← hbytes hnot, instructionWords_masks h1 hm.1]
        rfl
      have hone : a + BitVec.ofNat 16 (2 * instructionWords w) = a + 2 := by
        rw [instructionWords_masks h1 hm.1]
        rfl
      rw [if_pos hm, hnext, hone, mask_eq_self_iff]
      simp [h1, hm]
    · rw [if_neg hm, hbytes hnot, BitVec.add_assoc]
      exact iff_of_true rfl fun hc => hm ⟨hc.2.1, hc.2.2.1⟩
  · have hstep : (decode (fetch e).2 w true).pc = a + 2 := by
      rw [decode_formatIII _ _ _ h3, decodeFormatIII, if_pos rfl, hpc2]
    rw [hstep, instructionWords, if_pos h3]
    exact iff_of_true rfl fun hc => formatId_ne_one h3.1 hc.1
  · have hnot : ¬ (2 ≤ formatId w ∧ formatId w ≤ 3) := fun hc =>
      absurd (le_trans h4 hc.2) (by decide)
    have hstep : (decode (fetch e).2 w true).pc = regsI (fetch e).2 w true 0 := by
      rw [decode_formatI _ _ _ h4, decodeFormatI, if_pos rfl, operandsI_emu]
      rfl
    rw [hstep, regsI_pc, if_neg (by simp), hpc2, advanceI_eq h4, hbytes hnot, BitVec.add_assoc]
    exact iff_of_true rfl fun hc => formatId_ne_one (le_trans (by decide) h4) hc.1

end Addresses

/-! ## The lines of a listing -/

section Run

variable (emu : Emulator) (a : BitVec 16)

/-- The state in which a line is printed. -/
def lineState (i : ℕ) : Emulator := disassembleLine^[i] (listingStart emu a)

theorem lineState_succ (i : ℕ) : lineState emu a (i + 1) = disassembleLine (lineState emu a i) :=
  Function.iterate_succ_apply' _ _ _

/-- Listing writes no memory. -/
theorem mem_lineState (i : ℕ) : (lineState emu a i).mem = emu.mem := by
  induction i with
  | zero => rfl
  | succ i ih =>
    rw [lineState_succ, ← ih]
    exact mem_listed (fetch (lineState emu a i)).2 _

/-- Listing does not leave the debugger. -/
theorem debugMode_lineState (hd : emu.debugMode = true) (i : ℕ) :
    (lineState emu a i).debugMode = true := by
  induction i with
  | zero => exact hd
  | succ i ih =>
    have hmodes := modes_decode (fetch (lineState emu a i)).2 (fetch (lineState emu a i)).1 true
    rw [lineState_succ]
    change (decode _ _ true).modes.2 = true
    rw [hmodes]
    split_ifs
    · rfl
    · exact ih

/-- A line without its end. -/
def lineText (i : ℕ) : Str := (disassembleLineText (lineState emu a i)).dropLast

theorem lineText_spec (hd : emu.debugMode = true) (i : ℕ) :
    disassembleLineText (lineState emu a i) = lineText emu a i ++ bytes "\n" ∧
      (0x0A : BitVec 8) ∉ lineText emu a i := by
  obtain ⟨e, he⟩ : ∃ e, e = lineState emu a i := ⟨_, rfl⟩
  have hd2 : (fetch e).2.debugMode = true := by
    rw [he]
    exact debugMode_lineState emu a hd i
  obtain ⟨line, hline, hfree⟩ := decodeText_line hd2 (fetch e).1
  have hlabel : (0x0A : BitVec 8) ∉ bytes "0x" ++ printHex 4 e.pc.toNat ++ bytes ":\t" := by
    have hplain := plain_of_isDigit (isDigit_printHex 4 e.pc.toNat)
    simp only [List.mem_append, not_or]
    exact ⟨⟨by decide, not_mem_of_plain hplain (by decide)⟩, by decide⟩
  have htext : disassembleLineText e
      = bytes "0x" ++ printHex 4 e.pc.toNat ++ bytes ":\t" ++ line ++ bytes "\n" := by
    rw [disassembleLineText, hline, List.append_assoc _ line]
  have hdrop : lineText emu a i = bytes "0x" ++ printHex 4 e.pc.toNat ++ bytes ":\t" ++ line := by
    rw [lineText, ← he, htext]
    exact List.dropLast_concat
  rw [← he, hdrop]
  refine ⟨htext, ?_⟩
  rw [List.mem_append, not_or]
  exact ⟨hlabel, hfree⟩

/-- **The lines of a listing.** -/
theorem lines_disassembleText (hd : emu.debugMode = true) (times : BitVec 8) :
    lines (disassembleText emu a times) = (List.range times.toNat).map (lineText emu a) := by
  have hlines : disassembleText emu a times
      = (List.range times.toNat).flatMap fun i => lineText emu a i ++ bytes "\n" := by
    refine List.flatMap_congr fun i _ => ?_
    exact (lineText_spec emu a hd i).1
  rw [hlines]
  exact lines_flatMap _ _ fun i _ => (lineText_spec emu a hd i).2

variable {emu a}

/-- **When a line covers an instruction**: it stands at its address, and records its words. -/
theorem lineCovers_iff (hd : emu.debugMode = true) (i : ℕ) {x : BitVec 16}
    (hdoc : ¬ Undocumented (guestWord emu x)) :
    LineCovers emu x (lineText emu a i)
      ↔ (lineState emu a i).pc = x ∧ RecordsOwnWords emu x := by
  obtain ⟨hline, hfree⟩ := lineText_spec emu a hd i
  have hcolumns : columns (lineText emu a i)
      = columns (disassembleLineText (lineState emu a i)) := by
    rw [hline, columns_line hfree]
  have hlabel : (columns (lineText emu a i)).getD 0 [] = addressLabel (lineState emu a i).pc := by
    rw [hcolumns, columns_disassembleLineText]
    rfl
  have hshown (hpc : (lineState emu a i).pc = x) :
      hexColumn (lineText emu a i) = hexBytes (shownBytes emu x) := by
    rw [hexColumn, hcolumns]
    exact hexColumn_disassembleLineText (mem_lineState emu a i) hpc (debugMode_lineState emu a hd i)
  constructor
  · intro h
    have hpc := addressLabel_injective (hlabel.symm.trans h.label)
    refine ⟨hpc, (shownBytes_eq_iff hdoc).mp (hexBytes_injective ?_)⟩
    rw [← hshown hpc, h.bytes]
  · rintro ⟨hpc, hwords⟩
    exact { label := by rw [hlabel, hpc]
            bytes := by rw [hshown hpc, (shownBytes_eq_iff hdoc).mpr hwords] }

/-- Along a stretch that is listed faithfully the lines stand at its instructions. -/
theorem pc_lineState {k : ℕ} (hdoc : DocumentedStretch emu a k)
    (h : ∀ i < k, RecordsOwnWords emu (instructionAt emu a i) ∧
      (i + 1 < k → ¬ MasksListedPc emu (instructionAt emu a i))) :
    ∀ i < k, (lineState emu a i).pc = instructionAt emu a i := by
  intro i
  induction i with
  | zero => exact fun _ => rfl
  | succ i ih =>
    intro hi
    obtain ⟨hwords, hmask⟩ := h i (by omega)
    rw [lineState_succ, instructionAt]
    exact (pc_disassembleLine (mem_lineState emu a i) (ih (by omega))
      hwords.readsRound (hdoc i (by omega))).mpr (hmask hi)

/-- **The lines cover a stretch exactly when** it is listed faithfully. -/
theorem covers_iff (hd : emu.debugMode = true) {k : ℕ} (hdoc : DocumentedStretch emu a k) :
    (∀ i < k, LineCovers emu (instructionAt emu a i) (lineText emu a i))
      ↔ ∀ i < k, RecordsOwnWords emu (instructionAt emu a i) ∧
        (i + 1 < k → ¬ MasksListedPc emu (instructionAt emu a i)) := by
  constructor
  · intro h i hi
    obtain ⟨hpc, hwords⟩ := (lineCovers_iff hd i (hdoc i hi)).mp (h i hi)
    refine ⟨hwords, fun hnext => ?_⟩
    -- the next line stands where it should
    have hpc' := ((lineCovers_iff hd (i + 1) (hdoc _ hnext)).mp (h (i + 1) hnext)).1
    rw [lineState_succ, instructionAt] at hpc'
    exact (pc_disassembleLine (mem_lineState emu a i) hpc hwords.readsRound (hdoc i hi)).mp hpc'
  · intro h i hi
    exact (lineCovers_iff hd i (hdoc i hi)).mpr ⟨pc_lineState hdoc h i hi, (h i hi).1⟩

theorem stretchBytes_succ (k : ℕ) : stretchBytes emu a (k + 1)
    = stretchBytes emu a k + instructionBytes emu (instructionAt emu a k) := by
  rw [stretchBytes, List.range_succ, List.map_append, List.sum_append]
  rfl

/-- The instructions of a stretch lie behind one another. -/
theorem instructionAt_eq (k : ℕ) :
    instructionAt emu a k = a + BitVec.ofNat 16 (stretchBytes emu a k) := by
  induction k with
  | zero => exact (BitVec.add_zero a).symm
  | succ k ih =>
    rw [instructionAt, stretchBytes_succ, BitVec.ofNat_add, ← BitVec.add_assoc, ← ih]

/-- The lines of a stretch, joined. -/
theorem joined_of_covers {k : ℕ}
    (h : ∀ i < k, LineCovers emu (instructionAt emu a i) (lineText emu a i)) :
    ((List.range k).map (lineText emu a)).flatMap hexColumn
      = hexBytes (guestBytes emu a (stretchBytes emu a k)) := by
  induction k with
  | zero => rfl
  | succ k ih =>
    have hlast := (h k (by omega)).bytes
    have hjoin (bs cs : List (BitVec 8)) : hexBytes (bs ++ cs) = hexBytes bs ++ hexBytes cs :=
      List.flatMap_append
    rw [List.range_succ, List.map_append, List.flatMap_append, ih fun i hi => h i (by omega),
      stretchBytes_succ, guestBytes_add, ← instructionAt_eq, hjoin, List.map_singleton,
      List.flatMap_singleton, hlast]

end Run

/-! ## The command -/

section Command

variable {s t : Str} {a : BitVec 16}

/-- The first word of the line. -/
theorem scanWord_disLine (s t : Str) :
    scanWord (disLine s t) = some (bytes "dis", bytes " " ++ (s ++ (bytes " " ++ t))) :=
  scanWord_word (by decide) (by decide) (by simp [bytes, isSpace])

/-- The line is a `dis`. -/
theorem command_disLine (s t : Str) : command (disLine s t) = .dis :=
  command_of_word (scanWord_disLine s t) (by decide) (by decide) (by simp)

/-- The arguments of `dis s t`. -/
theorem disArguments_disLine (emu : Emulator) (hne : s ≠ []) (hs : ∀ c ∈ s, isDigit 10 c = true)
    (ht : HexSpelling t a.toNat) :
    disArguments emu (disLine s t) = (scanned false (CString.numberOf 10 s), a) := by
  have hnumber : scanDecimal (bytes " " ++ (s ++ (bytes " " ++ t)))
      = some (scanned false (CString.numberOf 10 s), bytes " " ++ t) := by
    refine scanDecimal_eq isSpace_blank hne hs fun c hc => ?_
    obtain rfl := Option.some.inj hc
    decide
  rw [disArguments, arguments, scanWord_disLine, Option.map_some, Option.getD_some, hnumber]
  dsimp only
  rw [ht.scanHex_eq _ isSpace_blank]
  dsimp only
  rw [setWidth_scanned (by omega), BitVec.ofNat_toNat, BitVec.setWidth_eq]

/-- The count survives its way through a byte below 256 alone. -/
theorem toNat_count_iff (n : ℕ) : ((scanned false n).setWidth 8).toNat = n ↔ n < 256 := by
  constructor
  · intro h
    have hlt := ((scanned false n).setWidth 8).isLt
    omega
  · intro hn
    rw [scanned_eq (by omega), BitVec.toNat_setWidth, BitVec.toNat_ofNat]
    omega

end Command

/-- **A listing is right exactly when** its lines are fewer than 256, every instruction records
its own words, and none but the last masks the program counter. -/
theorem listing_iff (emu : Emulator) (hd : emu.debugMode = true) {s t : Str} {a : BitVec 16}
    (hne : s ≠ []) (hs : ∀ c ∈ s, isDigit 10 c = true) (ht : HexSpelling t a.toNat) :
    (∃ text, disText emu (disLine s t) = some text ∧
        ListingRight emu text a (CString.numberOf 10 s))
      ↔ CString.numberOf 10 s < 256 ∧ ListsFaithfully emu a (CString.numberOf 10 s) := by
  obtain ⟨n, hn⟩ : ∃ n, n = CString.numberOf 10 s := ⟨_, rfl⟩
  obtain ⟨times, htimes⟩ : ∃ times, times = (scanned false n).setWidth 8 := ⟨_, rfl⟩
  have htext : disText emu (disLine s t) = some (disassembleText emu a times) := by
    rw [disText, if_pos (command_disLine s t), disArguments_disLine emu hne hs ht, htimes, hn]
  have hlines := lines_disassembleText emu a hd times
  have hcount : (lines (disassembleText emu a times)).length = n ↔ n < 256 := by
    rw [hlines, List.length_map, List.length_range, htimes, toNat_count_iff]
  rw [htext, ← hn]
  simp only [Option.some.injEq, exists_eq_left']
  constructor
  · intro h
    have hlt := hcount.mp h.count
    have htoNat : times.toNat = n := htimes ▸ (toNat_count_iff n).mpr hlt
    refine ⟨hlt, fun k hk hdoc => (covers_iff hd hdoc).mp fun i hi => ?_⟩
    have hcover := h.covers k hk hdoc i hi
    have hi' : i < n := by omega
    rw [hlines, htoNat] at hcover
    simpa [hi'] using hcover
  · rintro ⟨hlt, hfaithful⟩
    have htoNat : times.toNat = n := htimes ▸ (toNat_count_iff n).mpr hlt
    exact {
      count := hcount.mpr hlt
      covers := fun k hk hdoc i hi => by
        have hi' : i < n := by omega
        have hcover := (covers_iff hd hdoc).mpr (hfaithful k hk hdoc) i hi
        rw [hlines, htoNat]
        simpa [hi'] using hcover
      joined := fun k hk hdoc => by
        have hcover := (covers_iff hd hdoc).mpr (hfaithful k hk hdoc)
        rw [hlines, htoNat, ← List.map_take, List.take_range, Nat.min_eq_left hk]
        exact joined_of_covers hcover }

/-- `dis 2 C000` of `MOV #1234h, 2(R5)` and `RETI`. -/
theorem listing_iff_two :
    ∃ text, disText (startState.setWords
        [(0xC000, 0x40B5), (0xC002, 0x1234), (0xC004, 2), (0xC006, 0x1300)])
        (disLine (bytes "2") (bytes "C000")) = some text ∧
      ListingRight (startState.setWords
        [(0xC000, 0x40B5), (0xC002, 0x1234), (0xC004, 2), (0xC006, 0x1300)]) text 0xC000 2 :=
  (listing_iff (startState.setWords
      [(0xC000, 0x40B5), (0xC002, 0x1234), (0xC004, 2), (0xC006, 0x1300)]) rfl
    (s := bytes "2") (t := bytes "C000") (by decide) (by decide)
    (.digits (by decide) (by decide))).mpr (by decide +kernel)

/-- `dis 1 C000` of `PUSH &0200h` shows the word at `0x0200` in place of the address. -/
theorem listing_absolute : ¬ ∀ (emu : Emulator) (s t : Str) (a : BitVec 16),
    emu.debugMode = true → s ≠ [] → (∀ c ∈ s, isDigit 10 c = true) → HexSpelling t a.toNat →
    ∃ text, disText emu (disLine s t) = some text ∧
      ListingRight emu text a (CString.numberOf 10 s) := by
  intro hclaim
  obtain ⟨emu, hemu⟩ : ∃ emu, emu = startState.setWords [(0xC000, 0x1212), (0xC002, 0x0200)] :=
    ⟨_, rfl⟩
  have hspelling : HexSpelling (bytes "C000") (0xC000 : BitVec 16).toNat :=
    .digits (by decide) (by decide)
  obtain ⟨text, htext, hright⟩ := hclaim emu (bytes "1") (bytes "C000") 0xC000 (hemu ▸ rfl)
    (by decide) (by decide) hspelling
  have hdoc : DocumentedStretch emu 0xC000 1 := by
    rw [hemu]
    decide +kernel
  have hshown : (disText emu (disLine (bytes "1") (bytes "C000"))).map
      (fun text => hexColumn ((lines text).getD 0 [])) = some (bytes "12120000") := by
    rw [hemu]
    decide +kernel
  have hmemory : hexBytes (guestBytes emu 0xC000 (instructionBytes emu 0xC000))
      = bytes "12120002" := by
    rw [hemu]
    decide +kernel
  have hbytes := (hright.covers 1 (by decide) hdoc 0 (by decide)).bytes
  rw [htext, Option.map_some, hbytes] at hshown
  have hwrong := hmemory.symm.trans (Option.some.inj hshown)
  exact absurd hwrong (by decide)

end Msp430
