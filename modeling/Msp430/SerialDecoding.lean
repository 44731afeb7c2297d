/-
# The payloads that the serial input decodes

A scan that swallows characters falls out of step with the decoding, and never comes back into
it: what the thread delivers from some place on is no end of a decoding that has more to say, and
the other way round.  So it decodes exactly the payloads that consist of plain bytes and whole
escapes and have their only carriage return at the end.
-/
import Msp430.SerialInput

namespace Msp430

open CString

/-! ## Units -/

/-- What the thread decodes as it should: a byte other than a backslash, or an escape with two
digits. -/
inductive InputUnit : Str → BitVec 8 → Prop where
  | byte {c : BitVec 8} (hc : c ≠ backslash) : InputUnit [c] (lineEnd c)
  | escape {h x y : BitVec 8} (hh : isEscapeLetter h = true) (hx : isDigit 16 x = true)
      (hy : isDigit 16 y = true) :
      InputUnit [backslash, h, x, y] (BitVec.ofNat 8 (CString.numberOf 16 [x, y]))

section Decode

variable {c h x y a b : BitVec 8} {s u : Str}

theorem lineEnd_letter (hh : isEscapeLetter h = true) : h ≠ backslash ∧ lineEnd h = h ∧
    h ≠ carriageReturn := by
  have hall : ∀ h, isEscapeLetter h = true → h ≠ backslash ∧ lineEnd h = h ∧
      h ≠ carriageReturn := by decide +kernel
  exact hall h hh

theorem lineEnd_digit (hx : isDigit 16 x = true) : x ≠ backslash ∧ lineEnd x = x ∧
    x ≠ carriageReturn := by
  have hall : ∀ x, isDigit 16 x = true → x ≠ backslash ∧ lineEnd x = x ∧
      x ≠ carriageReturn := by decide +kernel
  exact hall x hx

theorem escapeByte_plain (hc : c ≠ backslash) : escapeByte (c :: s) = none := by
  unfold escapeByte
  split
  · rename_i heq
    obtain rfl := (List.cons.inj heq).1
    rw [if_neg fun h => hc h.1]
  · rfl

theorem decodeInput_of_not (h : escapeByte (c :: s) = none) :
    decodeInput (c :: s) = lineEnd c :: decodeInput s := by
  rw [decodeInput, decodeFrom, h]
  rfl

theorem decodeInput_plain (hc : c ≠ backslash) :
    decodeInput (c :: s) = lineEnd c :: decodeInput s := decodeInput_of_not (escapeByte_plain hc)

theorem decodeInput_escape (hh : isEscapeLetter h = true) (hx : isDigit 16 x = true)
    (hy : isDigit 16 y = true) : decodeInput (backslash :: h :: x :: y :: s)
      = BitVec.ofNat 8 (CString.numberOf 16 [x, y]) :: decodeInput s := by
  have hbyte : escapeByte (backslash :: h :: x :: y :: s)
      = some (BitVec.ofNat 8 (CString.numberOf 16 [x, y])) := if_pos ⟨rfl, hh, hx, hy⟩
  rw [decodeInput, decodeFrom, hbyte]
  dsimp only
  rw [decodeFrom_eq]
  rfl

/-- **The decoding goes on** by the byte itself or by an escape. -/
theorem decodeInput_cons (c : BitVec 8) (s : Str) :
    decodeInput (c :: s) = lineEnd c :: decodeInput s ∨
      c = backslash ∧ ∃ h x y s' b, s = h :: x :: y :: s' ∧ isEscapeLetter h = true ∧
        isDigit 16 x = true ∧ isDigit 16 y = true ∧ decodeInput (c :: s) = b :: decodeInput s' := by
  cases hbyte : escapeByte (c :: s) with
  | none => exact .inl (decodeInput_of_not hbyte)
  | some b =>
    right
    unfold escapeByte at hbyte
    split at hbyte
    · rename_i c' h x y s' heq
      obtain ⟨rfl, rfl⟩ := List.cons.inj heq
      split_ifs at hbyte with hcond
      obtain ⟨rfl, hh, hx, hy⟩ := hcond
      exact ⟨rfl, h, x, y, s', _, rfl, hh, hx, hy, decodeInput_escape hh hx hy⟩
    · simp at hbyte

/-- A unit decodes to its byte. -/
theorem InputUnit.decodeInput_append (hu : InputUnit u b) (s : Str) :
    decodeInput (u ++ s) = b :: decodeInput s := by
  cases hu with
  | byte hc => exact decodeInput_plain hc
  | escape hh hx hy => exact decodeInput_escape hh hx hy

end Decode

/-! ## The digits behind `\h` -/

section Escaped

variable {x y : BitVec 8}

/-- Two digits are read as they should. -/
theorem escaped_digits (hx : isDigit 16 x = true) (hy : isDigit 16 y = true) :
    escaped x y = BitVec.ofNat 8 (CString.numberOf 16 [x, y]) := by
  have hall : ∀ c ∈ [x, y], isDigit 16 c = true := by simp [hx, hy]
  have hspelling : HexSpelling [x, y] (CString.numberOf 16 [x, y]) := .digits (by simp) hall
  have hskip : [x, y].dropWhile isSpace = [x, y] :=
    List.dropWhile_cons_of_neg (by simp [hspelling.isSpace_eq_false x (by simp)])
  have hsmall : CString.numberOf 16 [x, y] < 2 ^ 64 := by
    obtain ⟨d, hd, hx'⟩ := exists_digitValue hx
    obtain ⟨e, he, hy'⟩ := exists_digitValue hy
    simp only [CString.numberOf, List.foldl_cons, List.foldl_nil, hx', hy', Option.getD_some]
    omega
  unfold escaped strtoul
  rw [hskip, hspelling.splitSign_eq]
  dsimp only
  rw [hexPrefixed_digits hall, if_neg Bool.false_ne_true, digitsOf_eq_self hall, toUnsigned,
    if_neg (not_le.mpr hsmall), if_neg Bool.false_ne_true, BitVec.setWidth_ofNat_of_le (by decide)]

theorem splitSign_sublist (s : Str) : List.Sublist (splitSign s).2 s := by
  cases s with
  | nil => exact List.Sublist.refl _
  | cons c s =>
    rw [splitSign]
    split_ifs
    · exact List.sublist_cons_self c s
    · exact List.sublist_cons_self c s
    · exact List.Sublist.refl _

/-- Other characters are never read as a backslash: they hold at most one digit. -/
theorem escaped_ne_backslash (hxy : ¬ (isDigit 16 x = true ∧ isDigit 16 y = true)) :
    escaped x y ≠ backslash := by
  have hsmall : ∀ negative, ∀ n < 16, (toUnsigned negative n).setWidth 8 ≠ backslash := by
    decide +kernel
  unfold escaped strtoul
  rcases hsign : splitSign ([x, y].dropWhile isSpace) with ⟨negative, s⟩
  dsimp only
  apply hsmall
  have hsub : List.Sublist (digitsOf 16 (if hexPrefixed s = true then s.drop 2 else s)) [x, y] := by
    have hs := splitSign_sublist ([x, y].dropWhile isSpace)
    rw [hsign] at hs
    apply (List.takeWhile_sublist _).trans
    apply List.Sublist.trans _ (hs.trans (List.dropWhile_sublist _))
    split_ifs
    · exact List.drop_sublist 2 s
    · exact List.Sublist.refl s
  have hall : ∀ c ∈ digitsOf 16 (if hexPrefixed s = true then s.drop 2 else s),
      isDigit 16 c = true := fun c hc => List.mem_takeWhile_imp hc
  generalize digitsOf 16 (if hexPrefixed s = true then s.drop 2 else s) = ds at hsub hall ⊢
  have hlen := hsub.length_le
  match ds with
  | [] => decide
  | [c] =>
    obtain ⟨d, hd, hc⟩ := exists_digitValue (hall c (by simp))
    simpa [CString.numberOf, hc] using hd
  | c :: d :: ds =>
    have heq := hsub.eq_of_length_le (by simp)
    rw [heq] at hall
    exact absurd ⟨hall x (by simp), hall y (by simp)⟩ hxy

end Escaped

/-! ## The scan, byte by byte -/

/-- The ways in which a scan that stops in the payload begins: with a unit, with `\h` before
something else than two digits, and with a backslash before another character. -/
inductive ScanStep : Str → Str → Prop where
  | last {u : Str} (hu : InputUnit u carriageReturn) (s : Str) :
      ScanStep (u ++ s) [carriageReturn]
  | unit {u s l : Str} {b : BitVec 8} (hu : InputUnit u b) (hb : b ≠ carriageReturn)
      (hs : scanInput s = some l) : ScanStep (u ++ s) (b :: l)
  | mangledLast {h x y : BitVec 8} (hh : isEscapeLetter h = true)
      (hxy : ¬ (isDigit 16 x = true ∧ isDigit 16 y = true)) (s : Str) :
      ScanStep (backslash :: h :: x :: y :: s) [carriageReturn]
  | mangled {h x y : BitVec 8} {s l : Str} (hh : isEscapeLetter h = true)
      (hxy : ¬ (isDigit 16 x = true ∧ isDigit 16 y = true)) (hs : scanInput s = some l) :
      ScanStep (backslash :: h :: x :: y :: s) (escaped x y :: l)
  | lone {x : BitVec 8} {s l : Str} (hx : isEscapeLetter x = false)
      (hs : scanInput s = some l) : ScanStep (backslash :: x :: s) (backslash :: l)

/-- The thread decodes a unit as it should. -/
theorem InputUnit.thingOf_append {u : Str} {b : BitVec 8} (hu : InputUnit u b) (s : Str) :
    ∃ skip, thingOf (u ++ s) = some (b, skip) ∧ (u ++ s).drop (skip + 1) = s := by
  cases hu with
  | byte hc => exact ⟨0, thingOf_plain hc, rfl⟩
  | escape hh hx hy =>
    refine ⟨3, ?_, rfl⟩
    rw [← escaped_digits hx hy]
    exact thingOf_letter hh

/-- What the thread delivers from a unit on. -/
theorem InputUnit.scanInput_append {u : Str} {b : BitVec 8} (hu : InputUnit u b) (s : Str) :
    scanInput (u ++ s)
      = if b = carriageReturn then some [b] else (scanInput s).map (b :: ·) := by
  obtain ⟨skip, hthing, hdrop⟩ := hu.thingOf_append s
  rw [scanInput_eq, hthing, Option.bind_some, hdrop]

theorem scanStep_unit {u s l : Str} {b : BitVec 8} (hu : InputUnit u b)
    (hs : scanInput (u ++ s) = some l) : ScanStep (u ++ s) l := by
  rw [hu.scanInput_append] at hs
  split_ifs at hs with hb
  · subst hb
    obtain rfl := Option.some.inj hs
    exact .last hu s
  · obtain ⟨l', hl', rfl⟩ := Option.map_eq_some_iff.mp hs
    exact .unit hu hb hl'

theorem scanStep_of_scan {s l : Str} (hs : scanInput s = some l) : ScanStep s l := by
  rcases s with _ | ⟨c, s⟩
  · simp [scanInput, scanFrom] at hs
  by_cases hc : c = backslash
  · subst hc
    rcases s with _ | ⟨x, s⟩
    · have hend : thingOf [backslash] = none := rfl
      rw [scanInput_eq, hend] at hs
      simp at hs
    cases hx : isEscapeLetter x with
    | false =>
      rw [scanInput_eq, thingOf_lone hx, Option.bind_some, if_neg (by decide)] at hs
      obtain ⟨l', hl', rfl⟩ := Option.map_eq_some_iff.mp hs
      exact .lone hx hl'
    | true =>
      rcases s with _ | ⟨a, _ | ⟨b, s⟩⟩
      · rw [scanInput_eq, (thingOf_cut (a := 0) hx).1] at hs
        simp at hs
      · rw [scanInput_eq, (thingOf_cut hx).2] at hs
        simp at hs
      · by_cases hab : isDigit 16 a = true ∧ isDigit 16 b = true
        · exact scanStep_unit (.escape hx hab.1 hab.2) hs
        · rw [scanInput_eq, thingOf_letter hx, Option.bind_some] at hs
          split_ifs at hs with hcr
          · obtain rfl := Option.some.inj hs
            rw [hcr]
            exact .mangledLast hx hab s
          · obtain ⟨l', hl', rfl⟩ := Option.map_eq_some_iff.mp hs
            exact .mangled hx hab hl'
  · exact scanStep_unit (.byte hc) hs

/-! ## Out of step -/

/-- A list that ends on two lists leaves more of the shorter one's end. -/
theorem exists_of_append_eq {α : Type*} {p q l m : List α} (h : p ++ l = q ++ m)
    (hlen : p.length < q.length) : ∃ w, w ≠ [] ∧ l = w ++ m := by
  rcases List.append_eq_append_iff.mp h with ⟨w, rfl, rfl⟩ | ⟨w, rfl, -⟩
  · refine ⟨w, ?_, rfl⟩
    rintro rfl
    simp at hlen
  · rw [List.length_append] at hlen
    omega

theorem length_append_of_unit {u : Str} {b : BitVec 8} (hu : InputUnit u b) (s : Str) :
    s.length < (u ++ s).length := by
  have hpos : 0 < u.length := by cases hu <;> simp
  rw [List.length_append]
  omega

/-- The decoding keeps a backslash that begins no escape. -/
theorem decodeInput_backslash {s : Str} (h : escapeByte (backslash :: s) = none) :
    decodeInput (backslash :: s) = backslash :: decodeInput s := decodeInput_of_not h

theorem escapeByte_mangled {h x y : BitVec 8} {s : Str}
    (hxy : ¬ (isDigit 16 x = true ∧ isDigit 16 y = true)) :
    escapeByte (backslash :: h :: x :: y :: s) = none :=
  if_neg fun hc => hxy hc.2.2

theorem escapeByte_lone {x : BitVec 8} {s : Str} (hx : isEscapeLetter x = false) :
    escapeByte (backslash :: x :: s) = none := by
  rcases s with _ | ⟨a, _ | ⟨b, s⟩⟩
  · rfl
  · rfl
  · exact if_neg fun hc => by simp [hx] at hc

/-- **A decoding that is ahead stays ahead**: bytes without a backslash and a carriage return
would have to come again and again, and the scan stops. -/
theorem decode_ne_append_scan {s w l : Str} (hs : scanInput s = some l) (hw : w ≠ [])
    (hbs : backslash ∉ w) (hcr : carriageReturn ∉ w) : decodeInput s ≠ w ++ l := by
  induction hn : s.length using Nat.strong_induction_on generalizing s w l with
  | _ n ih =>
    subst hn
    obtain ⟨c, w, rfl⟩ := List.exists_cons_of_ne_nil hw
    intro heq
    rw [List.cons_append] at heq
    -- a backslash would stand at the head of the bytes
    have hhead (s' : Str) (hs' : s = backslash :: s') (h : escapeByte (backslash :: s') = none) :
        False := by
      rw [hs', decodeInput_backslash h] at heq
      exact hbs (by simp [(List.cons.inj heq).1])
    cases scanStep_of_scan hs with
    | last hu s =>
      rw [hu.decodeInput_append] at heq
      exact hcr (by simp [(List.cons.inj heq).1])
    | @unit u s l b hu hb hl =>
      rw [hu.decodeInput_append] at heq
      obtain ⟨rfl, hrest⟩ := List.cons.inj heq
      rw [List.append_cons] at hrest
      exact ih s.length (length_append_of_unit hu s) hl (by simp)
        (by simpa [and_comm, eq_comm] using hbs) (by simpa [and_comm, eq_comm] using hcr) rfl hrest
    | mangledLast hh hxy s => exact hhead _ rfl (escapeByte_mangled hxy)
    | mangled hh hxy hl => exact hhead _ rfl (escapeByte_mangled hxy)
    | lone hx hl => exact hhead _ rfl (escapeByte_lone hx)

/-- The scan of a plain byte. -/
theorem scanInput_plain {c : BitVec 8} (hc : c ≠ backslash ∧ lineEnd c = c ∧ c ≠ carriageReturn)
    (s : Str) : scanInput (c :: s) = (scanInput s).map (c :: ·) := by
  have hunit := InputUnit.scanInput_append (.byte hc.1) s
  rwa [hc.2.1, if_neg hc.2.2, List.singleton_append] at hunit

/-- What the thread delivers from the rest of an escape on whose backslash it has swallowed. -/
theorem scan_escape_rest {h x y : BitVec 8} {s l : Str} (hh : isEscapeLetter h = true)
    (hx : isDigit 16 x = true) (hy : isDigit 16 y = true)
    (hs : scanInput (h :: x :: y :: s) = some l) :
    ∃ l', scanInput s = some l' ∧ l = h :: x :: y :: l' := by
  rw [scanInput_plain (lineEnd_letter hh), scanInput_plain (lineEnd_digit hx),
    scanInput_plain (lineEnd_digit hy)] at hs
  simp only [Option.map_map, Option.map_eq_some_iff] at hs
  obtain ⟨l', hl', rfl⟩ := hs
  exact ⟨l', hl', rfl⟩

/-- **A scan that is ahead stays ahead**: at each step it delivers one byte, and the decoding has
as many or more to say, but for an escape on whose backslash the scan has swallowed. -/
theorem scan_ne_append_decode {s w l : Str} (hs : scanInput s = some l) (hw : w ≠ []) :
    l ≠ w ++ decodeInput s := by
  induction hn : s.length using Nat.strong_induction_on generalizing s w l with
  | _ n ih =>
    subst hn
    obtain ⟨c, w, rfl⟩ := List.exists_cons_of_ne_nil hw
    intro heq
    rw [List.cons_append] at heq
    cases scanStep_of_scan hs with
    | last hu s =>
      rw [hu.decodeInput_append] at heq
      simp at heq
    | @unit u s l b hu hb hl =>
      rw [hu.decodeInput_append] at heq
      obtain ⟨rfl, hrest⟩ := List.cons.inj heq
      rw [List.append_cons] at hrest
      exact ih s.length (length_append_of_unit hu s) hl (by simp) rfl hrest
    | @mangledLast h x y hh hxy s =>
      rw [decodeInput_backslash (escapeByte_mangled hxy)] at heq
      simp at heq
    | @mangled h x y s l hh hxy hl =>
      rw [decodeInput_backslash (escapeByte_mangled hxy), decodeInput_plain (lineEnd_letter hh).1,
        (lineEnd_letter hh).2.1] at heq
      obtain ⟨-, hrest⟩ := List.cons.inj heq
      rcases decodeInput_cons x (y :: s) with
        hdec | ⟨-, h', x', y', s', b, hsplit, -, hx', hy', hdec⟩
      · rw [hdec] at hrest
        rcases decodeInput_cons y s with hdec' | ⟨-, h', x', y', s', b, rfl, hh', hx', hy', hdec'⟩
        · rw [hdec'] at hrest
          exact ih s.length (by simp; omega) hl
            (w := w ++ [backslash, h, lineEnd x, lineEnd y]) (by simp) rfl (by simpa using hrest)
        · -- the last character of the mangled escape begins another one
          obtain ⟨l', hl', rfl⟩ := scan_escape_rest hh' hx' hy' hl
          rw [hdec'] at hrest
          obtain ⟨w', hw', hl''⟩ := exists_of_append_eq (p := [h', x', y'])
            (q := w ++ [backslash, h, lineEnd x, b]) (m := decodeInput s') (l := l')
            (by simpa using hrest) (by simp)
          exact ih s'.length (by simp; omega) hl' hw' rfl hl''
      · -- the first one does
        obtain ⟨rfl, rfl⟩ := List.cons.inj hsplit
        rw [hdec] at hrest
        rw [scanInput_plain (lineEnd_digit hx'), scanInput_plain (lineEnd_digit hy')] at hl
        simp only [Option.map_map, Option.map_eq_some_iff] at hl
        obtain ⟨l', hl', rfl⟩ := hl
        obtain ⟨w', hw', hl''⟩ := exists_of_append_eq (p := [x', y'])
          (q := w ++ [backslash, h, b]) (m := decodeInput s') (l := l')
          (by simpa using hrest) (by simp)
        exact ih s'.length (by simp; omega) hl' hw' rfl hl''
    | @lone x s l hx hl =>
      rw [decodeInput_backslash (escapeByte_lone hx)] at heq
      obtain ⟨-, hrest⟩ := List.cons.inj heq
      rcases decodeInput_cons x s with hdec | ⟨-, h', x', y', s', b, rfl, hh', hx', hy', hdec⟩
      · rw [hdec] at hrest
        exact ih s.length (by simp) hl (w := w ++ [backslash, lineEnd x]) (by simp) rfl
          (by simpa using hrest)
      · -- the letter and the digits of the escape are no backslash
        obtain ⟨l', hl', rfl⟩ := scan_escape_rest hh' hx' hy' hl
        rw [hdec] at hrest
        have hletter := (lineEnd_letter hh').1
        have hdigit := (lineEnd_digit hx').1
        have hdigit' := (lineEnd_digit hy').1
        rcases w with _ | ⟨t, _ | ⟨t', _ | ⟨t'', w⟩⟩⟩
        · exact hletter (List.cons.inj hrest).1
        · exact hdigit (List.cons.inj (List.cons.inj hrest).2).1
        · exact hdigit' (List.cons.inj (List.cons.inj (List.cons.inj hrest).2).2).1
        · have hl'' : l' = (w ++ [backslash, b]) ++ decodeInput s' := by
            simpa using (List.cons.inj (List.cons.inj (List.cons.inj hrest).2).2).2
          exact ih s'.length (by simp; omega) hl' (by simp) rfl hl''

/-! ## The payloads that are decoded -/

/-- The payload consists of units, and the last alone stands for a carriage return. -/
inductive CleanInput : Str → Prop where
  | last {u : Str} (hu : InputUnit u carriageReturn) : CleanInput u
  | more {u s : Str} {b : BitVec 8} (hu : InputUnit u b) (hb : b ≠ carriageReturn)
      (hs : CleanInput s) : CleanInput (u ++ s)

theorem scan_of_clean {s : Str} (h : CleanInput s) : scanInput s = some (decodeInput s) := by
  induction h with
  | @last u hu =>
    have hscan := hu.scanInput_append []
    have hdec := hu.decodeInput_append []
    rw [List.append_nil] at hscan hdec
    rw [hscan, hdec, if_pos rfl]
    rfl
  | more hu hb hs ih =>
    rw [hu.scanInput_append, hu.decodeInput_append, if_neg hb, ih, Option.map_some]

theorem decodeInput_ne_nil (c : BitVec 8) (s : Str) : decodeInput (c :: s) ≠ [] := by
  rcases decodeInput_cons c s with h | ⟨-, _, _, _, _, _, -, -, -, -, h⟩ <;> rw [h] <;> simp

/-- **Only such payloads are**: a swallowed character puts the scan out of step for good. -/
theorem clean_of_scan {s : Str} (h : scanInput s = some (decodeInput s)) : CleanInput s := by
  induction hn : s.length using Nat.strong_induction_on generalizing s with
  | _ n ih =>
    subst hn
    generalize hdec : decodeInput s = l at h
    cases scanStep_of_scan h with
    | last hu s =>
      rw [hu.decodeInput_append] at hdec
      rcases s with _ | ⟨c, s⟩
      · rw [List.append_nil]
        exact .last hu
      · exact absurd (List.cons.inj hdec).2 (decodeInput_ne_nil c s)
    | @unit u s l b hu hb hl =>
      rw [hu.decodeInput_append] at hdec
      rw [← (List.cons.inj hdec).2] at hl
      exact .more hu hb (ih s.length (length_append_of_unit hu s) hl rfl)
    | mangledLast hh hxy s =>
      rw [decodeInput_backslash (escapeByte_mangled hxy)] at hdec
      exact absurd (List.cons.inj hdec).1 (by decide)
    | mangled hh hxy hl =>
      rw [decodeInput_backslash (escapeByte_mangled hxy)] at hdec
      exact absurd (List.cons.inj hdec).1.symm (escaped_ne_backslash hxy)
    | @lone x s l hx hl =>
      rw [decodeInput_backslash (escapeByte_lone hx)] at hdec
      have hrest := (List.cons.inj hdec).2
      rcases decodeInput_cons x s with hcons | ⟨-, h', x', y', s', b, rfl, hh', hx', hy', hcons⟩
      · rw [hcons] at hrest
        exact absurd hrest.symm
          (scan_ne_append_decode hl (w := [lineEnd x]) (by simp))
      · obtain ⟨l', hl', rfl⟩ := scan_escape_rest hh' hx' hy' hl
        rw [hcons] at hrest
        refine absurd (List.cons.inj hrest).2 (decode_ne_append_scan hl' (w := [x', y']) (by simp)
          ?_ ?_)
        · simp [(lineEnd_digit hx').1.symm, (lineEnd_digit hy').1.symm]
        · simp [(lineEnd_digit hx').2.2.symm, (lineEnd_digit hy').2.2.symm]

/-- **The payload is decoded completely, and the thread stops, exactly when** it consists of
plain bytes and whole escapes, and its only carriage return is the last. -/
theorem serial_input_iff (payload : Str) (behind : ℕ → BitVec 8) :
    InputDecoded payload behind ↔ CleanInput payload := by
  rw [inputDecoded_iff_scan]
  exact ⟨clean_of_scan, scan_of_clean⟩

/-- A backslash before another letter, in a line that ends well. -/
theorem serial_input_swallowed : ¬ InputDecoded (bytes "a\\b\n") (fun _ => 0) := by
  rw [inputDecoded_iff_scan]
  decide

end Msp430
