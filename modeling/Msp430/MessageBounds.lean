/-
# What the receive handler reads of a message

The indices of the message that the handler, and the code it calls before it returns, read:
`receiveReads`.  The lengths in a header come from the client and are used as they come, the
opcode is read of an empty message, too, and a console line is read to its terminator.
`reads_within_iff` says of which messages nothing behind the last byte is read.
-/
import Msp430.Receive

namespace Msp430

open CString

/-! ## The indices that are read -/

/-- The data loop of an upload, from the index `i` on, reads until the file is complete. -/
def uploadLoopReads (h : Host) (i : ℕ) : List (BitVec 8) → List ℕ
  | [] => []
  | b :: bs => i ::
      if (uploadByte h b).2 then [] else uploadLoopReads (uploadByte h b).1 (i + 1) bs

/-- The statics with which `case 0x00` enters its data loop. -/
def startUpload (h : Host) (m : Message) : Host :=
  { h with upload :=
    { inProgress := true
      uploadedBytes := 0
      fileSize := m.word 1
      fileName :=
        ((List.range (m.word 3).toNat).map fun i => m.byteAt (5 + i)).takeWhile (· != 0)
      file := [] } }

/-- `case 0x00`: the two lengths, then the name and the data. -/
def headerReads (h : Host) (m : Message) : List ℕ :=
  let fileNameSize := (m.word 3).toNat
  [1, 2, 3, 4] ++
    if 0xFFFF ≤ m.word 1 then []
    else (List.range fileNameSize).map (5 + ·) ++
      uploadLoopReads (startUpload h m) (5 + fileNameSize) (m.bytes.drop (5 + fileNameSize))

/-- `case 0x04`: the line is printed, and so read up to its terminator; `exec_cmd` reads no
further. -/
def consoleReads (m : Message) : List ℕ :=
  if 1000 < m.bytes.length then []
  else (List.range (m.line.length + 1)).map (1 + ·)

/-- The opcode and the cases; the data of `case 0x03` are read by the thread it starts. -/
def commandReads (h : Host) (m : Message) : List ℕ :=
  0 :: match m.byteAt 0 with
    | 0x00 => headerReads h m
    | 0x04 => consoleReads m
    | _ => []

/-- `LWS_CALLBACK_RECEIVE`. -/
def receiveReads (h : Host) (m : Message) : List ℕ :=
  if h.upload.inProgress then uploadLoopReads h 0 m.bytes else commandReads h m

/-! ## Nothing is left out -/

theorem receiveHeader_eq (h : Host) (m : Message) :
    receiveHeader h m
      = if 0xFFFF ≤ m.word 1 then none
        else some (uploadLoop (startUpload h m) (m.bytes.drop (5 + (m.word 3).toNat))) := rfl

/-- The two bytes of a length. -/
theorem word_congr {m m' : Message} {i : ℕ} (h : m.byteAt i = m'.byteAt i)
    (h' : m.byteAt (i + 1) = m'.byteAt (i + 1)) : m.word i = m'.word i := by
  rw [Message.word, Message.word, h, h']

/-- `case 0x00` on a message that looks the same. -/
theorem receiveHeader_congr (h : Host) {m m' : Message} (hbytes : m.bytes = m'.bytes)
    (hagree : ∀ i ∈ headerReads h m, m.byteAt i = m'.byteAt i) :
    receiveHeader h m = receiveHeader h m' := by
  have hlength (i : ℕ) (hi : i ∈ [1, 2, 3, 4]) : m.byteAt i = m'.byteAt i :=
    hagree i (List.mem_append_left _ hi)
  have hsize : m.word 1 = m'.word 1 :=
    word_congr (hlength 1 (by decide)) (hlength 2 (by decide))
  have hnameSize : m.word 3 = m'.word 3 :=
    word_congr (hlength 3 (by decide)) (hlength 4 (by decide))
  rw [receiveHeader_eq, receiveHeader_eq, ← hsize, ← hnameSize, ← hbytes]
  by_cases hbig : 0xFFFF ≤ m.word 1
  · rw [if_pos hbig, if_pos hbig]
  · have hname : ∀ i ∈ List.range (m.word 3).toNat, m.byteAt (5 + i) = m'.byteAt (5 + i) := by
      intro i hi
      apply hagree
      rw [headerReads, if_neg hbig]
      exact List.mem_append_right _ (List.mem_append_left _ (List.mem_map_of_mem hi))
    have hstart : startUpload h m = startUpload h m' := by
      rw [startUpload, startUpload, List.map_congr_left hname, hsize, hnameSize]
    rw [if_neg hbig, if_neg hbig, hstart]

/-- `buf[1 + i]` as a byte of what begins at `buf + 1`. -/
theorem byteAt_one_add (m : Message) (i : ℕ) :
    m.byteAt (1 + i) = ((m.bytes ++ m.beyond).drop 1).getD i 0 := by
  rw [Message.byteAt, List.getD_eq_getElem?_getD, List.getD_eq_getElem?_getD,
    List.getElem?_drop]

/-- `case 0x04` on a message that looks the same. -/
theorem receiveConsole_congr (h : Host) {m m' : Message} (hbytes : m.bytes = m'.bytes)
    (hagree : ∀ i ∈ consoleReads m, m.byteAt i = m'.byteAt i) :
    receiveConsole h m = receiveConsole h m' := by
  rw [receiveConsole, receiveConsole, ← hbytes]
  by_cases hlong : 1000 < m.bytes.length
  · rw [if_pos hlong, if_pos hlong]
  · have hline : m.line = m'.line := by
      apply takeWhile_congr
      intro i hi
      rw [← byteAt_one_add, ← byteAt_one_add]
      apply hagree
      rw [consoleReads, if_neg hlong]
      exact List.mem_map_of_mem (List.mem_range.mpr (Nat.lt_succ_of_le hi))
    rw [if_neg hlong, if_neg hlong, hline]

/-- **The handler depends on nothing else**: wherever a message stands, what is behind it
matters only through the indices listed. -/
theorem receive_congr (h : Host) {m m' : Message} (hbytes : m.bytes = m'.bytes)
    (hagree : ∀ i ∈ receiveReads h m, m.byteAt i = m'.byteAt i) :
    receive h m = receive h m' := by
  unfold receiveReads at hagree
  unfold receive
  by_cases hup : h.upload.inProgress = true
  · rw [if_pos hup, if_pos hup, hbytes]
  · rw [if_neg hup] at hagree
    rw [if_neg hup, if_neg hup]
    have hop : m.byteAt 0 = m'.byteAt 0 := hagree 0 List.mem_cons_self
    have hcase (i : ℕ) (hi : i ∈ (commandReads h m).tail) : m.byteAt i = m'.byteAt i :=
      hagree i (List.mem_of_mem_tail hi)
    unfold commandReads at hcase
    unfold receiveCommand
    rw [← hop]
    split <;> rename_i heq
    · simp only [heq, List.tail_cons] at hcase
      exact receiveHeader_congr h hbytes hcase
    · rfl
    · rfl
    · rw [receiveSerial, receiveSerial, hbytes]
    · simp only [heq, List.tail_cons] at hcase
      exact receiveConsole_congr h hbytes hcase
    · rfl

/-! ## Messages within which the handler stays -/

/-- Whatever stands behind the message, only its own bytes are read. -/
def ReadsWithin (h : Host) (bs : List (BitVec 8)) : Prop :=
  ∀ beyond, ∀ i ∈ receiveReads h ⟨bs, beyond⟩, i < bs.length

/-- The length field at the index `i` of a message. -/
def lengthField (bs : List (BitVec 8)) (i : ℕ) : ℕ :=
  (joinBytes (bs.getD i 0) (bs.getD (i + 1) 0)).toNat

/-- A header whose name it contains, or that ends the process. -/
def HeaderFits (bs : List (BitVec 8)) : Prop :=
  5 ≤ bs.length ∧ (lengthField bs 1 = 0xFFFF ∨ 5 + lengthField bs 3 ≤ bs.length)

/-- A console line that it ends, or that is too long to be read. -/
def LineFits (bs : List (BitVec 8)) : Prop := 1000 < bs.length ∨ 0 ∈ bs.drop 1

/-- The message contains what its opcode makes the handler read. -/
def MessageFits (bs : List (BitVec 8)) : Prop :=
  bs ≠ [] ∧ (bs.head? = some 0x00 → HeaderFits bs) ∧ (bs.head? = some 0x04 → LineFits bs)

/-- The data loop stays within the message. -/
theorem lt_of_mem_uploadLoopReads (h : Host) (i : ℕ) (bs : List (BitVec 8)) :
    ∀ j ∈ uploadLoopReads h i bs, j < i + bs.length := by
  induction bs generalizing h i with
  | nil =>
    intro j hj
    exact absurd hj List.not_mem_nil
  | cons b bs ih =>
    intro j hj
    rw [uploadLoopReads, List.mem_cons] at hj
    rw [List.length_cons]
    rcases hj with rfl | hj
    · omega
    · split_ifs at hj
      · exact absurd hj List.not_mem_nil
      · have := ih _ _ j hj
        omega

/-- A byte of the message. -/
theorem byteAt_of_lt (bs beyond : List (BitVec 8)) {i : ℕ} (h : i < bs.length) :
    Message.byteAt ⟨bs, beyond⟩ i = bs.getD i 0 := by
  rw [Message.byteAt, List.getD_append _ _ _ _ h]

/-- A length field within the message. -/
theorem word_of_lt (bs beyond : List (BitVec 8)) {i : ℕ} (h : i + 1 < bs.length) :
    (Message.word ⟨bs, beyond⟩ i).toNat = lengthField bs i := by
  rw [Message.word, byteAt_of_lt bs beyond (by omega), byteAt_of_lt bs beyond h, lengthField]

/-- `case 0x00` stays within the message exactly when the header fits. -/
theorem headerReads_within_iff (h : Host) (bs beyond : List (BitVec 8)) :
    (∀ i ∈ headerReads h ⟨bs, beyond⟩, i < bs.length) ↔ HeaderFits bs := by
  obtain ⟨m, hm⟩ : ∃ m : Message, m = ⟨bs, beyond⟩ := ⟨_, rfl⟩
  have hbytes : m.bytes = bs := by rw [hm]
  rw [← hm]
  unfold HeaderFits
  by_cases h5 : 5 ≤ bs.length
  · have hsize : (m.word 1).toNat = lengthField bs 1 := hm ▸ word_of_lt bs beyond (by omega)
    have hnameSize : (m.word 3).toNat = lengthField bs 3 :=
      hm ▸ word_of_lt bs beyond (by omega)
    have hlengths : ∀ i ∈ [1, 2, 3, 4], i < bs.length := by
      intro i hi
      have : i ≤ 4 := by revert i; decide
      omega
    have hbig : 0xFFFF ≤ m.word 1 ↔ lengthField bs 1 = 0xFFFF := by
      have hlt := (m.word 1).isLt
      rw [BitVec.le_def, hsize, show (0xFFFF : BitVec 16).toNat = 0xFFFF from rfl]
      omega
    rw [and_iff_right h5, ← hbig, headerReads, ← hnameSize, hbytes]
    by_cases hquit : 0xFFFF ≤ m.word 1
    · rw [if_pos hquit, List.append_nil]
      exact iff_of_true hlengths (Or.inl hquit)
    · rw [if_neg hquit, or_iff_right hquit]
      constructor
      · intro hall
        -- the last byte of the name
        by_contra hlong
        have hlast := hall (5 + ((m.word 3).toNat - 1))
          (List.mem_append_right _ (List.mem_append_left _
            (List.mem_map_of_mem (List.mem_range.mpr (by omega)))))
        omega
      · intro hname i hi
        rw [List.mem_append, List.mem_append, List.mem_map] at hi
        rcases hi with hi | ⟨k, hk, rfl⟩ | hi
        · exact hlengths i hi
        · have := List.mem_range.mp hk
          omega
        · have := lt_of_mem_uploadLoopReads _ _ _ i hi
          rw [List.length_drop] at this
          omega
  · refine iff_of_false (fun hall => ?_) (fun hc => h5 hc.1)
    have := hall 4 (List.mem_append_left _ (by decide))
    omega

/-- `case 0x04` stays within the message, whatever stands behind it, exactly when the line
fits. -/
theorem consoleReads_within_iff {bs : List (BitVec 8)} (hne : bs ≠ []) :
    (∀ beyond, ∀ i ∈ consoleReads ⟨bs, beyond⟩, i < bs.length) ↔ LineFits bs := by
  have hpos := List.length_pos_iff.mpr hne
  unfold LineFits
  by_cases hlong : 1000 < bs.length
  · refine iff_of_true (fun beyond i hi => ?_) (Or.inl hlong)
    rw [consoleReads, if_pos hlong] at hi
    exact absurd hi List.not_mem_nil
  · rw [or_iff_right hlong, ← length_takeWhile_lt_iff, List.length_drop]
    have hline (beyond : List (BitVec 8)) :
        Message.line ⟨bs, beyond⟩ = (bs.drop 1 ++ beyond).takeWhile (· != 0) := by
      rw [Message.line, List.drop_append_of_le_length (Nat.succ_le_of_lt hpos)]
    constructor
    · intro hall
      have hlast := hall [] (1 + ((bs.drop 1).takeWhile (· != 0)).length) (by
        rw [consoleReads, if_neg hlong, hline, List.append_nil]
        exact List.mem_map_of_mem (List.mem_range.mpr (Nat.lt_succ_self _)))
      omega
    · intro hend beyond i hi
      have hstop : ¬ ((bs.drop 1).takeWhile (· != 0)).length = bs.length - 1 := by omega
      rw [consoleReads, if_neg hlong, hline, List.takeWhile_append, List.length_drop,
        if_neg hstop, List.mem_map] at hi
      obtain ⟨k, hk, rfl⟩ := hi
      have := List.mem_range.mp hk
      omega

/-- **The handler reads within the message exactly when** an upload is in progress, or the
message has an opcode and contains what that opcode makes the handler read. -/
theorem reads_within_iff (h : Host) (bs : List (BitVec 8)) :
    ReadsWithin h bs ↔ h.upload.inProgress = true ∨ MessageFits bs := by
  unfold ReadsWithin receiveReads
  by_cases hup : h.upload.inProgress = true
  · simp only [hup, if_true, true_or, iff_true]
    intro beyond i hi
    have := lt_of_mem_uploadLoopReads h 0 bs i hi
    omega
  · simp only [if_neg hup, or_iff_right hup]
    unfold MessageFits commandReads
    cases bs with
    | nil =>
      -- the opcode of an empty message
      refine iff_of_false (fun hall => ?_) (fun hc => hc.1 rfl)
      exact absurd (hall [] 0 List.mem_cons_self) (Nat.not_lt_zero 0)
    | cons op bs =>
      have hop (beyond : List (BitVec 8)) : Message.byteAt ⟨op :: bs, beyond⟩ 0 = op := rfl
      have hfirst : 0 < (op :: bs).length := Nat.succ_pos _
      simp only [hop, List.mem_cons, forall_eq_or_imp, hfirst, true_and, List.head?_cons,
        Option.some.injEq, ne_eq, List.cons_ne_nil, not_false_eq_true]
      by_cases h0 : op = 0x00
      · subst h0
        refine (forall_congr' (headerReads_within_iff h (0x00 :: bs))).trans ?_
        exact ⟨fun hall => ⟨fun _ => hall [], fun hc => absurd hc (by decide)⟩,
          fun hc _ => hc.1 rfl⟩
      · by_cases h4 : op = 0x04
        · subst h4
          refine (consoleReads_within_iff (List.cons_ne_nil (0x04 : BitVec 8) bs)).trans ?_
          exact ⟨fun hc => ⟨fun h0 => absurd h0 (by decide), fun _ => hc⟩, fun hc => hc.2 rfl⟩
        · simp only [h0, h4, false_imp_iff, and_self, iff_true]
          intro beyond i hi
          split at hi
          · exact absurd rfl h0
          · exact absurd rfl h4
          · exact absurd hi List.not_mem_nil

/-- Within such a message the handler does the same wherever the message stands. -/
theorem receive_of_readsWithin {h : Host} {bs : List (BitVec 8)} (hw : ReadsWithin h bs)
    (beyond beyond' : List (BitVec 8)) :
    receive h ⟨bs, beyond⟩ = receive h ⟨bs, beyond'⟩ := by
  have hbytes : (⟨bs, beyond⟩ : Message).bytes = (⟨bs, beyond'⟩ : Message).bytes := rfl
  apply receive_congr h hbytes
  intro i hi
  have hlt := hw beyond i hi
  rw [byteAt_of_lt bs beyond hlt, byteAt_of_lt bs beyond' hlt]

/-- An empty message, a header cut off in its lengths, a header whose name is missing and a
console line without end make the handler read on. -/
theorem reads_beyond :
    ¬ (ReadsWithin freshHost [] ∨ ReadsWithin freshHost [0x00] ∨
      ReadsWithin freshHost [0x00, 0x00, 0x01, 0x00, 0x05] ∨
      ReadsWithin freshHost [0x04, 0x73]) := by
  rintro (h | h | h | h)
  · exact absurd (h [] 0 (by decide)) (by decide)
  · exact absurd (h [] 4 (by decide)) (by decide)
  · exact absurd (h [] 9 (by decide)) (by decide)
  · exact absurd (h [] 2 (by decide)) (by decide)

end Msp430
