/-
# Messages from the client (`debugger/websockets/emu_server.cpp`)

`LWS_CALLBACK_RECEIVE`: the upload of a firmware file over any number of messages, and the
commands.  Whether an upload is complete is looked at after a byte has been written and at no
other time, so that an upload without bytes is never complete: `upload_right_iff`.
-/
import Msp430.Console
import Msp430.Startup

namespace Msp430

open CString

/-! ## The handler -/

/-- The statics of the handler: `upload_in_progress`, `uploaded_bytes`, `FileSize`,
`UploadFileName`, and the bytes written to `fp`. -/
structure Upload where
  inProgress : Bool
  uploadedBytes : BitVec 32
  fileSize : BitVec 16
  fileName : Str
  file : List (BitVec 8)

/-- The program as the handler finds it, with the payloads for which it has started an input
thread. -/
structure Host where
  emu : Emulator
  upload : Upload
  webFirmwareUploaded : Bool
  serialInput : List (List (BitVec 8))

/-- A message, and what happens to stand behind its bytes in memory. -/
structure Message where
  bytes : List (BitVec 8)
  beyond : List (BitVec 8)

/-- `buf[i]`. -/
def Message.byteAt (m : Message) (i : ℕ) : BitVec 8 := (m.bytes ++ m.beyond).getD i 0

/-- `ntohs` of the two bytes from `in + i` on. -/
def Message.word (m : Message) (i : ℕ) : BitVec 16 := joinBytes (m.byteAt i) (m.byteAt (i + 1))

/-- The string at `buf + 1`. -/
def Message.line (m : Message) : Str := ((m.bytes ++ m.beyond).drop 1).takeWhile (· != 0)

/-- One byte of a file is written; whether it was the last one. -/
def uploadByte (h : Host) (b : BitVec 8) : Host × Bool :=
  let h := { h with upload := { h.upload with
    file := h.upload.file ++ [b], uploadedBytes := h.upload.uploadedBytes + 1 } }
  if h.upload.fileSize.setWidth 32 ≤ h.upload.uploadedBytes then
    ({ h with webFirmwareUploaded := true, upload := { h.upload with inProgress := false } },
      true)
  else (h, false)

/-- The loop over the bytes of a message, which ends with the file. -/
def uploadLoop (h : Host) : List (BitVec 8) → Host
  | [] => h
  | b :: bs => if (uploadByte h b).2 then (uploadByte h b).1 else uploadLoop (uploadByte h b).1 bs

/-- `case 0x00`; a file that is too big ends the process. -/
def receiveHeader (h : Host) (m : Message) : Option Host :=
  let fileSize := m.word 1
  let fileNameSize := (m.word 3).toNat
  if 0xFFFF ≤ fileSize then none
  else
    let h := { h with upload :=
      { inProgress := true
        uploadedBytes := 0
        fileSize := fileSize
        fileName := ((List.range fileNameSize).map fun i => m.byteAt (5 + i)).takeWhile (· != 0)
        file := [] } }
    some (uploadLoop h (m.bytes.drop (5 + fileNameSize)))

/-- `case 0x01`, PLAY. -/
def receivePlay (h : Host) : Host := { h with emu := execRun h.emu }

/-- `case 0x02`, PAUSE. -/
def receivePause (h : Host) : Host :=
  if h.emu.running then
    let emu := { h.emu with running := false, debugMode := true }
    { h with emu := disassemble emu emu.pc 1 }
  else h

/-- `case 0x03`, serial data. -/
def receiveSerial (h : Host) (m : Message) : Option Host :=
  if 1000 < m.bytes.length then none
  else some { h with serialInput := h.serialInput ++ [m.bytes.drop 1] }

/-- `case 0x04`, a console line. -/
def receiveConsole (h : Host) (m : Message) : Option Host :=
  if 1000 < m.bytes.length then none
  else if !h.emu.running && h.emu.debugMode then
    (execCmd h.emu m.line).map fun emu => { h with emu := emu }
  else some h

/-- The switch on the opcode of a message. -/
def receiveCommand (h : Host) (m : Message) : Option Host :=
  match m.byteAt 0 with
  | 0x00 => receiveHeader h m
  | 0x01 => some (receivePlay h)
  | 0x02 => some (receivePause h)
  | 0x03 => receiveSerial h m
  | 0x04 => receiveConsole h m
  | _ => some h

/-- `LWS_CALLBACK_RECEIVE`; `none` where the process ends. -/
def receive (h : Host) (m : Message) : Option Host :=
  if h.upload.inProgress then some (uploadLoop h m.bytes) else receiveCommand h m

/-- The bytes of an upload reach neither the machine nor the serial interface. -/
theorem rest_uploadLoop (h : Host) (bs : List (BitVec 8)) :
    (uploadLoop h bs).emu = h.emu ∧ (uploadLoop h bs).serialInput = h.serialInput := by
  have hbyte (h : Host) (b : BitVec 8) :
      (uploadByte h b).1.emu = h.emu ∧ (uploadByte h b).1.serialInput = h.serialInput := by
    unfold uploadByte
    dsimp only
    split_ifs <;> exact ⟨rfl, rfl⟩
  induction bs generalizing h with
  | nil => exact ⟨rfl, rfl⟩
  | cons b bs ih =>
    obtain ⟨hemu, hserial⟩ := hbyte h b
    rw [uploadLoop]
    split_ifs
    · exact ⟨hemu, hserial⟩
    · rw [(ih _).1, (ih _).2]
      exact ⟨hemu, hserial⟩

/-- **What a message can do**: most leave the machine and the serial interface alone, PLAY and
PAUSE and a console line change the machine, and serial data of up to 1000 bytes is queued. -/
theorem receive_cases {h h' : Host} {m : Message} (hr : receive h m = some h') :
    (h'.emu = h.emu ∧ h'.serialInput = h.serialInput) ∨ h' = receivePlay h ∨
      h' = receivePause h ∨
      ((h.upload.inProgress = false ∧ m.byteAt 0 = 0x03 ∧ m.bytes.length ≤ 1000) ∧
        h' = { h with serialInput := h.serialInput ++ [m.bytes.drop 1] }) ∨
      (!h.emu.running && h.emu.debugMode) = true ∧
        ∃ emu, execCmd h.emu m.line = some emu ∧ h' = { h with emu := emu } := by
  unfold receive at hr
  split_ifs at hr with hup
  · obtain rfl := Option.some.inj hr
    exact .inl (rest_uploadLoop h m.bytes)
  unfold receiveCommand at hr
  split at hr
  · unfold receiveHeader at hr
    dsimp only at hr
    split_ifs at hr
    obtain rfl := Option.some.inj hr
    exact .inl (rest_uploadLoop _ _)
  · exact .inr (.inl (Option.some.inj hr).symm)
  · exact .inr (.inr (.inl (Option.some.inj hr).symm))
  · rename_i hop
    unfold receiveSerial at hr
    split_ifs at hr with hlen
    exact .inr (.inr (.inr (.inl
      ⟨⟨by simpa using hup, hop, by omega⟩, (Option.some.inj hr).symm⟩)))
  · unfold receiveConsole at hr
    split_ifs at hr with hlen hlisten
    · obtain ⟨emu, hemu, rfl⟩ := Option.map_eq_some_iff.mp hr
      exact .inr (.inr (.inr (.inr ⟨hlisten, emu, hemu, rfl⟩)))
    · obtain rfl := Option.some.inj hr
      exact .inl ⟨rfl, rfl⟩
  · obtain rfl := Option.some.inj hr
    exact .inl ⟨rfl, rfl⟩

/-! ## The bytes of a file -/

/-- The file has `received` so far, and the handler waits for more of the `n` bytes. -/
structure Uploading (h : Host) (n : ℕ) (received : List (BitVec 8)) (before : Bool) : Prop where
  file : h.upload.file = received
  uploadedBytes : h.upload.uploadedBytes = BitVec.ofNat 32 received.length
  fileSize : h.upload.fileSize = BitVec.ofNat 16 n
  inProgress : h.upload.inProgress = true
  flag : h.webFirmwareUploaded = before

/-- The file is complete. -/
structure Uploaded (h : Host) (file : List (BitVec 8)) : Prop where
  file : h.upload.file = file
  inProgress : h.upload.inProgress = false
  flag : h.webFirmwareUploaded = true

section Loop

variable {h : Host} {n : ℕ} {received : List (BitVec 8)} {before : Bool}

/-- **One byte** more, which completes the file or does not. -/
theorem Uploading.byte (hup : Uploading h n received before) (hn : n < 0xFFFF)
    (hlen : received.length < 0xFFFF) (b : BitVec 8) :
    if n ≤ received.length + 1 then
      (uploadByte h b).2 = true ∧ Uploaded (uploadByte h b).1 (received ++ [b])
    else (uploadByte h b).2 = false ∧ Uploading (uploadByte h b).1 n (received ++ [b]) before := by
  have hcount : h.upload.uploadedBytes + 1 = BitVec.ofNat 32 (received ++ [b]).length := by
    rw [hup.uploadedBytes, List.length_append, List.length_singleton, BitVec.ofNat_add]
    rfl
  have hdone : h.upload.fileSize.setWidth 32 ≤ h.upload.uploadedBytes + 1
      ↔ n ≤ received.length + 1 := by
    rw [hcount, hup.fileSize, BitVec.le_def, BitVec.toNat_setWidth, BitVec.toNat_ofNat,
      BitVec.toNat_ofNat, List.length_append, List.length_singleton]
    omega
  have hfile : h.upload.file ++ [b] = received ++ [b] := by rw [hup.file]
  unfold uploadByte
  split_ifs with hle
  · rw [if_pos (hdone.mpr hle)]
    exact ⟨rfl, hfile, rfl, rfl⟩
  · rw [if_neg (hdone.not.mpr hle)]
    exact ⟨rfl, hfile, hcount, hup.fileSize, hup.inProgress, hup.flag⟩

/-- **The bytes of a message** of which the file still wants as many. -/
theorem Uploading.loop (hup : Uploading h n received before) (hn : n < 0xFFFF)
    (bs : List (BitVec 8)) (hlen : received.length + bs.length ≤ n) :
    if bs ≠ [] ∧ received.length + bs.length = n then
      Uploaded (uploadLoop h bs) (received ++ bs)
    else Uploading (uploadLoop h bs) n (received ++ bs) before := by
  induction bs generalizing h received with
  | nil =>
    rw [if_neg (fun hc => hc.1 rfl), List.append_nil]
    exact hup
  | cons b bs ih =>
    rw [List.length_cons] at hlen ⊢
    have hbyte := hup.byte hn (by omega) b
    rw [uploadLoop]
    by_cases hlast : n ≤ received.length + 1
    · have hnil : bs = [] := List.length_eq_zero_iff.mp (by omega)
      rw [if_pos hlast] at hbyte
      rw [if_pos hbyte.1, if_pos ⟨by simp, by omega⟩, hnil]
      exact hbyte.2
    · rw [if_neg hlast] at hbyte
      rw [hbyte.1, if_neg (show ¬ false = true by decide)]
      have hrest := ih hbyte.2 (by simp; omega)
      have hiff : (bs ≠ [] ∧ (received ++ [b]).length + bs.length = n)
          ↔ (b :: bs ≠ [] ∧ received.length + (bs.length + 1) = n) := by
        rw [List.length_append, List.length_singleton]
        constructor
        · rintro ⟨-, h⟩
          exact ⟨by simp, by omega⟩
        · rintro ⟨-, h⟩
          refine ⟨?_, by omega⟩
          rintro rfl
          simp at h
          omega
      rw [List.append_assoc, List.singleton_append] at hrest
      simp only [hiff] at hrest
      exact hrest

/-- The bytes of messages, one after the other. -/
def bytesOf (ms : List Message) : List (BitVec 8) := ms.flatMap Message.bytes

/-- **The messages that follow the header**, none of them empty. -/
theorem Uploading.messages (hup : Uploading h n received before) (hn : n < 0xFFFF)
    (ms : List Message) (hms : ∀ m ∈ ms, m.bytes ≠ []) (hmore : received.length < n)
    (hlen : received.length + (bytesOf ms).length ≤ n) :
    ∃ h', ms.foldlM receive h = some h' ∧
      if received.length + (bytesOf ms).length = n then Uploaded h' (received ++ bytesOf ms)
      else Uploading h' n (received ++ bytesOf ms) before := by
  induction ms generalizing h received with
  | nil =>
    refine ⟨h, rfl, ?_⟩
    rw [if_neg (by simp [bytesOf]; omega), bytesOf, List.flatMap_nil, List.append_nil]
    exact hup
  | cons m ms ih =>
    have hcons : bytesOf (m :: ms) = m.bytes ++ bytesOf ms := List.flatMap_cons
    have hm : m.bytes ≠ [] := hms m List.mem_cons_self
    have hrest : ∀ m' ∈ ms, m'.bytes ≠ [] := fun m' hm' => hms m' (List.mem_cons_of_mem _ hm')
    rw [hcons, List.length_append] at hlen ⊢
    have hloop := hup.loop hn m.bytes (by omega)
    have hreceive : receive h m = some (uploadLoop h m.bytes) := if_pos hup.inProgress
    rw [List.foldlM_cons, hreceive, ← List.append_assoc, ← Nat.add_assoc]
    by_cases hlast : received.length + m.bytes.length = n
    · -- what is left would make the file too long
      have hnil : ms = [] := by
        cases ms with
        | nil => rfl
        | cons m' ms =>
          have hpos := List.length_pos_iff.mpr (hrest m' List.mem_cons_self)
          rw [bytesOf, List.flatMap_cons, List.length_append] at hlen
          omega
      rw [if_pos ⟨hm, hlast⟩] at hloop
      rw [hnil]
      refine ⟨_, rfl, ?_⟩
      rw [if_pos (by simpa [bytesOf] using hlast), bytesOf, List.flatMap_nil, List.append_nil]
      exact hloop
    · rw [if_neg (fun hc => hlast hc.2)] at hloop
      have hall := ih hloop hrest (by simp; omega) (by simp; omega)
      rw [List.length_append] at hall
      exact hall

end Loop

/-! ## Uploads -/

/-- The two bytes of a number, high byte first. -/
def bigEndian (v : BitVec 16) : List (BitVec 8) := [highByte v, v.setWidth 8]

/-- The message that begins an upload: the opcode, the size of the file and the length of its
name, the name and the first bytes of the file. -/
def headerMessage (n : ℕ) (name first beyond : List (BitVec 8)) : Message where
  bytes := 0x00 :: bigEndian (BitVec.ofNat 16 n) ++ bigEndian (BitVec.ofNat 16 name.length)
    ++ name ++ first
  beyond := beyond

/-- The upload of `first` and the bytes of `rest` goes right: after every message the bytes
that have arrived are in the file, in order, the flag is set and the upload over exactly when
they are all there, and then the next message is a command. -/
def UploadRight (h : Host) (name first beyond : List (BitVec 8)) (rest : List Message) : Prop :=
  let n := (first ++ bytesOf rest).length
  ∀ k ≤ rest.length, ∃ h',
    (headerMessage n name first beyond :: rest.take k).foldlM receive h = some h' ∧
    let received := first ++ bytesOf (rest.take k)
    h'.upload.file = received ∧
    h'.webFirmwareUploaded = (h.webFirmwareUploaded || decide (received.length = n)) ∧
    h'.upload.inProgress = decide (received.length ≠ n) ∧
    (received.length = n → ∀ m, receive h' m = receiveCommand h' m)

/-- The header is read as it was written. -/
theorem receive_headerMessage (h : Host) (hidle : h.upload.inProgress = false) {n : ℕ}
    (hn : n < 0xFFFF) {name : List (BitVec 8)} (hname : name.length < 2 ^ 16)
    (first beyond : List (BitVec 8)) :
    ∃ h₀, receive h (headerMessage n name first beyond) = some (uploadLoop h₀ first) ∧
      Uploading h₀ n [] h.webFirmwareUploaded ∧ h₀.emu = h.emu := by
  obtain ⟨m, hm⟩ : ∃ m, m = headerMessage n name first beyond := ⟨_, rfl⟩
  have hsize : m.word 1 = BitVec.ofNat 16 n := by
    rw [hm]
    exact joinBytes_highByte _
  have hnameSize : (m.word 3).toNat = name.length := by
    have hword : m.word 3 = BitVec.ofNat 16 name.length := by
      rw [hm]
      exact joinBytes_highByte _
    rw [hword, BitVec.toNat_ofNat, Nat.mod_eq_of_lt hname]
  have hdrop : m.bytes.drop (5 + name.length) = first := by
    rw [hm, headerMessage, ← List.drop_drop]
    show (name ++ first).drop name.length = first
    exact List.drop_left
  have hop : m.byteAt 0 = 0x00 := by rw [hm]; rfl
  have hfits : ¬ (0xFFFF : BitVec 16) ≤ m.word 1 := by
    rw [hsize, BitVec.le_def, BitVec.toNat_ofNat, Nat.mod_eq_of_lt (by omega)]
    simpa using hn
  rw [← hm, receive, if_neg (by simp [hidle]), receiveCommand]
  simp only [hop, receiveHeader, if_neg hfits, hnameSize, hdrop]
  exact ⟨_, rfl, ⟨rfl, rfl, hsize, rfl, rfl⟩, rfl⟩

/-- A part of the messages of a file, of one byte at least. -/
theorem receive_upload {h h₀ : Host} {n : ℕ} {name first beyond : List (BitVec 8)} {before : Bool}
    {rest : List Message}
    (hheader : receive h (headerMessage n name first beyond) = some (uploadLoop h₀ first))
    (hup : Uploading h₀ n [] before) (hn : n < 0xFFFF) (hrest : ∀ m ∈ rest, m.bytes ≠ [])
    (hne : first ++ bytesOf rest ≠ []) (hfile : n = (first ++ bytesOf rest).length) (k : ℕ) :
    ∃ h', (headerMessage n name first beyond :: rest.take k).foldlM receive h = some h' ∧
      if (first ++ bytesOf (rest.take k)).length = n then
        Uploaded h' (first ++ bytesOf (rest.take k))
      else Uploading h' n (first ++ bytesOf (rest.take k)) before := by
  have hpos : 0 < n := by
    rw [hfile]
    exact List.length_pos_iff.mpr hne
  have hsplit : bytesOf rest = bytesOf (rest.take k) ++ bytesOf (rest.drop k) := by
    rw [bytesOf, bytesOf, bytesOf, ← List.flatMap_append, List.take_append_drop]
  rw [hsplit, List.length_append, List.length_append] at hfile
  have hloop := hup.loop hn first (by simp; omega)
  rw [List.foldlM_cons, hheader, List.length_append]
  rw [List.length_nil, Nat.zero_add, List.nil_append] at hloop
  by_cases hlast : first.length = n
  · -- the file has come with its header
    have hnil : bytesOf (rest.take k) = [] := List.length_eq_zero_iff.mp (by omega)
    have htake : rest.take k = [] := by
      rw [bytesOf, List.flatMap_eq_nil_iff] at hnil
      refine List.eq_nil_iff_forall_not_mem.mpr fun m hm => ?_
      exact hrest m (List.mem_of_mem_take hm) (hnil m hm)
    have hfirst : first ≠ [] := List.length_pos_iff.mp (by omega)
    rw [if_pos ⟨hfirst, hlast⟩] at hloop
    rw [htake]
    refine ⟨_, rfl, ?_⟩
    rw [if_pos (by simpa [bytesOf] using hlast), bytesOf, List.flatMap_nil, List.append_nil]
    exact hloop
  · rw [if_neg (fun hc => hlast hc.2)] at hloop
    exact hloop.messages hn (rest.take k) (fun m hm => hrest m (List.mem_of_mem_take hm))
      (by omega) (by omega)

/-- **An upload goes right exactly when the file is not empty**, however it is split. -/
theorem upload_right_iff (h : Host) (hidle : h.upload.inProgress = false)
    (name first beyond : List (BitVec 8)) (hname : name.length < 2 ^ 16) (rest : List Message)
    (hrest : ∀ m ∈ rest, m.bytes ≠ []) (hn : (first ++ bytesOf rest).length < 0xFFFF) :
    UploadRight h name first beyond rest ↔ first ++ bytesOf rest ≠ [] := by
  obtain ⟨h₀, hheader, hup, -⟩ := receive_headerMessage h hidle hn hname first beyond
  obtain ⟨n, hfile⟩ : ∃ n, n = (first ++ bytesOf rest).length := ⟨_, rfl⟩
  rw [← hfile] at hn hheader hup
  unfold UploadRight
  dsimp only
  rw [← hfile]
  constructor
  · intro hright hnil
    obtain ⟨h', hh', -, -, hdone, -⟩ := hright 0 (Nat.zero_le _)
    obtain ⟨rfl, -⟩ := List.append_eq_nil_iff.mp hnil
    rw [List.take_zero, List.foldlM_cons, hheader] at hh'
    obtain rfl := Option.some.inj hh'
    -- no byte has been written, and nothing has looked whether one is missing
    have hzero : n = 0 := by
      rw [hfile, hnil]
      rfl
    have hprogress : (uploadLoop h₀ []).upload.inProgress = true := hup.inProgress
    rw [hprogress, hzero] at hdone
    exact absurd hdone (by simp [bytesOf])
  · intro hne k hk
    obtain ⟨h', hrun, hout⟩ := receive_upload hheader hup hn hrest hne hfile k
    refine ⟨h', hrun, ?_⟩
    by_cases hall : (first ++ bytesOf (rest.take k)).length = n
    · rw [if_pos hall] at hout
      refine ⟨hout.file, ?_, ?_, fun _ m => ?_⟩
      · rw [hout.flag, decide_eq_true hall, Bool.or_true]
      · rw [hout.inProgress, decide_eq_false (not_not.mpr hall)]
      · rw [receive, if_neg (by simp [hout.inProgress])]
    · rw [if_neg hall] at hout
      refine ⟨hout.file, ?_, ?_, fun hc => absurd hc hall⟩
      · rw [hout.flag, decide_eq_false hall, Bool.or_false]
      · rw [hout.inProgress, decide_eq_true hall]

/-- The program before any message. -/
def freshHost : Host := ⟨startState, ⟨false, 0, 0, [], []⟩, false, []⟩

/-- A number in bytes, the lowest first. -/
def littleEndian (k n : ℕ) : List (BitVec 8) :=
  (List.range k).map fun i => BitVec.ofNat 8 (n / 256 ^ i)

/-- The header of a section: its name, type, flags, address, offset, size, link, info, alignment
and entry size. -/
def sectionHeader (name type flags addr offset size align : ℕ) : List (BitVec 8) :=
  [name, type, flags, addr, offset, size, 0, 0, align, 0].flatMap (littleEndian 4)

/-- An ELF file for the MSP430 with one section to be loaded, `.text` at `0xC000`: `objcopy -O
binary` makes the image of it. -/
def elfOf (image : List (BitVec 8)) : List (BitVec 8) :=
  [0x7F, 0x45, 0x4C, 0x46, 1, 1, 1] ++ List.replicate 9 0 ++
    ([2, 105].flatMap (littleEndian 2) ++
      [1, 0xC000, 0, 69 + image.length, 0].flatMap (littleEndian 4) ++
      [52, 0, 0, 40, 3, 2].flatMap (littleEndian 2)) ++
    image ++ (0 :: bytes ".text" ++ 0 :: bytes ".shstrtab" ++ [0]) ++
    (sectionHeader 0 0 0 0 0 0 0 ++ sectionHeader 1 1 6 0xC000 52 image.length 1 ++
      sectionHeader 7 3 0 0 (52 + image.length) 17 1)

/-- The upload of this file in one message. -/
def elfFile (image : List (BitVec 8)) : Message :=
  headerMessage (elfOf image).length (bytes "a.elf") (elfOf image) []

theorem length_elfOf (image : List (BitVec 8)) : (elfOf image).length = 189 + image.length := by
  simp [elfOf, sectionHeader, littleEndian, bytes]
  omega

/-- `MOV #1, R5`. -/
def moveFirmware : List (BitVec 8) := [0x15, 0x43]

/-- The message completes its upload. -/
theorem receive_elfFile {h : Host} (hidle : h.upload.inProgress = false) {image : List (BitVec 8)}
    (hfit : image.length ≤ 0x4000) :
    ∃ h', receive h (elfFile image) = some h' ∧ h'.webFirmwareUploaded = true ∧
      h'.upload.inProgress = false ∧ h'.emu = h.emu := by
  have hlen := length_elfOf image
  obtain ⟨h₀, hheader, hup, hemu⟩ := receive_headerMessage h hidle
    (show (elfOf image).length < 0xFFFF by omega)
    (show (bytes "a.elf").length < 2 ^ 16 by decide) (elfOf image) []
  have hloop := hup.loop (by omega) (elfOf image) (by simp)
  have hne : elfOf image ≠ [] := List.length_pos_iff.mp (by omega)
  rw [if_pos ⟨hne, by simp⟩] at hloop
  exact ⟨_, hheader, hloop.flag, hloop.inProgress, ((rest_uploadLoop _ _).1).trans hemu⟩

/-- A message with an opcode and nothing else. -/
def opcodeMessage (opcode : BitVec 8) : Message := ⟨[opcode], []⟩

/-- Three bytes, one with the header and two behind it. -/
theorem upload_right_iff_three :
    UploadRight freshHost (bytes "a.elf") [0x41] [] [⟨[0x42, 0x43], []⟩] :=
  (upload_right_iff freshHost rfl (bytes "a.elf") [0x41] [] (by decide) [⟨[0x42, 0x43], []⟩]
    (by simp) (by decide)).mpr (by simp)

/-- An upload without bytes is never over. -/
theorem upload_of_nothing :
    ¬ ∀ h name first beyond rest, h.upload.inProgress = false → name.length < 2 ^ 16 →
      (∀ m ∈ rest, m.bytes ≠ []) → (first ++ bytesOf rest).length < 0xFFFF →
      UploadRight h name first beyond rest := by
  intro h
  obtain ⟨h', hh', -, -, hdone, -⟩ :=
    h freshHost (bytes "a.elf") [] [] [] rfl (by decide) (by simp) (by decide) 0 le_rfl
  obtain rfl := Option.some.inj hh'
  revert hdone
  decide

end Msp430
