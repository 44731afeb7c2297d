/-
# The text of the disassembler

What `decode` sends to the console of an instruction with `debug_mode` set: the hexadecimal text
of its words, put together word by word in the branches of the operand blocks and swapped byte by
byte afterwards, and the mnemonic with its operands.  Every `%04X` prints an `unsigned int`: a
`uint16_t` arrives with zeros before it, an `int16_t` without a cast with its sign.  The strings
are as long as what is written into them, also past the end of their buffers.
-/
import Msp430.Decoder
import Msp430.Numerals

namespace Msp430

open CString

/-! ## Parts of the text -/

/-- `reg_num_to_name`. -/
def regNumToName : Fin 16 → Str
  | 0x0 => bytes "PC"
  | 0x1 => bytes "SP"
  | 0x2 => bytes "SR"
  | 0x3 => bytes "R3"
  | 0x4 => bytes "R4"
  | 0x5 => bytes "R5"
  | 0x6 => bytes "R6"
  | 0x7 => bytes "R7"
  | 0x8 => bytes "R8"
  | 0x9 => bytes "R9"
  | 0xA => bytes "R10"
  | 0xB => bytes "R11"
  | 0xC => bytes "R12"
  | 0xD => bytes "R13"
  | 0xE => bytes "R14"
  | 0xF => bytes "R15"
  | _ => bytes "???"

/-- `0x%04X`. -/
def numeral (v : BitVec 32) : Str := bytes "0x" ++ printHex 4 v.toNat

/-- A `uint16_t` as an argument of `sprintf`. -/
def unsignedArg (v : BitVec 16) : BitVec 32 := v.setWidth 32

/-- An `int16_t` as an argument of `sprintf`. -/
def signedArg (v : BitVec 16) : BitVec 32 := v.signExtend 32

/-- `0x%04X(%s)`. -/
def indexedText (offset : BitVec 16) (reg : Fin 16) : Str :=
  numeral (unsignedArg offset) ++ bytes "(" ++ regNumToName reg ++ bytes ")"

/-! ## Format I -/

/-- The strings of `decode_formatI`: `asm_operands`, `asm_op2`, and the words behind the
instruction that are appended to `hex_str`. -/
structure TextI where
  asmOperands : Str
  asmOp2 : Str
  hexParts : List (BitVec 16)

/-- The text of a source operand, the words recorded for it, and the state behind it. -/
structure SourceText where
  emu : Emulator
  text : Str
  hexParts : List (BitVec 16)

/-- A constant, or the text for a source without an extension word. -/
def constantText (constant : Option (BitVec 16)) (arg : BitVec 16 → BitVec 32) (text : Str) :
    Str :=
  match constant with
  | some c => bytes "#" ++ numeral (arg c)
  | none => text

/-- `as_flag == 1`. -/
def sourceIndexedText (emu : Emulator) (constant : Option (BitVec 16)) (source : Fin 16)
    (correction : BitVec 16) : SourceText :=
  match constant with
  | some c => ⟨emu, bytes "#" ++ numeral (signedArg c), []⟩
  | none =>
    let sourceOffset := (fetch emu).1
    let emu := (fetch emu).2
    let text :=
      if source = 0 then numeral (unsignedArg (emu.pc + sourceOffset - correction))
      else if source = 2 then bytes "&" ++ numeral (unsignedArg sourceOffset)
      else indexedText sourceOffset source
    ⟨emu, text, [sourceOffset]⟩

/-- `as_flag == 3`; the branch with a register destination prints an immediate byte as such. -/
def sourceAutoIncText (emu : Emulator) (constant : Option (BitVec 16)) (source : Fin 16)
    (bw : Width) (disassemble : Bool) (immediate : BitVec 16 → BitVec 32) : SourceText :=
  match constant with
  | some c => ⟨emu, bytes "#" ++ numeral (unsignedArg c), []⟩
  | none =>
    if source = 0 then
      ⟨(fetch emu).2, bytes "#" ++ numeral (immediate (fetch emu).1), [(fetch emu).1]⟩
    else
      ⟨if disassemble then emu else autoIncrement emu source bw,
        bytes "@" ++ regNumToName source ++ bytes "+", []⟩

/-- `(uint16_t) source_value` or `(uint8_t) source_value`. -/
def immediateArg (bw : Width) (v : BitVec 16) : BitVec 32 :=
  match bw with
  | .word => unsignedArg v
  | .byte => (v.setWidth 8).setWidth 32

/-- `ad_flag == 0`: the name of the register follows in the same `sprintf`. -/
def textRegister (source : SourceText) (destination : Fin 16) : TextI :=
  ⟨source.text ++ bytes ", " ++ regNumToName destination, [], source.hexParts⟩

/-- `asm_op2` for `ad_flag == 1`; `absolute` is the conversion of an absolute address. -/
def destinationText (emu : Emulator) (destination : Fin 16) (destinationOffset : BitVec 16)
    (absolute : BitVec 16 → BitVec 32) : Str :=
  if destination = 0 then numeral (unsignedArg (emu.pc + destinationOffset - 2))
  else if destination = 2 then bytes "&" ++ numeral (absolute destinationOffset)
  else indexedText destinationOffset destination

/-- `strncat(asm_operands, asm_op2, sizeof asm_op2)`. -/
def textIndexed (source : Str) (asmOp2 : Str) (hexParts : List (BitVec 16)) : TextI :=
  ⟨source ++ bytes ", " ++ asmOp2, asmOp2, hexParts⟩

/-- The texts of the operand block of `decode_formatI`, branch by branch as in `operandsI`. -/
def textI (emu : Emulator) (instruction : BitVec 16) (disassemble : Bool) : TextI :=
  let source := sourceReg instruction
  let destination := lowReg instruction
  let bw := bwFlag instruction
  let constant := generatedConstant source (asFlag instruction)
  let emu := getRegPtr (getRegPtr emu source) destination
  match asFlag instruction, adFlag instruction with
  | 0, false =>
    textRegister ⟨emu, constantText constant unsignedArg (regNumToName source), []⟩ destination
  | 0, true =>
    let destinationOffset := (fetch emu).1
    let emu := (fetch emu).2
    textIndexed (constantText constant signedArg (regNumToName source))
      (destinationText emu destination destinationOffset unsignedArg) [destinationOffset]
  | 1, false => textRegister (sourceIndexedText emu constant source 2) destination
  | 1, true =>
    let src := sourceIndexedText emu constant source 4
    let destinationOffset := (fetch src.emu).1
    let emu := (fetch src.emu).2
    textIndexed src.text (destinationText emu destination destinationOffset unsignedArg)
      (src.hexParts ++ [destinationOffset])
  | 2, false =>
    textRegister ⟨emu, constantText constant signedArg (bytes "@" ++ regNumToName source), []⟩
      destination
  | 2, true =>
    let destinationOffset := (fetch emu).1
    let emu := (fetch emu).2
    -- the one branch that prints the absolute address without a cast
    textIndexed (constantText constant signedArg (bytes "@" ++ regNumToName source))
      (destinationText emu destination destinationOffset signedArg) [destinationOffset]
  | 3, false =>
    textRegister (sourceAutoIncText emu constant source bw disassemble (immediateArg bw))
      destination
  | 3, true =>
    let src := sourceAutoIncText emu constant source bw disassemble unsignedArg
    let destinationOffset := (fetch src.emu).1
    let emu := (fetch src.emu).2
    textIndexed src.text (destinationText emu destination destinationOffset unsignedArg)
      (src.hexParts ++ [destinationOffset])

/-- A mnemonic with its form for bytes. -/
def withWidth (bw : Width) (name : Str) : Str :=
  match bw with
  | .word => name
  | .byte => name ++ bytes ".B"

/-- The mnemonic of a Format I instruction. -/
def mnemonicI (opcode : Fin 16) (bw : Width) : Str :=
  match opcode with
  | 0x4 => withWidth bw (bytes "MOV")
  | 0x5 => withWidth bw (bytes "ADD")
  | 0x6 => withWidth bw (bytes "ADDC")
  | 0x7 => withWidth bw (bytes "SUBC")
  | 0x8 => withWidth bw (bytes "SUB")
  | 0x9 => withWidth bw (bytes "CMP")
  | 0xA => withWidth bw (bytes "DADD")
  | 0xB => withWidth bw (bytes "BIT")
  | 0xC => withWidth bw (bytes "BIC")
  | 0xD => withWidth bw (bytes "BIS")
  | 0xE => withWidth bw (bytes "XOR")
  | 0xF => withWidth bw (bytes "AND")
  | _ => []

/-! ## Format II -/

/-- The strings of `decode_formatII`: `asm_operand`, and the words behind the instruction that
are appended to `hex_str`. -/
structure TextII where
  asmOperand : Str
  hexParts : List (BitVec 16)

/-- `as_flag == 1`.  The branch for an absolute operand records `source_value`, not the offset. -/
def indexedTextII (emu : Emulator) (constant : Option (BitVec 16)) (source : Fin 16) : TextII :=
  match constant with
  | some c => ⟨bytes "#" ++ numeral (signedArg c), []⟩
  | none =>
    let sourceOffset := (fetch emu).1
    let emu := (fetch emu).2
    if source = 0 then ⟨numeral (unsignedArg (emu.pc + sourceOffset)), [sourceOffset]⟩
    else if source = 2 then
      ⟨bytes "&" ++ numeral (unsignedArg sourceOffset), [emu.load16 (getAddrPtr sourceOffset)]⟩
    else ⟨indexedText sourceOffset source, [sourceOffset]⟩

/-- `as_flag == 3`. -/
def autoIncTextII (emu : Emulator) (constant : Option (BitVec 16)) (source : Fin 16)
    (bw : Width) : TextII :=
  match constant with
  | some c => ⟨bytes "#" ++ numeral (unsignedArg c), []⟩
  | none =>
    if source = 0 then ⟨bytes "#" ++ numeral (immediateArg bw (fetch emu).1), [(fetch emu).1]⟩
    else ⟨bytes "@" ++ regNumToName source ++ bytes "+", []⟩

/-- The texts of the operand block of `decode_formatII`. -/
def textII (emu : Emulator) (instruction : BitVec 16) : TextII :=
  let source := lowReg instruction
  let constant := generatedConstant source (asFlag instruction)
  let emu := getRegPtr emu source
  match asFlag instruction with
  | 0 => ⟨constantText constant unsignedArg (regNumToName source), []⟩
  | 1 => indexedTextII emu constant source
  | 2 => ⟨constantText constant signedArg (bytes "@" ++ regNumToName source), []⟩
  | 3 => autoIncTextII emu constant source (bwFlag instruction)

/-- The mnemonic of a Format II instruction; opcode 7 has none. -/
def mnemonicII (opcode : Fin 8) (bw : Width) : Str :=
  match opcode with
  | 0x0 => withWidth bw (bytes "RRC")
  | 0x1 => bytes "SWPB"
  | 0x2 => withWidth bw (bytes "RRA")
  | 0x3 => bytes "SXT"
  | 0x4 => withWidth bw (bytes "PUSH")
  | 0x5 => bytes "CALL"
  | 0x6 => bytes "RETI"
  | _ => []

/-! ## Format III -/

/-- The mnemonic of a jump. -/
def mnemonicIII (condition : Fin 8) : Str :=
  match condition with
  | 0x0 => bytes "JNZ"
  | 0x1 => bytes "JZ"
  | 0x2 => bytes "JNC"
  | 0x3 => bytes "JC"
  | 0x4 => bytes "JN"
  | 0x5 => bytes "JGE"
  | 0x6 => bytes "JL"
  | 0x7 => bytes "JMP"

/-- `value`: the sum `cpu->pc + signed_offset` is an `int`. -/
def jumpText (emu : Emulator) (instruction : BitVec 16) : Str :=
  numeral (unsignedArg emu.pc + signedArg (signedOffset instruction))

/-! ## The line -/

/-- `Make little endian big endian`: the bytes of each word change places. -/
def swapBytes : Str → Str
  | a :: b :: c :: d :: s => c :: d :: a :: b :: swapBytes s
  | s => s

/-- `hex_str`. -/
def hexStr (words : List (BitVec 16)) : Str := words.flatMap fun v => printHex 4 v.toNat

/-- What is printed behind the operand block: the words, blanks up to twelve characters, and the
mnemonic with its operands. -/
def printInstruction (words : List (BitVec 16)) (mnemonic operands : Str) : Str :=
  let hex := swapBytes (hexStr words)
  hex ++ List.replicate (12 - hex.length) 0x20 ++ bytes "\t" ++ mnemonic ++ bytes "\t" ++ operands
    ++ bytes "\n"

/-- What `decode` sends to the console in `DISASSEMBLE` mode; the message for opcode 7 goes to the
standard output only. -/
def decodeText (emu : Emulator) (instruction : BitVec 16) : Str :=
  if formatId instruction = 1 then
    if emu.debugMode then
      printInstruction (instruction :: (textII emu instruction).hexParts)
        (mnemonicII (opcodeII instruction) (bwFlag instruction))
        (textII emu instruction).asmOperand
    else []
  else if 2 ≤ formatId instruction ∧ formatId instruction ≤ 3 then
    if emu.debugMode then
      printInstruction [instruction] (mnemonicIII (jumpCondition instruction))
        (jumpText emu instruction)
    else []
  else if 4 ≤ formatId instruction then
    if emu.debugMode then
      printInstruction (instruction :: (textI emu instruction true).hexParts)
        (mnemonicI (formatId instruction) (bwFlag instruction))
        (textI emu instruction true).asmOperands
    else []
  else printHex 4 instruction.toNat ++ bytes "\t[INVALID INSTRUCTION]\n"

section Dispatch

variable {emu : Emulator} {w : BitVec 16}

theorem decodeText_formatI (hd : emu.debugMode = true) (h : 4 ≤ formatId w) :
    decodeText emu w
      = printInstruction (w :: (textI emu w true).hexParts) (mnemonicI (formatId w) (bwFlag w))
          (textI emu w true).asmOperands := by
  have h1 : formatId w ≠ 1 := formatId_ne_one (le_trans (by decide) h)
  have h3 : ¬ (2 ≤ formatId w ∧ formatId w ≤ 3) := fun hc =>
    absurd (le_trans h hc.2) (by decide)
  rw [decodeText, if_neg h1, if_neg h3, if_pos h, if_pos hd]

theorem decodeText_formatII (hd : emu.debugMode = true) (h : formatId w = 1) :
    decodeText emu w
      = printInstruction (w :: (textII emu w).hexParts) (mnemonicII (opcodeII w) (bwFlag w))
          (textII emu w).asmOperand := by
  rw [decodeText, if_pos h, if_pos hd]

theorem decodeText_formatIII (hd : emu.debugMode = true)
    (h : 2 ≤ formatId w ∧ formatId w ≤ 3) :
    decodeText emu w
      = printInstruction [w] (mnemonicIII (jumpCondition w)) (jumpText emu w) := by
  rw [decodeText, if_neg (formatId_ne_one h.1), if_pos h, if_pos hd]

end Dispatch

/-- The text of one turn of the loop of `disassemble`. -/
def disassembleLineText (emu : Emulator) : Str :=
  bytes "0x" ++ printHex 4 emu.pc.toNat ++ bytes ":\t" ++ decodeText (fetch emu).2 (fetch emu).1

end Msp430
