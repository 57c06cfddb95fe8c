import Segvault.Bytes

namespace Segvault.Autodafe

open Bytes

/-! The instruction set that the script compiler writes and the engine reads. -/

inductive SizeType
  | l32
  | l16
  | b32
  | b16
  | s16
  | s10
  | size8
  deriving DecidableEq, Repr

inductive CrcType
  | b
  | l
  deriving DecidableEq, Repr

inductive Opcode
  | hfHex
  | hfString
  | hfBlockBegin
  | hfBlockEnd
  | hfBlockSize (type : SizeType)
  | hfBlockCrc32 (type : CrcType)
  | hfFuzzHex
  | hfFuzzString
  | hfSend
  | hfRecv
  deriving DecidableEq, Repr

namespace Opcode

def toByte : Opcode → UInt8
  | hfHex => 0x00
  | hfString => 0x01
  | hfBlockBegin => 0x10
  | hfBlockEnd => 0x11
  | hfBlockSize .l32 => 0x12
  | hfBlockSize .l16 => 0x13
  | hfBlockSize .b32 => 0x14
  | hfBlockSize .b16 => 0x15
  | hfBlockSize .s16 => 0x16
  | hfBlockSize .s10 => 0x17
  | hfBlockSize .size8 => 0x18
  | hfBlockCrc32 .b => 0x20
  | hfBlockCrc32 .l => 0x21
  | hfFuzzHex => 0x30
  | hfFuzzString => 0x31
  | hfSend => 0xf0
  | hfRecv => 0xf1

def all : List Opcode :=
  [hfHex, hfString, hfBlockBegin, hfBlockEnd, hfBlockSize .l32,
    hfBlockSize .l16, hfBlockSize .b32, hfBlockSize .b16, hfBlockSize .s16,
    hfBlockSize .s10, hfBlockSize .size8, hfBlockCrc32 .b, hfBlockCrc32 .l,
    hfFuzzHex, hfFuzzString, hfSend, hfRecv]

def ofByte? (byte : UInt8) : Option Opcode :=
  all.find? fun opcode => opcode.toByte = byte

theorem ofByte?_toByte (opcode : Opcode) :
    ofByte? opcode.toByte = some opcode := by
  cases opcode with
  | hfBlockSize type => cases type <;> rfl
  | hfBlockCrc32 type => cases type <;> rfl
  | _ => rfl

end Opcode

inductive Instruction
  | hex (values : List UInt8)
  | string (text : List UInt8)
  | fuzzHex (id : Nat) (filename values : List UInt8)
  | fuzzString (id : Nat) (filename text : List UInt8)
  | blockBegin (id : Nat)
  | blockEnd (id : Nat)
  | blockSize (type : SizeType) (id : Nat)
  | blockCrc32 (type : CrcType) (id : Nat)
  | send (id : Nat)
  | recv (id : Nat)
  deriving DecidableEq, Repr

namespace Instruction

def opcode : Instruction → Opcode
  | hex _ => .hfHex
  | string _ => .hfString
  | fuzzHex .. => .hfFuzzHex
  | fuzzString .. => .hfFuzzString
  | blockBegin _ => .hfBlockBegin
  | blockEnd _ => .hfBlockEnd
  | blockSize type _ => .hfBlockSize type
  | blockCrc32 type _ => .hfBlockCrc32 type
  | send _ => .hfSend
  | recv _ => .hfRecv

-- a text is preceded by its size on one byte, hex values by theirs on four
def sizedText (text : List UInt8) : List UInt8 :=
  UInt8.ofNat text.length :: text

def sizedHex (values : List UInt8) : List UInt8 :=
  bigEndian32 values.length ++ values

def operands : Instruction → List UInt8
  | hex values => sizedHex values
  | string text => sizedText text
  | fuzzHex id filename values =>
      bigEndian32 id ++ sizedText filename ++ sizedHex values
  | fuzzString id filename text =>
      bigEndian32 id ++ sizedText filename ++ sizedText text
  | blockBegin id => bigEndian32 id
  | blockEnd id => bigEndian32 id
  | blockSize _ id => bigEndian32 id
  | blockCrc32 _ id => bigEndian32 id
  | send id => bigEndian32 id
  | recv id => bigEndian32 id

def encode (instruction : Instruction) : List UInt8 :=
  instruction.opcode.toByte :: instruction.operands

/-! What fits the fields of the format. -/

def Fits : Instruction → Prop
  | hex values => values.length < 2 ^ 32
  | string text => text.length < 2 ^ 8
  | fuzzHex id filename values =>
      id < 2 ^ 32 ∧ filename.length < 2 ^ 8 ∧ values.length < 2 ^ 32
  | fuzzString id filename text =>
      id < 2 ^ 32 ∧ filename.length < 2 ^ 8 ∧ text.length < 2 ^ 8
  | blockBegin id => id < 2 ^ 32
  | blockEnd id => id < 2 ^ 32
  | blockSize _ id => id < 2 ^ 32
  | blockCrc32 _ id => id < 2 ^ 32
  | send id => id < 2 ^ 32
  | recv id => id < 2 ^ 32

end Instruction

def bytecode (instructions : List Instruction) : List UInt8 :=
  instructions.flatMap Instruction.encode

theorem Instruction.length_encode_pos (instruction : Instruction) :
    0 < instruction.encode.length :=
  Nat.succ_pos _

theorem length_le_bytecode (instructions : List Instruction) :
    instructions.length ≤ (bytecode instructions).length := by
  induction instructions with
  | nil => exact Nat.le_refl 0
  | cons instruction instructions induction =>
      have positive := instruction.length_encode_pos
      simp only [bytecode, List.flatMap_cons, List.length_append,
        List.length_cons] at induction ⊢
      omega

end Segvault.Autodafe
