import Segvault.Autodafe.Instruction
import Segvault.Autodafe.Hash

namespace Segvault.Autodafe

open Bytes

/-! How a pass can stop before its packet is handed over: the process exits,
or it does something the language leaves undefined. -/

inductive Halt
  | quit
  | undefined
  deriving DecidableEq, Repr

structure StructSource where
  content : List UInt8
  size : content.length < 2 ^ 32

structure StructFuzz where
  id : Nat
  total : Nat
  current : Nat
  weight : Nat
  source : List StructSource
  filled : total = source.length

inductive BlockState
  | opened
  | closed
  deriving DecidableEq, Repr

structure StructBlock where
  id : Nat
  size : Nat
  offset : Nat
  state : BlockState
  deriving DecidableEq, Repr

structure StructLength where
  id : Nat
  offset : Nat
  type : SizeType
  deriving DecidableEq, Repr

structure StructHash where
  id : Nat
  offset : Nat
  type : CrcType
  deriving DecidableEq, Repr

inductive ChronoType
  | send
  | recv
  deriving DecidableEq, Repr

structure StructChrono where
  id : Nat
  type : ChronoType
  deriving DecidableEq, Repr

structure StructAdc where
  buffer : List UInt8
  start : Nat
  offset : Nat
  size : Nat

/-! The configuration, in three parts: what decides which field is fuzzed,
what is known of the packet buffer, and the rest. -/

structure Schedule where
  dbgMode : Bool
  bruteforce : Bool
  fuzzCurrent : Nat
  fuzz : List StructFuzz

structure Buffer where
  allocated : Bool
  bufFuzzSize : Nat
  deriving DecidableEq, Repr

structure Config extends Schedule, Buffer where
  bufFuzz : Memory
  adc : StructAdc
  block : List StructBlock
  length : List StructLength
  hash : List StructHash
  chrono : List StructChrono

-- the index files of the fuzz functions and the files they list; `none` when
-- an index file cannot be used
abbrev FillSource := List UInt8 → Option (List StructSource)

/-! The packet buffer. -/

-- `unsigned int` arithmetic: a sum that wraps makes the buffer too small for
-- the copy, and `realloc` to no byte frees the buffer and returns `NULL`
def Buffer.realloc (self : Buffer) (size : Nat) : Except Halt Buffer :=
  let total := (self.bufFuzzSize + size) % 2 ^ 32
  if total = 0 ∧ self.allocated then .error .quit
  else if total < self.bufFuzzSize + size then .error .undefined
  else .ok { allocated := true, bufFuzzSize := total }

def StructBlock.grow (size : Nat) (block : StructBlock) : StructBlock :=
  match block.state with
  | .opened => { block with size := (block.size + size) % 2 ^ 32 }
  | .closed => block

namespace Config

def updateBlockSize (conf : Config) (size : Nat) : Config :=
  { conf with block := conf.block.map (StructBlock.grow size) }

def pushData (conf : Config) (data : List UInt8) : Except Halt Config := do
  let buffer ← conf.toBuffer.realloc data.length
  let conf : Config :=
    { conf with
      bufFuzz := write conf.bufFuzz conf.bufFuzzSize data
      toBuffer := buffer }
  return conf.updateBlockSize data.length

def modifyData (conf : Config) (data : List UInt8) (offset : Nat) : Config :=
  { conf with bufFuzz := write conf.bufFuzz offset data }

def dummyLength : SizeType → List UInt8
  | .b32 => [0xff, 0xff, 0xff, 0xff]
  | .l32 => [0xff, 0xff, 0xff, 0xff]
  | .b16 => [0xff, 0xff]
  | .l16 => [0xff, 0xff]
  | .size8 => [0xff]
  | .s16 => []
  | .s10 => []

-- the strings add no byte, not even an empty `push_data`
def pushLength (conf : Config) (id : Nat) (type : SizeType) :
    Except Halt Config :=
  let conf : Config :=
    { conf with
      length := conf.length ++ [{ id, offset := conf.bufFuzzSize, type }] }
  match type with
  | .s16 => .ok conf
  | .s10 => .ok conf
  | _ => conf.pushData (dummyLength type)

def pushHash (conf : Config) (id : Nat) (type : CrcType) : Except Halt Config :=
  let conf : Config :=
    { conf with
      hash := conf.hash ++ [{ id, offset := conf.bufFuzzSize, type }] }
  conf.pushData [0, 0, 0, 0]

/-! Reading the bytecode. -/

def skip (conf : Config) (size : Nat) : Config :=
  { conf with
    adc := { conf.adc with offset := (conf.adc.offset + size) % 2 ^ 32 } }

def readBufferChar (conf : Config) : Except Halt (UInt8 × Config) :=
  match conf.adc.buffer[conf.adc.offset]? with
  | none => .error .undefined
  | some byte => .ok (byte, conf.skip 1)

def ntohl (value : Nat) : Nat := ofLittleEndian (bigEndian32 value)

def readBufferInt (conf : Config) : Except Halt (Nat × Config) :=
  match conf.adc.buffer.drop conf.adc.offset with
  | first :: second :: third :: fourth :: _ =>
      let result :=
        first.toNat + second.toNat * 2 ^ 8 + third.toNat * 2 ^ 16 +
          fourth.toNat * 2 ^ 24
      .ok (ntohl result, conf.skip 4)
  | _ => .error .undefined

def peek (conf : Config) (size : Nat) : Except Halt (List UInt8) :=
  if conf.adc.offset + size ≤ conf.adc.buffer.length then
    .ok ((conf.adc.buffer.drop conf.adc.offset).take size)
  else .error .undefined

end Config

/-! Choosing what to fuzz. -/

namespace Schedule

def setFuzz (self : Schedule) (fuzz : StructFuzz) : Schedule :=
  { self with
    fuzz := self.fuzz.map fun other =>
      if other.id = fuzz.id then fuzz else other }

def irrelevant (self : Schedule) (fuzz : StructFuzz) : Bool :=
  self.dbgMode && !self.bruteforce && fuzz.weight = 0

def choose (fillSource : FillSource) (self : Schedule) (id : Nat)
    (filename : List UInt8) (weight : Nat) :
    Except Halt (Option StructSource × Schedule) :=
  match self.fuzz.find? fun fuzz => fuzz.id = id with
  | none =>
      match fillSource filename with
      | none => .error .quit
      | some source =>
          .ok (none, { self with
            fuzz := self.fuzz ++
              [{ id, total := source.length, current := 0, weight, source,
                 filled := rfl }] })
  | some fuzz =>
      if self.fuzzCurrent = fuzz.id then
        let fuzz :=
          if self.irrelevant fuzz then { fuzz with current := fuzz.total }
          else fuzz
        if fuzz.current < fuzz.total then
          match fuzz.source[fuzz.current]? with
          | none => .error .undefined
          | some source =>
              .ok (some source,
                self.setFuzz { fuzz with current := fuzz.current + 1 })
        else
          .ok (none, { self.setFuzz fuzz with
            fuzzCurrent := (self.fuzzCurrent + 1) % 2 ^ 32 })
      else .ok (none, self)

end Schedule

namespace Config

-- the counter of the chosen entry moves after the copy in the source;
-- nothing reads it in between
def fuzzCore (fillSource : FillSource) (conf : Config) (id : Nat)
    (filename : List UInt8) (weight : Nat) : Except Halt (Bool × Config) := do
  let (source, schedule) ← conf.toSchedule.choose fillSource id filename weight
  let conf : Config := { conf with toSchedule := schedule }
  match source with
  | none => return (false, conf)
  | some source =>
      let conf ← conf.pushData source.content
      return (true, conf)

/-! The instructions. -/

def opcodeHfHex (conf : Config) : Except Halt Config := do
  let (size, conf) ← conf.readBufferInt
  let values ← conf.peek size
  let conf ← conf.pushData values
  return conf.skip size

def opcodeHfString (conf : Config) : Except Halt Config := do
  let (size, conf) ← conf.readBufferChar
  let text ← conf.peek size.toNat
  let conf ← conf.pushData text
  return conf.skip size.toNat

def opcodeHfFuzzHex (fillSource : FillSource) (conf : Config) :
    Except Halt Config := do
  let (id, conf) ← conf.readBufferInt
  let (size, conf) ← conf.readBufferChar
  let filename ← conf.peek size.toNat
  let conf := conf.skip size.toNat
  let (fuzzed, conf) ← conf.fuzzCore fillSource id filename 1
  if fuzzed then
    let (size, conf) ← conf.readBufferInt
    return conf.skip size
  else conf.opcodeHfHex

def opcodeHfFuzzString (fillSource : FillSource) (conf : Config) :
    Except Halt Config := do
  let (id, conf) ← conf.readBufferInt
  let (size, conf) ← conf.readBufferChar
  let filename ← conf.peek size.toNat
  let conf := conf.skip size.toNat
  let (fuzzed, conf) ← conf.fuzzCore fillSource id filename 0
  if fuzzed then
    let (size, conf) ← conf.readBufferChar
    return conf.skip size.toNat
  else conf.opcodeHfString

def opcodeHfBlockBegin (conf : Config) : Except Halt Config := do
  let (id, conf) ← conf.readBufferInt
  return { conf with
    block := conf.block ++
      [{ id, size := 0, offset := conf.bufFuzzSize, state := .opened }] }

def closeBlock (id : Nat) : List StructBlock → List StructBlock
  | [] => []
  | block :: blocks =>
      if block.id = id then { block with state := .closed } :: blocks
      else block :: closeBlock id blocks

def opcodeHfBlockEnd (conf : Config) : Except Halt Config := do
  let (id, conf) ← conf.readBufferInt
  return { conf with block := closeBlock id conf.block }

def opcodeHfBlockSize (type : SizeType) (conf : Config) :
    Except Halt Config := do
  let (id, conf) ← conf.readBufferInt
  conf.pushLength id type

def opcodeHfBlockSizeL32 : Config → Except Halt Config := opcodeHfBlockSize .l32
def opcodeHfBlockSizeL16 : Config → Except Halt Config := opcodeHfBlockSize .l16
def opcodeHfBlockSizeB32 : Config → Except Halt Config := opcodeHfBlockSize .b32
def opcodeHfBlockSizeB16 : Config → Except Halt Config := opcodeHfBlockSize .b16
def opcodeHfBlockSize8 : Config → Except Halt Config := opcodeHfBlockSize .size8
def opcodeHfBlockSizeS16 : Config → Except Halt Config := opcodeHfBlockSize .s16
def opcodeHfBlockSizeS10 : Config → Except Halt Config := opcodeHfBlockSize .s10

def opcodeHfBlockCrc32 (type : CrcType) (conf : Config) :
    Except Halt Config := do
  let (id, conf) ← conf.readBufferInt
  conf.pushHash id type

def opcodeHfBlockCrc32B : Config → Except Halt Config := opcodeHfBlockCrc32 .b
def opcodeHfBlockCrc32L : Config → Except Halt Config := opcodeHfBlockCrc32 .l

def opcodeHfChrono (type : ChronoType) (conf : Config) : Except Halt Config := do
  let (id, conf) ← conf.readBufferInt
  return { conf with chrono := conf.chrono ++ [{ id, type }] }

def opcodeHfSend : Config → Except Halt Config := opcodeHfChrono .send
def opcodeHfRecv : Config → Except Halt Config := opcodeHfChrono .recv

def fetchInstruction (fillSource : FillSource) (conf : Config) :
    Except Halt Config := do
  let (opcode, conf) ← conf.readBufferChar
  match Opcode.ofByte? opcode with
  | some .hfHex => conf.opcodeHfHex
  | some .hfFuzzHex => conf.opcodeHfFuzzHex fillSource
  | some .hfString => conf.opcodeHfString
  | some .hfFuzzString => conf.opcodeHfFuzzString fillSource
  | some .hfBlockBegin => conf.opcodeHfBlockBegin
  | some .hfBlockEnd => conf.opcodeHfBlockEnd
  | some (.hfBlockSize .l32) => conf.opcodeHfBlockSizeL32
  | some (.hfBlockSize .l16) => conf.opcodeHfBlockSizeL16
  | some (.hfBlockSize .b32) => conf.opcodeHfBlockSizeB32
  | some (.hfBlockSize .b16) => conf.opcodeHfBlockSizeB16
  | some (.hfBlockSize .size8) => conf.opcodeHfBlockSize8
  | some (.hfBlockSize .s16) => conf.opcodeHfBlockSizeS16
  | some (.hfBlockSize .s10) => conf.opcodeHfBlockSizeS10
  | some (.hfBlockCrc32 .b) => conf.opcodeHfBlockCrc32B
  | some (.hfBlockCrc32 .l) => conf.opcodeHfBlockCrc32L
  | some .hfSend => conf.opcodeHfSend
  | some .hfRecv => conf.opcodeHfRecv
  -- not supported: `fuzz_engine` returns
  | none => .error .quit

/-! Updating the fields, in the order of their lists. -/

def lengthBytes (size : Nat) : SizeType → Option (List UInt8)
  | .b32 => some (bigEndian32 size)
  | .l32 => some (littleEndian32 size)
  | .b16 => some ((bigEndian32 size).drop 2)
  -- the source takes the last two bytes here too, where the first two are low
  | .l16 => some ((littleEndian32 size).drop 2)
  | .size8 => some ((bigEndian32 size).drop 3)
  | .s16 => none
  | .s10 => none

def updateOneLength (conf : Config) (length : StructLength) : Config :=
  match conf.block.find? fun block => block.id = length.id with
  | none => conf
  | some block =>
      match lengthBytes block.size length.type with
      | none => conf
      | some bytes => conf.modifyData bytes length.offset

def updateLength (conf : Config) : Config :=
  conf.length.foldl updateOneLength conf

def hashBytes (crc : BitVec 32) : CrcType → List UInt8
  | .b => bigEndian32 crc.toNat
  | .l => littleEndian32 crc.toNat

def updateOneHash (conf : Config) (hash : StructHash) : Config :=
  match conf.block.find? fun block => block.id = hash.id with
  | none => conf
  | some block =>
      let crc := hashCrc32 (read conf.bufFuzz block.offset block.size)
      conf.modifyData (hashBytes crc hash.type) hash.offset

def updateHash (conf : Config) : Config :=
  conf.hash.foldl updateOneHash conf

/-! One pass of the engine, up to the start of the transmission. -/

def parse (fillSource : FillSource) : Nat → Config → Except Halt Config
  | 0, conf =>
      if conf.adc.offset < conf.adc.size then .error .undefined else .ok conf
  | turns + 1, conf =>
      if conf.adc.offset < conf.adc.size then do
        let conf ← conf.fetchInstruction fillSource
        parse fillSource turns conf
      else .ok conf

-- an instruction has at least its opcode, so the size bounds their number
def packet (fillSource : FillSource) (conf : Config) : Except Halt Config := do
  let conf ← conf.parse fillSource conf.adc.size
  return conf.updateLength.updateHash

/-! Between two passes the lists and the buffer are freed, the offset is reset,
and the debugger may have raised weights. The size of the buffer is not reset. -/

def fuzzFinished (conf : Config) : Bool :=
  conf.fuzz.all fun fuzz => !decide (fuzz.current < fuzz.total)

def nextPass (conf : Config) (weights : StructFuzz → Nat) (bufFuzz : Memory) :
    Config :=
  { conf with
    fuzz := conf.fuzz.map fun fuzz => { fuzz with weight := weights fuzz }
    allocated := false
    bufFuzz
    adc := { conf.adc with offset := conf.adc.start }
    block := []
    length := []
    hash := []
    chrono := [] }

def readAdcFile (dbgMode bruteforce : Bool) (bufFuzz : Memory)
    (buffer : List UInt8) : Config :=
  { dbgMode
    bruteforce
    fuzzCurrent := 0
    fuzz := []
    allocated := false
    bufFuzzSize := 0
    bufFuzz
    adc := { buffer, start := 0, offset := 0, size := buffer.length % 2 ^ 32 }
    block := []
    length := []
    hash := []
    chrono := [] }

/-! The configurations in which a pass starts. -/

inductive PassStart (fillSource : FillSource) (buffer : List UInt8) :
    Config → Prop
  | first (dbgMode bruteforce : Bool) (bufFuzz : Memory) :
      PassStart fillSource buffer
        (readAdcFile dbgMode bruteforce bufFuzz buffer)
  | next {conf sent : Config} (started : PassStart fillSource buffer conf)
      (passed : conf.packet fillSource = .ok sent)
      (unfinished : sent.fuzzFinished = false)
      (weights : StructFuzz → Nat) (bufFuzz : Memory) :
      PassStart fillSource buffer (sent.nextPass weights bufFuzz)

end Config

end Segvault.Autodafe
