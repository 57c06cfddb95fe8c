import Segvault.Autodafe.Instruction

namespace Segvault.Autodafe

/-! Scripts, as the lexer and the grammar hand them to the parser's actions. -/

structure QString where
  bytes : List UInt8
  size : bytes.length ≤ 255
  noNul : 0 ∉ bytes
  deriving DecidableEq

structure HexBuffer where
  values : List UInt8
  nonempty : values ≠ []
  size : values.length < 2 ^ 32

theorem HexBuffer.values_inj {first second : HexBuffer} :
    first.values = second.values ↔ first = second := by
  obtain ⟨values, nonempty, size⟩ := first
  constructor
  · rintro rfl
    rfl
  · rintro rfl
    rfl

instance HexBuffer.decidableEq : DecidableEq HexBuffer := fun _ _ =>
  decidable_of_iff _ HexBuffer.values_inj

/-! What the examples ask of their one byte. -/

theorem a_size : ([65] : List UInt8).length ≤ 255 := by decide

theorem a_noNul : 0 ∉ ([65] : List UInt8) := by decide

theorem one_nonempty : ([1] : List UInt8) ≠ [] := by decide

theorem one_size : ([1] : List UInt8).length < 2 ^ 32 := by decide

theorem b_size : ([66] : List UInt8).length < 2 ^ 32 := by decide

inductive Directive
  | string (text : QString)
  | fuzzString (one : QString) (more : List QString)
  | hex (values : HexBuffer)
  | fuzzHex (filename : Option QString) (values : HexBuffer)
  | blockBegin (name : QString)
  | blockEnd (name : QString)
  | blockSize (type : SizeType) (name : QString)
  | blockCrc32 (type : CrcType) (name : QString)
  | send (name : QString)
  | recv (name : QString)
  deriving DecidableEq

def asciiBytes (text : String) : List UInt8 :=
  text.toList.map fun character => UInt8.ofNat character.toNat

def defaultFuzzStringFile : List UInt8 :=
  asciiBytes "/usr/local/etc/autodafe/string.fuzz"

def defaultFuzzHexFile : List UInt8 :=
  asciiBytes "/usr/local/etc/autodafe/hex.fuzz"

structure Block where
  name : QString
  id : Nat
  started : Bool
  ended : Bool
  deriving DecidableEq

/-! The state of the parser; the last block comes first in the list. -/

structure Adc where
  lastBlock : List Block := []
  blockNumber : Nat := 1
  fuzzId : Nat := 0
  fileAdc : List Instruction := []

namespace Adc

def blockCheck (self : Adc) (name : QString) : Option Block :=
  self.lastBlock.find? fun block => block.name = name

def addBlock (self : Adc) (name : QString) (started : Bool) : Adc × Nat :=
  ({ self with
      lastBlock :=
        { name, id := self.blockNumber, started, ended := false } ::
          self.lastBlock
      blockNumber := (self.blockNumber + 1) % 2 ^ 32 },
    self.blockNumber)

def modifyBlock (name : QString) (change : Block → Block) :
    List Block → List Block
  | [] => []
  | block :: previous =>
      if block.name = name then change block :: previous
      else block :: modifyBlock name change previous

def blockSizeCheck (self : Adc) (name : QString) : Adc × Nat :=
  match self.blockCheck name with
  | some block => (self, block.id)
  | none => self.addBlock name false

def blockNew (self : Adc) (name : QString) : Option (Adc × Nat) :=
  match self.blockCheck name with
  | some block =>
      if block.started then none
      else
        some ({ self with
          lastBlock :=
            modifyBlock name ({ · with started := true }) self.lastBlock },
          block.id)
  | none => some (self.addBlock name true)

def blockEnd (self : Adc) (name : QString) : Option (Adc × Nat) :=
  match self.blockCheck name with
  -- the source assigns `started = 1` in the test, so the test always succeeds
  | some block =>
      some ({ self with
        lastBlock :=
          modifyBlock name ({ · with started := true, ended := true })
            self.lastBlock },
        block.id)
  | none => none

def blockCheckSend (self : Adc) (name : QString) : Option Nat :=
  match self.blockCheck name with
  | none => none
  | some block =>
      if !block.started then none
      else if !block.ended then none
      else some block.id

def blockCheckEnded (self : Adc) : Bool :=
  self.lastBlock.all fun block => block.started && block.ended

def write (self : Adc) (instruction : Instruction) : Adc :=
  { self with fileAdc := self.fileAdc ++ [instruction] }

def nextFuzzId (self : Adc) : Adc :=
  { self with fuzzId := (self.fuzzId + 1) % 2 ^ 32 }

def function (self : Adc) : Directive → Option Adc
  | .string text => some (self.write (.string text.bytes))
  | .fuzzString one [] =>
      some ((self.write (.fuzzString self.fuzzId defaultFuzzStringFile
        one.bytes)).nextFuzzId)
  | .fuzzString one [two] =>
      some ((self.write (.fuzzString self.fuzzId one.bytes
        two.bytes)).nextFuzzId)
  | .fuzzString _ (_ :: _ :: _) => none
  | .hex values => some (self.write (.hex values.values))
  | .fuzzHex none values =>
      some ((self.write (.fuzzHex self.fuzzId defaultFuzzHexFile
        values.values)).nextFuzzId)
  | .fuzzHex (some filename) values =>
      some ((self.write (.fuzzHex self.fuzzId filename.bytes
        values.values)).nextFuzzId)
  | .blockBegin name =>
      (self.blockNew name).map fun (self, id) => self.write (.blockBegin id)
  | .blockEnd name =>
      (self.blockEnd name).map fun (self, id) => self.write (.blockEnd id)
  | .blockCrc32 type name =>
      let (self, id) := self.blockSizeCheck name
      some (self.write (.blockCrc32 type id))
  | .blockSize type name =>
      let (self, id) := self.blockSizeCheck name
      some (self.write (.blockSize type id))
  | .send name =>
      (self.blockCheckSend name).map fun id => self.write (.send id)
  | .recv name =>
      (self.blockCheckSend name).map fun id => self.write (.recv id)

end Adc

def adc (script : List Directive) : Option (List Instruction) :=
  match script.foldlM Adc.function {} with
  | none => none
  | some self => if self.blockCheckEnded then some self.fileAdc else none

end Segvault.Autodafe
