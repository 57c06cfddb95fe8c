import Segvault.Hachoir.CopyOut

namespace Segvault.Hachoir

/-! Field sets with the classes and the sizes of their fields. The fields of a field
set follow each other without a gap. -/

/-- The classes with an editable field of a fixed size, and all the others. -/
inductive FieldClass
  | rawBits
  | integer (signed : Bool)
  | character
  | other
  deriving DecidableEq, Repr

inductive InputField
  | field (cls : FieldClass) (size : Nat)
  -- `isFloat` for the classes `Float32` and `Float64`
  | fieldSet (isFloat : Bool) (endian : Endian) (fields : List InputField)

namespace InputField

mutual

def size : InputField → Nat
  | .field _ size => size
  | .fieldSet _ _ fields => sizeAll fields

def sizeAll : List InputField → Nat
  | [] => 0
  | head :: fields => size head + sizeAll fields

end

end InputField

/-! The editable fields. -/

/-- `VALID_VALUE_SIGNED` and `VALID_VALUE_UNSIGNED` -/
def validValue (signed : Bool) (size : Nat) : Option (Int × Int) :=
  if signed then
    match size with
    | 8 => some (-2 ^ 8, 2 ^ 8 - 1)
    | 16 => some (-2 ^ 15, 2 ^ 15 - 1)
    | 32 => some (-2 ^ 31, 2 ^ 31 - 1)
    | _ => none
  else
    match size with
    | 8 => some (0, 2 ^ 8 - 1)
    | 16 => some (0, 2 ^ 16 - 1)
    | 32 => some (0, 2 ^ 32 - 1)
    | _ => none

/-- What `_setValue` lets through. A character stands for its code. -/
def FieldClass.accepts (size : Nat) (value : Int) : FieldClass → Bool
  | .rawBits => decide (0 ≤ value ∧ value < 2 ^ size)
  | .integer signed =>
      match validValue signed size with
      | some (minval, maxval) => decide (minval ≤ value ∧ value ≤ maxval)
      | none => false
  | .character => decide (size = 8 ∧ 0 ≤ value ∧ value < 256)
  | .other => false

/-- `_write` -/
def FieldClass.write (size : Nat) (value : Int) (endian : Endian) (out : OutputStream) :
    FieldClass → Except Failure OutputStream
  | .rawBits => out.writeBits size value.toNat endian
  | .integer signed => out.writeInteger value signed (size / 8) endian
  | .character => out.writeBytes [UInt8.ofNat value.toNat]
  | .other => .error .notImplementedError

/-- `FakeField.writeInto`, and what a field set does that is not altered. -/
def OutputStream.copyFrom (out : OutputStream) (stream : StringInputStream)
    (address size : Nat) (endian : Endian) : Except Failure OutputStream :=
  if size % 8 ≠ 0 then out.copyBitsFrom stream address size endian
  else out.copyBytesFrom stream address (size / 8)

/-! The values assigned to fields, by the positions of a field and of the field sets
around it. -/

abbrev Values := List Nat → Option Int

def Values.below (values : Values) (index : Nat) : Values :=
  fun path => values (index :: path)

def Values.single (path : List Nat) (value : Int) : Values :=
  fun other => if other = path then some value else none

namespace InputField

mutual

def isAltered (values : Values) : InputField → Bool
  | .field .. => (values []).isSome
  | .fieldSet isFloat _ fields => !isFloat && isAlteredAny values 0 fields

def isAlteredAny (values : Values) (index : Nat) : List InputField → Bool
  | [] => false
  | head :: fields =>
      isAltered (values.below index) head || isAlteredAny values (index + 1) fields

end

section WriteInto

variable (stream : StringInputStream)

mutual

/-- `writeInto` of the editable field for a field at an absolute address, in a field set
with the given endian. -/
def writeInto (out : OutputStream) (values : Values) (endian : Endian) (address : Nat) :
    InputField → Except Failure OutputStream
  | .field cls size =>
      match values [] with
      | some value => cls.write size value endian out
      | none => out.copyFrom stream address size endian
  | .fieldSet isFloat own fields =>
      if isAltered values (.fieldSet isFloat own fields) then
        writeIntoAll out values own address 0 fields
      else out.copyFrom stream address (sizeAll fields) own

def writeIntoAll (out : OutputStream) (values : Values) (endian : Endian)
    (address index : Nat) : List InputField → Except Failure OutputStream
  | [] => .ok out
  | head :: fields => do
      let out ← writeInto out (values.below index) endian address head
      writeIntoAll out values endian (address + head.size) (index + 1) fields

end

end WriteInto

end InputField

end Segvault.Hachoir
