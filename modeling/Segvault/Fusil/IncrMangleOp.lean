import Mathlib.Order.Interval.Finset.Nat

namespace Segvault.Fusil

/-! Errors that leave the mangle functions.  `IncrMangleError` is the only one
that `mangleData` catches. -/

inductive MangleError where
  | valueError
  | indexError
  | incrMangleError
  | endless
  deriving DecidableEq, Repr

/-! Python's `random`: every call consumes the next value of an arbitrary
sequence, so a statement about all sequences covers every random choice. -/

abbrev Draws := Nat → Nat

abbrev Random (α : Type) := Draws → Except MangleError α × Draws

def randint (low high : Int) : Random Int := fun draws =>
  if high < low then (.error .valueError, draws)
  else (.ok (low + (draws 0 : Int) % (high - low + 1)), fun n => draws (n + 1))

theorem randint_bounds {low high value : Int} {draws rest : Draws}
    (drawn : randint low high draws = (.ok value, rest)) :
    low ≤ value ∧ value ≤ high := by
  unfold randint at drawn
  split at drawn
  · cases drawn
  · next order =>
      simp only [Prod.mk.injEq, Except.ok.injEq] at drawn
      have nonneg : 0 ≤ (draws 0 : Int) % (high - low + 1) :=
        Int.emod_nonneg _ (by omega)
      have bound : (draws 0 : Int) % (high - low + 1) < high - low + 1 :=
        Int.emod_lt_of_pos _ (by omega)
      omega

def choice (items : List α) : Random α := fun draws =>
  match items[draws 0 % items.length]? with
  | none => (.error .indexError, draws)
  | some item => (.ok item, fun n => draws (n + 1))

theorem choice_mem {items : List α} {draws rest : Draws} {item : α}
    (chosen : choice items draws = (.ok item, rest)) : item ∈ items := by
  unfold choice at chosen
  split at chosen
  · cases chosen
  · next found =>
      cases chosen
      exact List.mem_of_getElem? found

/-! The configuration that `IncrMangle` hands to the operations. -/

inductive OperationClass where
  | inverseBit
  | replaceByte
  | specialValue
  | increment
  deriving DecidableEq, Repr

structure Agent where
  operationPerVersion : Int := 1
  maxVersion : Int := 25
  minOffset : Option Int := none
  maxOffset : Option Int := none
  operations : List OperationClass :=
    [.inverseBit, .replaceByte, .specialValue, .increment]
  successScore : Rat := 1 / 2
  maxSize : Option Nat := none

def maxIncr : Int := 8

def generateSpecialValues (values : List (List UInt8)) : List (List UInt8) :=
  values.flatMap fun item =>
    if item = item.reverse then [item] else [item, item.reverse]

def specialValues : List (List UInt8) :=
  generateSpecialValues [
    [0x00], [0x00, 0x00], [0x01], [0x00, 0x01],
    [0x7f], [0x7f, 0xff], [0x7f, 0xff, 0xff, 0xff],
    [0x80], [0x80, 0x00], [0x80, 0x00, 0x00, 0x00],
    [0xfe], [0xfe, 0xff], [0xfe, 0xff, 0xff, 0xff],
    [0xff], [0xff, 0xff], [0xff, 0xff, 0xff, 0xff]]

theorem specialValues_nonempty : ∀ bytes ∈ specialValues, 0 < bytes.length := by
  decide

theorem specialValues_length : ∀ bytes ∈ specialValues, bytes.length ≤ 4 := by
  decide

def minmax (minValue value maxValue : Int) : Int :=
  min (max minValue value) maxValue

def createBitOffset (agent : Agent) (datalen : Int) : Random Int :=
  let minOffset : Int :=
    match agent.minOffset with
    | none => 0
    | some offset => max (offset * 8) 0
  let maxOffset : Int :=
    match agent.maxOffset with
    | none => datalen * 8 - 1
    | some offset => min (offset * 8 + 7) (datalen * 8 - 1)
  randint minOffset maxOffset

def createByteOffset (agent : Agent) (datalen : Int) : Random Int :=
  let minOffset : Int :=
    match agent.minOffset with
    | none => 0
    | some offset => max offset 0
  let maxOffset : Int :=
    match agent.maxOffset with
    | none => datalen - 1
    | some offset => min offset (datalen - 1)
  randint minOffset maxOffset

/-! Operations.  `offset` is in bits for every class; the classes that work on
bytes store it as eight times the byte offset. -/

inductive Operation where
  | inverseBit (offset : Nat)
  | replaceByte (offset : Nat) (byte : UInt8)
  | specialValue (offset : Nat) (bytes : List UInt8)
  | increment (offset : Nat) (incr : Int)
  deriving DecidableEq, Repr

namespace Operation

def offset : Operation → Nat
  | inverseBit offset => offset
  | replaceByte offset _ => offset
  | specialValue offset _ => offset
  | increment offset _ => offset

def size : Operation → Nat
  | inverseBit _ => 1
  | replaceByte _ _ => 8
  | specialValue _ bytes => bytes.length * 8
  | increment _ _ => 8

def bits (operation : Operation) : Finset Nat :=
  Finset.Ico operation.offset (operation.offset + operation.size)

def modifyByte (data : List UInt8) (index : Nat) (change : UInt8 → UInt8) :
    Except MangleError (List UInt8) :=
  match data[index]? with
  | none => .error .indexError
  | some byte => .ok (data.set index (change byte))

/-! `operation(data)`.  An index past the end raises `IndexError`; a slice
assignment never raises. -/

def call : Operation → List UInt8 → Except MangleError (List UInt8)
  | inverseBit offset, data =>
      let mask : UInt8 := 1 <<< UInt8.ofNat (offset % 8)
      modifyByte data (offset / 8) fun byte =>
        if byte &&& mask ≠ 0 then byte &&& (~~~mask) else byte ||| mask
  | replaceByte offset byte, data =>
      modifyByte data (offset / 8) fun _ => byte
  | specialValue offset bytes, data =>
      let offset := offset / 8
      .ok (data.take offset ++ bytes ++ data.drop (offset + bytes.length))
  | increment offset incr, data =>
      modifyByte data (offset / 8) fun byte =>
        UInt8.ofNat (minmax 0 (byte.toNat + incr) 255).toNat

end Operation

/-! Constructors of the operation classes, in the order of their random calls. -/

def OperationClass.create (agent : Agent) (datalen : Int) :
    OperationClass → Random Operation
  | inverseBit => fun draws =>
      match createBitOffset agent datalen draws with
      | (.error error, draws) => (.error error, draws)
      | (.ok offset, draws) => (.ok (.inverseBit offset.toNat), draws)
  | replaceByte => fun draws =>
      match createByteOffset agent (datalen - 1) draws with
      | (.error error, draws) => (.error error, draws)
      | (.ok offset, draws) =>
          match randint 0 255 draws with
          | (.error error, draws) => (.error error, draws)
          | (.ok byte, draws) =>
              (.ok (.replaceByte (offset.toNat * 8) (UInt8.ofNat byte.toNat)),
                draws)
  | specialValue => fun draws =>
      match choice specialValues draws with
      | (.error error, draws) => (.error error, draws)
      | (.ok bytes, draws) =>
          match createByteOffset agent (datalen - bytes.length) draws with
          | (.error error, draws) => (.error error, draws)
          | (.ok offset, draws) =>
              (.ok (.specialValue (offset.toNat * 8) bytes), draws)
  | increment => fun draws =>
      match randint 1 maxIncr draws with
      | (.error error, draws) => (.error error, draws)
      | (.ok incr, draws) =>
          match randint 0 1 draws with
          | (.error error, draws) => (.error error, draws)
          | (.ok sign, draws) =>
              match createByteOffset agent (datalen - 1) draws with
              | (.error error, draws) => (.error error, draws)
              | (.ok offset, draws) =>
                  (.ok (.increment (offset.toNat * 8)
                    (if sign = 1 then -incr else incr)), draws)

end Segvault.Fusil
