import Segvault.Hachoir.RawNumbers
import Segvault.Hachoir.WriteOutcome

namespace Segvault.Hachoir

open BitString

/-! Edited numbers: bits fields and integers, written and read again. -/

namespace FieldClass

def isNumber : FieldClass → Bool
  | .rawBits | .integer _ => true
  | .character | .other => false

/-- The numbers of a given size, in two's complement if they are signed. -/
def InRange (size : Nat) (value : Int) : FieldClass → Prop
  | .integer true => -2 ^ (size - 1) ≤ value ∧ value < 2 ^ (size - 1)
  | _ => 0 ≤ value ∧ value < 2 ^ size

/-- `createValue` of the fields. -/
def readNumber (stream : StringInputStream) (address size : Nat) (endian : Endian) :
    FieldClass → Except Failure Int
  | .integer signed => stream.readInteger address signed size endian
  | _ => (stream.readBits address size endian).map Int.ofNat

theorem accepts_signed {size : Nat} {value : Int} (wide : size ≠ 8)
    (accepted : (integer true).accepts size value = true) :
    -2 ^ (size - 1) ≤ value ∧ value < 2 ^ (size - 1) := by
  have sizes := (accepts_integer accepted).1
  obtain rfl | rfl := sizes.resolve_left wide
  · obtain ⟨lower, upper⟩ := of_decide_eq_true accepted
    exact ⟨lower, by omega⟩
  · obtain ⟨lower, upper⟩ := of_decide_eq_true accepted
    exact ⟨lower, by omega⟩

/-- What the setter lets through is in range, the signed byte apart. -/
theorem inRange_of_accepts {cls : FieldClass} {size : Nat} {value : Int}
    (number : cls.isNumber = true) (wide : ¬ (cls = .integer true ∧ size = 8))
    (accepted : cls.accepts size value = true) : cls.InRange size value := by
  cases cls with
  | rawBits =>
      have inside : 0 ≤ value ∧ value < 2 ^ size := of_decide_eq_true accepted
      exact inside
  | integer signed =>
      cases signed with
      | false => exact (accepts_integer accepted).2 rfl
      | true => exact accepts_signed (fun byte => wide ⟨rfl, byte⟩) accepted
  | character => cases number
  | other => cases number

/-- A number that is not signed stands in its field as it is. -/
theorem readNumber_stored {cls : FieldClass} (unsigned : cls ≠ .integer true)
    {stream : StringInputStream} {address size value : Nat} {endian : Endian}
    (bits : stream.readBits address size endian = .ok value) :
    cls.readNumber stream address size endian = .ok (value : Int) := by
  cases cls with
  | integer signed =>
      cases signed with
      | false => exact StringInputStream.readInteger_unsigned bits
      | true => exact absurd rfl unsigned
  | rawBits | character | other => exact congrArg (Except.map Int.ofNat) bits

theorem stored_unsigned {cls : FieldClass} (unsigned : cls ≠ .integer true) (size : Nat)
    (value : Int) : cls.stored size value = value := by
  cases cls with
  | integer signed =>
      cases signed with
      | false => rfl
      | true => exact absurd rfl unsigned
  | rawBits | character | other => rfl

theorem inRange_unsigned {cls : FieldClass} (unsigned : cls ≠ .integer true) {size : Nat}
    {value : Int} (range : cls.InRange size value) : 0 ≤ value ∧ value < 2 ^ size := by
  cases cls with
  | integer signed =>
      cases signed with
      | false => exact range
      | true => exact absurd rfl unsigned
  | rawBits | character | other => exact range

/-- Bits are written at any place, integers between whole bytes. -/
theorem writable_of_inRange {cls : FieldClass} {size : Nat} {value : Int} {endian : Endian}
    {out : OutputStream} (number : cls.isNumber = true) (range : cls.InRange size value)
    (standard : endian ≠ .middleEndian) (aligned : cls = .rawBits ∨ out.bitPos = 0) :
    cls.Writable 0 out.bitPos size endian value := by
  cases cls with
  | rawBits => exact standard
  | integer signed =>
      have boundary : out.bitPos = 0 := aligned.resolve_left nofun
      refine ⟨standard, by rw [boundary], ?_⟩
      rintro rfl
      exact range
  | character => cases number
  | other => cases number

end FieldClass

/-- The bits written at the end of an output, in any data that go on after them. -/
theorem readBits_written {endian : Endian} (standard : endian ≠ .middleEndian)
    {out after : OutputStream} (wellFormed : out.WellFormed endian.order) {size value : Nat}
    (small : value < 2 ^ size)
    (content : after.content endian.order =
      out.content endian.order ++ encode endian.order size value)
    (positive : 0 < size) (short : out.bitPos + size ≤ 256) {data : List UInt8}
    (goesOn : after.content endian.order <+: stream endian.order data) :
    StringInputStream.readBits ⟨data⟩ (8 * out.output.length + out.bitPos) size endian =
      .ok value := by
  obtain ⟨rest, whole⟩ := goesOn
  rw [content] at whole
  have place := wellFormed.length_content
  have long : (stream endian.order data).length =
      8 * out.output.length + out.bitPos + size + rest.length := by
    rw [← whole, List.length_append, List.length_append, place, length_encode]
  rw [length_stream] at long
  have bits : range (stream endian.order data) (8 * out.output.length + out.bitPos) size =
      encode endian.order size value := by
    rw [← whole, List.append_assoc, range, List.drop_left' place,
      List.take_left' (length_encode _ size value)]
  have inByte : (8 * out.output.length + out.bitPos) % 8 + size ≤ 256 := by
    have := wellFormed.bitPos_lt
    omega
  rw [readBits_eq standard (by simp only; omega) positive inByte, bits, decode_encode,
    Nat.mod_eq_of_lt small]

end Segvault.Hachoir
