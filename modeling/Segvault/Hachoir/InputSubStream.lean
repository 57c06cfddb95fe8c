import Segvault.Hachoir.SearchBytes

namespace Segvault.Hachoir

open BitString

/-! What a stream over some bytes answers. -/

abbrev Reader := Nat → Nat → Except Failure Chunk

/-- A read of the stream gives the bytes that hold the bits, or says that some are missing. -/
structure ByteReader (content : List UInt8) (read : Reader) : Prop where
  inside : ∀ address size, 0 < size → address + size ≤ 8 * content.length →
    read address size = .ok (address % 8,
      slice content (address / 8) ((size + address % 8 + 7) / 8), false)
  outside : ∀ address size, 0 < size → 8 * content.length < address + size →
    (∃ failure, read address size = .error failure) ∨
      ∃ shift data, read address size = .ok (shift, data, true)

/-- The bits that a read has given; None when some are missing. -/
def bitsRead (order : Order) (size : Nat) : Except Failure Chunk → Option (List Bool)
  | .ok (shift, data, false) => some (range (stream order data) shift size)
  | .ok (_, _, true) => none
  | .error _ => none

/-- A read of `string`: its bits, unless some are missing. -/
def bitsAt (string : List Bool) (address size : Nat) : Option (List Bool) :=
  if address + size ≤ string.length then some (range string address size) else none

theorem ByteReader.bits {content : List UInt8} {read : Reader} (reader : ByteReader content read)
    (order : Order) (address : Nat) {size : Nat} (positive : 0 < size) :
    bitsRead order size (read address size) = bitsAt (stream order content) address size := by
  rw [bitsAt, length_stream]
  by_cases inside : address + size ≤ 8 * content.length
  · rw [if_pos inside, reader.inside address size positive inside, bitsRead, stream_slice,
      range_range _ (by omega)]
    congr 2
    omega
  · rw [if_neg inside]
    obtain ⟨failure, raised⟩ | ⟨shift, data, missing⟩ :=
      reader.outside address size positive (Nat.not_le.mp inside)
    · rw [raised]
      rfl
    · rw [missing]
      rfl

theorem StringInputStream.reader (stream : StringInputStream) :
    ByteReader stream.data stream.read where
  inside _ _ _ inside := read_eq inside
  outside address size positive past := by
    left
    have bytes : (size + address % 8 + 7) >>> 3 = (size + address % 8 + 7) / 8 :=
      Nat.shiftRight_eq_div_pow _ 3
    refine ⟨_, if_pos ?_⟩
    rw [bytes, slice, List.length_take, List.length_drop]
    omega

/-! `InputSubStream` -/

structure InputSubStream where
  offset : Nat
  size : Nat
  positive : 0 < size

/-- The constructor, for a stream whose size is known. -/
def InputSubStream.new (streamSize : Nat) (offset : Option Nat) (size : Option Int) :
    Except Failure InputSubStream :=
  let offset := offset.getD 0
  let size := size.getD (streamSize - offset)
  if positive : 0 < size.toNat then .ok ⟨offset, size.toNat, positive⟩ else .error .valueError

def InputSubStream.read (stream : InputSubStream) (parent : Reader) : Reader :=
  fun address size => parent (stream.offset + address) size

/-- Sub-streams of sub-streams, the last one first. -/
def nestedRead (parent : Reader) : List InputSubStream → Reader
  | [] => parent
  | stream :: streams => stream.read (nestedRead parent streams)

/-- The window of the last sub-stream, cut out of those of the others. -/
def window (string : List Bool) : List InputSubStream → List Bool
  | [] => string
  | stream :: streams => range (window string streams) stream.offset stream.size

/-- Where the window begins. -/
def windowOffset (streams : List InputSubStream) : Nat :=
  (streams.map InputSubStream.offset).sum

theorem nestedRead_eq (parent : Reader) (streams : List InputSubStream) (address size : Nat) :
    nestedRead parent streams address size = parent (windowOffset streams + address) size := by
  induction streams generalizing address with
  | nil => rw [windowOffset, List.map_nil, List.sum_nil, Nat.zero_add]; rfl
  | cons stream streams induction =>
      rw [nestedRead, InputSubStream.read, induction, windowOffset, windowOffset, List.map_cons,
        List.sum_cons]
      congr 1
      omega

/-- The bits of the window are bits of the string. -/
theorem window_inside (string : List Bool) (streams : List InputSubStream) {address size : Nat}
    (positive : 0 < size) (inside : address + size ≤ (window string streams).length) :
    windowOffset streams + address + size ≤ string.length ∧
      range (window string streams) address size =
        range string (windowOffset streams + address) size := by
  induction streams generalizing address with
  | nil =>
      rw [windowOffset, List.map_nil, List.sum_nil, Nat.zero_add]
      exact ⟨inside, rfl⟩
  | cons stream streams induction =>
      have bound := inside
      rw [window, range, List.length_take, List.length_drop] at bound
      obtain ⟨within, same⟩ := @induction (stream.offset + address) (by omega)
      have offset : windowOffset (stream :: streams) =
          stream.offset + windowOffset streams := by
        rw [windowOffset, List.map_cons, List.sum_cons, windowOffset]
      refine ⟨by omega, ?_⟩
      rw [window, range_range _ (by omega), same, offset]
      congr 1
      omega

/-- A read of the sub-stream gives what a stream of just the bits of its window gives. -/
def Confined (order : Order) (content : List UInt8) (read : Reader) (streams : List InputSubStream)
    (address size : Nat) : Prop :=
  bitsRead order size (nestedRead read streams address size) =
    bitsAt (window (stream order content) streams) address size

instance (order : Order) (content : List UInt8) (read : Reader) (streams : List InputSubStream)
    (address size : Nat) : Decidable (Confined order content read streams address size) :=
  inferInstanceAs (Decidable (_ = _))

section Confined

variable {content : List UInt8} {read : Reader} (reader : ByteReader content read) (order : Order)
  (streams : List InputSubStream) (address : Nat) {size : Nat} (positive : 0 < size)
include reader positive

theorem confined_of_inside
    (inside : address + size ≤ (window (stream order content) streams).length) :
    Confined order content read streams address size := by
  obtain ⟨within, same⟩ := window_inside _ streams positive inside
  rw [Confined, nestedRead_eq, reader.bits order _ positive, bitsAt, bitsAt, if_pos inside,
    if_pos within, same]

theorem confined_of_past
    (past : 8 * content.length < windowOffset streams + address + size) :
    Confined order content read streams address size := by
  have outside : ¬ address + size ≤ (window (stream order content) streams).length := by
    intro inside
    have within := (window_inside _ streams positive inside).1
    rw [length_stream] at within
    omega
  rw [Confined, nestedRead_eq, reader.bits order _ positive, bitsAt, bitsAt, length_stream,
    if_neg outside, if_neg (Nat.not_le.mpr past)]

end Confined

end Segvault.Hachoir
