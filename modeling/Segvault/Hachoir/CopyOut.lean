import Mathlib.Data.Nat.Digits.Lemmas
import Segvault.BitPatch
import Segvault.Hachoir.InputStream

namespace Segvault.Hachoir

open BitString

/-! `long2raw`, and what an output stream writes besides single bits. -/

def long2raw (value : Int) (endian : Endian) (size : Nat) : Except Failure (List UInt8) :=
  if value < 0 then .error .assertionError
  else
    let text := (Nat.digits 256 value.toNat).map UInt8.ofNat
    let need := List.replicate (size - text.length) 0
    match endian with
    | .littleEndian => .ok (text ++ need)
    | .bigEndian => .ok (need ++ text.reverse)
    -- `arrswapmid` asks the length of an iterator
    | .middleEndian => .error .typeError

namespace OutputStream

def writeBytes (out : OutputStream) (bytes : List UInt8) : Except Failure OutputStream :=
  if out.bitPos ≠ 0 then .error .notImplementedError
  else .ok { out with output := out.output ++ bytes }

def writeInteger (out : OutputStream) (value : Int) (signed : Bool) (sizeByte : Nat)
    (endian : Endian) : Except Failure OutputStream := do
  let value := if signed then value + 2 ^ (sizeByte * 8 - 1) else value
  let raw ← long2raw value endian sizeByte
  out.writeBytes raw

def copyBytesLoop (stream : StringInputStream) (out : OutputStream) (address nbBytes : Nat) :
    Except Failure OutputStream :=
  if 0 < nbBytes then do
    let bufferSize := min nbBytes (1 <<< 12)
    let data ← stream.readBytes address bufferSize
    let out ← out.writeBytes data
    copyBytesLoop stream out (address + bufferSize * 8) (nbBytes - bufferSize)
  else .ok out
termination_by nbBytes

def bitGranularity : String :=
  "Unable to copy bytes with address with bit granularity"

def copyBytesFrom (out : OutputStream) (stream : StringInputStream)
    (address nbBytes : Nat) : Except Failure OutputStream :=
  if address % 8 ≠ 0 then .error (.outputStreamError bitGranularity)
  else copyBytesLoop stream out address nbBytes

def copyBitsFrom (out : OutputStream) (stream : StringInputStream)
    (address nbBits : Nat) (endian : Endian) : Except Failure OutputStream :=
  if nbBits % 8 = 0 then out.copyBytesFrom stream address (nbBits / 8)
  else if nbBits ≤ 128 then do
    let data ← stream.readBits address nbBits endian
    out.writeBits nbBits data endian
  else .error .assertionError

end OutputStream

/-! The bytes of a number. -/

theorem stream_of_ofLittleEndian {raw : List UInt8} {value : Nat}
    (holds : Bytes.ofLittleEndian raw = value) :
    stream .lowFirst raw = encode .lowFirst (8 * raw.length) value ∧
      stream .highFirst raw.reverse = encode .highFirst (8 * raw.length) value := by
  constructor
  · rw [← holds, ← decode_stream_lowFirst, ← length_stream .lowFirst, encode_decode]
  · have round := encode_decode .highFirst (stream .highFirst raw.reverse)
    rw [decode_stream_highFirst, Bytes.ofBigEndian, List.reverse_reverse, holds,
      length_stream, List.length_reverse] at round
    exact round.symm

theorem long2raw_fits {endian : Endian} (standard : endian ≠ .middleEndian) {value : Int}
    (positive : 0 ≤ value) {size : Nat} (fits : value < 256 ^ size) :
    ∃ raw, long2raw value endian size = .ok raw ∧
      stream endian.order raw = encode endian.order (8 * size) value.toNat := by
  have short : (Nat.digits 256 value.toNat).length ≤ size := by
    rw [Nat.digits_length_le_iff (by decide)]
    exact (Int.toNat_lt positive).mpr (by exact_mod_cast fits)
  have both := stream_of_ofLittleEndian (Bytes.ofLittleEndian_digits value.toNat
    (size - ((Nat.digits 256 value.toNat).map UInt8.ofNat).length))
  have length : ((Nat.digits 256 value.toNat).map UInt8.ofNat ++
      List.replicate (size - ((Nat.digits 256 value.toNat).map UInt8.ofNat).length) 0).length =
        size := by
    rw [List.length_append, List.length_replicate, List.length_map]
    omega
  rw [length, List.reverse_append, List.reverse_replicate] at both
  rw [long2raw, if_neg (by omega)]
  cases endian with
  | littleEndian => exact ⟨_, rfl, both.1⟩
  | bigEndian => exact ⟨_, rfl, both.2⟩
  | middleEndian => exact absurd rfl standard

theorem long2raw_long {endian : Endian} {value : Int} {size : Nat}
    (long : 256 ^ size ≤ value) {raw : List UInt8}
    (result : long2raw value endian size = .ok raw) : size < raw.length := by
  have positive : 0 ≤ value := le_trans (by positivity) long
  have digits : size < (Nat.digits 256 value.toNat).length := by
    rw [Nat.lt_digits_length_iff (by decide)]
    exact (Int.le_toNat positive).mpr (by exact_mod_cast long)
  rw [long2raw] at result
  split at result
  · cases result
  · cases endian with
    | littleEndian =>
        cases result
        rw [List.length_append, List.length_map]
        omega
    | bigEndian =>
        cases result
        rw [List.length_append, List.length_reverse, List.length_map]
        omega
    | middleEndian => cases result

/-! Whole bytes in and out. -/

variable {order : Order} {out : OutputStream}

/-- On a byte boundary a stream holds the same in both orders. -/
theorem OutputStream.WellFormed.reorder (wellFormed : out.WellFormed order)
    (aligned : out.bitPos = 0) (other : Order) : out.WellFormed other := by
  have none : ∀ order, out.pending order = [] := fun order => by
    rw [OutputStream.pending, aligned, List.take_zero]
  have zero := wellFormed.byte_eq
  rw [none, List.nil_append, decode_zeros] at zero
  refine ⟨wellFormed.bitPos_lt, ?_⟩
  rw [none, List.nil_append, decode_zeros, zero]

theorem writeBytes_spec (wellFormed : out.WellFormed order) (aligned : out.bitPos = 0)
    (bytes : List UInt8) :
    Writes order (out.writeBytes bytes) (out.content order ++ stream order bytes) := by
  have written : ({ out with output := out.output ++ bytes } : OutputStream).WellFormed
      order := ⟨wellFormed.bitPos_lt, wellFormed.byte_eq⟩
  refine ⟨_, if_neg (not_not_intro aligned), written, ?_⟩
  rw [written.content_aligned aligned, wellFormed.content_aligned aligned, stream_append]

theorem writeBytes_unaligned (unaligned : out.bitPos ≠ 0) (bytes : List UInt8) :
    out.writeBytes bytes = .error .notImplementedError :=
  if_pos unaligned

theorem readBytes_eq {stream : StringInputStream} {address nbBytes : Nat}
    (aligned : address % 8 = 0) (inside : address + 8 * nbBytes ≤ 8 * stream.data.length) :
    stream.readBytes address nbBytes = .ok (slice stream.data (address / 8) nbBytes) := by
  have count : (8 * nbBytes + 0 + 7) / 8 = nbBytes := by omega
  rw [StringInputStream.readBytes, InputStream.readBytes, read_eq inside, aligned, count]
  rfl

variable {stream : StringInputStream} {address : Nat}

theorem copyBytesLoop_spec (wellFormed : out.WellFormed order) (outAligned : out.bitPos = 0)
    (aligned : address % 8 = 0) {nbBytes : Nat}
    (inside : address + 8 * nbBytes ≤ 8 * stream.data.length) :
    Writes order (OutputStream.copyBytesLoop stream out address nbBytes)
      (out.content order ++ range (BitString.stream order stream.data) address
        (8 * nbBytes)) := by
  induction nbBytes using Nat.strongRecOn generalizing out address with
  | ind nbBytes induction =>
      rw [OutputStream.copyBytesLoop]
      split
      · next more =>
          have some : 0 < min nbBytes (1 <<< 12) := by
            rw [Nat.lt_min]
            exact ⟨more, by decide⟩
          have few : min nbBytes (1 <<< 12) ≤ nbBytes := Nat.min_le_left ..
          generalize min nbBytes (1 <<< 12) = bufferSize at some few
          have place : 8 * (address / 8) = address := by omega
          obtain ⟨next, written, nextWellFormed, content⟩ :=
            writeBytes_spec wellFormed outAligned (slice stream.data (address / 8) bufferSize)
          have nextAligned : next.bitPos = 0 := by
            rw [OutputStream.writeBytes, if_neg (not_not_intro outAligned)] at written
            cases written
            exact outAligned
          obtain ⟨last, copied, lastWellFormed, whole⟩ :=
            @induction (nbBytes - bufferSize) (by omega) next (address + bufferSize * 8)
              nextWellFormed nextAligned (by omega) (by omega)
          refine ⟨last, ?_, lastWellFormed, ?_⟩
          · simp only [readBytes_eq aligned (by omega :
              address + 8 * bufferSize ≤ 8 * stream.data.length), bind, Except.bind, written,
              copied]
          · rw [whole, content, stream_slice, place, List.append_assoc,
              Nat.mul_comm bufferSize, range_append, Nat.mul_sub,
              Nat.add_sub_cancel' (Nat.mul_le_mul_left 8 few)]
      · next none =>
          refine ⟨out, rfl, wellFormed, ?_⟩
          rw [Nat.eq_zero_of_not_pos none, Nat.mul_zero, range, List.take_zero,
            List.append_nil]

theorem copyBytesLoop_unaligned (unaligned : out.bitPos ≠ 0) (aligned : address % 8 = 0)
    {nbBytes : Nat} (positive : 0 < nbBytes)
    (inside : address + 8 * nbBytes ≤ 8 * stream.data.length) :
    OutputStream.copyBytesLoop stream out address nbBytes = .error .notImplementedError := by
  have few : min nbBytes (1 <<< 12) ≤ nbBytes := Nat.min_le_left ..
  rw [OutputStream.copyBytesLoop, if_pos positive]
  simp only [readBytes_eq aligned (by omega :
    address + 8 * min nbBytes (1 <<< 12) ≤ 8 * stream.data.length), bind, Except.bind,
    writeBytes_unaligned unaligned]

end Segvault.Hachoir
