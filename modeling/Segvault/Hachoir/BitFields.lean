import Segvault.Hachoir.InputStream

namespace Segvault.Hachoir

open BitString

/-! A sequence of integers written with `writeBits` and read with `readBits`. -/

structure BitField where
  count : Nat
  value : Nat
  deriving DecidableEq, Repr

def writeFields (endian : Endian) :
    List BitField → OutputStream → Except Failure OutputStream
  | [], out => .ok out
  | field :: fields, out => do
      let out ← out.writeBits field.count field.value endian
      writeFields endian fields out

def padByte (endian : Endian) (out : OutputStream) : Except Failure OutputStream :=
  if out.bitPos = 0 then .ok out else out.writeBits (8 - out.bitPos) 0 endian

def readFields (endian : Endian) (data : List UInt8) :
    Nat → List Nat → Except Failure (List Nat)
  | _, [] => .ok []
  | address, count :: counts => do
      let stream ← StringInputStream.new data
      let value ← stream.readBits address count endian
      let values ← readFields endian data (address + count) counts
      .ok (value :: values)

def encodeFields (order : Order) (fields : List BitField) : List Bool :=
  fields.flatMap fun field => encode order field.count field.value

theorem writeFields_spec {endian : Endian} (standard : endian ≠ .middleEndian)
    {fields : List BitField} (fit : ∀ field ∈ fields, field.value < 2 ^ field.count)
    {out : OutputStream} (wellFormed : out.WellFormed endian.order) :
    Writes endian.order (writeFields endian fields out)
      (out.content endian.order ++ encodeFields endian.order fields) := by
  induction fields generalizing out with
  | nil =>
      refine ⟨out, rfl, wellFormed, ?_⟩
      rw [encodeFields, List.flatMap_nil, List.append_nil]
  | cons field fields induction =>
      obtain ⟨next, written, nextWellFormed, content⟩ :=
        writeBits_spec standard wellFormed (fit field (List.mem_cons_self ..))
      obtain ⟨last, rest, lastWellFormed, whole⟩ :=
        induction (fun other member => fit other (List.mem_cons_of_mem _ member))
          nextWellFormed
      refine ⟨last, ?_, lastWellFormed, ?_⟩
      · rw [writeFields, written]
        exact rest
      · rw [whole, content, List.append_assoc, encodeFields, encodeFields,
          List.flatMap_cons]

theorem padByte_spec {endian : Endian} (standard : endian ≠ .middleEndian)
    {out : OutputStream} (wellFormed : out.WellFormed endian.order) :
    ∃ padded padding, padByte endian out = .ok padded ∧ padded.bitPos = 0 ∧
      stream endian.order padded.output = out.content endian.order ++ padding := by
  unfold padByte
  by_cases aligned : out.bitPos = 0
  · rw [if_pos aligned]
    refine ⟨out, [], rfl, aligned, ?_⟩
    rw [wellFormed.content_aligned aligned, List.append_nil]
  · have short := wellFormed.bitPos_lt
    obtain ⟨padded, written, paddedWellFormed, content⟩ :=
      writeBits_spec standard wellFormed (Nat.two_pow_pos (8 - out.bitPos))
    have length := congrArg List.length content
    rw [List.length_append, length_encode, wellFormed.length_content,
      paddedWellFormed.length_content] at length
    have paddedShort := paddedWellFormed.bitPos_lt
    have full : padded.bitPos = 0 := by omega
    rw [if_neg aligned]
    refine ⟨padded, encode endian.order (8 - out.bitPos) 0, written, full, ?_⟩
    rw [← paddedWellFormed.content_aligned full, content]

/-- Reading the bits that lie between two known parts of a stream. -/
theorem readBits_between {endian : Endian} (standard : endian ≠ .middleEndian)
    {data : List UInt8} {before string after : List Bool} {count : Nat}
    (content : stream endian.order data = before ++ string ++ after)
    (length : string.length = count) (positive : 0 < count) (narrow : count ≤ 248) :
    StringInputStream.readBits ⟨data⟩ before.length count endian =
      .ok (decode endian.order string) := by
  have whole := congrArg List.length content
  rw [length_stream] at whole
  simp only [List.length_append] at whole
  have inside : before.length + count ≤ 8 * data.length := by omega
  have piece : range (stream endian.order data) before.length count = string := by
    rw [range, content, List.append_assoc, List.drop_left,
      List.take_append_of_le_length (by omega), List.take_of_length_le (by omega)]
  rw [← piece]
  exact readBits_eq standard inside positive (by show before.length % 8 + count ≤ 256; omega)

/-- Bits that are read lie in the stream. -/
theorem inside_of_readBits {endian : Endian} (standard : endian ≠ .middleEndian)
    {stream : StringInputStream} {address count value : Nat}
    (read : stream.readBits address count endian = .ok value) (positive : 0 < count) :
    address + count ≤ 8 * stream.data.length := by
  unfold StringInputStream.readBits InputStream.readBits at read
  rw [if_neg standard] at read
  cases chunk : stream.read address count with
  | error failure =>
      rw [chunk] at read
      cases read
  | ok found =>
      unfold StringInputStream.read at chunk
      dsimp only at chunk
      split at chunk
      · cases chunk
      · next got =>
          rw [not_not, slice, List.length_take, List.length_drop,
            Nat.shiftRight_eq_div_pow] at got
          omega

/-- Where the low bits come first, fewer bits are the remainder of more. -/
theorem readBits_fewer {stream : StringInputStream} {address fewer more low value : Nat}
    (short : stream.readBits address fewer .littleEndian = .ok low)
    (long : stream.readBits address more .littleEndian = .ok value)
    (positive : 0 < fewer) (le : fewer ≤ more) (narrow : more ≤ 248) :
    value % 2 ^ fewer = low := by
  have inside := inside_of_readBits (by decide) long (by omega)
  have length : (BitString.stream .lowFirst stream.data).length = 8 * stream.data.length :=
    length_stream ..
  rw [readBits_eq (by decide) (by omega) positive (by omega), Except.ok.injEq,
    Endian.order, decode_range_lowFirst (by omega)] at short
  rw [readBits_eq (by decide) inside (by omega) (by omega), Except.ok.injEq,
    Endian.order, decode_range_lowFirst (by omega)] at long
  rw [← short, ← long, Nat.mod_mod_of_dvd _ (Nat.pow_dvd_pow 2 le)]

theorem readFields_spec {endian : Endian} (standard : endian ≠ .middleEndian)
    {data : List UInt8} {fields : List BitField} {before after : List Bool}
    (positive : ∀ field ∈ fields, 0 < field.count)
    (narrow : ∀ field ∈ fields, field.count ≤ 248)
    (fit : ∀ field ∈ fields, field.value < 2 ^ field.count)
    (content : stream endian.order data =
      before ++ encodeFields endian.order fields ++ after) :
    readFields endian data before.length (fields.map BitField.count) =
      .ok (fields.map BitField.value) := by
  induction fields generalizing before with
  | nil => rfl
  | cons field fields induction =>
      have here := List.mem_cons_self (a := field) (l := fields)
      have split : stream endian.order data =
          before ++ encode endian.order field.count field.value ++
            encodeFields endian.order fields ++ after := by
        rw [content, encodeFields, List.flatMap_cons]
        simp only [List.append_assoc]
        rfl
      have rest := @induction (before ++ encode endian.order field.count field.value)
        (fun other member => positive other (List.mem_cons_of_mem _ member))
        (fun other member => narrow other (List.mem_cons_of_mem _ member))
        (fun other member => fit other (List.mem_cons_of_mem _ member)) split
      have positions : before.length + field.count =
          (before ++ encode endian.order field.count field.value).length := by
        rw [List.length_append, length_encode]
      have nonempty : data ≠ [] := by
        rintro rfl
        have length := congrArg List.length split
        simp only [length_stream, List.length_append, length_encode,
          List.length_nil] at length
        have small := positive field here
        omega
      have read := readBits_between standard (split.trans (List.append_assoc ..))
        (length_encode endian.order field.count field.value) (positive field here)
        (narrow field here)
      rw [decode_encode, Nat.mod_eq_of_lt (fit field here)] at read
      rw [← positions] at rest
      rw [List.map_cons, List.map_cons, readFields, StringInputStream.new,
        if_neg nonempty]
      simp only [bind, Except.bind, read, rest]

/-! Reading the fields back gives their values. -/

theorem readFields_writeFields {endian : Endian} (standard : endian ≠ .middleEndian)
    (fields : List BitField)
    (counts : ∀ field ∈ fields, 1 ≤ field.count ∧ field.count ≤ 248)
    (fit : ∀ field ∈ fields, field.value < 2 ^ field.count) :
    ∃ out padded, writeFields endian fields .empty = .ok out ∧
      padByte endian out = .ok padded ∧ padded.bitPos = 0 ∧
      readFields endian padded.output 0 (fields.map BitField.count) =
        .ok (fields.map BitField.value) := by
  obtain ⟨out, written, wellFormed, content⟩ :=
    writeFields_spec standard fit (empty_wellFormed endian.order)
  obtain ⟨padded, padding, filled, aligned, whole⟩ := padByte_spec standard wellFormed
  rw [content, content_empty] at whole
  refine ⟨out, padded, written, filled, aligned, ?_⟩
  exact @readFields_spec endian standard _ fields [] padding
    (fun field member => (counts field member).1)
    (fun field member => (counts field member).2) fit whole

theorem readFields_writeFields_across_bytes :
    ∃ out padded,
      writeFields .littleEndian [⟨3, 5⟩, ⟨17, 0x1ABCD⟩, ⟨9, 300⟩] .empty = .ok out ∧
      padByte .littleEndian out = .ok padded ∧ padded.bitPos = 0 ∧
      readFields .littleEndian padded.output 0 [3, 17, 9] = .ok [5, 0x1ABCD, 300] :=
  readFields_writeFields (by decide) [⟨3, 5⟩, ⟨17, 0x1ABCD⟩, ⟨9, 300⟩]
    (by decide) (by decide)

end Segvault.Hachoir
