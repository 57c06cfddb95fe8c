import Segvault.Hachoir.CopyOut

namespace Segvault.Hachoir

open BitString

/-! `long2raw` and `str2long` the one after the other. -/

/-- `long2raw(str2long(s, e), e, len(s)) == s`. -/
def RawRoundTrips (endian : Endian) (data : List UInt8) : Prop :=
  ∃ value : Nat, str2long data endian = .ok value ∧
    long2raw value endian data.length = .ok data

/-- `str2long(long2raw(v, e, n), e) == v`. -/
def LongRoundTrips (endian : Endian) (value size : Nat) : Prop :=
  ∃ data, long2raw value endian size = .ok data ∧ str2long data endian = .ok value

theorem long2raw_middleEndian (value size : Nat) :
    long2raw value .middleEndian size = .error .typeError := by
  rw [long2raw, if_neg (by omega)]

/-- The bytes of a number that fits: as many as were asked for, and its bits. -/
theorem long2raw_bytes {endian : Endian} (standard : endian ≠ .middleEndian)
    {value size : Nat} (fits : value < 256 ^ size) :
    ∃ raw : List UInt8, long2raw value endian size = .ok raw ∧ raw.length = size ∧
      stream endian.order raw = encode endian.order (8 * size) value := by
  have fits' : (value : Int) < 256 ^ size := by exact_mod_cast fits
  obtain ⟨raw, written, bits⟩ := long2raw_fits standard (Int.natCast_nonneg value) fits'
  have length := congrArg List.length bits
  rw [length_stream, length_encode] at length
  exact ⟨raw, written, by omega, bits⟩

theorem pow_bits (size : Nat) : 256 ^ size = 2 ^ (8 * size) := by
  rw [pow_mul]
  rfl

theorem rawRoundTrips_of_standard {endian : Endian} (standard : endian ≠ .middleEndian)
    {data : List UInt8} (nonempty : 1 ≤ data.length) (short : data.length ≤ 32) :
    RawRoundTrips endian data := by
  have bound := decode_lt endian.order (stream endian.order data)
  rw [length_stream, ← pow_bits] at bound
  obtain ⟨raw, written, -, bits⟩ := long2raw_bytes standard bound
  refine ⟨_, str2long_eq standard nonempty short, ?_⟩
  rw [← length_stream endian.order, encode_decode] at bits
  rw [written, stream_injective _ bits]

theorem longRoundTrips_of_standard {endian : Endian} (standard : endian ≠ .middleEndian)
    {value size : Nat} (positive : 1 ≤ size) (short : size ≤ 32)
    (fits : value < 256 ^ size) : LongRoundTrips endian value size := by
  obtain ⟨raw, written, length, bits⟩ := long2raw_bytes standard fits
  refine ⟨raw, written, ?_⟩
  rw [str2long_eq standard (by omega) (by omega), bits, decode_encode, ← pow_bits,
    Nat.mod_eq_of_lt fits]

/-- The two are inverse in the orders other than MIDDLE_ENDIAN, where long2raw raises. -/
theorem long2raw_str2long_iff (endian : Endian) {data : List UInt8}
    (nonempty : 1 ≤ data.length) (short : data.length ≤ 32) {value size : Nat}
    (positive : 1 ≤ size) (bounded : size ≤ 32) (fits : value < 256 ^ size) :
    (RawRoundTrips endian data ↔ endian ≠ .middleEndian) ∧
      (LongRoundTrips endian value size ↔ endian ≠ .middleEndian) := by
  refine ⟨⟨?_, fun standard => rawRoundTrips_of_standard standard nonempty short⟩,
    ⟨?_, fun standard => longRoundTrips_of_standard standard positive bounded fits⟩⟩
  · rintro ⟨number, -, written⟩ rfl
    rw [long2raw_middleEndian] at written
    cases written
  · rintro ⟨raw, written, -⟩ rfl
    rw [long2raw_middleEndian] at written
    cases written

theorem long2raw_str2long_iff_word :
    (RawRoundTrips .middleEndian [0x0b, 0x0a] ↔ Endian.middleEndian ≠ .middleEndian) ∧
      (LongRoundTrips .middleEndian 0x0a0b 2 ↔ Endian.middleEndian ≠ .middleEndian) :=
  long2raw_str2long_iff .middleEndian (by decide) (by decide) (by decide) (by decide)
    (by decide)

theorem long2raw_str2long_fails :
    ¬ RawRoundTrips .middleEndian [0x0b, 0x0a] ∧ ¬ LongRoundTrips .middleEndian 0x0a0b 2 := by
  constructor
  · rintro ⟨number, -, written⟩
    rw [long2raw_middleEndian] at written
    cases written
  · rintro ⟨raw, written, -⟩
    rw [long2raw_middleEndian] at written
    cases written

/-! `readInteger`. -/

def InputStream.readInteger {m : Type → Type} [Monad m] [MonadExceptOf Failure m]
    (read : Nat → Nat → m Chunk) (address : Nat) (signed : Bool) (nbits : Nat)
    (endian : Endian) : m Int := do
  let value ← InputStream.readBits read address nbits endian
  if signed then
    if nbits = 0 then throw .valueError
    if 1 <<< (nbits - 1) ≤ value then return (value : Int) - (1 <<< nbits : Nat)
  return value

def StringInputStream.readInteger (stream : StringInputStream) (address : Nat)
    (signed : Bool) (nbits : Nat) (endian : Endian) : Except Failure Int :=
  InputStream.readInteger stream.read address signed nbits endian

theorem StringInputStream.readInteger_unsigned {stream : StringInputStream}
    {address nbits value : Nat} {endian : Endian}
    (bits : stream.readBits address nbits endian = .ok value) :
    stream.readInteger address false nbits endian = .ok value := by
  rw [StringInputStream.readBits] at bits
  rw [StringInputStream.readInteger, InputStream.readInteger, bits]
  rfl

/-- What readInteger gives for what writeInteger wrote at the end of `out`, with any bytes
written after it. -/
def IntegerRoundTrips (out : OutputStream) (value : Int) (signed : Bool) (size : Nat)
    (endian : Endian) (rest : List UInt8) : Prop :=
  ∃ next, out.writeInteger value signed size endian = .ok next ∧
    StringInputStream.readInteger ⟨next.output ++ rest⟩ (8 * out.output.length) signed
      (8 * size) endian = .ok value

theorem writeInteger_readInteger {endian : Endian} (standard : endian ≠ .middleEndian)
    {out : OutputStream} (aligned : out.bitPos = 0) {value size : Nat}
    (positive : 1 ≤ size) (short : size ≤ 32) (fits : value < 256 ^ size)
    (rest : List UInt8) : IntegerRoundTrips out value false size endian rest := by
  obtain ⟨raw, written, length, bits⟩ := long2raw_bytes standard fits
  refine ⟨{ out with output := out.output ++ raw }, ?_, ?_⟩
  · rw [OutputStream.writeInteger, if_neg (by decide), written]
    exact if_neg (not_not_intro aligned)
  · have place : range (stream endian.order (out.output ++ raw ++ rest))
        (8 * out.output.length) (8 * size) = stream endian.order raw := by
      rw [stream_append, stream_append, List.append_assoc, range,
        List.drop_left' (length_stream _ _), List.take_left' (by rw [length_stream, length])]
    refine StringInputStream.readInteger_unsigned ?_
    rw [readBits_eq standard (by simp only [List.length_append]; omega) (by omega)
      (by omega), place, bits, decode_encode, ← pow_bits, Nat.mod_eq_of_lt fits]

theorem writeInteger_readInteger_word :
    IntegerRoundTrips .empty 0xff14 false 2 .littleEndian [] :=
  @writeInteger_readInteger _ (by decide) _ rfl 0xff14 2 (by decide) (by decide) (by decide) []

theorem IntegerRoundTrips.reads {out : OutputStream} {value : Int} {signed : Bool}
    {size : Nat} {endian : Endian} {rest : List UInt8} {next : OutputStream}
    (holds : IntegerRoundTrips out value signed size endian rest)
    (written : out.writeInteger value signed size endian = .ok next) :
    StringInputStream.readInteger ⟨next.output ++ rest⟩ (8 * out.output.length) signed
      (8 * size) endian = .ok value := by
  obtain ⟨other, again, read⟩ := holds
  cases again.symm.trans written
  exact read

/-- 33 bytes are more than str2long takes, and a signed number is written with half of the
range added to it. -/
theorem writeInteger_readInteger_fails :
    ¬ IntegerRoundTrips .empty 0 false 33 .bigEndian [] ∧
      ¬ IntegerRoundTrips .empty 0 true 1 .bigEndian [] := by
  constructor
  · intro holds
    have written : OutputStream.empty.writeInteger 0 false 33 .bigEndian =
        .ok ⟨List.replicate 33 0, 0, 0⟩ := by decide
    exact absurd (holds.reads written) (by decide)
  · intro holds
    have written : OutputStream.empty.writeInteger 0 true 1 .bigEndian =
        .ok ⟨[128], 0, 0⟩ := by decide
    exact absurd (holds.reads written) (by decide)

end Segvault.Hachoir
