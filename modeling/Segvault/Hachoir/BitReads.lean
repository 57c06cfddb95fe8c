import Segvault.Hachoir.InputStream

namespace Segvault.Hachoir

open BitString

/-! The two bytes of each 16-bit word exchanged, the last byte of an odd number left. -/

def swapWords : List UInt8 → List UInt8
  | first :: second :: rest => second :: first :: swapWords rest
  | short => short

@[simp] theorem length_swapWords (data : List UInt8) :
    (swapWords data).length = data.length := by
  induction data using swapWords.induct with
  | case1 first second rest induction => simp [swapWords, induction]
  | case2 short leftover => rw [swapWords.eq_2 _ leftover]

theorem strswapmid_eq {data : List UInt8} (words : data.length % 2 = 0) :
    strswapmid data = .ok (swapWords data) := by
  induction data using swapWords.induct with
  | case1 first second rest induction =>
      have fewer : rest.length % 2 = 0 := by
        simp only [List.length_cons] at words
        omega
      rw [strswapmid, induction fewer]
      rfl
  | case2 short leftover =>
      cases short with
      | nil => rfl
      | cons byte rest =>
          cases rest with
          | nil => simp at words
          | cons other rest => exact (leftover byte other rest rfl).elim

theorem swapWords_append {front : List UInt8} (words : front.length % 2 = 0)
    (back : List UInt8) :
    swapWords (front ++ back) = swapWords front ++ swapWords back := by
  induction front using swapWords.induct with
  | case1 first second rest induction =>
      have fewer : rest.length % 2 = 0 := by
        simp only [List.length_cons] at words
        omega
      simp [swapWords, induction fewer]
  | case2 short leftover =>
      cases short with
      | nil => rfl
      | cons byte rest =>
          cases rest with
          | nil => simp at words
          | cons other rest => exact (leftover byte other rest rfl).elim

/-- The words of a slice that begins and ends between words. -/
theorem swapWords_slice {data : List UInt8} {start size : Nat} (aligned : start % 2 = 0)
    (words : size % 2 = 0) (inside : start + size ≤ data.length) :
    swapWords (slice data start size) = slice (swapWords data) start size := by
  have before : (data.take start).length = start := by
    rw [List.length_take]
    omega
  have middle : (slice data start size).length = size := by
    rw [slice, List.length_take, List.length_drop]
    omega
  have parts : data = data.take start ++ (slice data start size ++
      (data.drop start).drop size) := by
    rw [slice, List.take_append_drop, List.take_append_drop]
  have swapped := congrArg swapWords parts
  rw [swapWords_append (by omega), swapWords_append (by omega)] at swapped
  rw [swapped, slice.eq_1 (_ ++ _), List.drop_left' (by rw [length_swapWords, before]),
    List.take_left' (by rw [length_swapWords, middle])]

/-! The bytes a read touches, and the bits it gives. -/

/-- The bytes that are read together: 16-bit words for MIDDLE_ENDIAN. -/
def Endian.unit : Endian → Nat
  | .middleEndian => 2
  | _ => 1

def Endian.arranged : Endian → List UInt8 → List UInt8
  | .middleEndian, data => swapWords data
  | _, data => data

@[simp] theorem Endian.length_arranged (endian : Endian) (data : List UInt8) :
    (endian.arranged data).length = data.length := by
  cases endian <;> simp [Endian.arranged]

def Endian.firstTouched (endian : Endian) (address : Nat) : Nat :=
  address / (8 * endian.unit) * endian.unit

def Endian.touched (endian : Endian) (address nbits : Nat) : Nat :=
  (address % (8 * endian.unit) + nbits + (8 * endian.unit - 1)) / (8 * endian.unit) *
    endian.unit

/-- The touched bytes lie in the data and are at most 32. -/
structure BitsReadable (data : List UInt8) (endian : Endian) (address nbits : Nat) : Prop where
  inside : endian.firstTouched address + endian.touched address nbits ≤ data.length
  short : endian.touched address nbits ≤ 32

variable {stream : StringInputStream} {endian : Endian} {address nbits : Nat}

theorem alignValue_eq (value : Nat) : alignValue value 16 = (value + 15) / 16 * 16 := by
  unfold alignValue
  split <;> omega

theorem BitsReadable.standard (standard : endian ≠ .middleEndian)
    (readable : BitsReadable stream.data endian address nbits) (positive : 0 < nbits) :
    stream.readBits address nbits endian =
      .ok (decode endian.order
        (range (BitString.stream endian.order (endian.arranged stream.data)) address nbits)) := by
  obtain ⟨inside, short⟩ := readable
  cases endian with
  | middleEndian => exact absurd rfl standard
  | _ =>
      simp only [Endian.firstTouched, Endian.touched, Endian.unit] at inside short
      exact readBits_eq standard (by omega) positive (by omega)

theorem str2long_middle {data : List UInt8} (nonempty : 1 ≤ data.length)
    (short : data.length ≤ 32) (words : data.length % 2 = 0) :
    str2long data .middleEndian =
      .ok (decode .highFirst (BitString.stream .highFirst (swapWords data))) := by
  unfold str2long
  rw [if_pos ⟨nonempty, short⟩, if_neg (fun both => both.1 rfl), decode_stream_highFirst]
  simp only [strswapmid_eq words, bind, Except.bind, addBytes_eq, Bytes.ofBigEndian]

theorem BitsReadable.middle (readable : BitsReadable stream.data .middleEndian address nbits)
    (positive : 0 < nbits) :
    stream.readBits address nbits .middleEndian =
      .ok (decode .highFirst
        (range (BitString.stream .highFirst (swapWords stream.data)) address nbits)) := by
  obtain ⟨inside, short⟩ := readable
  simp only [Endian.firstTouched, Endian.touched, Endian.unit] at inside short
  generalize counted : (address % 16 + nbits + 15) / 16 = words at inside short
  have size := Nat.div_add_mod (address % 16 + nbits + 15) 16
  have bounded := Nat.mod_lt (address % 16 + nbits + 15) (by decide : 0 < 16)
  rw [counted] at size
  have place := Nat.div_add_mod address 16
  have length : (slice stream.data (address / 16 * 2) (words * 2)).length = words * 2 := by
    rw [slice, List.length_take, List.length_drop]
    omega
  have chunk : stream.read (address / 16 * 16) (alignValue (address % 16 + nbits) 16) =
      .ok (0, slice stream.data (address / 16 * 2) (words * 2), false) := by
    rw [alignValue_eq, counted, read_eq (by omega)]
    have first : address / 16 * 16 / 8 = address / 16 * 2 := by omega
    have aligned : address / 16 * 16 % 8 = 0 := by omega
    have count : (words * 16 + 0 + 7) / 8 = words * 2 := by omega
    rw [aligned, first, count]
  have whole : (BitString.stream .highFirst
      (slice (swapWords stream.data) (address / 16 * 2) (words * 2))).length =
        8 * (words * 2) := by
    rw [← swapWords_slice (by omega) (by omega) (by omega), length_stream, length_swapWords,
      length]
  have taken : range (BitString.stream .highFirst (swapWords stream.data)) address nbits =
      range (BitString.stream .highFirst
        (slice (swapWords stream.data) (address / 16 * 2) (words * 2)))
        (address % 16) nbits := by
    have start : 8 * (address / 16 * 2) + address % 16 = address := by omega
    rw [stream_slice, range_range _ (by omega), start]
  rw [StringInputStream.readBits, InputStream.readBits, if_pos rfl]
  simp only [chunk, bind, Except.bind, pure, Except.pure, lift,
    @str2long_middle (slice stream.data (address / 16 * 2) (words * 2)) (by omega)
      (by omega) (by omega), mask_eq_mod]
  rw [taken, decode_range_highFirst (by omega), whole,
    swapWords_slice (by omega) (by omega) (by omega), length, Nat.mul_comm 8,
    if_neg (by decide : Endian.middleEndian ≠ .littleEndian), Nat.shiftRight_eq_div_pow]
  rfl

/-- Whatever the byte order, a read gives a range of one bit string. -/
theorem BitsReadable.readBits_eq (readable : BitsReadable stream.data endian address nbits)
    (positive : 0 < nbits) :
    stream.readBits address nbits endian =
      .ok (decode endian.order
        (range (BitString.stream endian.order (endian.arranged stream.data))
          address nbits)) := by
  by_cases middle : endian = .middleEndian
  · subst middle
    exact readable.middle positive
  · exact readable.standard middle positive

theorem BitsReadable.bits_inside (readable : BitsReadable stream.data endian address nbits) :
    address + nbits ≤ 8 * stream.data.length := by
  obtain ⟨inside, -⟩ := readable
  cases endian <;> simp only [Endian.firstTouched, Endian.touched, Endian.unit] at inside <;>
    omega

theorem BitsReadable.first {more : Nat}
    (readable : BitsReadable stream.data endian address (nbits + more)) :
    BitsReadable stream.data endian address nbits := by
  obtain ⟨inside, short⟩ := readable
  cases endian <;>
    simp only [Endian.firstTouched, Endian.touched, Endian.unit] at inside short <;>
    constructor <;> simp only [Endian.firstTouched, Endian.touched, Endian.unit] <;> omega

theorem BitsReadable.second {before : Nat}
    (readable : BitsReadable stream.data endian address (before + nbits)) :
    BitsReadable stream.data endian (address + before) nbits := by
  obtain ⟨inside, short⟩ := readable
  cases endian <;>
    simp only [Endian.firstTouched, Endian.touched, Endian.unit] at inside short <;>
    constructor <;> simp only [Endian.firstTouched, Endian.touched, Endian.unit] <;> omega

/-! Two reads in a row. -/

/-- The value of `n + m` bits from the value of the first `n` and that of the `m` others. -/
def Endian.join : Endian → Nat → Nat → Nat → Nat → Nat
  | .littleEndian, n, _, first, second => first ||| (second <<< n)
  | _, _, m, first, second => (first <<< m) ||| second

theorem decode_lowFirst_or (first second : List Bool) :
    decode .lowFirst (first ++ second) =
      decode .lowFirst first ||| (decode .lowFirst second <<< first.length) := by
  have small := decode_lt .lowFirst first
  rw [decode_lowFirst_append, Nat.or_comm, Nat.shiftLeft_eq, Nat.mul_comm _ (2 ^ _),
    ← Nat.two_pow_add_eq_or_of_lt small, Nat.add_comm]

theorem decode_highFirst_or (first second : List Bool) :
    decode .highFirst (first ++ second) =
      (decode .highFirst first <<< second.length) ||| decode .highFirst second := by
  have small := decode_lt .highFirst second
  rw [decode_highFirst_append, Nat.shiftLeft_eq, Nat.mul_comm _ (2 ^ _),
    ← Nat.two_pow_add_eq_or_of_lt small, Nat.add_comm]

theorem Endian.decode_append (endian : Endian) (first second : List Bool) :
    decode endian.order (first ++ second) =
      endian.join first.length second.length (decode endian.order first)
        (decode endian.order second) := by
  cases endian with
  | littleEndian => exact decode_lowFirst_or first second
  | bigEndian => exact decode_highFirst_or first second
  | middleEndian => exact decode_highFirst_or first second

theorem range_add (string : List Bool) (start first second : Nat) :
    range string start (first + second) =
      range string start first ++ range string (start + first) second := by
  rw [range, range, range, List.take_add, List.drop_drop]

/-- A read of `n + m` bits is the read of the first `n` joined with that of the `m` others. -/
theorem readBits_compose (stream : StringInputStream) (endian : Endian) (address n m : Nat)
    (some : 1 ≤ n) (others : 1 ≤ m)
    (readable : BitsReadable stream.data endian address (n + m)) :
    ∃ first second, stream.readBits address n endian = .ok first ∧
      stream.readBits (address + n) m endian = .ok second ∧
      stream.readBits address (n + m) endian = .ok (endian.join n m first second) := by
  refine ⟨_, _, readable.first.readBits_eq some, readable.second.readBits_eq others, ?_⟩
  have bounded := readable.bits_inside
  have whole : (BitString.stream endian.order (endian.arranged stream.data)).length =
      8 * stream.data.length := by
    rw [length_stream, Endian.length_arranged]
  have long : (range (BitString.stream endian.order (endian.arranged stream.data))
      address n).length = n := length_range (by omega)
  have longer : (range (BitString.stream endian.order (endian.arranged stream.data))
      (address + n) m).length = m := length_range (by omega)
  rw [readable.readBits_eq (by omega), range_add, endian.decode_append, long, longer]

theorem readBits_compose_middle :
    ∃ first second,
      StringInputStream.readBits ⟨[0x12, 0x34, 0x56, 0x78]⟩ 3 9 .middleEndian = .ok first ∧
      StringInputStream.readBits ⟨[0x12, 0x34, 0x56, 0x78]⟩ (3 + 9) 7 .middleEndian =
        .ok second ∧
      StringInputStream.readBits ⟨[0x12, 0x34, 0x56, 0x78]⟩ 3 (9 + 7) .middleEndian =
        .ok (Endian.join .middleEndian 9 7 first second) :=
  readBits_compose ⟨[0x12, 0x34, 0x56, 0x78]⟩ .middleEndian 3 9 7 (by decide) (by decide)
    ⟨by decide, by decide⟩

end Segvault.Hachoir
