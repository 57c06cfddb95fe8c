import Segvault.Hachoir.RawNumbers

namespace Segvault.Hachoir

open BitString

/-! The integers of mkv.py: the leading zeros of the first byte count the bytes that follow. -/

inductive RawIntError
  | parserError (message : String)
  | stream (failure : Failure)
  deriving DecidableEq, Repr

namespace RawInt

/-- GenericInteger.createValue -/
def createValue (stream : StringInputStream) (absoluteAddress : Nat) (endian : Endian)
    (size : Nat) : Except RawIntError Int :=
  (stream.readInteger absoluteAddress false size endian).mapError .stream

def lengthen (size i : Nat) (positive : 0 < i) : Nat :=
  if i < 0x80 then
    lengthen (size + 8) (i <<< 1) (by rw [Nat.shiftLeft_eq]; omega)
  else size
termination_by 0x80 - i
decreasing_by rw [Nat.shiftLeft_eq]; omega

/-- The size of the field. -/
def new (stream : StringInputStream) (absoluteAddress : Nat) (endian : Endian) :
    Except RawIntError Nat := do
  let i ← createValue stream absoluteAddress endian 8
  if positive : 0 < i.toNat then .ok (lengthen 8 i.toNat positive)
  else .error (.parserError "Invalid integer length!")

end RawInt

def Unsigned.createValue (stream : StringInputStream) (absoluteAddress : Nat)
    (endian : Endian) (size : Nat) : Except RawIntError (Option Int) := do
  let header : Int := (1 <<< (size / 8 * 7) : Nat)
  let raw ← RawInt.createValue stream absoluteAddress endian size
  let value := raw - header
  if value + 1 = header then .ok none else .ok (some value)

def Signed.createValue (stream : StringInputStream) (absoluteAddress : Nat)
    (endian : Endian) (size : Nat) : Except RawIntError (Option Int) := do
  let header : Int := (1 <<< (size / 8 * 7 - 1) : Nat)
  let raw ← RawInt.createValue stream absoluteAddress endian size
  let value := raw - 3 * header + 1
  if value = header then .ok none else .ok (some value)

/-- A field: its size in bits and its value. -/
structure EbmlInteger where
  size : Nat
  value : Option Int
  deriving DecidableEq, Repr

def EbmlInteger.unsigned (stream : StringInputStream) (absoluteAddress : Nat)
    (endian : Endian) : Except RawIntError EbmlInteger := do
  let size ← RawInt.new stream absoluteAddress endian
  let value ← Unsigned.createValue stream absoluteAddress endian size
  .ok { size, value }

def EbmlInteger.signed (stream : StringInputStream) (absoluteAddress : Nat)
    (endian : Endian) : Except RawIntError EbmlInteger := do
  let size ← RawInt.new stream absoluteAddress endian
  let value ← Signed.createValue stream absoluteAddress endian size
  .ok { size, value }

/-! The encoding: `count - 1` zeros, a one, and the payload in seven bits for each byte. -/

def ebml (count payload : Nat) : List Bool :=
  List.replicate (count - 1) false ++ true :: encode .highFirst (7 * count) payload

/-- The bits of the stream at the address encode the payload in `count` bytes. -/
structure EbmlAt (stream : StringInputStream) (absoluteAddress count payload : Nat) : Prop where
  inside : absoluteAddress + 8 * count ≤ 8 * stream.data.length
  encoded : range (BitString.stream .highFirst stream.data) absoluteAddress (8 * count) =
    ebml count payload

instance (stream : StringInputStream) (absoluteAddress count payload : Nat) :
    Decidable (EbmlAt stream absoluteAddress count payload) :=
  decidable_of_iff (_ ∧ _) ⟨fun both => ⟨both.1, both.2⟩, fun both => ⟨both.inside, both.encoded⟩⟩

section

variable {stream : StringInputStream} {absoluteAddress count payload : Nat}

theorem length_ebml (positive : 1 ≤ count) : (ebml count payload).length = 8 * count := by
  simp only [ebml, List.length_append, List.length_replicate, List.length_cons, length_encode]
  omega

theorem decode_ebml (small : payload < 2 ^ (7 * count)) :
    decode .highFirst (ebml count payload) = 2 ^ (7 * count) + payload := by
  have marker : ebml count payload = (List.replicate (count - 1) false ++ [true]) ++
      encode .highFirst (7 * count) payload := by simp [ebml]
  rw [marker, decode_highFirst_append, decode_encode, Nat.mod_eq_of_lt small, length_encode,
    decode_highFirst_append, decode_zeros]
  simp [decode, Order.arrange, number, Nat.add_comm]

theorem EbmlAt.readValue (encoded : EbmlAt stream absoluteAddress count payload)
    (positive : 1 ≤ count) (short : count ≤ 8) (small : payload < 2 ^ (7 * count)) :
    RawInt.createValue stream absoluteAddress .bigEndian (8 * count) =
      .ok ((2 ^ (7 * count) + payload : Nat) : Int) := by
  have bits := @readBits_eq .bigEndian (by decide) stream absoluteAddress (8 * count)
    encoded.inside (by omega) (by omega)
  rw [Endian.order, encoded.encoded, decode_ebml small] at bits
  rw [RawInt.createValue, StringInputStream.readInteger_unsigned bits]
  rfl

/-- The first byte, whose leading zeros are those of the encoding. -/
theorem EbmlAt.firstByte (encoded : EbmlAt stream absoluteAddress count payload)
    (positive : 1 ≤ count) (small : payload < 2 ^ (7 * count)) :
    RawInt.createValue stream absoluteAddress .bigEndian 8 =
      .ok (((2 ^ (7 * count) + payload) / 2 ^ (8 * count - 8) : Nat) : Int) := by
  have inside := encoded.inside
  have bits := @readBits_eq .bigEndian (by decide) stream absoluteAddress 8 (by omega)
    (by omega) (by omega)
  have first : range (BitString.stream .highFirst stream.data) absoluteAddress 8 =
      range (ebml count payload) 0 8 := by
    rw [← encoded.encoded, range_range _ (by omega), Nat.add_zero]
  rw [Endian.order, first, decode_range_highFirst (by rw [length_ebml positive]; omega),
    length_ebml positive, decode_ebml small] at bits
  have byte : (2 ^ (7 * count) + payload) / 2 ^ (8 * count - 0 - 8) < 2 ^ 8 := by
    rw [Nat.div_lt_iff_lt_mul (Nat.two_pow_pos _), ← pow_add]
    calc 2 ^ (7 * count) + payload < 2 ^ (7 * count + 1) := by rw [pow_succ]; omega
      _ ≤ 2 ^ (8 + (8 * count - 0 - 8)) := Nat.pow_le_pow_right (by decide) (by omega)
  rw [Nat.mod_eq_of_lt byte] at bits
  rw [RawInt.createValue, StringInputStream.readInteger_unsigned bits]
  rfl

/-- Each shift of the loop adds a byte. -/
theorem RawInt.lengthen_eq {zeros i : Nat} (size : Nat) (positive : 0 < i)
    (low : 2 ^ 7 ≤ i * 2 ^ zeros) (high : i * 2 ^ zeros < 2 ^ 8) :
    lengthen size i positive = size + 8 * zeros := by
  induction zeros generalizing size i with
  | zero => rw [lengthen, if_neg (by omega)]; rfl
  | succ zeros induction =>
      have doubled : i <<< 1 * 2 ^ zeros = i * 2 ^ (zeros + 1) := by
        rw [Nat.shiftLeft_eq, pow_succ]
        ring
      have below : i < 0x80 := by
        have wide : i * 2 ≤ i * 2 ^ (zeros + 1) :=
          Nat.mul_le_mul_left i (Nat.le_self_pow (by omega) 2)
        omega
      rw [lengthen, if_pos below, induction _ _ (by omega) (by omega)]
      ring

theorem EbmlAt.new (encoded : EbmlAt stream absoluteAddress count payload)
    (positive : 1 ≤ count) (short : count ≤ 8) (small : payload < 2 ^ (7 * count)) :
    RawInt.new stream absoluteAddress .bigEndian = .ok (8 * count) := by
  have first := encoded.firstByte positive small
  generalize byte : (2 ^ (7 * count) + payload) / 2 ^ (8 * count - 8) = i at first
  have low : 2 ^ (8 - count) ≤ i := by
    rw [← byte, Nat.le_div_iff_mul_le (Nat.two_pow_pos _), ← pow_add,
      show 8 - count + (8 * count - 8) = 7 * count by omega]
    exact Nat.le_add_right _ _
  have high : i < 2 ^ (9 - count) := by
    rw [← byte, Nat.div_lt_iff_lt_mul (Nat.two_pow_pos _), ← pow_add,
      show 9 - count + (8 * count - 8) = 7 * count + 1 by omega, pow_succ]
    omega
  have low' : 2 ^ 7 ≤ i * 2 ^ (count - 1) := by
    have scaled := Nat.mul_le_mul_right (2 ^ (count - 1)) low
    rwa [← pow_add, show 8 - count + (count - 1) = 7 by omega] at scaled
  have high' : i * 2 ^ (count - 1) < 2 ^ 8 := by
    have scaled := Nat.mul_lt_mul_of_pos_right high (Nat.two_pow_pos (count - 1))
    rwa [← pow_add, show 9 - count + (count - 1) = 8 by omega] at scaled
  have nonzero : 0 < (i : Int).toNat := by
    have power := Nat.two_pow_pos (8 - count)
    omega
  rw [RawInt.new, first]
  simp only [bind, Except.bind, dif_pos nonzero]
  rw [RawInt.lengthen_eq 8 nonzero low' high']
  congr 1
  omega

/-- The payload, unless all its bits are ones. -/
theorem EbmlAt.unsigned (encoded : EbmlAt stream absoluteAddress count payload)
    (positive : 1 ≤ count) (short : count ≤ 8) (small : payload < 2 ^ (7 * count)) :
    EbmlInteger.unsigned stream absoluteAddress .bigEndian =
      .ok ⟨8 * count, if payload = 2 ^ (7 * count) - 1 then none else some payload⟩ := by
  have power := Nat.two_pow_pos (7 * count)
  have header : (1 <<< (8 * count / 8 * 7) : Nat) = 2 ^ (7 * count) := by
    rw [Nat.one_shiftLeft, Nat.mul_div_cancel_left count (by decide), Nat.mul_comm]
  rw [EbmlInteger.unsigned, encoded.new positive short small]
  simp only [bind, Except.bind, Unsigned.createValue, header,
    encoded.readValue positive short small]
  generalize 2 ^ (7 * count) = marker at *
  by_cases ones : payload = marker - 1
  · rw [if_pos (by omega), if_pos ones]
  · rw [if_neg (by omega), if_neg ones]
    simp

/-- The payload less the bias, unless all its bits are ones. -/
theorem EbmlAt.signed (encoded : EbmlAt stream absoluteAddress count payload)
    (positive : 1 ≤ count) (short : count ≤ 8) (small : payload < 2 ^ (7 * count)) :
    EbmlInteger.signed stream absoluteAddress .bigEndian =
      .ok ⟨8 * count, if payload = 2 ^ (7 * count) - 1 then none
        else some (payload - (2 ^ (7 * count - 1) - 1))⟩ := by
  have header : (1 <<< (8 * count / 8 * 7 - 1) : Nat) = 2 ^ (7 * count - 1) := by
    rw [Nat.one_shiftLeft, Nat.mul_div_cancel_left count (by decide), Nat.mul_comm]
  have marker : 2 ^ (7 * count) = 2 * 2 ^ (7 * count - 1) := by
    rw [← pow_succ', Nat.sub_add_cancel (by omega)]
  rw [EbmlInteger.signed, encoded.new positive short small]
  simp only [bind, Except.bind, Signed.createValue, header,
    encoded.readValue positive short small, marker]
  have half := Nat.two_pow_pos (7 * count - 1)
  have cast : (2 : Int) ^ (7 * count - 1) = ((2 ^ (7 * count - 1) : Nat) : Int) := by simp
  rw [cast]
  generalize 2 ^ (7 * count - 1) = bias at *
  by_cases ones : payload = 2 * bias - 1
  · rw [if_pos (by omega), if_pos ones]
  · rw [if_neg (by omega), if_neg ones]
    simp only [Except.ok.injEq, EbmlInteger.mk.injEq, Option.some.injEq, true_and]
    omega

end

/-- For every width, what is encoded is decoded, and the reserved pattern alone has no value. -/
theorem ebmlIntegers_decode (stream : StringInputStream) (absoluteAddress count : Nat)
    (positive : 1 ≤ count) (short : count ≤ 8) :
    (∀ v : Nat, v < 2 ^ (7 * count) - 1 → EbmlAt stream absoluteAddress count v →
      EbmlInteger.unsigned stream absoluteAddress .bigEndian = .ok ⟨8 * count, some v⟩) ∧
    (∀ v : Int, -(2 ^ (7 * count - 1) - 1) ≤ v → v < 2 ^ (7 * count - 1) →
      EbmlAt stream absoluteAddress count (v + 2 ^ (7 * count - 1) - 1).toNat →
      EbmlInteger.signed stream absoluteAddress .bigEndian = .ok ⟨8 * count, some v⟩) ∧
    (∀ payload < 2 ^ (7 * count), EbmlAt stream absoluteAddress count payload →
      ∃ first second,
        EbmlInteger.unsigned stream absoluteAddress .bigEndian = .ok ⟨8 * count, first⟩ ∧
        EbmlInteger.signed stream absoluteAddress .bigEndian = .ok ⟨8 * count, second⟩ ∧
        (first = none ↔ payload = 2 ^ (7 * count) - 1) ∧
        (second = none ↔ payload = 2 ^ (7 * count) - 1)) := by
  refine ⟨fun v below encoded => ?_, fun v low high encoded => ?_,
    fun payload below encoded => ⟨_, _, encoded.unsigned positive short below,
      encoded.signed positive short below, ?_, ?_⟩⟩
  · rw [encoded.unsigned positive short (by omega), if_neg (by omega)]
  · have marker : 2 ^ (7 * count) = 2 * 2 ^ (7 * count - 1) := by
      rw [← pow_succ', Nat.sub_add_cancel (by omega)]
    have half := Nat.two_pow_pos (7 * count - 1)
    have cast : (2 : Int) ^ (7 * count - 1) = ((2 ^ (7 * count - 1) : Nat) : Int) := by simp
    have below : (v + 2 ^ (7 * count - 1) - 1).toNat < 2 ^ (7 * count) - 1 := by
      rw [cast] at low high ⊢
      omega
    rw [encoded.signed positive short (by omega), if_neg (by omega)]
    rw [cast] at low high ⊢
    congr 3
    omega
  · split <;> simp [*]
  · split <;> simp [*]

/-- Two bytes: the payload 300, and the number -7891 with the bias 8191 added. -/
theorem ebmlIntegers_decode_two :
    EbmlInteger.unsigned ⟨[0x41, 0x2c]⟩ 0 .bigEndian = .ok ⟨16, some 300⟩ ∧
      EbmlInteger.signed ⟨[0x41, 0x2c]⟩ 0 .bigEndian = .ok ⟨16, some (-7891)⟩ :=
  have decodes := ebmlIntegers_decode ⟨[0x41, 0x2c]⟩ 0 2 (by decide) (by decide)
  ⟨decodes.1 300 (by decide) ⟨by decide, by decide⟩,
    decodes.2.1 (-7891) (by decide) (by decide) ⟨by decide, by decide⟩⟩

end Segvault.Hachoir
