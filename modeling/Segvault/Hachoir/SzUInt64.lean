import Segvault.Hachoir.BitFields
import Mathlib.Tactic.IntervalCases

namespace Segvault.Hachoir

open BitString

/-! The variable length integer of a 7z archive: the leading ones of its first
byte count the bytes that follow, and its remaining bits lie above them. -/

structure SzUInt64 where
  value : Nat
  size : Nat
  deriving DecidableEq, Repr

def SzUInt64.readFrom (stream : StringInputStream) (firstByte : Nat) :
    List Nat → Nat → Nat → Nat → Nat → Except Failure SzUInt64
  | [], _, _, value, size => .ok { value, size }
  | i :: rest, addr, mask, value, size =>
      let addr := addr + 8
      if firstByte &&& mask = 0 then
        .ok { value := value + ((firstByte &&& (mask - 1)) <<< (8 * i)), size }
      else do
        let byte ← stream.readBits addr 8 .littleEndian
        SzUInt64.readFrom stream firstByte rest addr (mask >>> 1)
          (value ||| byte <<< (8 * i)) (size + 8)

def SzUInt64.new (stream : StringInputStream) (absoluteAddress : Nat) :
    Except Failure SzUInt64 := do
  let firstByte ← stream.readBits absoluteAddress 8 .littleEndian
  SzUInt64.readFrom stream firstByte (List.range' 0 8) absoluteAddress 0x80 0 8

/-- The encodings of a value: `count` leading ones, then the top part of the
value in the bits after the first zero, then the low bytes. -/
structure SzUInt64.Encodes (count value : Nat) (bytes : List UInt8) : Prop where
  announced : count ≤ 8
  layout : ∃ high low, bytes = high :: low ∧ low.length = count ∧
    encode .highFirst 8 high.toNat =
      (List.replicate count true ++ false ::
        encode .highFirst (7 - count) (value / 2 ^ (8 * count))).take 8 ∧
    value / 2 ^ (8 * count) < 2 ^ (7 - count) ∧
    Bytes.ofLittleEndian low = value % 2 ^ (8 * count)

theorem decode_ones (count : Nat) :
    decode .highFirst (List.replicate count true) = 2 ^ count - 1 := by
  induction count with
  | zero => rfl
  | succ count induction =>
      have positive := Nat.two_pow_pos count
      rw [List.replicate_succ', decode_highFirst_append, induction, pow_succ]
      simp only [decode, Order.arrange, List.reverse_singleton, number, Bool.toNat_true,
        List.length_singleton]
      omega

namespace SzUInt64

/-- The number that a first byte with its ones and its top part spells. -/
theorem firstByte_eq {count top : Nat} {byte : UInt8} (announced : count ≤ 8)
    (small : top < 2 ^ (7 - count))
    (bits : encode .highFirst 8 byte.toNat =
      (List.replicate count true ++ false :: encode .highFirst (7 - count) top).take 8) :
    byte.toNat = 2 ^ 8 - 2 ^ (8 - count) + top := by
  have round := congrArg (decode .highFirst) bits
  rw [decode_encode, Nat.mod_eq_of_lt byte.toNat_lt] at round
  by_cases full : count = 8
  · subst full
    rw [List.take_left' (List.length_replicate ..), decode_ones] at round
    omega
  · have room : 8 - count = 7 - count + 1 := by omega
    have whole : 2 ^ 8 = 2 ^ (7 - count + 1) * 2 ^ count := by
      rw [← pow_add]
      congr 1
      omega
    have length : (List.replicate count true ++
        false :: encode .highFirst (7 - count) top).length = 8 := by
      rw [List.length_append, List.length_replicate, List.length_cons, length_encode]
      omega
    have zero : decode .highFirst (false :: encode .highFirst (7 - count) top) = top := by
      rw [← List.singleton_append, decode_highFirst_append, decode_encode,
        Nat.mod_eq_of_lt small]
      rfl
    rw [List.take_of_length_le length.le, decode_highFirst_append, decode_ones, zero,
      List.length_cons, length_encode] at round
    rw [round, room, whole, Nat.mul_sub, Nat.mul_one, Nat.add_comm]

theorem announced_bit {count top i : Nat} (announced : count ≤ 8) (early : i < count)
    (small : top < 2 ^ (7 - count)) :
    (2 ^ 8 - 2 ^ (8 - count) + top) &&& 0x80 >>> i ≠ 0 := by
  have bound : i < 8 := by omega
  have power : 0x80 >>> i = 2 ^ (7 - i) := by interval_cases i <;> rfl
  have one : (2 ^ 8 - 2 ^ (8 - count) + top) / 2 ^ (7 - i) % 2 = 1 := by
    interval_cases count <;> interval_cases i <;> omega
  rw [power, Nat.and_two_pow, Nat.testBit_eq_decide_div_mod_eq, one]
  simp

theorem closing_bit {count top : Nat} (announced : count < 8)
    (small : top < 2 ^ (7 - count)) :
    (2 ^ 8 - 2 ^ (8 - count) + top) &&& 0x80 >>> count = 0 := by
  have power : 0x80 >>> count = 2 ^ (7 - count) := by interval_cases count <;> rfl
  have zero : (2 ^ 8 - 2 ^ (8 - count) + top) / 2 ^ (7 - count) % 2 = 0 := by
    interval_cases count <;> omega
  rw [power, Nat.and_two_pow, Nat.testBit_eq_decide_div_mod_eq, zero]
  simp

theorem top_bits {count top : Nat} (announced : count < 8)
    (small : top < 2 ^ (7 - count)) :
    (2 ^ 8 - 2 ^ (8 - count) + top) &&& (0x80 >>> count - 1) = top := by
  have power : 0x80 >>> count = 2 ^ (7 - count) := by interval_cases count <;> rfl
  rw [power, Nat.and_two_pow_sub_one_eq_mod]
  interval_cases count <;> omega

/-- Reading the byte that starts the rest of a stream. -/
theorem readByte_between {stream : StringInputStream} {before after : List Bool}
    {byte : UInt8} {bytes : List UInt8}
    (content : BitString.stream .lowFirst stream.data =
      before ++ BitString.stream .lowFirst (byte :: bytes) ++ after) :
    stream.readBits before.length 8 .littleEndian = .ok byte.toNat ∧
      BitString.stream .lowFirst stream.data =
        before ++ encode .lowFirst 8 byte.toNat ++
          BitString.stream .lowFirst bytes ++ after := by
  have split : BitString.stream .lowFirst stream.data =
      before ++ encode .lowFirst 8 byte.toNat ++
        (BitString.stream .lowFirst bytes ++ after) := by
    rw [content, ← List.singleton_append, stream_append, stream_singleton]
    simp only [List.append_assoc]
  constructor
  · refine (@readBits_between .littleEndian (by decide) _ _ _ _ _ split
      (length_encode _ _ _) (by omega) (by omega)).trans (congrArg Except.ok ?_)
    exact (decode_encode .lowFirst 8 byte.toNat).trans (Nat.mod_eq_of_lt byte.toNat_lt)
  · rw [split, List.append_assoc, List.append_assoc, List.append_assoc]

/-- The loop of the constructor from the step that reads the byte after `done`. -/
theorem readFrom_spec {stream : StringInputStream} {after : List Bool}
    {count top : Nat} (announced : count ≤ 8) (small : top < 2 ^ (7 - count))
    (low done : List UInt8) (before : List Bool) (addr size : Nat)
    (length : done.length + low.length = count)
    (content : BitString.stream .lowFirst stream.data =
      before ++ BitString.stream .lowFirst low ++ after)
    (next : addr + 8 = before.length) :
    readFrom stream (2 ^ 8 - 2 ^ (8 - count) + top)
        (List.range' done.length (8 - done.length)) addr (0x80 >>> done.length)
        (Bytes.ofLittleEndian done) size =
      .ok { value := Bytes.ofLittleEndian (done ++ low) + top * 2 ^ (8 * count),
            size := size + 8 * low.length } := by
  induction low generalizing done before addr size with
  | nil =>
      have all : done.length = count := length
      rw [all, List.append_nil]
      by_cases full : count = 8
      · have zero : top = 0 := by
          rw [full] at small
          omega
        rw [full, zero, Nat.zero_mul]
        rfl
      · obtain ⟨room, short⟩ : ∃ room, 8 - count = room + 1 := ⟨7 - count, by omega⟩
        have early : count < 8 := by omega
        rw [short, List.range'_succ, readFrom, ← short, if_pos (closing_bit early small),
          top_bits early small, Nat.shiftLeft_eq]
        rfl
  | cons byte low induction =>
      rw [List.length_cons] at length
      have early : done.length < count := by omega
      obtain ⟨room, short⟩ : ∃ room, 8 - done.length = room + 1 :=
        ⟨7 - done.length, by omega⟩
      have shorter : 8 - (done.length + 1) = room := by omega
      obtain ⟨read, split⟩ := readByte_between content
      have merged : Bytes.ofLittleEndian done ||| byte.toNat <<< (8 * done.length) =
          Bytes.ofLittleEndian (done ++ [byte]) := by
        have below := Bytes.ofLittleEndian_lt done
        have power : 256 ^ done.length = 2 ^ (8 * done.length) :=
          (pow_mul 2 8 done.length).symm
        rw [power] at below
        rw [Bytes.ofLittleEndian_append, power, Nat.or_comm, Nat.shiftLeft_eq, Nat.mul_comm,
          ← Nat.two_pow_add_eq_or_of_lt below, Nat.add_comm]
        simp [Bytes.ofLittleEndian]
      have rest := induction (done ++ [byte]) (before ++ encode .lowFirst 8 byte.toNat)
        (addr + 8) (size + 8)
        (by rw [List.length_append, List.length_singleton]; omega) split
        (by rw [List.length_append, length_encode, next])
      rw [List.length_append, List.length_singleton, List.append_assoc,
        List.singleton_append, Nat.shiftRight_add, shorter, ← merged] at rest
      rw [short, List.range'_succ, readFrom, if_neg (announced_bit announced early small),
        next, read, List.length_cons, Nat.mul_add, Nat.mul_one, Nat.add_comm (8 * low.length),
        ← Nat.add_assoc, ← next]
      exact rest

/-- A 7z integer read at any address of a stream is the value that was encoded. -/
theorem new_of_encodes {stream : StringInputStream} {before after : List Bool}
    {count value : Nat} {bytes : List UInt8} (encodes : Encodes count value bytes)
    (content : BitString.stream .lowFirst stream.data =
      before ++ BitString.stream .lowFirst bytes ++ after) :
    new stream before.length = .ok { value, size := 8 * (count + 1) } := by
  obtain ⟨high, low, rfl, length, bits, small, rest⟩ := encodes.layout
  obtain ⟨read, split⟩ := readByte_between content
  have loop := readFrom_spec encodes.announced small low []
    (before ++ encode .lowFirst 8 high.toNat) before.length 8
    (by rw [List.length_nil, Nat.zero_add, length]) split
    (by rw [List.length_append, length_encode])
  rw [new, read, firstByte_eq encodes.announced small bits]
  refine loop.trans ?_
  rw [List.nil_append, rest, length, Nat.mod_add_div']
  congr 2
  omega

theorem new_of_encodes_two_bytes :
    new ⟨[0xFF, 0x92, 0x34]⟩ 8 = .ok { value := 0x1234, size := 16 } :=
  @new_of_encodes ⟨[0xFF, 0x92, 0x34]⟩ (stream .lowFirst [0xFF]) [] 1 0x1234 [0x92, 0x34]
    ⟨by decide, 0x92, [0x34], rfl, rfl, by decide, by decide, by decide⟩ rfl

end SzUInt64

end Segvault.Hachoir
