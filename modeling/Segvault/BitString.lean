import Mathlib.Data.Nat.Bitwise
import Mathlib.Data.List.Basic
import Mathlib.Tactic.Ring

namespace Segvault.BitString

/-! Numbers as bit strings, least significant bit first. -/

def number : List Bool → Nat
  | [] => 0
  | bit :: rest => bit.toNat + 2 * number rest

def bits : Nat → Nat → List Bool
  | 0, _ => []
  | count + 1, value => decide (value % 2 = 1) :: bits count (value / 2)

@[simp] theorem length_bits (count value : Nat) :
    (bits count value).length = count := by
  induction count generalizing value with
  | zero => rfl
  | succ count induction => rw [bits, List.length_cons, induction]

theorem number_append (first second : List Bool) :
    number (first ++ second) = number first + 2 ^ first.length * number second := by
  induction first with
  | nil => simp [number]
  | cons bit rest induction =>
      rw [List.cons_append, number, number, induction, List.length_cons, pow_succ]
      ring

theorem number_lt (string : List Bool) : number string < 2 ^ string.length := by
  induction string with
  | nil => exact Nat.zero_lt_one
  | cons bit rest induction =>
      have small := bit.toNat_le
      rw [number, List.length_cons, pow_succ]
      omega

theorem number_bits (count value : Nat) :
    number (bits count value) = value % 2 ^ count := by
  induction count generalizing value with
  | zero => rw [pow_zero, Nat.mod_one]; rfl
  | succ count induction =>
      have head : (decide (value % 2 = 1)).toNat = value % 2 := by
        cases Nat.mod_two_eq_zero_or_one value with
        | inl even => simp [even]
        | inr odd => simp [odd]
      rw [bits, number, induction, head, pow_succ', Nat.mod_mul]

theorem bits_number (string : List Bool) :
    bits string.length (number string) = string := by
  induction string with
  | nil => rfl
  | cons bit rest induction =>
      have half : (bit.toNat + 2 * number rest) / 2 = number rest := by
        have small := bit.toNat_le
        omega
      have low : decide ((bit.toNat + 2 * number rest) % 2 = 1) = bit := by
        cases bit <;> simp
      rw [List.length_cons, number, bits, half, induction, low]

theorem bits_mod (count value : Nat) :
    bits count (value % 2 ^ count) = bits count value := by
  have round := bits_number (bits count value)
  rwa [length_bits, number_bits] at round

theorem bits_split (low high value : Nat) :
    bits (low + high) value = bits low value ++ bits high (value / 2 ^ low) := by
  induction low generalizing value with
  | zero => simp [bits]
  | succ low induction =>
      rw [Nat.succ_add, bits, bits, induction, List.cons_append, pow_succ',
        Nat.div_div_eq_div_mul]

@[simp] theorem bits_zero (count : Nat) :
    bits count 0 = List.replicate count false := by
  induction count with
  | zero => rfl
  | succ count induction => rw [bits, List.replicate_succ]; simp [induction]

@[simp] theorem number_zeros (count : Nat) :
    number (List.replicate count false) = 0 := by
  rw [← bits_zero, number_bits, Nat.zero_mod]

theorem number_take (count : Nat) (string : List Bool)
    (long : count ≤ string.length) :
    number (string.take count) = number string % 2 ^ count := by
  have parts := number_append (string.take count) (string.drop count)
  have small := number_lt (string.take count)
  rw [List.take_append_drop] at parts
  rw [List.length_take, Nat.min_eq_left long] at parts small
  rw [parts, Nat.add_mul_mod_self_left, Nat.mod_eq_of_lt small]

theorem number_drop (count : Nat) (string : List Bool)
    (long : count ≤ string.length) :
    number (string.drop count) = number string / 2 ^ count := by
  have parts := number_append (string.take count) (string.drop count)
  have small := number_lt (string.take count)
  rw [List.take_append_drop] at parts
  rw [List.length_take, Nat.min_eq_left long] at parts small
  rw [parts, Nat.add_mul_div_left _ _ (Nat.two_pow_pos count),
    Nat.div_eq_of_lt small, Nat.zero_add]

/-! The two orders in which the bits of a number are laid out in a stream. -/

inductive Order
  | lowFirst
  | highFirst
  deriving DecidableEq

def Order.arrange : Order → List Bool → List Bool
  | .lowFirst, string => string
  | .highFirst, string => string.reverse

variable (order : Order)

@[simp] theorem Order.length_arrange (string : List Bool) :
    (order.arrange string).length = string.length := by
  cases order <;> simp [Order.arrange]

@[simp] theorem Order.arrange_arrange (string : List Bool) :
    order.arrange (order.arrange string) = string := by
  cases order <;> simp [Order.arrange]

@[simp] theorem Order.arrange_replicate (count : Nat) (bit : Bool) :
    order.arrange (List.replicate count bit) = List.replicate count bit := by
  cases order <;> simp [Order.arrange]

def encode (count value : Nat) : List Bool :=
  order.arrange (bits count value)

def decode (string : List Bool) : Nat :=
  number (order.arrange string)

@[simp] theorem length_encode (count value : Nat) :
    (encode order count value).length = count := by
  simp [encode]

@[simp] theorem encode_zero (count : Nat) :
    encode order count 0 = List.replicate count false := by
  simp [encode]

theorem decode_encode (count value : Nat) :
    decode order (encode order count value) = value % 2 ^ count := by
  rw [decode, encode, Order.arrange_arrange, number_bits]

theorem encode_decode (string : List Bool) :
    encode order string.length (decode order string) = string := by
  have round := bits_number (order.arrange string)
  rw [Order.length_arrange] at round
  rw [encode, decode, round, Order.arrange_arrange]

@[simp] theorem decode_zeros (count : Nat) :
    decode order (List.replicate count false) = 0 := by
  rw [decode, Order.arrange_replicate, number_zeros]

theorem decode_lt (string : List Bool) :
    decode order string < 2 ^ string.length := by
  have small := number_lt (order.arrange string)
  rwa [Order.length_arrange] at small

theorem encode_lowFirst (count rest value : Nat) :
    encode .lowFirst (count + rest) value =
      encode .lowFirst count value ++ encode .lowFirst rest (value / 2 ^ count) :=
  bits_split count rest value

theorem encode_highFirst (count rest value : Nat) :
    encode .highFirst (count + rest) value =
      encode .highFirst count (value / 2 ^ rest) ++ encode .highFirst rest value := by
  rw [encode, Nat.add_comm, bits_split, Order.arrange, List.reverse_append]
  rfl

theorem encode_mod (count value : Nat) :
    encode order count (value % 2 ^ count) = encode order count value := by
  rw [encode, bits_mod, encode]

theorem decode_lowFirst_append (first second : List Bool) :
    decode .lowFirst (first ++ second) =
      decode .lowFirst first + 2 ^ first.length * decode .lowFirst second :=
  number_append first second

theorem decode_highFirst_append (first second : List Bool) :
    decode .highFirst (first ++ second) =
      decode .highFirst second + 2 ^ second.length * decode .highFirst first := by
  rw [decode, Order.arrange, List.reverse_append, number_append,
    List.length_reverse]
  rfl

/-! A range of a bit string, as a number. -/

def range (string : List Bool) (start count : Nat) : List Bool :=
  (string.drop start).take count

theorem length_range {string : List Bool} {start count : Nat}
    (inside : start + count ≤ string.length) :
    (range string start count).length = count := by
  rw [range, List.length_take, List.length_drop]
  omega

theorem decode_range_lowFirst {string : List Bool} {start count : Nat}
    (inside : start + count ≤ string.length) :
    decode .lowFirst (range string start count) =
      decode .lowFirst string / 2 ^ start % 2 ^ count := by
  have long : count ≤ (string.drop start).length := by
    rw [List.length_drop]
    omega
  rw [decode, Order.arrange, range, number_take count _ long,
    number_drop start string (by omega)]
  rfl

theorem decode_range_highFirst {string : List Bool} {start count : Nat}
    (inside : start + count ≤ string.length) :
    decode .highFirst (range string start count) =
      decode .highFirst string / 2 ^ (string.length - start - count) % 2 ^ count := by
  have parts : string.take start ++ range string start count ++
      string.drop (start + count) = string := by
    rw [range, List.append_assoc, ← List.drop_drop, List.take_append_drop,
      List.take_append_drop]
  have middle := length_range inside
  have low := decode_lt .highFirst (string.drop (start + count))
  have small := decode_lt .highFirst (range string start count)
  have rest : (string.drop (start + count)).length =
      string.length - start - count := by
    rw [List.length_drop]
    omega
  have value := decode_highFirst_append
    (string.take start ++ range string start count) (string.drop (start + count))
  rw [parts, decode_highFirst_append, middle, rest] at value
  rw [rest] at low
  rw [middle] at small
  rw [value, Nat.add_mul_div_left _ _ (Nat.two_pow_pos _), Nat.div_eq_of_lt low,
    Nat.zero_add, Nat.add_mul_mod_self_left, Nat.mod_eq_of_lt small]

/-! Filling the free bits of a number. -/

theorem or_highFirst (string : List Bool) {count room value : Nat}
    (fits : count ≤ room) (small : value < 2 ^ count) :
    decode .highFirst (string ++ List.replicate room false) |||
        value <<< (room - count) =
      decode .highFirst (string ++ encode .highFirst count value ++
        List.replicate (room - count) false) := by
  have whole : 2 ^ room = 2 ^ (room - count) * 2 ^ count := by
    rw [← pow_add, Nat.sub_add_cancel fits]
  have shifted : value <<< (room - count) < 2 ^ room := by
    rw [Nat.shiftLeft_eq, whole, Nat.mul_comm]
    exact Nat.mul_lt_mul_of_pos_left small (Nat.two_pow_pos _)
  rw [decode_highFirst_append, decode_zeros, Nat.zero_add, List.length_replicate,
    ← Nat.two_pow_add_eq_or_of_lt shifted, decode_highFirst_append, decode_zeros,
    Nat.zero_add, List.length_replicate, decode_highFirst_append, decode_encode,
    Nat.mod_eq_of_lt small, length_encode, Nat.shiftLeft_eq, whole]
  ring

theorem or_lowFirst (string : List Bool) {count value : Nat} (room rest : Nat)
    (small : value < 2 ^ count) :
    decode .lowFirst (string ++ List.replicate room false) |||
        value <<< string.length =
      decode .lowFirst (string ++ encode .lowFirst count value ++
        List.replicate rest false) := by
  have low := decode_lt .lowFirst string
  rw [decode_lowFirst_append, decode_zeros, Nat.mul_zero, Nat.add_zero,
    Nat.or_comm, Nat.shiftLeft_eq, Nat.mul_comm,
    ← Nat.two_pow_add_eq_or_of_lt low, decode_lowFirst_append, decode_zeros,
    Nat.mul_zero, Nat.add_zero, decode_lowFirst_append, decode_encode,
    Nat.mod_eq_of_lt small, Nat.add_comm]

/-! The bits of a byte string. -/

def stream (bytes : List UInt8) : List Bool :=
  bytes.flatMap fun byte => encode order 8 byte.toNat

@[simp] theorem stream_nil : stream order [] = [] := rfl

theorem stream_append (first second : List UInt8) :
    stream order (first ++ second) = stream order first ++ stream order second :=
  List.flatMap_append

theorem stream_singleton (byte : UInt8) :
    stream order [byte] = encode order 8 byte.toNat := by
  simp [stream]

@[simp] theorem length_stream (bytes : List UInt8) :
    (stream order bytes).length = 8 * bytes.length := by
  induction bytes with
  | nil => rfl
  | cons byte rest induction =>
      rw [stream, List.flatMap_cons, List.length_append, length_encode]
      rw [stream] at induction
      rw [induction, List.length_cons]
      omega

theorem stream_take (bytes : List UInt8) (count : Nat) :
    stream order (bytes.take count) = (stream order bytes).take (8 * count) := by
  by_cases short : count ≤ bytes.length
  · have whole : stream order bytes =
        stream order (bytes.take count) ++ stream order (bytes.drop count) := by
      rw [← stream_append, List.take_append_drop]
    have size : 8 * count = (stream order (bytes.take count)).length := by
      rw [length_stream, List.length_take, Nat.min_eq_left short]
    rw [whole, size, List.take_left]
  · have all : bytes.take count = bytes := List.take_of_length_le (by omega)
    rw [all, List.take_of_length_le (by rw [length_stream]; omega)]

theorem stream_drop (bytes : List UInt8) (count : Nat) :
    stream order (bytes.drop count) = (stream order bytes).drop (8 * count) := by
  by_cases short : count ≤ bytes.length
  · have whole : stream order bytes =
        stream order (bytes.take count) ++ stream order (bytes.drop count) := by
      rw [← stream_append, List.take_append_drop]
    have size : 8 * count = (stream order (bytes.take count)).length := by
      rw [length_stream, List.length_take, Nat.min_eq_left short]
    rw [whole, size, List.drop_left]
  · have all : bytes.drop count = [] := List.drop_eq_nil_of_le (by omega)
    rw [all, stream_nil, List.drop_eq_nil_of_le (by rw [length_stream]; omega)]

theorem stream_injective {first second : List UInt8}
    (same : stream order first = stream order second) : first = second := by
  induction first generalizing second with
  | nil =>
      have length := congrArg List.length same
      simp only [length_stream, List.length_nil] at length
      exact (List.length_eq_zero_iff.mp (by omega)).symm
  | cons byte rest induction =>
      cases second with
      | nil => simpa using congrArg List.length same
      | cons other others =>
          rw [stream, stream, List.flatMap_cons, List.flatMap_cons] at same
          obtain ⟨heads, tails⟩ := List.append_inj same (by simp)
          have values := congrArg (decode order) heads
          rw [decode_encode, decode_encode,
            Nat.mod_eq_of_lt byte.toNat_lt, Nat.mod_eq_of_lt other.toNat_lt] at values
          rw [UInt8.toNat_inj.mp values, induction tails]

end Segvault.BitString
