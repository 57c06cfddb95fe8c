import Segvault.BitString

namespace Segvault.BitString

/-! Byte strings that differ in some of their bits. -/

variable {order other : Order} {data patched : List UInt8}

theorem exists_stream (order : Order) {string : List Bool} (whole : string.length % 8 = 0) :
    ∃ bytes, stream order bytes = string := by
  obtain ⟨count, length⟩ := Nat.dvd_of_mod_eq_zero whole
  induction count generalizing string with
  | zero => exact ⟨[], (List.eq_nil_of_length_eq_zero length).symm⟩
  | succ count induction =>
      have first : (string.take 8).length = 8 := by
        rw [List.length_take]
        omega
      have rest : (string.drop 8).length = 8 * count := by
        rw [List.length_drop]
        omega
      obtain ⟨bytes, tail⟩ := induction (by omega) rest
      have small := decode_lt order (string.take 8)
      have round := encode_decode order (string.take 8)
      rw [first] at small round
      refine ⟨UInt8.ofNat (decode order (string.take 8)) :: bytes, ?_⟩
      rw [stream, List.flatMap_cons, UInt8.toNat_ofNat_of_lt' small, round]
      change _ ++ stream order bytes = string
      rw [tail, List.take_append_drop]

theorem range_append (string : List Bool) (start first second : Nat) :
    range string start first ++ range string (start + first) second =
      range string start (first + second) := by
  rw [range, range, range, List.take_add, List.drop_drop]

/-- The same bits outside of `[low, high)`. -/
structure Within (order : Order) (data patched : List UInt8) (low high : Nat) : Prop where
  length : patched.length = data.length
  before : (stream order patched).take low = (stream order data).take low
  after : (stream order patched).drop high = (stream order data).drop high

namespace Within

variable {low high : Nat}

theorem mono (within : Within order data patched low high) {least most : Nat}
    (lower : least ≤ low) (upper : high ≤ most) :
    Within order data patched least most where
  length := within.length
  before := by
    have same := congrArg (List.take least) within.before
    rwa [List.take_take, List.take_take, Nat.min_eq_left lower] at same
  after := by
    have same := congrArg (List.drop (most - high)) within.after
    rwa [List.drop_drop, List.drop_drop, Nat.add_sub_cancel' upper] at same

/-- Between whole bytes the order of their bits does not matter. -/
theorem bytes (within : Within order data patched low high) (lower : low % 8 = 0)
    (upper : high % 8 = 0) (other : Order) : Within other data patched low high := by
  obtain ⟨low, rfl⟩ := Nat.dvd_of_mod_eq_zero lower
  obtain ⟨high, rfl⟩ := Nat.dvd_of_mod_eq_zero upper
  refine ⟨within.length, ?_, ?_⟩
  · have same := within.before
    rw [← stream_take, ← stream_take] at same
    rw [← stream_take, ← stream_take, stream_injective _ same]
  · have same := within.after
    rw [← stream_drop, ← stream_drop] at same
    rw [← stream_drop, ← stream_drop, stream_injective _ same]

theorem range_before (within : Within order data patched low high) {start count : Nat}
    (apart : start + count ≤ low) :
    range (stream order patched) start count = range (stream order data) start count := by
  have same := congrArg (fun string => (string.drop start).take count) within.before
  simp only [List.drop_take, List.take_take,
    Nat.min_eq_left (by omega : count ≤ low - start)] at same
  exact same

theorem range_after (within : Within order data patched low high) {start count : Nat}
    (apart : high ≤ start) :
    range (stream order patched) start count = range (stream order data) start count := by
  have same := congrArg (fun string => (string.drop (start - high)).take count) within.after
  simp only [List.drop_drop, Nat.add_sub_cancel' apart] at same
  exact same

end Within

/-- The bits from an address on replaced by others. -/
def Patched (order : Order) (data : List UInt8) (address : Nat) (bits : List Bool)
    (patched : List UInt8) : Prop :=
  stream order patched = (stream order data).take address ++ bits ++
    (stream order data).drop (address + bits.length)

section Patched

variable {address : Nat} {bits : List Bool}

theorem exists_patched (inside : address + bits.length ≤ 8 * data.length) :
    ∃ patched, Patched order data address bits patched := by
  refine exists_stream order ?_
  rw [List.length_append, List.length_append, List.length_take, List.length_drop,
    length_stream]
  omega

theorem Patched.length_eq (replaced : Patched order data address bits patched)
    (inside : address + bits.length ≤ 8 * data.length) : patched.length = data.length := by
  have length := congrArg List.length replaced
  rw [List.length_append, List.length_append, List.length_take, List.length_drop,
    length_stream, length_stream] at length
  omega

theorem Patched.within (replaced : Patched order data address bits patched)
    (inside : address + bits.length ≤ 8 * data.length) :
    Within order data patched address (address + bits.length) := by
  have early : ((stream order data).take address).length = address := by
    rw [List.length_take, length_stream]
    omega
  refine ⟨replaced.length_eq inside, ?_, ?_⟩
  · rw [replaced, List.append_assoc, List.take_append_of_le_length early.ge,
      List.take_of_length_le early.le]
  · rw [replaced, List.drop_append_of_le_length, List.drop_eq_nil_of_le, List.nil_append]
    all_goals rw [List.length_append, early]

theorem Patched.range_eq (replaced : Patched order data address bits patched)
    (inside : address + bits.length ≤ 8 * data.length) :
    range (stream order patched) address bits.length = bits := by
  have early : ((stream order data).take address).length = address := by
    rw [List.length_take, length_stream]
    omega
  rw [range, replaced, List.append_assoc, List.drop_append_of_le_length early.ge,
    List.drop_eq_nil_of_le early.le, List.nil_append, List.take_left]

theorem patched_self (address count : Nat) (inside : address + count ≤ 8 * data.length) :
    Patched order data address (range (stream order data) address count) data := by
  rw [Patched, length_range (by rwa [length_stream]), range, ← List.drop_drop,
    List.append_assoc, List.take_append_drop, List.take_append_drop]

end Patched

/-- Two byte strings that differ from a third in a range, but have the same bits there. -/
theorem Within.eq_of_range {first second : List UInt8} {low count : Nat}
    (one : Within order data first low (low + count))
    (two : Within order data second low (low + count))
    (same : range (stream order first) low count = range (stream order second) low count) :
    first = second := by
  refine stream_injective order ?_
  have split : ∀ bytes : List UInt8, stream order bytes =
      (stream order bytes).take low ++ range (stream order bytes) low count ++
        (stream order bytes).drop (low + count) := fun bytes => by
    rw [range, List.append_assoc, ← List.drop_drop, List.take_append_drop,
      List.take_append_drop]
  rw [split first, split second, one.before, one.after, two.before, two.after, same]

end Segvault.BitString
