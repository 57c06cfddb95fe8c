import Segvault.Ptrace.Memory
import Mathlib.Data.List.Basic
import Mathlib.Data.List.TakeWhile

namespace Segvault.Ptrace

open Bytes

/-! Reading a C string from the memory of a process, chunk by chunk. -/

section Loop

variable (readBytes : Nat → Nat → List UInt8) (maxSize chunkLength : Nat)

/-- The loop of `readCString`, for as many turns as `fuel`. -/
def readCStringFrom :
    Nat → Nat → Nat → List (List UInt8) → Option (List UInt8 × Bool)
  | 0, _, _, _ => none
  | fuel + 1, address, size, string =>
      let data := readBytes address chunkLength
      let done := data.contains 0
      let data := if done then data.take (data.idxOf 0) else data
      if maxSize ≤ size + chunkLength then
        some ((string ++ [data.take (maxSize - size)]).flatten, true)
      else
        let string := string ++ [data]
        if done then some (string.flatten, false)
        else readCStringFrom fuel (address + chunkLength) (size + chunkLength) string

/-- Each turn gets at least one byte nearer to the limit. -/
def readCString (address : Nat) : Option (List UInt8 × Bool) :=
  readCStringFrom readBytes maxSize chunkLength maxSize address 0 []

end Loop

/-! The bytes before the first NUL. -/

theorem take_idxOf_eq_takeWhile (data : List UInt8) :
    (if data.contains 0 then data.take (data.idxOf 0) else data) =
      data.takeWhile (· ≠ 0) := by
  induction data with
  | nil => rfl
  | cons byte rest induction =>
      by_cases null : byte = 0
      · simp [null]
      · have different : (0 == byte) = false := beq_eq_false_iff_ne.mpr (Ne.symm null)
        rw [List.contains_cons, different, Bool.false_or, List.takeWhile_cons,
          if_pos (decide_eq_true null), ← induction, List.idxOf_cons_ne _ null,
          List.take_succ_cons]
        split <;> rfl

theorem take_takeWhile (data : List UInt8) (kind : UInt8 → Bool) (count : Nat) :
    (data.takeWhile kind).take count = (data.take count).takeWhile kind := by
  induction data generalizing count with
  | nil => simp
  | cons byte rest induction =>
      cases count with
      | zero => simp
      | succ count =>
          rw [List.take_succ_cons, List.takeWhile_cons, List.takeWhile_cons]
          split
          · rw [List.take_succ_cons, induction]
          · rfl

theorem contains_read (memory : Memory) (address size : Nat) :
    (read memory address size).contains 0 = true ↔
      ∃ index < size, memory (address + index) = 0 := by
  simp [Bytes.read]

/-- What a C string of at most `maxSize` bytes at an address is. -/
def cString (memory : Memory) (address maxSize : Nat) : List UInt8 :=
  (read memory address maxSize).takeWhile (· ≠ 0)

theorem cString_add (memory : Memory) (address first second : Nat) :
    cString memory address (first + second) =
      if (read memory address first).contains 0 then cString memory address first
      else read memory address first ++ cString memory (address + first) second := by
  rw [cString, read_append]
  split
  · rename_i null
    have found : ∃ byte ∈ read memory address first, byte = 0 := by simpa using null
    rw [List.takeWhile_append, if_neg]
    · rfl
    · intro same
      have whole := (List.takeWhile_prefix _).eq_of_length same
      obtain ⟨byte, member, zero⟩ := found
      have kept := List.takeWhile_eq_self_iff.mp whole byte member
      simp [zero] at kept
  · rename_i absent
    refine List.takeWhile_append_of_pos fun byte member => ?_
    have noNul : 0 ∉ read memory address first := by simpa using absent
    exact decide_eq_true fun null => noNul (null ▸ member)

/-- More than `bound` bytes come before the first NUL. -/
def Longer (memory : Memory) (address bound : Nat) : Prop :=
  ∀ index ≤ bound, memory (address + index) ≠ 0

/-- What `readCString` is to return. -/
def CStringExact (memory : Memory) (address maxSize : Nat)
    (result : Option (List UInt8 × Bool)) : Prop :=
  ∃ truncated, result = some (cString memory address maxSize, truncated) ∧
    (truncated = true ↔ Longer memory address maxSize)

/-- Where the chunk that reaches the limit begins. -/
def lastChunk (maxSize chunkLength : Nat) : Nat :=
  (maxSize - 1) / chunkLength * chunkLength

section Spec

variable (memory : Memory) (base : Nat) {maxSize chunkLength : Nat}

/-- The loop at its turn `turn`, when the chunks before hold no NUL. -/
theorem readCStringFrom_spec (chunked : 0 < chunkLength) (fuel turn : Nat)
    (string : List (List UInt8)) (early : turn * chunkLength < maxSize)
    (enough : maxSize ≤ turn * chunkLength + fuel)
    (noNul : ∀ index < turn * chunkLength, memory (base + index) ≠ 0) :
    ∃ truncated, readCStringFrom (read memory) maxSize chunkLength fuel
        (base + turn * chunkLength) (turn * chunkLength) string =
      some (string.flatten ++ cString memory (base + turn * chunkLength)
        (maxSize - turn * chunkLength), truncated) ∧
      (truncated = true ↔
        ∀ index < lastChunk maxSize chunkLength, memory (base + index) ≠ 0) := by
  induction fuel generalizing turn string with
  | zero => omega
  | succ fuel induction =>
      have upto : turn ≤ (maxSize - 1) / chunkLength :=
        (Nat.le_div_iff_mul_le chunked).mpr (by omega)
      have next : (turn + 1) * chunkLength = turn * chunkLength + chunkLength :=
        Nat.succ_mul turn chunkLength
      rw [readCStringFrom]
      dsimp only
      rw [take_idxOf_eq_takeWhile, take_takeWhile]
      by_cases reached : maxSize ≤ turn * chunkLength + chunkLength
      · have last : (maxSize - 1) / chunkLength = turn := by
          refine le_antisymm (Nat.lt_succ_iff.mp ?_) upto
          exact (Nat.div_lt_iff_lt_mul chunked).mpr (by rw [Nat.succ_eq_add_one]; omega)
        refine ⟨true, ?_, ?_⟩
        · rw [if_pos reached, List.flatten_append, List.flatten_singleton,
            take_read _ _ (by omega)]
          rfl
        · rw [lastChunk, last]
          exact iff_of_true rfl noNul
      · have rest : maxSize - turn * chunkLength =
            chunkLength + (maxSize - (turn + 1) * chunkLength) := by omega
        have address : base + turn * chunkLength + chunkLength =
            base + (turn + 1) * chunkLength := by omega
        rw [if_neg reached, rest, cString_add]
        by_cases found :
            (read memory (base + turn * chunkLength) chunkLength).contains 0 = true
        · refine ⟨false, ?_, ?_⟩
          · rw [if_pos found, if_pos found, List.flatten_append, List.flatten_singleton]
            rfl
          · obtain ⟨index, inside, null⟩ := (contains_read ..).mp found
            have more : (turn + 1) * chunkLength ≤ lastChunk maxSize chunkLength :=
              Nat.mul_le_mul_right _ ((Nat.le_div_iff_mul_le chunked).mpr (by omega))
            refine iff_of_false Bool.false_ne_true fun plain => ?_
            refine plain (turn * chunkLength + index) (by omega) ?_
            rw [← Nat.add_assoc, null]
        · have plain : (read memory (base + turn * chunkLength) chunkLength).takeWhile
              (· ≠ 0) = read memory (base + turn * chunkLength) chunkLength := by
            rw [← take_idxOf_eq_takeWhile, if_neg found]
          rw [if_neg found, if_neg found, plain, address, ← next]
          obtain ⟨truncated, result, flag⟩ := induction (turn + 1)
            (string ++ [read memory (base + turn * chunkLength) chunkLength])
            (by omega) (by omega) fun index bound => by
              rw [next] at bound
              by_cases before : index < turn * chunkLength
              · exact noNul index before
              · intro null
                refine found ((contains_read ..).mpr
                  ⟨index - turn * chunkLength, by omega, ?_⟩)
                rw [Nat.add_assoc, Nat.add_sub_cancel' (Nat.le_of_not_lt before), null]
          refine ⟨truncated, result.trans ?_, flag⟩
          rw [List.flatten_append, List.flatten_singleton, List.append_assoc]

theorem readCString_spec (positive : 0 < maxSize) (chunked : 0 < chunkLength) :
    ∃ truncated, readCString (read memory) maxSize chunkLength base =
      some (cString memory base maxSize, truncated) ∧
      (truncated = true ↔
        ∀ index < lastChunk maxSize chunkLength, memory (base + index) ≠ 0) := by
  have loop := @readCStringFrom_spec memory base maxSize chunkLength chunked maxSize 0 []
    (by rwa [Nat.zero_mul]) (by omega) fun index bound => by
      rw [Nat.zero_mul] at bound
      exact absurd bound (Nat.not_lt_zero index)
  rw [Nat.zero_mul, Nat.add_zero, Nat.sub_zero] at loop
  exact loop

/-- The string is always right; the flag is right when the string is longer than the limit or
ends before the chunk that reaches it. -/
theorem readCString_exact_iff (positive : 0 < maxSize) (chunked : 0 < chunkLength) :
    CStringExact memory base maxSize (readCString (read memory) maxSize chunkLength base) ↔
      Longer memory base maxSize ∨
        ∃ index < lastChunk maxSize chunkLength, memory (base + index) = 0 := by
  obtain ⟨truncated, result, flag⟩ := readCString_spec memory base positive chunked
  have below : lastChunk maxSize chunkLength ≤ maxSize :=
    (Nat.div_mul_le_self _ _).trans (Nat.sub_le _ _)
  have weaker : Longer memory base maxSize →
      ∀ index < lastChunk maxSize chunkLength, memory (base + index) ≠ 0 :=
    fun longer index bound => longer index (by omega)
  rw [CStringExact, result]
  constructor
  · rintro ⟨_, same, exact⟩
    cases same
    by_cases plain : ∀ index < lastChunk maxSize chunkLength, memory (base + index) ≠ 0
    · exact .inl (exact.mp (flag.mpr plain))
    · push Not at plain
      exact .inr plain
  · intro condition
    refine ⟨truncated, rfl, flag.trans ⟨fun plain => ?_, weaker⟩⟩
    refine condition.resolve_right ?_
    rintro ⟨index, bound, null⟩
    exact plain index bound null

end Spec

theorem readCString_exact_iff_three :
    CStringExact (fun address => if address = 3 then 0 else 65) 0 2
        (readCString (read fun address => if address = 3 then 0 else 65) 2 1 0) ↔
      Longer (fun address => if address = 3 then 0 else 65) 0 2 ∨
        ∃ index < lastChunk 2 1, (if 0 + index = 3 then 0 else (65 : UInt8)) = 0 :=
  readCString_exact_iff (fun address => if address = 3 then 0 else 65) 0
    (by decide) (by decide)

/-- Three letters and a NUL, far below the limit, come back as truncated. -/
theorem readCString_not_exact :
    ¬ CStringExact (fun address => if address = 3 then 0 else 65) 0 100
      (readCString (read fun address => if address = 3 then 0 else 65) 100 256 0) := by
  rintro ⟨truncated, result, exact⟩
  obtain ⟨flag, same, cut⟩ := @readCString_spec
    (fun address => if address = 3 then 0 else 65) 0 100 256 (by decide) (by decide)
  have agree : truncated = flag := by
    rw [same] at result
    cases result
    rfl
  have set : truncated = true := by
    rw [agree]
    exact cut.mpr fun index bound => absurd bound (Nat.not_lt_zero index)
  exact exact.mp set 3 (by decide) rfl

end Segvault.Ptrace
