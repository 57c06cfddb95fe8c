import Mathlib.Data.Nat.Digits.Defs

namespace Segvault.Bytes

/-! Numbers as byte strings. -/

def ofLittleEndian (bytes : List UInt8) : Nat :=
  Nat.ofDigits 256 (bytes.map UInt8.toNat)

def ofBigEndian (bytes : List UInt8) : Nat :=
  ofLittleEndian bytes.reverse

def bigEndian32 (value : Nat) : List UInt8 :=
  [UInt8.ofNat (value / 2 ^ 24), UInt8.ofNat (value / 2 ^ 16),
    UInt8.ofNat (value / 2 ^ 8), UInt8.ofNat value]

def littleEndian32 (value : Nat) : List UInt8 :=
  (bigEndian32 value).reverse

@[simp] theorem length_bigEndian32 (value : Nat) :
    (bigEndian32 value).length = 4 := rfl

@[simp] theorem length_littleEndian32 (value : Nat) :
    (littleEndian32 value).length = 4 := rfl

theorem ofLittleEndian_littleEndian32 (value : Nat) :
    ofLittleEndian (littleEndian32 value) = value % 2 ^ 32 := by
  simp [ofLittleEndian, littleEndian32, bigEndian32, Nat.ofDigits]
  omega

theorem ofBigEndian_bigEndian32 (value : Nat) :
    ofBigEndian (bigEndian32 value) = value % 2 ^ 32 :=
  ofLittleEndian_littleEndian32 value

/-! The digits of a number as bytes. -/

theorem ofLittleEndian_digits (value count : Nat) :
    ofLittleEndian ((Nat.digits 256 value).map UInt8.ofNat ++ List.replicate count 0) =
      value := by
  have same : ((Nat.digits 256 value).map UInt8.ofNat).map UInt8.toNat =
      Nat.digits 256 value := by
    rw [List.map_map]
    refine (List.map_congr_left fun digit member => ?_).trans (List.map_id _)
    exact UInt8.toNat_ofNat_of_lt' (Nat.digits_lt_base (by decide) member)
  rw [ofLittleEndian, List.map_append, same, List.map_replicate]
  exact (Nat.ofDigits_append_replicate_zero _).trans (Nat.ofDigits_digits 256 value)

theorem ofLittleEndian_inj {first second : List UInt8} (length : first.length = second.length)
    (same : ofLittleEndian first = ofLittleEndian second) : first = second := by
  have digits (bytes : List UInt8) : ∀ digit ∈ bytes.map UInt8.toNat, digit < 256 := by
    intro digit member
    obtain ⟨byte, -, rfl⟩ := List.mem_map.mp member
    exact byte.toNat_lt
  have values : first.map UInt8.toNat = second.map UInt8.toNat :=
    Nat.ofDigits_inj_of_len_eq (by decide) (by simpa using length) (digits first)
      (digits second) same
  exact (List.map_inj_right fun _ _ => UInt8.toNat_inj.mp).mp values

theorem ofLittleEndian_append (first second : List UInt8) :
    ofLittleEndian (first ++ second) =
      ofLittleEndian first + 256 ^ first.length * ofLittleEndian second := by
  rw [ofLittleEndian, List.map_append, Nat.ofDigits_append, List.length_map]
  rfl

theorem ofLittleEndian_lt (bytes : List UInt8) :
    ofLittleEndian bytes < 256 ^ bytes.length := by
  have digits : ∀ digit ∈ bytes.map UInt8.toNat, digit < 254 + 2 := by
    intro digit member
    obtain ⟨byte, -, rfl⟩ := List.mem_map.mp member
    exact byte.toNat_lt
  have bound := Nat.ofDigits_lt_base_pow_length' digits
  rwa [List.length_map] at bound

theorem ofBigEndian_inj {first second : List UInt8} (length : first.length = second.length)
    (same : ofBigEndian first = ofBigEndian second) : first = second :=
  List.reverse_inj.mp (ofLittleEndian_inj (by simpa using length) same)

/-! Numbers of any width as byte strings. -/

def littleEndian : Nat → Nat → List UInt8
  | 0, _ => []
  | width + 1, value => UInt8.ofNat value :: littleEndian width (value / 256)

@[simp] theorem length_littleEndian (width value : Nat) :
    (littleEndian width value).length = width := by
  induction width generalizing value with
  | zero => rfl
  | succ width induction => rw [littleEndian, List.length_cons, induction]

theorem ofLittleEndian_cons (byte : UInt8) (rest : List UInt8) :
    ofLittleEndian (byte :: rest) = byte.toNat + 256 * ofLittleEndian rest := rfl

theorem ofLittleEndian_littleEndian (width value : Nat) :
    ofLittleEndian (littleEndian width value) = value % 256 ^ width := by
  induction width generalizing value with
  | zero => rw [pow_zero, Nat.mod_one]; rfl
  | succ width induction =>
      have low : (UInt8.ofNat value).toNat = value % 256 := UInt8.toNat_ofNat'
      rw [littleEndian, ofLittleEndian_cons, induction, low, pow_succ', Nat.mod_mul]

theorem littleEndian_ofLittleEndian (bytes : List UInt8) :
    littleEndian bytes.length (ofLittleEndian bytes) = bytes := by
  apply ofLittleEndian_inj (length_littleEndian ..)
  rw [ofLittleEndian_littleEndian, Nat.mod_eq_of_lt (ofLittleEndian_lt bytes)]

/-! The two halves of a 32-bit number in memory. -/

theorem ofBigEndian_drop_two (value : Nat) :
    ofBigEndian ((bigEndian32 value).drop 2) = value % 2 ^ 16 := by
  simp [ofBigEndian, ofLittleEndian, bigEndian32, Nat.ofDigits]
  omega

theorem ofLittleEndian_drop_two (value : Nat) :
    ofLittleEndian ((littleEndian32 value).drop 2) =
      value / 2 ^ 16 % 2 ^ 16 := by
  simp [ofLittleEndian, littleEndian32, bigEndian32, Nat.ofDigits]
  omega

theorem ofBigEndian_drop_three (value : Nat) :
    ofBigEndian ((bigEndian32 value).drop 3) = value % 2 ^ 8 := by
  simp [ofBigEndian, ofLittleEndian, bigEndian32]

/-! Byte-addressed memory. -/

abbrev Memory := Nat → UInt8

def read (memory : Memory) (offset size : Nat) : List UInt8 :=
  (List.range size).map fun index => memory (offset + index)

def write (memory : Memory) (offset : Nat) (bytes : List UInt8) : Memory :=
  fun address =>
    if offset ≤ address then
      bytes[address - offset]?.getD (memory address)
    else memory address

@[simp] theorem length_read (memory : Memory) (offset size : Nat) :
    (read memory offset size).length = size := by
  simp [read]

@[simp] theorem read_zero (memory : Memory) (offset : Nat) : read memory offset 0 = [] := rfl

theorem read_append (memory : Memory) (offset first second : Nat) :
    read memory offset (first + second) =
      read memory offset first ++ read memory (offset + first) second := by
  rw [read, read, read, List.range_add, List.map_append, List.map_map]
  refine congrArg _ (List.map_congr_left fun index _ => ?_)
  exact congrArg memory (Nat.add_assoc offset first index).symm

/-- A slice of what is read is what is read from where the slice begins. -/
theorem read_slice (memory : Memory) (offset : Nat) {size start count : Nat}
    (inside : start + count ≤ size) :
    ((read memory offset size).drop start).take count =
      read memory (offset + start) count := by
  obtain ⟨rest, rfl⟩ := Nat.le.dest inside
  rw [read_append, read_append, List.append_assoc,
    List.drop_left' (length_read ..), List.take_left' (length_read ..)]

theorem take_read (memory : Memory) (offset : Nat) {size count : Nat}
    (inside : count ≤ size) :
    (read memory offset size).take count = read memory offset count := by
  obtain ⟨rest, rfl⟩ := Nat.le.dest inside
  rw [read_append, List.take_left' (length_read ..)]

theorem read_congr {first second : Memory} {offset size : Nat}
    (same : ∀ address, offset ≤ address → address < offset + size →
      first address = second address) :
    read first offset size = read second offset size := by
  apply List.map_congr_left
  intro index member
  have bound := List.mem_range.mp member
  exact same _ (by omega) (by omega)

theorem write_outside (memory : Memory) {offset address : Nat}
    {bytes : List UInt8}
    (outside : address < offset ∨ offset + bytes.length ≤ address) :
    write memory offset bytes address = memory address := by
  unfold write
  split
  · next inside =>
      have past : bytes[address - offset]? = none := by
        rw [List.getElem?_eq_none_iff]
        omega
      rw [past, Option.getD_none]
  · rfl

@[simp] theorem write_nil (memory : Memory) (offset : Nat) :
    write memory offset [] = memory := by
  funext address
  exact write_outside memory (by simp only [List.length_nil]; omega)

@[simp] theorem write_read (memory : Memory) (offset size : Nat) :
    write memory offset (read memory offset size) = memory := by
  funext address
  unfold write
  split
  · rename_i above
    by_cases inside : address - offset < size
    · simp [read, inside, Nat.add_sub_cancel' above]
    · simp [read, inside]
  · rfl

theorem write_write (memory : Memory) (offset : Nat) (first second : List UInt8) :
    write (write memory offset first) (offset + first.length) second =
      write memory offset (first ++ second) := by
  funext address
  by_cases early : address < offset + first.length
  · rw [write_outside _ (.inl early)]
    unfold write
    split
    · rw [List.getElem?_append_left (by omega)]
    · rfl
  · have position : address - offset - first.length =
        address - (offset + first.length) := by omega
    have left : write (write memory offset first) (offset + first.length) second
        address =
        second[address - (offset + first.length)]?.getD
          (write memory offset first address) := if_pos (by omega)
    have right : write memory offset (first ++ second) address =
        (first ++ second)[address - offset]?.getD (memory address) :=
      if_pos (by omega)
    rw [left, right, List.getElem?_append_right (by omega), position,
      write_outside memory (.inr (by omega))]

theorem write_inside (memory : Memory) {offset index : Nat}
    {bytes : List UInt8} (bound : index < bytes.length) :
    write memory offset bytes (offset + index) = bytes[index] := by
  simp [write, bound]

theorem read_write (memory : Memory) (offset : Nat) (bytes : List UInt8) :
    read (write memory offset bytes) offset bytes.length = bytes := by
  apply List.ext_getElem
  · simp
  · intro index _ bound
    simp only [read, List.getElem_map, List.getElem_range]
    exact write_inside memory bound

theorem read_write_disjoint (memory : Memory) {offset size other : Nat}
    {bytes : List UInt8}
    (disjoint : offset + size ≤ other ∨ other + bytes.length ≤ offset) :
    read (write memory other bytes) offset size = read memory offset size := by
  apply read_congr
  intro address lower upper
  apply write_outside
  omega

/-! Steps that each write inside a range of their own. -/

def Apart (offset size other width : Nat) : Prop :=
  offset + size ≤ other ∨ other + width ≤ offset

theorem Apart.symm {offset size other width : Nat} (apart : Apart offset size other width) :
    Apart other width offset size :=
  Or.symm apart

def Confined {β : Type} (step : Memory → β → Memory) (offset width : β → Nat) :
    Prop :=
  ∀ memory field other size, Apart other size (offset field) (width field) →
    read (step memory field) other size = read memory other size

theorem Confined.read_foldl_of {β : Type} {step : Memory → β → Memory}
    {offset width : β → Nat} (confined : Confined step offset width)
    {fields : List β} (memory : Memory) {other size : Nat}
    (apart : ∀ field ∈ fields, (∀ memory, step memory field = memory) ∨
      Apart other size (offset field) (width field)) :
    read (fields.foldl step memory) other size = read memory other size := by
  induction fields generalizing memory with
  | nil => rfl
  | cons field fields induction =>
      have rest : read (fields.foldl step (step memory field)) other size =
          read (step memory field) other size :=
        induction (step memory field) fun other member =>
          apart other (List.mem_cons_of_mem _ member)
      rcases apart field List.mem_cons_self with still | here
      · rw [List.foldl_cons, rest, still]
      · exact rest.trans (confined memory field other size here)

theorem Confined.read_foldl {β : Type} {step : Memory → β → Memory}
    {offset width : β → Nat} (confined : Confined step offset width)
    {fields : List β} (memory : Memory) {other size : Nat}
    (apart : ∀ field ∈ fields, Apart other size (offset field) (width field)) :
    read (fields.foldl step memory) other size = read memory other size :=
  confined.read_foldl_of memory fun field member => .inr (apart field member)

/-- Writing back a piece of memory with some bytes of it replaced writes these bytes alone. -/
theorem write_within (memory : Memory) (offset : Nat) {size start : Nat} {bytes : List UInt8}
    (inside : start + bytes.length ≤ size) :
    write memory offset ((read memory offset size).take start ++ bytes ++
        (read memory offset size).drop (start + bytes.length)) =
      write memory (offset + start) bytes := by
  obtain ⟨rest, rfl⟩ := Nat.le.dest inside
  rw [take_read _ _ (by omega), read_append _ _ (start + bytes.length),
    List.drop_left' (length_read ..)]
  have front := write_write memory offset (read memory offset start) bytes
  have whole := write_write memory offset (read memory offset start ++ bytes)
    (read memory (offset + (start + bytes.length)) rest)
  rw [write_read] at front
  rw [length_read] at front
  rw [List.length_append, length_read, ← front] at whole
  rw [← whole]
  have unchanged : read memory (offset + (start + bytes.length)) rest =
      read (write memory (offset + start) bytes) (offset + (start + bytes.length)) rest :=
    (read_write_disjoint memory (by omega)).symm
  rw [unchanged, write_read]

theorem read_write_part (memory : Memory) (offset : Nat)
    (before chunk after : List UInt8) :
    read (write memory offset (before ++ chunk ++ after))
      (offset + before.length) chunk.length = chunk := by
  apply List.ext_getElem
  · simp
  · intro index _ bound
    simp only [read, List.getElem_map, List.getElem_range, Nat.add_assoc]
    rw [write_inside memory (by simp only [List.length_append]; omega)]
    rw [List.getElem_append_left (by simp only [List.length_append]; omega),
      List.getElem_append_right (by omega)]
    simp

/-! Two memories that hold the same bytes, at different places. -/

def Agree (size : Nat) (first : Memory) (start : Nat) (second : Memory) (base : Nat) :
    Prop :=
  ∀ index < size, first (start + index) = second (base + index)

section Agree

variable {size start base : Nat} {first second : Memory}

theorem Agree.read_eq (agree : Agree size first start second base) {offset width : Nat}
    (inside : offset + width ≤ size) :
    read first (start + offset) width = read second (base + offset) width := by
  apply List.map_congr_left
  intro index member
  have bound := List.mem_range.mp member
  rw [Nat.add_assoc, Nat.add_assoc]
  exact agree (offset + index) (by omega)

theorem Agree.write (agree : Agree size first start second base) (offset : Nat)
    (bytes : List UInt8) :
    Agree size (write first (start + offset) bytes) start
      (write second (base + offset) bytes) base := by
  intro index bound
  unfold Bytes.write
  by_cases later : offset ≤ index
  · rw [if_pos (by omega), if_pos (by omega), agree index bound,
      Nat.add_sub_add_left, Nat.add_sub_add_left]
  · rw [if_neg (by omega), if_neg (by omega)]
    exact agree index bound

theorem agree_write (first second : Memory) (start base : Nat) (bytes : List UInt8) :
    Agree bytes.length (Bytes.write first start bytes) start
      (Bytes.write second base bytes) base := by
  intro index bound
  rw [write_inside first bound, write_inside second bound]

end Agree

end Segvault.Bytes
