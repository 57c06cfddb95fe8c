import Segvault.Hachoir.InputSubStream

namespace Segvault.Hachoir

open BitString

/-! `ConcatStream`, over two streams of known size. -/

/-- The shift is None when nothing was read. -/
abbrev ConcatChunk := Option Nat × List UInt8 × Bool

structure ConcatStream where
  size0 : Nat
  first : Reader
  second : Reader

/-- `streams` has the stream, its size and whether it is checked. -/
def ConcatStream.new (streams : List (Reader × Nat × Bool)) : Except Failure ConcatStream :=
  match streams with
  | [(first, size0, true), (second, _, _)] => .ok ⟨size0, first, second⟩
  | [] => .error .indexError
  | [(_, _, true)] => .error .indexError
  | _ => .error .notImplementedError

/-- The part of a read that is in the second stream. -/
def ConcatStream.readSecond (stream : ConcatStream) (shift : Option Nat) (data : List UInt8)
    (address size : Nat) : Except Failure ConcatChunk :=
  if size = 0 then .ok (shift, data, false)
  else do
    let (u, v, missing) ← stream.second address size
    -- the sizes are known: no read changes them
    if missing then .error (.readStreamError size address none)
    else
      match shift with
      | none => .ok (some u, data ++ v, missing)
      | some shift => if u ≠ 0 then .error .assertionError else .ok (some shift, data ++ v, missing)

def ConcatStream.read (stream : ConcatStream) (address size : Nat) : Except Failure ConcatChunk :=
  if address < stream.size0 then do
    let s := min size (stream.size0 - address)
    let (shift, data, missing) ← stream.first address s
    if missing then .error .assertionError
    else stream.readSecond (some shift) data 0 (size - s)
  else stream.readSecond none [] (address - stream.size0) size

section Joint

variable {left right : List UInt8} {first second : Reader}

theorem slice_append_left {start size : Nat} (inside : start + size ≤ left.length) :
    slice (left ++ right) start size = slice left start size := by
  rw [slice, List.drop_append_of_le_length (by omega), List.take_append_of_le_length, slice]
  rw [List.length_drop]
  omega

theorem slice_append_right {start size : Nat} (past : left.length ≤ start) :
    slice (left ++ right) start size = slice right (start - left.length) size := by
  rw [slice, List.drop_append, List.drop_eq_nil_of_le past, List.nil_append, slice]

theorem slice_joint {start size : Nat} (before : start ≤ left.length)
    (after : left.length ≤ start + size) :
    slice (left ++ right) start size =
      slice left start (left.length - start) ++ slice right 0 (start + size - left.length) := by
  have parts := slice_append (left ++ right) start (left.length - start)
    (start + size - left.length)
  rw [show left.length - start + (start + size - left.length) = size by omega,
    show start + (left.length - start) = left.length by omega,
    slice_append_left (by omega), slice_append_right (Nat.le_refl _), Nat.sub_self] at parts
  exact parts.symm

theorem readSecond_alone {concat : ConcatStream} (reads : ByteReader right concat.second)
    {address size : Nat} (positive : 0 < size) (inside : address + size ≤ 8 * right.length) :
    concat.readSecond none [] address size =
      .ok (some (address % 8), slice right (address / 8) ((size + address % 8 + 7) / 8),
        false) := by
  rw [ConcatStream.readSecond, if_neg (by omega), reads.inside _ _ positive inside]
  rfl

theorem readSecond_joined {concat : ConcatStream} (reads : ByteReader right concat.second)
    {size : Nat} (inside : size ≤ 8 * right.length) (data : List UInt8) :
    concat.readSecond (some 0) data 0 size =
      .ok (some 0, data ++ slice right 0 ((size + 7) / 8), false) := by
  rw [ConcatStream.readSecond]
  by_cases none : size = 0
  · subst none
    rw [if_pos rfl, slice, List.take_zero, List.append_nil]
  · rw [if_neg none, reads.inside _ _ (by omega) (by omega)]
    rfl

/-- A read at a byte gives the bytes of the one stream and of the other. -/
theorem concatRead_eq {concat : ConcatStream} (size0 : concat.size0 = 8 * left.length)
    (firstReads : ByteReader left concat.first) (secondReads : ByteReader right concat.second)
    {place size : Nat} (positive : 0 < size)
    (inside : 8 * place + size ≤ 8 * (left.length + right.length)) :
    concat.read (8 * place) size =
      .ok (some 0, slice (left ++ right) place ((size + 7) / 8), false) := by
  have aligned : 8 * place % 8 = 0 := Nat.mul_mod_right 8 place
  have byte : 8 * place / 8 = place := Nat.mul_div_cancel_left place (by decide)
  rw [ConcatStream.read, size0]
  by_cases before : 8 * place < 8 * left.length
  · have start := firstReads.inside (8 * place) (min size (8 * left.length - 8 * place))
      (by omega) (by omega)
    rw [aligned, byte] at start
    rw [if_pos before]
    dsimp only
    rw [start]
    change concat.readSecond (some 0) _ 0 _ = _
    rw [readSecond_joined secondReads (by omega)]
    dsimp only
    by_cases whole : size ≤ 8 * left.length - 8 * place
    · have nothing : slice right 0 ((0 + 7) / 8) = [] := List.take_zero
      rw [Nat.min_eq_left whole, Nat.sub_self, slice_append_left (by omega), Nat.add_zero,
        nothing, List.append_nil]
    · have cut : (8 * left.length - 8 * place + 0 + 7) / 8 = left.length - place := by omega
      have rest : (size - (8 * left.length - 8 * place) + 7) / 8 =
          place + (size + 7) / 8 - left.length := by omega
      rw [slice_joint (by omega) (by omega), Nat.min_eq_right (by omega), cut, rest]
  · rw [if_neg before, readSecond_alone secondReads positive (by omega),
      slice_append_right (by omega), ← Nat.mul_sub, Nat.mul_mod_right,
      Nat.mul_div_cancel_left _ (by decide), Nat.add_zero]

/-- A read at a byte, inside both streams together, gives the bits of the one followed by the
other. -/
theorem concatRead_bits (firstReads : ByteReader left first) (secondReads : ByteReader right second)
    (checked : Bool) :
    ∃ concat, ConcatStream.new [(first, 8 * left.length, true),
      (second, 8 * right.length, checked)] =
        .ok concat ∧
      ∀ address size, address % 8 = 0 → 0 < size →
        address + size ≤ 8 * left.length + 8 * right.length →
        ∀ order, ∃ shift data, concat.read address size = .ok (some shift, data, false) ∧
          range (stream order data) shift size =
            range (stream order left ++ stream order right) address size := by
  refine ⟨_, rfl, fun address size aligned positive inside order => ?_⟩
  obtain ⟨place, rfl⟩ : ∃ place, address = 8 * place := ⟨address / 8, by omega⟩
  refine ⟨0, _, concatRead_eq rfl firstReads secondReads positive (by omega), ?_⟩
  rw [stream_slice, range_range _ (by omega), ← stream_append, Nat.add_zero]

end Joint

theorem concatRead_bits_two_bytes :
    ∃ concat, ConcatStream.new [((StringInputStream.mk [1]).read, 8, true),
        ((StringInputStream.mk [2]).read, 8, true)] = .ok concat ∧
      ∀ address size, address % 8 = 0 → 0 < size → address + size ≤ 8 + 8 →
        ∀ order, ∃ shift data, concat.read address size = .ok (some shift, data, false) ∧
          range (stream order data) shift size =
            range (stream order [1] ++ stream order [2]) address size :=
  concatRead_bits (StringInputStream.mk [1]).reader (StringInputStream.mk [2]).reader true

end Segvault.Hachoir
