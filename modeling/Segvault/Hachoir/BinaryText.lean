import Mathlib.Data.List.Induction
import Segvault.Hachoir.Stream

namespace Segvault.Hachoir

open BitString

/-! Numbers as texts of the characters `0` and `1`. -/

/-- The loop over `xrange(size)`. -/
def bitText : Nat → Nat → List Char
  | 0, _ => []
  | size + 1, value => (if value &&& 1 = 1 then '1' else '0') :: bitText size (value >>> 1)

/-- The loop that puts a blank between packets of eight characters. -/
def packets (classicMode : Bool) (text result : List Char) : List Char :=
  match text with
  | [] => result
  | first :: rest =>
      let packet := (first :: rest).take 8
      let result := if result.length ≠ 0 then result ++ [' '] else result
      packets classicMode (rest.drop 7)
        (result ++ if classicMode then packet.reverse else packet)
termination_by text.length
decreasing_by simp only [List.length_drop, List.length_cons]; omega

def long2bin (size : Nat) (value : Int) (endian : Endian) (classicMode : Bool) :
    Except Failure (List Char) :=
  if endian = .middleEndian then .error .assertionError
  else if value < 0 then .error .assertionError
  else
    let text := bitText size value.toNat
    let text := if endian = .littleEndian then text.reverse else text
    .ok (packets classicMode text [])

/-- `sizedReversed` says whether a reversed list has a length, as it had up to Python 2.4. -/
def bin2long (sizedReversed : Bool) (text : List Char) (endian : Endian) : Except Failure Nat :=
  if endian = .middleEndian then .error .assertionError
  else
    let bits := (text.filter fun character => character = '0' ∨ character = '1').map
      fun character => character.toNat - '0'.toNat
    let bits := if endian ≠ .bigEndian then bits.reverse else bits
    if endian ≠ .bigEndian ∧ ¬ sizedReversed then .error .typeError
    else if bits.length = 0 then .error .assertionError
    else .ok (bits.foldl (fun value bit => value * 2 + bit) 0)

/-! The bits of the texts. -/

def bitChar (bit : Bool) : Char :=
  if bit then '1' else '0'

theorem bitText_eq (size value : Nat) : bitText size value = (bits size value).map bitChar := by
  induction size generalizing value with
  | zero => rfl
  | succ size induction =>
      rw [bitText, bits, List.map_cons, induction, Nat.and_one_is_mod, Nat.shiftRight_one]
      by_cases odd : value % 2 = 1 <;> simp [bitChar, odd]

/-- Without the blanks the packets are the text. -/
theorem filter_packets {keep : Char → Bool} (blank : keep ' ' = false) (text result : List Char)
    (kept : ∀ character ∈ text, keep character) :
    (packets false text result).filter keep = result.filter keep ++ text := by
  induction text, result using packets.induct false with
  | case1 result => simp [packets]
  | case2 result first rest packet joined induction =>
      have later := induction fun character member =>
        kept character (List.mem_cons_of_mem _ (List.mem_of_mem_drop member))
      have whole : packet.filter keep = packet :=
        List.filter_eq_self.mpr fun character member => kept character (List.mem_of_mem_take member)
      have parts : packet ++ rest.drop 7 = first :: rest := by
        rw [show rest.drop 7 = (first :: rest).drop 8 from rfl]
        exact List.take_append_drop 8 (first :: rest)
      have start : joined.filter keep = result.filter keep := by
        simp only [joined]
        split <;> simp [blank]
      rw [packets]
      refine later.trans ?_
      simp only [List.filter_append, Bool.false_eq_true, reduceDIte]
      rw [start, whole, List.append_assoc, parts]

theorem foldl_bits (string : List Bool) :
    (string.map Bool.toNat).foldl (fun value bit => value * 2 + bit) 0 = number string.reverse := by
  induction string using List.reverseRecOn with
  | nil => rfl
  | append_singleton string bit induction =>
      rw [List.map_append, List.foldl_append, induction, List.reverse_append, List.map_singleton,
        List.foldl_cons, List.foldl_nil, List.reverse_singleton, List.singleton_append, number]
      omega

theorem digits_bitChar (string : List Bool) :
    ((string.map bitChar).map fun character => character.toNat - '0'.toNat) =
      string.map Bool.toNat := by
  rw [List.map_map]
  refine List.map_congr_left fun bit _ => ?_
  cases bit <;> rfl

theorem bitChar_digit (bit : Bool) : bitChar bit = '0' ∨ bitChar bit = '1' := by
  cases bit
  · exact .inl rfl
  · exact .inr rfl

/-- What `bin2long` makes of the text that `long2bin` writes. -/
theorem bin2long_packets (sizedReversed : Bool) {endian : Endian}
    (standard : endian ≠ .middleEndian)
    {string : List Bool} (nonempty : string ≠ []) :
    bin2long sizedReversed (packets false (string.map bitChar) []) endian =
      if endian = .bigEndian then .ok (number string.reverse)
      else if sizedReversed then .ok (number string) else .error .typeError := by
  have kept : (packets false (string.map bitChar) []).filter
      (fun character => decide (character = '0' ∨ character = '1')) = string.map bitChar := by
    rw [filter_packets rfl]
    · rfl
    · intro character member
      obtain ⟨bit, _, rfl⟩ := List.mem_map.mp member
      exact decide_eq_true (bitChar_digit bit)
  have long : string.length ≠ 0 := fun empty => nonempty (List.eq_nil_of_length_eq_zero empty)
  unfold bin2long
  rw [if_neg standard, kept, digits_bitChar]
  cases endian with
  | middleEndian => exact absurd rfl standard
  | bigEndian => simp [long, foldl_bits]
  | littleEndian =>
      have folded := foldl_bits string.reverse
      rw [List.map_reverse, List.reverse_reverse] at folded
      cases sizedReversed <;> simp [long, folded]

/-- `bin2long(long2bin(size, value, endian), endian) == value` -/
def TextRoundTrips (sizedReversed : Bool) (size value : Nat) (endian : Endian) : Prop :=
  (long2bin size value endian false >>= fun text => bin2long sizedReversed text endian) = .ok value

theorem number_reverse_iff {size value : Nat} (fits : value < 2 ^ size) :
    number (bits size value).reverse = value ↔ (bits size value).reverse = bits size value := by
  constructor
  · intro same
    have string := bits_number (bits size value).reverse
    rw [same, List.length_reverse, length_bits] at string
    exact string.symm
  · intro same
    rw [same, number_bits, Nat.mod_eq_of_lt fits]

/-- long2bin writes the bits in the order that bin2long does not read: only a number that is
the same in both orders comes back. -/
theorem bin2long_long2bin_iff (sizedReversed : Bool) {size value : Nat} (positive : 1 ≤ size)
    (fits : value < 2 ^ size) {endian : Endian} (standard : endian ≠ .middleEndian) :
    TextRoundTrips sizedReversed size value endian ↔
      (bits size value).reverse = bits size value ∧
        (endian = .bigEndian ∨ sizedReversed = true) := by
  have nonempty : bits size value ≠ [] := by
    intro empty
    have length := length_bits size value
    rw [empty, List.length_nil] at length
    omega
  have written : long2bin size value endian false =
      .ok (packets false ((if endian = .littleEndian then (bits size value).reverse
        else bits size value).map bitChar) []) := by
    rw [long2bin, if_neg standard, if_neg (by omega), Int.toNat_natCast, bitText_eq]
    split <;> simp
  rw [TextRoundTrips, written]
  change bin2long _ _ _ = _ ↔ _
  cases endian with
  | middleEndian => exact absurd rfl standard
  | bigEndian =>
      rw [if_neg (by decide), bin2long_packets _ standard nonempty, if_pos rfl, Except.ok.injEq,
        number_reverse_iff fits]
      simp
  | littleEndian =>
      rw [if_pos rfl, bin2long_packets _ standard (by simpa using nonempty), if_neg (by decide)]
      cases sizedReversed with
      | false => simp
      | true =>
          rw [if_pos rfl, Except.ok.injEq, number_reverse_iff fits]
          simp

theorem bin2long_long2bin_iff_five :
    TextRoundTrips false 3 5 .bigEndian ↔
      (bits 3 5).reverse = bits 3 5 ∧ (Endian.bigEndian = .bigEndian ∨ false = true) :=
  bin2long_long2bin_iff false (by decide) (by decide) (by decide)

theorem bin2long_long2bin_fails :
    ¬ TextRoundTrips true 2 1 .bigEndian ∧ ¬ TextRoundTrips true 2 1 .littleEndian := by
  constructor <;> simp [TextRoundTrips, long2bin, bitText, packets, bin2long, bind, Except.bind]

end Segvault.Hachoir
