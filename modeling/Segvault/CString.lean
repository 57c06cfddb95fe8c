import Mathlib.Data.List.TakeWhile

namespace Segvault

/-! The strings of C: what a block of memory holds from some place on, up to a NUL. -/

namespace CString

def text (buffer : List UInt8) (offset : Nat) : List UInt8 :=
  (buffer.drop offset).takeWhile (· ≠ 0)

def strlen (buffer : List UInt8) : Nat := (text buffer 0).length

variable {buffer string rest : List UInt8} {offset : Nat}

theorem text_eq (held : buffer.drop offset = string ++ 0 :: rest) (noNul : 0 ∉ string) :
    text buffer offset = string := by
  have plain : ∀ byte ∈ string, decide (byte ≠ 0) = true := fun byte member =>
    decide_eq_true fun null => noNul (null ▸ member)
  rw [text, held, List.takeWhile_append_of_pos plain]
  exact List.append_nil _

theorem text_append (noNul : 0 ∉ string) (rest : List UInt8) :
    text (string ++ rest) 0 = string ++ text rest 0 :=
  List.takeWhile_append_of_pos fun _ member => decide_eq_true fun null => noNul (null ▸ member)

theorem text_of_noNul (noNul : 0 ∉ string) : text string 0 = string :=
  List.takeWhile_eq_self_iff.mpr fun _ member =>
    decide_eq_true fun null => noNul (null ▸ member)

theorem strlen_eq (noNul : 0 ∉ string) (rest : List UInt8) :
    strlen (string ++ 0 :: rest) = string.length :=
  congrArg List.length (@text_eq _ _ _ 0 rfl noNul)

/-! The first place of a string from some place on that has a property. -/

def firstFrom (string : List UInt8) (start : Nat) (holds : Nat → Bool) : Option Nat :=
  (List.range string.length).find? fun index => start ≤ index && holds index

def strchr (string : List UInt8) (start : Nat) (c : UInt8) : Option Nat :=
  firstFrom string start fun index => string[index]? = some c

variable {start index : Nat} {holds : Nat → Bool}

theorem firstFrom_eq_some :
    firstFrom string start holds = some index ↔
      (start ≤ index ∧ index < string.length ∧ holds index = true) ∧
        ∀ earlier, start ≤ earlier → earlier < index → holds earlier = false := by
  rw [firstFrom, List.find?_range_eq_some]
  simp only [Bool.and_eq_true, decide_eq_true_eq, List.mem_range, Bool.not_eq_true',
    Bool.and_eq_false_iff, decide_eq_false_iff_not]
  constructor
  · rintro ⟨⟨after, found⟩, inside, first⟩
    exact ⟨⟨after, inside, found⟩, fun earlier from_ before =>
      (first earlier before).resolve_left (not_not_intro from_)⟩
  · rintro ⟨⟨after, inside, found⟩, first⟩
    exact ⟨⟨after, found⟩, inside, fun earlier before =>
      or_iff_not_imp_left.mpr fun from_ => first earlier (not_not.mp from_) before⟩

theorem firstFrom_eq_none :
    firstFrom string start holds = none ↔
      ∀ index, start ≤ index → index < string.length → holds index = false := by
  rw [firstFrom, List.find?_range_eq_none]
  simp only [Bool.not_eq_true', Bool.and_eq_false_iff, decide_eq_false_iff_not]
  exact forall_congr' fun index => ⟨fun all from_ inside =>
    (all inside).resolve_left (not_not_intro from_), fun all inside =>
      or_iff_not_imp_left.mpr fun from_ => all (not_not.mp from_) inside⟩

/-! Escaped quotes. -/

/-- The backslashes at the end of a text. -/
def backslashes (bytes : List UInt8) : Nat := (bytes.reverse.takeWhile (· = 92)).length

theorem backslashes_concat (bytes : List UInt8) (byte : UInt8) :
    backslashes (bytes ++ [byte]) = if byte = 92 then backslashes bytes + 1 else 0 := by
  rw [backslashes, List.reverse_append, List.reverse_singleton, List.singleton_append,
    List.takeWhile_cons]
  by_cases backslash : byte = 92
  · rw [if_pos (decide_eq_true backslash), if_pos backslash]
    rfl
  · rw [if_neg backslash, decide_eq_false backslash]
    rfl

end CString

end Segvault
