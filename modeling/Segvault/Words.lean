import Mathlib.Order.CompletePartialOrder
import Segvault.Repeats
import Mathlib.Computability.Language

namespace Segvault.Spans

open Relation Language

universe u

variable {α : Type u}

/-! The words of a repetition. -/

def repeatedWords (language : Language α) (least : Nat) (most : Option Nat) : Language α :=
  { symbols | ∃ count, Within least most count ∧ symbols ∈ language ^ count }

/-! Shortest and longest words. -/

def lengths (language : Language α) : Set Nat :=
  { length | ∃ symbols ∈ language, symbols.length = length }

abbrev Shortest (language : Language α) (length : Nat) : Prop :=
  IsLeast (lengths language) length

abbrev Longest (language : Language α) (length : Nat) : Prop :=
  IsGreatest (lengths language) length

/-- There is a word longer than any given length. -/
abbrev Endless (language : Language α) : Prop :=
  ¬ BddAbove (lengths language)

section Lengths

variable {first second language : Language α} {a b least : Nat}

theorem mem_lengths_mul {length : Nat} :
    length ∈ lengths (first * second) ↔
      ∃ before ∈ lengths first, ∃ after ∈ lengths second, before + after = length := by
  constructor
  · rintro ⟨symbols, inside, rfl⟩
    obtain ⟨before, inFirst, after, inSecond, rfl⟩ := mem_mul.mp inside
    exact ⟨_, ⟨before, inFirst, rfl⟩, _, ⟨after, inSecond, rfl⟩, (List.length_append).symm⟩
  · rintro ⟨_, ⟨before, inFirst, rfl⟩, _, ⟨after, inSecond, rfl⟩, rfl⟩
    exact ⟨before ++ after, append_mem_mul inFirst inSecond, List.length_append⟩

theorem lengths_add : lengths (first + second) = lengths first ∪ lengths second := by
  ext length
  constructor
  · rintro ⟨symbols, inside, same⟩
    exact inside.imp (fun inFirst => ⟨symbols, inFirst, same⟩)
      fun inSecond => ⟨symbols, inSecond, same⟩
  · rintro (⟨symbols, inside, same⟩ | ⟨symbols, inside, same⟩)
    · exact ⟨symbols, Or.inl inside, same⟩
    · exact ⟨symbols, Or.inr inside, same⟩

theorem lengths_one : lengths (1 : Language α) = {0} := by
  ext length
  constructor
  · rintro ⟨_, rfl, rfl⟩
    rfl
  · rintro rfl
    exact ⟨[], nil_mem_one, rfl⟩

theorem shortest_mul (one : Shortest first a) (other : Shortest second b) :
    Shortest (first * second) (a + b) := by
  refine ⟨mem_lengths_mul.mpr ⟨a, one.1, b, other.1, rfl⟩, ?_⟩
  rintro length inside
  obtain ⟨before, inFirst, after, inSecond, rfl⟩ := mem_lengths_mul.mp inside
  exact Nat.add_le_add (one.2 inFirst) (other.2 inSecond)

theorem longest_mul (one : Longest first a) (other : Longest second b) :
    Longest (first * second) (a + b) := by
  refine ⟨mem_lengths_mul.mpr ⟨a, one.1, b, other.1, rfl⟩, ?_⟩
  rintro length inside
  obtain ⟨before, inFirst, after, inSecond, rfl⟩ := mem_lengths_mul.mp inside
  exact Nat.add_le_add (one.2 inFirst) (other.2 inSecond)

theorem shortest_add (one : Shortest first a) (other : Shortest second b) :
    Shortest (first + second) (min a b) := by
  rw [Shortest, lengths_add]
  exact one.union other

theorem longest_add (one : Longest first a) (other : Longest second b) :
    Longest (first + second) (max a b) := by
  rw [Longest, lengths_add]
  exact one.union other

theorem shortest_one : Shortest (1 : Language α) 0 := by
  rw [Shortest, lengths_one]
  exact isLeast_singleton

theorem longest_one : Longest (1 : Language α) 0 := by
  rw [Longest, lengths_one]
  exact isGreatest_singleton

theorem shortest_pow (one : Shortest language a) (count : Nat) :
    Shortest (language ^ count) (a * count) := by
  induction count with
  | zero => exact shortest_one
  | succ count induction => exact pow_succ language count ▸ shortest_mul induction one

theorem longest_pow (one : Longest language a) (count : Nat) :
    Longest (language ^ count) (a * count) := by
  induction count with
  | zero => exact longest_one
  | succ count induction => exact pow_succ language count ▸ longest_mul induction one

theorem shortest_repeatedWords {most : Option Nat} (bounds : Bounds least most)
    (one : Shortest language a) : Shortest (repeatedWords language least most) (a * least) := by
  obtain ⟨⟨symbols, inside, same⟩, _⟩ := shortest_pow one least
  refine ⟨⟨symbols, ⟨least, ⟨Nat.le_refl _, bounds.ordered⟩, inside⟩, same⟩, ?_⟩
  rintro _ ⟨symbols, ⟨count, ⟨atLeast, _⟩, inside⟩, rfl⟩
  exact (Nat.mul_le_mul_left a atLeast).trans ((shortest_pow one count).2 ⟨symbols, inside, rfl⟩)

theorem longest_repeatedWords {most : Nat} (bounds : Bounds least (some most))
    (one : Longest language a) :
    Longest (repeatedWords language least (some most)) (a * most) := by
  obtain ⟨⟨symbols, inside, same⟩, _⟩ := longest_pow one most
  refine ⟨⟨symbols, ⟨most, ⟨bounds.ordered most rfl, fun bound below => ?_⟩, inside⟩, same⟩, ?_⟩
  · cases below
    exact Nat.le_refl _
  rintro _ ⟨symbols, ⟨count, ⟨_, atMost⟩, inside⟩, rfl⟩
  exact ((longest_pow one count).2 ⟨symbols, inside, rfl⟩).trans
    (Nat.mul_le_mul_left a (atMost most rfl))

/-! Languages with words of every length and more. -/

theorem endless_iff : Endless language ↔
    ∀ length, ∃ symbols ∈ language, length < symbols.length := by
  rw [Endless, not_bddAbove_iff]
  constructor
  · intro exceeds length
    obtain ⟨_, ⟨symbols, inside, rfl⟩, longer⟩ := exceeds length
    exact ⟨symbols, inside, longer⟩
  · intro exceeds length
    obtain ⟨symbols, inside, longer⟩ := exceeds length
    exact ⟨_, ⟨symbols, inside, rfl⟩, longer⟩

theorem endless_mul_left (endless : Endless first) (inside : ∃ symbols, symbols ∈ second) :
    Endless (first * second) := by
  rw [endless_iff] at endless ⊢
  intro length
  obtain ⟨before, inFirst, longer⟩ := endless length
  obtain ⟨after, inSecond⟩ := inside
  refine ⟨before ++ after, append_mem_mul inFirst inSecond, ?_⟩
  rw [List.length_append]
  omega

theorem endless_mul_right (inside : ∃ symbols, symbols ∈ first) (endless : Endless second) :
    Endless (first * second) := by
  rw [endless_iff] at endless ⊢
  intro length
  obtain ⟨after, inSecond, longer⟩ := endless length
  obtain ⟨before, inFirst⟩ := inside
  refine ⟨before ++ after, append_mem_mul inFirst inSecond, ?_⟩
  rw [List.length_append]
  omega

theorem lengths_mono (within : first ≤ second) : lengths first ⊆ lengths second :=
  fun _ ⟨symbols, inside, same⟩ => ⟨symbols, within inside, same⟩

theorem endless_mono (within : first ≤ second) (endless : Endless first) : Endless second :=
  fun bounded => endless (bounded.mono (lengths_mono within))

theorem pow_le_repeatedWords {most : Option Nat} {count : Nat}
    (within : Within least most count) : language ^ count ≤ repeatedWords language least most :=
  fun _ inside => ⟨count, within, inside⟩

theorem exists_mem_pow (inside : ∃ symbols, symbols ∈ language) (count : Nat) :
    ∃ symbols, symbols ∈ language ^ count := by
  induction count with
  | zero => exact ⟨[], nil_mem_one⟩
  | succ count induction =>
      obtain ⟨before, inPow⟩ := induction
      obtain ⟨after, inside⟩ := inside
      exact ⟨before ++ after, pow_succ language count ▸ append_mem_mul inPow inside⟩

theorem exists_mem_repeatedWords {most : Option Nat} (bounds : Bounds least most)
    (inside : ∃ symbols, symbols ∈ language) :
    ∃ symbols, symbols ∈ repeatedWords language least most := by
  obtain ⟨symbols, inPow⟩ := exists_mem_pow inside least
  exact ⟨symbols, pow_le_repeatedWords ⟨Nat.le_refl _, bounds.ordered⟩ inPow⟩

/-- The bounds allow at least one repetition. -/
theorem Bounds.within_once {most : Option Nat} (bounds : Bounds least most) :
    Within least most (least - 1 + 1) := by
  refine ⟨by omega, fun bound below => ?_⟩
  have ordered := bounds.ordered bound below
  have positive := bounds.positive bound below
  omega

theorem endless_repeatedWords {most : Option Nat} (bounds : Bounds least most)
    (endless : Endless language) : Endless (repeatedWords language least most) := by
  have inside : ∃ symbols, symbols ∈ language := by
    obtain ⟨symbols, inside, _⟩ := endless_iff.mp endless 0
    exact ⟨symbols, inside⟩
  refine endless_mono (pow_le_repeatedWords bounds.within_once) ?_
  rw [pow_succ]
  exact endless_mul_right (exists_mem_pow inside _) endless

theorem pow_mem_length {symbols : List α} (inside : symbols ∈ language) (count : Nat) :
    count * symbols.length ∈ lengths (language ^ count) := by
  refine ⟨(List.replicate count symbols).flatten, ?_, length_flatten_replicate symbols count⟩
  exact mem_pow.mpr ⟨List.replicate count symbols, rfl, by simp,
    fun other member => List.eq_of_mem_replicate member ▸ inside⟩

theorem endless_star {symbols : List α} (inside : symbols ∈ language)
    (nonempty : symbols ≠ []) : Endless (repeatedWords language least none) := by
  rw [endless_iff]
  intro length
  obtain ⟨whole, inPow, same⟩ := pow_mem_length inside (least + length + 1)
  have within : Within least none (least + length + 1) := ⟨by omega, by simp⟩
  refine ⟨whole, pow_le_repeatedWords within inPow, ?_⟩
  have positive : 0 < symbols.length := List.length_pos_iff.mpr nonempty
  have grows := Nat.le_mul_of_pos_right (least + length + 1) positive
  omega

/-! Languages whose words have bounded lengths. -/

theorem bounded_mul (one : BddAbove (lengths first)) (other : BddAbove (lengths second)) :
    BddAbove (lengths (first * second)) := by
  obtain ⟨a, one⟩ := one
  obtain ⟨b, other⟩ := other
  refine ⟨a + b, ?_⟩
  rintro length inside
  obtain ⟨before, inFirst, after, inSecond, rfl⟩ := mem_lengths_mul.mp inside
  exact Nat.add_le_add (one inFirst) (other inSecond)

theorem bounded_add (one : BddAbove (lengths first)) (other : BddAbove (lengths second)) :
    BddAbove (lengths (first + second)) := by
  rw [lengths_add]
  exact one.union other

theorem pow_lengths_le {bound : Nat} (one : bound ∈ upperBounds (lengths language))
    (count : Nat) : bound * count ∈ upperBounds (lengths (language ^ count)) := by
  induction count with
  | zero =>
      rw [pow_zero, lengths_one]
      rintro _ rfl
      exact Nat.zero_le _
  | succ count induction =>
      rw [pow_succ]
      rintro length inside
      obtain ⟨before, inPow, after, inLast, rfl⟩ := mem_lengths_mul.mp inside
      exact Nat.add_le_add (induction inPow) (one inLast)

theorem bounded_repeatedWords {most : Nat} (one : BddAbove (lengths language)) :
    BddAbove (lengths (repeatedWords language least (some most))) := by
  obtain ⟨bound, one⟩ := one
  refine ⟨bound * most, ?_⟩
  rintro _ ⟨symbols, ⟨count, ⟨_, atMost⟩, inside⟩, rfl⟩
  exact (pow_lengths_le one count ⟨symbols, inside, rfl⟩).trans
    (Nat.mul_le_mul_left bound (atMost most rfl))

/-- Repeating the empty word gives the empty word. -/
theorem repeatedWords_empty {most : Option Nat}
    (empty : ∀ symbols ∈ language, symbols = []) :
    ∀ symbols ∈ repeatedWords language least most, symbols = [] := by
  rintro symbols ⟨count, _, inside⟩
  have zero : 0 ∈ upperBounds (lengths language) := by
    rintro _ ⟨symbols, inside, rfl⟩
    rw [empty symbols inside]
    rfl
  have short := pow_lengths_le zero count ⟨symbols, inside, rfl⟩
  rw [Nat.zero_mul] at short
  exact List.eq_nil_of_length_eq_zero (Nat.le_zero.mp short)

theorem bounded_of_empty (empty : ∀ symbols ∈ language, symbols = []) :
    BddAbove (lengths language) := by
  refine ⟨0, ?_⟩
  rintro _ ⟨symbols, inside, rfl⟩
  rw [empty symbols inside]
  rfl

end Lengths

/-! Concatenations and alternatives of several languages. -/

section Several

variable {languages : List (Language α)} {language : Language α}

theorem exists_mem_prod (inside : ∀ language ∈ languages, ∃ symbols, symbols ∈ language) :
    ∃ symbols, symbols ∈ languages.prod := by
  induction languages with
  | nil => exact ⟨[], nil_mem_one⟩
  | cons language languages induction =>
      obtain ⟨before, inFirst⟩ := inside language (by simp)
      obtain ⟨after, inRest⟩ := induction fun other member =>
        inside other (List.mem_cons_of_mem _ member)
      rw [List.prod_cons]
      exact ⟨before ++ after, append_mem_mul inFirst inRest⟩

theorem mem_sum {symbols : List α} :
    symbols ∈ languages.sum ↔ ∃ language ∈ languages, symbols ∈ language := by
  induction languages with
  | nil => simp [notMem_zero]
  | cons language languages induction => simp [mem_add, induction]

theorem endless_prod (inside : ∀ language ∈ languages, ∃ symbols, symbols ∈ language)
    (member : language ∈ languages) (endless : Endless language) : Endless languages.prod := by
  induction languages with
  | nil => cases member
  | cons head languages induction =>
      rw [List.prod_cons]
      have later := fun other member => inside other (List.mem_cons_of_mem head member)
      obtain rfl | member := List.mem_cons.mp member
      · exact endless_mul_left endless (exists_mem_prod later)
      · exact endless_mul_right (inside head (by simp)) (induction later member)

theorem endless_sum (member : language ∈ languages) (endless : Endless language) :
    Endless languages.sum :=
  endless_mono (fun _ inside => mem_sum.mpr ⟨language, member, inside⟩) endless

theorem bounded_prod (bounded : ∀ language ∈ languages, BddAbove (lengths language)) :
    BddAbove (lengths languages.prod) := by
  induction languages with
  | nil => exact lengths_one ▸ bddAbove_singleton
  | cons language languages induction =>
      rw [List.prod_cons]
      exact bounded_mul (bounded language (by simp))
        (induction fun other member => bounded other (List.mem_cons_of_mem _ member))

theorem bounded_sum (bounded : ∀ language ∈ languages, BddAbove (lengths language)) :
    BddAbove (lengths languages.sum) := by
  induction languages with
  | nil => exact ⟨0, fun _ ⟨symbols, inside, _⟩ => absurd inside (notMem_zero symbols)⟩
  | cons language languages induction =>
      rw [List.sum_cons]
      exact bounded_add (bounded language (by simp))
        (induction fun other member => bounded other (List.mem_cons_of_mem _ member))

theorem empty_prod (empty : ∀ language ∈ languages, ∀ symbols ∈ language, symbols = []) :
    ∀ symbols ∈ languages.prod, symbols = [] := by
  induction languages with
  | nil => exact fun symbols inside => inside
  | cons language languages induction =>
      intro symbols inside
      rw [List.prod_cons] at inside
      obtain ⟨before, inFirst, after, inRest, rfl⟩ := mem_mul.mp inside
      rw [empty language (by simp) before inFirst, induction (fun other member =>
        empty other (List.mem_cons_of_mem _ member)) after inRest]
      rfl

/-- Some word of the language is not empty. -/
def Long (language : Language α) : Prop :=
  ∃ symbols ∈ language, symbols ≠ []

theorem long_prod (inside : ∀ language ∈ languages, ∃ symbols, symbols ∈ language)
    (member : language ∈ languages) (long : Long language) : Long languages.prod := by
  induction languages with
  | nil => cases member
  | cons head languages induction =>
      have later := fun other member => inside other (List.mem_cons_of_mem head member)
      rw [List.prod_cons]
      obtain rfl | member := List.mem_cons.mp member
      · obtain ⟨before, inFirst, nonempty⟩ := long
        obtain ⟨after, inRest⟩ := exists_mem_prod later
        exact ⟨before ++ after, append_mem_mul inFirst inRest,
          List.append_ne_nil_of_left_ne_nil nonempty after⟩
      · obtain ⟨after, inRest, nonempty⟩ := induction later member
        obtain ⟨before, inFirst⟩ := inside head (by simp)
        exact ⟨before ++ after, append_mem_mul inFirst inRest,
          List.append_ne_nil_of_right_ne_nil before nonempty⟩

theorem long_sum (member : language ∈ languages) (long : Long language) :
    Long languages.sum := by
  obtain ⟨symbols, inside, nonempty⟩ := long
  exact ⟨symbols, mem_sum.mpr ⟨language, member, inside⟩, nonempty⟩

theorem long_repeatedWords {least : Nat} {most : Option Nat} (bounds : Bounds least most)
    (long : Long language) : Long (repeatedWords language least most) := by
  obtain ⟨symbols, inside, nonempty⟩ := long
  obtain ⟨before, inPow⟩ := exists_mem_pow ⟨symbols, inside⟩ (least - 1)
  refine ⟨before ++ symbols, pow_le_repeatedWords bounds.within_once ?_,
    List.append_ne_nil_of_right_ne_nil before nonempty⟩
  rw [pow_succ]
  exact append_mem_mul inPow inside

end Several

end Segvault.Spans
