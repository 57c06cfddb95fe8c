import Mathlib.Order.ConditionallyCompleteLattice.Basic
import Mathlib.Logic.Relation
import Mathlib.Order.BooleanAlgebra.Basic
import Mathlib.Data.List.Basic

namespace Segvault.Spans

open Relation

universe u

variable {α : Type u}

/-! Relations between positions under sequence, choice and repetition. -/

theorem comp_sup (r p q : α → α → Prop) :
    Comp r (p ⊔ q) = Comp r p ⊔ Comp r q := by
  funext i k
  apply propext
  constructor
  · rintro ⟨j, first, second | second⟩
    · exact Or.inl ⟨j, first, second⟩
    · exact Or.inr ⟨j, first, second⟩
  · rintro (⟨j, first, second⟩ | ⟨j, first, second⟩)
    · exact ⟨j, first, Or.inl second⟩
    · exact ⟨j, first, Or.inr second⟩

theorem sup_comp (r p q : α → α → Prop) :
    Comp (r ⊔ p) q = Comp r q ⊔ Comp p q := by
  funext i k
  apply propext
  constructor
  · rintro ⟨j, first | first, second⟩
    · exact Or.inl ⟨j, first, second⟩
    · exact Or.inr ⟨j, first, second⟩
  · rintro (⟨j, first, second⟩ | ⟨j, first, second⟩)
    · exact ⟨j, Or.inl first, second⟩
    · exact ⟨j, Or.inr first, second⟩

def sequence : List (α → α → Prop) → α → α → Prop
  | [] => Eq
  | r :: rs => Comp r (sequence rs)

@[simp] theorem sequence_nil : sequence ([] : List (α → α → Prop)) = Eq := rfl

@[simp] theorem sequence_cons (r : α → α → Prop) (rs : List (α → α → Prop)) :
    sequence (r :: rs) = Comp r (sequence rs) := rfl

theorem sequence_append (rs ps : List (α → α → Prop)) :
    sequence (rs ++ ps) = Comp (sequence rs) (sequence ps) := by
  induction rs with
  | nil => exact eq_comp.symm
  | cons r rs induction =>
      rw [List.cons_append, sequence_cons, sequence_cons, induction, comp_assoc]

theorem sequence_singleton (r : α → α → Prop) : sequence [r] = r := comp_eq

def choice : List (α → α → Prop) → α → α → Prop
  | [] => ⊥
  | r :: rs => r ⊔ choice rs

@[simp] theorem choice_nil : choice ([] : List (α → α → Prop)) = ⊥ := rfl

@[simp] theorem choice_cons (r : α → α → Prop) (rs : List (α → α → Prop)) :
    choice (r :: rs) = r ⊔ choice rs := rfl

theorem choice_append (rs ps : List (α → α → Prop)) :
    choice (rs ++ ps) = choice rs ⊔ choice ps := by
  induction rs with
  | nil => rw [List.nil_append, choice_nil, bot_sup_eq]
  | cons r rs induction =>
      rw [List.cons_append, choice_cons, choice_cons, induction, sup_assoc]

theorem choice_singleton (r : α → α → Prop) : choice [r] = r := sup_bot_eq r

def times (r : α → α → Prop) : Nat → α → α → Prop
  | 0 => Eq
  | count + 1 => Comp r (times r count)

def repeated (r : α → α → Prop) (least : Nat) (most : Option Nat) : α → α → Prop :=
  fun i j => ∃ count, least ≤ count ∧ (∀ bound ∈ most, count ≤ bound) ∧
    times r count i j

/-! Positions of a text: a position is the number of symbols before it. -/

abbrev Position (text : List α) := Fin (text.length + 1)

section Text

variable {text : List α}

def word (symbols : List α) (i j : Position text) : Prop :=
  text.drop i = symbols ++ text.drop j

def symbol (accepted : α → Prop) (i j : Position text) : Prop :=
  ∃ c, accepted c ∧ text.drop i = c :: text.drop j

theorem Position.drop_length (i : Position text) :
    (text.drop i).length + i = text.length := by
  have bound := i.isLt
  rw [List.length_drop]
  omega

theorem Position.ext_drop {i j : Position text}
    (same : text.drop i = text.drop j) : i = j := by
  have first := Position.drop_length i
  have second := Position.drop_length j
  rw [same] at first
  apply Fin.ext
  omega

theorem word_length {symbols : List α} {i j : Position text} (here : word symbols i j) :
    (i : Nat) + symbols.length = j := by
  have first := Position.drop_length i
  have second := Position.drop_length j
  rw [here, List.length_append] at first
  omega

theorem symbol_length {accepted : α → Prop} {i j : Position text}
    (here : symbol accepted i j) : (i : Nat) + 1 = j := by
  obtain ⟨c, _, here⟩ := here
  have first := Position.drop_length i
  have second := Position.drop_length j
  rw [here, List.length_cons] at first
  omega

theorem word_nil : word ([] : List α) = (Eq : Position text → Position text → Prop) := by
  funext i j
  apply propext
  constructor
  · exact Position.ext_drop
  · intro same
    rw [word, same, List.nil_append]

theorem word_append (first second : List α) :
    Comp (@word _ text first) (word second) = word (first ++ second) := by
  funext i k
  apply propext
  constructor
  · rintro ⟨j, before, after⟩
    rw [word, before, after, List.append_assoc]
  · intro whole
    rw [word, List.append_assoc] at whole
    have bound := Position.drop_length i
    rw [whole, List.length_append, List.length_append] at bound
    refine ⟨⟨i + first.length, by omega⟩, ?_, ?_⟩
    · change text.drop i = first ++ text.drop (i + first.length)
      rw [← List.drop_drop, whole, List.drop_left]
    · change text.drop (i + first.length) = _
      rw [← List.drop_drop, whole, List.drop_left]

theorem word_singleton (c : α) :
    @word _ text [c] = symbol (fun d => d = c) := by
  funext i j
  apply propext
  constructor
  · exact fun here => ⟨c, rfl, here⟩
  · rintro ⟨_, rfl, here⟩
    exact here

theorem symbol_congr {accepted admitted : α → Prop}
    (same : ∀ c, accepted c ↔ admitted c) :
    @symbol _ text accepted = symbol admitted := by
  rw [show accepted = admitted from funext fun c => propext (same c)]

theorem symbol_or (accepted admitted : α → Prop) :
    @symbol _ text (fun c => accepted c ∨ admitted c) =
      symbol accepted ⊔ symbol admitted := by
  funext i j
  apply propext
  constructor
  · rintro ⟨c, holds | holds, here⟩
    · exact Or.inl ⟨c, holds, here⟩
    · exact Or.inr ⟨c, holds, here⟩
  · rintro (⟨c, holds, here⟩ | ⟨c, holds, here⟩)
    · exact ⟨c, Or.inl holds, here⟩
    · exact ⟨c, Or.inr holds, here⟩

end Text

end Segvault.Spans
