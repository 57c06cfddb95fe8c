import Mathlib.Data.List.Basic
import Mathlib.Order.Bounds.Basic

namespace Segvault

universe u

variable {α : Type u} [DecidableEq α]

/-! The first occurrence of a pattern in a text. -/

def Occurs (text pattern : List α) (index : Nat) : Prop :=
  (text.drop index).take pattern.length = pattern

instance (text pattern : List α) (index : Nat) : Decidable (Occurs text pattern index) :=
  inferInstanceAs (Decidable (_ = _))

def find (text pattern : List α) : Option Nat :=
  (List.range (text.length + 1)).find? fun index => Occurs text pattern index

namespace Occurs

variable {text pattern : List α} {start size index : Nat}

omit [DecidableEq α] in
theorem bounded (occurs : Occurs text pattern index) (inside : index ≤ text.length) :
    index + pattern.length ≤ text.length := by
  have length := congrArg List.length occurs
  rw [List.length_take, List.length_drop] at length
  omega

omit [DecidableEq α] in
theorem in_window (fits : index + pattern.length ≤ size) :
    Occurs ((text.drop start).take size) pattern index ↔
      Occurs text pattern (start + index) := by
  unfold Occurs
  rw [List.drop_take, List.take_take, List.drop_drop, Nat.min_eq_left (by omega)]

end Occurs

theorem find_eq_some {text pattern : List α} {index : Nat} :
    find text pattern = some index ↔
      index ≤ text.length ∧ Occurs text pattern index ∧
        ∀ earlier < index, ¬ Occurs text pattern earlier := by
  rw [find, List.find?_range_eq_some]
  simp only [decide_eq_true_eq, List.mem_range, Bool.not_eq_true', decide_eq_false_iff_not]
  constructor
  · rintro ⟨occurs, bound, first⟩
    exact ⟨by omega, occurs, first⟩
  · rintro ⟨bound, occurs, first⟩
    exact ⟨occurs, by omega, first⟩

theorem find_eq_none {text pattern : List α} :
    find text pattern = none ↔ ∀ index ≤ text.length, ¬ Occurs text pattern index := by
  rw [find, List.find?_range_eq_none]
  simp only [Bool.not_eq_true', decide_eq_false_iff_not, Nat.lt_succ_iff]

/-! Two sets of numbers with the same least element: the first number of either is one of
both. -/

section Least

variable {first second : Set Nat}

theorem isLeast_of_agree
    (agree : ∀ number, (∀ earlier < number, earlier ∉ first ∧ earlier ∉ second) →
      (number ∈ first ↔ number ∈ second))
    {least : Nat} (isLeast : IsLeast first least) : IsLeast second least := by
  have none : ∀ number < least, number ∉ first ∧ number ∉ second := by
    intro number
    induction number using Nat.strongRecOn with
    | ind number induction =>
        intro below
        have outside : number ∉ first := fun inside =>
          Nat.not_le_of_lt below (isLeast.2 inside)
        have same := agree number fun earlier before =>
          induction earlier before (before.trans below)
        exact ⟨outside, fun inside => outside (same.mpr inside)⟩
  refine ⟨(agree least none).mp isLeast.1, fun other inside => ?_⟩
  exact Nat.le_of_not_lt fun below => (none other below).2 inside

theorem isLeast_congr_iff :
    (∀ least, IsLeast first least ↔ IsLeast second least) ↔
      ∀ number, (∀ earlier < number, earlier ∉ first ∧ earlier ∉ second) →
        (number ∈ first ↔ number ∈ second) := by
  constructor
  · intro same number none
    have above : ∀ {numbers : Set Nat}, (∀ earlier < number, earlier ∉ numbers) →
        number ∈ numbers → IsLeast numbers number := by
      intro numbers absent inside
      refine ⟨inside, fun other member => Nat.le_of_not_lt fun below => ?_⟩
      exact absent other below member
    constructor
    · intro inside
      exact ((same number).mp (above (fun earlier before => (none earlier before).1) inside)).1
    · intro inside
      exact ((same number).mpr (above (fun earlier before => (none earlier before).2) inside)).1
  · intro agree least
    refine ⟨isLeast_of_agree agree, isLeast_of_agree fun number none => ?_⟩
    exact (agree number fun earlier before => (none earlier before).symm).symm

end Least

end Segvault
