import Mathlib.Data.List.Basic

namespace Segvault

/-! Tags that open and close, and a stack of those that are open. -/

inductive Tag (α : Type)
  | opening (label : α)
  | closing (label : α)
  deriving DecidableEq

namespace Tag

variable {α : Type}

/-- Each tag that opens is closed, after all that was opened inside of it. -/
inductive Balanced : List (Tag α) → Prop
  | nil : Balanced []
  | pair (label : α) {inside after : List (Tag α)} (balancedInside : Balanced inside)
      (balancedAfter : Balanced after) :
      Balanced (.opening label :: inside ++ .closing label :: after)

/-- Tags that close a whole stack, with balanced ones in between. -/
inductive Closes : List α → List (Tag α) → Prop
  | nil {tags : List (Tag α)} (balanced : Balanced tags) : Closes [] tags
  | cons {label : α} {stack : List α} {before after : List (Tag α)} (balanced : Balanced before)
      (closes : Closes stack after) : Closes (label :: stack) (before ++ .closing label :: after)

theorem Closes.wrap {stack : List α} {inside after : List (Tag α)} (label : α)
    (balanced : Balanced inside) (closes : Closes stack after) :
    Closes stack (.opening label :: inside ++ .closing label :: after) := by
  cases closes with
  | nil balancedAfter => exact .nil (.pair label balanced balancedAfter)
  | @cons other stack before after balancedBefore closes =>
      have whole := @Closes.cons α other stack _ after (.pair label balanced balancedBefore) closes
      rwa [List.append_assoc, List.cons_append] at whole

variable [DecidableEq α]

/-- The stack after a tag, the innermost first. -/
def track (stack : List α) : Tag α → Option (List α)
  | .opening label => some (label :: stack)
  | .closing label =>
      match stack with
      | [] => none
      | top :: stack => if top = label then some stack else none

theorem track_closing (label : α) (stack : List α) :
    track (label :: stack) (.closing label) = some stack := if_pos rfl

theorem Balanced.foldlM_track {tags : List (Tag α)} (balanced : Balanced tags)
    (stack : List α) : tags.foldlM track stack = some stack := by
  induction balanced generalizing stack with
  | nil => rfl
  | pair label _ _ inside after =>
      rw [List.cons_append, List.foldlM_cons]
      refine Option.bind_eq_some_iff.mpr ⟨label :: stack, rfl, ?_⟩
      rw [List.foldlM_append]
      refine Option.bind_eq_some_iff.mpr ⟨label :: stack, inside _, ?_⟩
      rw [List.foldlM_cons, track_closing]
      exact after stack

theorem closes_of_foldlM_track {tags : List (Tag α)} {stack : List α}
    (tracked : tags.foldlM track stack = some []) : Closes stack tags := by
  induction tags generalizing stack with
  | nil =>
      cases tracked
      exact .nil .nil
  | cons tag tags induction =>
      obtain ⟨middle, first, rest⟩ := Option.bind_eq_some_iff.mp tracked
      cases tag with
      | opening label =>
          cases first
          cases induction rest with
          | cons balanced closes => exact closes.wrap label balanced
      | closing label =>
          cases stack with
          | nil => cases first
          | cons top stack =>
              simp only [track] at first
              split at first
              · rename_i same
                cases first
                exact same ▸ .cons .nil (induction rest)
              · cases first

theorem balanced_iff (tags : List (Tag α)) :
    Balanced tags ↔ tags.foldlM track [] = some [] := by
  refine ⟨fun balanced => balanced.foldlM_track [], fun tracked => ?_⟩
  cases closes_of_foldlM_track tracked with
  | nil balanced => exact balanced

end Tag

end Segvault
