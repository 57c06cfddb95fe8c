import Mathlib.Data.List.Basic

namespace Segvault

/-! Lexers that take, of all their rules, the one that matches most of the text, and of those that
match as much the first. -/

structure LexRule (α β : Type) where
  /-- How much of a text the pattern matches at most. -/
  matched : List α → Option Nat
  action : β

variable {α β : Type}

namespace LexRule

def better (text : List α) (best : Option (Nat × β)) (rule : LexRule α β) : Option (Nat × β) :=
  match rule.matched text, best with
  | none, _ => best
  | some length, none => some (length, rule.action)
  | some length, some (longest, action) =>
      if longest < length then some (length, rule.action) else some (longest, action)

def longest (rules : List (LexRule α β)) (text : List α) : Option (Nat × β) :=
  rules.foldl (better text) none

variable {text : List α}

theorem better_of_lt {rule : LexRule α β} {length : Nat} (matched : rule.matched text = some length)
    {best : Option (Nat × β)} (below : ∀ result ∈ best, result.1 < length) :
    better text best rule = some (length, rule.action) := by
  unfold better
  rw [matched]
  cases best with
  | none => rfl
  | some best => exact if_pos (below best rfl)

/-- A rule that matches no more changes nothing. -/
theorem foldl_better_le {rules : List (LexRule α β)} {length : Nat} {action : β}
    (most : ∀ rule ∈ rules, ∀ other ∈ rule.matched text, other ≤ length) :
    rules.foldl (better text) (some (length, action)) = some (length, action) := by
  induction rules with
  | nil => rfl
  | cons rule rules induction =>
      have first := most rule List.mem_cons_self
      have same : better text (some (length, action)) rule = some (length, action) := by
        unfold better
        cases matched : rule.matched text with
        | none => rfl
        | some other => exact if_neg (Nat.not_lt.mpr (first other matched))
      rw [List.foldl_cons, same]
      exact induction fun rule member => most rule (List.mem_cons_of_mem _ member)

theorem foldl_better_lt {rules : List (LexRule α β)} {length : Nat}
    (fewer : ∀ rule ∈ rules, ∀ other ∈ rule.matched text, other < length)
    {best : Option (Nat × β)} (below : ∀ result ∈ best, result.1 < length) :
    ∀ result ∈ rules.foldl (better text) best, result.1 < length := by
  induction rules generalizing best with
  | nil => exact below
  | cons rule rules induction =>
      refine induction (fun rule member => fewer rule (List.mem_cons_of_mem _ member)) ?_
      have first := fewer rule List.mem_cons_self
      unfold better
      cases matched : rule.matched text with
      | none => exact below
      | some other =>
          have smaller := first other matched
          cases best with
          | none =>
              rintro _ ⟨⟩
              exact smaller
          | some best =>
              intro result member
              dsimp only at member
              split at member
              · cases member
                exact smaller
              · exact below result member

/-- The rule that is applied: those before it match less, those after it no more. -/
theorem longest_of {before after : List (LexRule α β)} {rule : LexRule α β} {length : Nat}
    (matched : rule.matched text = some length)
    (fewer : ∀ shorter ∈ before.filterMap (·.matched text), shorter < length)
    (most : ∀ shorter ∈ after.filterMap (·.matched text), shorter ≤ length) :
    longest (before ++ rule :: after) text = some (length, rule.action) := by
  have below : ∀ result ∈ before.foldl (better text) none, result.1 < length :=
    foldl_better_lt (fun other member shorter matched =>
      fewer shorter (List.mem_filterMap.mpr ⟨other, member, matched⟩)) fun _ none_ => nomatch none_
  rw [longest, List.foldl_append, List.foldl_cons, better_of_lt matched below]
  exact foldl_better_le fun other member shorter matched =>
    most shorter (List.mem_filterMap.mpr ⟨other, member, matched⟩)

end LexRule

end Segvault
