import Segvault.HachoirRegex.Tree

namespace Segvault.HachoirRegex

namespace Tree

/-! The regexes inside a regex. -/

mutual

def subtrees : Tree → List Tree
  | atom ref leaf => [atom ref leaf]
  | regexAnd ref init last => regexAnd ref init last :: (subtreesAll init ++ subtrees last)
  | regexOr ref content => regexOr ref content :: subtreesAll content
  | regexRepeat ref regex min max => regexRepeat ref regex min max :: subtrees regex

def subtreesAll : List Tree → List Tree
  | [] => []
  | item :: items => subtrees item ++ subtreesAll items

end

theorem subtreesAll_eq (items : List Tree) : subtreesAll items = items.flatMap subtrees := by
  induction items with
  | nil => rfl
  | cons item items induction => rw [subtreesAll, induction, List.flatMap_cons]

/-- The items of a RegexAnd or a RegexOr, and the regex of a RegexRepeat. -/
def children : Tree → List Tree
  | atom _ _ => []
  | regexAnd _ init last => init ++ [last]
  | regexOr _ content => content
  | regexRepeat _ regex _ _ => [regex]

theorem child_induct {motive : Tree → Prop}
    (step : ∀ t : Tree, (∀ item ∈ t.children, motive item) → motive t) (t : Tree) :
    motive t := by
  induction t with
  | atom ref leaf => exact step _ fun item member => absurd member List.not_mem_nil
  | regexAnd ref init last inductionInit inductionLast =>
      refine step _ fun item member => ?_
      obtain inInit | isLast := List.mem_append.mp member
      · exact inductionInit item inInit
      · exact List.mem_singleton.mp isLast ▸ inductionLast
  | regexOr ref content inductionContent => exact step _ inductionContent
  | regexRepeat ref regex min max induction =>
      exact step _ fun item member => List.mem_singleton.mp member ▸ induction

theorem subtrees_eq (t : Tree) : t.subtrees = t :: t.children.flatMap subtrees := by
  cases t with
  | atom ref leaf => rfl
  | regexAnd ref init last => simp [subtrees, children, subtreesAll_eq]
  | regexOr ref content => rw [subtrees, children, subtreesAll_eq]
  | regexRepeat ref regex min max => simp [subtrees, children]

theorem mem_subtrees {s t : Tree} :
    s ∈ t.subtrees ↔ s = t ∨ ∃ item ∈ t.children, s ∈ item.subtrees := by
  rw [subtrees_eq, List.mem_cons, List.mem_flatMap]

theorem self_mem_subtrees (t : Tree) : t ∈ t.subtrees :=
  mem_subtrees.mpr (.inl rfl)

theorem mem_subtrees_child {s t item : Tree} (child : item ∈ t.children)
    (member : s ∈ item.subtrees) : s ∈ t.subtrees :=
  mem_subtrees.mpr (.inr ⟨item, child, member⟩)

theorem Rep.child {h : Heap} {t item : Tree} (rep : t.Rep h) (child : item ∈ t.children) :
    item.Rep h := by
  cases t with
  | atom ref leaf => cases child
  | regexAnd ref init last =>
      obtain inInit | isLast := List.mem_append.mp child
      · exact repAll_iff.mp rep.2.1 item inInit
      · exact List.mem_singleton.mp isLast ▸ rep.2.2
  | regexOr ref content => exact repAll_iff.mp rep.2 item child
  | regexRepeat ref regex min max => exact List.mem_singleton.mp child ▸ rep.2

theorem Rep.subtree {h : Heap} {s t : Tree} (rep : t.Rep h) (member : s ∈ t.subtrees) :
    s.Rep h := by
  induction t using child_induct with
  | step t induction =>
      obtain rfl | ⟨item, child, inside⟩ := mem_subtrees.mp member
      · exact rep
      · exact induction item child (rep.child child) inside

end Tree

end Segvault.HachoirRegex
