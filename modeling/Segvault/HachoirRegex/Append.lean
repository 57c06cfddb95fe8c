import Segvault.HachoirRegex.Tree

namespace Segvault.HachoirRegex

open Relation Spans

namespace Tree

/-! Concatenation on trees. Its refs follow the allocations of the source, with
`next` the next free one. -/

/-- `t._and(u)`, where a RegexAnd takes a `u` that is none itself. -/
def absorb (next : Ref) : Tree → Tree → Option (Tree × Ref)
  | atom _ .regexEmpty, u => some (u, next)
  | atom ref .regexWord, atom _ .regexWord => some (atom ref .regexWord, next)
  | atom ref .regexStart, atom _ .regexStart => some (atom ref .regexStart, next)
  | atom ref .regexEnd, atom _ .regexEnd => some (atom ref .regexEnd, next)
  | atom _ (.regexString text _), atom _ (.regexString other nonempty) =>
      some (atom next (.regexString (text ++ other)
        (List.append_ne_nil_of_right_ne_nil text nonempty)), next + 1)
  | regexAnd ref init last, u =>
      match absorb next last u with
      | some (last, next) => some (regexAnd ref init last, next)
      | none => some (regexAnd next (init ++ [last]) u, next + 1)
  | _, _ => none

theorem absorb_atom {next ref : Ref} {leaf : Atom} {u : Tree} {result : Tree × Ref}
    (absorbs : absorb next (atom ref leaf) u = some result) :
    (leaf = .regexEmpty ∧ result = (u, next)) ∨
    ((leaf = .regexWord ∨ leaf = .regexStart ∨ leaf = .regexEnd) ∧
      (∃ other, u = atom other leaf) ∧ result = (atom ref leaf, next)) ∨
    (∃ text nonempty other otherNonempty whole refu,
      leaf = .regexString text nonempty ∧
      u = atom refu (.regexString other otherNonempty) ∧
      result = (atom next (.regexString (text ++ other) whole), next + 1)) := by
  cases leaf with
  | regexEmpty =>
      cases absorbs
      exact Or.inl ⟨rfl, rfl⟩
  | regexWord | regexStart | regexEnd =>
      cases u with
      | atom refu other =>
          cases other <;> cases absorbs
          exact Or.inr (Or.inl ⟨by simp, ⟨refu, rfl⟩, rfl⟩)
      | _ => cases absorbs
  | regexString text nonempty =>
      cases u with
      | atom refu other =>
          cases other <;> cases absorbs
          exact Or.inr (Or.inr ⟨_, _, _, _, _, _, rfl, rfl, rfl⟩)
      | _ => cases absorbs
  | _ => cases absorbs

theorem absorb_regexAnd {next ref : Ref} {init : List Tree} {last u : Tree}
    {result : Tree × Ref} (absorbs : absorb next (regexAnd ref init last) u = some result) :
    (∃ newLast, absorb next last u = some newLast ∧
      result = (regexAnd ref init newLast.1, newLast.2)) ∨
    (absorb next last u = none ∧
      result = (regexAnd next (init ++ [last]) u, next + 1)) := by
  rw [absorb] at absorbs
  cases inner : absorb next last u with
  | some newLast =>
      rw [inner] at absorbs
      cases absorbs
      exact Or.inl ⟨newLast, rfl, rfl⟩
  | none =>
      rw [inner] at absorbs
      cases absorbs
      exact Or.inr ⟨rfl, rfl⟩

/-- `t & u` for a `u` whose items are not taken one at a time. -/
def append (next : Ref) (t u : Tree) : Tree × Ref :=
  if u.isEmpty then (t, next)
  else
    match absorb next t u with
    | some result => result
    | none => (regexAnd next [t] u, next + 1)

def appendAll (next : Ref) (t : Tree) : List Tree → Tree × Ref
  | [] => (t, next)
  | u :: us => appendAll (append next t u).2 (append next t u).1 us

theorem appendAll_append (next : Ref) (t : Tree) (us vs : List Tree) :
    appendAll next t (us ++ vs) =
      appendAll (appendAll next t us).2 (appendAll next t us).1 vs := by
  induction us generalizing next t with
  | nil => rfl
  | cons u us induction => exact induction _ _

mutual

/-- The items of a RegexAnd, with those of the RegexAnd items in their place. -/
def leaves : Tree → List Tree
  | regexAnd _ init last => leavesAll init ++ leaves last
  | atom ref leaf => [atom ref leaf]
  | regexOr ref content => [regexOr ref content]
  | regexRepeat ref regex min max => [regexRepeat ref regex min max]

def leavesAll : List Tree → List Tree
  | [] => []
  | item :: items => leaves item ++ leavesAll items

end

theorem leaves_not_and {t : Tree} : ∀ leaf ∈ t.leaves, leaf.isAnd = false := by
  induction t with
  | regexAnd ref init last inductionInit inductionLast =>
      intro leaf member
      rw [leaves, List.mem_append] at member
      cases member with
      | inr inLast => exact inductionLast leaf inLast
      | inl inInit =>
          clear inductionLast
          induction init with
          | nil => exact absurd inInit List.not_mem_nil
          | cons item init induction =>
              rw [leavesAll, List.mem_append] at inInit
              cases inInit with
              | inl here => exact inductionInit item (by simp) leaf here
              | inr later =>
                  exact induction (fun item member =>
                    inductionInit item (List.mem_cons_of_mem _ member)) later
  | _ => simp [leaves, isAnd]

theorem leavesAll_append (first second : List Tree) :
    leavesAll (first ++ second) = leavesAll first ++ leavesAll second := by
  induction first with
  | nil => rfl
  | cons item first induction => simp [leavesAll, induction]

theorem leaves_regexAnd (ref : Ref) (init : List Tree) (last : Tree) :
    (regexAnd ref init last).leaves = leavesAll (init ++ [last]) := by
  rw [leaves, leavesAll_append, leavesAll, leavesAll, List.append_nil]

/-- `t & u` -/
def concat (next : Ref) (t u : Tree) : Tree × Ref :=
  if t.isAnd then appendAll next t u.leaves else append next t u

/-! Concatenation is exact. -/

section Denotation

variable (dot : UInt8 → Prop) (text : List UInt8)

theorem denote_of_isEmpty {t : Tree} (empty : t.isEmpty = true) :
    t.denote dot text = Eq := by
  cases t with
  | atom ref leaf =>
      cases leaf with
      | regexEmpty => rfl
      | _ => exact absurd empty (by simp [isEmpty])
  | _ => exact absurd empty (by simp [isEmpty])

theorem comp_same (holds : Position text → Prop) :
    Comp (fun i j => i = j ∧ holds i) (fun i j => i = j ∧ holds i) =
      fun i j => i = j ∧ holds i := by
  funext i k
  apply propext
  constructor
  · rintro ⟨j, ⟨rfl, _⟩, rfl, here⟩
    exact ⟨rfl, here⟩
  · rintro ⟨rfl, here⟩
    exact ⟨i, ⟨rfl, here⟩, rfl, here⟩

theorem denote_absorb {next : Ref} {t u : Tree} {result : Tree × Ref}
    (absorbs : absorb next t u = some result) :
    result.1.denote dot text = Comp (t.denote dot text) (u.denote dot text) := by
  induction t generalizing result with
  | atom ref leaf =>
      obtain ⟨rfl, rfl⟩ | ⟨anchor, ⟨other, rfl⟩, rfl⟩ |
        ⟨string, _, other, _, _, refu, rfl, rfl, rfl⟩ := absorb_atom absorbs
      · exact eq_comp.symm
      · obtain rfl | rfl | rfl := anchor <;> exact (comp_same text _).symm
      · exact (word_append _ _).symm
  | regexAnd ref init last _ inductionLast =>
      obtain ⟨newLast, inner, rfl⟩ | ⟨_, rfl⟩ := absorb_regexAnd absorbs
      · rw [denote, denote, inductionLast inner, comp_assoc]
      · rw [denote_regexAnd, denote_regexAnd, List.map_append, sequence_append,
          List.map_singleton, sequence_singleton]
  | _ => cases absorbs

theorem denote_append (next : Ref) (t u : Tree) :
    (append next t u).1.denote dot text =
      Comp (t.denote dot text) (u.denote dot text) := by
  unfold append
  cases empty : u.isEmpty with
  | true =>
      rw [denote_of_isEmpty dot text empty, comp_eq]
      rfl
  | false =>
      cases absorbs : absorb next t u with
      | some result => exact denote_absorb dot text absorbs
      | none =>
          change (regexAnd next [t] u).denote dot text = _
          rw [denote_regexAnd]
          simp [comp_eq]

theorem denote_appendAll (next : Ref) (t : Tree) (us : List Tree) :
    (appendAll next t us).1.denote dot text =
      Comp (t.denote dot text) (sequence (us.map (denote dot text))) := by
  induction us generalizing next t with
  | nil => exact comp_eq.symm
  | cons u us induction =>
      rw [appendAll, induction, denote_append, comp_assoc]
      rfl

theorem denote_leaves (t : Tree) :
    sequence (t.leaves.map (denote dot text)) = t.denote dot text := by
  induction t with
  | regexAnd ref init last inductionInit inductionLast =>
      rw [leaves, List.map_append, sequence_append, inductionLast, denote_regexAnd,
        List.map_append, sequence_append, List.map_singleton, sequence_singleton]
      congr 1
      clear inductionLast
      induction init with
      | nil => rfl
      | cons item init induction =>
          rw [leavesAll, List.map_append, sequence_append,
            inductionInit item (by simp), List.map_cons, sequence_cons, induction]
          intro item member
          exact inductionInit item (List.mem_cons_of_mem _ member)
  | _ => exact sequence_singleton _

theorem denote_concat (next : Ref) (t u : Tree) :
    (concat next t u).1.denote dot text =
      Comp (t.denote dot text) (u.denote dot text) := by
  unfold concat
  cases t.isAnd with
  | true => exact (denote_appendAll dot text _ _ _).trans (by rw [denote_leaves])
  | false => exact denote_append dot text _ _ _

end Denotation

end Tree

end Segvault.HachoirRegex
