import Segvault.HachoirRegex.Concat
import Segvault.HachoirRegex.Ranges
import Segvault.HachoirRegex.Subtrees

namespace Segvault.HachoirRegex

open Relation Spans

namespace Tree

/-! Properties of every regex inside a regex. -/

def Everywhere (holds : Tree → Prop) (t : Tree) : Prop :=
  ∀ s ∈ t.subtrees, holds s

section Everywhere

variable {holds : Tree → Prop} {t : Tree}

theorem everywhere_iff :
    Everywhere holds t ↔ holds t ∧ ∀ item ∈ t.children, Everywhere holds item := by
  constructor
  · intro all
    exact ⟨all t (self_mem_subtrees t),
      fun item child s member => all s (mem_subtrees_child child member)⟩
  · rintro ⟨here, inside⟩ s member
    obtain rfl | ⟨item, child, member⟩ := mem_subtrees.mp member
    · exact here
    · exact inside item child s member

theorem Everywhere.here (all : Everywhere holds t) : holds t :=
  (everywhere_iff.mp all).1

theorem Everywhere.child (all : Everywhere holds t) {item : Tree} (child : item ∈ t.children) :
    Everywhere holds item :=
  (everywhere_iff.mp all).2 item child

theorem everywhere_atom {ref : Ref} {leaf : Atom} (here : holds (atom ref leaf)) :
    Everywhere holds (atom ref leaf) :=
  everywhere_iff.mpr ⟨here, fun _ member => absurd member List.not_mem_nil⟩

theorem Everywhere.leaves (all : Everywhere holds t) :
    ∀ leaf ∈ t.leaves, Everywhere holds leaf := by
  induction t with
  | regexAnd ref init last inductionInit inductionLast =>
      intro leaf member
      rw [leaves_regexAnd] at member
      have items : ∀ items : List Tree, leaf ∈ leavesAll items →
          ∃ item ∈ items, leaf ∈ item.leaves := by
        intro items member
        induction items with
        | nil => cases member
        | cons item items induction =>
            obtain here | later := List.mem_append.mp member
            · exact ⟨item, by simp, here⟩
            · obtain ⟨item, member, here⟩ := induction later
              exact ⟨item, List.mem_cons_of_mem _ member, here⟩
      obtain ⟨item, member, here⟩ := items _ member
      have itemAll := all.child member
      obtain inInit | isLast := List.mem_append.mp member
      · exact inductionInit item inInit itemAll leaf here
      · cases List.mem_singleton.mp isLast
        exact inductionLast itemAll leaf here
  | _ =>
      intro leaf member
      cases List.mem_singleton.mp member
      exact all

end Everywhere

/-- No item of a RegexAnd but the last one is a RegexAnd; RegexAnd and RegexOr have two
items or more. -/
def NodeTidy : Tree → Prop
  | regexAnd _ init _ => init ≠ [] ∧ ∀ item ∈ init, item.isAnd = false
  | regexOr _ content => 2 ≤ content.length
  | _ => True

abbrev Tidy : Tree → Prop := Everywhere NodeTidy

/-- No range is excluded or empty. -/
def NodePositive : Tree → Prop
  | atom _ (.regexRange _ ranges exclude) => exclude = false ∧ ∃ char, rangesAdmit ranges char
  | _ => True

abbrev Positive : Tree → Prop := Everywhere NodePositive

/-- What `&` keeps: the new nodes of `t & u` are strings and RegexAnd objects. -/
structure Kept (holds : Tree → Prop) : Prop where
  string : ∀ ref text nonempty, holds (atom ref (.regexString text nonempty))
  newLast : ∀ ref init last newLast, holds (regexAnd ref init last) →
    holds (regexAnd ref init newLast)
  pair : ∀ ref t u, t.isAnd = false → holds (regexAnd ref [t] u)
  grown : ∀ ref next init last u, holds (regexAnd ref init last) → last.isAnd = false →
    holds (regexAnd next (init ++ [last]) u)

theorem kept_tidy : Kept NodeTidy where
  string _ _ _ := trivial
  newLast _ _ _ _ tidy := tidy
  pair _ _ _ single := ⟨List.cons_ne_nil _ _, fun _ member => List.mem_singleton.mp member ▸ single⟩
  grown _ _ _ _ _ tidy single := by
    refine ⟨by simp, fun item member => ?_⟩
    obtain inInit | isLast := List.mem_append.mp member
    · exact tidy.2 item inInit
    · exact List.mem_singleton.mp isLast ▸ single

theorem kept_positive : Kept NodePositive where
  string _ _ _ := trivial
  newLast _ _ _ _ _ := trivial
  pair _ _ _ _ := trivial
  grown _ _ _ _ _ _ _ := trivial

section Kept

variable {holds : Tree → Prop} (kept : Kept holds)
include kept

theorem everywhere_absorb {next : Ref} {t u : Tree} {result : Tree × Ref}
    (absorbs : absorb next t u = some result) (allT : Everywhere holds t)
    (allU : Everywhere holds u) : Everywhere holds result.1 := by
  induction t generalizing result with
  | atom ref leaf =>
      obtain ⟨_, rfl⟩ | ⟨_, _, rfl⟩ | ⟨_, _, _, _, _, _, _, _, rfl⟩ := absorb_atom absorbs
      · exact allU
      · exact allT
      · exact everywhere_atom (kept.string _ _ _)
  | regexAnd ref init last _ inductionLast =>
      have allLast := allT.child (List.mem_append_right init (List.mem_singleton.mpr rfl))
      obtain ⟨newLast, inner, rfl⟩ | ⟨refuses, rfl⟩ := absorb_regexAnd absorbs
      · refine everywhere_iff.mpr ⟨kept.newLast _ _ _ _ allT.here, fun item member => ?_⟩
        obtain inInit | isLast := List.mem_append.mp member
        · exact allT.child (List.mem_append_left _ inInit)
        · exact List.mem_singleton.mp isLast ▸ inductionLast inner allLast
      · have single : last.isAnd = false := by
          by_contra isAnd
          obtain ⟨result, absorbs⟩ := absorb_isAnd next u (Bool.not_eq_false _ ▸ isAnd)
          rw [refuses] at absorbs
          cases absorbs
        refine everywhere_iff.mpr ⟨kept.grown _ _ _ _ _ allT.here single, fun item member => ?_⟩
        obtain inT | isLast := List.mem_append.mp member
        · exact allT.child inT
        · exact List.mem_singleton.mp isLast ▸ allU
  | _ => cases absorbs

theorem everywhere_append {t u : Tree} (next : Ref) (allT : Everywhere holds t)
    (allU : Everywhere holds u) : Everywhere holds (append next t u).1 := by
  unfold append
  cases empty : u.isEmpty with
  | true => exact allT
  | false =>
      cases absorbs : absorb next t u with
      | some result => exact everywhere_absorb kept absorbs allT allU
      | none =>
          have single : t.isAnd = false := by
            by_contra isAnd
            obtain ⟨result, absorbed⟩ := absorb_isAnd next u (Bool.not_eq_false _ ▸ isAnd)
            rw [absorbs] at absorbed
            cases absorbed
          refine everywhere_iff.mpr ⟨kept.pair _ _ _ single, fun item member => ?_⟩
          obtain isT | isU := List.mem_append.mp member
          · exact List.mem_singleton.mp isT ▸ allT
          · exact List.mem_singleton.mp isU ▸ allU

theorem everywhere_appendAll {t : Tree} {us : List Tree} (next : Ref)
    (allT : Everywhere holds t) (allUs : ∀ u ∈ us, Everywhere holds u) :
    Everywhere holds (appendAll next t us).1 := by
  induction us generalizing next t with
  | nil => exact allT
  | cons u us induction =>
      exact induction _ (everywhere_append kept next allT (allUs u (by simp)))
        fun other member => allUs other (List.mem_cons_of_mem _ member)

theorem everywhere_concat {t u : Tree} (next : Ref) (allT : Everywhere holds t)
    (allU : Everywhere holds u) : Everywhere holds (concat next t u).1 := by
  unfold concat
  cases t.isAnd with
  | true => exact everywhere_appendAll kept next allT allU.leaves
  | false => exact everywhere_append kept next allT allU

end Kept

/-! A measure that the recursive calls of `|` lower. -/

mutual

def weight : Tree → Nat
  | atom _ (.regexString text _) => 5 * text.length
  | atom _ _ => 2
  | regexAnd _ init last => 1 + weightAll init + weight last
  | regexOr _ content => 1 + weightAll content
  | regexRepeat _ _ _ _ => 2

def weightAll : List Tree → Nat
  | [] => 0
  | item :: items => weight item + weightAll items

end

@[simp] theorem weightAll_nil : weightAll [] = 0 := rfl

@[simp] theorem weightAll_cons (item : Tree) (items : List Tree) :
    weightAll (item :: items) = item.weight + weightAll items := rfl

@[simp] theorem weightAll_append (first second : List Tree) :
    weightAll (first ++ second) = weightAll first + weightAll second := by
  induction first with
  | nil => simp
  | cons item first induction =>
      rw [List.cons_append, weightAll_cons, weightAll_cons, induction, Nat.add_assoc]

theorem weight_le_weightAll {item : Tree} {items : List Tree} (member : item ∈ items) :
    item.weight ≤ weightAll items := by
  obtain ⟨before, after, rfl⟩ := List.append_of_mem member
  rw [weightAll_append, weightAll_cons]
  omega

@[simp] theorem weight_regexAnd (ref : Ref) (init : List Tree) (last : Tree) :
    (regexAnd ref init last).weight = 1 + weightAll init + last.weight := rfl

@[simp] theorem weight_regexOr (ref : Ref) (content : List Tree) :
    (regexOr ref content).weight = 1 + weightAll content := rfl

theorem weight_atom (ref : Ref) (leaf : Atom) : 2 ≤ (atom ref leaf).weight := by
  cases leaf with
  | regexString text nonempty =>
      have positive := List.length_pos_iff.mpr nonempty
      simp only [weight]
      omega
  | _ => simp [weight]

theorem two_le_weight {t : Tree} (tidy : t.Tidy) : 2 ≤ t.weight := by
  induction t with
  | atom ref leaf => exact weight_atom ref leaf
  | regexAnd ref init last _ inductionLast =>
      have here := inductionLast (tidy.child (List.mem_append_right _ (by simp)))
      simp only [weight_regexAnd]
      omega
  | regexOr ref content inductionContent =>
      obtain ⟨item, member⟩ : ∃ item, item ∈ content :=
        List.exists_mem_of_length_pos (Nat.lt_of_lt_of_le Nat.zero_lt_two tidy.here)
      have here := inductionContent item member (tidy.child member)
      have inside : item.weight ≤ weightAll content := by
        obtain ⟨before, after, rfl⟩ := List.append_of_mem member
        simp only [weightAll_append, weightAll_cons]
        omega
      simp only [weight_regexOr]
      omega
  | regexRepeat ref regex min max => exact Nat.le_refl 2

theorem weight_of_isEmpty {t : Tree} (empty : t.isEmpty = true) : t.weight = 2 := by
  cases t with
  | atom ref leaf => cases leaf <;> first | rfl | cases empty
  | _ => cases empty

theorem weight_absorb {next : Ref} {t u : Tree} {result : Tree × Ref}
    (absorbs : absorb next t u = some result) : result.1.weight ≤ t.weight + u.weight := by
  induction t generalizing result with
  | atom ref leaf =>
      obtain ⟨_, rfl⟩ | ⟨_, _, rfl⟩ | ⟨_, _, _, _, _, _, rfl, rfl, rfl⟩ := absorb_atom absorbs
      · exact Nat.le_add_left _ _
      · exact Nat.le_add_right _ _
      · simp only [weight, List.length_append]
        omega
  | regexAnd ref init last _ inductionLast =>
      obtain ⟨newLast, inner, rfl⟩ | ⟨_, rfl⟩ := absorb_regexAnd absorbs
      · have less := inductionLast inner
        simp only [weight_regexAnd]
        omega
      · simp only [weight_regexAnd, weightAll_append, weightAll_cons, weightAll_nil]
        omega
  | _ => cases absorbs

theorem weight_append (next : Ref) (t u : Tree) :
    (append next t u).1.weight ≤ t.weight + u.weight + 1 ∧
      (t.isAnd = true → (append next t u).1.weight ≤ t.weight + u.weight) := by
  unfold append
  cases empty : u.isEmpty with
  | true => exact ⟨by simp; omega, fun _ => by simp⟩
  | false =>
      cases absorbs : absorb next t u with
      | some result =>
          have less := weight_absorb absorbs
          exact ⟨Nat.le_succ_of_le less, fun _ => less⟩
      | none =>
          refine ⟨by simp; omega, fun isAnd => ?_⟩
          obtain ⟨result, absorbed⟩ := absorb_isAnd next u isAnd
          rw [absorbs] at absorbed
          cases absorbed

theorem weight_appendAll {t : Tree} (isAnd : t.isAnd = true) (next : Ref) (us : List Tree) :
    (appendAll next t us).1.weight ≤ t.weight + weightAll us := by
  induction us generalizing next t with
  | nil => exact Nat.le_refl _
  | cons u us induction =>
      have step := (weight_append next t u).2 isAnd
      have rest := induction (@append_isAnd next t u isAnd) (append next t u).2
      simp only [weightAll_cons, appendAll]
      omega

theorem weight_leaves (t : Tree) : weightAll t.leaves ≤ t.weight := by
  induction t with
  | regexAnd ref init last inductionInit inductionLast =>
      have all : weightAll (leavesAll init) ≤ weightAll init := by
        clear inductionLast
        induction init with
        | nil => exact Nat.le_refl _
        | cons item init induction =>
            have here := inductionInit item (by simp)
            have later := induction fun other member =>
              inductionInit other (List.mem_cons_of_mem _ member)
            simp only [leavesAll, weightAll_append, weightAll_cons]
            omega
      simp only [leaves, weightAll_append, weight_regexAnd]
      omega
  | _ => simp [leaves]

theorem weight_concat (next : Ref) (t u : Tree) :
    (concat next t u).1.weight ≤ t.weight + u.weight + 1 ∧
      (t.isAnd = true → (concat next t u).1.weight ≤ t.weight + u.weight) := by
  unfold concat
  cases isAnd : t.isAnd with
  | true =>
      have whole := weight_appendAll isAnd next u.leaves
      have leaves := weight_leaves u
      simp only [if_true]
      exact ⟨by omega, fun _ => by omega⟩
  | false => exact ⟨(weight_append next t u).1, fun wrong => absurd wrong Bool.false_ne_true⟩

/-! matchSingleValue -/

mutual

def single : Tree → Bool
  | atom _ .regexEmpty => true
  | atom _ (.regexString _ _) => true
  | atom _ .regexStart => true
  | atom _ .regexEnd => true
  | atom _ (.regexRange _ [item] _) => decide (item.cmax - item.cmin + 1 = 1)
  | regexAnd _ init last => singleAll init && single last
  | _ => false

def singleAll : List Tree → Bool
  | [] => true
  | item :: items => single item && singleAll items

end

theorem singleAll_append (first second : List Tree) :
    singleAll (first ++ second) = (singleAll first && singleAll second) := by
  induction first with
  | nil => rfl
  | cons item first induction => simp [singleAll, induction, Bool.and_assoc]

theorem single_regexAnd (ref : Ref) (init : List Tree) (last : Tree) :
    (regexAnd ref init last).single = singleAll (init ++ [last]) := by
  simp [single, singleAll, singleAll_append]

theorem matchSingleValue_returns {h : Heap} {t : Tree} (rep : t.Rep h) :
    Returns (fun fuel => matchSingleValue fuel t.ref h) t.single := by
  induction t using child_induct with
  | step t induction =>
  have here := rep.here
  cases t with
  | atom ref leaf =>
      refine Returns.call (fun fuel => ?_) (Returns.pure _)
      simp only [matchSingleValue, here, node, Option.bind_eq_bind, Option.bind_some]
      cases leaf with
      | regexRange container ranges exclude =>
          rcases ranges with _ | ⟨item, _ | ⟨other, ranges⟩⟩ <;> rfl
      | _ => rfl
  | regexAnd ref init last =>
      have all : ∀ items : List Tree, (∀ item ∈ items, item.Rep h ∧
            Returns (fun fuel => matchSingleValue fuel item.ref h) item.single) →
          Returns (fun fuel => (items.map Tree.ref).allM fun item => matchSingleValue fuel item h)
            (singleAll items) := by
        intro items each
        induction items with
        | nil => exact Returns.pure _
        | cons item items inductionItems =>
            have first := (each item (by simp)).2
            have later := inductionItems fun other member =>
              each other (List.mem_cons_of_mem _ member)
            cases single : item.single with
            | false =>
                rw [single] at first
                have whole : singleAll (item :: items) = false := by simp [singleAll, single]
                rw [whole]
                exact Returns.bind first (Returns.pure _)
            | true =>
                rw [single] at first
                have whole : singleAll (item :: items) = singleAll items := by
                  simp [singleAll, single]
                rw [whole]
                exact Returns.bind first later
      have whole := all (init ++ [last]) fun item member =>
        ⟨rep.child member, induction item member (rep.child member)⟩
      rw [single_regexAnd]
      refine Returns.call (fun fuel => ?_) whole
      simp only [matchSingleValue, here, node, List.map_append, List.map_singleton]
      rfl
  | regexOr ref content =>
      refine Returns.call (fun fuel => ?_) (Returns.pure _)
      simp only [matchSingleValue, here, node]
      rfl
  | regexRepeat ref regex min max =>
      refine Returns.call (fun fuel => ?_) (Returns.pure _)
      simp only [matchSingleValue, here, node]
      rfl

theorem single_absorb {next : Ref} {t u : Tree} {result : Tree × Ref}
    (absorbs : absorb next t u = some result) :
    result.1.single = (t.single && u.single) := by
  induction t generalizing result with
  | atom ref leaf =>
      obtain ⟨rfl, rfl⟩ | ⟨anchor, ⟨other, rfl⟩, rfl⟩ | ⟨_, _, _, _, _, _, rfl, rfl, rfl⟩ :=
        absorb_atom absorbs
      · rfl
      · obtain rfl | rfl | rfl := anchor <;> rfl
      · rfl
  | regexAnd ref init last _ inductionLast =>
      obtain ⟨newLast, inner, rfl⟩ | ⟨_, rfl⟩ := absorb_regexAnd absorbs
      · simp only [single, inductionLast inner, Bool.and_assoc]
      · simp [single, singleAll, singleAll_append]
  | _ => cases absorbs

theorem single_of_isEmpty {t : Tree} (empty : t.isEmpty = true) : t.single = true := by
  cases t with
  | atom ref leaf => cases leaf <;> first | rfl | cases empty
  | _ => cases empty

theorem single_append (next : Ref) (t u : Tree) :
    (append next t u).1.single = (t.single && u.single) := by
  unfold append
  cases empty : u.isEmpty with
  | true => simp [single_of_isEmpty empty]
  | false =>
      cases absorbs : absorb next t u with
      | some result => exact single_absorb absorbs
      | none => simp [single, singleAll]

theorem single_appendAll (next : Ref) (t : Tree) (us : List Tree) :
    (appendAll next t us).1.single = (t.single && singleAll us) := by
  induction us generalizing next t with
  | nil => simp [appendAll, singleAll]
  | cons u us induction =>
      rw [appendAll, induction, single_append, singleAll, Bool.and_assoc]

theorem single_leaves (t : Tree) : singleAll t.leaves = t.single := by
  induction t with
  | regexAnd ref init last inductionInit inductionLast =>
      have all : singleAll (leavesAll init) = singleAll init := by
        clear inductionLast
        induction init with
        | nil => rfl
        | cons item init induction =>
            rw [leavesAll, singleAll_append, inductionInit item (by simp), singleAll, induction]
            exact fun other member => inductionInit other (List.mem_cons_of_mem _ member)
      rw [leaves, singleAll_append, all, inductionLast, single]
  | _ => simp [leaves, singleAll]

theorem single_concat (next : Ref) (t u : Tree) :
    (concat next t u).1.single = (t.single && u.single) := by
  unfold concat
  cases t.isAnd with
  | true =>
      simp only [if_true]
      rw [single_appendAll, single_leaves]
  | false => exact single_append next t u

end Tree

end Segvault.HachoirRegex
