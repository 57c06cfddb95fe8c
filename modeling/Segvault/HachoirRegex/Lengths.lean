import Segvault.HachoirRegex.Or
import Segvault.HachoirRegex.Repeat
import Segvault.HachoirRegex.Subtrees
import Segvault.Words

namespace Segvault.HachoirRegex

open Relation Spans Language

/-! minLength and maxLength. The inner None is the answer of a regex without limit. -/

def Atom.minLength : Atom → Raising (Option Nat)
  | .regexEmpty | .regexWord | .regexStart | .regexEnd => pure (some 0)
  | .regexDot | .regexRange _ _ _ => pure (some 1)
  | .regexString text _ => pure (some text.length)
  | .regexRepeatNone _ _ => throw "'NoneType' object has no attribute 'minLength'"

/-- `RegexAnd._minmaxLength`, from the given total on. -/
def andMinmaxLength (length : Ref → Raising (Option Nat)) :
    Nat → List Ref → Raising (Option Nat)
  | total, [] => pure (some total)
  | total, item :: items => do
      match ← length item with
      | none => pure none
      | some length' => andMinmaxLength length (total + length') items

/-- `RegexOr._minmaxLength`, from the given value on. -/
def orMinmaxLength (length : Ref → Raising (Option Nat)) (func : Nat → Nat → Nat) :
    Option Nat → List Ref → Raising (Option Nat)
  | value, [] => pure value
  | value, item :: items => do
      match ← length item with
      | none => pure none
      | some length' =>
          orMinmaxLength length func
            (some (match value with
              | none => length'
              | some value => func value length')) items

/-- `length * count` -/
def timesLength (length : Option Nat) (count : Nat) : Raising (Option Nat) :=
  match length with
  | none => throw "unsupported operand type(s) for *: 'NoneType' and 'int'"
  | some length => pure (some (length * count))

def minLength (fuel : Nat) (regex : Ref) (h : Heap) : Raising (Option Nat) :=
  match fuel with
  | 0 => liftM (m := Option) none
  | fuel + 1 => do
      match ← liftM (h.node? regex) with
      | .atom leaf => leaf.minLength
      | .regexAnd content => andMinmaxLength (fun item => minLength fuel item h) 0 content
      | .regexOr content => orMinmaxLength (fun item => minLength fuel item h) min none content
      | .regexRepeat inner rmin _ => do
          timesLength (← minLength fuel inner h) rmin

def maxLength (fuel : Nat) (regex : Ref) (h : Heap) : Raising (Option Nat) :=
  match fuel with
  | 0 => liftM (m := Option) none
  | fuel + 1 => do
      match ← liftM (h.node? regex) with
      | .atom (.regexRepeatNone _ none) => pure none
      | .atom (.regexRepeatNone _ (some _)) =>
          throw "'NoneType' object has no attribute 'maxLength'"
      | .atom leaf => leaf.minLength
      | .regexAnd content => andMinmaxLength (fun item => maxLength fuel item h) 0 content
      | .regexOr content => orMinmaxLength (fun item => maxLength fuel item h) max none content
      | .regexRepeat _ _ none => pure none
      | .regexRepeat inner _ (some rmax) => do
          timesLength (← maxLength fuel inner h) rmax

namespace Tree

/-! The words of a regex without anchors. -/

section Words

variable (dot : UInt8 → Prop)

/-- The anchors have no words of their own. -/
def Atom.words : Atom → Language UInt8
  | .regexEmpty => 1
  | .regexWord | .regexStart | .regexEnd | .regexRepeatNone _ _ => 0
  | .regexDot => { symbols | ∃ char, dot char ∧ symbols = [char] }
  | .regexString text _ => { text }
  | .regexRange _ ranges exclude => { symbols | ∃ char, matched ranges exclude char ∧
      symbols = [char] }

mutual

def words : Tree → Language UInt8
  | atom _ leaf => Atom.words dot leaf
  | regexAnd _ init last => (wordsAll init).prod * words last
  | regexOr _ content => (wordsAll content).sum
  | regexRepeat _ regex min max => repeatedWords (words regex) min max

def wordsAll : List Tree → List (Language UInt8)
  | [] => []
  | item :: items => words item :: wordsAll items

end

theorem wordsAll_eq (items : List Tree) : wordsAll dot items = items.map (words dot) := by
  induction items with
  | nil => rfl
  | cons item items induction => rw [wordsAll, induction, List.map_cons]

theorem words_regexAnd (ref : Ref) (init : List Tree) (last : Tree) :
    (regexAnd ref init last).words dot = ((init ++ [last]).map (words dot)).prod := by
  rw [words, wordsAll_eq, List.map_append, List.prod_append, List.map_singleton,
    List.prod_singleton]

theorem words_regexOr (ref : Ref) (content : List Tree) :
    (regexOr ref content).words dot = (content.map (words dot)).sum := by
  rw [words, wordsAll_eq]

end Words

/-- A node as the constructors build it, apart from the anchors. -/
def NodeBuilt : Tree → Prop
  | atom _ leaf => leaf ≠ .regexWord ∧ leaf ≠ .regexStart ∧ leaf ≠ .regexEnd ∧
      ∀ min max, leaf ≠ .regexRepeatNone min max
  | regexAnd _ init _ => init ≠ []
  | regexOr _ content => 2 ≤ content.length
  | regexRepeat _ _ min max => Accepted min max

/-- A regex built without anchors. -/
def Built (t : Tree) : Prop :=
  ∀ s ∈ t.subtrees, s.NodeBuilt

/-- Every range in the regex matches some character. -/
def RangesInhabited (t : Tree) : Prop :=
  ∀ s ∈ t.subtrees, ∀ ref container ranges exclude,
    s = atom ref (.regexRange container ranges exclude) → ∃ char, matched ranges exclude char

theorem Built.child {t item : Tree} (built : t.Built) (child : item ∈ t.children) :
    item.Built :=
  fun s member => built s (mem_subtrees_child child member)

theorem RangesInhabited.child {t item : Tree} (inhabited : t.RangesInhabited)
    (child : item ∈ t.children) : item.RangesInhabited :=
  fun s member => inhabited s (mem_subtrees_child child member)

theorem Built.node {t : Tree} (built : t.Built) : t.NodeBuilt :=
  built t (self_mem_subtrees t)

theorem Built.nonempty {ref : Ref} {content : List Tree} (built : (regexOr ref content).Built) :
    content ≠ [] := by
  have several : 2 ≤ content.length := built.node
  rintro rfl
  cases several

/-! Where the words of a regex have unbounded lengths. -/

def isStar : Tree → Bool
  | regexRepeat _ _ _ none => true
  | _ => false

/-- The regex has a repeat without a maximum in it. -/
def hasStar (t : Tree) : Bool :=
  t.subtrees.any isStar

/-- Some part of the regex matches a character. -/
def Grows (t : Tree) : Prop :=
  ∃ ref leaf, atom ref leaf ∈ t.subtrees ∧ leaf ≠ .regexEmpty

/-- A repeat without a maximum repeats something that matches a character. -/
def GrowingStar (t : Tree) : Prop :=
  ∃ ref regex min, regexRepeat ref regex min none ∈ t.subtrees ∧ regex.Grows

theorem hasStar_child {t item : Tree} (child : item ∈ t.children) (star : item.hasStar = true) :
    t.hasStar = true := by
  obtain ⟨s, member, isStar⟩ := List.any_eq_true.mp star
  exact List.any_eq_true.mpr ⟨s, mem_subtrees_child child member, isStar⟩

theorem hasStar_iff {t : Tree} :
    t.hasStar = true ↔ t.isStar = true ∨ ∃ item ∈ t.children, item.hasStar = true := by
  rw [hasStar, subtrees_eq, List.any_cons, Bool.or_eq_true, List.any_flatMap]
  simp [hasStar]

section Growth

variable {dot : UInt8 → Prop} (someDot : ∃ char, dot char)
include someDot

theorem exists_word_atom {ref : Ref} {leaf : Atom} (built : (atom ref leaf).NodeBuilt)
    (inhabited : (atom ref leaf).RangesInhabited) :
    ∃ symbols, symbols ∈ Atom.words dot leaf ∧ (leaf ≠ .regexEmpty → symbols ≠ []) := by
  obtain ⟨notWord, notStart, notEnd, notNone⟩ := built
  cases leaf with
  | regexEmpty => exact ⟨[], nil_mem_one, fun nonempty => absurd rfl nonempty⟩
  | regexWord => exact absurd rfl notWord
  | regexStart => exact absurd rfl notStart
  | regexEnd => exact absurd rfl notEnd
  | regexRepeatNone min max => exact absurd rfl (notNone min max)
  | regexDot =>
      obtain ⟨char, holds⟩ := someDot
      exact ⟨[char], ⟨char, holds, rfl⟩, fun _ => List.cons_ne_nil _ _⟩
  | regexString text nonempty => exact ⟨text, rfl, fun _ => nonempty⟩
  | regexRange container ranges exclude =>
      obtain ⟨char, holds⟩ := inhabited _ (self_mem_subtrees _) ref container ranges exclude rfl
      exact ⟨[char], ⟨char, holds, rfl⟩, fun _ => List.cons_ne_nil _ _⟩

theorem exists_word {t : Tree} (built : t.Built) (inhabited : t.RangesInhabited) :
    ∃ symbols, symbols ∈ t.words dot := by
  induction t using child_induct with
  | step t induction =>
  have each := fun item member =>
    induction item member (built.child member) (inhabited.child member)
  cases t with
  | atom ref leaf =>
      obtain ⟨symbols, inside, _⟩ := exists_word_atom someDot built.node inhabited
      exact ⟨symbols, inside⟩
  | regexAnd ref init last =>
      rw [words_regexAnd]
      refine exists_mem_prod fun language member => ?_
      obtain ⟨item, child, rfl⟩ := List.mem_map.mp member
      exact each item child
  | regexOr ref content =>
      rw [words_regexOr]
      obtain ⟨item, member⟩ : ∃ item, item ∈ content :=
        List.exists_mem_of_length_pos (Nat.lt_of_lt_of_le Nat.zero_lt_two built.node)
      obtain ⟨symbols, inside⟩ := each item member
      exact ⟨symbols, mem_sum.mpr ⟨_, List.mem_map_of_mem member, inside⟩⟩
  | regexRepeat ref regex min max =>
      exact exists_mem_repeatedWords built.node.bounds (each regex (List.mem_singleton.mpr rfl))

theorem long_of_grows {t : Tree} (built : t.Built) (inhabited : t.RangesInhabited)
    (grows : t.Grows) : Long (t.words dot) := by
  induction t using child_induct with
  | step t induction =>
  obtain ⟨ref', leaf', member, nonempty⟩ := grows
  obtain rfl | ⟨item, child, member⟩ := mem_subtrees.mp member
  · obtain ⟨symbols, inside, long⟩ := exists_word_atom someDot built.node inhabited
    exact ⟨symbols, inside, long nonempty⟩
  have long := induction item child (built.child child) (inhabited.child child)
    ⟨ref', leaf', member, nonempty⟩
  cases t with
  | atom ref leaf => cases child
  | regexAnd ref init last =>
      rw [words_regexAnd]
      refine long_prod (fun language member => ?_) (List.mem_map_of_mem child) long
      obtain ⟨item, child, rfl⟩ := List.mem_map.mp member
      exact exists_word someDot (built.child child) (inhabited.child child)
  | regexOr ref content =>
      rw [words_regexOr]
      exact long_sum (List.mem_map_of_mem child) long
  | regexRepeat ref regex min max =>
      cases List.mem_singleton.mp child
      exact long_repeatedWords built.node.bounds long

theorem endless_of_growing {t : Tree} (built : t.Built) (inhabited : t.RangesInhabited)
    (growing : t.GrowingStar) : Endless (t.words dot) := by
  induction t using child_induct with
  | step t induction =>
  obtain ⟨ref', regex', min', member, grows⟩ := growing
  obtain rfl | ⟨item, child, member⟩ := mem_subtrees.mp member
  · have child : regex' ∈ (regexRepeat ref' regex' min' none).children :=
      List.mem_singleton.mpr rfl
    obtain ⟨symbols, inside, nonempty⟩ :=
      long_of_grows someDot (built.child child) (inhabited.child child) grows
    exact endless_star inside nonempty
  have endless := induction item child (built.child child) (inhabited.child child)
    ⟨ref', regex', min', member, grows⟩
  cases t with
  | atom ref leaf => cases child
  | regexAnd ref init last =>
      rw [words_regexAnd]
      refine endless_prod (fun language member => ?_) (List.mem_map_of_mem child) endless
      obtain ⟨item, child, rfl⟩ := List.mem_map.mp member
      exact exists_word someDot (built.child child) (inhabited.child child)
  | regexOr ref content =>
      rw [words_regexOr]
      exact endless_sum (List.mem_map_of_mem child) endless
  | regexRepeat ref regex min max =>
      cases List.mem_singleton.mp child
      exact endless_repeatedWords built.node.bounds endless

end Growth

theorem empty_of_not_grows (dot : UInt8 → Prop) {t : Tree} (built : t.Built)
    (stays : ¬ t.Grows) : ∀ symbols ∈ t.words dot, symbols = [] := by
  induction t using child_induct with
  | step t induction =>
  have each := fun item member => induction item member (built.child member)
    fun ⟨ref, leaf, inside, nonempty⟩ =>
      stays ⟨ref, leaf, mem_subtrees_child member inside, nonempty⟩
  cases t with
  | atom ref leaf =>
      have empty : leaf = .regexEmpty := by
        by_contra nonempty
        exact stays ⟨ref, leaf, self_mem_subtrees _, nonempty⟩
      subst empty
      exact fun symbols inside => inside
  | regexAnd ref init last =>
      rw [words_regexAnd]
      refine empty_prod fun language member => ?_
      obtain ⟨item, child, rfl⟩ := List.mem_map.mp member
      exact each item child
  | regexOr ref content =>
      rw [words_regexOr]
      intro symbols inside
      obtain ⟨language, member, inside⟩ := mem_sum.mp inside
      obtain ⟨item, child, rfl⟩ := List.mem_map.mp member
      exact each item child symbols inside
  | regexRepeat ref regex min max =>
      exact repeatedWords_empty (each regex (List.mem_singleton.mpr rfl))

/-- An upper bound for the length of what a leaf matches. -/
def longestLeaf : Atom → Nat
  | .regexString text _ => text.length
  | _ => 1

theorem bounded_of_not_growing (dot : UInt8 → Prop) {t : Tree} (built : t.Built)
    (stays : ¬ t.GrowingStar) : BddAbove (lengths (t.words dot)) := by
  induction t using child_induct with
  | step t induction =>
  have each := fun item member => induction item member (built.child member)
    fun ⟨ref, regex, min, inside, grows⟩ =>
      stays ⟨ref, regex, min, mem_subtrees_child member inside, grows⟩
  cases t with
  | atom ref leaf =>
      refine ⟨longestLeaf leaf, ?_⟩
      rintro _ ⟨symbols, inside, rfl⟩
      cases leaf with
      | regexString text nonempty => exact Nat.le_of_eq (congrArg List.length inside)
      | regexEmpty => exact (congrArg List.length inside).le.trans (Nat.zero_le 1)
      | regexDot | regexRange _ _ _ =>
          obtain ⟨char, _, rfl⟩ := inside
          exact Nat.le_refl 1
      | _ => exact absurd inside (notMem_zero symbols)
  | regexAnd ref init last =>
      rw [words_regexAnd]
      refine bounded_prod fun language member => ?_
      obtain ⟨item, child, rfl⟩ := List.mem_map.mp member
      exact each item child
  | regexOr ref content =>
      rw [words_regexOr]
      refine bounded_sum fun language member => ?_
      obtain ⟨item, child, rfl⟩ := List.mem_map.mp member
      exact each item child
  | regexRepeat ref regex min max =>
      cases max with
      | some max => exact bounded_repeatedWords (each regex (List.mem_singleton.mpr rfl))
      | none =>
          refine bounded_of_empty (repeatedWords_empty (empty_of_not_grows dot
            (built.child (List.mem_singleton.mpr rfl)) fun grows => ?_))
          exact stays ⟨ref, regex, min, self_mem_subtrees _, grows⟩

/-! Which unbounded repeat maxLength meets first. -/

mutual

/-- The first repeat without a maximum, in the order of the items, does not stand
under a repeat with a maximum. -/
def Measured : Tree → Prop
  | atom _ _ => True
  | regexAnd _ init last =>
      MeasuredFirst init ∧ (init.any hasStar = false → last.hasStar = true → Measured last)
  | regexOr _ content => MeasuredFirst content
  | regexRepeat _ regex _ max => max = none ∨ regex.hasStar = false

def MeasuredFirst : List Tree → Prop
  | [] => True
  | item :: items =>
      (item.hasStar = true → Measured item) ∧ (item.hasStar = false → MeasuredFirst items)

end

theorem measuredFirst_concat (init : List Tree) (last : Tree) :
    MeasuredFirst (init ++ [last]) ↔
      MeasuredFirst init ∧ (init.any hasStar = false → last.hasStar = true → Measured last) := by
  induction init with
  | nil => simp [MeasuredFirst]
  | cons item init induction =>
      simp only [List.cons_append, MeasuredFirst, induction, List.any_cons,
        Bool.or_eq_false_iff]
      cases item.hasStar <;> simp

theorem measuredFirst_of_finite {items : List Tree}
    (finite : ∀ item ∈ items, item.hasStar = false) : MeasuredFirst items := by
  induction items with
  | nil => trivial
  | cons item items induction =>
      have here := finite item (by simp)
      refine ⟨fun star => absurd star (by simp [here]), fun _ => ?_⟩
      exact induction fun other member => finite other (List.mem_cons_of_mem _ member)

theorem finite_child {t item : Tree} (finite : t.hasStar = false) (child : item ∈ t.children) :
    item.hasStar = false := by
  by_contra star
  rw [Bool.not_eq_false] at star
  rw [hasStar_child child star] at finite
  cases finite

theorem measured_of_finite {t : Tree} (finite : t.hasStar = false) : t.Measured := by
  have children : ∀ item ∈ t.children, item.hasStar = false :=
    fun _ member => finite_child finite member
  cases t with
  | atom ref leaf => trivial
  | regexAnd ref init last =>
      refine ⟨measuredFirst_of_finite fun item member =>
        children item (List.mem_append_left _ member), fun _ star => ?_⟩
      exact absurd star (by simp [children last (List.mem_append_right _ (by simp))])
  | regexOr ref content => exact measuredFirst_of_finite children
  | regexRepeat ref regex min max => exact .inr (children regex (List.mem_singleton.mpr rfl))

/-! The loops over the items. -/

section Loop

variable {σ : Type} {run : Nat → Ref → Raising (Option Nat)} {step : σ → Nat → σ}
  {loop : Nat → σ → List Ref → Raising (Option Nat)}

/-- What maxLength does for a regex with an unbounded repeat in it. -/
structure Stops (run : Nat → Ref → Raising (Option Nat)) (t : Tree) : Prop where
  answers : t.hasStar = true → t.Measured →
    Returns (fun fuel => (run fuel t.ref).run) (.ok none)
  raises : t.hasStar = true → ¬ t.Measured →
    ∃ exception, Returns (fun fuel => (run fuel t.ref).run) (.error exception)

/-- A loop that stops at the first None ends as its first item without limit does. -/
theorem loop_stops
    (turn : ∀ fuel value item items, loop fuel value (item :: items) =
      run fuel item >>= fun length =>
        match length with
        | none => pure none
        | some length => loop fuel (step value length) items)
    {items : List Tree} (each : ∀ item ∈ items, Stops run item)
    (finite : ∀ item ∈ items, item.hasStar = false →
      ∃ length, Returns (fun fuel => (run fuel item.ref).run) (.ok (some length)))
    (star : items.any hasStar = true) (value : σ) :
    (MeasuredFirst items →
      Returns (fun fuel => (loop fuel value (items.map ref)).run) (.ok none)) ∧
    (¬ MeasuredFirst items → ∃ exception,
      Returns (fun fuel => (loop fuel value (items.map ref)).run) (.error exception)) := by
  induction items generalizing value with
  | nil => cases star
  | cons item items induction =>
      simp only [List.map_cons, turn]
      have here := each item (by simp)
      cases itemStar : item.hasStar with
      | true =>
          simp only [MeasuredFirst, itemStar, true_imp_iff, reduceCtorEq, false_imp_iff, and_true]
          refine ⟨fun measured => ?_, fun unmeasured => ?_⟩
          · exact Returns.tryBind (here.answers itemStar measured) (Returns.pure _)
          · obtain ⟨exception, raised⟩ := here.raises itemStar unmeasured
            exact ⟨exception, Returns.raises raised⟩
      | false =>
          simp only [MeasuredFirst, itemStar, reduceCtorEq, false_imp_iff, true_and, true_imp_iff]
          obtain ⟨length, answers⟩ := finite item (by simp) itemStar
          obtain ⟨measured, unmeasured⟩ := induction
            (fun other member => each other (List.mem_cons_of_mem _ member))
            (fun other member => finite other (List.mem_cons_of_mem _ member))
            (by simpa [itemStar] using star) (step value length)
          refine ⟨fun first => Returns.tryBind answers (measured first), fun first => ?_⟩
          obtain ⟨exception, raised⟩ := unmeasured first
          exact ⟨exception, Returns.tryBind answers raised⟩

end Loop

section Finite

variable {dot : UInt8 → Prop} {run : Nat → Ref → Raising (Option Nat)}
  {Is : Language UInt8 → Nat → Prop}

theorem andMinmax_returns (one : Is 1 0)
    (mul : ∀ {first second : Language UInt8} {a b}, Is first a → Is second b →
      Is (first * second) (a + b))
    {items : List Tree} (each : ∀ item ∈ items, ∃ length,
      Returns (fun fuel => (run fuel item.ref).run) (.ok (some length)) ∧
        Is (item.words dot) length) (total : Nat) :
    ∃ length, Returns (fun fuel =>
        (andMinmaxLength (run fuel) total (items.map ref)).run) (.ok (some (total + length))) ∧
      Is (items.map (words dot)).prod length := by
  induction items generalizing total with
  | nil => exact ⟨0, Returns.pure _, one⟩
  | cons item items induction =>
      obtain ⟨first, answers, isFirst⟩ := each item (by simp)
      obtain ⟨rest, answersRest, isRest⟩ := induction
        (fun other member => each other (List.mem_cons_of_mem _ member)) (total + first)
      refine ⟨first + rest, ?_, ?_⟩
      · rw [← Nat.add_assoc]
        exact Returns.tryBind answers answersRest
      · rw [List.map_cons, List.prod_cons]
        exact mul isFirst isRest

theorem orMinmax_returns {func : Nat → Nat → Nat}
    (add : ∀ {first second : Language UInt8} {a b}, Is first a → Is second b →
      Is (first + second) (func a b))
    {items : List Tree} (each : ∀ item ∈ items, ∃ length,
      Returns (fun fuel => (run fuel item.ref).run) (.ok (some length)) ∧
        Is (item.words dot) length) {language : Language UInt8} {value : Nat}
    (before : Is language value) :
    ∃ length, Returns (fun fuel =>
        (orMinmaxLength (run fuel) func (some value) (items.map ref)).run) (.ok (some length)) ∧
      Is (language + (items.map (words dot)).sum) length := by
  induction items generalizing language value with
  | nil => exact ⟨value, Returns.pure _, (add_zero language).symm ▸ before⟩
  | cons item items induction =>
      obtain ⟨first, answers, isFirst⟩ := each item (by simp)
      obtain ⟨length, answersRest, isRest⟩ := induction
        (fun other member => each other (List.mem_cons_of_mem _ member)) (add before isFirst)
      refine ⟨length, Returns.tryBind answers answersRest, ?_⟩
      rw [List.map_cons, List.sum_cons, ← add_assoc]
      exact isRest

theorem orMinmax_none_returns {func : Nat → Nat → Nat}
    (add : ∀ {first second : Language UInt8} {a b}, Is first a → Is second b →
      Is (first + second) (func a b))
    {items : List Tree} (each : ∀ item ∈ items, ∃ length,
      Returns (fun fuel => (run fuel item.ref).run) (.ok (some length)) ∧
        Is (item.words dot) length) (nonempty : items ≠ []) :
    ∃ length, Returns (fun fuel =>
        (orMinmaxLength (run fuel) func none (items.map ref)).run) (.ok (some length)) ∧
      Is (items.map (words dot)).sum length := by
  cases items with
  | nil => exact absurd rfl nonempty
  | cons item items =>
      obtain ⟨first, answers, isFirst⟩ := each item (by simp)
      obtain ⟨length, answersRest, isRest⟩ := orMinmax_returns add
        (fun other member => each other (List.mem_cons_of_mem _ member)) isFirst
      exact ⟨length, Returns.tryBind answers answersRest, isRest⟩

end Finite

theorem times_returns {run : Nat → Raising (Option Nat)} {length : Nat}
    (answers : Returns (fun fuel => (run fuel).run) (.ok (some length))) (count : Nat) :
    Returns (fun fuel => (run fuel >>= fun length => timesLength length count).run)
      (.ok (some (length * count))) :=
  Returns.tryBind answers (Returns.pure _)

section Lengths

variable {dot : UInt8 → Prop} (someDot : ∃ char, dot char)
include someDot

/-- All words of an atom have the length it gives. -/
theorem atom_minLength {ref : Ref} {leaf : Atom} (built : (atom ref leaf).NodeBuilt)
    (inhabited : (atom ref leaf).RangesInhabited) :
    ∃ length, leaf.minLength = pure (some length) ∧
      lengths (Atom.words dot leaf) = {length} := by
  have symbol : ∀ accepted : UInt8 → Prop, (∃ char, accepted char) →
      lengths ({ symbols | ∃ char, accepted char ∧ symbols = [char] } : Language UInt8) =
        {1} := by
    rintro accepted ⟨char, holds⟩
    ext length
    constructor
    · rintro ⟨_, ⟨char, _, rfl⟩, rfl⟩
      rfl
    · rintro rfl
      exact ⟨[char], ⟨char, holds, rfl⟩, rfl⟩
  obtain ⟨notWord, notStart, notEnd, notNone⟩ := built
  cases leaf with
  | regexEmpty => exact ⟨0, rfl, lengths_one⟩
  | regexWord => exact absurd rfl notWord
  | regexStart => exact absurd rfl notStart
  | regexEnd => exact absurd rfl notEnd
  | regexRepeatNone min max => exact absurd rfl (notNone min max)
  | regexDot => exact ⟨1, rfl, symbol dot someDot⟩
  | regexRange container ranges exclude =>
      exact ⟨1, rfl, symbol _ (inhabited _ (self_mem_subtrees _) ref container ranges exclude rfl)⟩
  | regexString text nonempty =>
      refine ⟨text.length, rfl, ?_⟩
      ext length
      constructor
      · rintro ⟨symbols, same, rfl⟩
        exact congrArg List.length same
      · rintro rfl
        exact ⟨text, rfl, rfl⟩

theorem minLength_returns {h : Heap} {t : Tree} (rep : t.Rep h) (built : t.Built)
    (inhabited : t.RangesInhabited) :
    ∃ length, Returns (fun fuel => (minLength fuel t.ref h).run) (.ok (some length)) ∧
      Shortest (t.words dot) length := by
  induction t using child_induct with
  | step t induction =>
  have here := rep.here
  have each := fun item member => induction item member (rep.child member)
    (built.child member) (inhabited.child member)
  cases t with
  | atom ref leaf =>
      obtain ⟨length, answers, only⟩ := atom_minLength someDot built.node inhabited
      refine ⟨length, Returns.call (fun fuel => ?_) (Returns.pure _), ?_⟩
      · simp only [minLength, here]
        exact congrArg ExceptT.run answers
      · rw [Shortest, words, only]
        exact isLeast_singleton
  | regexAnd ref init last =>
      obtain ⟨length, answers, shortest⟩ := @andMinmax_returns dot
        (fun fuel item => minLength fuel item h)
        Shortest shortest_one shortest_mul (init ++ [last]) each 0
      rw [Nat.zero_add] at answers
      refine ⟨length, Returns.call (fun fuel => ?_) answers, ?_⟩
      · simp only [minLength, here, node, List.map_append, List.map_singleton]
        rfl
      · rw [words_regexAnd]
        exact shortest
  | regexOr ref content =>
      obtain ⟨length, answers, shortest⟩ := @orMinmax_none_returns dot
        (fun fuel item => minLength fuel item h) Shortest min shortest_add content each
        built.nonempty
      refine ⟨length, Returns.call (fun fuel => ?_) answers, ?_⟩
      · simp only [minLength, here, node]
        rfl
      · rw [words_regexOr]
        exact shortest
  | regexRepeat ref regex min max =>
      obtain ⟨length, answers, shortest⟩ := each regex (List.mem_singleton.mpr rfl)
      refine ⟨length * min, Returns.call (fun fuel => ?_) (times_returns answers min),
        shortest_repeatedWords built.node.bounds shortest⟩
      simp only [minLength, here, node]
      rfl

theorem maxLength_finite {h : Heap} {t : Tree} (rep : t.Rep h) (built : t.Built)
    (inhabited : t.RangesInhabited) (finite : t.hasStar = false) :
    ∃ length, Returns (fun fuel => (maxLength fuel t.ref h).run) (.ok (some length)) ∧
      Longest (t.words dot) length := by
  induction t using child_induct with
  | step t induction =>
  have here := rep.here
  have each := fun item member => induction item member (rep.child member)
    (built.child member) (inhabited.child member) (finite_child finite member)
  cases t with
  | atom ref leaf =>
      obtain ⟨length, answers, only⟩ := atom_minLength someDot built.node inhabited
      have notNone := built.node.2.2.2
      refine ⟨length, Returns.call (fun fuel => ?_) (Returns.pure _), ?_⟩
      · cases leaf with
        | regexRepeatNone min max => exact absurd rfl (notNone min max)
        | _ =>
            simp only [maxLength, here, node]
            exact congrArg ExceptT.run answers
      · rw [Longest, words, only]
        exact isGreatest_singleton
  | regexAnd ref init last =>
      obtain ⟨length, answers, longest⟩ := @andMinmax_returns dot
        (fun fuel item => maxLength fuel item h) Longest longest_one longest_mul
        (init ++ [last]) each 0
      rw [Nat.zero_add] at answers
      refine ⟨length, Returns.call (fun fuel => ?_) answers, ?_⟩
      · simp only [maxLength, here, node, List.map_append, List.map_singleton]
        rfl
      · rw [words_regexAnd]
        exact longest
  | regexOr ref content =>
      obtain ⟨length, answers, longest⟩ := @orMinmax_none_returns dot
        (fun fuel item => maxLength fuel item h) Longest max longest_add content each
        built.nonempty
      refine ⟨length, Returns.call (fun fuel => ?_) answers, ?_⟩
      · simp only [maxLength, here, node]
        rfl
      · rw [words_regexOr]
        exact longest
  | regexRepeat ref regex min max =>
      cases max with
      | none =>
          have star : (regexRepeat ref regex min none).hasStar = true := hasStar_iff.mpr (.inl rfl)
          rw [finite] at star
          cases star
      | some max =>
          obtain ⟨length, answers, longest⟩ := each regex (List.mem_singleton.mpr rfl)
          refine ⟨length * max, Returns.call (fun fuel => ?_) (times_returns answers max),
            longest_repeatedWords built.node.bounds longest⟩
          simp only [maxLength, here, node]
          rfl

theorem maxLength_stops {h : Heap} {t : Tree} (rep : t.Rep h) (built : t.Built)
    (inhabited : t.RangesInhabited) : Stops (fun fuel regex => maxLength fuel regex h) t := by
  induction t using child_induct with
  | step t induction =>
  have here := rep.here
  have each := fun item member => induction item member (rep.child member)
    (built.child member) (inhabited.child member)
  have finite : ∀ item ∈ t.children, item.hasStar = false →
      ∃ length, Returns (fun fuel => (maxLength fuel item.ref h).run) (.ok (some length)) := by
    intro item member unstarred
    obtain ⟨length, answers, _⟩ := maxLength_finite someDot (rep.child member)
      (built.child member) (inhabited.child member) unstarred
    exact ⟨length, answers⟩
  cases t with
  | atom ref leaf => exact ⟨fun star => absurd star (by simp [hasStar, subtrees, isStar]),
      fun star => absurd star (by simp [hasStar, subtrees, isStar])⟩
  | regexAnd ref init last =>
      have inner : (regexAnd ref init last).hasStar = true →
          (init ++ [last]).any hasStar = true := by
        intro star
        obtain wrong | ⟨item, member, star⟩ := hasStar_iff.mp star
        · cases wrong
        · exact List.any_eq_true.mpr ⟨item, member, star⟩
      have step : ∀ fuel, maxLength (fuel + 1) (regexAnd ref init last).ref h =
          andMinmaxLength (fun item => maxLength fuel item h) 0
            ((init ++ [last]).map Tree.ref) := by
        intro fuel
        simp only [maxLength, here, node, List.map_append, List.map_singleton]
        rfl
      have stops := fun star => @loop_stops Nat (fun fuel item => maxLength fuel item h) Nat.add
        (fun fuel => andMinmaxLength fun item => maxLength fuel item h)
        (fun _ _ _ _ => rfl) (init ++ [last]) each finite (inner star) 0
      rw [measuredFirst_concat] at stops
      refine ⟨fun star measured => ?_, fun star unmeasured => ?_⟩
      · exact Returns.call (fun fuel => congrArg ExceptT.run (step fuel)) ((stops star).1 measured)
      · obtain ⟨exception, raised⟩ := (stops star).2 unmeasured
        exact ⟨exception, Returns.call (fun fuel => congrArg ExceptT.run (step fuel)) raised⟩
  | regexOr ref content =>
      have inner : (regexOr ref content).hasStar = true → content.any hasStar = true := by
        intro star
        obtain wrong | ⟨item, member, star⟩ := hasStar_iff.mp star
        · cases wrong
        · exact List.any_eq_true.mpr ⟨item, member, star⟩
      have step : ∀ fuel, maxLength (fuel + 1) (regexOr ref content).ref h =
          orMinmaxLength (fun item => maxLength fuel item h) max none (content.map Tree.ref) := by
        intro fuel
        simp only [maxLength, here, node]
        rfl
      have stops := fun star => @loop_stops (Option Nat) (fun fuel item => maxLength fuel item h)
        (fun value length => some (match value with
          | none => length
          | some value => max value length))
        (fun fuel => orMinmaxLength (fun item => maxLength fuel item h) max)
        (fun _ _ _ _ => rfl) content each finite (inner star) none
      refine ⟨fun star measured => ?_, fun star unmeasured => ?_⟩
      · exact Returns.call (fun fuel => congrArg ExceptT.run (step fuel)) ((stops star).1 measured)
      · obtain ⟨exception, raised⟩ := (stops star).2 unmeasured
        exact ⟨exception, Returns.call (fun fuel => congrArg ExceptT.run (step fuel)) raised⟩
  | regexRepeat ref regex min max =>
      cases max with
      | none =>
          refine ⟨fun _ _ => Returns.call (fun fuel => ?_) (Returns.pure _),
            fun _ unmeasured => absurd (Or.inl rfl) unmeasured⟩
          simp only [maxLength, here, node]
          rfl
      | some max =>
          have inner : (regexRepeat ref regex min (some max)).hasStar = true →
              regex.hasStar = true := by
            intro star
            obtain wrong | ⟨item, member, star⟩ := hasStar_iff.mp star
            · cases wrong
            · exact List.mem_singleton.mp member ▸ star
          have step : ∀ fuel, maxLength (fuel + 1) (regexRepeat ref regex min (some max)).ref h =
              maxLength fuel regex.ref h >>= fun length => timesLength length max := by
            intro fuel
            simp only [maxLength, here, node]
            rfl
          refine ⟨fun star measured => ?_, fun star _ => ?_⟩
          · obtain wrong | unstarred := measured
            · cases wrong
            · exact absurd (inner star) (by simp [unstarred])
          · have stops := each regex (List.mem_singleton.mpr rfl)
            by_cases measured : regex.Measured
            · exact ⟨_, Returns.call (fun fuel => congrArg ExceptT.run (step fuel))
                (Returns.tryBind (stops.answers (inner star) measured) (Returns.pure _))⟩
            · obtain ⟨exception, raised⟩ := stops.raises (inner star) measured
              exact ⟨exception, Returns.call (fun fuel => congrArg ExceptT.run (step fuel))
                (Returns.raises raised)⟩

end Lengths

end Tree

/-- minLength and maxLength are exact when maxLength meets no repeat with a maximum
around one without, and some repeat without a maximum, if there is one, repeats
something that matches a character. -/
theorem lengths_exact_iff {h : Heap} {t : Tree} (rep : t.Rep h) (built : t.Built)
    (inhabited : t.RangesInhabited) {dot : UInt8 → Prop} (someDot : ∃ char, dot char) :
    (∃ shortest longest,
        Returns (fun fuel => (minLength fuel t.ref h).run) (.ok (some shortest)) ∧
        Returns (fun fuel => (maxLength fuel t.ref h).run) (.ok longest) ∧
        Shortest (t.words dot) shortest ∧
        match longest with
        | some longest => Longest (t.words dot) longest
        | none => Endless (t.words dot)) ↔
      t.Measured ∧ (t.hasStar = true → t.GrowingStar) := by
  obtain ⟨shortest, answers, isShortest⟩ :=
    Tree.minLength_returns someDot rep built inhabited
  have stops := Tree.maxLength_stops someDot rep built inhabited
  constructor
  · rintro ⟨_, longest, _, returns, _, exact⟩
    cases star : t.hasStar with
    | false => exact ⟨Tree.measured_of_finite star, fun wrong => absurd wrong Bool.false_ne_true⟩
    | true =>
        have measured : t.Measured := by
          by_contra unmeasured
          obtain ⟨exception, raised⟩ := stops.raises star unmeasured
          cases Returns.unique raised returns
        cases Returns.unique (stops.answers star measured) returns
        refine ⟨measured, fun _ => ?_⟩
        by_contra stays
        exact exact (Tree.bounded_of_not_growing dot built stays)
  · rintro ⟨measured, grows⟩
    cases star : t.hasStar with
    | false =>
        obtain ⟨longest, returns, isLongest⟩ :=
          Tree.maxLength_finite someDot rep built inhabited star
        exact ⟨shortest, some longest, answers, returns, isShortest, isLongest⟩
    | true =>
        exact ⟨shortest, none, answers, stops.answers star measured, isShortest,
          Tree.endless_of_growing someDot built inhabited (grows star)⟩

/-! `(a*)?` -/

def optionalStar : Heap :=
  Heap.ofNodes [.atom (.regexString [97] a_nonempty), .regexRepeat 0 0 none,
    .regexRepeat 1 0 (some 1)]

def optionalStarTree : Tree :=
  .regexRepeat 2 (.regexRepeat 1 (.atom 0 (.regexString [97] a_nonempty)) 0 none) 0 (some 1)

theorem optionalStarTree_built : optionalStarTree.Built := by
  intro s member
  have options : s = optionalStarTree ∨
      s = .regexRepeat 1 (.atom 0 (.regexString [97] (by decide))) 0 none ∨
      s = .atom 0 (.regexString [97] (by decide)) := by
    simpa [optionalStarTree, Tree.subtrees] using member
  obtain rfl | rfl | rfl := options
  · intro bound below
    cases below
    decide
  · intro bound below
    cases below
  · refine ⟨fun same => ?_, fun same => ?_, fun same => ?_, fun _ _ same => ?_⟩ <;> cases same

theorem optionalStarTree_inhabited : optionalStarTree.RangesInhabited := by
  intro s member ref container ranges exclude same
  subst same
  simp [optionalStarTree, Tree.subtrees] at member

theorem lengths_exact_iff_optionalStar :
    (∃ shortest longest,
        Returns (fun fuel => (minLength fuel 2 optionalStar).run) (.ok (some shortest)) ∧
        Returns (fun fuel => (maxLength fuel 2 optionalStar).run) (.ok longest) ∧
        Shortest (optionalStarTree.words fun char => char ≠ 10) shortest ∧
        match longest with
        | some longest => Longest (optionalStarTree.words fun char => char ≠ 10) longest
        | none => Endless (optionalStarTree.words fun char => char ≠ 10)) ↔
      optionalStarTree.Measured ∧
        (optionalStarTree.hasStar = true → optionalStarTree.GrowingStar) :=
  @lengths_exact_iff optionalStar optionalStarTree ⟨rfl, rfl, rfl⟩ optionalStarTree_built
    optionalStarTree_inhabited (fun char => char ≠ 10) ⟨97, by decide⟩

/-- maxLength raises a TypeError for `(a*)?`. -/
theorem lengths_fails_optionalStar :
    optionalStarTree.Rep optionalStar ∧ optionalStarTree.Built ∧
      Returns (fun fuel => (maxLength fuel optionalStarTree.ref optionalStar).run)
        (.error "unsupported operand type(s) for *: 'NoneType' and 'int'") := by
  refine ⟨⟨rfl, rfl, rfl⟩, optionalStarTree_built, 3, fun fuel enough => ?_⟩
  obtain ⟨more, rfl⟩ := Nat.exists_eq_add_of_le' enough
  rfl

end Segvault.HachoirRegex
