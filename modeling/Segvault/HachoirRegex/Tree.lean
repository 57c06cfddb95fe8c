import Segvault.HachoirRegex.Regex
import Segvault.Spans

namespace Segvault.HachoirRegex

open Relation Spans

/-! A regex with everything reachable from it: every node carries the reference
of its object, and a RegexAnd shows its last item apart. -/

inductive Tree
  | atom (ref : Ref) (leaf : Atom)
  | regexAnd (ref : Ref) (init : List Tree) (last : Tree)
  | regexOr (ref : Ref) (content : List Tree)
  | regexRepeat (ref : Ref) (regex : Tree) (min : Nat) (max : Option Nat)

namespace Tree

def ref : Tree → Ref
  | atom ref _ => ref
  | regexAnd ref _ _ => ref
  | regexOr ref _ => ref
  | regexRepeat ref _ _ _ => ref

def isAnd : Tree → Bool
  | regexAnd _ _ _ => true
  | _ => false

def isEmpty : Tree → Bool
  | atom _ .regexEmpty => true
  | _ => false

@[induction_eliminator, elab_as_elim]
theorem induct {motive : Tree → Prop}
    (atom : ∀ ref leaf, motive (.atom ref leaf))
    (regexAnd : ∀ ref init last, (∀ item ∈ init, motive item) → motive last →
      motive (.regexAnd ref init last))
    (regexOr : ∀ ref content, (∀ item ∈ content, motive item) →
      motive (.regexOr ref content))
    (regexRepeat : ∀ ref regex min max, motive regex →
      motive (.regexRepeat ref regex min max)) (t : Tree) : motive t :=
  @Tree.rec motive (fun items => ∀ item ∈ items, motive item)
    atom (fun ref init last => regexAnd ref init last) regexOr
    (fun ref regex min max => regexRepeat ref regex min max)
    (fun _ member => absurd member List.not_mem_nil)
    (fun _ _ head tail _ member => by
      cases List.mem_cons.1 member with
      | inl same => exact same ▸ head
      | inr later => exact tail _ later)
    t

end Tree

/-! What a regex matches in a text: pairs of the position before the match and
the position after it. `dot` says which characters `.` stands for. -/

def RegexRangeItem.admits (item : RegexRangeItem) (char : UInt8) : Prop :=
  item.cmin ≤ char.toNat ∧ char.toNat ≤ item.cmax

def rangesAdmit (ranges : List RegexRangeItem) (char : UInt8) : Prop :=
  ∃ item ∈ ranges, item.admits char

def wordChar (char : UInt8) : Bool :=
  let code := char.toNat
  (48 ≤ code && code ≤ 57) || (65 ≤ code && code ≤ 90) || code = 95 ||
    (97 ≤ code && code ≤ 122)

def wordAt (text : List UInt8) (position : Nat) : Bool :=
  text[position]?.any wordChar

def atWordBoundary (text : List UInt8) (position : Nat) : Prop :=
  (position ≠ 0 && wordAt text (position - 1)) ≠ wordAt text position

/-- `$` also matches before a newline that ends the text. -/
def atEnd (text : List UInt8) (position : Nat) : Prop :=
  position = text.length ∨ text.drop position = [10]

section Denotation

variable (dot : UInt8 → Prop) (text : List UInt8)

def Atom.denote : Atom → Position text → Position text → Prop
  | .regexEmpty => Eq
  | .regexWord => fun i j => i = j ∧ atWordBoundary text i
  | .regexStart => fun i j => i = j ∧ (i : Nat) = 0
  | .regexEnd => fun i j => i = j ∧ atEnd text i
  | .regexDot => symbol dot
  | .regexString string _ => word string
  | .regexRange _ ranges false => symbol (rangesAdmit ranges)
  | .regexRange _ ranges true => symbol fun char => ¬ rangesAdmit ranges char
  | .regexRepeatNone _ _ => ⊥

namespace Tree

mutual

def denote : Tree → Position text → Position text → Prop
  | atom _ leaf => leaf.denote dot text
  | regexAnd _ init last => Comp (sequence (denoteAll init)) (denote last)
  | regexOr _ content => choice (denoteAll content)
  | regexRepeat _ regex min max => repeated (denote regex) min max

def denoteAll : List Tree → List (Position text → Position text → Prop)
  | [] => []
  | item :: items => denote item :: denoteAll items

end

theorem denoteAll_eq (items : List Tree) :
    denoteAll dot text items = items.map (denote dot text) := by
  induction items with
  | nil => rfl
  | cons item items induction => rw [denoteAll, induction, List.map_cons]

theorem denote_regexAnd (ref : Ref) (init : List Tree) (last : Tree) :
    (regexAnd ref init last).denote dot text =
      sequence ((init ++ [last]).map (denote dot text)) := by
  rw [denote, denoteAll_eq, List.map_append, sequence_append, List.map_singleton,
    sequence_singleton]

theorem denote_regexOr (ref : Ref) (content : List Tree) :
    (regexOr ref content).denote dot text =
      choice (content.map (denote dot text)) := by
  rw [denote, denoteAll_eq]

end Tree

end Denotation

/-! The objects of a tree, and the heaps that hold it. -/

namespace Tree

mutual

def refs : Tree → List Ref
  | atom ref _ => [ref]
  | regexAnd ref init last => ref :: (refsAll init ++ refs last)
  | regexOr ref content => ref :: refsAll content
  | regexRepeat ref regex _ _ => ref :: refs regex

def refsAll : List Tree → List Ref
  | [] => []
  | item :: items => refs item ++ refsAll items

end

@[simp] theorem refsAll_nil : refsAll [] = [] := rfl

@[simp] theorem refsAll_cons (item : Tree) (items : List Tree) :
    refsAll (item :: items) = item.refs ++ refsAll items := rfl

theorem mem_refsAll {r : Ref} {items : List Tree} :
    r ∈ refsAll items ↔ ∃ item ∈ items, r ∈ item.refs := by
  induction items with
  | nil => simp
  | cons item items induction => simp [induction]

@[simp] theorem refsAll_append (first second : List Tree) :
    refsAll (first ++ second) = refsAll first ++ refsAll second := by
  induction first with
  | nil => rfl
  | cons item first induction => simp [induction]

theorem ref_mem_refs (t : Tree) : t.ref ∈ t.refs := by
  cases t <;> simp [ref, refs]

mutual

def Rep (h : Heap) : Tree → Prop
  | atom ref leaf => h.node? ref = some (.atom leaf)
  | regexAnd ref init last =>
      h.node? ref = some (.regexAnd (init.map Tree.ref ++ [last.ref])) ∧
        RepAll h init ∧ Rep h last
  | regexOr ref content =>
      h.node? ref = some (.regexOr (content.map Tree.ref)) ∧ RepAll h content
  | regexRepeat ref regex min max =>
      h.node? ref = some (.regexRepeat regex.ref min max) ∧ Rep h regex

def RepAll (h : Heap) : List Tree → Prop
  | [] => True
  | item :: items => Rep h item ∧ RepAll h items

end

theorem repAll_iff {h : Heap} {items : List Tree} :
    RepAll h items ↔ ∀ item ∈ items, Rep h item := by
  induction items with
  | nil => simp [RepAll]
  | cons item items induction => simp [RepAll, induction]

end Tree

/-! Heaps: what is read after a step. -/

namespace Heap

def ofNodes (nodes : List Node) : Heap :=
  { objects := nodes.map fun node => { node := node, strValue := fun _ => none }
    items := 0 }

def size (h : Heap) : Nat :=
  h.objects.length

@[simp] theorem new_fst (h : Heap) (node : Node) : (h.new node).1 = h.size := rfl

@[simp] theorem new_size (h : Heap) (node : Node) :
    (h.new node).2.size = h.size + 1 := by
  simp [new, size]

theorem node?_lt {h : Heap} {r : Ref} {node : Node}
    (here : h.node? r = some node) : r < h.size := by
  rw [node?, Option.map_eq_some_iff] at here
  obtain ⟨object, found, _⟩ := here
  exact (List.getElem?_eq_some_iff.1 found).1

/-- `h'` has the objects of `h` as they were, apart from those in `changed`. -/
structure KeepsBut (changed : Ref → Prop) (h h' : Heap) : Prop where
  grows : h.size ≤ h'.size
  same : ∀ r, r < h.size → ¬ changed r → h'.objects[r]? = h.objects[r]?

abbrev Extends (h h' : Heap) : Prop :=
  KeepsBut (fun _ => False) h h'

namespace KeepsBut

variable {changed : Ref → Prop} {h h' h'' : Heap}

theorem refl (changed : Ref → Prop) (h : Heap) : KeepsBut changed h h :=
  ⟨Nat.le_refl _, fun _ _ _ => rfl⟩

theorem mono {more : Ref → Prop} (weaker : ∀ r, r < h.size → changed r → more r)
    (keeps : KeepsBut changed h h') : KeepsBut more h h' :=
  ⟨keeps.grows, fun r bound unchanged =>
    keeps.same r bound fun inside => unchanged (weaker r bound inside)⟩

/-- The second step may change objects that the first one made. -/
theorem andThen {later : Ref → Prop} (first : KeepsBut changed h h')
    (second : KeepsBut later h' h'')
    (within : ∀ r, r < h.size → later r → changed r) : KeepsBut changed h h'' := by
  refine ⟨Nat.le_trans first.grows second.grows, fun r bound unchanged => ?_⟩
  rw [second.same r (Nat.lt_of_lt_of_le bound first.grows)
      fun inside => unchanged (within r bound inside),
    first.same r bound unchanged]

theorem trans (first : KeepsBut changed h h') (second : KeepsBut changed h' h'') :
    KeepsBut changed h h'' :=
  first.andThen second fun _ _ inside => inside

theorem node? (keeps : KeepsBut changed h h') {r : Ref} {node : Node}
    (unchanged : ¬ changed r) (here : h.node? r = some node) :
    h'.node? r = some node := by
  rw [Heap.node?, keeps.same r (node?_lt here) unchanged]
  exact here

end KeepsBut

theorem new_extends (h : Heap) (node : Node) : Extends h (h.new node).2 := by
  refine ⟨by simp, fun r bound _ => ?_⟩
  exact List.getElem?_append_left bound

theorem new_node? (h : Heap) (node : Node) :
    (h.new node).2.node? h.size = some node := by
  simp [new, Heap.node?, size]

theorem items_extends (h : Heap) (items : Nat) : Extends h { h with items := items } :=
  ⟨Nat.le_refl _, fun _ _ _ => rfl⟩

theorem setNode_size (h : Heap) (r : Ref) (node : Node) :
    (h.setNode r node).size = h.size := by
  simp [setNode, size]

theorem setNode_keeps (h : Heap) (r : Ref) (node : Node) :
    KeepsBut (fun changed => changed = r) h (h.setNode r node) := by
  refine ⟨Nat.le_of_eq (setNode_size h r node).symm, fun other _ unchanged => ?_⟩
  rw [setNode, List.getElem?_modify_ne _ _ (Ne.symm unchanged)]

theorem setNode_node? {h : Heap} {r : Ref} {node : Node} (bound : r < h.size) :
    (h.setNode r node).node? r = some node := by
  have bound' : r < h.objects.length := bound
  simp [setNode, Heap.node?, bound']

theorem setNode_same {h : Heap} {r : Ref} {node : Node}
    (here : h.node? r = some node) : h.setNode r node = h := by
  rw [Heap.node?, Option.map_eq_some_iff] at here
  obtain ⟨object, found, rfl⟩ := here
  have unchanged : h.objects.modify r (fun object' => { object' with node := object.node }) =
      h.objects := by
    apply List.ext_getElem?
    intro index
    rw [List.getElem?_modify]
    split
    · rename_i same
      subst same
      rw [found]
      rfl
    · simp
  rw [setNode, unchanged]

end Heap

namespace Tree

theorem Rep.keeps {changed : Ref → Prop} {h h' : Heap} (keeps : h.KeepsBut changed h')
    {t : Tree} (rep : t.Rep h) (apart : ∀ r ∈ t.refs, ¬ changed r) : t.Rep h' := by
  induction t with
  | atom ref leaf =>
      exact keeps.node? (apart ref (by simp [refs])) rep
  | regexAnd ref init last inductionInit inductionLast =>
      obtain ⟨here, repInit, repLast⟩ := rep
      rw [repAll_iff] at repInit
      refine ⟨keeps.node? (apart ref (by simp [refs])) here, repAll_iff.2 ?_, ?_⟩
      · intro item member
        apply inductionInit item member (repInit item member)
        intro r inside
        exact apart r (by simp [refs, mem_refsAll]; exact Or.inr (Or.inl ⟨item, member, inside⟩))
      · apply inductionLast repLast
        intro r inside
        exact apart r (by simp [refs, inside])
  | regexOr ref content inductionContent =>
      obtain ⟨here, repContent⟩ := rep
      rw [repAll_iff] at repContent
      refine ⟨keeps.node? (apart ref (by simp [refs])) here, repAll_iff.2 ?_⟩
      intro item member
      apply inductionContent item member (repContent item member)
      intro r inside
      exact apart r (by simp [refs, mem_refsAll]; exact Or.inr ⟨item, member, inside⟩)
  | regexRepeat ref regex min max induction =>
      obtain ⟨here, repRegex⟩ := rep
      refine ⟨keeps.node? (apart ref (by simp [refs])) here, induction repRegex ?_⟩
      intro r inside
      exact apart r (by simp [refs, inside])

theorem Rep.extends {h h' : Heap} (extends' : h.Extends h') {t : Tree}
    (rep : t.Rep h) : t.Rep h' :=
  rep.keeps extends' fun _ _ changed => changed

theorem Rep.lt {h : Heap} {t : Tree} (rep : t.Rep h) : ∀ r ∈ t.refs, r < h.size := by
  induction t with
  | atom ref leaf =>
      intro r member
      rw [refs, List.mem_singleton] at member
      exact member ▸ Heap.node?_lt rep
  | regexAnd ref init last inductionInit inductionLast =>
      obtain ⟨here, repInit, repLast⟩ := rep
      rw [repAll_iff] at repInit
      intro r member
      simp only [refs, List.mem_cons, List.mem_append, mem_refsAll] at member
      obtain rfl | ⟨item, inside, member⟩ | member := member
      · exact Heap.node?_lt here
      · exact inductionInit item inside (repInit item inside) r member
      · exact inductionLast repLast r member
  | regexOr ref content inductionContent =>
      obtain ⟨here, repContent⟩ := rep
      rw [repAll_iff] at repContent
      intro r member
      simp only [refs, List.mem_cons, mem_refsAll] at member
      obtain rfl | ⟨item, inside, member⟩ := member
      · exact Heap.node?_lt here
      · exact inductionContent item inside (repContent item inside) r member
  | regexRepeat ref regex min max induction =>
      obtain ⟨here, repRegex⟩ := rep
      intro r member
      simp only [refs, List.mem_cons] at member
      obtain rfl | member := member
      · exact Heap.node?_lt here
      · exact induction repRegex r member

theorem RepAll.keeps {changed : Ref → Prop} {h h' : Heap} (keeps : h.KeepsBut changed h')
    {items : List Tree} (rep : RepAll h items)
    (apart : ∀ r ∈ refsAll items, ¬ changed r) : RepAll h' items := by
  rw [repAll_iff] at rep ⊢
  intro item member
  exact (rep item member).keeps keeps fun r inside =>
    apart r (mem_refsAll.2 ⟨item, member, inside⟩)

/-! The node that a heap holds for a tree. -/

def node : Tree → Node
  | atom _ leaf => .atom leaf
  | regexAnd _ init last => .regexAnd (init.map ref ++ [last.ref])
  | regexOr _ content => .regexOr (content.map ref)
  | regexRepeat _ regex min max => .regexRepeat regex.ref min max

theorem Rep.here {h : Heap} {t : Tree} (rep : t.Rep h) :
    h.node? t.ref = some t.node := by
  cases t with
  | atom ref leaf => exact rep
  | _ => exact rep.1

theorem eq_of_map_ref {h : Heap} {items others : List Tree}
    (each : ∀ item ∈ items, ∀ u : Tree, item.Rep h → u.Rep h → item.ref = u.ref → item = u)
    (reps : ∀ item ∈ items, item.Rep h) (repOthers : ∀ other ∈ others, other.Rep h)
    (same : items.map ref = others.map ref) : items = others := by
  induction items generalizing others with
  | nil =>
      cases others with
      | nil => rfl
      | cons other others => cases same
  | cons item items induction =>
      cases others with
      | nil => cases same
      | cons other others =>
          rw [List.map_cons, List.map_cons, List.cons.injEq] at same
          rw [each item (by simp) other (reps item (by simp)) (repOthers other (by simp)) same.1,
            induction (fun item member => each item (List.mem_cons_of_mem _ member))
              (fun item member => reps item (List.mem_cons_of_mem _ member))
              (fun other member => repOthers other (List.mem_cons_of_mem _ member)) same.2]

/-- A heap holds one tree for a reference. -/
theorem Rep.unique {h : Heap} {t u : Tree} (rept : t.Rep h) (repu : u.Rep h)
    (same : t.ref = u.ref) : t = u := by
  have nodes : t.node = u.node :=
    Option.some.inj (rept.here.symm.trans (same ▸ repu.here))
  induction t generalizing u with
  | atom reft leaf =>
      cases u <;> cases nodes
      cases same
      rfl
  | regexAnd reft init last inductionInit inductionLast =>
      cases u with
      | regexAnd refu initu lastu =>
          obtain ⟨_, repInit, repLast⟩ := rept
          obtain ⟨_, repInitu, repLastu⟩ := repu
          have contents := Node.regexAnd.inj nodes
          obtain ⟨inits, lasts⟩ := List.append_inj' contents rfl
          cases same
          rw [eq_of_map_ref (fun item member u rept repu same => inductionInit item member rept
              repu same (Option.some.inj (rept.here.symm.trans (same ▸ repu.here))))
            (repAll_iff.mp repInit) (repAll_iff.mp repInitu) inits]
          have lasts := List.singleton_inj.mp lasts
          rw [inductionLast repLast repLastu lasts
            (Option.some.inj (repLast.here.symm.trans (lasts ▸ repLastu.here)))]
      | _ => cases nodes
  | regexOr reft content inductionContent =>
      cases u with
      | regexOr refu contentu =>
          cases same
          rw [eq_of_map_ref (fun item member u rept repu same => inductionContent item member rept
              repu same (Option.some.inj (rept.here.symm.trans (same ▸ repu.here))))
            (repAll_iff.mp rept.2) (repAll_iff.mp repu.2) (Node.regexOr.inj nodes)]
      | _ => cases nodes
  | regexRepeat reft regex min max induction =>
      cases u with
      | regexRepeat refu regexu minu maxu =>
          obtain ⟨inner, rfl, rfl⟩ := Node.regexRepeat.inj nodes
          cases same
          rw [induction rept.2 repu.2 inner
            (Option.some.inj (rept.2.here.symm.trans (inner ▸ repu.2.here)))]
      | _ => cases nodes

theorem Rep.isEmpty {h : Heap} {t : Tree} (rep : t.Rep h) :
    h.isEmpty t.ref = t.isEmpty := by
  rw [Heap.isEmpty, rep.here]
  cases t with
  | atom ref leaf => cases leaf <;> rfl
  | _ => rfl

theorem isEmpty_of_isAnd {t : Tree} (isAnd : t.isAnd = true) :
    t.isEmpty = false := by
  cases t with
  | regexAnd ref init last => rfl
  | _ => cases isAnd

theorem Rep.node_of_isAnd {h : Heap} {t : Tree} (rep : t.Rep h)
    (isAnd : t.isAnd = true) :
    ∃ content, h.node? t.ref = some (.regexAnd content) := by
  cases t with
  | regexAnd ref init last => exact ⟨_, rep.1⟩
  | _ => cases isAnd

end Tree

end Segvault.HachoirRegex
