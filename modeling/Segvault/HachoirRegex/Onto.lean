import Mathlib.Data.List.InsertIdx
import Segvault.Follows
import Segvault.HachoirRegex.Ranges
import Segvault.HachoirRegex.Tree

namespace Segvault.HachoirRegex

/-! A heap on top of another one: the same objects under other references. -/

def RegexRangeItem.moved (items : Nat) (item : RegexRangeItem) : RegexRangeItem :=
  { item with identity := items + item.identity }

@[simp] theorem RegexRangeItem.within_moved (items : Nat) (itema itemb : RegexRangeItem) :
    (itema.moved items).within (itemb.moved items) = itema.within itemb :=
  rfl

theorem RegexRangeItem.moved_injective (items : Nat) :
    Function.Injective (RegexRangeItem.moved items) := by
  intro itema itemb same
  cases itema
  cases itemb
  simp only [moved, RegexRangeItem.mk.injEq] at same ⊢
  omega

def Atom.moved (items : Nat) : Atom → Atom
  | .regexRange container ranges exclude =>
      .regexRange container (ranges.map (RegexRangeItem.moved items)) exclude
  | leaf => leaf

theorem Atom.moved_injective (items : Nat) : Function.Injective (Atom.moved items) := by
  intro leaf other same
  cases leaf with
  | regexRange container ranges exclude =>
      cases other with
      | regexRange container ranges exclude =>
          simp only [moved, regexRange.injEq] at same ⊢
          exact ⟨same.1, List.map_injective_iff.mpr (RegexRangeItem.moved_injective items) same.2.1,
            same.2.2⟩
      | _ => cases same
  | regexRepeatNone min max =>
      cases other with
      | regexRepeatNone min max => exact same
      | _ => cases same
  | _ =>
      cases other <;> cases same
      rfl

namespace Heap

variable (k : Heap)

/-- The reference, over `k`, of an object. -/
def up (r : Ref) : Ref :=
  k.size + r

def upNode : Node → Node
  | .atom leaf => .atom (leaf.moved k.items)
  | .regexAnd content => .regexAnd (content.map k.up)
  | .regexOr content => .regexOr (content.map k.up)
  | .regexRepeat regex min max => .regexRepeat (k.up regex) min max

@[simp] theorem class_upNode (node : Node) : (k.upNode node).class = node.class := by
  cases node with
  | atom leaf => cases leaf <;> rfl
  | _ => rfl

/-- The heap `k` with the objects of `h` on top. -/
def under (h : Heap) : Heap :=
  { objects := k.objects ++ h.objects.map fun object =>
      { object with node := k.upNode object.node }
    items := k.items + h.items }

variable {k}

theorem node?_under (h : Heap) (r : Ref) :
    (k.under h).node? (k.up r) = (h.node? r).map k.upNode := by
  simp only [node?, under, up, size]
  rw [List.getElem?_append_right (Nat.le_add_right _ _), Nat.add_sub_cancel_left, List.getElem?_map]
  cases h.objects[r]? <;> rfl

theorem new_under (h : Heap) (node : Node) :
    (k.under h).new (k.upNode node) = (k.up (h.new node).1, k.under (h.new node).2) := by
  simp [new, under, up, size]

theorem setNode_under (h : Heap) (r : Ref) (node : Node) :
    (k.under h).setNode (k.up r) (k.upNode node) = k.under (h.setNode r node) := by
  have objects : ((k.under h).setNode (k.up r) (k.upNode node)).objects =
      (k.under (h.setNode r node)).objects := by
    apply List.ext_getElem?
    intro index
    simp only [setNode, under, up, size, List.getElem?_modify]
    by_cases old : index < k.objects.length
    · have other : k.objects.length + r ≠ index := by omega
      rw [List.getElem?_append_left old, List.getElem?_append_left old]
      cases k.objects[index]? <;> simp [other]
    · have new := Nat.not_lt.mp old
      rw [List.getElem?_append_right new, List.getElem?_append_right new, List.getElem?_map,
        List.getElem?_map, List.getElem?_modify]
      have same : ∀ place : Nat, k.objects.length + place = index ↔
          place = index - k.objects.length := fun place => by omega
      simp only [same]
      cases h.objects[index - k.objects.length]? with
      | none => rfl
      | some object => by_cases here : r = index - k.objects.length <;> simp [here]
  exact congrArg (fun objects => Heap.mk objects (k.items + h.items)) objects

theorem content?_under (h : Heap) (r : Ref) :
    (k.under h).content? (k.up r) = (h.content? r).map (List.map k.up) := by
  rw [content?, content?, node?_under]
  cases h.node? r with
  | none => rfl
  | some node => cases node <;> rfl

theorem isEmpty_under (h : Heap) (r : Ref) : (k.under h).isEmpty (k.up r) = h.isEmpty r := by
  rw [isEmpty, isEmpty, node?_under]
  cases h.node? r with
  | none => rfl
  | some node =>
      cases node with
      | atom leaf => cases leaf <;> rfl
      | _ => rfl

end Heap

section Ranges

variable (more : Nat)

theorem rangeScan_moved (itemb : RegexRangeItem) (index : Nat) (ranges : List RegexRangeItem) :
    rangeScan (itemb.moved more) index (ranges.map (RegexRangeItem.moved more)) =
      rangeScan itemb index ranges := by
  induction ranges generalizing index with
  | nil => rfl
  | cons itema ranges induction =>
      simp only [List.map_cons, rangeScan, RegexRangeItem.within_moved, induction]
      rfl

theorem newItem_moved (items cmin cmax : Nat) :
    newItem (more + items) cmin cmax =
      (newItem items cmin cmax).map fun (item, items) => (item.moved more, more + items) := by
  unfold newItem
  split <;> rfl

theorem rangeAddLoop_moved (fuel : Nat) (ranges : List RegexRangeItem) (itemb : RegexRangeItem)
    (items : Nat) :
    rangeAddLoop fuel (ranges.map (RegexRangeItem.moved more)) (itemb.moved more) (more + items) =
      (rangeAddLoop fuel ranges itemb items).map fun (ranges, items) =>
        (ranges.map (RegexRangeItem.moved more), more + items) := by
  induction fuel generalizing ranges itemb items with
  | zero => simp [rangeAddLoop]
  | succ fuel induction =>
      rw [rangeAddLoop, rangeAddLoop, rangeScan_moved]
      cases rangeScan itemb 0 ranges with
      | none => simp
      | some step =>
          cases step with
          | known => rfl
          | absorbs index =>
              simp only [List.eraseIdx_map]
              exact induction _ _ _
          | joins index cmin cmax =>
              simp only [newItem_moved]
              cases newItem items cmin cmax with
              | none => rfl
              | some new =>
                  simp only [List.eraseIdx_map]
                  exact induction _ _ _

theorem rangeAddAll_moved (ranges more' : List RegexRangeItem) (items : Nat) :
    rangeAddAll (ranges.map (RegexRangeItem.moved more))
        (more'.map (RegexRangeItem.moved more)) (more + items) =
      (rangeAddAll ranges more' items).map fun (ranges, items) =>
        (ranges.map (RegexRangeItem.moved more), more + items) := by
  induction more' generalizing ranges items with
  | nil => rfl
  | cons item rest induction =>
      simp only [List.map_cons, rangeAddAll, rangeAdd, List.length_map, rangeAddLoop_moved]
      cases rangeAddLoop ranges.length ranges item items with
      | none => rfl
      | some added => exact induction _ _

end Ranges

/-! Heaps that keep a property. -/

/-- Items that the counter has passed, or that a range lists. -/
def Heap.Knows (h : Heap) (item : RegexRangeItem) : Prop :=
  item.identity < h.items ∨ ∃ r container ranges exclude,
    h.node? r = some (.atom (.regexRange container ranges exclude)) ∧ item ∈ ranges

theorem Heap.Knows.items {h : Heap} {item : RegexRangeItem} (known : h.Knows item) {items : Nat}
    (grows : h.items ≤ items) : ({ h with items := items } : Heap).Knows item :=
  known.imp (fun passed => Nat.lt_of_lt_of_le passed grows) id

/-- What the operators leave, apart from RegexRepeat. -/
structure Preserved (held : Heap → Prop) : Prop where
  new : ∀ {h : Heap} {node : Node}, held h →
    node.class ≠ .regexRepeat ∧ node.class ≠ .regexRange → held (h.new node).2
  content : ∀ {h : Heap} (ref : Ref) (content : List Ref), held h →
    held (h.setNode ref (.regexAnd content))
  items : ∀ {h : Heap} {items : Nat}, held h → h.items ≤ items → held { h with items := items }
  range : ∀ {h : Heap} {ranges branges added listed : List RegexRangeItem} {items : Nat}
    {container : Container} {exclude : Bool}, held h → (∀ item ∈ ranges ++ branges, h.Knows item) →
    rangeAddAll ranges branges h.items = some (added, items) → (∀ item ∈ listed, item ∈ added) →
    held (({ h with items := items } : Heap).new (.atom (.regexRange container listed exclude))).2

theorem node?_new_cases {h : Heap} {node : Node} {r : Ref} {other : Node}
    (here : (h.new node).2.node? r = some other) : h.node? r = some other ∨ other = node := by
  by_cases old : r < h.size
  · left
    rw [← here, Heap.node?, Heap.node?, (h.new_extends node).same r old id]
  · right
    have bound := Heap.node?_lt here
    rw [Heap.new_size] at bound
    have last : r = h.size := Nat.le_antisymm (Nat.le_of_lt_succ bound) (Nat.not_lt.mp old)
    subst last
    exact Option.some.inj (here.symm.trans (h.new_node? node))

/-! The items of all ranges are those that the counter has passed. -/

def Heap.Numbered (h : Heap) : Prop :=
  ∀ r container ranges exclude, h.node? r = some (.atom (.regexRange container ranges exclude)) →
    ∀ item ∈ ranges, item.identity < h.items

section Numbered

variable {ranges branges added : List RegexRangeItem} {itemb : RegexRangeItem} {items items' : Nat}

theorem appended_numbered (known : ∀ item ∈ ranges, item.identity < items)
    (knownB : itemb.identity < items) : ∀ item ∈ ranges ++ [itemb], item.identity < items := by
  intro item member
  obtain old | new := List.mem_append.mp member
  · exact known item old
  · exact List.mem_singleton.mp new ▸ knownB

theorem rangeAddLoop_numbered {fuel : Nat} (known : ∀ item ∈ ranges, item.identity < items)
    (knownB : itemb.identity < items)
    (returns : rangeAddLoop fuel ranges itemb items = some (added, items')) :
    items ≤ items' ∧ ∀ item ∈ added, item.identity < items' := by
  induction fuel generalizing ranges itemb items with
  | zero =>
      cases returns
      exact ⟨Nat.le_refl _, appended_numbered known knownB⟩
  | succ fuel induction =>
      have erased : ∀ index, ∀ item ∈ ranges.eraseIdx index, item.identity < items :=
        fun index item member => known item (List.mem_of_mem_eraseIdx member)
      rw [rangeAddLoop] at returns
      split at returns
      · cases returns
        exact ⟨Nat.le_refl _, appended_numbered known knownB⟩
      · cases returns
        exact ⟨Nat.le_refl _, known⟩
      · exact induction (erased _) knownB returns
      · obtain ⟨⟨new, next⟩, made, returns⟩ := Option.bind_eq_some_iff.mp returns
        unfold newItem at made
        split_ifs at made
        cases made
        obtain ⟨grows, all⟩ := induction
          (fun item member => Nat.lt_succ_of_lt (erased _ item member))
          (Nat.lt_succ_self items) returns
        exact ⟨Nat.le_of_succ_le grows, all⟩

theorem rangeAddAll_numbered (known : ∀ item ∈ ranges ++ branges, item.identity < items)
    (returns : rangeAddAll ranges branges items = some (added, items')) :
    items ≤ items' ∧ ∀ item ∈ added, item.identity < items' := by
  induction branges generalizing ranges items with
  | nil =>
      cases returns
      exact ⟨Nat.le_refl _, fun item member => known item (List.mem_append_left _ member)⟩
  | cons item rest induction =>
      obtain ⟨⟨once, middle⟩, first, returns⟩ := Option.bind_eq_some_iff.mp returns
      obtain ⟨grows, knownOnce⟩ := rangeAddLoop_numbered
        (fun item member => known item (List.mem_append_left _ member)) (known item (by simp)) first
      have knownRest : ∀ other ∈ once ++ rest, other.identity < middle := by
        intro other member
        obtain old | new := List.mem_append.mp member
        · exact knownOnce other old
        · exact Nat.lt_of_lt_of_le (known other (by simp [new])) grows
      obtain ⟨more, knownAll⟩ := induction knownRest returns
      exact ⟨grows.trans more, knownAll⟩

theorem Heap.Numbered.known {h : Heap} (numbered : h.Numbered) {item : RegexRangeItem}
    (known : h.Knows item) : item.identity < h.items := by
  obtain passed | ⟨r, container, ranges, exclude, here, member⟩ := known
  · exact passed
  · exact numbered r container ranges exclude here item member

theorem Heap.Numbered.new {h : Heap} (numbered : h.Numbered) {node : Node}
    (known : ∀ container ranges exclude, node = .atom (.regexRange container ranges exclude) →
      ∀ item ∈ ranges, item.identity < h.items) : (h.new node).2.Numbered := by
  intro r container ranges exclude here
  obtain old | rfl := node?_new_cases here
  · exact numbered r container ranges exclude old
  · exact known container ranges exclude rfl

theorem preserved_numbered : Preserved Heap.Numbered where
  new numbered plain := numbered.new fun _ _ _ same => by
    subst same
    exact absurd rfl plain.2
  content := by
    intro h ref content numbered r container ranges exclude here
    by_cases same : r = ref
    · subst same
      have bound := Heap.node?_lt here
      rw [Heap.setNode_size] at bound
      rw [Heap.setNode_node? bound] at here
      cases here
    · refine numbered r container ranges exclude ?_
      rw [← here, Heap.node?, Heap.node?, (h.setNode_keeps ref _).same r ?_ same]
      have bound := Heap.node?_lt here
      rwa [Heap.setNode_size] at bound
  items numbered grows r container ranges exclude here item member :=
    Nat.lt_of_lt_of_le (numbered r container ranges exclude here item member) grows
  range := by
    intro h ranges branges added listed items container exclude numbered known returns inside
    obtain ⟨grows, all⟩ := rangeAddAll_numbered
      (fun item member => numbered.known (known item member)) returns
    have counted : ({ h with items := items } : Heap).Numbered :=
      fun r container ranges exclude here item member =>
        Nat.lt_of_lt_of_le (numbered r container ranges exclude here item member) grows
    refine counted.new fun _ _ _ same item member => ?_
    cases same
    exact all item (inside item member)

/-- A property that is asked for only under a condition. -/
theorem Preserved.under {held : Heap → Prop} (closed : Preserved held) (asked : Prop) :
    Preserved fun h => asked → held h where
  new here plain := fun asked => closed.new (here asked) plain
  content ref content here := fun asked => closed.content ref content (here asked)
  items here grows := fun asked => closed.items (here asked) grows
  range here known returns inside := fun asked => closed.range (here asked) known returns inside

end Numbered

/-! What follows in the heap on top. -/

/-- `h'` is `h` on top of `k`, and `h` is as expected. -/
structure Onto (k : Heap) (held : Heap → Prop) (h h' : Heap) : Prop where
  same : h' = k.under h
  held : held h

section Onto

variable {k : Heap} {held : Heap → Prop}

theorem onto_under {h : Heap} (here : held h) : Onto k held h (k.under h) :=
  ⟨rfl, here⟩

theorem follows_new {node moved : Node} (kept : ∀ h, held h → held (h.new node).2)
    (same : k.upNode node = moved) :
    Follows (Onto k held) k.up (fun h => some (h.new node)) fun h => some (h.new moved) := by
  subst same
  intro h h' onto value h1 ran
  cases ran
  refine ⟨_, congrArg some (onto.same ▸ Heap.new_under h node), rfl, kept h onto.held⟩

theorem follows_plain (closed : Preserved held) {node moved : Node}
    (plain : node.class ≠ .regexRepeat ∧ node.class ≠ .regexRange) (same : k.upNode node = moved) :
    Follows (Onto k held) k.up (fun h => some (h.new node)) fun h => some (h.new moved) :=
  follows_new (fun _ here => closed.new here plain) same

theorem Onto.node? {h h' : Heap} (onto : Onto k held h h') {r : Ref} {node : Node}
    (here : h.node? r = some node) : h'.node? (k.up r) = some (k.upNode node) := by
  rw [onto.same, Heap.node?_under, here]
  rfl

theorem Onto.isEmpty {h h' : Heap} (onto : Onto k held h h') (r : Ref) :
    h'.isEmpty (k.up r) = h.isEmpty r := by
  rw [onto.same, Heap.isEmpty_under]

theorem Onto.content? {h h' : Heap} (onto : Onto k held h h') {r : Ref} {content : List Ref}
    (here : h.content? r = some content) : h'.content? (k.up r) = some (content.map k.up) := by
  rw [onto.same, Heap.content?_under, here]
  rfl

theorem Onto.items {h h' : Heap} (onto : Onto k held h h') (closed : Preserved held) {items : Nat}
    (grows : h.items ≤ items) :
    Onto k held { h with items := items } { h' with items := k.items + items } := by
  obtain ⟨rfl, here⟩ := onto
  exact ⟨rfl, closed.items here grows⟩

end Onto

end Segvault.HachoirRegex
