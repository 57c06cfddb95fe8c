import Segvault.HachoirRegex.ParseRuns

namespace Segvault.HachoirRegex

open Logged

/-! A regex over another heap. -/

namespace Tree

mutual

def moved (k : Heap) : Tree → Tree
  | atom ref leaf => atom (k.up ref) (leaf.moved k.items)
  | regexAnd ref init last => regexAnd (k.up ref) (movedAll k init) (moved k last)
  | regexOr ref content => regexOr (k.up ref) (movedAll k content)
  | regexRepeat ref regex min max => regexRepeat (k.up ref) (moved k regex) min max

def movedAll (k : Heap) : List Tree → List Tree
  | [] => []
  | item :: items => moved k item :: movedAll k items

end

theorem movedAll_eq (k : Heap) (items : List Tree) : movedAll k items = items.map (moved k) := by
  induction items with
  | nil => rfl
  | cons item items induction => rw [movedAll, induction, List.map_cons]

theorem ref_moved (k : Heap) (t : Tree) : (t.moved k).ref = k.up t.ref := by
  cases t <;> rfl

theorem refs_movedAll (k : Heap) (items : List Tree) :
    (movedAll k items).map ref = (items.map ref).map k.up := by
  rw [movedAll_eq, List.map_map, List.map_map]
  exact List.map_congr_left fun item _ => ref_moved k item

theorem Rep.under {k h : Heap} {t : Tree} (rep : t.Rep h) : (t.moved k).Rep (k.under h) := by
  have moved : ∀ {ref : Ref} {node : Node}, h.node? ref = some node →
      (k.under h).node? (k.up ref) = some (k.upNode node) := by
    intro ref node here
    rw [Heap.node?_under, here]
    rfl
  have movedAll : ∀ items : List Tree, (∀ item ∈ items, (item.moved k).Rep (k.under h)) →
      RepAll (k.under h) (movedAll k items) := by
    intro items each
    rw [movedAll_eq, repAll_iff]
    intro item member
    obtain ⟨before, inside, rfl⟩ := List.mem_map.mp member
    exact each before inside
  induction t with
  | atom ref leaf => exact moved rep
  | regexAnd ref init last inductionInit inductionLast =>
      obtain ⟨here, repInit, repLast⟩ := rep
      refine ⟨?_, movedAll init fun item member =>
        inductionInit item member (repAll_iff.mp repInit item member), inductionLast repLast⟩
      rw [refs_movedAll, ref_moved]
      exact (moved here).trans (by simp [Heap.upNode])
  | regexOr ref content inductionContent =>
      obtain ⟨here, repContent⟩ := rep
      refine ⟨?_, movedAll content fun item member =>
        inductionContent item member (repAll_iff.mp repContent item member)⟩
      rw [refs_movedAll]
      exact moved here
  | regexRepeat ref regex min max induction =>
      obtain ⟨here, repRegex⟩ := rep
      refine ⟨?_, induction repRegex⟩
      rw [ref_moved]
      exact moved here

/-! The items of the ranges in a regex, which `==` compares by their identities. -/

def leafItems : Atom → List RegexRangeItem
  | .regexRange _ ranges _ => ranges
  | _ => []

mutual

def rangeItems : Tree → List RegexRangeItem
  | atom _ leaf => leafItems leaf
  | regexAnd _ init last => rangeItemsAll init ++ rangeItems last
  | regexOr _ content => rangeItemsAll content
  | regexRepeat _ regex _ _ => rangeItems regex

def rangeItemsAll : List Tree → List RegexRangeItem
  | [] => []
  | item :: items => rangeItems item ++ rangeItemsAll items

end

theorem mem_rangeItemsAll {items : List Tree} {item : RegexRangeItem} :
    item ∈ rangeItemsAll items ↔ ∃ t ∈ items, item ∈ t.rangeItems := by
  induction items with
  | nil => simp [rangeItemsAll]
  | cons t items induction => simp [rangeItemsAll, induction]

theorem rangeItemsAll_eq_nil {items : List Tree} :
    rangeItemsAll items = [] ↔ ∀ t ∈ items, t.rangeItems = [] := by
  induction items with
  | nil => simp [rangeItemsAll]
  | cons t items induction => simp [rangeItemsAll, induction]

theorem leafItems_moved (items : Nat) (leaf : Atom) :
    leafItems (leaf.moved items) = (leafItems leaf).map (RegexRangeItem.moved items) := by
  cases leaf <;> rfl

theorem rangeItems_moved (k : Heap) (t : Tree) :
    (t.moved k).rangeItems = t.rangeItems.map (RegexRangeItem.moved k.items) := by
  have all : ∀ content : List Tree,
      (∀ t ∈ content, (t.moved k).rangeItems = t.rangeItems.map (RegexRangeItem.moved k.items)) →
      rangeItemsAll (movedAll k content) =
        (rangeItemsAll content).map (RegexRangeItem.moved k.items) := by
    intro content each
    induction content with
    | nil => rfl
    | cons t content induction =>
        rw [movedAll, rangeItemsAll, rangeItemsAll, List.map_append, each t List.mem_cons_self,
          induction fun t member => each t (List.mem_cons_of_mem _ member)]
  induction t with
  | atom ref leaf => exact leafItems_moved k.items leaf
  | regexAnd ref init last inductionInit inductionLast =>
      rw [moved, rangeItems, rangeItems, all init inductionInit, inductionLast, List.map_append]
  | regexOr ref content inductionContent => exact all content inductionContent
  | regexRepeat ref regex min max induction => exact induction

theorem leaf_moved_iff (first second : Nat) (leaf : Atom) :
    leaf.moved first = leaf.moved second ↔ first = second ∨ leafItems leaf = [] := by
  cases leaf with
  | regexRange container ranges exclude =>
      cases ranges with
      | nil => simp [Atom.moved, leafItems]
      | cons item ranges =>
          constructor
          · intro same
            simp only [Atom.moved, List.map_cons, Atom.regexRange.injEq, List.cons.injEq,
              RegexRangeItem.moved, RegexRangeItem.mk.injEq] at same
            exact .inl (Nat.add_right_cancel same.2.1.1.1)
          · rintro (rfl | none)
            · rfl
            · cases none
  | _ => simp [Atom.moved, leafItems]

/-- A regex over two heaps, compared with itself. -/
theorem bare_moved_iff (h k : Heap) (t : Tree) :
    (t.moved h).bare = (t.moved k).bare ↔ h.items = k.items ∨ t.rangeItems = [] := by
  have all : ∀ content : List Tree, (∀ t ∈ content,
        ((t.moved h).bare = (t.moved k).bare ↔ h.items = k.items ∨ t.rangeItems = [])) →
      (bareAll (movedAll h content) = bareAll (movedAll k content) ↔
        h.items = k.items ∨ rangeItemsAll content = []) := by
    intro content each
    rw [bareAll_eq, bareAll_eq, movedAll_eq, movedAll_eq, List.map_map, List.map_map,
      List.map_inj_left, rangeItemsAll_eq_nil]
    by_cases same : h.items = k.items
    · exact iff_of_true (fun t member => (each t member).mpr (.inl same)) (.inl same)
    · rw [or_iff_right same]
      exact forall₂_congr fun t member => (each t member).trans (or_iff_right same)
  induction t with
  | atom ref leaf =>
      rw [moved, moved, bare, bare, atom.injEq, eq_self, true_and]
      exact leaf_moved_iff h.items k.items leaf
  | regexAnd ref init last inductionInit inductionLast =>
      rw [moved, moved, bare, bare, regexAnd.injEq, eq_self, true_and, rangeItems,
        List.append_eq_nil_iff, or_and_left]
      exact and_congr (all init inductionInit) inductionLast
  | regexOr ref content inductionContent =>
      rw [moved, moved, bare, bare, regexOr.injEq, eq_self, true_and]
      exact all content inductionContent
  | regexRepeat ref regex min max induction =>
      rw [moved, moved, bare, bare, regexRepeat.injEq, eq_self, true_and, eq_self, eq_self,
        and_true, and_true]
      exact induction

theorem Rep.numbered {h : Heap} {t : Tree} (rep : t.Rep h) (numbered : h.Numbered) :
    ∀ item ∈ t.rangeItems, item.identity < h.items := by
  have all : ∀ content : List Tree,
      (∀ t ∈ content, ∀ item ∈ t.rangeItems, item.identity < h.items) →
      ∀ item ∈ rangeItemsAll content, item.identity < h.items := by
    intro content each item member
    obtain ⟨t, inside, member⟩ := mem_rangeItemsAll.mp member
    exact each t inside item member
  induction t with
  | atom ref leaf =>
      intro item member
      cases leaf with
      | regexRange container ranges exclude =>
          exact numbered ref container ranges exclude rep item member
      | _ => cases member
  | regexAnd ref init last inductionInit inductionLast =>
      obtain ⟨_, repInit, repLast⟩ := rep
      intro item member
      obtain inInit | inLast := List.mem_append.mp member
      · exact all init (fun t inside => inductionInit t inside
          (repAll_iff.mp repInit t inside)) item inInit
      · exact inductionLast repLast item inLast
  | regexOr ref content inductionContent =>
      exact all content fun t inside => inductionContent t inside (repAll_iff.mp rep.2 t inside)
  | regexRepeat ref regex min max induction => exact induction rep.2

end Tree

theorem under_extends (k h : Heap) : k.Extends (k.under h) := by
  refine ⟨?_, fun r bound _ => List.getElem?_append_left bound⟩
  rw [Heap.size, Heap.size, Heap.under, List.length_append]
  exact Nat.le_add_right _ _

/-! Two calls of the parser. -/

/-- `parse(text)` returns a regex in a new process. -/
def Accepts (text : List UInt8) : Prop :=
  ∃ ref h, Gives (fun fuel => parse fuel text) Heap.empty ref h

/-- An accepted text gives the same objects over every heap. -/
theorem Accepts.everywhere {text : List UInt8} (accepts : Accepts text) :
    ∃ (t : Tree) (n : Heap), t.Rep n ∧ n.Numbered ∧
      ∀ k, Gives (fun fuel => parse fuel text) k (k.up t.ref) (k.under n) := by
  obtain ⟨ref, n, gives⟩ := accepts
  obtain ⟨_, t, rfl, grown⟩ := Meets.ofGives (parse_meets text Heap.empty) gives
  obtain ⟨log, least, gives⟩ := gives
  have empty : Heap.empty.Numbered := by
    intro r container ranges exclude here
    cases Heap.node?_lt here
  have same : ∀ k fuel, least ≤ fuel → (parse fuel text k).1 = .ok (k.up t.ref) ∧
      Over True k n (parse fuel text k).2.1 ∧ (parse fuel text k).2.2 = log := by
    intro k fuel enough
    have start : Over True k Heap.empty k := ⟨by simp [Heap.under, Heap.empty], fun _ => empty⟩
    have follows := parse_over text enough Heap.empty k start
    have ran : parse least text Heap.empty = (.ok t.ref, n, log) := gives least (Nat.le_refl _)
    unfold FollowsLoggedAt at follows
    rw [ran] at follows
    exact follows fun wrong => by cases wrong
  refine ⟨t, n, grown.rep t List.mem_cons_self,
    (same n least (Nat.le_refl _)).2.1.held trivial, fun k => ⟨log, least, fun fuel enough => ?_⟩⟩
  obtain ⟨outcome, heap, logged⟩ := same k fuel enough
  exact Prod.ext outcome (Prod.ext heap.same logged)

/-- Two regexes that are equal denote the same language. -/
def EqualitySound : Prop :=
  ∀ (h : Heap) (a b : Tree), a.Rep h → b.Rep h →
    Returns (fun fuel => dunderEq fuel a.ref b.ref h) true →
      ∀ dot text, a.denote dot text = b.denote dot text

theorem dunderEq_sound : EqualitySound := by
  intro h a b repa repb equal
  obtain ⟨same, returns, iff⟩ := Tree.dunderEq_returns repa repb
  exact Tree.denote_of_bare (iff.mp (returns.unique equal))

/-- The regexes of two calls `parse(text)`, the second one in any later heap, are equal just
when the first one has no RegexRange with an item. -/
theorem parse_equal_iff {text : List UInt8} (accepts : Accepts text) {h k : Heap}
    {first second : Ref} {h1 k1 : Heap}
    (call : Gives (fun fuel => parse fuel text) h first h1)
    (later : h1.Extends k) (counted : h1.items ≤ k.items)
    (callAgain : Gives (fun fuel => parse fuel text) k second k1) :
    ∃ (t : Tree) (same : Bool), t.ref = first ∧ t.Rep h1 ∧
      Returns (fun fuel => dunderEq fuel first second k1) same ∧
        ((same = true ∧ EqualitySound) ↔ t.rangeItems = []) := by
  obtain ⟨t, n, rep, numbered, gives⟩ := accepts.everywhere
  obtain ⟨rfl, rfl⟩ := (gives h).unique call
  obtain ⟨rfl, rfl⟩ := (gives k).unique callAgain
  have repFirst : (t.moved h).Rep (h.under n) := rep.under
  obtain ⟨same, returns, iff⟩ := Tree.dunderEq_returns
    ((repFirst.extends later).extends (under_extends k n)) (rep.under : (t.moved k).Rep (k.under n))
  rw [t.ref_moved, t.ref_moved] at returns
  rw [t.bare_moved_iff] at iff
  refine ⟨t.moved h, same, t.ref_moved h, repFirst, returns, ?_⟩
  rw [iff, t.rangeItems_moved, List.map_eq_nil_iff]
  constructor
  · rintro ⟨same | none, _⟩
    · refine List.eq_nil_iff_forall_not_mem.mpr fun item member => ?_
      have known := rep.numbered numbered item member
      have counted : h.items + n.items ≤ k.items := counted
      omega
    · exact none
  · exact fun none => ⟨.inr none, dunderEq_sound⟩

theorem parse_equal_iff_character :
    ∃ first h1 second k1 same, Gives (fun fuel => parse fuel [97]) Heap.empty first h1 ∧
      Gives (fun fuel => parse fuel [97]) h1 second k1 ∧
      Returns (fun fuel => dunderEq fuel first second k1) same ∧ same = true := by
  have call : Gives (fun fuel => parse fuel [97]) Heap.empty 1 _ :=
    @Steady.gives _ _ _ _ _ (parse_steady [97]) _ _ 5 _ _ rfl
  have callAgain : Gives (fun fuel => parse fuel [97]) (parse 5 [97] Heap.empty).2.1 3 _ :=
    @Steady.gives _ _ _ _ _ (parse_steady [97]) _ _ 5 _ _ rfl
  obtain ⟨t, same, root, rep, returns, iff⟩ := parse_equal_iff ⟨_, _, call⟩ call
    (Heap.KeepsBut.refl _ _) (Nat.le_refl _) callAgain
  refine ⟨_, _, _, _, same, call, callAgain, returns, (iff.mpr ?_).1⟩
  have here := rep.here
  rw [root] at here
  cases t with
  | atom ref leaf =>
      cases here
      rfl
  | _ => cases here

/-- The text `[ab]`: the items of the two ranges are other objects. -/
theorem parse_equal_fails :
    ∃ first h1 second k1, Gives (fun fuel => parse fuel [91, 97, 98, 93]) Heap.empty first h1 ∧
      Gives (fun fuel => parse fuel [91, 97, 98, 93]) h1 second k1 ∧
      Returns (fun fuel => dunderEq fuel first second k1) false := by
  refine ⟨1, _, 3, _, @Steady.gives _ _ _ _ _ (parse_steady _) _ _ 6 _ _ rfl,
    @Steady.gives _ _ _ _ _ (parse_steady _) _ _ 6 _ _ rfl, ?_⟩
  exact Returns.call (fun fuel => rfl) (Returns.pure false)

end Segvault.HachoirRegex
