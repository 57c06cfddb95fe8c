import Mathlib.Data.List.ReduceOption
import Segvault.HachoirRegex.OntoParser

namespace Segvault.HachoirRegex

/-! The objects that the parser makes, apart from a RegexRepeat of None. -/

def Regular : Node → Prop
  | .atom (.regexRepeatNone _ _) => False
  | .regexRepeat _ min max => Accepted min max
  | _ => True

theorem regular_of_class (node : Node) (other : node.class ≠ .regexRepeat) : Regular node := by
  cases node with
  | atom leaf =>
      cases leaf with
      | regexRepeatNone min max => exact absurd rfl other
      | _ => trivial
  | regexRepeat regex min max => exact absurd rfl other
  | _ => trivial

/-- The objects from `base` on are regular. -/
def Heap.RegularFrom (h : Heap) (base : Ref) : Prop :=
  ∀ r node, base ≤ r → h.node? r = some node → Regular node

theorem Heap.RegularFrom.new {h : Heap} {base : Ref} (regular : h.RegularFrom base) {node : Node}
    (expected : Regular node) : (h.new node).2.RegularFrom base := by
  intro r other late here
  obtain old | rfl := node?_new_cases here
  · exact regular r other late old
  · exact expected

theorem preserved_regular (base : Ref) : Preserved fun h => h.RegularFrom base where
  new regular plain := regular.new (regular_of_class _ plain.1)
  content := by
    intro h ref content regular r node late here
    have bound := Heap.node?_lt here
    rw [Heap.setNode_size] at bound
    by_cases same : r = ref
    · subst same
      rw [Heap.setNode_node? bound] at here
      cases here
      trivial
    · refine regular r node late ?_
      rw [← here, Heap.node?, Heap.node?, (h.setNode_keeps ref _).same r bound same]
  items regular _ := regular
  range regular _ _ _ := Heap.RegularFrom.new regular trivial

section Operators

variable {h h' : Heap} {base self other ref : Ref} (regular : h.RegularFrom base)
include regular

theorem dunderAnd_regular
    (returns : Returns (fun fuel => dunderAnd fuel self other h) (ref, h')) :
    h'.RegularFrom base := by
  obtain ⟨least, returns⟩ := returns
  obtain ⟨_, _, onto⟩ := (dunderAnd_follows (preserved_regular base)
    (Nat.le_refl least) self other).run
    (onto_under (k := ⟨[], 0⟩) regular) (returns least (Nat.le_refl _))
  exact onto.held

theorem dunderOr_regular
    (returns : Returns (fun fuel => dunderOr fuel self other h) (ref, h')) :
    h'.RegularFrom base := by
  obtain ⟨least, returns⟩ := returns
  obtain ⟨_, _, onto⟩ := ((or_follows (preserved_regular base) least (Nat.le_refl least)).dunder
    self other).run (onto_under (k := ⟨[], 0⟩) regular) (returns least (Nat.le_refl _))
  exact onto.held

end Operators

/-! Steps that make regexes out of others. -/

open Tree

/-- `h'` has the regexes `wholes`, made of `parts` and of new objects. -/
structure Grown (h : Heap) (parts wholes : List Tree) (h' : Heap) : Prop where
  grown : h.Extends h'
  rep : ∀ whole ∈ wholes, whole.Rep h'
  tidy : ∀ whole ∈ wholes, whole.Tidy
  count : ∀ r, (refsAll wholes).count r ≤ (refsAll parts).count r + between h.size h'.size r

namespace Grown

theorem refl {h : Heap} {parts : List Tree} (reps : ∀ part ∈ parts, part.Rep h)
    (tidy : ∀ part ∈ parts, part.Tidy) : Grown h parts parts h where
  grown := Heap.KeepsBut.refl _ h
  rep := reps
  tidy := tidy
  count _ := Nat.le_add_right _ _

theorem trans {h h1 h2 : Heap} {parts middle wholes : List Tree} (first : Grown h parts middle h1)
    (second : Grown h1 middle wholes h2) : Grown h parts wholes h2 where
  grown := first.grown.trans second.grown
  rep := second.rep
  tidy := second.tidy
  count r := by
    have less := first.count r
    have more := second.count r
    have whole := between_add first.grown.grows second.grown.grows r
    omega

/-- Two steps, one after the other, that make regexes of different parts. -/
theorem both {h h1 h2 : Heap} {parts wholes others ends : List Tree}
    (first : Grown h parts wholes h1) (second : Grown h1 others ends h2) :
    Grown h (parts ++ others) (wholes ++ ends) h2 where
  grown := first.grown.trans second.grown
  rep whole member := by
    obtain old | new := List.mem_append.mp member
    · exact (first.rep whole old).extends second.grown
    · exact second.rep whole new
  tidy whole member := by
    obtain old | new := List.mem_append.mp member
    · exact first.tidy whole old
    · exact second.tidy whole new
  count r := by
    have less := first.count r
    have more := second.count r
    have whole := between_add first.grown.grows second.grown.grows r
    simp only [refsAll_append, List.count_append]
    omega

end Grown

/-- `RegexRepeat(regex, min, max)` with optimize=False. -/
def repeatTree (next : Ref) (regex : Option Tree) (min : Nat) (max : Option Nat) : Tree :=
  match regex with
  | some regex => .regexRepeat next regex min max
  | none => .atom next (.regexRepeatNone min max)

theorem newRepeat_grown {h : Heap} {regex : Option Tree} (reps : ∀ t ∈ regex.toList, t.Rep h)
    (tidy : ∀ t ∈ regex.toList, t.Tidy) (min : Nat) (max : Option Nat) :
    (newRepeat (regex.map ref) min max h).1 = (repeatTree h.size regex min max).ref ∧
      Grown h regex.toList [repeatTree h.size regex min max]
        (newRepeat (regex.map ref) min max h).2 := by
  cases regex with
  | none =>
      refine ⟨rfl, h.new_extends _, fun whole member => ?_, fun whole member => ?_, fun r => ?_⟩
      · exact List.mem_singleton.mp member ▸ h.new_node? _
      · exact List.mem_singleton.mp member ▸ everywhere_atom trivial
      · have one := count_next h.size r
        change List.count r [h.size] ≤ _ + between h.size (h.new _).2.size r
        rw [Heap.new_size]
        omega
  | some regex =>
      have here := reps regex (by simp)
      refine ⟨rfl, h.new_extends _, fun whole member => ?_, fun whole member => ?_, fun r => ?_⟩
      · exact List.mem_singleton.mp member ▸ (newRepeat_rep here min max).2
      · refine List.mem_singleton.mp member ▸ everywhere_iff.mpr ⟨trivial, fun item inside => ?_⟩
        exact List.mem_singleton.mp inside ▸ tidy regex (by simp)
      · have one := count_cons_next h.size r regex.refs
        change ((h.size :: regex.refs) ++ []).count r ≤
          (regex.refs ++ []).count r + between h.size (h.new _).2.size r
        rw [Heap.new_size, List.append_nil, List.append_nil]
        exact one

/-- The texts of the exceptions of RegexRepeat. -/
inductive Unfit : String → Prop
  | minimum (rmin max : Nat) : Unfit ("RegexRepeat: minimum (" ++ toString rmin ++
      ") is bigger than maximum (" ++ toString max ++ ")!")
  | invalid (rmin max : Nat) : Unfit ("RegexRepeat: invalid values (min=" ++ toString rmin ++
      ", max=" ++ toString max ++ ")!")
  | operand : Unfit "unsupported operand type(s) for |"
  | attribute : Unfit "'NoneType' object has no attribute '_match'"

/-- The outcome of a step of RegexRepeat. -/
inductive Ended {α : Type} (post : α → Heap → Prop) : Except String (α × Heap) → Prop
  | raised {text : String} (unfit : Unfit text) : Ended post (.error text)
  | made {new : α} {h' : Heap} (here : post new h') : Ended post (.ok (new, h'))

theorem Ended.imp {α : Type} {post weaker : α → Heap → Prop}
    {outcome : Except String (α × Heap)} (ended : Ended post outcome)
    (later : ∀ new h', post new h' → weaker new h') : Ended weaker outcome := by
  cases ended with
  | raised unfit => exact .raised unfit
  | made here => exact .made (later _ _ here)

theorem plainRepeat_made {h : Heap} {regex : Option Tree} (reps : ∀ t ∈ regex.toList, t.Rep h)
    (tidy : ∀ t ∈ regex.toList, t.Tidy) (low : Nat) (high : Option Nat) :
    Ended (fun new h' => ∃ whole : Tree, new = whole.ref ∧ Grown h regex.toList [whole] h' ∧
      (regex.isSome → ∀ base, h.RegularFrom base → h'.RegularFrom base))
      (plainRepeat (regex.map ref) low high h) := by
  have built : Accepted low high → Ended (fun new h' => ∃ whole : Tree, new = whole.ref ∧
      Grown h regex.toList [whole] h' ∧
      (regex.isSome → ∀ base, h.RegularFrom base → h'.RegularFrom base))
      (.ok (newRepeat (regex.map ref) low high h)) := by
    intro accepted
    obtain ⟨same, grown⟩ := newRepeat_grown reps tidy low high
    refine .made ⟨repeatTree h.size regex low high, same, grown, fun present base regular => ?_⟩
    cases regex with
    | none => cases present
    | some regex => exact regular.new accepted
  cases high with
  | none => exact built fun _ below => by cases below
  | some max =>
      rw [plainRepeat]
      by_cases below : max < low
      · rw [if_pos below]
        exact .raised (.minimum low max)
      by_cases invalid : max = 0 ∨ (low = max ∧ max = 1)
      · rw [if_neg below, if_pos invalid]
        exact .raised (.invalid low max)
      · rw [if_neg below, if_neg invalid]
        refine built fun bound here => ?_
        cases here
        rw [not_or] at invalid
        exact ⟨Nat.not_lt.mp below, invalid.1, invalid.2⟩

/-- What was made of `parts` in a run: regexes, and None in the place of a regex. From parts as
the constructors build them come such parts. -/
structure Made (h : Heap) (parts : List Tree) (made : List (Option Tree)) (h' : Heap) : Prop where
  grown : Grown h parts made.reduceOption h'
  regular : (∀ part ∈ parts, part.Constructed) → (∀ whole ∈ made, whole.isSome) ∧
    ∀ base, h.RegularFrom base → h'.RegularFrom base

theorem made_same {h : Heap} {item : Tree} (rep : item.Rep h) (tidy : item.Tidy) :
    Made h [item] [some item] h where
  grown := Grown.refl (fun _ member => List.mem_singleton.mp member ▸ rep)
    fun _ member => List.mem_singleton.mp member ▸ tidy
  regular _ := ⟨fun _ member => List.mem_singleton.mp member ▸ rfl, fun _ regular => regular⟩

theorem refs_eq (t : Tree) : t.refs = t.ref :: refsAll t.children := by
  cases t with
  | regexAnd ref init last => simp [refs, Tree.ref, children]
  | regexRepeat ref regex min max => simp [refs, Tree.ref, children]
  | _ => rfl

theorem count_member {items : List Tree} {item : Tree} (member : item ∈ items) (r : Ref) :
    item.refs.count r ≤ (refsAll items).count r := by
  induction items with
  | nil => cases member
  | cons first items induction =>
      rw [refsAll_cons, List.count_append]
      obtain rfl | later := List.mem_cons.mp member
      · exact Nat.le_add_right _ _
      · exact (induction later).trans (Nat.le_add_left _ _)

theorem count_child {item child : Tree} (inside : child ∈ item.children) (r : Ref) :
    child.refs.count r ≤ item.refs.count r := by
  rw [refs_eq item, List.count_cons]
  exact (count_member inside r).trans (Nat.le_add_right _ _)

/-- What optimizeRepeatOr makes of an item: None for an item that it leaves out. -/
def ItemMade (h : Heap) (item : Tree) (new : Option (Option Ref)) (h' : Heap) : Prop :=
  ∃ made : Option (Option Tree), new = made.map (Option.map ref) ∧ Made h [item] made.toList h'

/-- An item that repeats `regex`. -/
theorem plainRepeat_settles {h : Heap} {item : Tree} {regex : Option Tree}
    (reps : ∀ t ∈ regex.toList, t.Rep h) (tidyRegex : ∀ t ∈ regex.toList, t.Tidy)
    (count : ∀ r, (refsAll regex.toList).count r ≤ (refsAll [item]).count r)
    (constructed : item.Constructed → regex.isSome) (low : Nat) (high : Option Nat) :
    ∃ outcome, ((liftM (plainRepeat (regex.map ref) low high h) : Raising (Ref × Heap)) >>=
        fun (new, h) => (pure (some (some new), h) : Raising (Option (Option Ref) × Heap))).run =
          some outcome ∧
      Ended (ItemMade h item) outcome := by
  have ended := plainRepeat_made reps tidyRegex low high
  cases built : plainRepeat (regex.map ref) low high h with
  | error text =>
      rw [built] at ended
      cases ended with
      | raised unfit => exact ⟨_, rfl, .raised unfit⟩
  | ok result =>
      rw [built] at ended
      cases ended with
      | made here =>
          obtain ⟨whole, same, grown, regular⟩ := here
          refine ⟨_, rfl, .made ⟨some (some whole), congrArg (fun new => some (some new)) same,
            ⟨grown.grown, grown.rep, grown.tidy, fun r =>
              (grown.count r).trans (Nat.add_le_add_right (count r) _)⟩, fun all => ⟨?_, ?_⟩⟩⟩
          · exact fun whole member => List.mem_singleton.mp member ▸ rfl
          · exact regular (constructed (all item (by simp)))

theorem optimizedRepeat_settles {h : Heap} {item : Tree} (rep : item.Rep h) (tidy : item.Tidy)
    {regex : Option Tree} (reps : ∀ t ∈ regex.toList, t.Rep h)
    (tidyRegex : ∀ t ∈ regex.toList, t.Tidy)
    (count : ∀ r, (refsAll regex.toList).count r ≤ (refsAll [item]).count r)
    (constructed : item.Constructed → regex.isSome) (rmin : Nat) (rmax : Option Nat) (min : Nat)
    (max : Option Nat) :
    ∃ outcome, (optimizedRepeat rmin rmax item.ref (regex.map ref) min max h).run = some outcome ∧
      Ended (ItemMade h item) outcome := by
  have kept : ∃ outcome, (pure (some (some item.ref), h) :
        Raising (Option (Option Ref) × Heap)).run = some outcome ∧
      Ended (ItemMade h item) outcome :=
    ⟨_, rfl, .made ⟨some (some item), rfl, made_same rep tidy⟩⟩
  have opened : ∃ outcome, (pure (some (regex.map ref), h) :
        Raising (Option (Option Ref) × Heap)).run = some outcome ∧
      Ended (ItemMade h item) outcome := by
    refine ⟨_, rfl, .made ⟨some regex, rfl, ⟨Heap.KeepsBut.refl _ h, ?_, ?_, fun r => ?_⟩,
      fun all => ?_⟩⟩
    · rwa [Option.toList_some, List.reduceOption_singleton]
    · rwa [Option.toList_some, List.reduceOption_singleton]
    · rw [Option.toList_some, List.reduceOption_singleton]
      exact (count r).trans (Nat.le_add_right _ _)
    · exact ⟨fun whole member => List.mem_singleton.mp member ▸ constructed (all item (by simp)),
        fun _ regular => regular⟩
  have plain := plainRepeat_settles reps tidyRegex count constructed
  unfold optimizedRepeat
  split_ifs
  · exact opened
  · exact plain _ _
  · exact kept
  · exact opened
  · exact kept
  · exact plain _ _
  · exact kept

/-- What optimizeRepeatOr makes of an item. -/
theorem optimizedItem_settles {h : Heap} {item : Tree} (rep : item.Rep h) (tidy : item.Tidy)
    (rmin : Nat) (rmax : Option Nat) :
    ∃ outcome, (optimizedItem rmin rmax item.ref h).run = some outcome ∧
      Ended (ItemMade h item) outcome := by
  rw [optimizedItem_step]
  change ∃ outcome, ((liftM (h.node? item.ref) : Raising Node) >>= fun node =>
    optimizedNode rmin rmax item.ref node h).run = some outcome ∧ _
  rw [rep.here]
  have kept : Ended (ItemMade h item) (.ok (some (some item.ref), h)) :=
    .made ⟨some (some item), rfl, made_same rep tidy⟩
  cases item with
  | atom ref leaf =>
      cases leaf with
      | regexEmpty =>
          refine ⟨_, rfl, .made ⟨none, rfl, ⟨Heap.KeepsBut.refl _ h, ?_, ?_, fun r => ?_⟩,
            fun _ => ?_⟩⟩
          · exact fun whole member => by cases member
          · exact fun whole member => by cases member
          · exact Nat.zero_le _
          · exact ⟨fun whole member => (by cases member), fun _ regular => regular⟩
      | regexRepeatNone min max =>
          refine @optimizedRepeat_settles h _ rep tidy none (fun t member => by cases member)
            (fun t member => by cases member) (fun r => Nat.zero_le _) (fun constructed => ?_)
            rmin rmax min max
          exact absurd rfl (constructed.here min max)
      | _ => exact ⟨_, rfl, kept⟩
  | regexRepeat ref regex min max =>
      refine @optimizedRepeat_settles h _ rep tidy (some regex) (fun t member => ?_)
        (fun t member => ?_) (fun r => ?_) (fun _ => rfl) rmin rmax min max
      · exact List.mem_singleton.mp member ▸ rep.2
      · exact List.mem_singleton.mp member ▸ tidy.child (List.mem_singleton.mpr rfl)
      · change (regex.refs ++ []).count r ≤ ((ref :: regex.refs) ++ []).count r
        rw [List.append_nil, List.append_nil, List.count_cons]
        exact Nat.le_add_right _ _
  | _ => exact ⟨_, rfl, kept⟩

theorem optimizedItems_settles {h : Heap} {items : List Tree} (reps : ∀ item ∈ items, item.Rep h)
    (tidy : ∀ item ∈ items, item.Tidy) (rmin : Nat) (rmax : Option Nat) :
    ∃ outcome, (optimizedItems rmin rmax (items.map ref) h).run = some outcome ∧
      Ended (fun new h' => ∃ made : List (Option Tree), new = made.map (Option.map ref) ∧
        Made h items made h') outcome := by
  induction items generalizing h with
  | nil =>
      exact ⟨_, rfl, .made ⟨[], rfl, Grown.refl reps tidy, fun _ =>
        ⟨fun whole member => (by cases member), fun _ regular => regular⟩⟩⟩
  | cons item items induction =>
      obtain ⟨outcome, ran, ended⟩ := optimizedItem_settles (reps item (by simp))
        (tidy item (by simp)) rmin rmax
      cases ended with
      | raised unfit => exact ⟨_, Returns.run_raises ran, .raised unfit⟩
      | @made new h1 here =>
          obtain ⟨made, rfl, first⟩ := here
          obtain ⟨outcomeRest, ranRest, ended⟩ := induction
            (fun other member => (reps other (List.mem_cons_of_mem _ member)).extends
              first.grown.grown) fun other member => tidy other (List.mem_cons_of_mem _ member)
          have step : (optimizedItems rmin rmax ((item :: items).map ref) h).run = _ :=
            Returns.run_bind ran
          cases ended with
          | raised unfit => exact ⟨_, step.trans (Returns.run_raises ranRest), .raised unfit⟩
          | @made content h2 here =>
              obtain ⟨madeRest, rfl, rest⟩ := here
              refine ⟨_, step.trans (Returns.run_bind ranRest), .made ⟨made.toList ++ madeRest,
                ?_, ?_, fun all => ?_⟩⟩
              · cases made <;> simp
              · rw [List.reduceOption_append]
                exact first.grown.both rest.grown
              · obtain ⟨present, regular⟩ := first.regular fun part member =>
                  List.mem_singleton.mp member ▸ all item (by simp)
                obtain ⟨presentRest, regularRest⟩ := rest.regular fun part member =>
                  all part (List.mem_cons_of_mem _ member)
                refine ⟨fun whole member => ?_, fun base here => regularRest base
                  (regular base here)⟩
                obtain old | new := List.mem_append.mp member
                · exact present whole old
                · exact presentRest whole new

theorem grown_union {h h1 : Heap} {a b next : Tree} (unites : Unites h a b next h1) :
    Grown h [a, b] [next] h1 where
  grown := unites.grown
  rep _ member := List.mem_singleton.mp member ▸ unites.rep
  tidy _ member := List.mem_singleton.mp member ▸ unites.tidy
  count r := by
    have less := unites.count r
    simp only [refsAll_cons, refsAll_nil, List.append_nil, List.count_append]
    omega

/-- What `_join` with `|` makes of regexes, some of them None. -/
def JoinMade (h : Heap) (items : List (Option Tree)) (new : Option Ref) (h' : Heap) : Prop :=
  ∃ whole : Option Tree, new = whole.map ref ∧ Grown h items.reduceOption whole.toList h' ∧
    ((∀ t ∈ items, t.isSome) → whole.isSome) ∧ ∀ base, h.RegularFrom base → h'.RegularFrom base

/-- The loop of `_join` with `|`: the regex so far and the items to come. -/
theorem orJoinItems_settles {items : List (Option Tree)} {h : Heap} {first : Option Tree}
    (reps : ∀ t ∈ (first :: items).reduceOption, t.Rep h)
    (tidy : ∀ t ∈ (first :: items).reduceOption, t.Tidy) :
    ∃ outcome, Returns (fun fuel =>
        (orJoinItems fuel (first.map ref) (items.map (Option.map ref)) h).run) outcome ∧
      Ended (JoinMade h (first :: items)) outcome := by
  induction items generalizing h first with
  | nil =>
      refine ⟨_, Returns.pure _, .made ⟨first, rfl, ?_, fun all => all first (by simp),
        fun _ regular => regular⟩⟩
      have same : [first].reduceOption = first.toList := List.reduceOption_singleton first
      rw [same] at reps tidy ⊢
      exact Grown.refl reps tidy
  | cons item items induction =>
      cases first with
      | none => exact ⟨_, Returns.pure _, .raised .operand⟩
      | some first =>
          cases item with
          | none => exact ⟨_, Returns.pure _, .raised .attribute⟩
          | some item =>
              rw [List.reduceOption_cons_of_some, List.reduceOption_cons_of_some] at reps tidy
              obtain ⟨h1, next, runs, unites⟩ := dunderOr_returns (reps first (by simp))
                (reps item (by simp)) (tidy first (by simp)) (tidy item (by simp))
              have step : Returns (fun fuel =>
                  (orOptional fuel (some first.ref) (some item.ref) h).run)
                  (.ok (some next.ref, h1)) := Returns.tryBind (Returns.lifted runs)
                    (Returns.pure _)
              have others : Grown h1 items.reduceOption items.reduceOption h1 := Grown.refl
                (fun t member => (reps t (by simp [member])).extends unites.grown)
                fun t member => tidy t (by simp [member])
              have joined := (grown_union unites).both others
              obtain ⟨outcome, returns, ended⟩ := @induction h1 (some next)
                (by rw [List.reduceOption_cons_of_some]; exact joined.rep)
                (by rw [List.reduceOption_cons_of_some]; exact joined.tidy)
              refine ⟨outcome, Returns.tryBind step returns, ?_⟩
              cases ended with
              | raised unfit => exact .raised unfit
              | made here =>
                  obtain ⟨whole, same, grown, present, regular⟩ := here
                  rw [List.reduceOption_cons_of_some] at grown
                  refine .made ⟨whole, same, ?_, fun all => present fun t member => ?_,
                    fun base here => regular base (dunderOr_regular here runs)⟩
                  · rw [List.reduceOption_cons_of_some, List.reduceOption_cons_of_some]
                    exact joined.trans grown
                  · obtain rfl | later := List.mem_cons.mp member
                    · rfl
                    · exact all t (by simp [later])

theorem orJoin_settles {items : List (Option Tree)} {h : Heap}
    (reps : ∀ t ∈ items.reduceOption, t.Rep h) (tidy : ∀ t ∈ items.reduceOption, t.Tidy) :
    ∃ outcome, Returns (fun fuel => (orJoin fuel (items.map (Option.map ref)) h).run) outcome ∧
      Ended (JoinMade h items) outcome := by
  cases items with
  | nil =>
      refine ⟨_, Returns.pure _, .made ⟨some (atom h.size .regexEmpty), rfl,
        ⟨h.new_extends _, ?_, ?_, fun r => ?_⟩, fun _ => rfl, fun base regular =>
        regular.new trivial⟩⟩
      · exact fun whole member => List.mem_singleton.mp member ▸ h.new_node? _
      · exact fun whole member => List.mem_singleton.mp member ▸ everywhere_atom trivial
      · have one := count_next h.size r
        change List.count r [h.size] ≤ _ + between h.size (h.new _).2.size r
        rw [Heap.new_size]
        omega
  | cons first items => exact orJoinItems_settles reps tidy

/-- What RegexRepeat makes of `parts`: none of them for a RegexRepeat of None. -/
def RepeatMade (h : Heap) (parts : List Tree) (new : Ref) (h' : Heap) : Prop :=
  ∃ whole : Tree, new = whole.ref ∧ Grown h parts [whole] h' ∧
    (parts ≠ [] → (∀ part ∈ parts, part.Constructed) →
      ∀ base, h.RegularFrom base → h'.RegularFrom base)

theorem repeated_plain {h : Heap} {t : Tree} {regex : Option Tree}
    (reps : ∀ t ∈ regex.toList, t.Rep h) (tidy : ∀ t ∈ regex.toList, t.Tidy)
    (count : ∀ r, (refsAll regex.toList).count r ≤ (refsAll [t]).count r)
    (constructed : t.Constructed → regex.isSome) (low : Nat) (high : Option Nat) :
    Ended (RepeatMade h [t]) (plainRepeat (regex.map ref) low high h) := by
  refine (plainRepeat_made reps tidy low high).imp fun new h' here => ?_
  obtain ⟨whole, same, grown, regular⟩ := here
  exact ⟨whole, same, ⟨grown.grown, grown.rep, grown.tidy,
    fun r => (grown.count r).trans (Nat.add_le_add_right (count r) _)⟩,
    fun _ all => regular (constructed (all t (by simp)))⟩

theorem repeated_whole {h : Heap} {t : Tree} (rep : t.Rep h) (tidy : t.Tidy) (low : Nat)
    (high : Option Nat) : Ended (RepeatMade h [t]) (plainRepeat (some t.ref) low high h) :=
  @repeated_plain h t (some t) (fun _ member => List.mem_singleton.mp member ▸ rep)
    (fun _ member => List.mem_singleton.mp member ▸ tidy) (fun _ => Nat.le_refl _)
    (fun _ => rfl) low high

theorem repeated_parted {h : Heap} {t : Tree} {inner : Option Tree} (rep : t.Rep h)
    (tidy : t.Tidy) (reps : ∀ t ∈ inner.toList, t.Rep h) (tidyInner : ∀ t ∈ inner.toList, t.Tidy)
    (count : ∀ r, (refsAll inner.toList).count r ≤ (refsAll [t]).count r)
    (constructed : t.Constructed → inner.isSome) (rmin : Nat) (rmax : Option Nat) (min : Nat)
    (max : Option Nat) :
    ∃ outcome, (repeatParted t.ref rmin rmax (some (inner.map ref, min, max)) h).run =
      some outcome ∧
      Ended (RepeatMade h [t]) outcome := by
  change ∃ outcome, (if rmin = 0 ∧ rmax = some 1 then _ else _ : Raising (Ref × Heap)).run = _ ∧ _
  split
  · exact ⟨_, rfl, repeated_whole rep tidy _ _⟩
  · exact ⟨_, rfl, repeated_plain reps tidyInner count constructed _ _⟩

theorem repeated_or {h : Heap} {self : Ref} {content : List Tree}
    (rep : (Tree.regexOr self content).Rep h) (tidy : (Tree.regexOr self content).Tidy)
    (rmin : Nat) (rmax : Option Nat) :
    ∃ outcome, Returns (fun fuel =>
        (repeatNode fuel self rmin rmax (.regexOr (content.map ref)) h).run) outcome ∧
      Ended (RepeatMade h [Tree.regexOr self content]) outcome := by
  have nodes : (liftM ((content.map ref).mapM h.node?) : Raising (List Node)).run =
      some (.ok (content.map node)) := by
    rw [mapM_node (repAll_iff.mp rep.2)]
    rfl
  have step : ∀ fuel, (repeatNode fuel self rmin rmax (.regexOr (content.map ref)) h).run = _ :=
    fun fuel => Returns.run_bind nodes
  obtain ⟨outcome, ran, ended⟩ := optimizedItems_settles (repAll_iff.mp rep.2)
    (fun item member => tidy.child (t := Tree.regexOr self content) member)
    (fixedMin rmin (content.map node)) rmax
  cases ended with
  | @raised text unfit =>
      exact ⟨.error text, ⟨0, fun fuel _ => (step fuel).trans (Returns.run_raises ran)⟩,
        .raised unfit⟩
  | @made new h1 here =>
      obtain ⟨items, rfl, made⟩ := here
      obtain ⟨outcome, returns, ended⟩ := orJoin_settles made.grown.rep made.grown.tidy
      have ranItems : ∀ fuel,
          (repeatNode fuel self rmin rmax (.regexOr (content.map ref)) h).run = _ :=
        fun fuel => (step fuel).trans (Returns.run_bind ran)
      cases ended with
      | @raised text unfit =>
          exact ⟨.error text, Returns.congr ranItems (Returns.raises returns), .raised unfit⟩
      | @made new h2 here =>
          obtain ⟨whole, rfl, grown, present, regular⟩ := here
          refine ⟨_, Returns.congr ranItems (Returns.tryBind returns (Returns.pure _)), ?_⟩
          refine (plainRepeat_made grown.rep grown.tidy (fixedMin rmin (content.map node))
            rmax).imp fun new h' here => ?_
          obtain ⟨result, same, grownLast, regularLast⟩ := here
          have total := (made.grown.trans grown).trans grownLast
          refine ⟨result, same, ⟨total.grown, total.rep, total.tidy, fun r => ?_⟩,
            fun _ all base here => ?_⟩
          · have less := total.count r
            change _ ≤ ((self :: refsAll content) ++ []).count r + _
            rw [List.append_nil, List.count_cons]
            omega
          · have constructed := all _ (List.mem_singleton.mpr rfl)
            obtain ⟨presentItems, regularItems⟩ := made.regular fun part member =>
              constructed.child (t := Tree.regexOr self content) member
            exact regularLast (present presentItems) base (regular base (regularItems base here))

/-- RegexRepeat of a regex, or of None, raises or makes a regex. -/
theorem regexRepeat_settles {h : Heap} {last : Option Tree} (reps : ∀ t ∈ last.toList, t.Rep h)
    (tidy : ∀ t ∈ last.toList, t.Tidy) (rmin : Nat) (rmax : Option Nat) :
    ∃ outcome, Returns (fun fuel => (regexRepeat fuel (last.map ref) rmin rmax h).run) outcome ∧
      Ended (RepeatMade h last.toList) outcome := by
  cases last with
  | none =>
      refine ⟨_, Returns.pure _, (@plainRepeat_made h none reps tidy rmin rmax).imp
        fun new h' here => ?_⟩
      obtain ⟨whole, same, grown, _⟩ := here
      exact ⟨whole, same, grown, fun some => absurd rfl some⟩
  | some t =>
      have rep := reps t (by simp)
      have tidyT := tidy t (by simp)
      have settle : (∃ outcome, Returns (fun fuel =>
            (repeatNode fuel t.ref rmin rmax t.node h).run) outcome ∧
            Ended (RepeatMade h [t]) outcome) →
          ∃ outcome, Returns (fun fuel =>
              (regexRepeat fuel (some t.ref) rmin rmax h).run) outcome ∧
            Ended (RepeatMade h [t]) outcome := by
        rintro ⟨outcome, returns, repeated⟩
        refine ⟨outcome, Returns.congr (fun fuel => ?_) returns, repeated⟩
        rw [regexRepeat_step]
        change ((liftM (h.node? t.ref) : Raising Node) >>= _).run = _
        rw [rep.here]
        rfl
      refine settle ?_
      have plain := repeated_whole rep tidyT rmin rmax
      cases t with
      | atom ref leaf =>
          cases leaf with
          | regexRepeatNone min max =>
              obtain ⟨outcome, ran, repeated⟩ := @repeated_parted h _ none rep tidyT
                (fun t member => by cases member) (fun t member => by cases member)
                (fun r => Nat.zero_le _)
                (fun constructed => absurd rfl (constructed.here min max)) rmin rmax min max
              exact ⟨outcome, ⟨0, fun _ _ => ran⟩, repeated⟩
          | _ => exact ⟨_, Returns.pure _, plain⟩
      | regexAnd ref init last => exact ⟨_, Returns.pure _, plain⟩
      | regexRepeat ref regex min max =>
          obtain ⟨outcome, ran, repeated⟩ := @repeated_parted h _ (some regex) rep tidyT
            (fun t member => List.mem_singleton.mp member ▸ rep.2)
            (fun t member => List.mem_singleton.mp member ▸ tidyT.child
              (List.mem_singleton.mpr rfl))
            (fun r => by
              have less := @count_child (.regexRepeat ref regex min max) regex
                (List.mem_singleton.mpr rfl) r
              simpa using less)
            (fun _ => rfl) rmin rmax min max
          exact ⟨outcome, ⟨0, fun _ _ => ran⟩, repeated⟩
      | regexOr ref content => exact repeated_or rep tidyT rmin rmax

/-! The bounds that RegexRepeat takes for a regex. -/

/-- The constructor accepts what the optimisation makes of the bounds. -/
def Tree.Takes (rmin : Nat) (rmax : Option Nat) : Tree → Prop
  | .regexOr ref content =>
      ¬ (Tree.regexOr ref content).OptionalInOr rmin ∧ Accepted (Tree.low rmin content) rmax
  | .regexRepeat _ _ min max =>
      (rmin = 0 ∧ rmax = some 1) ∨ Accepted (rmin * min) (productMax max rmax)
  | _ => Accepted rmin rmax

/-- A constructor that takes its bounds just when `takes`. -/
def Decides (takes : Prop) (run : Nat → Option (Except String (Ref × Heap))) : Prop :=
  (takes → ∃ result, Returns run (.ok result)) ∧ (¬ takes → ∃ text, Returns run (.error text))

theorem Decides.congr {takes : Prop} {run body : Nat → Option (Except String (Ref × Heap))}
    (same : ∀ fuel, run fuel = body fuel) (decides : Decides takes body) : Decides takes run :=
  ⟨fun takes => (decides.1 takes).imp fun _ => Returns.congr same,
    fun refused => (decides.2 refused).imp fun _ => Returns.congr same⟩

theorem plainRepeat_decides (regex : Option Ref) (rmin : Nat) (rmax : Option Nat) (h : Heap) :
    Decides (Accepted rmin rmax) fun _ => some (plainRepeat regex rmin rmax h) := by
  refine ⟨fun accepted => ⟨_, 0, fun _ _ => congrArg some (plainRepeat_ok accepted regex h)⟩,
    fun refused => ?_⟩
  cases built : plainRepeat regex rmin rmax h with
  | ok result => exact absurd (accepted_of_ok built) refused
  | error text => exact ⟨text, Returns.pure _⟩

theorem regexRepeat_decides {h : Heap} {t : Tree} (rep : t.Rep h) (constructed : t.Constructed)
    (tidy : t.Tidy) (rmin : Nat) (rmax : Option Nat) :
    Decides (t.Takes rmin rmax) fun fuel => (regexRepeat fuel (some t.ref) rmin rmax h).run := by
  have plain := plainRepeat_decides (some t.ref) rmin rmax h
  cases t with
  | atom ref leaf =>
      exact plain.congr (regexRepeat_of_other rep.here (fun _ same => by cases same)
        (repeatParts_none constructed.here fun _ _ _ _ same => by cases same) rmin rmax)
  | regexAnd ref init last =>
      exact plain.congr (regexRepeat_of_other rep.here (fun _ same => by cases same) rfl rmin rmax)
  | regexRepeat ref regex min max =>
      have step := regexRepeat_of_repeat rep.1 rmin rmax
      by_cases once : rmin = 0 ∧ rmax = some 1
      · simp only [if_pos once] at step
        obtain ⟨zero, one⟩ := once
        subst zero one
        obtain ⟨builds, _⟩ := Decides.congr step plain
        exact ⟨fun _ => builds accepted_optional, fun refused => absurd (.inl ⟨rfl, rfl⟩) refused⟩
      · simp only [if_neg once] at step
        obtain ⟨builds, raises⟩ := Decides.congr step
          (plainRepeat_decides (some regex.ref) (rmin * min) (productMax max rmax) h)
        exact ⟨fun takes => builds (takes.resolve_left once),
          fun refused => raises fun accepted => refused (.inr accepted)⟩
  | regexOr ref content =>
      by_cases optional : (Tree.regexOr ref content).OptionalInOr rmin
      · exact ⟨fun takes => absurd optional takes.1,
          fun _ => regexRepeat_raises rep constructed optional⟩
      obtain ⟨h', whole, returns, _⟩ := optimizeRepeatOr_returns rep constructed rmin rmax tidy
        fun item member once => optional ((once_in_or_iff rmin ref content).mp ⟨item, member, once⟩)
      have step := fun fuel => congrArg ExceptT.run (regexRepeat_of_or rep.1 rmin rmax fuel)
      obtain ⟨builds, raises⟩ := plainRepeat_decides (some whole.ref) (low rmin content) rmax h'
      refine ⟨fun takes => (builds takes.2).imp fun _ built =>
        Returns.congr step (Returns.tryBind returns built), fun refused => ?_⟩
      exact (raises fun accepted => refused ⟨optional, accepted⟩).imp fun _ raised =>
        Returns.congr step (Returns.tryBind returns raised)

end Segvault.HachoirRegex
