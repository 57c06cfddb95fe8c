import Segvault.HachoirRegex.Union

namespace Segvault.HachoirRegex

open Relation Spans

/-- `_or_` of RegexAnd for operands whose first `index` items are equal. -/
def commonBody (first second : Ref) (index : Nat) (h : Heap) (fuel : Nat) :
    Option (Option Ref × Heap) := do
  let (resta, h) ← join fuel ((← operandContent first h).drop index) h
  let (restb, h) ← join fuel ((← operandContent second h).drop index) h
  let (regex, h) ← dunderOr fuel resta restb h
  let (shared, h) ← join fuel ((← operandContent first h).take index) h
  let (regex, h) ← dunderAnd fuel shared regex h
  some (some regex, h)

/-- `_or_` of RegexAnd for operands whose first items have a common prefix. -/
def prefixBody (first second shared resta restb : Ref) (h : Heap) (fuel : Nat) :
    Option (Option Ref × Heap) := do
  let (taila, h) ← join fuel ((← operandContent first h).drop 1) h
  let (regexa, h) ← dunderAnd fuel resta taila h
  let (tailb, h) ← join fuel ((← operandContent second h).drop 1) h
  let (regexb, h) ← dunderAnd fuel restb tailb h
  let (regex, h) ← dunderOr fuel regexa regexb h
  let single ← matchSingleValue fuel shared h
  let single ← if single then some true else matchSingleValue fuel regex h
  if single then do
    let (regex, h) ← dunderAnd fuel shared regex h
    some (some regex, h)
  else some (none, h)

/-- `_or_` of RegexAnd for the operands in the order in which they stand in `a|b`. -/
def andOrBody (first second : Ref) (h : Heap) (fuel : Nat) : Option (Option Ref × Heap) := do
  let index ← commonItems fuel (← operandContent first h) (← operandContent second h) h
  if index ≠ 0 then commonBody first second index h fuel
  else do
    let heada ← (← operandContent first h).head?
    let headb ← (← operandContent second h).head?
    let (common, h) ← findPrefix heada headb h
    match common with
    | none => some (none, h)
    | some (shared, resta, restb) => prefixBody first second shared resta restb h fuel

theorem andOr_step (fuel : Nat) (self other : Ref) (reverse : Bool) (h : Heap) :
    andOr (fuel + 1) self other reverse h =
      andOrBody (if reverse then other else self) (if reverse then self else other) h fuel := by
  rewrite [andOr]
  rfl

namespace Tree

/-! The items of an operand of `_or_` of RegexAnd: a string is its own item. -/

inductive Items : Tree → List Tree → Prop
  | string (ref : Ref) (text : List UInt8) (nonempty : text ≠ []) :
      Items (atom ref (.regexString text nonempty)) [atom ref (.regexString text nonempty)]
  | regexAnd (ref : Ref) (init : List Tree) (last : Tree) :
      Items (regexAnd ref init last) (init ++ [last])

namespace Items

variable {h : Heap} {t : Tree} {items : List Tree}

theorem content (shape : Items t items) (rep : t.Rep h) :
    operandContent t.ref h = some (items.map ref) := by
  have here := rep.here
  cases shape with
  | string ref text nonempty =>
      rw [operandContent, here]
      rfl
  | regexAnd ref init last =>
      rw [operandContent, here]
      simp [node]

theorem reps (shape : Items t items) (rep : t.Rep h) : ∀ item ∈ items, item.Rep h := by
  cases shape with
  | string ref text nonempty => exact fun item member => List.mem_singleton.mp member ▸ rep
  | regexAnd ref init last => exact fun item member => rep.child member

theorem everywhere (shape : Items t items) {holds : Tree → Prop} (all : Everywhere holds t) :
    ∀ item ∈ items, Everywhere holds item := by
  cases shape with
  | string ref text nonempty => exact fun item member => List.mem_singleton.mp member ▸ all
  | regexAnd ref init last => exact fun item member => all.child member

theorem single (shape : Items t items) (tidy : t.Tidy) :
    ∀ item ∈ items.dropLast, item.isAnd = false := by
  cases shape with
  | string ref text nonempty => exact fun item member => by cases member
  | regexAnd ref init last =>
      intro item member
      rw [List.dropLast_concat] at member
      exact tidy.here.2 item member

theorem nonempty (shape : Items t items) : items ≠ [] := by
  cases shape <;> simp

theorem count (shape : Items t items) (r : Ref) : (refsAll items).count r ≤ t.refs.count r := by
  cases shape with
  | string ref text nonempty => simp
  | regexAnd ref init last =>
      simp only [refsAll_append, refsAll_cons, refsAll_nil, List.append_nil, refs,
        List.count_cons]
      omega

theorem denote (shape : Items t items) (dot : UInt8 → Prop) (text : List UInt8) :
    t.denote dot text = sequence (items.map (Tree.denote dot text)) := by
  cases shape with
  | string ref string nonempty => exact (sequence_singleton _).symm
  | regexAnd ref init last => exact denote_regexAnd dot text ref init last

theorem weight (shape : Items t items) :
    t.weight = weightAll items + (if t.isAnd then 1 else 0) := by
  cases shape with
  | string ref text nonempty => rfl
  | regexAnd ref init last =>
      simp [isAnd]
      omega

/-- The first items of an operand: a string has one, a RegexAnd at least two. -/
theorem taken (shape : Items t items) (tidy : t.Tidy) {index : Nat}
    (within : index ≤ items.length) (some : index ≠ 0) :
    (t.isAnd = true → items.drop index = [] → 2 ≤ index) ∧
      (t.isAnd = false → items.drop index = [] ∧ 5 ≤ weightAll (items.take index)) := by
  cases shape with
  | string ref text nonempty =>
      obtain rfl : index = 1 := by
        simp at within
        omega
      have positive := List.length_pos_iff.mpr nonempty
      refine ⟨fun wrong => (by cases wrong), fun _ => ⟨rfl, ?_⟩⟩
      simp only [List.take_succ_cons, List.take_zero, weightAll_cons, weightAll_nil, Tree.weight]
      omega
  | regexAnd ref init last =>
      refine ⟨fun _ empty => ?_, fun wrong => (by cases wrong)⟩
      have several := List.length_pos_iff.mpr tidy.here.1
      rw [List.drop_eq_nil_iff, List.length_append] at empty
      simp at empty
      omega

theorem notOr (shape : Items t items) : t.isOr = false := by
  cases shape <;> rfl

end Items

theorem isAnd_of_bare {a b : Tree} (same : a.bare = b.bare) : a.isAnd = b.isAnd := by
  cases a <;> cases b <;> first | rfl | (simp [bare] at same)

theorem weightAll_bare {items : List Tree} (each : ∀ item ∈ items, item.bare.weight = item.weight) :
    weightAll (bareAll items) = weightAll items := by
  induction items with
  | nil => rfl
  | cons item items induction =>
      rw [bareAll, weightAll_cons, weightAll_cons, each item (by simp),
        induction fun other member => each other (List.mem_cons_of_mem _ member)]

theorem weight_bare (t : Tree) : t.bare.weight = t.weight := by
  induction t with
  | atom ref leaf => cases leaf <;> rfl
  | regexAnd ref init last inductionInit inductionLast =>
      rw [bare, weight_regexAnd, weight_regexAnd, weightAll_bare inductionInit, inductionLast]
  | regexOr ref content inductionContent =>
      rw [bare, weight_regexOr, weight_regexOr, weightAll_bare inductionContent]
  | regexRepeat ref regex min max => rfl

theorem weightAll_of_bare {first second : List Tree}
    (same : first.map bare = second.map bare) : weightAll first = weightAll second := by
  have back : ∀ items : List Tree, weightAll (items.map bare) = weightAll items := by
    intro items
    rw [← bareAll_eq]
    exact weightAll_bare fun item _ => weight_bare item
  rw [← back first, same, back]

theorem denotes_of_bare {first second : List Tree} (same : first.map bare = second.map bare)
    (dot : UInt8 → Prop) (text : List UInt8) :
    first.map (denote dot text) = second.map (denote dot text) := by
  have back : ∀ items : List Tree,
      (items.map bare).map (denote dot text) = items.map (denote dot text) := by
    intro items
    rw [List.map_map]
    exact List.map_congr_left fun item _ => denote_bare dot text item
  rw [← back first, same, back]

theorem commonItems_returns {h : Heap} {first second : List Tree}
    (reps : ∀ item ∈ first, item.Rep h) (bReps : ∀ item ∈ second, item.Rep h) :
    ∃ index, Returns (fun fuel => commonItems fuel (first.map ref) (second.map ref) h) index ∧
      index ≤ first.length ∧ index ≤ second.length ∧
      (first.take index).map bare = (second.take index).map bare := by
  induction first generalizing second with
  | nil => exact ⟨0, Returns.pure _, Nat.le_refl _, Nat.zero_le _, by simp⟩
  | cons a first induction =>
      cases second with
      | nil => exact ⟨0, Returns.pure _, Nat.zero_le _, Nat.le_refl _, by simp⟩
      | cons b second =>
          obtain ⟨same, runs, iff⟩ := dunderEq_returns (reps a (by simp)) (bReps b (by simp))
          cases same with
          | false =>
              exact ⟨0, Returns.bind runs (Returns.pure _), Nat.zero_le _, Nat.zero_le _, by simp⟩
          | true =>
              obtain ⟨index, runsRest, insideA, insideB, equal⟩ := induction
                (fun item member => reps item (List.mem_cons_of_mem _ member))
                (fun item member => bReps item (List.mem_cons_of_mem _ member))
              refine ⟨index + 1, Returns.bind runs (Returns.bind runsRest (Returns.pure _)),
                Nat.succ_le_succ insideA, Nat.succ_le_succ insideB, ?_⟩
              rw [List.take_succ_cons, List.take_succ_cons, List.map_cons, List.map_cons, equal,
                iff.mp rfl]

/-- The operands of `_or_` of RegexAnd: at least one is a RegexAnd, and they differ. -/
structure Operands (h : Heap) (a b : Tree) (as bs : List Tree) : Prop where
  shapeA : Items a as
  shapeB : Items b bs
  repA : a.Rep h
  repB : b.Rep h
  tidyA : a.Tidy
  tidyB : b.Tidy
  either : a.isAnd = true ∨ b.isAnd = true
  differ : a.bare ≠ b.bare

/-- The contents are not the same all over. -/
theorem Operands.rest {h : Heap} {a b : Tree} {as bs : List Tree}
    (operands : Operands h a b as bs) (same : as.map bare = bs.map bare) : False := by
  obtain ⟨shapeA, shapeB, _, _, tidyA, tidyB, either, differ⟩ := operands
  have lengths := congrArg List.length same
  rw [List.length_map, List.length_map] at lengths
  cases shapeA with
  | string ref text nonempty =>
      cases shapeB with
      | string refb textb nonemptyB => cases either <;> contradiction
      | regexAnd refb initb lastb =>
          simp at lengths
          exact tidyB.here.1 lengths
  | regexAnd ref init last =>
      cases shapeB with
      | string refb textb nonemptyB =>
          simp at lengths
          exact tidyA.here.1 lengths
      | regexAnd refb initb lastb => exact differ (bare_regexAnd.mpr same)

/-! A common beginning of several items. -/

theorem two_mul_le_weightAll {items : List Tree} (tidy : ∀ item ∈ items, item.Tidy) :
    2 * items.length ≤ weightAll items := by
  induction items with
  | nil => simp
  | cons item items induction =>
      have here := two_le_weight (tidy item (by simp))
      have later := induction fun other member => tidy other (List.mem_cons_of_mem _ member)
      simp only [List.length_cons, weightAll_cons]
      omega

theorem take_single {items : List Tree} (single : ∀ item ∈ items.dropLast, item.isAnd = false)
    {index : Nat} (before : index < items.length) :
    ∀ item ∈ items.take index, item.isAnd = false := by
  intro item member
  refine single item ?_
  rw [List.dropLast_eq_take]
  have within : index ≤ items.length - 1 := by omega
  exact (List.take_prefix_take_left within).subset member

theorem drop_single {items : List Tree} (single : ∀ item ∈ items.dropLast, item.isAnd = false)
    (index : Nat) : ∀ item ∈ (items.drop index).dropLast, item.isAnd = false := by
  induction items generalizing index with
  | nil => simp
  | cons item items induction =>
      cases index with
      | zero => exact single
      | succ index =>
          refine induction (fun other member => single other ?_) index
          cases items with
          | nil => cases member
          | cons next items => exact List.mem_cons_of_mem _ member

/-- The items that both operands begin with are no RegexAnd objects. -/
theorem Operands.take_single {h : Heap} {a b : Tree} {as bs : List Tree}
    (operands : Operands h a b as bs) {index : Nat} (insideA : index ≤ as.length)
    (insideB : index ≤ bs.length) (same : (as.take index).map bare = (bs.take index).map bare) :
    ∀ item ∈ as.take index, item.isAnd = false := by
  obtain before | whole := Nat.lt_or_eq_of_le insideA
  · exact Tree.take_single (operands.shapeA.single operands.tidyA) before
  · obtain before | wholeB := Nat.lt_or_eq_of_le insideB
    · have singleB := Tree.take_single (operands.shapeB.single operands.tidyB) before
      intro item member
      have inMap : item.bare ∈ (bs.take index).map bare := same ▸ List.mem_map_of_mem member
      obtain ⟨other, inB, equal⟩ := List.mem_map.mp inMap
      rw [← isAnd_of_bare equal]
      exact singleB other inB
    · rw [whole, List.take_length] at same
      rw [← whole, wholeB, List.take_length] at same
      exact absurd same fun same => operands.rest same

/-- The weights of the remaining items and of the whole. -/
theorem Operands.restWeight {h : Heap} {a b : Tree} {as bs : List Tree}
    (operands : Operands h a b as bs) {index : Nat} (some : index ≠ 0)
    (insideA : index ≤ as.length) (insideB : index ≤ bs.length)
    (same : (as.take index).map bare = (bs.take index).map bare)
    {resta restb : Tree}
    (weightA : resta.weight ≤ weightAll (as.drop index) + 1 ∨
      (as.drop index = [] ∧ resta.weight = 2))
    (weightB : restb.weight ≤ weightAll (bs.drop index) + 1 ∨
      (bs.drop index = [] ∧ restb.weight = 2)) :
    weightAll (as.take index) + 1 + (resta.weight + restb.weight + 1) ≤ a.weight + b.weight ∧
      resta.weight + restb.weight < a.weight + b.weight := by
  have equal := weightAll_of_bare same
  have wholeA : weightAll as = weightAll (as.take index) + weightAll (as.drop index) := by
    rw [← weightAll_append, List.take_append_drop]
  have wholeB : weightAll bs = weightAll (bs.take index) + weightAll (bs.drop index) := by
    rw [← weightAll_append, List.take_append_drop]
  have heavy : 2 * index ≤ weightAll (as.take index) := by
    have light := @two_mul_le_weightAll (as.take index) fun item member =>
      operands.shapeA.everywhere operands.tidyA item (List.mem_of_mem_take member)
    rwa [List.length_take_of_le insideA] at light
  have weighA := operands.shapeA.weight
  have weighB := operands.shapeB.weight
  have takenA := operands.shapeA.taken operands.tidyA insideA some
  have takenB := operands.shapeB.taken operands.tidyB insideB some
  have notBoth : ¬ (as.drop index = [] ∧ bs.drop index = []) := by
    rintro ⟨emptyA, emptyB⟩
    rw [List.drop_eq_nil_iff] at emptyA emptyB
    rw [List.take_of_length_le emptyA, List.take_of_length_le emptyB] at same
    exact operands.rest same
  cases isAndA : a.isAnd with
  | false =>
      obtain ⟨emptyA, fiveA⟩ := takenA.2 isAndA
      have isAndB : b.isAnd = true := operands.either.resolve_left (by simp [isAndA])
      have moreB := fun emptyB => notBoth ⟨emptyA, emptyB⟩
      rw [isAndA, if_neg Bool.false_ne_true] at weighA
      rw [isAndB, if_pos rfl] at weighB
      rw [emptyA, weightAll_nil] at wholeA weightA
      have lightB := weightB.resolve_right fun none => moreB none.1
      omega
  | true =>
      rw [isAndA, if_pos rfl] at weighA
      by_cases emptyB : bs.drop index = []
      · have moreA := fun emptyA => notBoth ⟨emptyA, emptyB⟩
        have lightA := weightA.resolve_right fun none => moreA none.1
        rw [emptyB, weightAll_nil] at wholeB weightB
        cases isAndB : b.isAnd with
        | true =>
            have several := takenB.1 isAndB emptyB
            rw [isAndB, if_pos rfl] at weighB
            omega
        | false =>
            have five := (takenB.2 isAndB).2
            rw [isAndB, if_neg Bool.false_ne_true] at weighB
            omega
      · have isAndB : b.isAnd = true := by
          by_contra single
          exact emptyB (takenB.2 (Bool.not_eq_true _ ▸ single)).1
        have lightB := weightB.resolve_right fun none => emptyB none.1
        rw [isAndB, if_pos rfl] at weighB
        by_cases emptyA : as.drop index = []
        · have several := takenA.1 isAndA emptyA
          rw [emptyA, weightAll_nil] at wholeA weightA
          omega
        · have lightA := weightA.resolve_right fun none => emptyA none.1
          omega

theorem tried_common {n : Nat} (uniting : Uniting n) {h : Heap} {a b : Tree} {as bs : List Tree}
    (operands : Operands h a b as bs) (below : a.weight + b.weight ≤ n) {index : Nat}
    (some : index ≠ 0) (insideA : index ≤ as.length) (insideB : index ≤ bs.length)
    (same : (as.take index).map bare = (bs.take index).map bare) :
    Tried h a b (commonBody a.ref b.ref index h) := by
  have allA := fun item member => operands.shapeA.reps operands.repA item member
  have allB := fun item member => operands.shapeB.reps operands.repB item member
  have tidyA := fun item member => operands.shapeA.everywhere operands.tidyA item member
  have tidyB := fun item member => operands.shapeB.everywhere operands.tidyB item member
  obtain ⟨h1, resta, runsA, joinedA⟩ := @join_returns h (as.drop index)
    (fun item member => allA item (List.mem_of_mem_drop member))
    (drop_single (operands.shapeA.single operands.tidyA) index)
  obtain ⟨h2, restb, runsB, joinedB⟩ := @join_returns h1 (bs.drop index)
    (fun item member => (allB item (List.mem_of_mem_drop member)).extends joinedA.grown)
    (drop_single (operands.shapeB.single operands.tidyB) index)
  have repA2 := joinedA.rep.extends joinedB.grown
  have restTidyA := joinedA.everywhere _ kept_tidy (fun _ => trivial)
    fun item member => tidyA item (List.mem_of_mem_drop member)
  have restTidyB := joinedB.everywhere _ kept_tidy (fun _ => trivial)
    fun item member => tidyB item (List.mem_of_mem_drop member)
  have weighed := operands.restWeight some insideA insideB same
    (joinedA.light.imp_right fun none => ⟨none.1, weight_of_isEmpty none.2⟩)
    (joinedB.light.imp_right fun none => ⟨none.1, weight_of_isEmpty none.2⟩)
  obtain ⟨h3, regex, runsOr, unites, weight, _, _⟩ := Tried.dunderOr repA2 joinedB.rep restTidyA
    restTidyB (uniting h2 resta restb (by omega) restTidyA restTidyB repA2 joinedB.rep)
  have grown2 := joinedA.grown.trans joinedB.grown
  have grown3 := grown2.trans unites.grown
  have notAnd := operands.take_single insideA insideB same
  obtain ⟨h4, shared, runsShared, joinedShared⟩ := @join_returns h3 (as.take index)
    (fun item member => (allA item (List.mem_of_mem_take member)).extends grown3)
    (fun item member => notAnd item (List.dropLast_subset _ member))
  have sharedRefs : ∀ r ∈ refsAll (as.take index), r < h.size := by
    intro r member
    obtain ⟨item, listed, inside⟩ := mem_refsAll.mp member
    exact (allA item (List.mem_of_mem_take listed)).lt r inside
  obtain ⟨h5, runsAnd, rep, size, grown⟩ := @dunderAnd_fresh h h4 shared regex
    (grown3.trans joinedShared.grown) joinedShared.rep (unites.rep.extends joinedShared.grown)
    (fun r member => by
      have new := joinedShared.spine notAnd r member
      have old := grown3.grows
      refine ⟨Nat.le_trans old new, ?_, fun inside => ?_⟩
      · have count := joinedShared.count r
        have none : (refsAll (as.take index)).count r = 0 := by
          refine List.count_eq_zero.mpr fun inside => ?_
          exact absurd (sharedRefs r inside) (Nat.not_lt.mpr (Nat.le_trans old new))
        have limit := between_le_one h3.size h4.size r
        omega
      · exact absurd (unites.rep.lt r inside) (Nat.not_lt.mpr new))
  have runs : Returns (commonBody a.ref b.ref index h)
      (Option.some (concat h4.size shared regex).1.ref, h5) := by
    refine Returns.bindSome (operands.shapeA.content operands.repA) ?_
    rw [← List.map_drop]
    refine Returns.bind runsA (Returns.bindSome
      (operands.shapeB.content (operands.repB.extends joinedA.grown)) ?_)
    rw [← List.map_drop]
    refine Returns.bind runsB (Returns.bind runsOr (Returns.bindSome
      (operands.shapeA.content (operands.repA.extends grown3)) ?_))
    rw [← List.map_take]
    exact Returns.bind runsShared (Returns.bind runsAnd (Returns.pure _))
  refine .inl ⟨h5, (concat h4.size shared regex).1, runs, ?_, ?_,
    fun wrong => absurd wrong (by simp [operands.shapeA.notOr])⟩
  · exact {
      rep := rep
      grown := grown
      tidy := everywhere_concat kept_tidy _ (joinedShared.everywhere _ kept_tidy
        (fun _ => trivial) fun item member => tidyA item (List.mem_of_mem_take member)) unites.tidy
      count := fun r => by
        have one := joinedA.count r
        have two := joinedB.count r
        have three := unites.count r
        have four := joinedShared.count r
        have five := concat_between h4.size shared regex r
        rw [← size] at five
        have later : h4.size ≤ h5.size := size ▸ concat_next _ _ _
        have partA : (refsAll as).count r =
            (refsAll (as.take index)).count r + (refsAll (as.drop index)).count r := by
          rw [← List.count_append, ← refsAll_append, List.take_append_drop]
        have partB : (refsAll (bs.drop index)).count r ≤ (refsAll bs).count r := by
          conv_rhs => rw [← List.take_append_drop index bs]
          rw [refsAll_append, List.count_append]
          omega
        have wholeA := operands.shapeA.count r
        have wholeB := operands.shapeB.count r
        have steps := between_add joinedA.grown.grows joinedB.grown.grows r
        have steps3 := between_add grown2.grows unites.grown.grows r
        have steps4 := between_add grown3.grows joinedShared.grown.grows r
        have steps5 := between_add (grown3.trans joinedShared.grown).grows later r
        omega
      sound := fun positiveA positiveB => by
        have itemsA := fun item member => operands.shapeA.everywhere positiveA item member
        have itemsB := fun item member => operands.shapeB.everywhere positiveB item member
        have sound := unites.sound
          (joinedA.everywhere _ kept_positive (fun _ => trivial)
            fun item member => itemsA item (List.mem_of_mem_drop member))
          (joinedB.everywhere _ kept_positive (fun _ => trivial)
            fun item member => itemsB item (List.mem_of_mem_drop member))
        have positiveShared := joinedShared.everywhere _ kept_positive (fun _ => trivial)
          fun item member => itemsA item (List.mem_of_mem_take member)
        have wholeA : ∀ text, a.denote anyChar text =
            Comp (shared.denote anyChar text) (resta.denote anyChar text) := by
          intro text
          rw [operands.shapeA.denote, joinedShared.denote, joinedA.denote, ← sequence_append,
            ← List.map_append, List.take_append_drop]
        have wholeB : ∀ text, b.denote anyChar text =
            Comp (shared.denote anyChar text) (restb.denote anyChar text) := by
          intro text
          rw [operands.shapeB.denote, joinedShared.denote, joinedB.denote,
            denotes_of_bare same, ← sequence_append, ← List.map_append, List.take_append_drop]
        refine ⟨everywhere_concat kept_positive _ positiveShared sound.positive,
          fun text => ?_, fun alone text => ?_⟩
        · rw [denote_concat, sound.exact, comp_sup, wholeA, wholeB]
        · rw [single_concat, Bool.and_eq_true] at alone
          rw [wholeA, wholeB, sound.single alone.2] }
  · have light := weight_concat h4.size shared regex
    have bound := weighed.1
    obtain shorter | ⟨isAnd, shorter⟩ | ⟨empty, _⟩ := joinedShared.weight
    · have whole := light.1
      omega
    · have whole := light.2 isAnd
      omega
    · rw [List.take_eq_nil_iff] at empty
      exact absurd empty (not_or.mpr ⟨some, operands.shapeA.nonempty⟩)

/-! A common prefix of the first items. -/

/-- `common[1] & RegexAnd.join(contenta[1:])` -/
theorem rest_weight {ref : Ref} {text : List UInt8} {items : List Tree} {tail : Tree} {h h' : Heap}
    (joined : Joined h items tail h') (next : Ref) :
    (concat next (atom ref (textAtom text)) tail).1.weight ≤
      weightAll items + (atom ref (textAtom text)).part + 2 := by
  have alone : concat next (atom ref (textAtom text)) tail =
      append next (atom ref (textAtom text)) tail := rfl
  have parts := weight_le_part ref text
  rw [alone]
  obtain light | ⟨_, empty⟩ := joined.light
  · by_cases nothing : text = []
    · subst nothing
      have absorbs : absorb next (atom ref (textAtom [])) tail = some (tail, next) := by
        rw [textAtom, dif_neg (by simp), absorb]
      unfold append
      rw [absorbs]
      split
      · change (atom ref (textAtom [])).weight ≤ _
        omega
      · change tail.weight ≤ _
        omega
    · have whole := (weight_append next (atom ref (textAtom text)) tail).1
      have exact := parts.2.2 nothing
      omega
  · rw [append, if_pos empty]
    simp only
    omega

theorem tried_prefix {n : Nat} (uniting : Uniting n) {h : Heap} {a b heada headb : Tree}
    {taila tailb : List Tree} (operands : Operands h a b (heada :: taila) (headb :: tailb))
    (below : a.weight + b.weight ≤ n) {h1 : Heap} {shared resta restb : Tree}
    (prefixed : Prefixed h heada headb shared resta restb h1) :
    Tried h a b (prefixBody a.ref b.ref shared.ref resta.ref restb.ref h1) := by
  have allA := fun item member => operands.shapeA.reps operands.repA item member
  have allB := fun item member => operands.shapeB.reps operands.repB item member
  have tidyA := fun item member => operands.shapeA.everywhere operands.tidyA item member
  have tidyB := fun item member => operands.shapeB.everywhere operands.tidyB item member
  have singleA := drop_single (operands.shapeA.single operands.tidyA) 1
  have singleB := drop_single (operands.shapeB.single operands.tidyB) 1
  obtain ⟨tidyRestA, tidyRestB⟩ := prefixed.tidyRest
  obtain ⟨positiveRestA, positiveRestB⟩ := prefixed.positiveRest
  obtain ⟨refa, refb, texta, textb, shapeRestA, shapeRestB⟩ := prefixed.restTexts
  obtain ⟨h2, joinA, runsA, joinedA⟩ := @join_returns h1 taila
    (fun item member => (allA item (List.mem_cons_of_mem _ member)).extends prefixed.grown) singleA
  obtain ⟨h3, runsAndA, repA, sizeA, grownA⟩ := prepend_returns joinedA.grown
    (prefixed.repA.extends joinedA.grown) joinedA.rep (by rw [shapeRestA]; rfl)
  have grown3 := prefixed.grown.trans grownA
  obtain ⟨h4, joinB, runsB, joinedB⟩ := @join_returns h3 tailb
    (fun item member => (allB item (List.mem_cons_of_mem _ member)).extends grown3) singleB
  obtain ⟨h5, runsAndB, repB, sizeB, grownB⟩ := prepend_returns joinedB.grown
    ((prefixed.repB.extends grownA).extends joinedB.grown) joinedB.rep (by rw [shapeRestB]; rfl)
  have repA5 := repA.extends grownB
  have tidyJoinA := joinedA.everywhere _ kept_tidy (fun _ => trivial)
    fun item member => tidyA item (List.mem_cons_of_mem _ member)
  have tidyJoinB := joinedB.everywhere _ kept_tidy (fun _ => trivial)
    fun item member => tidyB item (List.mem_cons_of_mem _ member)
  have tidyRegexA := everywhere_concat kept_tidy h2.size tidyRestA tidyJoinA
  have tidyRegexB := everywhere_concat kept_tidy h4.size tidyRestB tidyJoinB
  obtain ⟨common, some, light, weighA, weighB⟩ := prefixed.weight
  have weightA := @rest_weight refa texta taila joinA h1 h2 joinedA h2.size
  have weightB := @rest_weight refb textb tailb joinB h3 h4 joinedB h4.size
  rw [← shapeRestA] at weightA
  rw [← shapeRestB] at weightB
  have wholeA := operands.shapeA.weight
  have wholeB := operands.shapeB.weight
  rw [weightAll_cons] at wholeA wholeB
  have oneAnd : 1 ≤ (if a.isAnd then 1 else 0) + (if b.isAnd then 1 else 0) := by
    obtain isAnd | isAnd := operands.either
    · rw [isAnd]
      simp
    · rw [isAnd]
      simp
  obtain ⟨h6, regex, runsOr, unites, weight, _, _⟩ := Tried.dunderOr repA5 repB tidyRegexA
    tidyRegexB (uniting h5 _ _ (by omega) tidyRegexA tidyRegexB repA5 repB)
  have grown5 := grown3.trans grownB
  have grown6 := grown5.trans unites.grown
  have repShared := ((prefixed.repShared.extends grownA).extends grownB).extends unites.grown
  obtain ⟨h7, runsAnd, rep, size, grown⟩ :=
    prepend_returns grown6 repShared unites.rep prefixed.notAnd
  have runsShared := matchSingleValue_returns repShared
  have runsRegex := matchSingleValue_returns unites.rep
  have runs : ∀ {result : Option Ref × Heap},
      Returns (fun fuel => if (shared.single || regex.single) = true then
        dunderAnd fuel shared.ref regex.ref h6 >>= fun (regex, h) =>
          Option.some (Option.some regex, h)
        else Option.some (none, h6)) result →
      Returns (prefixBody a.ref b.ref shared.ref resta.ref restb.ref h1) result := by
    intro result returns
    refine Returns.bindSome (operands.shapeA.content (operands.repA.extends prefixed.grown)) ?_
    rw [← List.map_drop]
    refine Returns.bind runsA (Returns.bind runsAndA (Returns.bindSome
      (operands.shapeB.content (operands.repB.extends grown3)) ?_))
    rw [← List.map_drop]
    refine Returns.bind runsB (Returns.bind runsAndB (Returns.bind runsOr
      (Returns.bind runsShared ?_)))
    cases one : shared.single with
    | true =>
        rw [one, Bool.true_or] at returns
        exact returns
    | false =>
        rw [one, Bool.false_or] at returns
        exact Returns.bind runsRegex returns
  cases either : shared.single || regex.single with
  | false =>
      refine .inr ⟨h6, runs ?_, grown6, operands.shapeA.notOr⟩
      simp only [either, Bool.false_eq_true, if_false]
      exact Returns.pure _
  | true =>
      refine .inl ⟨h7, (concat h6.size shared regex).1, runs ?_, ?_, ?_,
        fun wrong => absurd wrong (by simp [operands.shapeA.notOr])⟩
      · simp only [either, if_true]
        exact Returns.bind runsAnd (Returns.pure _)
      · exact {
          rep := rep
          grown := grown
          tidy := everywhere_concat kept_tidy _ prefixed.tidy unites.tidy
          count := fun r => by
            have zero := prefixed.count r
            have one := joinedA.count r
            have two := concat_between h2.size resta joinA r
            have three := joinedB.count r
            have four := concat_between h4.size restb joinB r
            have five := unites.count r
            have six := concat_between h6.size shared regex r
            rw [← sizeA] at two
            rw [← sizeB] at four
            rw [← size] at six
            have to3 : h2.size ≤ h3.size := sizeA ▸ concat_next _ _ _
            have to5 : h4.size ≤ h5.size := sizeB ▸ concat_next _ _ _
            have to7 : h6.size ≤ h7.size := size ▸ concat_next _ _ _
            have heads := operands.shapeA.count r
            have headsB := operands.shapeB.count r
            simp only [refsAll_cons, List.count_append] at heads headsB
            have steps2 := between_add prefixed.grown.grows joinedA.grown.grows r
            have steps3 := between_add (prefixed.grown.trans joinedA.grown).grows to3 r
            have steps4 := between_add grown3.grows joinedB.grown.grows r
            have steps5 := between_add (grown3.trans joinedB.grown).grows to5 r
            have steps6 := between_add grown5.grows unites.grown.grows r
            have steps7 := between_add grown6.grows to7 r
            omega
          sound := fun positiveA positiveB => by
            have itemsA := fun item member => operands.shapeA.everywhere positiveA item member
            have itemsB := fun item member => operands.shapeB.everywhere positiveB item member
            have sound := unites.sound
              (everywhere_concat kept_positive _ positiveRestA (joinedA.everywhere _ kept_positive
                (fun _ => trivial) fun item member => itemsA item (List.mem_cons_of_mem _ member)))
              (everywhere_concat kept_positive _ positiveRestB (joinedB.everywhere _ kept_positive
                (fun _ => trivial) fun item member => itemsB item (List.mem_cons_of_mem _ member)))
            have denoteA : ∀ text, a.denote anyChar text =
                Comp (heada.denote anyChar text) (joinA.denote anyChar text) := by
              intro text
              rw [operands.shapeA.denote, joinedA.denote]
              rfl
            have denoteB : ∀ text, b.denote anyChar text =
                Comp (headb.denote anyChar text) (joinB.denote anyChar text) := by
              intro text
              rw [operands.shapeB.denote, joinedB.denote]
              rfl
            have exact := sound.exact
            have same := sound.single
            simp only [denote_concat] at exact same
            refine ⟨everywhere_concat kept_positive _ prefixed.positive sound.positive,
              fun text => ?_, fun alone text => ?_⟩
            · rw [denote_concat, exact, comp_sup, denoteA, denoteB]
              obtain both | ⟨several, emptyA, emptyB, both⟩ := prefixed.denote
              · rw [(both text).1, (both text).2, comp_assoc, comp_assoc]
              · rw [several, Bool.false_or] at either
                have tails := same either text
                rw [denote_of_isEmpty _ _ emptyA, denote_of_isEmpty _ _ emptyB, eq_comp, eq_comp]
                  at tails ⊢
                rw [tails, sup_idem, both, sup_comp]
            · rw [single_concat, Bool.and_eq_true] at alone
              obtain both | ⟨several, _⟩ := prefixed.denote
              · rw [denoteA, denoteB, (both text).1, (both text).2, comp_assoc, comp_assoc,
                  same alone.2]
              · rw [several] at alone
                cases alone.1 }
      · have heavy := (weight_concat h6.size shared regex).1
        omega

theorem tried_andOr {n : Nat} (uniting : Uniting n) {h : Heap} {a b : Tree} {as bs : List Tree}
    (operands : Operands h a b as bs) (below : a.weight + b.weight ≤ n) :
    Tried h a b (andOrBody a.ref b.ref h) := by
  have contentA := operands.shapeA.content operands.repA
  have contentB := operands.shapeB.content operands.repB
  obtain ⟨index, runsIndex, insideA, insideB, same⟩ := commonItems_returns
    (operands.shapeA.reps operands.repA) (operands.shapeB.reps operands.repB)
  have runs : ∀ {result : Option Ref × Heap}, Returns (fun fuel =>
      if index ≠ 0 then commonBody a.ref b.ref index h fuel
      else do
        let heada ← (← operandContent a.ref h).head?
        let headb ← (← operandContent b.ref h).head?
        let (common, h) ← findPrefix heada headb h
        match common with
        | none => some (none, h)
        | some (shared, resta, restb) => prefixBody a.ref b.ref shared resta restb h fuel) result →
      Returns (andOrBody a.ref b.ref h) result := by
    intro result returns
    exact Returns.bindSome contentA (Returns.bindSome contentB (Returns.bind runsIndex returns))
  by_cases none : index = 0
  · subst none
    cases as with
    | nil => exact absurd rfl operands.shapeA.nonempty
    | cons heada taila =>
    cases bs with
    | nil => exact absurd rfl operands.shapeB.nonempty
    | cons headb tailb =>
    have repA := operands.shapeA.reps operands.repA heada (by simp)
    have repB := operands.shapeB.reps operands.repB headb (by simp)
    have heads : ∀ {result : Option Ref × Heap}, Returns (fun fuel =>
        findPrefix heada.ref headb.ref h >>= fun (common, h) =>
          match common with
          | none => some (none, h)
          | some (shared, resta, restb) =>
              prefixBody a.ref b.ref shared resta restb h fuel) result →
        Returns (andOrBody a.ref b.ref h) result := by
      intro result returns
      refine runs ?_
      simp only [ne_eq, not_true_eq_false, if_false]
      exact Returns.bindSome contentA (Returns.bindSome rfl
        (Returns.bindSome contentB (Returns.bindSome rfl returns)))
    obtain nothing | ⟨h1, shared, resta, restb, found, prefixed⟩ := findPrefix_returns repA repB
    · exact .inr ⟨h, heads (Returns.bindSome nothing (Returns.pure _)),
        Heap.KeepsBut.refl _ h, operands.shapeA.notOr⟩
    · obtain ⟨h', whole, returns, rest⟩ | ⟨h', returns, rest⟩ :=
        tried_prefix uniting operands below prefixed
      · exact .inl ⟨h', whole, heads (Returns.bindSome found returns), rest⟩
      · exact .inr ⟨h', heads (Returns.bindSome found returns), rest⟩
  · obtain ⟨h', whole, returns, rest⟩ | ⟨h', returns, rest⟩ :=
      tried_common uniting operands below none insideA insideB same
    · refine .inl ⟨h', whole, runs ?_, rest⟩
      simp only [ne_eq, none, not_false_eq_true, if_true]
      exact returns
    · refine .inr ⟨h', runs ?_, rest⟩
      simp only [ne_eq, none, not_false_eq_true, if_true]
      exact returns

end Tree

end Segvault.HachoirRegex
