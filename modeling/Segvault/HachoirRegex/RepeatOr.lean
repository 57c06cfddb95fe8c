import Segvault.HachoirRegex.Repeat
import Segvault.HachoirRegex.UnionSound

namespace Segvault.HachoirRegex

open Relation Spans

namespace Tree

/-! A repeat of an alternative. -/

/-- A node as the constructors build it; every RegexRepeat has a regex. -/
def NodeConstructed : Tree → Prop
  | atom _ leaf => ∀ min max, leaf ≠ .regexRepeatNone min max
  | regexAnd _ init _ => init ≠ []
  | regexOr _ content => 2 ≤ content.length
  | regexRepeat _ _ min max => Accepted min max

abbrev Constructed : Tree → Prop := Everywhere NodeConstructed

/-- A RegexRepeat with the minimum zero. -/
def fromZero : Tree → Bool
  | regexRepeat _ _ 0 _ => true
  | _ => false

/-- What optimizeRepeatOr makes of an item; None for a RegexEmpty. -/
def optimized (rmin : Nat) (rmax : Option Nat) (next : Ref) : Tree → Option Tree
  | atom _ .regexEmpty => none
  | regexRepeat ref regex min max =>
      if min = 0 then
        if rmin = 0 ∨ rmin = 1 then
          if rmax = max ∧ max = none then some regex
          else some (regexRepeat next regex 1 max)
        else some (regexRepeat ref regex min max)
      else if min = 1 then
        if rmax = max ∧ max = none then some regex
        else some (regexRepeat ref regex min max)
      else if rmax = max ∧ max = none then some (regexRepeat next regex min (some min))
      else some (regexRepeat ref regex min max)
  | t => some t

/-- An item `x{0,1}`, of which optimizeRepeatOr makes `x{1,1}`. -/
def Once (rmin : Nat) : Tree → Prop
  | regexRepeat _ _ 0 (some 1) => rmin = 0 ∨ rmin = 1
  | _ => False

theorem repeatParts_none {t : Tree} (constructed : t.NodeConstructed)
    (other : ∀ ref regex min max, t ≠ regexRepeat ref regex min max) :
    repeatParts t.node = none := by
  cases t with
  | atom ref leaf =>
      cases leaf with
      | regexRepeatNone min max => exact absurd rfl (constructed min max)
      | _ => rfl
  | regexRepeat ref regex min max => exact absurd rfl (other ref regex min max)
  | _ => rfl

theorem fixedMin_eq (rmin : Nat) {items : List Tree}
    (constructed : ∀ item ∈ items, item.NodeConstructed) :
    fixedMin rmin (items.map node) =
      if items.any isEmpty ∨ (rmin = 1 ∧ items.any fromZero) then 0 else rmin := by
  induction items generalizing rmin with
  | nil => simp [fixedMin]
  | cons item items induction =>
      have rest := fun rmin => induction rmin fun other member =>
        constructed other (List.mem_cons_of_mem _ member)
      have here := constructed item (by simp)
      cases item with
      | atom ref leaf =>
          cases leaf with
          | regexEmpty => simp [fixedMin, node, rest, isEmpty]
          | regexRepeatNone min max => exact absurd rfl (here min max)
          | _ => simp [fixedMin, node, rest, isEmpty, fromZero, repeatParts]
      | regexRepeat ref regex min max =>
          simp only [List.map_cons, node, fixedMin, repeatParts, rest, List.any_cons, isEmpty,
            Bool.false_or]
          cases min with
          | zero =>
              by_cases one : rmin = 1 <;> simp [one, fromZero]
          | succ min => simp [fromZero]
      | _ => simp [fixedMin, node, rest, isEmpty, fromZero, repeatParts]

theorem optimizedItem_repeat {h : Heap} {ref inner : Ref} {min : Nat} {max : Option Nat}
    (here : h.node? ref = some (.regexRepeat inner min max)) (rmin : Nat) (rmax : Option Nat) :
    optimizedItem rmin rmax ref h =
      if min = 0 then
        if rmin = 0 ∨ rmin = 1 then
          if rmax = max ∧ max = none then pure (some (some inner), h)
          else do
            let (new, h) ←
              (plainRepeat (some inner) 1 max h : Except String (Ref × Heap))
            pure (some (some new), h)
        else pure (some (some ref), h)
      else if min = 1 then
        if rmax = max ∧ max = none then pure (some (some inner), h)
        else pure (some (some ref), h)
      else if rmax = max ∧ max = none then do
        let (new, h) ←
          (plainRepeat (some inner) min (some min) h : Except String (Ref × Heap))
        pure (some (some new), h)
      else pure (some (some ref), h) := by
  unfold optimizedItem
  rw [here]
  rfl

/-- `x{0,1}` has no repeat `x{1,1}`. -/
theorem optimizedItem_once {h : Heap} {item : Tree} (rep : item.Rep h) {rmin : Nat}
    (rmax : Option Nat) (once : item.Once rmin) :
    ∃ text, (optimizedItem rmin rmax item.ref h).run = some (.error text) := by
  cases item with
  | regexRepeat ref regex min max =>
      rcases min with _ | min
      · rcases max with _ | _ | _ | max
        · cases once
        · cases once
        · have once : rmin = 0 ∨ rmin = 1 := once
          change ∃ text, (optimizedItem rmin rmax ref h).run = some (.error text)
          rw [optimizedItem_repeat rep.1, if_pos rfl, if_pos once, if_neg (by simp)]
          exact ⟨_, rfl⟩
        · cases once
      · cases once
  | _ => cases once

/-- A run that returns `new`, held by the heap that it leaves. -/
def Makes (h : Heap) (run : Raising (Option (Option Ref) × Heap)) (new : Option Tree) : Prop :=
  ∃ h', run.run = some (.ok (new.map fun new => some new.ref, h')) ∧ h.Extends h' ∧
    ∀ tree ∈ new, tree.Rep h'

theorem makes_old {h : Heap} {t : Tree} (rep : t.Rep h) :
    Makes h (pure (some (some t.ref), h)) (some t) :=
  ⟨h, rfl, Heap.KeepsBut.refl _ h, fun _ member => Option.mem_some_iff.mp member ▸ rep⟩

theorem makes_repeat {h : Heap} {regex : Tree} (rep : regex.Rep h) {low : Nat}
    {high : Option Nat} (accepted : Accepted low high) :
    Makes h (do
      let (new, h) ← (plainRepeat (some regex.ref) low high h : Except String (Ref × Heap))
      pure (some (some new), h)) (some (regexRepeat h.size regex low high)) := by
  rw [plainRepeat_ok accepted]
  exact ⟨_, rfl, h.new_extends _, fun _ member =>
    Option.mem_some_iff.mp member ▸ (newRepeat_rep rep low high).2⟩

theorem optimizedItem_other {h : Heap} {item : Tree} (rep : item.Rep h)
    (constructed : item.Constructed) (rmin : Nat) (rmax : Option Nat)
    (other : ∀ ref regex min max, item ≠ regexRepeat ref regex min max) :
    Makes h (optimizedItem rmin rmax item.ref h) (item.optimized rmin rmax h.size) := by
  have parts := repeatParts_none constructed.here other
  unfold optimizedItem
  rw [rep.here]
  cases item with
  | atom ref leaf =>
      cases leaf with
      | regexEmpty => exact ⟨h, rfl, Heap.KeepsBut.refl _ h, fun _ member => by cases member⟩
      | regexRepeatNone min max => exact absurd rfl (constructed.here min max)
      | _ => exact makes_old rep
  | regexRepeat ref regex min max => exact absurd rfl (other ref regex min max)
  | _ => exact makes_old rep

/-- The heap holds what optimizeRepeatOr makes of an item. -/
theorem optimizedItem_returns {h : Heap} {item : Tree} (rep : item.Rep h)
    (constructed : item.Constructed) {rmin : Nat} (rmax : Option Nat)
    (several : ¬ item.Once rmin) :
    Makes h (optimizedItem rmin rmax item.ref h) (item.optimized rmin rmax h.size) := by
  cases item with
  | regexRepeat ref regex min max =>
      have accepted : Accepted min max := constructed.here
      have old : Makes h (pure (some (some ref), h)) (some (regexRepeat ref regex min max)) :=
        makes_old rep
      change Makes h (optimizedItem rmin rmax ref h) _
      rw [optimizedItem_repeat rep.1, optimized]
      by_cases zero : min = 0
      · subst zero
        rw [if_pos rfl, if_pos rfl]
        by_cases low : rmin = 0 ∨ rmin = 1
        · rw [if_pos low, if_pos low]
          by_cases endless : rmax = max ∧ max = none
          · rw [if_pos endless, if_pos endless]
            exact makes_old rep.2
          · rw [if_neg endless, if_neg endless]
            refine makes_repeat rep.2 fun bound below => ?_
            have positive := (accepted bound below).2.1
            refine ⟨Nat.one_le_iff_ne_zero.mpr positive, positive, fun ⟨_, one⟩ => ?_⟩
            subst one
            cases below
            exact several low
        · rw [if_neg low, if_neg low]
          exact old
      · rw [if_neg zero, if_neg zero]
        by_cases one : min = 1
        · rw [if_pos one, if_pos one]
          by_cases endless : rmax = max ∧ max = none
          · rw [if_pos endless, if_pos endless]
            exact makes_old rep.2
          · rw [if_neg endless, if_neg endless]
            exact old
        · rw [if_neg one, if_neg one]
          by_cases endless : rmax = max ∧ max = none
          · rw [if_pos endless, if_pos endless]
            refine makes_repeat rep.2 fun bound below => ?_
            cases below
            exact ⟨Nat.le_refl _, zero, fun ⟨_, single⟩ => one single⟩
          · rw [if_neg endless, if_neg endless]
            exact old
  | _ => exact optimizedItem_other rep constructed rmin rmax fun _ _ _ _ same => by cases same

/-! All items. -/

theorem bare_optimized (rmin : Nat) (rmax : Option Nat) (next : Ref) (item : Tree) :
    (item.optimized rmin rmax next).map bare = (item.optimized rmin rmax 0).map bare := by
  cases item with
  | atom ref leaf => cases leaf <;> rfl
  | regexRepeat ref regex min max =>
      rw [optimized, optimized]
      split_ifs <;> rfl
  | _ => rfl

theorem everywhere_optimized {holds : Tree → Prop} (repeats : ∀ ref regex min max,
      holds (regexRepeat ref regex min max)) {item : Tree} (all : Everywhere holds item)
    (rmin : Nat) (rmax : Option Nat) (next : Ref) :
    ∀ new ∈ item.optimized rmin rmax next, Everywhere holds new := by
  intro new member
  cases item with
  | atom ref leaf =>
      cases leaf with
      | regexEmpty => cases member
      | _ => exact Option.mem_some_iff.mp member ▸ all
  | regexRepeat ref regex min max =>
      have inner : Everywhere holds regex := all.child (List.mem_singleton.mpr rfl)
      have fresh : ∀ low high, Everywhere holds (regexRepeat next regex low high) :=
        fun low high => everywhere_iff.mpr ⟨repeats _ _ _ _, fun other inside =>
          List.mem_singleton.mp inside ▸ inner⟩
      rw [optimized] at member
      split_ifs at member <;> cases member
      all_goals first | exact all | exact inner | exact fresh _ _
  | _ => exact Option.mem_some_iff.mp member ▸ all

theorem optimizedItems_once {h : Heap} {items : List Tree} (reps : ∀ item ∈ items, item.Rep h)
    (constructed : ∀ item ∈ items, item.Constructed) {rmin : Nat} (rmax : Option Nat)
    (once : ∃ item ∈ items, item.Once rmin) :
    ∃ text, (optimizedItems rmin rmax (items.map ref) h).run = some (.error text) := by
  induction items generalizing h with
  | nil =>
      obtain ⟨item, member, _⟩ := once
      cases member
  | cons item items induction =>
      have rep := reps item (by simp)
      by_cases here : item.Once rmin
      · obtain ⟨text, raised⟩ := optimizedItem_once rep rmax here
        exact ⟨text, Returns.run_raises raised⟩
      · obtain ⟨h', returned, grown, _⟩ :=
          optimizedItem_returns rep (constructed item (by simp)) rmax here
        have later : ∃ item ∈ items, item.Once rmin := by
          obtain ⟨other, member, once⟩ := once
          obtain rfl | member := List.mem_cons.mp member
          · exact absurd once here
          · exact ⟨other, member, once⟩
        obtain ⟨text, raised⟩ := induction
          (fun other member => (reps other (List.mem_cons_of_mem _ member)).extends grown)
          (fun other member => constructed other (List.mem_cons_of_mem _ member)) later
        refine ⟨text, ?_⟩
        rw [List.map_cons, optimizedItems, Returns.run_bind returned]
        exact Returns.run_raises raised

/-- What optimizeRepeatOr makes of the items of an alternative. -/
theorem optimizedItems_returns {h : Heap} {items : List Tree} (reps : ∀ item ∈ items, item.Rep h)
    (constructed : ∀ item ∈ items, item.Constructed) {rmin : Nat} (rmax : Option Nat)
    (several : ∀ item ∈ items, ¬ item.Once rmin) :
    ∃ (h' : Heap) (content : List Tree), (optimizedItems rmin rmax (items.map ref) h).run =
        some (.ok (content.map fun new => some new.ref, h')) ∧
      h.Extends h' ∧ (∀ new ∈ content, new.Rep h') ∧
      content.map bare = (items.filterMap (optimized rmin rmax 0)).map bare ∧
      ∀ holds : Tree → Prop, (∀ ref regex min max, holds (regexRepeat ref regex min max)) →
        (∀ item ∈ items, Everywhere holds item) → ∀ new ∈ content, Everywhere holds new := by
  induction items generalizing h with
  | nil => exact ⟨h, [], rfl, Heap.KeepsBut.refl _ h, by simp, rfl, by simp⟩
  | cons item items induction =>
      obtain ⟨h1, returned, grown1, reps1⟩ := optimizedItem_returns (reps item (by simp))
        (constructed item (by simp)) rmax (several item (by simp))
      obtain ⟨h', content, returnedRest, grown, repsRest, bareRest, rest⟩ := induction
        (fun other member => (reps other (List.mem_cons_of_mem _ member)).extends grown1)
        (fun other member => constructed other (List.mem_cons_of_mem _ member))
        (fun other member => several other (List.mem_cons_of_mem _ member))
      have bareItem := bare_optimized rmin rmax h.size item
      refine ⟨h', (item.optimized rmin rmax h.size).toList ++ content, ?_, grown1.trans grown,
        ?_, ?_, ?_⟩
      · rw [List.map_cons, optimizedItems, Returns.run_bind returned,
          Returns.run_bind returnedRest]
        cases item.optimized rmin rmax h.size <;> rfl
      · intro new member
        obtain inItem | inRest := List.mem_append.mp member
        · exact (reps1 new (Option.mem_toList.mp inItem)).extends grown
        · exact repsRest new inRest
      · rw [List.map_append, bareRest, List.filterMap_cons]
        cases first : item.optimized rmin rmax h.size with
        | none =>
            rw [first, Option.map_none, eq_comm, Option.map_eq_none_iff] at bareItem
            rw [bareItem]
            rfl
        | some new =>
            rw [first, Option.map_some, eq_comm, Option.map_eq_some_iff] at bareItem
            obtain ⟨other, here, same⟩ := bareItem
            rw [here]
            simp [same]
      · intro holds repeats all new member
        obtain inItem | inRest := List.mem_append.mp member
        · exact everywhere_optimized repeats (all item (by simp)) rmin rmax h.size new
            (Option.mem_toList.mp inItem)
        · exact rest holds repeats (fun other member => all other (List.mem_cons_of_mem _ member))
            new inRest

/-! `RegexOr.join` -/

theorem orJoinItems_returns {h : Heap} {first : Tree} {items : List Tree} (rep : first.Rep h)
    (reps : ∀ item ∈ items, item.Rep h) (tidy : first.Tidy)
    (tidyAll : ∀ item ∈ items, item.Tidy) :
    ∃ (h' : Heap) (whole : Tree), Returns (fun fuel =>
        (orJoinItems fuel (some first.ref) (items.map fun item => some item.ref) h).run)
        (.ok (some whole.ref, h')) ∧
      whole.Rep h' ∧ h.Extends h' ∧ whole.Tidy ∧
      (first.Positive → (∀ item ∈ items, item.Positive) → whole.Positive ∧
        ∀ text, whole.denote anyChar text =
          choice ((first :: items).map (denote anyChar text))) := by
  induction items generalizing h first with
  | nil =>
      exact ⟨h, first, Returns.pure _, rep, Heap.KeepsBut.refl _ h, tidy,
        fun positive _ => ⟨positive, fun text => (choice_singleton _).symm⟩⟩
  | cons item items induction =>
      obtain ⟨h1, next, runs, unites⟩ := dunderOr_returns rep (reps item (by simp)) tidy
        (tidyAll item (by simp))
      obtain ⟨h', whole, returns, repWhole, grown, tidyWhole, exact⟩ := induction unites.rep
        (fun other member => (reps other (List.mem_cons_of_mem _ member)).extends unites.grown)
        unites.tidy (fun other member => tidyAll other (List.mem_cons_of_mem _ member))
      refine ⟨h', whole, ?_, repWhole, unites.grown.trans grown, tidyWhole,
        fun positive positiveAll => ?_⟩
      · have step : Returns (fun fuel =>
            (orOptional fuel (some first.ref) (some item.ref) h).run)
            (.ok (some next.ref, h1)) := Returns.tryBind (Returns.lifted runs) (Returns.pure _)
        exact Returns.tryBind step returns
      · have sound := unites.sound positive (positiveAll item (by simp))
        obtain ⟨positiveWhole, whole⟩ := exact sound.positive
          fun other member => positiveAll other (List.mem_cons_of_mem _ member)
        refine ⟨positiveWhole, fun text => ?_⟩
        rw [whole, List.map_cons, List.map_cons, List.map_cons, choice_cons, choice_cons,
          choice_cons, sound.exact, sup_assoc]

/-- What `RegexOr.join` matches: no items match the empty text. -/
def joinDenote (items : List Tree) (text : List UInt8) : Position text → Position text → Prop :=
  if items = [] then Eq else choice (items.map (denote anyChar text))

theorem orJoin_returns {h : Heap} {items : List Tree} (reps : ∀ item ∈ items, item.Rep h)
    (tidy : ∀ item ∈ items, item.Tidy) :
    ∃ (h' : Heap) (whole : Tree), Returns (fun fuel =>
        (orJoin fuel (items.map fun item => some item.ref) h).run)
        (.ok (some whole.ref, h')) ∧
      whole.Rep h' ∧ h.Extends h' ∧ whole.Tidy ∧
      ((∀ item ∈ items, item.Positive) → ∀ text, whole.denote anyChar text =
        joinDenote items text) := by
  cases items with
  | nil =>
      exact ⟨_, atom h.size .regexEmpty, Returns.pure _, h.new_node? _, h.new_extends _,
        everywhere_atom trivial, fun _ text => rfl⟩
  | cons first items =>
      obtain ⟨h', whole, returns, rep, grown, tidyWhole, exact⟩ := orJoinItems_returns
        (reps first (by simp)) (fun item member => reps item (List.mem_cons_of_mem _ member))
        (tidy first (by simp)) (fun item member => tidy item (List.mem_cons_of_mem _ member))
      refine ⟨h', whole, returns, rep, grown, tidyWhole, fun positive text => ?_⟩
      rw [(exact (positive first (by simp))
        fun item member => positive item (List.mem_cons_of_mem _ member)).2, joinDenote,
        if_neg (List.cons_ne_nil _ _)]

theorem joinDenote_of_bare {first second : List Tree} (same : first.map bare = second.map bare)
    (text : List UInt8) : joinDenote first text = joinDenote second text := by
  have empty : first = [] ↔ second = [] := by
    rw [← List.map_eq_nil_iff (f := bare), same, List.map_eq_nil_iff]
  by_cases none : second = []
  · rw [joinDenote, joinDenote, if_pos (empty.mpr none), if_pos none]
  · rw [joinDenote, joinDenote, if_neg fun first => none (empty.mp first), if_neg none,
      denotes_of_bare same]

/-! optimizeRepeatOr -/

/-- The minimum that optimizeRepeatOr returns. -/
def low (rmin : Nat) (items : List Tree) : Nat :=
  if items.any isEmpty ∨ (rmin = 1 ∧ items.any fromZero) then 0 else rmin

/-- What optimizeRepeatOr joins. -/
def kept (rmin : Nat) (rmax : Option Nat) (items : List Tree) : List Tree :=
  items.filterMap (optimized (low rmin items) rmax 0)

theorem mapM_node {h : Heap} {items : List Tree} (reps : ∀ item ∈ items, item.Rep h) :
    (items.map ref).mapM h.node? = some (items.map node) := by
  induction items with
  | nil => rfl
  | cons item items induction =>
      rw [List.map_cons, List.mapM_cons, (reps item (by simp)).here,
        induction fun other member => reps other (List.mem_cons_of_mem _ member)]
      rfl

section OptimizeRepeatOr

variable {h : Heap} {self : Ref} {content : List Tree} (rep : (regexOr self content).Rep h)
  (constructed : (regexOr self content).Constructed) (rmin : Nat) (rmax : Option Nat)
include rep constructed

theorem optimizeRepeatOr_step (fuel : Nat) :
    (optimizeRepeatOr fuel rmin rmax (content.map ref) h).run =
      (optimizedItems (low rmin content) rmax (content.map ref) h >>= fun (items, h) =>
        orJoin fuel items h >>= fun (regex, h) =>
          pure (low rmin content, rmax, regex, h)).run := by
  have nodes : (liftM ((content.map ref).mapM h.node?) : Raising (List Node)).run =
      some (.ok (content.map node)) := by
    rw [mapM_node (repAll_iff.mp rep.2)]
    rfl
  have fixed : fixedMin rmin (content.map node) = low rmin content :=
    fixedMin_eq rmin fun item member =>
      (constructed.child (t := regexOr self content) member).here
  rw [optimizeRepeatOr, Returns.run_bind nodes, fixed]

theorem optimizeRepeatOr_once (once : ∃ item ∈ content, item.Once (low rmin content)) :
    ∃ text, Returns (fun fuel => (optimizeRepeatOr fuel rmin rmax (content.map ref) h).run)
      (.error text) := by
  obtain ⟨text, raised⟩ := optimizedItems_once (repAll_iff.mp rep.2)
    (fun item member => constructed.child member) rmax once
  refine ⟨text, Returns.congr (optimizeRepeatOr_step rep constructed rmin rmax) ?_⟩
  exact Returns.congr (fun fuel => Returns.run_raises raised) (Returns.pure _)

theorem optimizeRepeatOr_returns (tidy : (regexOr self content).Tidy)
    (several : ∀ item ∈ content, ¬ item.Once (low rmin content)) :
    ∃ (h' : Heap) (whole : Tree), Returns (fun fuel =>
        (optimizeRepeatOr fuel rmin rmax (content.map ref) h).run)
        (.ok (low rmin content, rmax, some whole.ref, h')) ∧
      whole.Rep h' ∧ h.Extends h' ∧ whole.Tidy ∧
      ((regexOr self content).Positive → ∀ text, whole.denote anyChar text =
        joinDenote (kept rmin rmax content) text) := by
  obtain ⟨h1, items, returned, grown1, reps, bare, all⟩ := optimizedItems_returns
    (repAll_iff.mp rep.2) (fun item member => constructed.child member) rmax several
  obtain ⟨h', whole, returns, repWhole, grown, tidyWhole, exact⟩ := orJoin_returns reps
    (all _ (fun _ _ _ _ => trivial) fun item member => tidy.child member)
  refine ⟨h', whole, Returns.congr (optimizeRepeatOr_step rep constructed rmin rmax) ?_,
    repWhole, grown1.trans grown, tidyWhole, fun positive text => ?_⟩
  · refine Returns.congr (fun fuel => Returns.run_bind returned) ?_
    exact Returns.tryBind returns (Returns.pure _)
  · rw [exact (all _ (fun _ _ _ _ => trivial) fun item member => positive.child member),
      joinDenote_of_bare bare, kept]

end OptimizeRepeatOr

/-- `x{0,1}` -/
def optional : Tree → Bool
  | regexRepeat _ _ 0 (some 1) => true
  | _ => false

/-- An alternative with an item `x{0,1}`, repeated from zero or one on. -/
def OptionalInOr (rmin : Nat) : Tree → Prop
  | regexOr _ content =>
      (∃ item ∈ content, item.optional = true) ∧
        (rmin ≤ 1 ∨ ∃ item ∈ content, item.isEmpty = true)
  | _ => False

theorem once_iff {low : Nat} {item : Tree} :
    item.Once low ↔ item.optional = true ∧ (low = 0 ∨ low = 1) := by
  cases item with
  | regexRepeat ref regex min max =>
      rcases min with _ | min
      · rcases max with _ | _ | _ | max <;> simp [Once, optional]
      · simp [Once, optional]
  | _ => simp [Once, optional]

theorem fromZero_of_optional {item : Tree} (optional : item.optional = true) :
    item.fromZero = true := by
  cases item with
  | regexRepeat ref regex min max =>
      cases min with
      | zero => rfl
      | succ min => cases optional
  | _ => cases optional

theorem once_in_or_iff (rmin : Nat) (ref : Ref) (content : List Tree) :
    (∃ item ∈ content, item.Once (low rmin content)) ↔
      (regexOr ref content).OptionalInOr rmin := by
  simp only [once_iff, OptionalInOr]
  constructor
  · rintro ⟨item, member, optional, small⟩
    refine ⟨⟨item, member, optional⟩, ?_⟩
    by_cases empty : ∃ other ∈ content, other.isEmpty = true
    · exact .inr empty
    · rw [low] at small
      left
      split at small
      · rename_i either
        obtain empty' | ⟨one, _⟩ := either
        · exact absurd (List.any_eq_true.mp empty') empty
        · omega
      · omega
  · rintro ⟨⟨item, member, optional⟩, either⟩
    have zero : content.any fromZero = true :=
      List.any_eq_true.mpr ⟨item, member, fromZero_of_optional optional⟩
    refine ⟨item, member, optional, ?_⟩
    rw [low]
    split
    · exact .inl rfl
    · rename_i neither
      obtain small | empty := either
      · omega
      · exact absurd (.inl (List.any_eq_true.mpr empty)) neither

theorem accepted_low {rmin : Nat} {rmax : Option Nat} (accepted : Accepted rmin rmax)
    (content : List Tree) : Accepted (low rmin content) rmax := by
  rw [low]
  split
  · intro bound below
    exact ⟨Nat.zero_le _, (accepted bound below).2.1, fun ⟨zero, one⟩ => by omega⟩
  · exact accepted

end Tree

theorem regexRepeat_of_or {h : Heap} {ref : Ref} {content : List Ref}
    (here : h.node? ref = some (.regexOr content)) (rmin : Nat) (rmax : Option Nat)
    (fuel : Nat) :
    regexRepeat fuel (some ref) rmin rmax h =
      optimizeRepeatOr fuel rmin rmax content h >>= fun (rmin, rmax, regex, h) =>
        (plainRepeat regex rmin rmax h : Except String (Ref × Heap)) := by
  unfold regexRepeat
  simp only [here]
  rfl

theorem regexRepeat_of_other {h : Heap} {ref : Ref} {node : Node} (here : h.node? ref = some node)
    (notOr : ∀ content, node ≠ .regexOr content) (parts : repeatParts node = none) (rmin : Nat)
    (rmax : Option Nat) (fuel : Nat) :
    regexRepeat fuel (some ref) rmin rmax h = some (plainRepeat (some ref) rmin rmax h) := by
  unfold regexRepeat
  simp only [here]
  cases node with
  | regexOr content => exact absurd rfl (notOr content)
  | regexRepeat regex min max => cases parts
  | regexAnd content => rfl
  | atom leaf =>
      cases leaf with
      | regexRepeatNone min max => cases parts
      | _ => rfl

section Builds

variable {h : Heap} {t : Tree} (rep : t.Rep h) (constructed : t.Constructed) {rmin : Nat}
  {rmax : Option Nat}
include rep constructed

theorem regexRepeat_raises (optional : t.OptionalInOr rmin) :
    ∃ text, Returns (fun fuel => (regexRepeat fuel (some t.ref) rmin rmax h).run)
      (.error text) := by
  cases t with
  | regexOr ref content =>
      obtain ⟨text, raises⟩ := Tree.optimizeRepeatOr_once rep constructed rmin rmax
        ((Tree.once_in_or_iff rmin ref content).mpr optional)
      exact ⟨text, Returns.congr (fun fuel => congrArg ExceptT.run
        (regexRepeat_of_or rep.1 rmin rmax fuel)) (Returns.raises raises)⟩
  | _ => cases optional

theorem regexRepeat_builds (tidy : t.Tidy) (accepted : Accepted rmin rmax)
    (several : ¬ t.OptionalInOr rmin) :
    ∃ result, Returns (fun fuel => (regexRepeat fuel (some t.ref) rmin rmax h).run)
      (.ok result) := by
  have other : (∀ content, t.node ≠ .regexOr content) → repeatParts t.node = none →
      ∃ result, Returns (fun fuel => (regexRepeat fuel (some t.ref) rmin rmax h).run)
        (.ok result) := by
    intro notOr parts
    have step := regexRepeat_of_other rep.here notOr parts rmin rmax
    rw [plainRepeat_ok accepted] at step
    exact ⟨_, Returns.congr step (Returns.pure _)⟩
  cases t with
  | atom ref leaf =>
      exact other (fun _ same => by cases same)
        (Tree.repeatParts_none constructed.here fun _ _ _ _ same => by cases same)
  | regexAnd ref init last => exact other (fun _ same => by cases same) rfl
  | regexRepeat ref regex min max =>
      have step := regexRepeat_of_repeat rep.1 rmin rmax
      have inner : Accepted min max := constructed.here
      rw [productMax_eq inner accepted, plainRepeat_ok accepted,
        plainRepeat_ok (accepted_product inner accepted)] at step
      by_cases once : rmin = 0 ∧ rmax = some 1
      · rw [if_pos once] at step
        exact ⟨_, Returns.congr step (Returns.pure _)⟩
      · rw [if_neg once] at step
        exact ⟨_, Returns.congr step (Returns.pure _)⟩
  | regexOr ref content =>
      obtain ⟨h', whole, returns, _⟩ := Tree.optimizeRepeatOr_returns rep constructed rmin rmax
        tidy fun item member once =>
          several ((Tree.once_in_or_iff rmin ref content).mp ⟨item, member, once⟩)
      refine ⟨newRepeat (some whole.ref) (Tree.low rmin content) rmax h',
        Returns.congr (fun fuel => congrArg ExceptT.run
          (regexRepeat_of_or rep.1 rmin rmax fuel)) (Returns.tryBind returns ?_)⟩
      simp only [plainRepeat_ok (Tree.accepted_low accepted content)]
      exact Returns.pure _

end Builds

/-! `(a{min,max}|b)` -/

def repeatOrHeap (min : Nat) (max : Option Nat) : Heap :=
  Heap.ofNodes [.atom (.regexString [97] a_nonempty), .regexRepeat 0 min max,
    .atom (.regexString [98] b_nonempty), .regexOr [1, 2]]

def repeatOrTree (min : Nat) (max : Option Nat) : Tree :=
  .regexOr 3 [.regexRepeat 1 (.atom 0 (.regexString [97] a_nonempty)) min max,
    .atom 2 (.regexString [98] b_nonempty)]

section RepeatOr

variable {min : Nat} {max : Option Nat}

theorem repeatOr_rep : (repeatOrTree min max).Rep (repeatOrHeap min max) :=
  ⟨rfl, ⟨rfl, rfl⟩, rfl, trivial⟩

theorem repeatOr_everywhere {holds : Tree → Prop} (here : holds (repeatOrTree min max))
    (repeats : ∀ ref regex, holds (.regexRepeat ref regex min max))
    (strings : ∀ ref text nonempty, holds (.atom ref (.regexString text nonempty))) :
    Tree.Everywhere holds (repeatOrTree min max) := by
  refine Tree.everywhere_iff.mpr ⟨here, fun item member => ?_⟩
  obtain isRepeat | isString := List.mem_cons.mp member
  · subst isRepeat
    refine Tree.everywhere_iff.mpr ⟨repeats _ _, fun inner inside => ?_⟩
    exact List.mem_singleton.mp inside ▸ Tree.everywhere_atom (strings _ _ _)
  · exact List.mem_singleton.mp isString ▸ Tree.everywhere_atom (strings _ _ _)

theorem repeatOr_constructed (accepted : Accepted min max) :
    (repeatOrTree min max).Constructed :=
  repeatOr_everywhere (Nat.le_refl 2) (fun _ _ => accepted) fun _ _ _ _ _ same => by cases same

theorem repeatOr_tidy : (repeatOrTree min max).Tidy :=
  repeatOr_everywhere (Nat.le_refl 2) (fun _ _ => trivial) fun _ _ _ => trivial

theorem repeatOr_positive : (repeatOrTree min max).Positive :=
  repeatOr_everywhere trivial (fun _ _ => trivial) fun _ _ _ => trivial

theorem accepted_endless (least : Nat) : Accepted least none :=
  fun _ below => by cases below

theorem accepted_optional : Accepted 0 (some 1) := by
  intro bound below
  cases below
  decide

end RepeatOr

end Segvault.HachoirRegex
