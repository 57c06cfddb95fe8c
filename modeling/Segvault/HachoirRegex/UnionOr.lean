import Segvault.HachoirRegex.UnionAnd

namespace Segvault.HachoirRegex

open Relation Spans

namespace Tree

/-! An alternative with one more regex. -/

/-- `RegexOr(items, optimize=False)` for items that match what the operands do. -/
theorem unites_or {h h' : Heap} {a b : Tree} {items : List Tree} (grown : h.Extends h')
    (reps : ∀ item ∈ items, item.Rep h') (tidy : ∀ item ∈ items, item.Tidy)
    (several : 2 ≤ items.length)
    (count : ∀ r, (refsAll items).count r ≤
      a.refs.count r + b.refs.count r + between h.size h'.size r)
    (sound : a.Positive → b.Positive → (∀ item ∈ items, item.Positive) ∧
      ∀ text, choice (items.map (denote anyChar text)) =
        a.denote anyChar text ⊔ b.denote anyChar text) :
    Unites h a b (regexOr h'.size items) (h'.new (.regexOr (items.map ref))).2 where
  rep := by
    have grows := h'.new_extends (.regexOr (items.map ref))
    exact ⟨h'.new_node? _, repAll_iff.mpr fun item member => (reps item member).extends grows⟩
  grown := grown.trans (h'.new_extends _)
  tidy := everywhere_iff.mpr ⟨several, tidy⟩
  count r := by
    have one := count_cons_next h'.size r (refsAll items)
    have parts := between_add grown.grows (Nat.le_add_right h'.size 1) r
    have inside := count r
    rw [Heap.new_size]
    simp only [refs]
    omega
  sound positiveA positiveB := by
    obtain ⟨positive, exact⟩ := sound positiveA positiveB
    refine ⟨everywhere_iff.mpr ⟨trivial, positive⟩, fun text => ?_, fun wrong => by cases wrong⟩
    rw [denote_regexOr, exact]

theorem orEach_nil {h : Heap} {self other : Ref} {content : List Ref}
    (here : h.content? self = some content) (index : Nat) (reverse : Bool) (fuel : Nat) :
    orEach (fuel + 1) [] index self other reverse h =
      some (h.new (.regexOr (if reverse then other :: content else content ++ [other]))) := by
  rewrite [orEach, here]
  cases reverse <;> rfl

theorem orEach_cons (item : Ref) (rest : List Ref) (index : Nat) (self other : Ref)
    (reverse : Bool) (h : Heap) (fuel : Nat) :
    orEach (fuel + 1) (item :: rest) index self other reverse h =
      or_ fuel item other h >>= fun (newItem, h) =>
        match newItem with
        | some newItem => do
            let content ← h.content? self
            some (h.new (.regexOr
              (content.take index ++ [newItem] ++ content.drop (index + 1))))
        | none => orEach fuel rest (index + 1) self other reverse h := by
  rewrite [orEach]
  rfl

section Each

variable {n : Nat} (uniting : Uniting n) {h : Heap} {self : Ref} {content : List Tree} {b : Tree}
  (repSelf : (regexOr self content).Rep h) (tidySelf : (regexOr self content).Tidy)
  (repb : b.Rep h) (tidyb : b.Tidy)

include repSelf in
theorem content_self {h' : Heap} (grown : h.Extends h') :
    h'.content? self = some (content.map ref) := by
  rw [Heap.content?, (repSelf.extends grown).1]

include repSelf tidySelf repb tidyb

theorem unites_more {h' : Heap} (grown : h.Extends h') (reverse : Bool) :
    Unites h (regexOr self content) b
      (regexOr h'.size (if reverse then b :: content else content ++ [b]))
      (h'.new (.regexOr (if reverse then b.ref :: content.map ref
        else content.map ref ++ [b.ref]))).2 := by
  have items : (if reverse then b.ref :: content.map ref else content.map ref ++ [b.ref]) =
      (if reverse then b :: content else content ++ [b]).map ref := by
    cases reverse <;> simp
  have member : ∀ item ∈ (if reverse then b :: content else content ++ [b]),
      item = b ∨ item ∈ content := by
    intro item inside
    cases reverse with
    | true => exact List.mem_cons.mp inside
    | false => exact (List.mem_append.mp inside).symm.imp List.mem_singleton.mp id
  have each : ∀ {holds : Tree → Prop}, holds b → (∀ item ∈ content, holds item) →
      ∀ item ∈ (if reverse then b :: content else content ++ [b]), holds item := by
    intro holds here all item inside
    obtain rfl | inside := member item inside
    · exact here
    · exact all item inside
  rw [items]
  refine unites_or grown ?_ ?_ ?_ (fun r => ?_) fun positiveA positiveB => ⟨?_, fun text => ?_⟩
  · exact each (repb.extends grown) fun item inside => (repSelf.child inside).extends grown
  · exact each tidyb fun item inside => tidySelf.child inside
  · have several : 2 ≤ content.length := tidySelf.here
    cases reverse <;> simp <;> omega
  · cases reverse <;>
      simp only [if_true, Bool.false_eq_true, if_false, refsAll_append, refsAll_cons, refsAll_nil,
        List.append_nil, List.count_append, refs, List.count_cons] <;> omega
  · exact each positiveB fun item inside => positiveA.child inside
  · rw [denote_regexOr]
    cases reverse with
    | true => exact sup_comm _ _
    | false =>
        simp only [Bool.false_eq_true, if_false]
        rw [List.map_append, choice_append, List.map_singleton, choice_singleton]

include uniting

theorem orEach_returns (below : ∀ item ∈ content, item.weight + b.weight < n) (reverse : Bool)
    (before rest : List Tree) (split : content = before ++ rest) {h1 : Heap}
    (grown : h.Extends h1) :
    ∃ h' whole, Returns (fun fuel =>
        orEach fuel (rest.map ref) before.length self b.ref reverse h1) (whole.ref, h') ∧
      Unites h (regexOr self content) b whole h' ∧
      whole.weight ≤ (regexOr self content).weight + b.weight ∧ whole.isOr = true := by
  induction rest generalizing before h1 with
  | nil =>
      refine ⟨_, _, Returns.call (orEach_nil (content_self repSelf grown)
        before.length reverse) (Returns.pure _),
        unites_more repSelf tidySelf repb tidyb grown reverse, ?_, rfl⟩
      cases reverse <;>
        simp only [if_true, Bool.false_eq_true, if_false, weight_regexOr, weightAll_append,
          weightAll_cons, weightAll_nil] <;> omega
  | cons item rest induction =>
      have inside : item ∈ content := by simp [split]
      have repItem := (repSelf.child (t := regexOr self content) inside).extends grown
      have tidyItem : item.Tidy := tidySelf.child inside
      have step := orEach_cons item.ref (rest.map ref) before.length self b.ref reverse h1
      obtain ⟨h2, newItem, runs, unites, weight, _⟩ | ⟨h2, runs, grown2, _⟩ :=
        uniting h1 item b (below item inside) tidyItem tidyb repItem (repb.extends grown)
      · have grown2 := grown.trans unites.grown
        have content2 := content_self repSelf grown2
        have items : (content.map ref).take before.length ++ [newItem.ref] ++
            (content.map ref).drop (before.length + 1) = (before ++ newItem :: rest).map ref := by
          rw [split, List.map_append, List.map_cons, List.map_append]
          have length : (before.map ref).length = before.length := List.length_map _
          rw [List.take_left' length, ← length, List.drop_append]
          simp
        have other : ∀ {holds : Tree → Prop}, holds newItem →
            (∀ item ∈ content, holds item) → ∀ item ∈ before ++ newItem :: rest, holds item := by
          intro holds new all other member
          obtain inBefore | later := List.mem_append.mp member
          · exact all other (by simp [split, inBefore])
          · obtain rfl | inRest := List.mem_cons.mp later
            · exact new
            · exact all other (by simp [split, inRest])
        refine ⟨_, regexOr h2.size (before ++ newItem :: rest),
          Returns.call step (Returns.bind runs (Returns.bindSome content2 ?_)),
          unites_or grown2 ?_ ?_ ?_ (fun r => ?_) fun positiveA positiveB => ⟨?_, fun text => ?_⟩,
          ?_, rfl⟩
        · rw [items]
          exact Returns.pure _
        · exact other unites.rep fun item member => (repSelf.child member).extends grown2
        · exact other unites.tidy fun item member => tidySelf.child member
        · have several : 2 ≤ content.length := tidySelf.here
          rw [split] at several
          simpa using several
        · have one := unites.count r
          have steps := between_add grown.grows unites.grown.grows r
          rw [split]
          simp only [refs, refsAll_append, refsAll_cons, List.count_append, List.count_cons]
          omega
        · have sound := unites.sound (positiveA.child inside) positiveB
          exact other sound.positive fun item member => positiveA.child member
        · have sound := unites.sound (positiveA.child inside) positiveB
          rw [denote_regexOr, split, List.map_append, List.map_append, List.map_cons,
            List.map_cons, choice_append, choice_append, choice_cons, choice_cons, sound.exact]
          ac_rfl
        · rw [split]
          simp only [weight_regexOr, weightAll_append, weightAll_cons]
          omega
      · obtain ⟨h', whole, returns, rest⟩ := induction (before ++ [item])
          (by simp [split]) (grown.trans grown2)
        rw [List.length_append, List.length_singleton] at returns
        exact ⟨h', whole, Returns.call step (Returns.bind runs returns), rest⟩

end Each

/-! An alternative with the items of another one. -/

theorem orItems_nil (fuel : Nat) (total : Ref) (h : Heap) :
    orItems (fuel + 1) total [] h = some (total, h) := by
  rewrite [orItems]
  rfl

theorem orItems_cons (fuel : Nat) (total item : Ref) (rest : List Ref) (h : Heap) :
    orItems (fuel + 1) total (item :: rest) h =
      dunderOr fuel total item h >>= fun (total, h) => orItems fuel total rest h := by
  rewrite [orItems]
  rfl

theorem refsAll_count_append (first second : List Tree) (r : Ref) :
    (refsAll (first ++ second)).count r = (refsAll first).count r + (refsAll second).count r := by
  rw [refsAll_append, List.count_append]

/-- `total | item` after `self | before`. -/
theorem unites_next {h h1 h2 : Heap} {a item total next : Tree} {before : List Tree} {refb : Ref}
    (unites : Unites h a (regexOr refb before) total h1) (step : Unites h1 total item next h2)
    (isOr : next.isOr = true) : Unites h a (regexOr refb (before ++ [item])) next h2 where
  rep := step.rep
  grown := unites.grown.trans step.grown
  tidy := step.tidy
  count r := by
    have one := unites.count r
    have two := step.count r
    have steps := between_add unites.grown.grows step.grown.grows r
    simp only [refs, List.count_cons, refsAll_count_append, refsAll_cons, refsAll_nil,
      List.append_nil] at one ⊢
    omega
  sound positiveA positiveB := by
    have inside : ∀ other ∈ before ++ [item], other.Positive := fun other => positiveB.child
    have positiveBefore : (regexOr refb before).Positive :=
      everywhere_iff.mpr ⟨trivial, fun other member => inside other (by
        exact List.mem_append_left _ member)⟩
    have sound := unites.sound positiveA positiveBefore
    have later := step.sound sound.positive (inside item (by simp))
    refine ⟨later.positive, fun text => ?_, fun alone => ?_⟩
    · rw [later.exact, sound.exact, denote_regexOr, denote_regexOr, List.map_append,
        choice_append, List.map_singleton, choice_singleton, sup_assoc]
    · cases next with
      | regexOr ref content => cases alone
      | _ => cases isOr

theorem orItems_returns {n : Nat} (uniting : Uniting n) {h : Heap} {a : Tree} {refb : Ref}
    {content : List Tree} (reps : ∀ item ∈ content, item.Rep h)
    (tidy : ∀ item ∈ content, item.Tidy) (below : a.weight + weightAll content < n)
    (before rest : List Tree) (split : content = before ++ rest) {total : Tree} {h1 : Heap}
    (unites : Unites h a (regexOr refb before) total h1) (isOr : total.isOr = true)
    (weight : total.weight ≤ a.weight + weightAll before) :
    ∃ h' whole, Returns (fun fuel => orItems fuel total.ref (rest.map ref) h1) (whole.ref, h') ∧
      Unites h a (regexOr refb content) whole h' ∧
      whole.weight ≤ a.weight + weightAll content ∧ whole.isOr = true := by
  induction rest generalizing before total h1 with
  | nil =>
      rw [List.append_nil] at split
      subst split
      exact ⟨h1, total, Returns.call (fun fuel => orItems_nil fuel total.ref h1)
        (Returns.pure _), unites, weight, isOr⟩
  | cons item rest induction =>
      have inside : item ∈ content := by simp [split]
      have repItem := (reps item inside).extends unites.grown
      have heavy : weightAll content = weightAll before + (item.weight + weightAll rest) := by
        rw [split, weightAll_append, weightAll_cons]
      obtain ⟨h2, next, runs, step, _, _, more⟩ := Tried.dunderOr unites.rep repItem unites.tidy
        (tidy item inside) (uniting h1 total item (by omega) unites.tidy (tidy item inside)
          unites.rep repItem)
      obtain ⟨nextOr, nextWeight⟩ := more isOr
      obtain ⟨h', whole, returns, done⟩ := induction (before ++ [item])
        (by simp [split]) (unites_next unites step nextOr) nextOr (by
          rw [weightAll_append, weightAll_cons, weightAll_nil]
          omega)
      exact ⟨h', whole, Returns.call
        (fun fuel => orItems_cons fuel total.ref item.ref (rest.map ref) h1)
        (Returns.bind runs returns), done⟩

end Tree

end Segvault.HachoirRegex
