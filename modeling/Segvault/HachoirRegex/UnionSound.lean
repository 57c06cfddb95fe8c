import Segvault.HachoirRegex.UnionOr

namespace Segvault.HachoirRegex

open Relation Spans

namespace Tree

/-! `_or_`, by the shapes of its operands. -/

/-- The operands for which `_or_` does more than return None. -/
def tries : Tree → Tree → Bool
  | atom _ (.regexString _ _), atom _ (.regexString _ _) => true
  | atom _ (.regexRange _ _ false), atom _ (.regexString [_] _) => true
  | atom _ (.regexRange _ _ exclude), atom _ (.regexRange _ _ bexclude) =>
      decide (exclude = bexclude)
  | regexAnd _ _ _, atom _ (.regexString _ _) => true
  | regexAnd _ _ _, regexAnd _ _ _ => true
  | regexOr _ _, _ => true
  | _, _ => false

theorem underOr_none {h : Heap} {a b : Tree} (repa : a.Rep h) (repb : b.Rep h)
    (other : tries a b = false) (reverse : Bool) (fuel : Nat) :
    underOr (fuel + 1) a.ref b.ref reverse h = some (none, h) := by
  have hereA := repa.here
  have hereB := repb.here
  rewrite [underOr, hereA, hereB]
  cases a with
  | atom refa leafA =>
      cases leafA with
      | regexRange container ranges exclude =>
          cases b with
          | atom refb leafB =>
              cases leafB with
              | regexString text nonempty =>
                  rcases text with _ | ⟨char, _ | ⟨next, text⟩⟩ <;> cases exclude <;>
                    first | rfl | cases other
              | regexRange bcontainer branges bexclude =>
                  cases exclude <;> cases bexclude <;> first | rfl | cases other
              | _ => cases exclude <;> rfl
          | _ => cases exclude <;> rfl
      | regexString text nonempty =>
          cases b with
          | atom refb leafB => cases leafB <;> first | rfl | cases other
          | _ => rfl
      | _ => rfl
  | regexAnd refa init last =>
      cases b with
      | atom refb leafB => cases leafB <;> first | rfl | cases other
      | regexAnd refb initb lastb => cases other
      | _ => rfl
  | regexOr refa content => cases other
  | regexRepeat refa regex min max => rfl

/-- A run of `_or_` that returns None. -/
theorem tried_none {h : Heap} {a b : Tree} (repa : a.Rep h) (repb : b.Rep h)
    (other : tries a b = false) (reverse : Bool) (notOr : a.isOr = false) :
    Tried h a b fun fuel => underOr fuel a.ref b.ref reverse h :=
  .inr ⟨h, Returns.call (underOr_none repa repb other reverse) (Returns.pure _),
    Heap.KeepsBut.refl _ h, notOr⟩

theorem underOr_and {h : Heap} {a b : Tree} (repa : a.Rep h) (repb : b.Rep h)
    (isAnd : a.isAnd = true) (tried : tries a b = true) (reverse : Bool) (fuel : Nat) :
    underOr (fuel + 1) a.ref b.ref reverse h = andOr fuel a.ref b.ref reverse h := by
  have hereA := repa.here
  have hereB := repb.here
  rewrite [underOr, hereA, hereB]
  cases a with
  | regexAnd refa init last =>
      cases b with
      | atom refb leafB => cases leafB <;> first | rfl | cases tried
      | regexAnd refb initb lastb => rfl
      | _ => cases tried
  | _ => cases isAnd

theorem items_of_tries {a b : Tree} (isAnd : a.isAnd = true) (tried : tries a b = true) :
    (∃ as, Items a as) ∧ ∃ bs, Items b bs := by
  cases a with
  | regexAnd refa init last =>
      refine ⟨⟨_, .regexAnd refa init last⟩, ?_⟩
      cases b with
      | atom refb leafB =>
          cases leafB with
          | regexString text nonempty => exact ⟨_, .string refb text nonempty⟩
          | _ => cases tried
      | regexAnd refb initb lastb => exact ⟨_, .regexAnd refb initb lastb⟩
      | _ => cases tried
  | _ => cases isAnd

theorem underOr_or {h : Heap} {self other : Ref} {content : List Ref} {node : Node}
    (here : h.node? self = some (.regexOr content)) (hereB : h.node? other = some node)
    (notOr : ∀ items, node ≠ .regexOr items) (reverse : Bool) (fuel : Nat) :
    underOr (fuel + 1) self other reverse h =
      orEach fuel content 0 self other reverse h >>= fun (regex, h) => some (some regex, h) := by
  rewrite [underOr, here, hereB]
  cases node with
  | regexOr items => exact absurd rfl (notOr items)
  | _ => rfl

theorem underOr_ors {h : Heap} {self other : Ref} {content items : List Ref}
    (here : h.node? self = some (.regexOr content))
    (hereB : h.node? other = some (.regexOr items)) (reverse : Bool) (fuel : Nat) :
    underOr (fuel + 1) self other reverse h =
      orItems fuel self items h >>= fun (total, h) => some (some total, h) := by
  rewrite [underOr, here, hereB]
  rfl

theorem Unites.later {h h1 h' : Heap} {a b whole : Tree} (unites : Unites h1 a b whole h')
    (grown : h.Extends h1) : Unites h a b whole h' where
  rep := unites.rep
  grown := grown.trans unites.grown
  tidy := unites.tidy
  count r := by
    have less := unites.count r
    have steps := between_add grown.grows unites.grown.grows r
    omega
  sound := unites.sound

theorem shape_of_isOr {t : Tree} (isOr : t.isOr = true) :
    ∃ ref content, t = regexOr ref content := by
  cases t with
  | regexOr ref content => exact ⟨ref, content, rfl⟩
  | _ => cases isOr

/-- The regexes without a regex inside that `_or_` takes together. -/
theorem atoms_of_tries {a b : Tree} (tried : tries a b = true) (notAnd : a.isAnd = false)
    (notOr : a.isOr = false) :
    (∃ refa refb texta textb nonemptyA nonemptyB,
      a = atom refa (.regexString texta nonemptyA) ∧
      b = atom refb (.regexString textb nonemptyB)) ∨
    (∃ refa refb container ranges char, ∃ nonempty : [char] ≠ [],
      a = atom refa (.regexRange container ranges false) ∧
      b = atom refb (.regexString [char] nonempty)) ∨
    ∃ refa refb container bcontainer ranges branges exclude,
      a = atom refa (.regexRange container ranges exclude) ∧
      b = atom refb (.regexRange bcontainer branges exclude) := by
  cases a with
  | atom refa leafA =>
      cases b with
      | atom refb leafB =>
          cases leafA with
          | regexString texta nonemptyA =>
              cases leafB with
              | regexString textb nonemptyB =>
                  exact .inl ⟨refa, refb, texta, textb, nonemptyA, nonemptyB, rfl, rfl⟩
              | _ => cases tried
          | regexRange container ranges exclude =>
              cases leafB with
              | regexString text nonempty =>
                  cases exclude with
                  | true => cases tried
                  | false =>
                      rcases text with _ | ⟨char, _ | ⟨next, text⟩⟩
                      · cases tried
                      · exact .inr (.inl ⟨refa, refb, container, ranges, char, nonempty, rfl, rfl⟩)
                      · cases tried
              | regexRange bcontainer branges bexclude =>
                  obtain rfl : exclude = bexclude := by
                    cases exclude <;> exact of_decide_eq_true tried
                  exact .inr (.inr ⟨refa, refb, container, bcontainer, ranges, branges, exclude,
                    rfl, rfl⟩)
              | _ => cases exclude <;> cases tried
          | _ => cases tried
      | _ =>
          cases leafA with
          | regexRange container ranges exclude => cases exclude <;> cases tried
          | _ => cases tried
  | regexRepeat refa regex min max => cases tried
  | regexAnd refa init last => cases notAnd
  | regexOr refa content => cases notOr

section Tried

variable {n : Nat} (uniting : Uniting n) {h : Heap} {a b : Tree} (repa : a.Rep h)
  (repb : b.Rep h) (tidya : a.Tidy) (tidyb : b.Tidy) (below : a.weight + b.weight ≤ n)
include uniting repa repb tidya tidyb below

/-- A RegexAnd with another one or with a string, the operands in the order of `a|b`. -/
theorem tried_and (differ : a.bare ≠ b.bare) (reverse : Bool) {first second : Tree}
    (order : (first, second) = if reverse then (b, a) else (a, b)) (isAnd : a.isAnd = true)
    (tried : tries a b = true) :
    Tried h first second fun fuel => underOr fuel a.ref b.ref reverse h := by
  obtain ⟨⟨as, shapeA⟩, bs, shapeB⟩ := items_of_tries isAnd tried
  refine Tried.call (underOr_and repa repb isAnd tried reverse) ?_
  refine Tried.call (fun fuel => andOr_step fuel a.ref b.ref reverse h) ?_
  cases reverse with
  | false =>
      cases order
      exact tried_andOr uniting ⟨shapeA, shapeB, repa, repb, tidya, tidyb, .inl isAnd, differ⟩
        below
  | true =>
      cases order
      exact tried_andOr uniting
        ⟨shapeB, shapeA, repb, repa, tidyb, tidya, .inr isAnd, differ.symm⟩ (by omega)

/-- A RegexOr with a regex that is none. -/
theorem tried_orEach (isOr : a.isOr = true) (notOr : b.isOr = false) (reverse : Bool) :
    ∃ h' whole, Returns (fun fuel => underOr fuel a.ref b.ref reverse h) (some whole.ref, h') ∧
      Unites h a b whole h' ∧ whole.weight ≤ a.weight + b.weight ∧ whole.isOr = true := by
  cases a with
  | regexOr self content =>
      have other : ∀ items, b.node ≠ .regexOr items := by
        intro items same
        cases b with
        | regexOr refb items => cases notOr
        | _ => cases same
      have lighter : ∀ item ∈ content, item.weight + b.weight < n := by
        intro item member
        have light := weight_le_weightAll member
        rw [weight_regexOr] at below
        omega
      obtain ⟨h', whole, returns, rest⟩ := orEach_returns uniting repa tidya repb tidyb lighter
        reverse [] content rfl (Heap.KeepsBut.refl _ h)
      exact ⟨h', whole, Returns.call (underOr_or repa.1 repb.here other reverse)
        (Returns.bind returns (Returns.pure _)), rest⟩
  | _ => cases isOr

theorem tried_orItems (isOr : a.isOr = true) (isOrB : b.isOr = true) :
    Tried h a b fun fuel => underOr fuel a.ref b.ref false h := by
  obtain ⟨self, content, rfl⟩ := shape_of_isOr isOr
  obtain ⟨other, items, rfl⟩ := shape_of_isOr isOrB
  have start : Unites h (regexOr self content) (regexOr other []) (regexOr self content) h :=
    unites_first repa tidya fun positive _ => {
      positive := positive
      exact := fun text => (sup_bot_eq _).symm
      single := fun wrong => by cases wrong }
  have light : (regexOr self content).weight + weightAll items < n := by
    rw [weight_regexOr other] at below
    omega
  obtain ⟨h', whole, returns, unites, weight, wholeOr⟩ := orItems_returns uniting
    (repAll_iff.mp repb.2)
    (fun item member => tidyb.child member) light [] items rfl start rfl
    (Nat.le_add_right _ _)
  refine .inl ⟨h', whole, Returns.call (underOr_ors repa.1 repb.1 false)
    (Returns.bind returns (Returns.pure _)), unites, ?_, fun _ => wholeOr⟩
  rw [weight_regexOr other]
  omega

/-- `self._or_(other, False)` -/
theorem tried_forward (differ : a.bare ≠ b.bare) :
    Tried h a b fun fuel => underOr fuel a.ref b.ref false h := by
  cases isOr : a.isOr with
  | true =>
      cases isOrB : b.isOr with
      | true => exact tried_orItems uniting repa repb tidya tidyb below isOr isOrB
      | false =>
          obtain ⟨h', whole, returns, unites, weight, wholeOr⟩ :=
            tried_orEach uniting repa repb tidya tidyb below isOr isOrB false
          exact .inl ⟨h', whole, returns, unites, weight, fun _ => wholeOr⟩
  | false =>
      cases tried : tries a b with
      | false => exact tried_none repa repb tried false isOr
      | true =>
          cases isAnd : a.isAnd with
          | true => exact tried_and uniting repa repb tidya tidyb below differ false rfl isAnd tried
          | false =>
              obtain ⟨refa, refb, texta, textb, _, _, rfl, rfl⟩ |
                ⟨refa, refb, container, ranges, char, nonempty, rfl, rfl⟩ |
                ⟨refa, refb, container, bcontainer, ranges, branges, exclude, rfl, rfl⟩ :=
                atoms_of_tries tried isAnd isOr
              · exact tried_strings uniting rfl rfl repa repb below
              · exact tried_rangeString rfl rfl repa repb false
              · exact tried_ranges rfl rfl repa repb

/-- `other._or_(self, True)`, for operands of different classes. -/
theorem tried_backward (differ : a.bare ≠ b.bare) (class' : a.node.class ≠ b.node.class)
    (notOr : a.isOr = false) : Tried h a b fun fuel => underOr fuel b.ref a.ref true h := by
  have below' : b.weight + a.weight ≤ n := by omega
  have none : tries b a = false → Tried h a b fun fuel => underOr fuel b.ref a.ref true h :=
    fun other => .inr ⟨h, Returns.call (underOr_none repb repa other true) (Returns.pure _),
      Heap.KeepsBut.refl _ h, notOr⟩
  have swapped : (∃ h' whole, Returns (fun fuel => underOr fuel b.ref a.ref true h)
      (some whole.ref, h') ∧ Unites h b a whole h' ∧ whole.weight ≤ b.weight + a.weight) →
      Tried h a b fun fuel => underOr fuel b.ref a.ref true h := by
    rintro ⟨h', whole, returns, unites, weight⟩
    exact .inl ⟨h', whole, returns, unites.symm, by omega, fun wrong => by
      rw [notOr] at wrong
      cases wrong⟩
  cases isOr : b.isOr with
  | true =>
      obtain ⟨h', whole, returns, unites, weight, _⟩ :=
        tried_orEach uniting repb repa tidyb tidya below' isOr notOr true
      exact swapped ⟨h', whole, returns, unites, weight⟩
  | false =>
      cases tried : tries b a with
      | false => exact none tried
      | true =>
          cases isAnd : b.isAnd with
          | true =>
              exact tried_and uniting repb repa tidyb tidya below' differ.symm true rfl isAnd tried
          | false =>
              obtain ⟨refb, refa, textb, texta, _, _, rfl, rfl⟩ |
                ⟨refb, refa, container, ranges, char, nonempty, rfl, rfl⟩ |
                ⟨refb, refa, bcontainer, container, branges, ranges, exclude, rfl, rfl⟩ :=
                atoms_of_tries tried isAnd isOr
              · exact absurd rfl class'
              · obtain ⟨h', whole, returns, unites, weight, _⟩ | ⟨h', returns, grown, _⟩ :=
                  tried_rangeString rfl rfl repb repa true
                · exact swapped ⟨h', whole, returns, unites, weight⟩
                · exact .inr ⟨h', returns, grown, rfl⟩
              · exact absurd rfl class'

end Tried

theorem isOr_of_covers {a b : Tree} (covered : covers a b = true) : b.isOr = false := by
  cases b with
  | regexOr ref content =>
      cases a with
      | atom refa leaf =>
          cases leaf with
          | regexRange container ranges exclude => cases exclude <;> cases covered
          | _ => cases covered
      | _ => cases covered
  | _ => rfl

/-- `a.or_(b)` for operands that `==` tells apart, after the calls for smaller ones. -/
theorem orByClass_returns {h : Heap} {a b : Tree} (repa : a.Rep h) (repb : b.Rep h)
    (differ : a.node.class ≠ b.node.class) {result : Option Ref × Heap}
    (returns : Returns (fun fuel =>
      underOr fuel a.ref b.ref false h >>= fun (newRegex, h) =>
        match newRegex with
        | some newRegex => some (some newRegex, h)
        | none => underOr fuel b.ref a.ref true h) result) :
    Returns (orByClass a.ref b.ref h) result := by
  refine Returns.congr (fun fuel => ?_) returns
  unfold orByClass
  rw [repa.here, repb.here]
  exact if_pos differ

theorem tried_classes {n : Nat} (uniting : Uniting n) {h : Heap} {a b : Tree} (repa : a.Rep h)
    (repb : b.Rep h) (tidya : a.Tidy) (tidyb : b.Tidy) (below : a.weight + b.weight ≤ n)
    (differ : a.bare ≠ b.bare) : Tried h a b (orByClass a.ref b.ref h) := by
  have forward := tried_forward uniting repa repb tidya tidyb below differ
  by_cases same : a.node.class = b.node.class
  · rw [orByClass_same repa repb same]
    exact forward
  · have step := @orByClass_returns h a b repa repb same
    obtain ⟨h', whole, returns, rest⟩ | ⟨h1, returns, grown, notOr⟩ := forward
    · exact .inl ⟨h', whole, step (Returns.bind returns (Returns.pure _)), rest⟩
    · obtain ⟨h', whole, returns', unites, rest⟩ | ⟨h', returns', grown', _⟩ :=
        tried_backward uniting (repa.extends grown) (repb.extends grown) tidya tidyb below differ
          same notOr
      · exact .inl ⟨h', whole, step (Returns.bind returns returns'), unites.later grown, rest⟩
      · exact .inr ⟨h', step (Returns.bind returns returns'), grown.trans grown', notOr⟩

theorem uniting_next {n : Nat} (uniting : Uniting n) : Uniting (n + 1) := by
  intro h a b below tidya tidyb repa repb
  have below : a.weight + b.weight ≤ n := Nat.lt_succ_iff.mp below
  by_cases equal : a.bare = b.bare
  · exact .inl ⟨h, a, or_of_same repa repb equal,
      unites_first repa tidya fun positive _ => sound_same equal positive,
      Nat.le_add_right _ _, id⟩
  cases first : covers a b with
  | true =>
      exact .inl ⟨h, a, or_of_covers repa repb equal first,
        unites_first repa tidya fun positiveA positiveB => sound_covers first positiveA positiveB,
        Nat.le_add_right _ _, id⟩
  | false =>
  cases second : covers b a with
  | true =>
      refine .inl ⟨h, b, or_of_covered repa repb equal first second,
        (unites_first repb tidyb fun positiveB positiveA =>
          sound_covers second positiveB positiveA).symm, Nat.le_add_left _ _, fun isOr => ?_⟩
      rw [isOr_of_covers second] at isOr
      cases isOr
  | false =>
      obtain ⟨h', whole, returns, rest⟩ | ⟨h', returns, rest⟩ :=
        tried_classes uniting repa repb tidya tidyb below equal
      · exact .inl ⟨h', whole, or_of_class repa repb equal first second returns, rest⟩
      · exact .inr ⟨h', or_of_class repa repb equal first second returns, rest⟩

/-- `|` returns for every two tidy regexes. -/
theorem uniting (n : Nat) : Uniting n := by
  induction n with
  | zero => exact fun h a b below => absurd below (Nat.not_lt_zero _)
  | succ n induction => exact uniting_next induction

/-- `a | b`, with what comes out of it. -/
theorem dunderOr_returns {h : Heap} {a b : Tree} (repa : a.Rep h) (repb : b.Rep h)
    (tidya : a.Tidy) (tidyb : b.Tidy) :
    ∃ h' whole, Returns (fun fuel => dunderOr fuel a.ref b.ref h) (whole.ref, h') ∧
      Unites h a b whole h' := by
  obtain ⟨h', whole, returns, unites, _⟩ := Tried.dunderOr repa repb tidya tidyb
    (uniting _ h a b (Nat.lt_succ_self _) tidya tidyb repa repb)
  exact ⟨h', whole, returns, unites⟩

end Tree

def nestedAnd : Heap :=
  Heap.ofNodes
    [.atom (.regexString [97] a_nonempty), .atom .regexDot,
      .atom (.regexString [98] b_nonempty), .regexAnd [1, 2],
      .atom (.regexString [99] c_nonempty), .regexAnd [0, 3, 4],
      .atom (.regexString [100] (by decide)), .atom .regexDot, .regexAnd [6, 7]]

def nestedAndTree : Tree :=
  .regexAnd 5
    [.atom 0 (.regexString [97] a_nonempty),
      .regexAnd 3 [.atom 1 .regexDot] (.atom 2 (.regexString [98] b_nonempty))]
    (.atom 4 (.regexString [99] c_nonempty))

def dotAfter : Tree :=
  .regexAnd 8 [.atom 6 (.regexString [100] (by decide))] (.atom 7 .regexDot)

def nestedUnion : Heap :=
  { Heap.ofNodes
      [.atom (.regexString [97] a_nonempty), .atom .regexDot,
        .atom (.regexString [98] b_nonempty), .regexAnd [1, 12],
        .atom (.regexString [99] c_nonempty), .regexAnd [0, 3, 4],
        .atom (.regexString [100] (by decide)), .atom .regexDot, .regexAnd [6, 7],
        .atom (.regexRange .list [⟨0, 97, 97, a_le_a⟩, ⟨1, 100, 100, by decide⟩] false),
        .atom .regexEmpty, .atom .regexEmpty, .atom (.regexString [98, 99] (by decide)),
        .regexOr [3, 7], .regexOr [5, 8]] with items := 2 }

theorem dotAfter_rep : dotAfter.Rep nestedAnd :=
  ⟨rfl, ⟨rfl, trivial⟩, rfl⟩

theorem nestedAnd_rep : nestedAndTree.Rep nestedAnd :=
  ⟨rfl, ⟨rfl, ⟨rfl, ⟨rfl, trivial⟩, rfl⟩, trivial⟩, rfl⟩

theorem dotAfter_everywhere {holds : Tree → Prop} (here : holds dotAfter)
    (leaf : ∀ item ∈ dotAfter.children, holds item) : Tree.Everywhere holds dotAfter := by
  refine Tree.everywhere_iff.mpr ⟨here, fun item member => ?_⟩
  have holdsItem := leaf item member
  obtain first | last := List.mem_cons.mp member
  · subst first
    exact Tree.everywhere_atom holdsItem
  · obtain rfl := List.mem_singleton.mp last
    exact Tree.everywhere_atom holdsItem

end Segvault.HachoirRegex
