import Segvault.HachoirRegex.Ranges

namespace Segvault.HachoirRegex

open Relation Spans

/-! `|` up to the point where the classes of the operands are told apart. -/

namespace Tree

/-- `a._match(b)` -/
def covers : Tree → Tree → Bool
  | atom _ .regexDot, atom _ (.regexRange _ _ _) => true
  | atom _ .regexDot, atom _ (.regexString text _) => decide (text.length = 1)
  | atom _ (.regexRange _ ranges false), atom _ (.regexString [char] _) =>
      ranges.any (regexRangeCharacter char 0).1.within
  | atom _ (.regexRange _ ranges exclude), atom _ (.regexRange _ branges bexclude) =>
      if exclude = bexclude then branges.all fun itemb => ranges.any itemb.within
      else false
  | _, _ => false

theorem underMatch_eq {h : Heap} {a b : Tree} (repa : a.Rep h) (repb : b.Rep h) :
    underMatch a.ref b.ref h = some (covers a b) := by
  have hereA := repa.here
  have hereB := repb.here
  unfold underMatch
  rw [hereA, hereB]
  cases a with
  | atom refa leaf =>
      cases b with
      | atom refb other =>
          cases leaf with
          | regexRange container ranges exclude =>
              cases other with
              | regexString text nonempty =>
                  cases exclude <;> rcases text with _ | ⟨char, _ | ⟨next, text⟩⟩ <;> rfl
              | regexRange bcontainer branges bexclude =>
                  cases exclude <;> cases bexclude <;> rfl
              | _ => cases exclude <;> rfl
          | regexDot => cases other <;> rfl
          | _ => cases other <;> rfl
      | _ =>
          cases leaf with
          | regexRange container ranges exclude => cases exclude <;> rfl
          | _ => rfl
  | _ => rfl

end Tree

section Steps

variable (fuel : Nat) (self other : Ref) (h : Heap)

theorem dunderOr_step :
    dunderOr (fuel + 1) self other h =
      or_ fuel self other h >>= fun (newRegex, h) =>
        match newRegex with
        | some newRegex => some (newRegex, h)
        | none => regexOr fuel [self, other] h := by
  rewrite [dunderOr]
  rfl

/-- `or_` once the operands are neither equal nor does one match the other. -/
def orByClass (self other : Ref) (h : Heap) (fuel : Nat) : Option (Option Ref × Heap) := do
  if (← h.node? self).class ≠ (← h.node? other).class then do
    let (newRegex, h) ← underOr fuel self other false h
    match newRegex with
    | some newRegex => some (some newRegex, h)
    | none => underOr fuel other self true h
  else underOr fuel self other false h

theorem or_step :
    or_ (fuel + 1) self other h =
      dunderEq fuel self other h >>= fun same =>
        if same then some (some self, h)
        else underMatch self other h >>= fun covers =>
          if covers then some (some self, h)
          else underMatch other self h >>= fun covered =>
            if covered then some (some other, h)
            else orByClass self other h fuel := by
  rewrite [or_]
  rfl

end Steps

namespace Tree

variable {h : Heap} {a b : Tree}

theorem or_of_same (repa : a.Rep h) (repb : b.Rep h) (same : a.bare = b.bare) :
    Returns (fun fuel => or_ fuel a.ref b.ref h) (some a.ref, h) := by
  obtain ⟨equal, runs, iff⟩ := dunderEq_returns repa repb
  rw [iff.2 same] at runs
  exact Returns.call (fun fuel => or_step fuel a.ref b.ref h)
    (Returns.bind runs (Returns.pure _))

theorem dunderEq_false (repa : a.Rep h) (repb : b.Rep h) (differ : a.bare ≠ b.bare) :
    Returns (fun fuel => dunderEq fuel a.ref b.ref h) false := by
  obtain ⟨equal, runs, iff⟩ := dunderEq_returns repa repb
  cases equal with
  | true => exact absurd (iff.1 rfl) differ
  | false => exact runs

theorem or_of_differ (repa : a.Rep h) (repb : b.Rep h) (differ : a.bare ≠ b.bare)
    {result : Option Ref × Heap}
    (returns : Returns (fun fuel =>
      if covers a b then some (some a.ref, h)
      else if covers b a then some (some b.ref, h)
      else orByClass a.ref b.ref h fuel) result) :
    Returns (fun fuel => or_ fuel a.ref b.ref h) result := by
  refine Returns.call (fun fuel => or_step fuel a.ref b.ref h)
    (Returns.bind (dunderEq_false repa repb differ) ?_)
  simp only [underMatch_eq repa repb, underMatch_eq repb repa, Option.bind_eq_bind,
    Option.bind_some, Bool.false_eq_true, if_false]
  exact returns

theorem or_of_covers (repa : a.Rep h) (repb : b.Rep h) (differ : a.bare ≠ b.bare)
    (covered : covers a b = true) :
    Returns (fun fuel => or_ fuel a.ref b.ref h) (some a.ref, h) := by
  refine or_of_differ repa repb differ ?_
  simp only [covered, if_true]
  exact Returns.pure _

theorem or_of_covered (repa : a.Rep h) (repb : b.Rep h) (differ : a.bare ≠ b.bare)
    (first : covers a b = false) (covered : covers b a = true) :
    Returns (fun fuel => or_ fuel a.ref b.ref h) (some b.ref, h) := by
  refine or_of_differ repa repb differ ?_
  simp only [first, covered, Bool.false_eq_true, if_false, if_true]
  exact Returns.pure _

theorem or_of_class (repa : a.Rep h) (repb : b.Rep h) (differ : a.bare ≠ b.bare)
    (first : covers a b = false) (second : covers b a = false)
    {result : Option Ref × Heap} (returns : Returns (orByClass a.ref b.ref h) result) :
    Returns (fun fuel => or_ fuel a.ref b.ref h) result := by
  refine or_of_differ repa repb differ ?_
  simp only [first, second, Bool.false_eq_true, if_false]
  exact returns

theorem orByClass_same (repa : a.Rep h) (repb : b.Rep h)
    (same : a.node.class = b.node.class) :
    orByClass a.ref b.ref h = fun fuel => underOr fuel a.ref b.ref false h := by
  funext fuel
  simp only [orByClass, repa.here, repb.here, Option.bind_eq_bind, Option.bind_some, same,
    ne_eq, not_true_eq_false, if_false]

theorem dunderOr_some {result : Ref} {h' : Heap}
    (runs : Returns (fun fuel => or_ fuel a.ref b.ref h) (some result, h')) :
    Returns (fun fuel => dunderOr fuel a.ref b.ref h) (result, h') :=
  Returns.call (fun fuel => dunderOr_step fuel a.ref b.ref h)
    (Returns.bind runs (Returns.pure _))

/-- `RegexOr((a, b))` for two regexes that are not equal. -/
theorem regexOr_pair (repa : a.Rep h) (repb : b.Rep h) (differ : a.bare ≠ b.bare) :
    Returns (fun fuel => HachoirRegex.regexOr fuel [a.ref, b.ref] h)
      (h.new (.regexOr [a.ref, b.ref])) := by
  have step : ∀ fuel, HachoirRegex.regexOr fuel [a.ref, b.ref] h =
      dunderEq fuel a.ref b.ref h >>= fun same =>
        if same then none else some (h.new (.regexOr [a.ref, b.ref])) := by
    intro fuel
    simp only [HachoirRegex.regexOr, orContent, contains, List.nil_append, List.cons_append,
      Option.bind_eq_bind, Option.bind_some, Bool.false_eq_true, if_false]
    cases dunderEq fuel a.ref b.ref h with
    | none => rfl
    | some same => cases same <;> rfl
  exact Returns.congr step
    (Returns.bind (dunderEq_false repa repb differ) (Returns.pure _))

theorem pair_rep (repa : a.Rep h) (repb : b.Rep h) :
    (regexOr h.size [a, b]).Rep (h.new (.regexOr [a.ref, b.ref])).2 := by
  have grows := h.new_extends (.regexOr [a.ref, b.ref])
  exact ⟨h.new_node? _, repa.extends grows, repb.extends grows, trivial⟩

theorem dunderOr_none {h' : Heap} (repa : a.Rep h') (repb : b.Rep h')
    (differ : a.bare ≠ b.bare)
    (runs : Returns (fun fuel => or_ fuel a.ref b.ref h) (none, h')) :
    Returns (fun fuel => dunderOr fuel a.ref b.ref h)
      (h'.new (.regexOr [a.ref, b.ref])) :=
  Returns.call (fun fuel => dunderOr_step fuel a.ref b.ref h)
    (Returns.bind runs (regexOr_pair repa repb differ))

end Tree

/-! Two ranges. -/

/-- The characters that `RegexRange(ranges, exclude)` matches. -/
def matched (ranges : List RegexRangeItem) (exclude : Bool) (char : UInt8) : Prop :=
  if exclude then ¬ rangesAdmit ranges char else rangesAdmit ranges char

theorem denote_regexRange (container : Container) (ranges : List RegexRangeItem)
    (exclude : Bool) (dot : UInt8 → Prop) (text : List UInt8) :
    (Atom.regexRange container ranges exclude).denote dot text =
      symbol (matched ranges exclude) := by
  cases exclude <;> rfl

theorem underOr_ranges {h : Heap} {a b : Tree} {refa refb : Ref}
    {container bcontainer : Container} {ranges branges : List RegexRangeItem}
    {exclude bexclude : Bool}
    (shapeA : a = .atom refa (.regexRange container ranges exclude))
    (shapeB : b = .atom refb (.regexRange bcontainer branges bexclude))
    (repa : a.Rep h) (repb : b.Rep h) (fuel : Nat) :
    underOr (fuel + 1) a.ref b.ref false h =
      if exclude = bexclude then
        (rangeOr ranges branges exclude h).map fun (regex, h) => (some regex, h)
      else some (none, h) := by
  have hereA := repa.here
  have hereB := repb.here
  rewrite [underOr, hereA, hereB, shapeA, shapeB]
  cases exclude <;> cases bexclude <;>
    simp only [Tree.node, Option.bind_eq_bind, Option.bind_some, reduceCtorEq, if_false,
      if_true] <;>
    cases rangeOr ranges branges _ h <;> rfl

theorem rangeOr_returns (ranges branges : List RegexRangeItem) (exclude : Bool) (h : Heap) :
    ∃ (h' : Heap) (added : List RegexRangeItem),
      rangeOr ranges branges exclude h = some (h.size, h') ∧ h.Extends h' ∧
      h'.size = h.size + 1 ∧
      h'.node? h.size = some (.atom (.regexRange .tuple added exclude)) ∧
      (ranges ≠ [] ∨ branges ≠ [] → added ≠ []) ∧
      ∀ char, rangesAdmit added char ↔ rangesAdmit ranges char ∨ rangesAdmit branges char := by
  obtain ⟨added, items, returned, nonempty, same⟩ :=
    rangeAddAll_returns ranges branges h.items
  let counted : Heap := { h with items := items }
  let node : Node := .atom (.regexRange .tuple added exclude)
  refine ⟨(counted.new node).2, added, ?_, ?_, counted.new_size node,
    counted.new_node? node, nonempty, same⟩
  · rw [rangeOr, returned]
    rfl
  · exact (h.items_extends items).trans (counted.new_extends node)

section Union

variable (dot : UInt8 → Prop) (text : List UInt8)

theorem symbol_sup (accepted admitted : UInt8 → Prop) :
    @symbol _ text accepted ⊔ symbol admitted =
      symbol fun char => accepted char ∨ admitted char :=
  (symbol_or accepted admitted).symm

/-- A symbol tells the characters it accepts. -/
theorem symbol_injective {accepted admitted : UInt8 → Prop}
    (same : ∀ text : List UInt8, @symbol _ text accepted = symbol admitted) (char : UInt8) :
    accepted char ↔ admitted char := by
  have reads : ∀ allowed : UInt8 → Prop,
      @symbol _ [char] allowed 0 1 ↔ allowed char := by
    intro allowed
    constructor
    · rintro ⟨read, holds, here⟩
      cases here
      exact holds
    · exact fun holds => ⟨char, holds, rfl⟩
  rw [← reads accepted, same, reads admitted]

end Union

theorem matched_union_iff {ranges branges added : List RegexRangeItem} {exclude : Bool}
    (same : ∀ char, rangesAdmit added char ↔ rangesAdmit ranges char ∨ rangesAdmit branges char) :
    (∀ char, matched added exclude char ↔
        matched ranges exclude char ∨ matched branges exclude char) ↔
      (exclude = true → ∀ char, rangesAdmit ranges char ↔ rangesAdmit branges char) := by
  cases exclude with
  | false => simp [matched, same]
  | true =>
      simp only [matched, if_true, same, forall_const]
      exact forall_congr' fun char => by tauto

/-- A single range for two ranges of one polarity. -/
theorem range_for_both {container bcontainer ccontainer : Container}
    {ranges branges added : List RegexRangeItem} {exclude : Bool} {ref refa refb : Ref}
    (same : ∀ char, rangesAdmit added char ↔
      rangesAdmit ranges char ∨ rangesAdmit branges char) :
    (∀ dot text, (Tree.atom ref (.regexRange ccontainer added exclude)).denote dot text =
        (Tree.atom refa (.regexRange container ranges exclude)).denote dot text ⊔
        (Tree.atom refb (.regexRange bcontainer branges exclude)).denote dot text) ↔
      (exclude = true → ∀ char, rangesAdmit ranges char ↔ rangesAdmit branges char) := by
  rw [← matched_union_iff same]
  simp only [Tree.denote, denote_regexRange, symbol_sup]
  constructor
  · intro whole
    exact symbol_injective fun text => whole (fun _ => True) text
  · intro whole dot text
    exact symbol_congr whole

theorem covers_ranges {ranges branges : List RegexRangeItem} {container bcontainer : Container}
    {exclude bexclude : Bool} {refa refb : Ref}
    (covered : Tree.covers (.atom refa (.regexRange container ranges exclude))
      (.atom refb (.regexRange bcontainer branges bexclude)) = true) :
    exclude = bexclude ∧
      ∀ char, rangesAdmit ranges char ↔ rangesAdmit ranges char ∨ rangesAdmit branges char := by
  have whole : (if exclude = bexclude then branges.all fun itemb => ranges.any itemb.within
      else false) = true := by
    cases exclude <;> cases bexclude <;> exact covered
  split at whole
  · rename_i alike
    refine ⟨alike, fun char => ⟨.inl, fun either => either.elim id fun inside => ?_⟩⟩
    exact rangesAdmit_of_all_within whole inside
  · cases whole

/-- `[..] | [..]` matches what the one or the other matches, unless both exclude
their characters and these are not the same. -/
theorem range_or_exact_iff {h : Heap} {refa refb : Ref} {container bcontainer : Container}
    {ranges branges : List RegexRangeItem} {exclude bexclude : Bool}
    (repa : (Tree.atom refa (.regexRange container ranges exclude)).Rep h)
    (repb : (Tree.atom refb (.regexRange bcontainer branges bexclude)).Rep h) :
    ∃ (h' : Heap) (whole : Tree),
      Returns (fun fuel => dunderOr fuel refa refb h) (whole.ref, h') ∧
      whole.Rep h' ∧
      ((∀ dot text, whole.denote dot text =
          (Tree.atom refa (.regexRange container ranges exclude)).denote dot text ⊔
          (Tree.atom refb (.regexRange bcontainer branges bexclude)).denote dot text) ↔
        (exclude = true → bexclude = true →
          ∀ char, rangesAdmit ranges char ↔ rangesAdmit branges char)) := by
  let a : Tree := .atom refa (.regexRange container ranges exclude)
  let b : Tree := .atom refb (.regexRange bcontainer branges bexclude)
  by_cases equal : a.bare = b.bare
  · obtain ⟨rfl, rfl, rfl⟩ : container = bcontainer ∧ ranges = branges ∧
        exclude = bexclude := by
      simpa [a, b, Tree.bare] using equal
    refine ⟨h, a, Tree.dunderOr_some (Tree.or_of_same repa repb equal), repa, ?_⟩
    rw [range_for_both fun char => (or_self_iff).symm]
    simp
  cases first : a.covers b with
  | true =>
      obtain ⟨rfl, same⟩ := covers_ranges first
      refine ⟨h, a, Tree.dunderOr_some (Tree.or_of_covers repa repb equal first), repa, ?_⟩
      rw [range_for_both same]
      exact ⟨fun whole alike _ => whole alike, fun whole alike => whole alike alike⟩
  | false =>
  cases second : b.covers a with
  | true =>
      obtain ⟨rfl, same⟩ := covers_ranges second
      refine ⟨h, b, Tree.dunderOr_some (Tree.or_of_covered repa repb equal first second),
        repb, ?_⟩
      rw [range_for_both fun char => (same char).trans or_comm]
      exact ⟨fun whole alike _ => whole alike, fun whole alike => whole alike alike⟩
  | false =>
  have runs : ∀ {result : Option Ref × Heap},
      Returns (fun fuel => underOr fuel a.ref b.ref false h) result →
      Returns (fun fuel => or_ fuel a.ref b.ref h) result := by
    intro result returns
    refine Tree.or_of_class repa repb equal first second ?_
    rw [Tree.orByClass_same repa repb rfl]
    exact returns
  have step := @underOr_ranges h a b refa refb container bcontainer ranges branges exclude
    bexclude rfl rfl repa repb
  by_cases alike : exclude = bexclude
  · subst alike
    simp only [if_true] at step
    obtain ⟨h', added, returned, grows, _, here, _, same⟩ :=
      rangeOr_returns ranges branges exclude h
    refine ⟨h', .atom h.size (.regexRange .tuple added exclude),
      Tree.dunderOr_some (runs (Returns.call step ?_)), here, ?_⟩
    · rw [returned]
      exact Returns.pure _
    · rw [range_for_both same]
      exact ⟨fun whole alike _ => whole alike, fun whole alike => whole alike alike⟩
  · simp only [alike, if_false] at step
    refine ⟨_, .regexOr h.size [a, b],
      Tree.dunderOr_none repa repb equal (runs (Returns.call step (Returns.pure _))),
      Tree.pair_rep repa repb, ?_⟩
    constructor
    · intro _ excluded bexcluded
      exact absurd (excluded.trans bexcluded.symm) alike
    · intro _ dot text
      rw [Tree.denote_regexOr]
      simp [a, b]

/-! `[^ab] | [^ac]` -/

def excludedPair : Heap :=
  Heap.ofNodes
    [.atom (.regexRange .list [⟨0, 97, 98, by decide⟩] true),
      .atom (.regexRange .list [⟨1, 97, 97, a_le_a⟩, ⟨2, 99, 99, by decide⟩] true)]

theorem range_or_exact_iff_excludedPair :
    ∃ (h' : Heap) (whole : Tree),
      Returns (fun fuel => dunderOr fuel 0 1 excludedPair) (whole.ref, h') ∧
      whole.Rep h' ∧
      ((∀ dot text, whole.denote dot text =
          (Tree.atom 0 (.regexRange .list [⟨0, 97, 98, by decide⟩] true)).denote dot text ⊔
          (Tree.atom 1 (.regexRange .list [⟨1, 97, 97, by decide⟩,
            ⟨2, 99, 99, by decide⟩] true)).denote dot text) ↔
        (true = true → true = true → ∀ char,
          rangesAdmit [⟨0, 97, 98, by decide⟩] char ↔
          rangesAdmit [⟨1, 97, 97, by decide⟩, ⟨2, 99, 99, by decide⟩] char)) :=
  range_or_exact_iff (h := excludedPair) rfl rfl

def excludedUnion : Heap :=
  { objects := excludedPair.objects ++
      [⟨.atom (.regexRange .tuple [⟨0, 97, 99, by decide⟩] true), fun _ => none⟩]
    items := 1 }

/-- `[^ab] | [^ac]` is `[^a-c]`, which does not match the `c` that `[^ab]` matches. -/
theorem range_or_fails_excluded :
    ∃ (h' : Heap) (whole : Tree),
      Returns (fun fuel => dunderOr fuel 0 1 excludedPair) (whole.ref, h') ∧
      whole.Rep h' ∧
      ∃ (dot : UInt8 → Prop) (text : List UInt8), whole.denote dot text ≠
        (Tree.atom 0 (.regexRange .list [⟨0, 97, 98, by decide⟩] true)).denote dot text ⊔
        (Tree.atom 1 (.regexRange .list [⟨1, 97, 97, by decide⟩,
          ⟨2, 99, 99, by decide⟩] true)).denote dot text := by
  refine ⟨excludedUnion, .atom 2 (.regexRange .tuple [⟨0, 97, 99, by decide⟩] true), ?_, rfl,
    fun _ => True, [99], ?_⟩
  · refine ⟨4, fun fuel enough => ?_⟩
    obtain ⟨more, rfl⟩ := Nat.exists_eq_add_of_le' enough
    rfl
  · intro same
    have outside : ¬ rangesAdmit [⟨0, 97, 98, by decide⟩] 99 := by
      rintro ⟨item, listed, _, below⟩
      cases List.mem_singleton.1 listed
      exact absurd below (by decide)
    have inside : @symbol _ [99]
        (fun char => ¬ rangesAdmit [⟨0, 97, 98, by decide⟩] char) 0 1 :=
      ⟨99, outside, rfl⟩
    have read : @symbol _ [99]
        (fun char => ¬ rangesAdmit [⟨0, 97, 99, by decide⟩] char) 0 1 :=
      (congrFun (congrFun same 0) 1).mpr (Or.inl inside)
    obtain ⟨char, excluded, here⟩ := read
    cases here
    exact excluded ⟨_, List.mem_singleton.2 rfl, by decide, by decide⟩

end Segvault.HachoirRegex
