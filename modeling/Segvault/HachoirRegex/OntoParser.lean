import Segvault.HachoirRegex.OntoOr
import Segvault.HachoirRegex.Parser
import Segvault.HachoirRegex.RepeatOr

namespace Segvault.HachoirRegex

/-! RegexRepeat and the parser on top of another heap. -/

/-- A heap on top of `k`; the items are numbered where this is asked for. -/
abbrev Over (asked : Prop) (k : Heap) : Heap → Heap → Prop :=
  Onto k fun h => asked → h.Numbered

variable {asked : Prop} {k : Heap}

theorem over_closed : Preserved fun h : Heap => asked → h.Numbered :=
  preserved_numbered.under asked

theorem dunderOr_over {fuel more : Nat} (enough : fuel ≤ more) (self other : Ref) :
    Follows (Over asked k) k.up (dunderOr fuel self other)
      (dunderOr more (k.up self) (k.up other)) :=
  (or_follows over_closed fuel enough).dunder self other

theorem fixedMin_up (rmin : Nat) (items : List Node) :
    fixedMin rmin (items.map k.upNode) = fixedMin rmin items := by
  induction items generalizing rmin with
  | nil => rfl
  | cons item items induction =>
      cases item with
      | atom leaf =>
          cases leaf with
          | regexEmpty => exact induction 0
          | regexRepeatNone min max => exact induction _
          | _ => exact induction rmin
      | regexRepeat regex min max => exact induction _
      | _ => exact induction rmin

theorem over_new {node : Node} (notRange : node.class ≠ .regexRange) :
    Follows (Over asked k) k.up (fun h => some (h.new node))
      fun h => some (h.new (k.upNode node)) := by
  refine follows_new (fun h numbered wanted => (numbered wanted).new fun _ _ _ same => ?_) rfl
  subst same
  exact absurd rfl notRange

theorem plainRepeat_over (regex : Option Ref) (rmin : Nat) (rmax : Option Nat) :
    FollowsTry (Over asked k) k.up
      (fun h => (liftM (plainRepeat regex rmin rmax h) : Raising (Ref × Heap)))
      fun h => (liftM (plainRepeat (regex.map k.up) rmin rmax h) : Raising (Ref × Heap)) := by
  have built : ∀ max, FollowsTry (Over asked k) k.up
      (fun h => (Pure.pure (newRepeat regex rmin max h) : Raising (Ref × Heap)))
      fun h => (Pure.pure (newRepeat (regex.map k.up) rmin max h) : Raising (Ref × Heap)) := by
    intro max
    cases regex with
    | none => exact FollowsTry.lift (over_new (by simp [Node.class, Atom.class]))
    | some regex => exact FollowsTry.lift (over_new (by simp [Node.class]))
  cases rmax with
  | none => exact built none
  | some max =>
      unfold plainRepeat
      by_cases below : max < rmin
      · simp only [if_pos below]
        exact FollowsTry.throw _
      · by_cases invalid : max = 0 ∨ (rmin = max ∧ max = 1)
        · simp only [if_neg below, if_pos invalid]
          exact FollowsTry.throw _
        · simp only [if_neg below, if_neg invalid]
          exact built (some max)

theorem orOptional_over {fuel more : Nat} (enough : fuel ≤ more) (regex item : Option Ref) :
    FollowsTry (Over asked k) (Option.map k.up) (orOptional fuel regex item)
      (orOptional more (regex.map k.up) (item.map k.up)) := by
  cases regex with
  | none => exact FollowsTry.throw _
  | some regex =>
      cases item with
      | none => exact FollowsTry.throw _
      | some item =>
          exact FollowsTry.bind (FollowsTry.lift (dunderOr_over enough regex item))
            fun regex => FollowsTry.pure rfl

theorem orJoinItems_over {fuel more : Nat} (enough : fuel ≤ more) (regex : Option Ref)
    (items : List (Option Ref)) :
    FollowsTry (Over asked k) (Option.map k.up) (orJoinItems fuel regex items)
      (orJoinItems more (regex.map k.up) (items.map (Option.map k.up))) := by
  induction items generalizing regex with
  | nil => exact FollowsTry.pure rfl
  | cons item items induction =>
      exact FollowsTry.bind (orOptional_over enough regex item) induction

theorem orJoin_nil (fuel : Nat) :
    orJoin fuel [] = fun h =>
      (liftM (some (h.new (.atom .regexEmpty))) : Raising (Ref × Heap)) >>=
        fun (regex, h) => (pure (some regex, h) : Raising (Option Ref × Heap)) := rfl

theorem orJoin_over {fuel more : Nat} (enough : fuel ≤ more) (items : List (Option Ref)) :
    FollowsTry (Over asked k) (Option.map k.up) (orJoin fuel items)
      (orJoin more (items.map (Option.map k.up))) := by
  cases items with
  | nil =>
      have new : Follows (Over asked k) k.up (fun h => some (h.new (.atom .regexEmpty)))
          fun h => some (h.new (.atom .regexEmpty)) := over_new (by simp [Node.class, Atom.class])
      rw [List.map_nil, orJoin_nil, orJoin_nil]
      exact FollowsTry.bind (FollowsTry.lift new) fun regex => FollowsTry.pure rfl
  | cons regex items => exact orJoinItems_over enough regex items

/-- What optimizeRepeatOr makes of an item that repeats `regex`. -/
def optimizedRepeat (rmin : Nat) (rmax : Option Nat) (item : Ref) (regex : Option Ref)
    (min : Nat) (max : Option Nat) (h : Heap) : Raising (Option (Option Ref) × Heap) :=
  if min = 0 then
    if rmin = 0 ∨ rmin = 1 then
      if rmax = max ∧ max = none then pure (some regex, h)
      else (liftM (plainRepeat regex 1 max h) : Raising (Ref × Heap)) >>= fun (new, h) =>
        pure (some (some new), h)
    else pure (some (some item), h)
  else if min = 1 then
    if rmax = max ∧ max = none then pure (some regex, h)
    else pure (some (some item), h)
  else if rmax = max ∧ max = none then
    (liftM (plainRepeat regex min (some min) h) : Raising (Ref × Heap)) >>= fun (new, h) =>
      pure (some (some new), h)
  else pure (some (some item), h)

theorem optimizedRepeat_over (rmin : Nat) (rmax : Option Nat) (item : Ref) (regex : Option Ref)
    (min : Nat) (max : Option Nat) :
    FollowsTry (Over asked k) (Option.map (Option.map k.up))
      (optimizedRepeat rmin rmax item regex min max)
      (optimizedRepeat rmin rmax (k.up item) (regex.map k.up) min max) := by
  have new : ∀ low high, FollowsTry (Over asked k) (Option.map (Option.map k.up))
      (fun h => (liftM (plainRepeat regex low high h) : Raising (Ref × Heap)) >>= fun (new, h) =>
        (pure (some (some new), h) : Raising (Option (Option Ref) × Heap)))
      fun h => (liftM (plainRepeat (regex.map k.up) low high h) : Raising (Ref × Heap)) >>=
        fun (new, h) => pure (some (some new), h) :=
    fun low high => FollowsTry.bind (plainRepeat_over regex low high)
      fun new => FollowsTry.pure rfl
  refine FollowsTry.ite Iff.rfl (fun _ => ?_) fun _ => ?_
  · refine FollowsTry.ite Iff.rfl (fun _ => ?_) fun _ => FollowsTry.pure rfl
    exact FollowsTry.ite Iff.rfl (fun _ => FollowsTry.pure rfl) fun _ => new 1 max
  · refine FollowsTry.ite Iff.rfl (fun _ => ?_) fun _ => ?_
    · exact FollowsTry.ite Iff.rfl (fun _ => FollowsTry.pure rfl) fun _ => FollowsTry.pure rfl
    · exact FollowsTry.ite Iff.rfl (fun _ => new min (some min)) fun _ => FollowsTry.pure rfl

/-- `optimizedItem` once it has the node of the item. -/
def optimizedNode (rmin : Nat) (rmax : Option Nat) (item : Ref) (node : Node) (h : Heap) :
    Raising (Option (Option Ref) × Heap) :=
  match node with
  | .atom .regexEmpty => pure (none, h)
  | node =>
      match repeatParts node with
      | none => pure (some (some item), h)
      | some (regex, min, max) => optimizedRepeat rmin rmax item regex min max h

theorem optimizedItem_step (rmin : Nat) (rmax : Option Nat) (item : Ref) :
    optimizedItem rmin rmax item = fun h =>
      (liftM (h.node? item) : Raising Node) >>= fun node =>
        optimizedNode rmin rmax item node h := by
  funext h
  unfold optimizedItem
  refine congrArg _ (funext fun node => ?_)
  cases node with
  | atom leaf => cases leaf <;> rfl
  | _ => rfl

theorem optimizedItem_over (rmin : Nat) (rmax : Option Nat) (item : Ref) :
    FollowsTry (Over asked k) (Option.map (Option.map k.up)) (optimizedItem rmin rmax item)
      (optimizedItem rmin rmax (k.up item)) := by
  rw [optimizedItem_step, optimizedItem_step]
  refine FollowsTry.read (fun h h' onto node here => onto.node? here) fun node => ?_
  cases node with
  | atom leaf =>
      cases leaf with
      | regexRepeatNone min max => exact optimizedRepeat_over rmin rmax item none min max
      | _ => exact FollowsTry.pure rfl
  | regexRepeat regex min max => exact optimizedRepeat_over rmin rmax item (some regex) min max
  | _ => exact FollowsTry.pure rfl

theorem optimizedItems_over (rmin : Nat) (rmax : Option Nat) (items : List Ref) :
    FollowsTry (Over asked k) (List.map (Option.map k.up)) (optimizedItems rmin rmax items)
      (optimizedItems rmin rmax (items.map k.up)) := by
  induction items with
  | nil => exact FollowsTry.pure rfl
  | cons item items induction =>
      refine FollowsTry.bind (optimizedItem_over rmin rmax item) fun new => ?_
      refine FollowsTry.bind induction fun content => FollowsTry.pure ?_
      cases new <;> simp

theorem mapM_over {h h' : Heap} (onto : Over asked k h h') {content : List Ref} {nodes : List Node}
    (here : content.mapM h.node? = some nodes) :
    (content.map k.up).mapM h'.node? = some (nodes.map k.upNode) := by
  induction content generalizing nodes with
  | nil =>
      cases here
      rfl
  | cons item content induction =>
      rw [List.mapM_cons] at here
      obtain ⟨node, hereItem, here⟩ := Option.bind_eq_some_iff.mp here
      obtain ⟨rest, hereRest, here⟩ := Option.bind_eq_some_iff.mp here
      cases here
      rw [List.map_cons, List.mapM_cons, onto.node? hereItem, induction hereRest]
      rfl

/-- `RegexRepeat(ref, rmin, rmax)` for a regex that is no alternative. -/
def repeatParted (ref : Ref) (rmin : Nat) (rmax : Option Nat)
    (parts : Option (Option Ref × Nat × Option Nat)) (h : Heap) : Raising (Ref × Heap) :=
  match parts with
  | none => liftM (plainRepeat (some ref) rmin rmax h)
  | some (inner, min, max) =>
      if rmin = 0 ∧ rmax = some 1 then liftM (plainRepeat (some ref) rmin rmax h)
      else liftM (plainRepeat inner (rmin * min) (productMax max rmax) h)

theorem repeatParted_over (ref : Ref) (rmin : Nat) (rmax : Option Nat)
    (parts : Option (Option Ref × Nat × Option Nat)) :
    FollowsTry (Over asked k) k.up (repeatParted ref rmin rmax parts)
      (repeatParted (k.up ref) rmin rmax
        (parts.map fun (regex, min, max) => (regex.map k.up, min, max))) := by
  cases parts with
  | none => exact plainRepeat_over (some ref) rmin rmax
  | some parts =>
      obtain ⟨inner, min, max⟩ := parts
      exact FollowsTry.ite Iff.rfl (fun _ => plainRepeat_over (some ref) rmin rmax)
        fun _ => plainRepeat_over inner _ _

/-- `RegexRepeat(ref, rmin, rmax)` once it has the node of its regex. -/
def repeatNode (fuel : Nat) (ref : Ref) (rmin : Nat) (rmax : Option Nat) (node : Node)
    (h : Heap) : Raising (Ref × Heap) :=
  match node with
  | .regexOr content =>
      (liftM (content.mapM h.node?) : Raising (List Node)) >>= fun nodes =>
        optimizedItems (fixedMin rmin nodes) rmax content h >>= fun (items, h) =>
          orJoin fuel items h >>= fun (regex, h) =>
            (liftM (plainRepeat regex (fixedMin rmin nodes) rmax h) : Raising (Ref × Heap))
  | node => repeatParted ref rmin rmax (repeatParts node) h

theorem regexRepeat_step (fuel : Nat) (ref : Ref) (rmin : Nat) (rmax : Option Nat) :
    regexRepeat fuel (some ref) rmin rmax = fun h =>
      (liftM (h.node? ref) : Raising Node) >>= fun node =>
        repeatNode fuel ref rmin rmax node h := by
  funext h
  cases here : h.node? ref with
  | none =>
      unfold regexRepeat
      simp only [here]
      rfl
  | some node =>
      cases node with
      | regexOr content =>
          rw [regexRepeat_of_or here, optimizeRepeatOr]
          simp only [bind_assoc, pure_bind]
          rfl
      | regexRepeat inner min max =>
          unfold regexRepeat
          simp only [here]
          change _ = if rmin = 0 ∧ rmax = some 1 then _ else _
          split <;> rfl
      | regexAnd content =>
          unfold regexRepeat
          simp only [here]
          rfl
      | atom leaf =>
          unfold regexRepeat
          simp only [here]
          cases leaf with
          | regexRepeatNone min max =>
              change _ = if rmin = 0 ∧ rmax = some 1 then _ else _
              split <;> rfl
          | _ => rfl

theorem regexRepeat_over {fuel more : Nat} (enough : fuel ≤ more) (regex : Option Ref) (rmin : Nat)
    (rmax : Option Nat) :
    FollowsTry (Over asked k) k.up (regexRepeat fuel regex rmin rmax)
      (regexRepeat more (regex.map k.up) rmin rmax) := by
  cases regex with
  | none => exact plainRepeat_over none rmin rmax
  | some ref =>
      rw [regexRepeat_step, Option.map_some, regexRepeat_step]
      refine FollowsTry.read (fun h h' onto node here => onto.node? here) fun node => ?_
      cases node with
      | regexOr content =>
          refine FollowsTry.read (fun h h' onto nodes here => mapM_over onto here) fun nodes => ?_
          rw [fixedMin_up]
          refine FollowsTry.bind (optimizedItems_over (fixedMin rmin nodes) rmax content)
            fun items => ?_
          exact FollowsTry.bind (orJoin_over enough items)
            fun regex => plainRepeat_over regex (fixedMin rmin nodes) rmax
      | atom leaf =>
          cases leaf with
          | regexRepeatNone min max =>
              exact repeatParted_over ref rmin rmax (some (none, min, max))
          | _ => exact repeatParted_over ref rmin rmax none
      | regexRepeat inner min max =>
          exact repeatParted_over ref rmin rmax (some (some inner, min, max))
      | regexAnd content => exact repeatParted_over ref rmin rmax none

/-! The parser. -/

theorem charAt_over (text : List UInt8) (index : Nat) :
    FollowsLogged (Over asked k) id (charAt text index) (charAt text index) := by
  unfold charAt
  cases text[index]? with
  | none => exact FollowsLogged.raise _
  | some char => exact FollowsLogged.pure rfl

theorem newAtom_over {leaf : Atom} (notRange : leaf.class ≠ .regexRange) :
    FollowsLogged (Over asked k) k.up (newAtom leaf) (newAtom leaf) := by
  have follows := @over_new asked k (.atom leaf) notRange
  cases leaf with
  | regexRange container ranges exclude => exact absurd rfl notRange
  | _ => exact FollowsLogged.step follows

theorem newString_over (char : UInt8) :
    FollowsLogged (Over asked k) k.up (newString char) (newString char) :=
  newAtom_over (by simp [Atom.class])

theorem newItem_counts {items cmin cmax : Nat} {made : RegexRangeItem × Nat}
    (here : newItem items cmin cmax = some made) : made.1.identity < made.2 ∧ items < made.2 := by
  unfold newItem at here
  split_ifs at here
  cases here
  exact ⟨Nat.lt_succ_self items, Nat.lt_succ_self items⟩

theorem rangeCharacter_over (char : UInt8) :
    FollowsLogged (Over asked k) (RegexRangeItem.moved k.items) (rangeCharacter char)
      (rangeCharacter char) := by
  refine FollowsLogged.step fun h h' onto item after ran => ?_
  cases ran
  exact ⟨_, by rw [onto.same]; rfl, onto.items over_closed (Nat.le_succ h.items)⟩

theorem rangeItem_over (cmin cmax : UInt8) :
    FollowsLogged (Over asked k) (RegexRangeItem.moved k.items) (rangeItem cmin cmax)
      (rangeItem cmin cmax) := by
  intro h h' onto fed
  have same : h'.items = k.items + h.items := congrArg Heap.items onto.same
  have moved := newItem_moved k.items h.items cmin.toNat cmax.toNat
  rw [← same] at moved
  unfold rangeItem Logged.tryStep
  beta_reduce
  rw [moved]
  cases made : newItem h.items cmin.toNat cmax.toNat with
  | none => exact ⟨rfl, onto, rfl⟩
  | some item => exact ⟨rfl, onto.items over_closed (newItem_counts made).2.le, rfl⟩

/-- A list of items and an index, over `k`. -/
def upItems (k : Heap) : List RegexRangeItem × Nat → List RegexRangeItem × Nat :=
  Prod.map (List.map (RegexRangeItem.moved k.items)) id

theorem rangeLoop_over {fuel more : Nat} (enough : fuel ≤ more) (text : List UInt8) (index : Nat)
    (charRange : List RegexRangeItem) :
    FollowsLogged (Over asked k) (upItems k) (rangeLoop fuel text index charRange)
      (rangeLoop more text index (charRange.map (RegexRangeItem.moved k.items))) := by
  induction fuel generalizing more index charRange with
  | zero => exact FollowsLogged.starve _
  | succ fuel induction =>
      obtain ⟨more, rfl⟩ : ∃ less, more = less + 1 := ⟨more - 1, by omega⟩
      have enough := Nat.le_of_succ_le_succ enough
      have next : ∀ (item : RegexRangeItem) (after : Nat), FollowsLogged (Over asked k) (upItems k)
          (Logged.enter ⟨.parseRange, index, after⟩ >>= fun _ =>
            rangeLoop fuel text after (charRange ++ [item]))
          (Logged.enter ⟨.parseRange, index, after⟩ >>= fun _ =>
            rangeLoop more text after
              (charRange.map (RegexRangeItem.moved k.items) ++ [item.moved k.items])) := by
        intro item after
        refine FollowsLogged.bind (FollowsLogged.enter _) fun _ => ?_
        have later := induction enough after (charRange ++ [item])
        rwa [List.map_append, List.map_singleton] at later
      rw [rangeLoop, rangeLoop]
      refine FollowsLogged.ite (fun _ => ?_) fun _ => FollowsLogged.pure rfl
      refine FollowsLogged.ite (fun _ => ?_) fun _ => ?_
      · refine FollowsLogged.bind (charAt_over text (index + 1)) fun char => ?_
        exact FollowsLogged.bind (rangeCharacter_over char) fun item => next item (index + 2)
      refine FollowsLogged.ite (fun _ => FollowsLogged.pure rfl) fun _ => ?_
      refine FollowsLogged.ite (fun _ => ?_) fun _ => ?_
      · refine FollowsLogged.bind (charAt_over text index) fun cmin => ?_
        refine FollowsLogged.bind (charAt_over text (index + 2)) fun cmax => ?_
        exact FollowsLogged.bind (rangeItem_over cmin cmax) fun item => next item (index + 3)
      · refine FollowsLogged.bind (charAt_over text index) fun char => ?_
        exact FollowsLogged.bind (rangeCharacter_over char) fun item => next item (index + 1)

theorem leadingBracket_over (text : List UInt8) (index : Nat) :
    FollowsLogged (Over asked k) (upItems k) (leadingBracket text index)
      (leadingBracket text index) := by
  refine FollowsLogged.bind (charAt_over text index) fun char => ?_
  refine FollowsLogged.ite (fun _ => ?_) fun _ => FollowsLogged.pure rfl
  exact FollowsLogged.bind (rangeCharacter_over _) fun item => FollowsLogged.pure rfl

theorem trailingDash_over (text : List UInt8) (index : Nat) (charRange : List RegexRangeItem) :
    FollowsLogged (Over asked k) (upItems k) (trailingDash text index charRange)
      (trailingDash text index (charRange.map (RegexRangeItem.moved k.items))) := by
  refine FollowsLogged.ite (fun _ => ?_) fun _ => FollowsLogged.pure rfl
  refine FollowsLogged.bind (rangeCharacter_over _) fun item => FollowsLogged.pure ?_
  simp [upItems]

/-! The counter has passed the items that the parser makes. -/

theorem rangeCharacter_counts (char : UInt8) (h : Heap) :
    Logged.Meets (rangeCharacter char) h
      (fun item h' => h.items ≤ h'.items ∧ item.identity < h'.items) fun _ => True :=
  ⟨Nat.le_succ h.items, Nat.lt_succ_self h.items⟩

theorem rangeItem_counts (cmin cmax : UInt8) (h : Heap) :
    Logged.Meets (rangeItem cmin cmax) h
      (fun item h' => h.items ≤ h'.items ∧ item.identity < h'.items) fun _ => True := by
  unfold rangeItem Logged.tryStep Logged.Meets
  beta_reduce
  cases made : newItem h.items cmin.toNat cmax.toNat with
  | none => trivial
  | some item => exact ⟨(newItem_counts made).2.le, (newItem_counts made).1⟩

theorem charAt_meets (text : List UInt8) (index : Nat) (h : Heap) :
    Logged.Meets (charAt text index) h (fun _ h' => h' = h) fun _ => True := by
  unfold charAt
  cases text[index]? with
  | none => exact Logged.Meets.raise trivial
  | some char => exact Logged.Meets.pure rfl

theorem counted_append {h h' : Heap} {charRange : List RegexRangeItem} {item : RegexRangeItem}
    (known : ∀ item ∈ charRange, item.identity < h.items) (grows : h.items ≤ h'.items)
    (new : item.identity < h'.items) : ∀ other ∈ charRange ++ [item], other.identity < h'.items :=
  appended_numbered (fun other member => Nat.lt_of_lt_of_le (known other member) grows) new

theorem rangeLoop_counts (fuel : Nat) (text : List UInt8) (index : Nat)
    {charRange : List RegexRangeItem} {h : Heap}
    (known : ∀ item ∈ charRange, item.identity < h.items) :
    Logged.Meets (rangeLoop fuel text index charRange) h
      (fun found h' => ∀ item ∈ found.1, item.identity < h'.items) fun _ => True := by
  induction fuel generalizing index charRange h with
  | zero => exact Logged.Meets.starve
  | succ fuel induction =>
      have next : ∀ (after : Nat) {making : Parsing RegexRangeItem},
          Logged.Meets making h (fun item h' => h.items ≤ h'.items ∧ item.identity < h'.items)
            (fun _ => True) →
          Logged.Meets (making >>= fun item => Logged.enter ⟨.parseRange, index, after⟩ >>= fun _ =>
            rangeLoop fuel text after (charRange ++ [item])) h
            (fun found h' => ∀ item ∈ found.1, item.identity < h'.items) fun _ => True := by
        intro after making made
        refine Logged.Meets.bind made fun item h1 _ counted => ?_
        have entered : Logged.Meets (Logged.enter (⟨.parseRange, index, after⟩ : Turn)) h1
            (fun _ h2 => h2 = h1) fun _ : String => True := Logged.Meets.enter rfl
        refine Logged.Meets.bind entered fun _ h2 _ same => ?_
        subst same
        exact induction after (counted_append known counted.1 counted.2)
      rw [rangeLoop]
      split_ifs
      · refine Logged.Meets.bind (charAt_meets text _ h) fun char h1 _ same => ?_
        subst same
        exact next _ (rangeCharacter_counts char _)
      · exact Logged.Meets.pure known
      · refine Logged.Meets.bind (charAt_meets text _ h) fun cmin h1 _ same => ?_
        subst same
        refine Logged.Meets.bind (charAt_meets text _ _) fun cmax h1 _ same => ?_
        subst same
        exact next _ (rangeItem_counts cmin cmax _)
      · refine Logged.Meets.bind (charAt_meets text _ h) fun char h1 _ same => ?_
        subst same
        exact next _ (rangeCharacter_counts char _)
      · exact Logged.Meets.pure known

theorem leadingBracket_counts (text : List UInt8) (index : Nat) (h : Heap) :
    Logged.Meets (leadingBracket text index) h
      (fun found h' => ∀ item ∈ found.1, item.identity < h'.items) fun _ => True := by
  refine Logged.Meets.bind (charAt_meets text index h) fun char h1 _ same => ?_
  subst same
  split_ifs
  · refine Logged.Meets.bind (rangeCharacter_counts _ _) fun item h2 _ counted => ?_
    exact Logged.Meets.pure fun other member => List.mem_singleton.mp member ▸ counted.2
  · exact Logged.Meets.pure fun _ member => by cases member

theorem trailingDash_counts (text : List UInt8) (index : Nat) {charRange : List RegexRangeItem}
    {h : Heap} (known : ∀ item ∈ charRange, item.identity < h.items) :
    Logged.Meets (trailingDash text index charRange) h
      (fun found h' => ∀ item ∈ found.1, item.identity < h'.items) fun _ => True := by
  unfold trailingDash
  split_ifs
  · refine Logged.Meets.bind (rangeCharacter_counts _ h) fun item h1 _ counted => ?_
    exact Logged.Meets.pure (counted_append known counted.1 counted.2)
  · exact Logged.Meets.pure known

/-- A regex and an index, over `k`. -/
def upIndexed (k : Heap) : Ref × Nat → Ref × Nat :=
  Prod.map k.up id

theorem parseRange_over {fuel more : Nat} (enough : fuel ≤ more) (text : List UInt8) (start : Nat) :
    FollowsLogged (Over asked k) (upIndexed k) (parseRange fuel text start)
      (parseRange more text start) := by
  refine FollowsLogged.bind (charAt_over text start) fun char => ?_
  intro h h' onto
  refine FollowsLoggedAt.bind (leadingBracket_over text _ h h' onto)
    (leadingBracket_counts text _ h) fun found h h' known onto => ?_
  refine FollowsLoggedAt.bind (rangeLoop_over enough text found.2 found.1 h h' onto)
    (rangeLoop_counts fuel text found.2 known) fun found h h' known onto => ?_
  refine FollowsLoggedAt.bind (trailingDash_over text found.2 found.1 h h' onto)
    (trailingDash_counts text found.2 known) fun found h h' known onto => ?_
  refine FollowsLoggedAt.ite (fun _ => FollowsLogged.raise _ h h' onto) fun _ => ?_
  have built := regexRange_follows over_closed onto
    (fun item member => .inl (known item member)) (decide (char = '^'.toUInt8))
  exact FollowsLoggedAt.bind (FollowsLoggedAt.step built) (Logged.Meets.trivial _ h)
    fun regex h h' _ onto => FollowsLogged.pure rfl h h' onto

theorem newRegexRepeat_over {fuel more : Nat} (enough : fuel ≤ more) (last : Option Ref)
    (rmin : Nat)
    (rmax : Option Nat) :
    FollowsLogged (Over asked k) k.up (newRegexRepeat fuel last rmin rmax)
      (newRegexRepeat more (last.map k.up) rmin rmax) :=
  FollowsLogged.tryStep (regexRepeat_over enough last rmin rmax)

theorem addLast_over {fuel more : Nat} (enough : fuel ≤ more) (regex : Ref) (last : Option Ref) :
    FollowsLogged (Over asked k) k.up (addLast fuel regex last)
      (addLast more (k.up regex) (last.map k.up)) := by
  cases last with
  | none => exact FollowsLogged.pure rfl
  | some last =>
      exact FollowsLogged.step (dunderAnd_follows over_closed enough regex last)

theorem orNext_over {fuel more : Nat} (enough : fuel ≤ more) (regex : Option Ref) (newRegex : Ref) :
    FollowsLogged (Over asked k) k.up (orNext fuel regex newRegex)
      (orNext more (regex.map k.up) (k.up newRegex)) := by
  cases regex with
  | none => exact FollowsLogged.pure rfl
  | some regex => exact FollowsLogged.step (dunderOr_over enough regex newRegex)

theorem escaped_over (text : List UInt8) (index : Nat) :
    FollowsLogged (Over asked k) (upIndexed k) (escaped text index) (escaped text index) := by
  refine FollowsLogged.ite (fun _ => FollowsLogged.raise _) fun _ => ?_
  refine FollowsLogged.bind (charAt_over text (index + 1)) fun char => ?_
  refine FollowsLogged.ite (fun _ => ?_) fun _ => ?_
  · exact FollowsLogged.bind (newAtom_over (by simp [Atom.class])) fun regex =>
      FollowsLogged.pure rfl
  refine FollowsLogged.ite (fun _ => ?_) fun _ => FollowsLogged.raise _
  exact FollowsLogged.bind (newString_over char) fun regex => FollowsLogged.pure rfl

theorem parseRepeat_over (text : List UInt8) (start : Nat) :
    FollowsLogged (Over asked k) id (parseRepeat text start) (parseRepeat text start) := by
  refine FollowsLogged.ite (fun _ => FollowsLogged.pure rfl) fun _ => ?_
  exact FollowsLogged.ite (fun _ => FollowsLogged.pure rfl) fun _ => FollowsLogged.raise _

/-- The regexes of the parser's loop and an index, over `k`. -/
def upState (k : Heap) : Ref × Option Ref × Nat → Ref × Option Ref × Nat :=
  Prod.map k.up (Prod.map (Option.map k.up) id)

theorem simpleCommand_over {fuel more : Nat} (enough : fuel ≤ more) (text : List UInt8)
    (index : Nat) (char : UInt8) (last : Option Ref) :
    FollowsLogged (Over asked k) (upState k) (simpleCommand fuel text index char last)
      (simpleCommand more text index char (last.map k.up)) := by
  have repeated : ∀ (rmin : Nat) (rmax : Option Nat) (after : Nat),
      FollowsLogged (Over asked k) (upState k)
        (newRegexRepeat fuel last rmin rmax >>= fun newRegex => pure (newRegex, none, after))
        (newRegexRepeat more (last.map k.up) rmin rmax >>= fun newRegex =>
          pure (newRegex, none, after)) :=
    fun rmin rmax after => FollowsLogged.bind (newRegexRepeat_over enough last rmin rmax)
      fun newRegex => FollowsLogged.pure rfl
  unfold simpleCommand
  cases leaf : charToClass char with
  | some leaf' =>
      have notRange : leaf'.class ≠ .regexRange := by
        unfold charToClass at leaf
        split_ifs at leaf <;> cases leaf <;> simp [Atom.class]
      exact FollowsLogged.bind (newAtom_over notRange) fun newRegex => FollowsLogged.pure rfl
  | none =>
      cases charToRepeat char with
      | some bounds =>
          obtain ⟨rmin, rmax⟩ := bounds
          cases last with
          | none => exact FollowsLogged.raise _
          | some last => exact repeated rmin rmax (index + 1)
      | none =>
          refine FollowsLogged.ite (fun _ => ?_) fun _ => ?_
          · exact FollowsLogged.bind (parseRange_over enough text (index + 1))
              fun found => FollowsLogged.pure rfl
          refine FollowsLogged.ite (fun _ => ?_) fun _ => ?_
          · exact FollowsLogged.bind (parseRepeat_over text (index + 1))
              fun found => repeated found.1 found.2.1 found.2.2
          refine FollowsLogged.ite (fun _ => ?_) fun _ => FollowsLogged.raise _
          exact FollowsLogged.bind (escaped_over text index) fun found => FollowsLogged.pure rfl

/-- The functions of the parser, with less fuel and with more. -/
structure ParseFollows (asked : Prop) (k : Heap) (text : List UInt8) (fuel more : Nat) : Prop where
  underParse : ∀ start untilChars, FollowsLogged (Over asked k) (upIndexed k)
    (underParse fuel text start untilChars) (underParse more text start untilChars)
  parseLoop : ∀ index untilChars regex last, FollowsLogged (Over asked k) (upState k)
    (parseLoop fuel text index untilChars regex last)
    (parseLoop more text index untilChars (k.up regex) (last.map k.up))
  command : ∀ index char last, FollowsLogged (Over asked k) (upState k)
    (command fuel text index char last) (command more text index char (last.map k.up))
  parseOr : ∀ start, FollowsLogged (Over asked k) (upIndexed k) (parseOr fuel text start)
    (parseOr more text start)
  orLoop : ∀ index regex, FollowsLogged (Over asked k) (upIndexed k)
    (orLoop fuel text index regex) (orLoop more text index (regex.map k.up))

theorem parse_follows (text : List UInt8) (fuel : Nat) {more : Nat} (enough : fuel ≤ more) :
    ParseFollows asked k text fuel more := by
  induction fuel generalizing more with
  | zero =>
      refine ⟨fun start untilChars => ?_, fun index untilChars regex last => ?_,
        fun index char last => ?_, fun start => ?_, fun index regex => ?_⟩
      · rw [underParse]
        exact FollowsLogged.starve _
      · rw [parseLoop]
        exact FollowsLogged.starve _
      · rw [command]
        exact FollowsLogged.starve _
      · rw [parseOr]
        exact FollowsLogged.starve _
      · rw [orLoop]
        exact FollowsLogged.starve _
  | succ fuel induction =>
      obtain ⟨more, rfl⟩ : ∃ less, more = less + 1 := ⟨more - 1, by omega⟩
      have enough := Nat.le_of_succ_le_succ enough
      have follows := induction enough
      refine ⟨fun start untilChars => ?_, fun index untilChars regex last => ?_,
        fun index char last => ?_, fun start => ?_, fun index regex => ?_⟩
      · rw [underParse_step, underParse_step]
        refine FollowsLogged.bind (newAtom_over (by simp [Atom.class])) fun regex => ?_
        refine FollowsLogged.ite (fun _ => FollowsLogged.pure rfl) fun _ => ?_
        refine FollowsLogged.bind (follows.parseLoop start untilChars regex none) fun found => ?_
        exact FollowsLogged.bind (addLast_over enough found.1 found.2.1)
          fun regex => FollowsLogged.pure rfl
      · cases here : text[index]? with
        | none =>
            rw [parseLoop_end _ _ _ here, parseLoop_end _ _ _ here]
            exact FollowsLogged.pure rfl
        | some char =>
            by_cases stops : char ∈ untilChars
            · rw [parseLoop_until _ _ _ here stops, parseLoop_until _ _ _ here stops]
              exact FollowsLogged.pure rfl
            by_cases special : char ∈ regexCommandCharacters
            · rw [parseLoop_command _ _ _ here stops special,
                parseLoop_command _ _ _ here stops special]
              refine FollowsLogged.bind (follows.command index char last) fun found => ?_
              refine FollowsLogged.bind (addLast_over enough regex found.2.1) fun regex => ?_
              refine FollowsLogged.bind (FollowsLogged.enter _) fun _ => ?_
              exact follows.parseLoop found.2.2 untilChars regex (some found.1)
            · rw [parseLoop_character _ _ _ here stops special,
                parseLoop_character _ _ _ here stops special]
              refine FollowsLogged.bind (addLast_over enough regex last) fun regex => ?_
              refine FollowsLogged.bind (newString_over char) fun newRegex => ?_
              refine FollowsLogged.bind (FollowsLogged.enter _) fun _ => ?_
              exact follows.parseLoop (index + 1) untilChars regex (some newRegex)
      · by_cases group : char = '('.toUInt8
        · subst group
          rw [command_group, command_group]
          exact FollowsLogged.bind (follows.parseOr (index + 1)) fun found =>
            FollowsLogged.pure rfl
        · rw [command_simple _ _ _ group, command_simple _ _ _ group]
          exact simpleCommand_over enough text index char last
      · rw [parseOr_step, parseOr_step]
        refine FollowsLogged.bind (charAt_over text _) fun char => ?_
        refine FollowsLogged.ite (fun _ => FollowsLogged.raise _) fun _ => ?_
        exact FollowsLogged.bind (follows.orLoop _ none) fun found => FollowsLogged.pure rfl
      · rw [orLoop_step, orLoop_step]
        refine FollowsLogged.bind (follows.underParse index _) fun found => ?_
        refine FollowsLogged.bind (orNext_over enough regex found.1) fun regex => ?_
        refine FollowsLogged.ite (fun _ => FollowsLogged.raise _) fun _ => ?_
        refine FollowsLogged.bind (FollowsLogged.enter _) fun _ => ?_
        refine FollowsLogged.ite (fun _ => FollowsLogged.pure rfl) fun _ => ?_
        exact follows.orLoop (found.2 + 1) (some regex)

/-- `parse(text)` does the same in a heap on top of another one. -/
theorem parse_over (text : List UInt8) {fuel more : Nat} (enough : fuel ≤ more) :
    FollowsLogged (Over asked k) k.up (parse fuel text) (parse more text) := by
  refine FollowsLogged.bind ((parse_follows text fuel enough).underParse 0 []) fun found => ?_
  exact FollowsLogged.ite (fun _ => FollowsLogged.pure rfl) fun _ => FollowsLogged.raise _

/-! The heap on top of an empty one is the heap itself. -/

def Heap.empty : Heap :=
  { objects := [], items := 0 }

theorem up_empty : Heap.empty.up = id :=
  funext fun r => Nat.zero_add r

theorem moved_zero : RegexRangeItem.moved 0 = id := by
  funext item
  cases item
  simp [RegexRangeItem.moved]

theorem upNode_empty : Heap.empty.upNode = id := by
  funext node
  cases node with
  | atom leaf =>
      cases leaf with
      | regexRange container ranges exclude =>
          simp [Heap.upNode, Atom.moved, Heap.empty, moved_zero]
      | _ => rfl
  | regexRepeat regex min max => simp [Heap.upNode, up_empty]
  | _ => simp [Heap.upNode, up_empty]

theorem under_empty (h : Heap) : Heap.empty.under h = h := by
  unfold Heap.under
  rw [upNode_empty]
  simp [Heap.empty]

theorem over_empty {h h' : Heap} : Over False Heap.empty h h' ↔ h' = h := by
  constructor
  · intro above
    rw [above.same, under_empty]
  · rintro rfl
    exact ⟨(under_empty h').symm, fun asked => asked.elim⟩

theorem steady_of_follows {α : Type} {move : α → α} {run : Nat → Parsing α}
    (same : move = id) (follows : ∀ fuel more, fuel ≤ more →
      FollowsLogged (Over False Heap.empty) move (run fuel) (run more)) : Logged.Steady run := by
  intro fuel more h enough fed
  obtain ⟨outcome, heap, log⟩ := follows fuel more enough h h (over_empty.mpr rfl) fed
  rw [over_empty] at heap
  have mapped : (run fuel h).1.map move = (run fuel h).1 := by
    rw [same]
    cases (run fuel h).1 <;> rfl
  rw [mapped] at outcome
  exact Prod.ext outcome (Prod.ext heap log)

section Steady

variable (text : List UInt8)

theorem map_up_empty (regex : Option Ref) : regex.map Heap.empty.up = regex := by
  rw [up_empty, Option.map_id_fun, id]

theorem upIndexed_empty : upIndexed Heap.empty = id := by
  funext found
  rw [upIndexed, up_empty]
  rfl

theorem upState_empty : upState Heap.empty = id := by
  funext state
  obtain ⟨regex, last, index⟩ := state
  rw [upState, up_empty, Option.map_id_fun]
  rfl

theorem addLast_steady (regex : Ref) (last : Option Ref) :
    Logged.Steady fun fuel => addLast fuel regex last := by
  refine steady_of_follows up_empty fun fuel more enough => ?_
  have follows := @addLast_over False Heap.empty _ _ enough regex last
  rwa [map_up_empty, congrFun up_empty regex] at follows

theorem orNext_steady (regex : Option Ref) (newRegex : Ref) :
    Logged.Steady fun fuel => orNext fuel regex newRegex := by
  refine steady_of_follows up_empty fun fuel more enough => ?_
  have follows := @orNext_over False Heap.empty _ _ enough regex newRegex
  rwa [map_up_empty, congrFun up_empty newRegex] at follows

theorem simpleCommand_steady (index : Nat) (char : UInt8) (last : Option Ref) :
    Logged.Steady fun fuel => simpleCommand fuel text index char last := by
  refine steady_of_follows upState_empty fun fuel more enough => ?_
  have follows := @simpleCommand_over False Heap.empty _ _ enough text index char last
  rwa [map_up_empty] at follows

theorem underParse_steady (start : Nat) (untilChars : List UInt8) :
    Logged.Steady fun fuel => underParse fuel text start untilChars :=
  steady_of_follows upIndexed_empty fun fuel _ enough =>
    (parse_follows text fuel enough).underParse start untilChars

theorem command_steady (index : Nat) (char : UInt8) (last : Option Ref) :
    Logged.Steady fun fuel => command fuel text index char last := by
  refine steady_of_follows upState_empty fun fuel more enough => ?_
  have follows := (@parse_follows False Heap.empty text fuel _ enough).command index char last
  rwa [map_up_empty] at follows

theorem parse_steady : Logged.Steady fun fuel => parse fuel text :=
  steady_of_follows up_empty fun _ _ enough => parse_over text enough

end Steady

end Segvault.HachoirRegex
