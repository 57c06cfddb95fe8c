import Segvault.HachoirRegex.Concat
import Segvault.Repeats

namespace Segvault.HachoirRegex

open Relation Spans

/-! RegexRepeat and its optimisations. An `error` is an exception with its text. -/

abbrev Raising := ExceptT String Option

def newRepeat (regex : Option Ref) (min : Nat) (max : Option Nat) (h : Heap) : Ref × Heap :=
  match regex with
  | some regex => h.new (.regexRepeat regex min max)
  | none => h.new (.atom (.regexRepeatNone min max))

/-- The post-conditions of the constructor, all that it does with optimize=False. -/
def plainRepeat (regex : Option Ref) (rmin : Nat) (rmax : Option Nat) (h : Heap) :
    Except String (Ref × Heap) :=
  match rmax with
  | none => .ok (newRepeat regex rmin none h)
  | some max =>
      if max < rmin then
        .error ("RegexRepeat: minimum (" ++ toString rmin ++ ") is bigger than maximum (" ++
          toString max ++ ")!")
      else if max = 0 ∨ (rmin = max ∧ max = 1) then
        .error ("RegexRepeat: invalid values (min=" ++ toString rmin ++ ", max=" ++
          toString max ++ ")!")
      else .ok (newRepeat regex rmin (some max) h)

/-- `regex | item` where the one or the other may be None. -/
def orOptional (fuel : Nat) (regex item : Option Ref) (h : Heap) :
    Raising (Option Ref × Heap) :=
  match regex, item with
  | some regex, some item => do
      let (regex, h) ← liftM (dunderOr fuel regex item h)
      pure (some regex, h)
  | none, _ => throw "unsupported operand type(s) for |"
  | some _, none => throw "'NoneType' object has no attribute '_match'"

/-- The loop of `_join` with `|`. -/
def orJoinItems (fuel : Nat) (regex : Option Ref) (items : List (Option Ref)) (h : Heap) :
    Raising (Option Ref × Heap) :=
  match items with
  | [] => pure (regex, h)
  | item :: items => do
      let (regex, h) ← orOptional fuel regex item h
      orJoinItems fuel regex items h

/-- `RegexOr.join` -/
def orJoin (fuel : Nat) (regexList : List (Option Ref)) (h : Heap) :
    Raising (Option Ref × Heap) :=
  match regexList with
  | [] =>
      let (empty, h) := h.new (.atom .regexEmpty)
      pure (some empty, h)
  | regex :: items => orJoinItems fuel regex items h

/-- The bounds of a RegexRepeat with its regex, None for another regex. -/
def repeatParts : Node → Option (Option Ref × Nat × Option Nat)
  | .regexRepeat regex min max => some (some regex, min, max)
  | .atom (.regexRepeatNone min max) => some (none, min, max)
  | _ => none

/-- The first loop of optimizeRepeatOr: what the items make of `rmin`. -/
def fixedMin (rmin : Nat) : List Node → Nat
  | [] => rmin
  | .atom .regexEmpty :: items => fixedMin 0 items
  | item :: items =>
      match repeatParts item with
      | some (_, min, _) => fixedMin (if min = 0 ∧ rmin = 1 then 0 else rmin) items
      | none => fixedMin rmin items

/-- An item of the optimised alternative; None for a RegexEmpty. -/
def optimizedItem (rmin : Nat) (rmax : Option Nat) (item : Ref) (h : Heap) :
    Raising (Option (Option Ref) × Heap) := do
  let node ← liftM (h.node? item)
  match node with
  | .atom .regexEmpty => pure (none, h)
  | node =>
      match repeatParts node with
      | none => pure (some (some item), h)
      | some (regex, min, max) =>
          if min = 0 then
            if rmin = 0 ∨ rmin = 1 then
              if rmax = max ∧ max = none then pure (some regex, h)
              else do
                let (new, h) ← (plainRepeat regex 1 max h : Except String (Ref × Heap))
                pure (some (some new), h)
            else pure (some (some item), h)
          else if min = 1 then
            if rmax = max ∧ max = none then pure (some regex, h)
            else pure (some (some item), h)
          else if rmax = max ∧ max = none then do
            let (new, h) ← (plainRepeat regex min (some min) h : Except String (Ref × Heap))
            pure (some (some new), h)
          else pure (some (some item), h)

/-- The second loop of optimizeRepeatOr. -/
def optimizedItems (rmin : Nat) (rmax : Option Nat) (items : List Ref) (h : Heap) :
    Raising (List (Option Ref) × Heap) :=
  match items with
  | [] => pure ([], h)
  | item :: items => do
      let (item, h) ← optimizedItem rmin rmax item h
      let (content, h) ← optimizedItems rmin rmax items h
      pure (item.toList ++ content, h)

def optimizeRepeatOr (fuel : Nat) (rmin : Nat) (rmax : Option Nat) (content : List Ref)
    (h : Heap) : Raising (Nat × Option Nat × Option Ref × Heap) := do
  let nodes ← liftM (content.mapM h.node?)
  let rmin := fixedMin rmin nodes
  let (content, h) ← optimizedItems rmin rmax content h
  let (regex, h) ← orJoin fuel content h
  pure (rmin, rmax, regex, h)

/-- `rmax *= regex.max` when neither is None or zero, and None otherwise. -/
def productMax (max rmax : Option Nat) : Option Nat :=
  match max, rmax with
  | some max, some rmax => if max ≠ 0 ∧ rmax ≠ 0 then some (rmax * max) else none
  | _, _ => none

/-- `RegexRepeat(regex, rmin, rmax)` -/
def regexRepeat (fuel : Nat) (regex : Option Ref) (rmin : Nat) (rmax : Option Nat)
    (h : Heap) : Raising (Ref × Heap) := do
  let (rmin, rmax, regex, h) ←
    match regex with
    | none => pure (rmin, rmax, regex, h)
    | some ref => do
        let node ← liftM (h.node? ref)
        match node with
        | .regexOr content => optimizeRepeatOr fuel rmin rmax content h
        | node =>
            match repeatParts node with
            | none => pure (rmin, rmax, some ref, h)
            | some (inner, min, max) =>
                if rmin = 0 ∧ rmax = some 1 then pure (rmin, rmax, some ref, h)
                else pure (rmin * min, productMax max rmax, inner, h)
  (plainRepeat regex rmin rmax h : Except String (Ref × Heap))

/-! The bounds that the constructor takes. -/

def Accepted (min : Nat) (max : Option Nat) : Prop :=
  ∀ bound ∈ max, min ≤ bound ∧ bound ≠ 0 ∧ ¬ (min = bound ∧ bound = 1)

theorem Accepted.bounds {min : Nat} {max : Option Nat} (accepted : Accepted min max) :
    Bounds min max :=
  ⟨fun bound below => (accepted bound below).1, fun bound below => (accepted bound below).2.1⟩

theorem plainRepeat_ok {rmin : Nat} {rmax : Option Nat} (accepted : Accepted rmin rmax)
    (regex : Option Ref) (h : Heap) :
    plainRepeat regex rmin rmax h = .ok (newRepeat regex rmin rmax h) := by
  cases rmax with
  | none => rfl
  | some max =>
      obtain ⟨ordered, positive, several⟩ := accepted max rfl
      have invalid : ¬ (max = 0 ∨ (rmin = max ∧ max = 1)) := not_or.mpr ⟨positive, several⟩
      rw [plainRepeat, if_neg (Nat.not_lt.mpr ordered), if_neg invalid]

theorem accepted_of_ok {rmin : Nat} {rmax : Option Nat} {regex : Option Ref} {h : Heap}
    {result : Ref × Heap} (built : plainRepeat regex rmin rmax h = .ok result) :
    Accepted rmin rmax := by
  intro max below
  cases below
  rw [plainRepeat] at built
  split at built
  · cases built
  split at built
  · cases built
  rename_i ordered invalid
  rw [not_or] at invalid
  exact ⟨Nat.not_lt.mp ordered, invalid.1, invalid.2⟩

theorem newRepeat_rep {h : Heap} {regex : Tree} (rep : regex.Rep h) (min : Nat)
    (max : Option Nat) :
    (newRepeat (some regex.ref) min max h).1 = h.size ∧
      (Tree.regexRepeat h.size regex min max).Rep (newRepeat (some regex.ref) min max h).2 :=
  ⟨rfl, h.new_node? _, rep.extends (h.new_extends _)⟩

/-! A repeat of a repeat. -/

theorem accepted_product {least : Nat} {most : Option Nat} {low : Nat} {high : Option Nat}
    (inner : Accepted least most) (outer : Accepted low high) :
    Accepted (low * least) (product most high) := by
  intro bound below
  cases most with
  | none => cases below
  | some most =>
      cases high with
      | none => cases below
      | some high =>
          cases below
          obtain ⟨orderedIn, positiveIn, severalIn⟩ := inner most rfl
          obtain ⟨orderedOut, positiveOut, severalOut⟩ := outer high rfl
          refine ⟨?_, Nat.mul_ne_zero positiveIn positiveOut, ?_⟩
          · rw [Nat.mul_comm low]
            exact Nat.mul_le_mul orderedIn orderedOut
          · rintro ⟨same, one⟩
            have oneIn := Nat.eq_one_of_mul_eq_one_right one
            have single : low * least = 1 := same.trans one
            exact severalIn ⟨(Nat.eq_one_of_mul_eq_one_left single).trans oneIn.symm, oneIn⟩

theorem productMax_eq {least : Nat} {most : Option Nat} {low : Nat} {high : Option Nat}
    (inner : Accepted least most) (outer : Accepted low high) :
    productMax most high = product most high := by
  cases most with
  | none => rfl
  | some most =>
      cases high with
      | none => rfl
      | some high =>
          rw [productMax, product, if_pos ⟨(inner most rfl).2.1, (outer high rfl).2.1⟩,
            Nat.mul_comm]

theorem regexRepeat_of_repeat {h : Heap} {ref inner : Ref} {min : Nat} {max : Option Nat}
    (here : h.node? ref = some (.regexRepeat inner min max)) (rmin : Nat) (rmax : Option Nat)
    (fuel : Nat) :
    regexRepeat fuel (some ref) rmin rmax h =
      some (if rmin = 0 ∧ rmax = some 1 then plainRepeat (some ref) rmin rmax h
        else plainRepeat (some inner) (rmin * min) (productMax max rmax) h) := by
  unfold regexRepeat
  simp only [here]
  split <;> rfl

/-- `RegexRepeat(RegexRepeat(r, n, p), x, y)` matches the same with the optimisation as
without it when the intervals of counts leave no gap, or when the counts in the gaps
match nothing that other counts do not. -/
theorem repeat_of_repeat_exact_iff {h : Heap} {ref : Ref} {regex : Tree}
    {min : Nat} {max : Option Nat} (rep : (Tree.regexRepeat ref regex min max).Rep h)
    (inner : Accepted min max) {rmin : Nat} {rmax : Option Nat} (outer : Accepted rmin rmax) :
    ∃ (h' h'' : Heap) (optimized plain : Tree),
      Returns (fun fuel => (regexRepeat fuel (some ref) rmin rmax h).run)
        (.ok (optimized.ref, h')) ∧
      optimized.Rep h' ∧
      plainRepeat (some ref) rmin rmax h = .ok (plain.ref, h'') ∧
      plain.Rep h'' ∧
      ((∀ dot text, optimized.denote dot text = plain.denote dot text) ↔
        (rmin = 0 ∧ rmax = some 1) ∨ Gapless min max rmin rmax ∨
          ∀ dot text count, Missing min max rmin rmax count →
            times (regex.denote dot text) count ≤
              repeated (repeated (regex.denote dot text) min max) rmin rmax) := by
  have step := regexRepeat_of_repeat rep.1 rmin rmax
  have plainRep := (newRepeat_rep rep rmin rmax).2
  by_cases once : rmin = 0 ∧ rmax = some 1
  · simp only [if_pos once, plainRepeat_ok outer] at step
    refine ⟨_, _, _, _, Returns.congr step (Returns.pure _), plainRep,
      plainRepeat_ok outer _ _, plainRep, fun _ => .inl once, fun _ _ _ => rfl⟩
  · have merged := accepted_product inner outer
    rw [productMax_eq inner outer] at step
    simp only [if_neg once, plainRepeat_ok merged] at step
    refine ⟨_, _, _, _, Returns.congr step (Returns.pure _),
      (newRepeat_rep rep.2 _ _).2, plainRepeat_ok outer _ _, plainRep, ?_⟩
    simp only [Tree.denote, Nat.mul_comm rmin, repeated_product_iff _ inner.bounds]
    constructor
    · exact fun filled => .inr (.inr filled)
    · rintro (single | gapless | filled)
      · exact absurd single once
      · intro dot text count missing
        exact absurd missing ((gapless_iff inner.bounds outer.bounds).mp gapless count)
      · exact filled

/-! `(a{2}){3,4}` -/

def pairRepeat : Heap :=
  Heap.ofNodes [.atom (.regexString [97] a_nonempty), .regexRepeat 0 2 (some 2)]

def pairRepeatTree : Tree :=
  .regexRepeat 1 (.atom 0 (.regexString [97] a_nonempty)) 2 (some 2)

theorem accepted_pair : Accepted 2 (some 2) := by
  intro bound below
  cases below
  decide

theorem accepted_threeOrFour : Accepted 3 (some 4) := by
  intro bound below
  cases below
  decide

theorem repeat_of_repeat_exact_iff_pair :
    ∃ (h' h'' : Heap) (optimized plain : Tree),
      Returns (fun fuel => (regexRepeat fuel (some 1) 3 (some 4) pairRepeat).run)
        (.ok (optimized.ref, h')) ∧
      optimized.Rep h' ∧
      plainRepeat (some 1) 3 (some 4) pairRepeat = .ok (plain.ref, h'') ∧
      plain.Rep h'' ∧
      ((∀ dot text, optimized.denote dot text = plain.denote dot text) ↔
        (3 = 0 ∧ some 4 = some 1) ∨ Gapless 2 (some 2) 3 (some 4) ∨
          ∀ dot text count, Missing 2 (some 2) 3 (some 4) count →
            times ((Tree.atom 0 (.regexString [97] (by decide))).denote dot text) count ≤
              repeated (repeated ((Tree.atom 0
                (.regexString [97] (by decide))).denote dot text) 2 (some 2)) 3 (some 4)) :=
  @repeat_of_repeat_exact_iff pairRepeat 1 (.atom 0 (.regexString [97] (by decide))) 2 (some 2)
    ⟨rfl, rfl⟩ accepted_pair 3 (some 4) accepted_threeOrFour

/-- `(a{2}){3,4}` becomes `a{6,8}`, which matches seven. -/
theorem repeat_of_repeat_fails_pair :
    ∃ (h' h'' : Heap) (optimized plain : Tree),
      Returns (fun fuel => (regexRepeat fuel (some 1) 3 (some 4) pairRepeat).run)
        (.ok (optimized.ref, h')) ∧
      optimized.Rep h' ∧
      plainRepeat (some 1) 3 (some 4) pairRepeat = .ok (plain.ref, h'') ∧
      plain.Rep h'' ∧
      ∃ dot text, optimized.denote dot text ≠ plain.denote dot text := by
  have leafRep : (Tree.atom 0 (.regexString [97] (by decide))).Rep pairRepeat := rfl
  have treeRep : pairRepeatTree.Rep pairRepeat := ⟨rfl, rfl⟩
  refine ⟨_, _, .regexRepeat 2 (.atom 0 (.regexString [97] (by decide))) 6 (some 8),
    .regexRepeat 2 pairRepeatTree 3 (some 4),
    Returns.congr (regexRepeat_of_repeat rfl 3 (some 4)) (Returns.pure _),
    (newRepeat_rep leafRep 6 (some 8)).2, rfl, (newRepeat_rep treeRep 3 (some 4)).2,
    fun _ => True, List.replicate 7 97, fun same => ?_⟩
  have seven : (Tree.regexRepeat 2 (.atom 0 (.regexString [97] (by decide))) 6
      (some 8)).denote (fun _ => True) (List.replicate 7 97) 0 7 := by
    refine ⟨7, by decide, fun bound below => ?_, ?_⟩
    · cases below
      decide
    · change times (word [97]) 7 _ _
      rw [times_word]
      rfl
  rw [same] at seven
  obtain ⟨count, nested, whole⟩ :=
    (repeated_repeated _ accepted_pair.bounds.ordered 3 (some 4) _ _).mp seven
  change times (word [97]) count _ _ at whole
  rw [times_word] at whole
  have length := word_length whole
  rw [length_flatten_replicate] at length
  obtain ⟨parts, _, enough, notMore⟩ := nested
  simp at length enough notMore
  omega

end Segvault.HachoirRegex
