import Segvault.HachoirRegex.RepeatOr

namespace Segvault.HachoirRegex

open Relation Spans

namespace Tree

/-! What the items that optimizeRepeatOr keeps match. -/

section Items

variable (text : List UInt8)

/-- A repeat `x{n,}` with `n` above one. -/
def endlessFrom : Tree → Bool
  | regexRepeat _ _ min none => decide (2 ≤ min)
  | _ => false

/-- What the items match of which an endless repeat keeps the matches. -/
def goodDenote (items : List Tree) : Position text → Position text → Prop :=
  choice ((items.filter fun item => !item.endlessFrom).map (denote anyChar text))

/-- What the items `x{n,}` match. -/
def badDenote (items : List Tree) : Position text → Position text → Prop :=
  choice ((items.filter endlessFrom).map (denote anyChar text))

variable {text}

theorem denote_items (ref : Ref) (content : List Tree) (i j : Position text) :
    (regexOr ref content).denote anyChar text i j ↔
      ∃ item ∈ content, item.denote anyChar text i j := by
  rw [denote_regexOr, choice_iff]
  simp

theorem good_sup_bad (ref : Ref) (content : List Tree) :
    goodDenote text content ⊔ badDenote text content =
      (regexOr ref content).denote anyChar text := by
  funext i j
  apply propext
  rw [denote_items]
  constructor
  · rintro (here | here) <;>
      · obtain ⟨_, listed, here⟩ := choice_iff.mp here
        obtain ⟨item, filtered, rfl⟩ := List.mem_map.mp listed
        exact ⟨item, (List.mem_filter.mp filtered).1, here⟩
  · rintro ⟨item, member, here⟩
    cases endless : item.endlessFrom with
    | true =>
        exact .inr (choice_iff.mpr ⟨_, List.mem_map_of_mem
          (List.mem_filter.mpr ⟨member, endless⟩), here⟩)
    | false =>
        exact .inl (choice_iff.mpr ⟨_, List.mem_map_of_mem
          (List.mem_filter.mpr ⟨member, by simp [endless]⟩), here⟩)

theorem joinDenote_of_mem {items : List Tree} {item : Tree} (member : item ∈ items)
    {i j : Position text} (here : item.denote anyChar text i j) : joinDenote items text i j := by
  rw [joinDenote, if_neg (List.ne_nil_of_mem member)]
  exact choice_iff.mpr ⟨_, List.mem_map_of_mem member, here⟩

theorem mem_kept {rmin : Nat} {rmax : Option Nat} {content : List Tree} {item new : Tree}
    (member : item ∈ content) (here : item.optimized (low rmin content) rmax 0 = some new) :
    new ∈ kept rmin rmax content :=
  List.mem_filterMap.mpr ⟨item, member, here⟩

theorem nullable_of_fromZero {item : Tree} (zero : item.fromZero = true) :
    Eq ≤ item.denote anyChar text := by
  intro i j same
  cases item with
  | regexRepeat ref regex min max =>
      cases min with
      | zero => exact ⟨0, Nat.le_refl _, fun _ _ => Nat.zero_le _, same⟩
      | succ min => cases zero
  | _ => cases zero

/-- The bounds that optimizeRepeatOr returns keep what the alternative matches. -/
theorem repeated_low (ref : Ref) (content : List Tree) {rmin : Nat} {rmax : Option Nat}
    (accepted : Accepted rmin rmax) :
    repeated ((regexOr ref content).denote anyChar text) rmin rmax =
      repeated ((regexOr ref content).denote anyChar text) (low rmin content) rmax := by
  rw [low]
  split
  · rename_i either
    refine repeated_of_nullable ?_ fun bound below => (accepted bound below).1
    intro i j same
    rw [denote_items]
    obtain empty | ⟨_, zero⟩ := either
    · obtain ⟨item, member, isEmpty⟩ := List.any_eq_true.mp empty
      exact ⟨item, member, by rw [denote_of_isEmpty _ _ isEmpty]; exact same⟩
    · obtain ⟨item, member, zero⟩ := List.any_eq_true.mp zero
      exact ⟨item, member, nullable_of_fromZero zero i j same⟩
  · rfl

/-! Without a maximum. -/

section Endless

variable {rmin : Nat} {content : List Tree} {item : Tree} (member : item ∈ content)
include member

theorem low_of_isEmpty (empty : item.isEmpty = true) : low rmin content = 0 :=
  if_pos (.inl (List.any_eq_true.mpr ⟨item, member, empty⟩))

theorem low_of_fromZero (zero : item.fromZero = true)
    (small : low rmin content = 0 ∨ low rmin content = 1) : low rmin content = 0 := by
  have some : content.any fromZero = true := List.any_eq_true.mpr ⟨item, member, zero⟩
  rw [low] at small ⊢
  split at small
  · rename_i either
    exact if_pos either
  · rename_i neither
    rw [if_neg neither]
    exact small.resolve_right fun one => neither (.inr ⟨one, some⟩)

/-- An item that is kept as it stands. -/
theorem le_of_kept (here : item.optimized (low rmin content) none 0 = some item) :
    item.denote anyChar text ≤
      repeated (joinDenote (kept rmin none content) text) (min (low rmin content) 1) none :=
  le_trans (fun _ _ matched => joinDenote_of_mem (mem_kept member here) matched)
    (le_repeated (Nat.min_le_right _ _))

theorem good_le_of_mem (constructed : item.Constructed) (good : item.endlessFrom = false) :
    item.denote anyChar text ≤
      repeated (joinDenote (kept rmin none content) text) (min (low rmin content) 1) none := by
  cases item with
  | atom ref leaf =>
      cases leaf with
      | regexEmpty =>
          rw [low_of_isEmpty member rfl]
          exact fun i j same => ⟨0, Nat.le_refl _, by simp, same⟩
      | _ => exact le_of_kept member rfl
  | regexRepeat ref regex min' max =>
      have accepted : Accepted min' max := constructed.here
      by_cases zero : min' = 0
      · subst zero
        by_cases small : low rmin content = 0 ∨ low rmin content = 1
        · rw [low_of_fromZero member rfl small, Nat.zero_min]
          cases max with
          | none =>
              have inside := @mem_kept rmin none content _ regex member
                (by rw [optimized, if_pos rfl, if_pos small, if_pos ⟨rfl, rfl⟩])
              exact repeated_mono (fun _ _ here => joinDenote_of_mem inside here) 0 none
          | some bound =>
              have inside := @mem_kept rmin none content _ (regexRepeat 0 regex 1 (some bound))
                member (by rw [optimized, if_pos rfl, if_pos small, if_neg (by simp)])
              rintro i j ⟨count, _, atMost, here⟩
              cases count with
              | zero => exact ⟨0, Nat.le_refl _, by simp, here⟩
              | succ count =>
                  exact le_repeated (Nat.zero_le _) i j
                    (joinDenote_of_mem inside ⟨count + 1, Nat.le_add_left _ _, atMost, here⟩)
        · exact le_of_kept member (by rw [optimized, if_pos rfl, if_neg small])
      · by_cases one : min' = 1
        · subst one
          cases max with
          | none =>
              have inside := @mem_kept rmin none content _ regex member
                (by rw [optimized, if_neg zero, if_pos rfl, if_pos ⟨rfl, rfl⟩])
              exact (repeated_mono (fun _ _ here => joinDenote_of_mem inside here) 1 none).trans
                (repeated_weaken (Nat.min_le_right _ _) none)
          | some bound =>
              exact le_of_kept member
                (by rw [optimized, if_neg zero, if_pos rfl, if_neg (by simp)])
        · cases max with
          | none =>
              have several : ¬ 2 ≤ min' := of_decide_eq_false good
              omega
          | some bound =>
              exact le_of_kept member
                (by rw [optimized, if_neg zero, if_neg one, if_neg (by simp)])
  | _ => exact le_of_kept member rfl

end Endless

theorem good_le {rmin : Nat} {content : List Tree}
    (constructed : ∀ item ∈ content, item.Constructed) :
    goodDenote text content ≤
      repeated (joinDenote (kept rmin none content) text) (min (low rmin content) 1) none := by
  intro i j here
  obtain ⟨_, listed, here⟩ := choice_iff.mp here
  obtain ⟨item, filtered, rfl⟩ := List.mem_map.mp listed
  obtain ⟨member, good⟩ := List.mem_filter.mp filtered
  exact good_le_of_mem member (constructed item member) (by simpa using good) i j here

/-- What is made of an item matches nothing that the item does not. -/
theorem optimized_le {item new : Tree} {least : Nat} {rmax : Option Nat}
    (here : item.optimized least rmax 0 = some new) :
    new.denote anyChar text ≤ item.denote anyChar text := by
  cases item with
  | atom ref leaf =>
      cases leaf with
      | regexEmpty => cases here
      | _ =>
          cases here
          exact le_refl _
  | regexRepeat ref regex min max =>
      rw [optimized] at here
      split_ifs at here with zero small endless one endless endless <;> cases here
      · obtain ⟨_, rfl⟩ := endless
        exact le_repeated (zero ▸ Nat.zero_le _)
      · exact repeated_weaken (zero ▸ Nat.zero_le _) max
      · exact le_refl _
      · obtain ⟨_, rfl⟩ := endless
        exact le_repeated (Nat.le_of_eq one)
      · exact le_refl _
      · obtain ⟨_, rfl⟩ := endless
        rintro i j ⟨count, atLeast, -, matched⟩
        exact ⟨count, atLeast, by simp, matched⟩
      · exact le_refl _
  | _ =>
      cases here
      exact le_refl _

theorem isEmpty_of_optimized {item : Tree} {least : Nat} {rmax : Option Nat}
    (here : item.optimized least rmax 0 = none) : item.isEmpty = true := by
  cases item with
  | atom ref leaf =>
      cases leaf with
      | regexEmpty => rfl
      | _ => cases here
  | regexRepeat ref regex min max =>
      rw [optimized] at here
      split_ifs at here
  | _ => cases here

theorem kept_le {rmin : Nat} {rmax : Option Nat} (ref : Ref) {content : List Tree}
    (nonempty : content ≠ []) :
    joinDenote (kept rmin rmax content) text ≤ (regexOr ref content).denote anyChar text := by
  intro i j here
  rw [denote_items]
  by_cases none : kept rmin rmax content = []
  · rw [joinDenote, if_pos none] at here
    obtain ⟨item, rest, rfl⟩ := List.exists_cons_of_ne_nil nonempty
    rw [kept, List.filterMap_eq_nil_iff] at none
    have empty := isEmpty_of_optimized (none item (by simp))
    exact ⟨item, by simp, by rw [denote_of_isEmpty _ _ empty]; exact here⟩
  · rw [joinDenote, if_neg none] at here
    obtain ⟨_, listed, here⟩ := choice_iff.mp here
    obtain ⟨new, filtered, rfl⟩ := List.mem_map.mp listed
    obtain ⟨item, member, same⟩ := List.mem_filterMap.mp filtered
    exact ⟨item, member, optimized_le same i j here⟩

/-! With a maximum. -/

section Bounded

variable {rmin bound : Nat} {content : List Tree}

theorem le_kept_of_mem {item : Tree} (member : item ∈ content) :
    item.denote anyChar text ≤ joinDenote (kept rmin (some bound) content) text ∨
      (low rmin content = 0 ∧ item.denote anyChar text ≤
        joinDenote (kept rmin (some bound) content) text ⊔ Eq) := by
  have alone : item.optimized (low rmin content) (some bound) 0 = some item →
      item.denote anyChar text ≤ joinDenote (kept rmin (some bound) content) text :=
    fun here _ _ matched => joinDenote_of_mem (mem_kept member here) matched
  have differ : ∀ max : Option Nat, ¬ (some bound = max ∧ max = none) := by
    rintro max ⟨rfl, none⟩
    cases none
  cases item with
  | atom ref leaf =>
      cases leaf with
      | regexEmpty => exact .inr ⟨low_of_isEmpty member rfl, fun _ _ same => .inr same⟩
      | _ => exact .inl (alone rfl)
  | regexRepeat ref regex min max =>
      by_cases zero : min = 0
      · subst zero
        by_cases small : low rmin content = 0 ∨ low rmin content = 1
        · refine .inr ⟨low_of_fromZero member rfl small, ?_⟩
          have inside := @mem_kept rmin (some bound) content _ (regexRepeat 0 regex 1 max) member
            (by rw [optimized, if_pos rfl, if_pos small, if_neg (differ max)])
          rintro i j ⟨count, _, atMost, here⟩
          cases count with
          | zero => exact .inr here
          | succ count =>
              exact .inl (joinDenote_of_mem inside ⟨count + 1, Nat.le_add_left _ _, atMost, here⟩)
        · exact .inl (alone (by rw [optimized, if_pos rfl, if_neg small]))
      · by_cases one : min = 1
        · exact .inl (alone (by rw [optimized, if_neg zero, if_pos one, if_neg (differ max)]))
        · exact .inl (alone (by rw [optimized, if_neg zero, if_neg one, if_neg (differ max)]))
  | _ => exact .inl (alone rfl)

theorem repeated_kept_bounded (ref : Ref) (nonempty : content ≠ []) :
    repeated (joinDenote (kept rmin (some bound) content) text) (low rmin content) (some bound) =
      repeated ((regexOr ref content).denote anyChar text) (low rmin content) (some bound) := by
  refine le_antisymm (repeated_mono (kept_le ref nonempty) _ _) ?_
  by_cases zero : low rmin content = 0
  · rw [zero, ← repeated_sup_eq (joinDenote _ _)]
    refine repeated_mono (fun i j here => ?_) 0 _
    obtain ⟨item, member, here⟩ := (denote_items ref content i j).mp here
    obtain whole | ⟨_, whole⟩ := @le_kept_of_mem text rmin bound content item member
    · exact .inl (whole i j here)
    · exact whole i j here
  · refine repeated_mono (fun i j here => ?_) _ _
    obtain ⟨item, member, here⟩ := (denote_items ref content i j).mp here
    obtain whole | ⟨none, _⟩ := @le_kept_of_mem text rmin bound content item member
    · exact whole i j here
    · exact absurd none zero

end Bounded

end Items

end Tree

def pairStarHeap : Heap :=
  { Heap.ofNodes [.atom (.regexString [97] a_nonempty), .regexRepeat 0 2 none,
      .atom (.regexString [98] b_nonempty), .regexOr [1, 2], .regexRepeat 0 2 (some 2),
      .regexOr [4, 2]] with items := 0 }

def pairStarTree : Tree :=
  .regexOr 5 [.regexRepeat 4 (.atom 0 (.regexString [97] a_nonempty)) 2 (some 2),
    .atom 2 (.regexString [98] b_nonempty)]

/-- In `aaa`, `(a{2}|b)` only matches two characters. -/
theorem pairStar_step {i j : Position ([97, 97, 97] : List UInt8)}
    (here : pairStarTree.denote Tree.anyChar [97, 97, 97] i j) : (i : Nat) + 2 = j := by
  obtain ⟨count, atLeast, atMost, matched⟩ | wrong | none := here
  · have two : count = 2 := Nat.le_antisymm (atMost 2 rfl) atLeast
    subst two
    have whole : times (word [97]) 2 i j := matched
    rw [times_word] at whole
    exact word_length whole
  · have wrong : ([97, 97, 97] : List UInt8).drop i = [98] ++ List.drop j [97, 97, 97] := wrong
    have inside : (98 : UInt8) ∈ ([97, 97, 97] : List UInt8).drop i := by
      rw [wrong]
      simp
    exact absurd (List.mem_of_mem_drop inside) (by decide)
  · exact none.elim

end Segvault.HachoirRegex
