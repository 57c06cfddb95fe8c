import Mathlib.Data.List.Sort
import Segvault.Gaps

namespace Segvault.Hachoir

/-! `getgaps`. -/

-- The loop over the sorted blocks, and what follows it.
def gapsFrom (stop : Int) : Int → List Interval → List Interval
  | start, [] => if start < stop then [(start, stop - start)] else []
  | start, (s, l) :: blocks =>
      let gap := if s > start then [(start, s - start)] else []
      let start := if s > start then s else start
      let start := if s + l > start then s + l else start
      gap ++ gapsFrom stop start blocks

def getgaps (start length : Int) (blocks : List Interval) : List Interval :=
  gapsFrom (start + length) start (blocks.insertionSort fun a b => a.1 ≤ b.1)

example : getgaps 0 20 [(15, 3), (6, 2), (6, 2), (1, 2), (2, 3), (11, 2), (9, 5)] =
    [(0, 1), (5, 1), (8, 1), (14, 1), (18, 2)] := by
  decide

/-! The places it goes over: those from the current start that no block covers, up to the
end of the window or to the start of a block. -/

def Covered (blocks : List Interval) (place : Int) : Prop :=
  ∃ block ∈ blocks, block.Has place

def StartsAt (blocks : List Interval) (place : Int) : Prop :=
  ∃ block ∈ blocks, block.1 = place

def Swept (stop start : Int) (blocks : List Interval) (place : Int) : Prop :=
  start ≤ place ∧ ¬ Covered blocks place ∧
    (place < stop ∨ ∃ block ∈ blocks, place < block.1)

theorem covered_cons {block : Interval} {blocks : List Interval} {place : Int} :
    Covered (block :: blocks) place ↔ block.Has place ∨ Covered blocks place := by
  simp [Covered]

theorem startsAt_cons {block : Interval} {blocks : List Interval} {place : Int} :
    StartsAt (block :: blocks) place ↔ block.1 = place ∨ StartsAt blocks place := by
  simp [StartsAt]

def Sorted (blocks : List Interval) : Prop :=
  blocks.Pairwise fun first second => first.1 ≤ second.1

section

variable {stop start s l : Int} {blocks : List Interval} {place : Int}

theorem not_covered_of_lt (sorted : Sorted ((s, l) :: blocks)) (early : place < s) :
    ¬ Covered ((s, l) :: blocks) place := by
  rintro ⟨block, member, has⟩
  have later : s ≤ block.1 := by
    rcases List.mem_cons.mp member with rfl | member
    · exact le_refl s
    · exact List.rel_of_pairwise_cons sorted member
  exact absurd (has.1.trans_lt early) (not_lt.mpr later)

/-- A block that starts at or before the current start moves it to the end of the block. -/
theorem swept_cons_started (started : s ≤ start) :
    Swept stop start ((s, l) :: blocks) place ↔
      Swept stop (if s + l > start then s + l else start) blocks place := by
  have moved : (if s + l > start then s + l else start) ≤ place ↔
      start ≤ place ∧ ¬ Interval.Has (s, l) place := by
    simp only [Interval.Has]
    split <;> omega
  rw [Swept, Swept, moved, covered_cons]
  simp only [List.mem_cons, exists_eq_or_imp]
  constructor
  · rintro ⟨from', clear, within⟩
    exact ⟨⟨from', fun has => clear (.inl has)⟩, fun covered => clear (.inr covered),
      within.imp_right fun ahead => ahead.resolve_left (by omega)⟩
  · rintro ⟨⟨from', clear⟩, uncovered, within⟩
    exact ⟨from', by rintro (has | covered) <;> contradiction, by tauto⟩

/-- A block that starts later leaves the places before it, and those after its end. -/
theorem swept_cons_later (sorted : Sorted ((s, l) :: blocks)) (later : start < s) :
    Swept stop start ((s, l) :: blocks) place ↔
      (start ≤ place ∧ place < s) ∨
        Swept stop (if s + l > s then s + l else s) blocks place := by
  by_cases early : place < s
  · have before : ¬ Swept stop (if s + l > s then s + l else s) blocks place := by
      rintro ⟨past, -⟩
      split at past <;> omega
    have head : ∃ block ∈ (s, l) :: blocks, place < block.1 :=
      ⟨_, List.mem_cons_self, early⟩
    simp only [before, or_false, early, and_true]
    exact ⟨And.left, fun from' => ⟨from', not_covered_of_lt sorted early, .inr head⟩⟩
  · rw [← swept_cons_started (le_refl s), Swept, Swept]
    simp only [early, and_false, false_or, and_congr_left_iff]
    intro _
    omega

/-- What is left after the last block. -/
theorem gapsFrom_nil_pieces :
    Pieces (Swept stop start []) (StartsAt []) (gapsFrom stop start []) := by
  have swept : ∀ place, Swept stop start [] place ↔ start ≤ place ∧ place < stop := by
    simp [Swept, Covered]
  rw [gapsFrom]
  split
  · next room =>
      refine ⟨?_, List.pairwise_singleton _ _, ?_, ?_, ?_⟩
      · simpa using room
      · simp [swept, Interval.Has]
      · simp [StartsAt]
      · simp [swept]
  · next full =>
      refine ⟨by simp, List.Pairwise.nil, fun place => ?_, by simp, by simp⟩
      rw [swept]
      simp only [List.not_mem_nil, false_and, exists_false, iff_false]
      omega

theorem gapsFrom_pieces (sorted : Sorted blocks) :
    Pieces (Swept stop start blocks) (StartsAt blocks) (gapsFrom stop start blocks) := by
  induction blocks generalizing start with
  | nil => exact gapsFrom_nil_pieces
  | cons block blocks induction =>
      obtain ⟨s, l⟩ := block
      have inner : Sorted blocks := List.Pairwise.of_cons sorted
      rw [gapsFrom]
      by_cases later : start < s
      · simp only [gt_iff_lt, if_pos later]
        refine ((induction inner).cons later ?_ ?_).congr
          (fun place => swept_cons_later sorted later) fun place => startsAt_cons
        · rintro place ⟨past, -⟩
          split at past <;> omega
        · rintro place ⟨block, member, rfl⟩
          exact List.rel_of_pairwise_cons sorted member
      · simp only [gt_iff_lt, if_neg later, List.nil_append]
        refine ((induction inner).cutBefore ?_).congr
          (fun place => swept_cons_started (not_lt.mp later)) fun place => startsAt_cons
        rintro place ⟨past, -⟩
        split at past <;> omega

end

/-! The places of the window that no block covers. -/

def Free (start length : Int) (blocks : List Interval) (place : Int) : Prop :=
  start ≤ place ∧ place < start + length ∧ ¬ Covered blocks place

theorem sorted_insertionSort (blocks : List Interval) :
    Sorted (blocks.insertionSort fun a b => a.1 ≤ b.1) := by
  have total : Std.Total fun a b : Interval => a.1 ≤ b.1 := ⟨fun a b => le_total a.1 b.1⟩
  have transitive : IsTrans Interval fun a b => a.1 ≤ b.1 := ⟨fun _ _ _ => le_trans⟩
  exact List.pairwise_insertionSort _ blocks

theorem getgaps_pieces (start length : Int) (blocks : List Interval) :
    Pieces (Swept (start + length) start blocks) (StartsAt blocks)
      (getgaps start length blocks) := by
  refine (gapsFrom_pieces (sorted_insertionSort blocks)).congr ?_ ?_
  · intro place
    simp [Swept, Covered]
  · intro place
    simp [StartsAt]

/-- getgaps lists the maximal uncovered intervals of the window, unless some block starts
after an uncovered place past the window, or between two uncovered places of it. -/
theorem getgaps_lists_iff (start length : Int) (blocks : List Interval) :
    ListsMaximal (Free start length blocks) (getgaps start length blocks) ↔
      (∀ place, start ≤ place → start + length ≤ place → ¬ Covered blocks place →
        ∀ block ∈ blocks, block.1 ≤ place) ∧
      ∀ block ∈ blocks,
        ¬ (Free start length blocks (block.1 - 1) ∧ Free start length blocks block.1) := by
  rw [(getgaps_pieces start length blocks).lists_iff]
  · refine and_congr ⟨?_, ?_⟩ ?_
    · intro within place from' past clear block member
      by_contra ahead
      obtain ⟨-, inside, -⟩ := within place ⟨from', clear, .inr ⟨block, member, not_le.mp ahead⟩⟩
      exact absurd inside (not_lt.mpr past)
    · rintro beyond place ⟨from', clear, inside⟩
      refine ⟨from', ?_, clear⟩
      by_contra past
      obtain ⟨block, member, ahead⟩ := inside.resolve_left past
      exact absurd ahead (not_lt.mpr (beyond place from' (not_lt.mp past) clear block member))
    · simp [StartsAt]
  · rintro place ⟨from', inside, clear⟩
    exact ⟨from', clear, .inl inside⟩

theorem getgaps_fails_past :
    ¬ ListsMaximal (Free 0 10 [(20, 5)]) (getgaps 0 10 [(20, 5)]) := by
  intro lists
  have gap : (0, 20) ∈ getgaps 0 10 [(20, 5)] := by decide
  obtain ⟨-, inside, -⟩ := ((lists.exact _).mp gap).within 15 ⟨by decide, by decide⟩
  exact absurd inside (by decide)

end Segvault.Hachoir
