import Mathlib.Data.List.Pairwise
import Mathlib.Tactic.NormNum

namespace Segvault

/-! Sets of integers listed as the intervals they are made of, each with its start and its
length. -/

abbrev Interval := Int × Int

namespace Interval

def Has (interval : Interval) (place : Int) : Prop :=
  interval.1 ≤ place ∧ place < interval.1 + interval.2

/-- An interval of a set that no larger one contains. -/
structure Maximal (inside : Int → Prop) (interval : Interval) : Prop where
  positive : 0 < interval.2
  within : ∀ place, interval.Has place → inside place
  before : ¬ inside (interval.1 - 1)
  after : ¬ inside (interval.1 + interval.2)

theorem Has.start {interval : Interval} (positive : 0 < interval.2) :
    interval.Has interval.1 :=
  ⟨le_refl _, by omega⟩

/-- Where two maximal intervals meet, the one does not start before the other. -/
theorem Maximal.start_le {inside : Int → Prop} {first second : Interval}
    (maximal : first.Maximal inside) (other : second.Maximal inside) {place : Int}
    (here : first.Has place) (there : second.Has place) : first.1 ≤ second.1 := by
  by_contra late
  refine maximal.before (other.within _ ?_)
  obtain ⟨here, _⟩ := here
  obtain ⟨_, there⟩ := there
  exact ⟨by omega, by omega⟩

theorem Maximal.end_le {inside : Int → Prop} {first second : Interval}
    (maximal : first.Maximal inside) (other : second.Maximal inside) {place : Int}
    (here : first.Has place) (there : second.Has place) :
    second.1 + second.2 ≤ first.1 + first.2 := by
  by_contra late
  refine maximal.after (other.within _ ?_)
  obtain ⟨_, here⟩ := here
  obtain ⟨there, _⟩ := there
  exact ⟨by omega, by omega⟩

theorem Maximal.unique {inside : Int → Prop} {first second : Interval}
    (maximal : first.Maximal inside) (other : second.Maximal inside) {place : Int}
    (here : first.Has place) (there : second.Has place) : first = second := by
  have starts := le_antisymm (maximal.start_le other here there)
    (other.start_le maximal there here)
  have ends := le_antisymm (other.end_le maximal there here)
    (maximal.end_le other here there)
  exact Prod.ext starts (by omega)

end Interval

/-- The maximal intervals of a set, in increasing order. -/
structure ListsMaximal (inside : Int → Prop) (intervals : List Interval) : Prop where
  increasing : intervals.Pairwise fun first second => first.1 < second.1
  exact : ∀ interval, interval ∈ intervals ↔ interval.Maximal inside

/-- The pieces of a set that is also cut before some of its places. -/
structure Pieces (inside cut : Int → Prop) (pieces : List Interval) : Prop where
  positive : ∀ piece ∈ pieces, 0 < piece.2
  ordered : pieces.Pairwise fun first second => first.1 + first.2 ≤ second.1
  covers : ∀ place, inside place ↔ ∃ piece ∈ pieces, piece.Has place
  uncut : ∀ piece ∈ pieces, ∀ place, cut place →
    place ≤ piece.1 ∨ piece.1 + piece.2 ≤ place
  starts : ∀ piece ∈ pieces, inside (piece.1 - 1) → cut piece.1

namespace Pieces

variable {inside cut free : Int → Prop} {pieces : List Interval}

theorem increasing (holds : Pieces inside cut pieces) :
    pieces.Pairwise fun first second => first.1 < second.1 := by
  refine (List.Pairwise.and_mem.mp holds.ordered).imp ?_
  rintro first second ⟨member, -, ordered⟩
  have positive := holds.positive first member
  omega

theorem has (holds : Pieces inside cut pieces) {piece : Interval} (member : piece ∈ pieces)
    {place : Int} (has : piece.Has place) : inside place :=
  (holds.covers place).mpr ⟨piece, member, has⟩

theorem start_inside (holds : Pieces inside cut pieces) {piece : Interval}
    (member : piece ∈ pieces) : inside piece.1 :=
  holds.has member (Interval.Has.start (holds.positive piece member))

/-- Two pieces are one and the same, or one ends before the other starts. -/
theorem apart (holds : Pieces inside cut pieces) {first second : Interval}
    (here : first ∈ pieces) (there : second ∈ pieces) :
    first = second ∨ first.1 + first.2 ≤ second.1 ∨ second.1 + second.2 ≤ first.1 := by
  have both : pieces.Pairwise fun first second : Interval =>
      first = second ∨ first.1 + first.2 ≤ second.1 ∨ second.1 + second.2 ≤ first.1 :=
    holds.ordered.imp fun ordered => .inr (.inl ordered)
  refine both.forall_of_forall_of_flip (fun _ _ => .inl rfl) ?_ here there
  exact holds.ordered.imp fun ordered => .inr (.inr ordered)

/-- Where no cut falls inside the set, its pieces are its maximal intervals. -/
theorem maximal (holds : Pieces inside cut pieces)
    (whole : ∀ place, cut place → ¬ (inside (place - 1) ∧ inside place))
    {piece : Interval} (member : piece ∈ pieces) : piece.Maximal inside where
  positive := holds.positive piece member
  within place has := holds.has member has
  before inner :=
    whole _ (holds.starts piece member inner) ⟨inner, holds.start_inside member⟩
  after inner := by
    obtain ⟨next, nextMember, from', until'⟩ := (holds.covers _).mp inner
    have positive := holds.positive piece member
    have start : next.1 = piece.1 + piece.2 := by
      rcases holds.apart member nextMember with rfl | later | earlier <;> omega
    have last : inside (next.1 - 1) :=
      holds.has member ⟨by omega, by omega⟩
    exact whole _ (holds.starts next nextMember last)
      ⟨last, holds.start_inside nextMember⟩

/-- The pieces list the maximal intervals of a subset exactly when nothing lies outside it
and no cut falls between two of its places. -/
theorem lists_iff (holds : Pieces inside cut pieces)
    (subset : ∀ place, free place → inside place) :
    ListsMaximal free pieces ↔
      (∀ place, inside place → free place) ∧
        ∀ place, cut place → ¬ (free (place - 1) ∧ free place) := by
  constructor
  · intro lists
    refine ⟨fun place here => ?_, ?_⟩
    · obtain ⟨piece, member, has⟩ := (holds.covers place).mp here
      exact ((lists.exact piece).mp member).within place has
    · rintro place cutHere ⟨before, here⟩
      obtain ⟨piece, member, from', until'⟩ := (holds.covers place).mp (subset _ here)
      have maximal := (lists.exact piece).mp member
      rcases holds.uncut piece member place cutHere with start | past
      · have first : piece.1 = place := by omega
        exact maximal.before (first ▸ before)
      · omega
  · rintro ⟨within, whole⟩
    have same : inside = free := funext fun place => propext ⟨within place, subset place⟩
    subst same
    refine ⟨holds.increasing, fun interval => ⟨holds.maximal whole, fun maximal => ?_⟩⟩
    have start := Interval.Has.start maximal.positive
    obtain ⟨piece, member, has⟩ := (holds.covers _).mp (maximal.within _ start)
    rw [maximal.unique (holds.maximal whole member) start has]
    exact member

theorem congr {inside' cut' : Int → Prop} (holds : Pieces inside cut pieces)
    (same : ∀ place, inside' place ↔ inside place) (sameCut : ∀ place, cut' place ↔ cut place) :
    Pieces inside' cut' pieces := by
  obtain rfl : inside' = inside := funext fun place => propext (same place)
  obtain rfl : cut' = cut := funext fun place => propext (sameCut place)
  exact holds

/-- A cut that is not after the first place of the set changes nothing. -/
theorem cutBefore (holds : Pieces inside cut pieces) {start : Int}
    (first : ∀ place, inside place → start ≤ place) :
    Pieces inside (fun place => start = place ∨ cut place) pieces where
  positive := holds.positive
  ordered := holds.ordered
  covers := holds.covers
  uncut piece member place := by
    rintro (rfl | cutHere)
    · exact .inl (first _ (holds.start_inside member))
    · exact holds.uncut piece member place cutHere
  starts piece member inner := .inr (holds.starts piece member inner)

/-- One more piece, which ends where the set is cut, at or before its first place. -/
theorem cons (holds : Pieces inside cut pieces) {start stop : Int} (room : start < stop)
    (first : ∀ place, inside place → stop ≤ place) (later : ∀ place, cut place → stop ≤ place) :
    Pieces (fun place => (start ≤ place ∧ place < stop) ∨ inside place)
      (fun place => stop = place ∨ cut place) ((start, stop - start) :: pieces) := by
  have past : ∀ piece ∈ pieces, stop ≤ piece.1 := fun piece member =>
    first _ (holds.start_inside member)
  constructor
  · rintro piece (_ | ⟨_, member⟩)
    · exact sub_pos.mpr room
    · exact holds.positive piece member
  · refine List.pairwise_cons.mpr ⟨fun piece member => ?_, holds.ordered⟩
    have after := past piece member
    omega
  · intro place
    simp only [holds.covers, List.mem_cons, exists_eq_or_imp, Interval.Has]
    exact or_congr_left (and_congr_right fun _ => by omega)
  · rintro piece (_ | ⟨_, member⟩) place cutHere
    · right
      rcases cutHere with rfl | cutHere
      · omega
      · have after := later place cutHere
        omega
    · rcases cutHere with rfl | cutHere
      · exact .inl (past piece member)
      · exact holds.uncut piece member place cutHere
  · rintro piece (_ | ⟨_, member⟩) inner
    · rcases inner with ⟨from', -⟩ | inner
      · omega
      · have after := first _ inner
        omega
    · rcases inner with ⟨-, until'⟩ | inner
      · have after := past piece member
        exact .inl (by omega)
      · exact .inr (holds.starts piece member inner)

end Pieces

end Segvault
