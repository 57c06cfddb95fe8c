import Mathlib.Data.List.Basic

namespace Segvault.Scan

/-! All matches of a pattern in a text, from left to right and none over another. `find` tells
where a match that begins at a position ends; after an empty match the scan goes on one position
further. -/

def finditer (find : Nat → Option Nat) (length : Nat) : Nat → Nat → List (Nat × Nat)
  | 0, _ => []
  | fuel + 1, position =>
      if length < position then []
      else
        match find position with
        | none => finditer find length fuel (position + 1)
        | some stop => (position, stop) :: finditer find length fuel (max stop (position + 1))

variable {find : Nat → Option Nat} {length fuel position : Nat}

theorem finditer_none (within : position ≤ length) (nothing : find position = none) :
    finditer find length (fuel + 1) position = finditer find length fuel (position + 1) := by
  rw [finditer, if_neg (Nat.not_lt_of_le within), nothing]

theorem finditer_some {stop : Nat} (within : position ≤ length)
    (found : find position = some stop) :
    finditer find length (fuel + 1) position =
      (position, stop) :: finditer find length fuel (max stop (position + 1)) := by
  rw [finditer, if_neg (Nat.not_lt_of_le within), found]

theorem finditer_past (past : length < position) : finditer find length fuel position = [] := by
  cases fuel with
  | zero => rfl
  | succ fuel => rw [finditer, if_pos past]

/-- Only matches are reported, and only from the position on. -/
theorem mem_finditer {first stop : Nat}
    (reported : (first, stop) ∈ finditer find length fuel position) :
    find first = some stop ∧ position ≤ first ∧ first ≤ length := by
  induction fuel generalizing position with
  | zero => cases reported
  | succ fuel induction =>
      by_cases past : length < position
      · rw [finditer_past past] at reported
        cases reported
      · have within := Nat.le_of_not_lt past
        cases found : find position with
        | none =>
            rw [finditer_none within found] at reported
            obtain ⟨matched, after, bounded⟩ := induction reported
            exact ⟨matched, Nat.le_of_succ_le after, bounded⟩
        | some stopped =>
            rw [finditer_some within found] at reported
            rcases List.mem_cons.mp reported with same | later
            · cases same
              exact ⟨found, Nat.le_refl _, within⟩
            · obtain ⟨matched, after, bounded⟩ := induction later
              exact ⟨matched, by omega, bounded⟩

/-- Each match begins after the one before it. -/
theorem pairwise_finditer :
    (finditer find length fuel position).Pairwise (fun earlier later => earlier.1 < later.1) := by
  induction fuel generalizing position with
  | zero => exact List.Pairwise.nil
  | succ fuel induction =>
      by_cases past : length < position
      · rw [finditer_past past]
        exact List.Pairwise.nil
      · have within := Nat.le_of_not_lt past
        cases found : find position with
        | none =>
            rw [finditer_none within found]
            exact induction
        | some stopped =>
            rw [finditer_some within found]
            refine List.Pairwise.cons (fun later reported => ?_) induction
            have after := (@mem_finditer find length fuel _ later.1 later.2 reported).2.1
            dsimp only
            omega

/-- A match that no earlier one runs into is reported. -/
theorem finditer_complete {first stop : Nat} (matched : find first = some stop)
    (after : position ≤ first) (bounded : first ≤ length) (enough : length < fuel + position)
    (apart : ∀ earlier stopped, earlier < first → find earlier = some stopped →
      stopped ≤ first) :
    (first, stop) ∈ finditer find length fuel position := by
  induction fuel generalizing position with
  | zero => omega
  | succ fuel induction =>
      have within : position ≤ length := Nat.le_trans after bounded
      rcases Nat.lt_or_eq_of_le after with before | same
      · cases found : find position with
        | none =>
            rw [finditer_none within found]
            exact induction before (by omega)
        | some stopped =>
            rw [finditer_some within found]
            have short := apart position stopped before found
            exact List.mem_cons_of_mem _ (induction (Nat.max_le.mpr ⟨short, before⟩) (by omega))
      · subst same
        rw [finditer_some within matched]
        exact List.mem_cons_self

end Segvault.Scan
