import Mathlib.Algebra.Ring.Nat
import Mathlib.Data.List.Chain

namespace Segvault.MaximalRuns

/-! Runs of consecutive numbers. -/

structure Run where
  first : Nat
  count : Nat
  deriving DecidableEq, Repr

def Run.members (run : Run) : List Nat := List.range' run.first run.count

/-- The runs are those of a list: none is empty, none goes on where the one before it ends. -/
structure RunsOf (runs : List Run) (numbers : List Nat) : Prop where
  positive : ∀ run ∈ runs, 0 < run.count
  whole : runs.flatMap Run.members = numbers
  apart : runs.IsChain fun run next => run.first + run.count ≠ next.first

/-- The runs of a list that begins with a run already found. -/
def grow (run : Run) : List Nat → List Run
  | [] => [run]
  | number :: numbers =>
      if number = run.first + run.count then grow ⟨run.first, run.count + 1⟩ numbers
      else run :: grow ⟨number, 1⟩ numbers

def runs : List Nat → List Run
  | [] => []
  | number :: numbers => grow ⟨number, 1⟩ numbers

theorem grow_head (run : Run) (numbers : List Nat) :
    ∃ count rest, grow run numbers = ⟨run.first, count⟩ :: rest := by
  induction numbers generalizing run with
  | nil => exact ⟨run.count, [], rfl⟩
  | cons number numbers induction =>
      rw [grow]
      split
      · exact induction ⟨run.first, run.count + 1⟩
      · exact ⟨run.count, _, rfl⟩

theorem grow_runsOf {run : Run} (positive : 0 < run.count) (numbers : List Nat) :
    RunsOf (grow run numbers) (run.members ++ numbers) := by
  induction numbers generalizing run with
  | nil => exact ⟨by simpa [grow] using positive, by simp [grow], List.isChain_singleton _⟩
  | cons number numbers induction =>
      rw [grow]
      split
      · rename_i next
        have longer := @induction ⟨run.first, run.count + 1⟩ (Nat.succ_pos _)
        have members : Run.members ⟨run.first, run.count + 1⟩ = run.members ++ [number] := by
          rw [Run.members, List.range'_1_concat, next, Run.members]
        rwa [members, List.append_assoc, List.singleton_append] at longer
      · rename_i gap
        have later := @induction ⟨number, 1⟩ Nat.one_pos
        refine ⟨?_, ?_, ?_⟩
        · simpa [positive] using later.positive
        · rw [List.flatMap_cons, later.whole]
          rfl
        · obtain ⟨count, rest, same⟩ := grow_head ⟨number, 1⟩ numbers
          have apart := later.apart
          rw [same] at apart ⊢
          exact List.isChain_cons_cons.mpr ⟨Ne.symm gap, apart⟩

theorem runs_runsOf (numbers : List Nat) : RunsOf (runs numbers) numbers := by
  cases numbers with
  | nil => exact ⟨fun _ absent => absurd absent List.not_mem_nil, rfl, List.isChain_nil⟩
  | cons number numbers => exact @grow_runsOf ⟨number, 1⟩ Nat.one_pos numbers

/-- The counts add up to the length of the list. -/
theorem RunsOf.sum_count {runs : List Run} {numbers : List Nat} (runsOf : RunsOf runs numbers) :
    (runs.map Run.count).sum = numbers.length := by
  rw [← runsOf.whole, List.length_flatMap]
  congr 1
  exact List.map_congr_left fun run _ => List.length_range'.symm

end Segvault.MaximalRuns
