import Mathlib.Data.Nat.Basic

namespace Segvault

universe u

variable {α β : Type u}

/-! A program run with fuel: `Returns run value` when every large enough
amount of fuel gives `value`. -/

def Returns (run : Nat → Option α) (value : α) : Prop :=
  ∃ least, ∀ fuel, least ≤ fuel → run fuel = some value

namespace Returns

theorem pure (value : α) : Returns (fun _ => some value) value :=
  ⟨0, fun _ _ => rfl⟩

theorem bind {run : Nat → Option α} {value : α} {next : Nat → α → Option β}
    {result : β} (first : Returns run value)
    (second : Returns (fun fuel => next fuel value) result) :
    Returns (fun fuel => run fuel >>= next fuel) result := by
  obtain ⟨leastFirst, first⟩ := first
  obtain ⟨leastSecond, second⟩ := second
  refine ⟨leastFirst + leastSecond, fun fuel enough => ?_⟩
  change run fuel >>= next fuel = some result
  rw [first fuel (by omega)]
  exact second fuel (by omega)

/-- A first step that needs no fuel. -/
theorem bindSome {first : Option α} {value : α} {next : Nat → α → Option β} {result : β}
    (here : first = some value) (second : Returns (fun fuel => next fuel value) result) :
    Returns (fun fuel => first >>= next fuel) result := by
  subst here
  exact second

/-- A function that spends one unit of fuel on the call itself. -/
theorem call {run body : Nat → Option α} {value : α}
    (unfolds : ∀ fuel, run (fuel + 1) = body fuel)
    (returns : Returns body value) : Returns run value := by
  obtain ⟨least, returns⟩ := returns
  refine ⟨least + 1, fun fuel enough => ?_⟩
  obtain ⟨spent, rfl⟩ : ∃ spent, fuel = spent + 1 := ⟨fuel - 1, by omega⟩
  rw [unfolds]
  exact returns spent (by omega)

theorem congr {run body : Nat → Option α} {value : α}
    (same : ∀ fuel, run fuel = body fuel) (returns : Returns body value) :
    Returns run value := by
  rw [show run = body from funext same]
  exact returns

theorem unique {run : Nat → Option α} {value other : α}
    (first : Returns run value) (second : Returns run other) : value = other := by
  obtain ⟨leastFirst, first⟩ := first
  obtain ⟨leastSecond, second⟩ := second
  have here := first (leastFirst + leastSecond) (by omega)
  rw [second (leastFirst + leastSecond) (by omega)] at here
  exact (Option.some.inj here).symm

/-! Programs that may also raise an exception. -/

section Raising

theorem run_bind {ε : Type u} {first : ExceptT ε Option α} {next : α → ExceptT ε Option β}
    {value : α} (here : first.run = some (.ok value)) :
    (first >>= next).run = (next value).run := by
  change first.run >>= _ = _
  rw [here]
  rfl

theorem run_raises {ε : Type u} {first : ExceptT ε Option α} {next : α → ExceptT ε Option β}
    {exception : ε} (here : first.run = some (.error exception)) :
    (first >>= next).run = some (.error exception) := by
  change first.run >>= _ = _
  rw [here]
  rfl

variable {ε : Type u} {run : Nat → ExceptT ε Option α} {next : Nat → α → ExceptT ε Option β}

theorem tryBind {value : α} {result : Except ε β}
    (first : Returns (fun fuel => (run fuel).run) (.ok value))
    (second : Returns (fun fuel => (next fuel value).run) result) :
    Returns (fun fuel => (run fuel >>= next fuel).run) result := by
  obtain ⟨leastFirst, first⟩ := first
  obtain ⟨leastSecond, second⟩ := second
  refine ⟨leastFirst + leastSecond, fun fuel enough => ?_⟩
  have here : (run fuel).run = some (.ok value) := first fuel (by omega)
  change (run fuel).run >>= _ = some result
  rw [here]
  exact second fuel (by omega)

theorem lifted {run : Nat → Option α} {value : α} (returns : Returns run value) :
    Returns (fun fuel => (liftM (run fuel) : ExceptT ε Option α).run) (.ok value) := by
  obtain ⟨least, returns⟩ := returns
  refine ⟨least, fun fuel enough => ?_⟩
  change (liftM (run fuel) : ExceptT ε Option α).run = _
  rw [returns fuel enough]
  rfl

theorem raises {exception : ε} (first : Returns (fun fuel => (run fuel).run) (.error exception)) :
    Returns (fun fuel => (run fuel >>= next fuel).run) (.error exception) := by
  obtain ⟨least, first⟩ := first
  refine ⟨least, fun fuel enough => ?_⟩
  have here : (run fuel).run = some (.error exception) := first fuel enough
  change (run fuel).run >>= _ = some _
  rw [here]
  rfl

end Raising

end Returns

end Segvault
