import Mathlib.Logic.Basic

namespace Segvault

universe u

/-! How a call ends and what it leaves: `interrupted` stands for the exceptions that no caller
survives. -/

inductive Outcome (ω : Type u)
  | returned (world : ω)
  | raised (world : ω)
  | interrupted (world : ω)

namespace Outcome

variable {ω : Type u}

def bind (outcome : Outcome ω) (rest : ω → Outcome ω) : Outcome ω :=
  match outcome with
  | .returned world => rest world
  | .raised world => .raised world
  | .interrupted world => .interrupted world

def world : Outcome ω → ω
  | .returned world | .raised world | .interrupted world => world

/-- One condition for each way to end. -/
def Ends (returns raises interrupts : ω → Prop) : Outcome ω → Prop
  | .returned world => returns world
  | .raised world => raises world
  | .interrupted world => interrupts world

variable {returns raises interrupts middle : ω → Prop} {outcome : Outcome ω}

theorem Ends.bind {rest : ω → Outcome ω} (first : outcome.Ends middle raises interrupts)
    (second : ∀ world, middle world → (rest world).Ends returns raises interrupts) :
    (outcome.bind rest).Ends returns raises interrupts := by
  cases outcome with
  | returned world => exact second world first
  | raised world => exact first
  | interrupted world => exact first

/-- The same with the condition between the two parts at hand. -/
theorem Ends.through (middle : ω → Prop) {rest : ω → Outcome ω}
    (first : outcome.Ends middle raises interrupts)
    (second : ∀ world, middle world → (rest world).Ends returns raises interrupts) :
    (outcome.bind rest).Ends returns raises interrupts :=
  first.bind second

theorem Ends.imp {returns' raises' interrupts' : ω → Prop}
    (ends : outcome.Ends returns raises interrupts)
    (onReturn : ∀ world, returns world → returns' world)
    (onRaise : ∀ world, raises world → raises' world)
    (onInterrupt : ∀ world, interrupts world → interrupts' world) :
    outcome.Ends returns' raises' interrupts' := by
  cases outcome with
  | returned world => exact onReturn world ends
  | raised world => exact onRaise world ends
  | interrupted world => exact onInterrupt world ends

theorem Ends.and {returns' raises' interrupts' : ω → Prop}
    (first : outcome.Ends returns raises interrupts)
    (second : outcome.Ends returns' raises' interrupts') :
    outcome.Ends (fun world => returns world ∧ returns' world)
      (fun world => raises world ∧ raises' world)
      (fun world => interrupts world ∧ interrupts' world) := by
  cases outcome <;> exact ⟨first, second⟩

theorem Ends.of_returned (ends : outcome.Ends returns raises interrupts) {world : ω}
    (returned : outcome = .returned world) : returns world := by
  subst returned
  exact ends

/-- The same condition however the call ends. -/
abbrev All (holds : ω → Prop) (outcome : Outcome ω) : Prop := outcome.Ends holds holds holds

theorem All.bind {holds : ω → Prop} {rest : ω → Outcome ω} (first : outcome.All holds)
    (second : ∀ world, holds world → (rest world).All holds) : (outcome.bind rest).All holds :=
  Ends.bind first second

end Outcome

end Segvault
