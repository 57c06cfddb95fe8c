import Mathlib.Tactic.TypeStar

namespace Segvault

universe u

/-! Programs over a state that keep what they did when they raise. -/

abbrev Session (ε σ : Type u) := ExceptT ε (StateM σ)

namespace Session

variable {ε σ α β : Type u}

def perform (action : Session ε σ α) (start : σ) : Except ε α × σ :=
  action.run.run start

@[simp] theorem perform_pure (value : α) (start : σ) :
    perform (pure value : Session ε σ α) start = (.ok value, start) := rfl

@[simp] theorem perform_throw (failure : ε) (start : σ) :
    perform (throw failure : Session ε σ α) start = (.error failure, start) := rfl

@[simp] theorem perform_get (start : σ) :
    perform (get : Session ε σ σ) start = (.ok start, start) := rfl

@[simp] theorem perform_set (state start : σ) :
    perform (set state : Session ε σ PUnit) start = (.ok ⟨⟩, state) := rfl

@[simp] theorem perform_modify (change : σ → σ) (start : σ) :
    perform (modify change : Session ε σ PUnit) start = (.ok ⟨⟩, change start) := rfl

theorem perform_bind (action : Session ε σ α) (rest : α → Session ε σ β) (start : σ) :
    perform (action >>= rest) start =
      match perform action start with
      | (.ok value, state) => perform (rest value) state
      | (.error failure, state) => (.error failure, state) := by
  show (action >>= rest).run.run start = match action.run.run start with
    | (.ok value, state) => (rest value).run.run state
    | (.error failure, state) => (.error failure, state)
  rw [ExceptT.run_bind, StateT.run_bind]
  show (match action.run.run start with | (result, state) => _) = _
  cases action.run.run start with
  | mk result state => cases result <;> rfl

theorem perform_bind_ok {action : Session ε σ α} {rest : α → Session ε σ β}
    {start state : σ} {value : α}
    (returned : perform action start = (.ok value, state)) :
    perform (action >>= rest) start = perform (rest value) state := by
  rw [perform_bind, returned]

theorem perform_bind_error {action : Session ε σ α} {rest : α → Session ε σ β}
    {start state : σ} {failure : ε}
    (raised : perform action start = (.error failure, state)) :
    perform (action >>= rest) start = (.error failure, state) := by
  rw [perform_bind, raised]

/-! An action that gives a result and leaves a state with a given property. -/

def Gives (holds : σ → Prop) (action : Session ε σ α) (start : σ)
    (result : Except ε α) : Prop :=
  ∃ final, holds final ∧ perform action start = (result, final)

variable {holds later : σ → Prop}

theorem gives_pure {start : σ} (held : holds start) (value : α) :
    Gives holds (pure value : Session ε σ α) start (.ok value) :=
  ⟨start, held, rfl⟩

theorem gives_throw {start : σ} (held : holds start) (failure : ε) :
    Gives holds (throw failure : Session ε σ α) start (.error failure) :=
  ⟨start, held, rfl⟩

theorem gives_bind_ok {action : Session ε σ α} {rest : α → Session ε σ β}
    {start state : σ} {value : α} {result : Except ε β}
    (returned : perform action start = (.ok value, state))
    (gives : Gives holds (rest value) state result) :
    Gives holds (action >>= rest) start result := by
  rw [Gives, perform_bind_ok returned]
  exact gives

theorem Gives.bind {action : Session ε σ α} {rest : α → Session ε σ β} {start : σ}
    {value : α} {result : Except ε β} (gives : Gives holds action start (.ok value))
    (next : ∀ state, holds state → Gives later (rest value) state result) :
    Gives later (action >>= rest) start result := by
  obtain ⟨state, held, returned⟩ := gives
  rw [Gives, perform_bind_ok returned]
  exact next state held

-- A `match` on the result, as `Except` binds it.
theorem Gives.answered {action : Session ε σ α} {start : σ} {result : Except ε α}
    (gives : Gives holds action start result) (answer : α → β) :
    Gives holds (action >>= fun value => pure (answer value)) start
      (result >>= fun value => pure (answer value)) := by
  obtain ⟨state, held, done⟩ := gives
  refine ⟨state, held, ?_⟩
  cases result with
  | ok value => rw [perform_bind_ok done]; rfl
  | error failure => rw [perform_bind_error done]; rfl

/-! An action that leaves a state with a given property, also when it raises. -/

def Leaves (holds : σ → Prop) (action : Session ε σ α) (start : σ) : Prop :=
  holds (perform action start).2

theorem leaves_of {action : Session ε σ α} {start state : σ} {result : Except ε α}
    (done : perform action start = (result, state)) (held : holds state) :
    Leaves holds action start := by
  rw [Leaves, done]
  exact held

theorem leaves_bind_ok {action : Session ε σ α} {rest : α → Session ε σ β}
    {start state : σ} {value : α} (returned : perform action start = (.ok value, state))
    (leaves : Leaves holds (rest value) state) : Leaves holds (action >>= rest) start := by
  rw [Leaves, perform_bind_ok returned]
  exact leaves

theorem Leaves.bind {action : Session ε σ α} {rest : α → Session ε σ β} {start : σ}
    (leaves : Leaves holds action start) (raised : ∀ state, holds state → later state)
    (next : ∀ value state, holds state → Leaves later (rest value) state) :
    Leaves later (action >>= rest) start := by
  rw [Leaves] at leaves
  rw [Leaves, perform_bind]
  cases done : perform action start with
  | mk result state =>
      rw [done] at leaves
      cases result with
      | ok value => exact next value state leaves
      | error failure => exact raised state leaves

end Session

end Segvault
