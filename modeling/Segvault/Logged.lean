import Mathlib.Data.List.Basic
import Segvault.Returns

namespace Segvault

universe u

/-! Programs that change a state, log what they do, and may stop: by an exception, or for
lack of fuel. -/

inductive Stop (ε : Type u)
  | raised (exception : ε)
  | starved

def Logged (ε τ σ : Type u) (α : Type u) : Type u :=
  σ → Except (Stop ε) α × σ × List τ

namespace Logged

variable {ε τ σ α β : Type u}

instance : Monad (Logged ε τ σ) where
  pure value := fun s => (.ok value, s, [])
  bind first next := fun s =>
    match first s with
    | (.error stop, s, log) => (.error stop, s, log)
    | (.ok value, s, log) =>
        let (result, s, more) := next value s
        (result, s, log ++ more)

def raise (exception : ε) : Logged ε τ σ α :=
  fun s => (.error (.raised exception), s, [])

def starve : Logged ε τ σ α :=
  fun s => (.error .starved, s, [])

def enter (entry : τ) : Logged ε τ σ PUnit :=
  fun s => (.ok ⟨⟩, s, [entry])

/-- A step on the state; None is a lack of fuel. -/
def step (run : σ → Option (α × σ)) : Logged ε τ σ α := fun s =>
  match run s with
  | some (value, s) => (.ok value, s, [])
  | none => (.error .starved, s, [])

/-- A step on the state that may raise. -/
def tryStep (run : σ → Option (Except ε (α × σ))) : Logged ε τ σ α := fun s =>
  match run s with
  | some (.ok (value, s)) => (.ok value, s, [])
  | some (.error exception) => (.error (.raised exception), s, [])
  | none => (.error .starved, s, [])

theorem step_some {run : σ → Option (α × σ)} {s s' : σ} {value : α}
    (here : run s = some (value, s')) :
    (Logged.step run : Logged ε τ σ α) s = (.ok value, s', []) := by
  unfold Logged.step
  rw [here]

theorem tryStep_ok {run : σ → Option (Except ε (α × σ))} {s s' : σ} {value : α}
    (here : run s = some (.ok (value, s'))) :
    (Logged.tryStep run : Logged ε τ σ α) s = (.ok value, s', []) := by
  unfold Logged.tryStep
  rw [here]

theorem tryStep_error {run : σ → Option (Except ε (α × σ))} {s : σ} {exception : ε}
    (here : run s = some (.error exception)) :
    (Logged.tryStep run : Logged ε τ σ α) s = (.error (.raised exception), s, []) := by
  unfold Logged.tryStep
  rw [here]

section Bind

variable {first : Logged ε τ σ α} {next : α → Logged ε τ σ β} {s s' : σ} {log : List τ}

theorem bind_ok {value : α} (here : first s = (.ok value, s', log)) :
    (first >>= next) s =
      ((next value s').1, (next value s').2.1, log ++ (next value s').2.2) := by
  change (match first s with
    | (.error stop, s, log) => (Except.error stop, s, log)
    | (.ok value, s, log) => _) = _
  rw [here]

theorem bind_error {stop : Stop ε} (here : first s = (.error stop, s', log)) :
    (first >>= next) s = (.error stop, s', log) := by
  change (match first s with
    | (.error stop, s, log) => (Except.error stop, s, log)
    | (.ok value, s, log) => _) = _
  rw [here]

end Bind

/-! What holds of the log, and of the value that is returned. -/

/-- When the log has no `bad` entry, its entries are good and the value is as expected. -/
def Logs (bad good : τ → Prop) (run : Logged ε τ σ α) (post : α → Prop) : Prop :=
  ∀ s, (∀ entry ∈ (run s).2.2, ¬ bad entry) →
    (∀ entry ∈ (run s).2.2, good entry) ∧ ∀ value, (run s).1 = .ok value → post value

namespace Logs

variable {bad good : τ → Prop}

theorem pure {value : α} {post : α → Prop} (here : post value) :
    Logs bad good (Pure.pure value : Logged ε τ σ α) post := by
  intro s _
  refine ⟨fun entry member => (by cases member), fun other same => ?_⟩
  cases same
  exact here

theorem raise (exception : ε) (post : α → Prop) :
    Logs bad good (Logged.raise exception : Logged ε τ σ α) post :=
  fun _ _ => ⟨fun _ member => (by cases member), fun _ wrong => (by cases wrong)⟩

theorem starve (post : α → Prop) : Logs bad good (Logged.starve : Logged ε τ σ α) post :=
  fun _ _ => ⟨fun _ member => (by cases member), fun _ wrong => (by cases wrong)⟩

theorem enter {entry : τ} (here : ¬ bad entry → good entry) :
    Logs bad good (Logged.enter entry : Logged ε τ σ PUnit) fun _ => ¬ bad entry := by
  intro s clean
  have notBad := clean entry List.mem_cons_self
  refine ⟨fun other member => ?_, fun _ _ => notBad⟩
  exact List.mem_singleton.mp member ▸ here notBad

theorem step (run : σ → Option (α × σ)) :
    Logs bad good (Logged.step run : Logged ε τ σ α) fun _ => True := by
  intro s _
  refine ⟨fun entry member => ?_, fun _ _ => trivial⟩
  rcases here : run s with _ | _ <;> rw [Logged.step, here] at member <;> cases member

theorem tryStep (run : σ → Option (Except ε (α × σ))) :
    Logs bad good (Logged.tryStep run : Logged ε τ σ α) fun _ => True := by
  intro s _
  refine ⟨fun entry member => ?_, fun _ _ => trivial⟩
  rcases here : run s with _ | _ | _ <;> rw [Logged.tryStep, here] at member <;> cases member

theorem imp {run : Logged ε τ σ α} {post post' : α → Prop} (logs : Logs bad good run post)
    (weaker : ∀ value, post value → post' value) : Logs bad good run post' := by
  intro s clean
  exact ⟨(logs s clean).1, fun value same => weaker value ((logs s clean).2 value same)⟩

theorem bind {first : Logged ε τ σ α} {next : α → Logged ε τ σ β} {mid : α → Prop}
    {post : β → Prop} (logs : Logs bad good first mid)
    (later : ∀ value, mid value → Logs bad good (next value) post) :
    Logs bad good (first >>= next) post := by
  intro s clean
  rcases here : first s with ⟨stop | value, s', log⟩
  · rw [bind_error here] at clean ⊢
    have goodLog := (logs s (by rw [here]; exact clean)).1
    rw [here] at goodLog
    exact ⟨goodLog, fun _ wrong => (by cases wrong)⟩
  · rw [bind_ok here] at clean ⊢
    obtain ⟨goodLog, returned⟩ := logs s (by
      rw [here]
      exact fun entry member => clean entry (List.mem_append_left _ member))
    rw [here] at goodLog returned
    obtain ⟨goodRest, post⟩ := later value (returned value rfl) s'
      fun entry member => clean entry (List.mem_append_right _ member)
    refine ⟨fun entry member => ?_, post⟩
    obtain before | after := List.mem_append.mp member
    · exact goodLog entry before
    · exact goodRest entry after

end Logs

/-! Runs with fuel: what every large enough amount of fuel gives. -/

def Gives (run : Nat → Logged ε τ σ α) (s : σ) (value : α) (s' : σ) : Prop :=
  ∃ log least, ∀ fuel, least ≤ fuel → run fuel s = (.ok value, s', log)

def Raises (run : Nat → Logged ε τ σ α) (s : σ) : Prop :=
  ∃ exception s' log least, ∀ fuel, least ≤ fuel →
    run fuel s = (.error (.raised exception), s', log)

/-- The log has a bad entry. -/
def Trips (bad : τ → Prop) (run : Nat → Logged ε τ σ α) (s : σ) : Prop :=
  ∃ least, ∀ fuel, least ≤ fuel → ∃ entry ∈ (run fuel s).2.2, bad entry

def Ends (bad : τ → Prop) (run : Nat → Logged ε τ σ α) (s : σ) (post : α → σ → Prop) : Prop :=
  (∃ value s', Gives run s value s' ∧ post value s') ∨ Raises run s ∨ Trips bad run s

section Runs

variable {bad : τ → Prop} {run first : Nat → Logged ε τ σ α} {next : Nat → α → Logged ε τ σ β}
  {s s' s'' : σ} {value : α} {result : β} {post : α → σ → Prop} {postNext : β → σ → Prop}

namespace Gives

theorem pure (value : α) (s : σ) :
    Gives (fun _ => (Pure.pure value : Logged ε τ σ α)) s value s :=
  ⟨[], 0, fun _ _ => rfl⟩

theorem enter (entry : τ) (s : σ) :
    Gives (fun _ => (Logged.enter entry : Logged ε τ σ PUnit)) s ⟨⟩ s :=
  ⟨[entry], 0, fun _ _ => rfl⟩

theorem step {steps : Nat → σ → Option (α × σ)}
    (returns : Returns (fun fuel => steps fuel s) (value, s')) :
    Gives (fun fuel => (Logged.step (steps fuel) : Logged ε τ σ α)) s value s' := by
  obtain ⟨least, returns⟩ := returns
  exact ⟨[], least, fun fuel enough => step_some (returns fuel enough)⟩

theorem tryStep {steps : Nat → σ → Option (Except ε (α × σ))}
    (returns : Returns (fun fuel => steps fuel s) (.ok (value, s'))) :
    Gives (fun fuel => (Logged.tryStep (steps fuel) : Logged ε τ σ α)) s value s' := by
  obtain ⟨least, returns⟩ := returns
  exact ⟨[], least, fun fuel enough => tryStep_ok (returns fuel enough)⟩

theorem unique {other : α} {t : σ} (gives : Gives run s value s') (same : Gives run s other t) :
    value = other ∧ s' = t := by
  obtain ⟨log, least, gives⟩ := gives
  obtain ⟨more, leastOther, same⟩ := same
  have here := gives (max least leastOther) (Nat.le_max_left _ _)
  rw [same _ (Nat.le_max_right _ _)] at here
  cases here
  exact ⟨rfl, rfl⟩

theorem bind (gives : Gives first s value s')
    (later : Gives (fun fuel => next fuel value) s' result s'') :
    Gives (fun fuel => first fuel >>= next fuel) s result s'' := by
  obtain ⟨log, least, gives⟩ := gives
  obtain ⟨more, leastNext, later⟩ := later
  refine ⟨log ++ more, max least leastNext, fun fuel enough => ?_⟩
  have after : next fuel value s' = _ :=
    later fuel (Nat.le_trans (Nat.le_max_right _ _) enough)
  change (first fuel >>= next fuel) s = _
  rw [bind_ok (gives fuel (Nat.le_trans (Nat.le_max_left _ _) enough)), after]

/-- A function that spends one unit of fuel on the call itself. -/
theorem call {body : Nat → Logged ε τ σ α} (unfolds : ∀ fuel, run (fuel + 1) = body fuel)
    (gives : Gives body s value s') : Gives run s value s' := by
  obtain ⟨log, least, gives⟩ := gives
  refine ⟨log, least + 1, fun fuel enough => ?_⟩
  obtain ⟨spent, rfl⟩ : ∃ spent, fuel = spent + 1 := ⟨fuel - 1, by omega⟩
  rw [unfolds]
  exact gives spent (by omega)

end Gives

namespace Ends

theorem gives (returned : Gives run s value s') (here : post value s') : Ends bad run s post :=
  .inl ⟨value, s', returned, here⟩

theorem raise (exception : ε) (s : σ) :
    Ends bad (fun _ => (Logged.raise exception : Logged ε τ σ α)) s post :=
  .inr (.inl ⟨exception, s, [], 0, fun _ _ => rfl⟩)

theorem trip {entry : τ} (here : bad entry) (s : σ) {post : PUnit → σ → Prop} :
    Ends bad (fun _ => (Logged.enter entry : Logged ε τ σ PUnit)) s post :=
  .inr (.inr ⟨0, fun _ _ => ⟨entry, List.mem_cons_self, here⟩⟩)

/-- A first step that returns. -/
theorem after (gives : Gives first s value s')
    (later : Ends bad (fun fuel => next fuel value) s' postNext) :
    Ends bad (fun fuel => first fuel >>= next fuel) s postNext := by
  obtain ⟨result, s'', givesNext, here⟩ |
    ⟨exception, s'', more, leastNext, raised⟩ | ⟨leastNext, trips⟩ := later
  · exact .inl ⟨result, s'', gives.bind givesNext, here⟩
  · obtain ⟨log, least, gives⟩ := gives
    refine .inr (.inl ⟨exception, s'', log ++ more, max least leastNext, fun fuel enough => ?_⟩)
    have after : next fuel value s' = _ :=
      raised fuel (Nat.le_trans (Nat.le_max_right _ _) enough)
    change (first fuel >>= next fuel) s = _
    rw [bind_ok (gives fuel (Nat.le_trans (Nat.le_max_left _ _) enough)), after]
  · obtain ⟨log, least, gives⟩ := gives
    refine .inr (.inr ⟨max least leastNext, fun fuel enough => ?_⟩)
    obtain ⟨entry, member, isBad⟩ :=
      trips fuel (Nat.le_trans (Nat.le_max_right _ _) enough)
    refine ⟨entry, ?_, isBad⟩
    change entry ∈ ((first fuel >>= next fuel) s).2.2
    rw [bind_ok (gives fuel (Nat.le_trans (Nat.le_max_left _ _) enough))]
    exact List.mem_append_right _ member

theorem imp (ends : Ends bad run s post) {post' : α → σ → Prop}
    (weaker : ∀ value s', post value s' → post' value s') : Ends bad run s post' := by
  obtain ⟨value, s', returned, here⟩ | rest := ends
  · exact .inl ⟨value, s', returned, weaker value s' here⟩
  · exact .inr rest

theorem bind (ends : Ends bad first s post)
    (later : ∀ value s', post value s' → Ends bad (fun fuel => next fuel value) s' postNext) :
    Ends bad (fun fuel => first fuel >>= next fuel) s postNext := by
  obtain ⟨value, s', gives, here⟩ | ⟨exception, s', log, least, raised⟩ | ⟨least, trips⟩ := ends
  · exact Ends.after gives (later value s' here)
  · exact .inr (.inl ⟨exception, s', log, least, fun fuel enough =>
      bind_error (raised fuel enough)⟩)
  · refine .inr (.inr ⟨least, fun fuel enough => ?_⟩)
    obtain ⟨entry, member, isBad⟩ := trips fuel enough
    refine ⟨entry, ?_, isBad⟩
    change entry ∈ ((first fuel >>= next fuel) s).2.2
    rcases here : first fuel s with ⟨stop | value, s', log⟩
    · rw [bind_error here]
      rwa [here] at member
    · rw [bind_ok here]
      rw [here] at member
      exact List.mem_append_left _ member

theorem call {body : Nat → Logged ε τ σ α} (unfolds : ∀ fuel, run (fuel + 1) = body fuel)
    (ends : Ends bad body s post) : Ends bad run s post := by
  have spent : ∀ {least fuel : Nat}, least + 1 ≤ fuel → ∃ fewer, fuel = fewer + 1 ∧ least ≤ fewer :=
    fun {least fuel} enough => ⟨fuel - 1, by omega, by omega⟩
  obtain ⟨value, s', gives, here⟩ | ⟨exception, s', log, least, raised⟩ | ⟨least, trips⟩ := ends
  · exact .inl ⟨value, s', gives.call unfolds, here⟩
  · refine .inr (.inl ⟨exception, s', log, least + 1, fun fuel enough => ?_⟩)
    obtain ⟨fewer, rfl, left⟩ := spent enough
    rw [unfolds]
    exact raised fewer left
  · refine .inr (.inr ⟨least + 1, fun fuel enough => ?_⟩)
    obtain ⟨fewer, rfl, left⟩ := spent enough
    rw [unfolds]
    exact trips fewer left

end Ends

/-! Runs that end with every large enough amount of fuel, and how. -/

def RaisesWith (run : Nat → Logged ε τ σ α) (s : σ) (exception : ε) : Prop :=
  ∃ s' log least, ∀ fuel, least ≤ fuel → run fuel s = (.error (.raised exception), s', log)

def Settles (run : Nat → Logged ε τ σ α) (s : σ) (post : α → σ → Prop) (raised : ε → Prop) : Prop :=
  (∃ value s', Gives run s value s' ∧ post value s') ∨
    ∃ exception, RaisesWith run s exception ∧ raised exception

namespace RaisesWith

variable {exception : ε}

theorem raise (exception : ε) (s : σ) :
    RaisesWith (fun _ => (Logged.raise exception : Logged ε τ σ α)) s exception :=
  ⟨s, [], 0, fun _ _ => rfl⟩

theorem tryStep {steps : Nat → σ → Option (Except ε (α × σ))}
    (returns : Returns (fun fuel => steps fuel s) (.error exception)) :
    RaisesWith (fun fuel => (Logged.tryStep (steps fuel) : Logged ε τ σ α)) s exception := by
  obtain ⟨least, returns⟩ := returns
  exact ⟨s, [], least, fun fuel enough => tryStep_error (returns fuel enough)⟩

theorem bind (raises : RaisesWith first s exception) :
    RaisesWith (fun fuel => first fuel >>= next fuel) s exception := by
  obtain ⟨s', log, least, raises⟩ := raises
  exact ⟨s', log, least, fun fuel enough => bind_error (raises fuel enough)⟩

theorem after (gives : Gives first s value s')
    (raises : RaisesWith (fun fuel => next fuel value) s' exception) :
    RaisesWith (fun fuel => first fuel >>= next fuel) s exception := by
  obtain ⟨log, least, gives⟩ := gives
  obtain ⟨s'', more, leastNext, raises⟩ := raises
  refine ⟨s'', log ++ more, max least leastNext, fun fuel enough => ?_⟩
  have after : next fuel value s' = _ :=
    raises fuel (Nat.le_trans (Nat.le_max_right _ _) enough)
  change (first fuel >>= next fuel) s = _
  rw [bind_ok (gives fuel (Nat.le_trans (Nat.le_max_left _ _) enough)), after]

theorem call {body : Nat → Logged ε τ σ α} (unfolds : ∀ fuel, run (fuel + 1) = body fuel)
    (raises : RaisesWith body s exception) : RaisesWith run s exception := by
  obtain ⟨s', log, least, raises⟩ := raises
  refine ⟨s', log, least + 1, fun fuel enough => ?_⟩
  obtain ⟨spent, rfl⟩ : ∃ spent, fuel = spent + 1 := ⟨fuel - 1, by omega⟩
  rw [unfolds]
  exact raises spent (by omega)

theorem not_gives (raises : RaisesWith run s exception) : ¬ Gives run s value s' := by
  rintro ⟨log, least, gives⟩
  obtain ⟨s'', more, leastRaised, raises⟩ := raises
  have here := gives (max least leastRaised) (Nat.le_max_left _ _)
  rw [raises _ (Nat.le_max_right _ _)] at here
  cases here

end RaisesWith

namespace Settles

variable {raised : ε → Prop}

theorem gives (returned : Gives run s value s') (here : post value s') :
    Settles run s post raised :=
  .inl ⟨value, s', returned, here⟩

theorem raises {exception : ε} (raises : RaisesWith run s exception) (here : raised exception) :
    Settles run s post raised :=
  .inr ⟨exception, raises, here⟩

/-- A first step that returns. -/
theorem after (gives : Gives first s value s')
    (later : Settles (fun fuel => next fuel value) s' postNext raised) :
    Settles (fun fuel => first fuel >>= next fuel) s postNext raised := by
  obtain ⟨result, s'', givesNext, here⟩ | ⟨exception, raises, here⟩ := later
  · exact .inl ⟨result, s'', gives.bind givesNext, here⟩
  · exact .inr ⟨exception, raises.after gives, here⟩

theorem bind (settles : Settles first s post raised)
    (later : ∀ value s', post value s' →
      Settles (fun fuel => next fuel value) s' postNext raised) :
    Settles (fun fuel => first fuel >>= next fuel) s postNext raised := by
  obtain ⟨value, s', gives, here⟩ | ⟨exception, raises, here⟩ := settles
  · exact Settles.after gives (later value s' here)
  · exact .inr ⟨exception, raises.bind, here⟩

theorem imp (settles : Settles run s post raised) {weaker : α → σ → Prop} {more : ε → Prop}
    (later : ∀ value s', post value s' → weaker value s')
    (laterRaised : ∀ exception, raised exception → more exception) :
    Settles run s weaker more := by
  obtain ⟨value, s', gives, here⟩ | ⟨exception, raises, here⟩ := settles
  · exact .inl ⟨value, s', gives, later _ _ here⟩
  · exact .inr ⟨exception, raises, laterRaised _ here⟩

theorem call {body : Nat → Logged ε τ σ α} (unfolds : ∀ fuel, run (fuel + 1) = body fuel)
    (settles : Settles body s post raised) : Settles run s post raised := by
  obtain ⟨value, s', gives, here⟩ | ⟨exception, raises, here⟩ := settles
  · exact .inl ⟨value, s', gives.call unfolds, here⟩
  · exact .inr ⟨exception, raises.call unfolds, here⟩

theorem ends (settles : Settles run s post raised) : Ends bad run s post := by
  obtain ⟨value, s', gives, here⟩ | ⟨exception, raises, _⟩ := settles
  · exact .inl ⟨value, s', gives, here⟩
  · exact .inr (.inl ⟨exception, raises⟩)

end Settles

end Runs

/-! What a run with some fuel does, unless it lacks fuel. -/

def Meets (run : Logged ε τ σ α) (s : σ) (post : α → σ → Prop) (raised : ε → Prop) : Prop :=
  match (run s).1 with
  | .ok value => post value (run s).2.1
  | .error (.raised exception) => raised exception
  | .error .starved => True

namespace Meets

variable {s : σ} {post : α → σ → Prop} {postNext : β → σ → Prop} {raised : ε → Prop}

theorem pure {value : α} (here : post value s) :
    Meets (Pure.pure value : Logged ε τ σ α) s post raised :=
  here

theorem raise {exception : ε} (here : raised exception) :
    Meets (Logged.raise exception : Logged ε τ σ α) s post raised :=
  here

theorem starve : Meets (Logged.starve : Logged ε τ σ α) s post raised :=
  True.intro

theorem enter {entry : τ} {post : PUnit → σ → Prop} (here : post ⟨⟩ s) :
    Meets (Logged.enter entry : Logged ε τ σ PUnit) s post raised :=
  here

theorem trivial (run : Logged ε τ σ α) (s : σ) :
    Meets run s (fun _ _ => True) fun _ => True := by
  unfold Meets
  split <;> exact True.intro

/-- A step on the state raises nothing. -/
theorem step (run : σ → Option (α × σ)) (s : σ) :
    Meets (Logged.step run : Logged ε τ σ α) s (fun _ _ => True) raised := by
  unfold Meets Logged.step
  cases run s <;> exact True.intro

theorem bind {first : Logged ε τ σ α} {next : α → Logged ε τ σ β}
    (meets : Meets first s post raised)
    (later : ∀ value s', (∃ log, first s = (.ok value, s', log)) → post value s' →
      Meets (next value) s' postNext raised) :
    Meets (first >>= next) s postNext raised := by
  rcases here : first s with ⟨stop | value, s', log⟩
  · unfold Meets at meets ⊢
    rw [here] at meets
    rw [bind_error here]
    cases stop with
    | raised exception => exact meets
    | starved => exact True.intro
  · have following := later value s' ⟨log, here⟩ (by
      unfold Meets at meets
      rwa [here] at meets)
    unfold Meets at following ⊢
    rw [bind_ok here]
    exact following

theorem imp {run : Logged ε τ σ α} (meets : Meets run s post raised) {weaker : α → σ → Prop}
    (later : ∀ value s', post value s' → weaker value s') : Meets run s weaker raised := by
  unfold Meets at meets ⊢
  split <;> rename_i same <;> rw [same] at meets
  · exact later _ _ meets
  · exact meets
  · exact True.intro

theorem impRaised {run : Logged ε τ σ α} (meets : Meets run s post raised) {more : ε → Prop}
    (later : ∀ exception, raised exception → more exception) : Meets run s post more := by
  unfold Meets at meets ⊢
  split <;> rename_i same <;> rw [same] at meets
  · exact meets
  · exact later _ meets
  · exact True.intro

theorem ofGives {run : Nat → Logged ε τ σ α} {value : α} {s' : σ}
    (meets : ∀ fuel, Meets (run fuel) s post raised) (gives : Gives run s value s') :
    post value s' := by
  obtain ⟨log, least, gives⟩ := gives
  have here := meets least
  unfold Meets at here
  rwa [gives least (Nat.le_refl _)] at here

theorem ofRaises {run : Nat → Logged ε τ σ α} {exception : ε}
    (meets : ∀ fuel, Meets (run fuel) s post raised) (raises : RaisesWith run s exception) :
    raised exception := by
  obtain ⟨s', log, least, raises⟩ := raises
  have here := meets least
  unfold Meets at here
  rwa [raises least (Nat.le_refl _)] at here

end Meets

/-- A run with more fuel does the same, unless it lacked fuel. -/
def Steady (run : Nat → Logged ε τ σ α) : Prop :=
  ∀ fuel more s, fuel ≤ more → (run fuel s).1 ≠ .error .starved → run more s = run fuel s

theorem steady_const (run : Logged ε τ σ α) : Steady fun _ => run :=
  fun _ _ _ _ _ => rfl

namespace Steady

variable {run : Nat → Logged ε τ σ α} (steady : Steady run) {s s' : σ}
include steady

theorem gives {fuel : Nat} {value : α} {log : List τ} (ran : run fuel s = (.ok value, s', log)) :
    Gives run s value s' :=
  ⟨log, fuel, fun more enough => (steady fuel more s enough (by
    rw [ran]
    exact fun wrong => by cases wrong)).trans ran⟩

theorem raises {fuel : Nat} {exception : ε} {log : List τ}
    (ran : run fuel s = (.error (.raised exception), s', log)) : RaisesWith run s exception :=
  ⟨s', log, fuel, fun more enough => (steady fuel more s enough (by
    rw [ran]
    exact fun wrong => by cases wrong)).trans ran⟩

theorem meets {post : α → σ → Prop} {raised : ε → Prop} (settles : Settles run s post raised)
    (fuel : Nat) : Meets (run fuel) s post raised := by
  by_cases starved : (run fuel s).1 = .error .starved
  · unfold Meets
    rw [starved]
    trivial
  obtain ⟨value, s', ⟨log, least, gives⟩, here⟩ |
    ⟨exception, ⟨s', log, least, raises⟩, here⟩ := settles
  · have same := steady fuel (max fuel least) s (Nat.le_max_left _ _) starved
    rw [gives _ (Nat.le_max_right _ _)] at same
    unfold Meets
    rw [← same]
    exact here
  · have same := steady fuel (max fuel least) s (Nat.le_max_left _ _) starved
    rw [raises _ (Nat.le_max_right _ _)] at same
    unfold Meets
    rw [← same]
    exact here

/-- A first step that returns. -/
theorem meetsAfter {value : α} {next : α → Logged ε τ σ β} {post : β → σ → Prop}
    {raised : ε → Prop} (gives : Gives run s value s') (later : Meets (next value) s' post raised)
    (fuel : Nat) : Meets (run fuel >>= next) s post raised := by
  have returned : Settles run s (fun v t => v = value ∧ t = s') fun _ => False :=
    Settles.gives gives ⟨rfl, rfl⟩
  have first := steady.meets returned fuel
  refine Meets.bind (Meets.impRaised first fun _ wrong => wrong.elim) fun v t _ here => ?_
  obtain ⟨rfl, rfl⟩ := here
  exact later

end Steady

end Logged

end Segvault
