import Segvault.Logged

namespace Segvault

universe u

/-! Programs that follow others: what the one does from a state, the other does from each
state that is related to it. -/

section Follows

variable {σ τ α β γ δ : Type u}

/-- What `run` returns from `s`, `other` returns from `t`. -/
def FollowsAt (related : σ → τ → Prop) (move : α → β) (run : σ → Option (α × σ))
    (other : τ → Option (β × τ)) (s : σ) (t : τ) : Prop :=
  ∀ value s', run s = some (value, s') → ∃ t', other t = some (move value, t') ∧ related s' t'

/-- What `run` returns, `other` returns too. -/
def Follows (related : σ → τ → Prop) (move : α → β) (run : σ → Option (α × σ))
    (other : τ → Option (β × τ)) : Prop :=
  ∀ s t, related s t → FollowsAt related move run other s t

theorem FollowsAt.bind {related : σ → τ → Prop} {move : α → β} {moveNext : γ → δ}
    {run : σ → Option (α × σ)} {other : τ → Option (β × τ)} {next : α × σ → Option (γ × σ)}
    {nextOther : β × τ → Option (δ × τ)} {s : σ} {t : τ}
    (first : FollowsAt related move run other s t)
    (later : ∀ value, Follows related moveNext (fun s => next (value, s))
      fun t => nextOther (move value, t)) :
    FollowsAt related moveNext (fun s => run s >>= next) (fun t => other t >>= nextOther) s t := by
  intro result s'' ran
  obtain ⟨⟨value, s'⟩, ranFirst, ran⟩ := Option.bind_eq_some_iff.mp ran
  obtain ⟨t', followed, here'⟩ := first value s' ranFirst
  obtain ⟨t'', followedNext, here''⟩ := later value s' t' here' result s'' ran
  refine ⟨t'', ?_, here''⟩
  change other t >>= nextOther = _
  rw [followed]
  exact followedNext

theorem FollowsAt.ite {related : σ → τ → Prop} {move : α → β} {p q : Prop} [Decidable p]
    [Decidable q] (same : p ↔ q) {run runElse : σ → Option (α × σ)}
    {other otherElse : τ → Option (β × τ)} {s : σ} {t : τ}
    (yes : p → FollowsAt related move run other s t)
    (no : ¬ p → FollowsAt related move runElse otherElse s t) :
    FollowsAt related move (fun s => if p then run s else runElse s)
      (fun t => if q then other t else otherElse t) s t := by
  by_cases holds : p
  · simp only [if_pos holds, if_pos (same.mp holds)]
    exact yes holds
  · simp only [if_neg holds, if_neg fun other => holds (same.mpr other)]
    exact no holds

namespace Follows

variable {related : σ → τ → Prop} {move : α → β} {moveNext : γ → δ}

theorem run {run : σ → Option (α × σ)} {other : τ → Option (β × τ)} {s s' : σ} {t : τ} {value : α}
    (follows : Follows related move run other) (here : related s t)
    (ran : run s = some (value, s')) :
    ∃ t', other t = some (move value, t') ∧ related s' t' :=
  follows s t here value s' ran

theorem pure {value : α} {moved : β} (same : move value = moved) :
    Follows related move (fun s => some (value, s)) fun t => some (moved, t) := by
  intro s t here other s' ran
  cases ran
  exact ⟨t, same ▸ rfl, here⟩

theorem none {other : τ → Option (β × τ)} :
    Follows related move (fun _ => Option.none) other :=
  fun _ _ _ _ _ ran => by cases ran

theorem bind {run : σ → Option (α × σ)} {other : τ → Option (β × τ)}
    {next : α × σ → Option (γ × σ)} {nextOther : β × τ → Option (δ × τ)}
    (first : Follows related move run other)
    (later : ∀ value, Follows related moveNext (fun s => next (value, s))
      fun t => nextOther (move value, t)) :
    Follows related moveNext (fun s => run s >>= next) fun t => other t >>= nextOther :=
  fun s t here => FollowsAt.bind (first s t here) later

/-- A step that only reads the state, where the next one knows what was read. -/
theorem readAt {get : σ → Option α} {getOther : τ → Option β}
    {next : α → σ → Option (γ × σ)} {nextOther : β → τ → Option (δ × τ)}
    (reads : ∀ s t, related s t → ∀ value, get s = some value →
      getOther t = some (move value))
    {s : σ} {t : τ} (here : related s t)
    (later : ∀ value, get s = some value →
      FollowsAt related moveNext (next value) (nextOther (move value)) s t) :
    FollowsAt related moveNext (fun s => get s >>= fun value => next value s)
      (fun t => getOther t >>= fun value => nextOther value t) s t := by
  intro result s' ran
  obtain ⟨value, got, ran⟩ := Option.bind_eq_some_iff.mp ran
  obtain ⟨t', followed, here'⟩ := later value got result s' ran
  refine ⟨t', ?_, here'⟩
  change getOther t >>= _ = _
  rw [reads s t here value got]
  exact followed

/-- A step that only reads the state. -/
theorem read {get : σ → Option α} {getOther : τ → Option β}
    {next : α → σ → Option (γ × σ)} {nextOther : β → τ → Option (δ × τ)}
    (reads : ∀ s t, related s t → ∀ value, get s = some value →
      getOther t = some (move value))
    (later : ∀ value, Follows related moveNext (next value) (nextOther (move value))) :
    Follows related moveNext (fun s => get s >>= fun value => next value s)
      fun t => getOther t >>= fun value => nextOther value t :=
  fun s t here => readAt reads here fun value _ => later value s t here

theorem ite {p q : Prop} [Decidable p] [Decidable q] (same : p ↔ q)
    {run runElse : σ → Option (α × σ)} {other otherElse : τ → Option (β × τ)}
    (yes : p → Follows related move run other)
    (no : ¬ p → Follows related move runElse otherElse) :
    Follows related move (fun s => if p then run s else runElse s)
      fun t => if q then other t else otherElse t :=
  fun s t here =>
    FollowsAt.ite same (fun holds => yes holds s t here) fun holds => no holds s t here

end Follows

/-! Programs that may raise an exception. -/

/-- Two outcomes: values and states that are related, or the same exception. -/
inductive Agrees {ε : Type u} (related : σ → τ → Prop) (move : α → β) :
    Except ε (α × σ) → Except ε (β × τ) → Prop
  | ok {value : α} {s : σ} {t : τ} (here : related s t) :
      Agrees related move (.ok (value, s)) (.ok (move value, t))
  | error (exception : ε) : Agrees related move (.error exception) (.error exception)

def FollowsTry {ε : Type u} (related : σ → τ → Prop) (move : α → β)
    (run : σ → ExceptT ε Option (α × σ)) (other : τ → ExceptT ε Option (β × τ)) : Prop :=
  ∀ s t, related s t → ∀ outcome, (run s).run = some outcome →
    ∃ moved, (other t).run = some moved ∧ Agrees related move outcome moved

namespace FollowsTry

variable {ε : Type u} {related : σ → τ → Prop} {move : α → β} {moveNext : γ → δ}

theorem pure {value : α} {moved : β} (same : move value = moved) :
    FollowsTry related move (fun s => (Pure.pure (value, s) : ExceptT ε Option (α × σ)))
      fun t => Pure.pure (moved, t) := by
  intro s t here outcome ran
  cases ran
  exact ⟨_, rfl, same ▸ .ok here⟩

theorem throw (exception : ε) :
    FollowsTry related move (fun _ => (MonadExcept.throw exception : ExceptT ε Option (α × σ)))
      fun _ => MonadExcept.throw exception := by
  intro s t here outcome ran
  cases ran
  exact ⟨_, rfl, .error exception⟩

theorem lift {run : σ → Option (α × σ)} {other : τ → Option (β × τ)}
    (follows : Follows related move run other) :
    FollowsTry related move (fun s => (liftM (run s) : ExceptT ε Option (α × σ)))
      fun t => liftM (other t) := by
  intro s t here outcome ran
  change (run s).map Except.ok = some outcome at ran
  obtain ⟨⟨value, s'⟩, returned, rfl⟩ := Option.map_eq_some_iff.mp ran
  obtain ⟨t', followed, here'⟩ := follows.run here returned
  refine ⟨.ok (move value, t'), ?_, .ok here'⟩
  change (other t).map Except.ok = _
  rw [followed]
  rfl

theorem bind {run : σ → ExceptT ε Option (α × σ)} {other : τ → ExceptT ε Option (β × τ)}
    {next : α × σ → ExceptT ε Option (γ × σ)} {nextOther : β × τ → ExceptT ε Option (δ × τ)}
    (first : FollowsTry related move run other)
    (later : ∀ value, FollowsTry related moveNext (fun s => next (value, s))
      fun t => nextOther (move value, t)) :
    FollowsTry related moveNext (fun s => run s >>= next) fun t => other t >>= nextOther := by
  intro s t here outcome ran
  obtain ⟨middle, ranFirst, ran⟩ := Option.bind_eq_some_iff.mp
    (show (run s).run >>= _ = some outcome from ran)
  obtain ⟨moved, followed, agrees⟩ := first s t here middle ranFirst
  cases agrees with
  | ok here' =>
      obtain ⟨result, followedNext, agreesNext⟩ := later _ _ _ here' outcome ran
      exact ⟨result, (Returns.run_bind followed).trans followedNext, agreesNext⟩
  | error exception =>
      cases ran
      exact ⟨_, Returns.run_raises followed, .error exception⟩

/-- A step that only reads the state. -/
theorem read {get : σ → Option α} {getOther : τ → Option β}
    {next : α → σ → ExceptT ε Option (γ × σ)} {nextOther : β → τ → ExceptT ε Option (δ × τ)}
    (reads : ∀ s t, related s t → ∀ value, get s = some value →
      getOther t = some (move value))
    (later : ∀ value, FollowsTry related moveNext (next value) (nextOther (move value))) :
    FollowsTry related moveNext
      (fun s => (liftM (get s) : ExceptT ε Option α) >>= fun value => next value s)
      fun t => (liftM (getOther t) : ExceptT ε Option β) >>= fun value => nextOther value t := by
  intro s t here outcome ran
  change ((liftM (get s) : ExceptT ε Option α) >>= fun value => next value s).run = _ at ran
  change ∃ moved, ((liftM (getOther t) : ExceptT ε Option β) >>= fun value =>
    nextOther value t).run = _ ∧ _
  cases got : get s with
  | none =>
      rw [got] at ran
      cases ran
  | some value =>
      rw [got] at ran
      rw [reads s t here value got]
      exact later value s t here outcome ran

theorem ite {p q : Prop} [Decidable p] [Decidable q] (same : p ↔ q)
    {run runElse : σ → ExceptT ε Option (α × σ)} {other otherElse : τ → ExceptT ε Option (β × τ)}
    (yes : p → FollowsTry related move run other)
    (no : ¬ p → FollowsTry related move runElse otherElse) :
    FollowsTry related move (fun s => if p then run s else runElse s)
      fun t => if q then other t else otherElse t := by
  by_cases holds : p
  · simp only [if_pos holds, if_pos (same.mp holds)]
    exact yes holds
  · simp only [if_neg holds, if_neg fun other => holds (same.mpr other)]
    exact no holds

end FollowsTry

/-! Programs with a log. -/

/-- Unless `run` lacks fuel, `other` ends with the same and logs the same. -/
def FollowsLoggedAt {ε ν : Type u} (related : σ → τ → Prop) (move : α → β)
    (run : Logged ε ν σ α) (other : Logged ε ν τ β) (s : σ) (t : τ) : Prop :=
  (run s).1 ≠ .error .starved →
    (other t).1 = (run s).1.map move ∧ related (run s).2.1 (other t).2.1 ∧
      (other t).2.2 = (run s).2.2

def FollowsLogged {ε ν : Type u} (related : σ → τ → Prop) (move : α → β) (run : Logged ε ν σ α)
    (other : Logged ε ν τ β) : Prop :=
  ∀ s t, related s t → FollowsLoggedAt related move run other s t

namespace FollowsLoggedAt

variable {ε ν : Type u} {related : σ → τ → Prop} {move : α → β} {moveNext : γ → δ}

/-- A first step of which more is known. -/
theorem bind {run : Logged ε ν σ α} {other : Logged ε ν τ β} {next : α → Logged ε ν σ γ}
    {nextOther : β → Logged ε ν τ δ} {s : σ} {t : τ} {post : α → σ → Prop} {raised : ε → Prop}
    (first : FollowsLoggedAt related move run other s t) (meets : Logged.Meets run s post raised)
    (later : ∀ value s' t', post value s' → related s' t' →
      FollowsLoggedAt related moveNext (next value) (nextOther (move value)) s' t') :
    FollowsLoggedAt related moveNext (run >>= next) (other >>= nextOther) s t := by
  intro fed
  unfold FollowsLoggedAt at first
  unfold Logged.Meets at meets
  rcases ran : run s with ⟨stop | value, s', log⟩
  · rw [Logged.bind_error ran] at fed ⊢
    rw [ran] at first
    obtain ⟨same, here', logged⟩ := first fun starved => by
      cases starved
      exact fed rfl
    rcases ranOther : other t with ⟨outcome, t', logOther⟩
    rw [ranOther] at same here' logged
    cases same
    rw [Logged.bind_error ranOther]
    exact ⟨rfl, here', logged⟩
  · rw [Logged.bind_ok ran] at fed ⊢
    rw [ran] at first meets
    obtain ⟨same, here', logged⟩ := first fun wrong => by cases wrong
    rcases ranOther : other t with ⟨outcome, t', logOther⟩
    rw [ranOther] at same here' logged
    cases same
    rw [Logged.bind_ok ranOther]
    obtain ⟨same, here'', loggedNext⟩ := later value s' t' meets here' fed
    exact ⟨same, here'', congr (congrArg _ logged) loggedNext⟩

theorem ite {p : Prop} [Decidable p] {run runElse : Logged ε ν σ α}
    {other otherElse : Logged ε ν τ β} {s : σ} {t : τ}
    (yes : p → FollowsLoggedAt related move run other s t)
    (no : ¬ p → FollowsLoggedAt related move runElse otherElse s t) :
    FollowsLoggedAt related move (if p then run else runElse) (if p then other else otherElse)
      s t := by
  split
  · exact yes ‹_›
  · exact no ‹_›

theorem step {run : σ → Option (α × σ)} {other : τ → Option (β × τ)} {s : σ} {t : τ}
    (follows : FollowsAt related move run other s t) :
    FollowsLoggedAt related move (Logged.step run : Logged ε ν σ α) (Logged.step other) s t := by
  intro fed
  cases ran : run s with
  | none =>
      rw [Logged.step, ran] at fed
      exact absurd rfl fed
  | some result =>
      obtain ⟨value, s'⟩ := result
      obtain ⟨t', followed, here'⟩ := follows value s' ran
      rw [Logged.step_some ran, Logged.step_some followed]
      exact ⟨rfl, here', rfl⟩

end FollowsLoggedAt

namespace FollowsLogged

variable {ε ν : Type u} {related : σ → τ → Prop} {move : α → β} {moveNext : γ → δ}

theorem pure {value : α} {moved : β} (same : move value = moved) :
    FollowsLogged related move (Pure.pure value : Logged ε ν σ α) (Pure.pure moved) :=
  fun _ _ here _ => ⟨same ▸ rfl, here, rfl⟩

theorem raise (exception : ε) :
    FollowsLogged related move (Logged.raise exception : Logged ε ν σ α)
      (Logged.raise exception) :=
  fun _ _ here _ => ⟨rfl, here, rfl⟩

theorem starve (other : Logged ε ν τ β) :
    FollowsLogged related move (Logged.starve : Logged ε ν σ α) other :=
  fun _ _ _ fed => absurd rfl fed

theorem enter (entry : ν) :
    FollowsLogged related id (Logged.enter entry : Logged ε ν σ PUnit) (Logged.enter entry) :=
  fun _ _ here _ => ⟨rfl, here, rfl⟩

theorem step {run : σ → Option (α × σ)} {other : τ → Option (β × τ)}
    (follows : Follows related move run other) :
    FollowsLogged related move (Logged.step run : Logged ε ν σ α) (Logged.step other) :=
  fun s t here => FollowsLoggedAt.step (follows s t here)

theorem tryStep {run : σ → ExceptT ε Option (α × σ)} {other : τ → ExceptT ε Option (β × τ)}
    (follows : FollowsTry related move run other) :
    FollowsLogged related move (Logged.tryStep fun s => (run s).run : Logged ε ν σ α)
      (Logged.tryStep fun t => (other t).run) := by
  intro s t here fed
  cases ran : (run s).run with
  | none =>
      rw [Logged.tryStep, ran] at fed
      exact absurd rfl fed
  | some outcome =>
      obtain ⟨moved, followed, agrees⟩ := follows s t here outcome ran
      cases agrees with
      | ok here' =>
          rw [@Logged.tryStep_ok _ _ _ _ (fun s => (run s).run) _ _ _ ran,
            @Logged.tryStep_ok _ _ _ _ (fun t => (other t).run) _ _ _ followed]
          exact ⟨rfl, here', rfl⟩
      | error exception =>
          rw [@Logged.tryStep_error _ _ _ _ (fun s => (run s).run) _ _ ran,
            @Logged.tryStep_error _ _ _ _ (fun t => (other t).run) _ _ followed]
          exact ⟨rfl, here, rfl⟩

theorem bind {run : Logged ε ν σ α} {other : Logged ε ν τ β} {next : α → Logged ε ν σ γ}
    {nextOther : β → Logged ε ν τ δ} (first : FollowsLogged related move run other)
    (later : ∀ value, FollowsLogged related moveNext (next value) (nextOther (move value))) :
    FollowsLogged related moveNext (run >>= next) (other >>= nextOther) :=
  fun s t here => FollowsLoggedAt.bind (first s t here) (Logged.Meets.trivial run s)
    fun value s' t' _ here' => later value s' t' here'

theorem ite {p : Prop} [Decidable p] {run runElse : Logged ε ν σ α}
    {other otherElse : Logged ε ν τ β} (yes : p → FollowsLogged related move run other)
    (no : ¬ p → FollowsLogged related move runElse otherElse) :
    FollowsLogged related move (if p then run else runElse) (if p then other else otherElse) :=
  fun s t here => FollowsLoggedAt.ite (fun holds => yes holds s t here)
    fun fails => no fails s t here

end FollowsLogged

end Follows

end Segvault
