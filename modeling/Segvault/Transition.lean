import Mathlib.Data.List.Basic

namespace Segvault.Transition

universe u v

variable {σ : Type u} {ε : Type v} {step : σ → ε → σ}

/-! Runs of a deterministic system: the state after a history of events. -/

def run (step : σ → ε → σ) (start : σ) (events : List ε) : σ :=
  events.foldl step start

@[simp] theorem run_nil (start : σ) : run step start [] = start := rfl

@[simp] theorem run_cons (start : σ) (event : ε) (events : List ε) :
    run step start (event :: events) = run step (step start event) events := rfl

theorem run_append (start : σ) (first second : List ε) :
    run step start (first ++ second) =
      run step (run step start first) second :=
  List.foldl_append

theorem run_invariant (invariant : σ → Prop)
    (preserved : ∀ state event, invariant state → invariant (step state event))
    {start : σ} (holds : invariant start) (events : List ε) :
    invariant (run step start events) := by
  induction events generalizing start with
  | nil => exact holds
  | cons event events induction =>
      exact induction (preserved start event holds)

/-! Histories whose steps all meet a condition on the state they start from. -/

def Guarded (step : σ → ε → σ) (guard : σ → ε → Prop) : σ → List ε → Prop
  | _, [] => True
  | state, event :: events =>
      guard state event ∧ Guarded step guard (step state event) events

instance decidableGuarded (guard : σ → ε → Prop) [decide : ∀ state, DecidablePred (guard state)] :
    ∀ state, DecidablePred (Guarded step guard state)
  | _, [] => isTrue trivial
  | state, event :: events =>
      let _ := decidableGuarded guard (step state event) events
      inferInstanceAs (Decidable (guard state event ∧ _))

theorem Guarded.invariant {guard : σ → ε → Prop} (invariant : σ → Prop)
    (preserved : ∀ state event, invariant state → guard state event →
      invariant (step state event))
    {start : σ} (holds : invariant start) {events : List ε}
    (guarded : Guarded step guard start events) :
    invariant (run step start events) := by
  induction events generalizing start with
  | nil => exact holds
  | cons event events induction =>
      exact induction (preserved start event holds guarded.1) guarded.2

/-- What each guarded step meets, while an invariant is kept, holds along the history. -/
theorem Guarded.meets {guard meets : σ → ε → Prop} (invariant : σ → Prop)
    (spec : ∀ state event, invariant state → guard state event →
      meets state event ∧ invariant (step state event))
    {start : σ} (holds : invariant start) {events : List ε}
    (guarded : Guarded step guard start events) : Guarded step meets start events := by
  induction events generalizing start with
  | nil => trivial
  | cons event events induction =>
      obtain ⟨met, kept⟩ := spec start event holds guarded.1
      exact ⟨met, induction kept guarded.2⟩

/-- Two conditions that say the same where an invariant holds, which one of them keeps. -/
theorem guarded_congr {guard other : σ → ε → Prop} (invariant : σ → Prop)
    (same : ∀ state event, invariant state → (guard state event ↔ other state event))
    (kept : ∀ state event, invariant state → guard state event →
      invariant (step state event))
    {start : σ} (holds : invariant start) (events : List ε) :
    Guarded step guard start events ↔ Guarded step other start events := by
  induction events generalizing start with
  | nil => exact Iff.rfl
  | cons event events induction =>
      rw [Guarded, Guarded, ← same start event holds]
      exact and_congr_right fun guarded => induction (kept start event holds guarded)

/-- A property that an invariant implies and that the first unguarded step breaks holds all
along a history exactly if every step of it is guarded. -/
theorem guarded_iff_throughout {guard : σ → ε → Prop} (invariant property : σ → Prop)
    (implied : ∀ state, invariant state → property state)
    (preserved : ∀ state event, invariant state → guard state event →
      invariant (step state event))
    (broken : ∀ state event, invariant state → ¬ guard state event →
      ¬ property (step state event))
    {start : σ} (holds : invariant start) (events : List ε) :
    (∀ before, before <+: events → property (run step start before)) ↔
      Guarded step guard start events := by
  induction events generalizing start with
  | nil =>
      refine iff_of_true (fun before front => ?_) trivial
      rw [List.prefix_nil.mp front]
      exact implied start holds
  | cons event events induction =>
      constructor
      · intro throughout
        have guarded : guard start event := by
          by_contra unguarded
          refine broken start event holds unguarded ?_
          exact throughout [event] (List.prefix_append [event] events)
        refine ⟨guarded, (induction (preserved start event holds guarded)).mp ?_⟩
        intro before front
        exact throughout (event :: before) (List.cons_prefix_cons.mpr ⟨rfl, front⟩)
      · rintro ⟨guarded, rest⟩ before front
        cases before with
        | nil => exact implied start holds
        | cons first before =>
            obtain ⟨rfl, further⟩ := List.cons_prefix_cons.mp front
            exact (induction (preserved start first holds guarded)).mpr rest before further

/-! Endless runs: the state after the first events of a sequence. -/

def along (step : σ → ε → σ) (start : σ) (events : Nat → ε) : Nat → σ
  | 0 => start
  | time + 1 => step (along step start events time) (events time)

theorem along_succ (start : σ) (events : Nat → ε) (time : Nat) :
    along step start events (time + 1) = step (along step start events time) (events time) := rfl

/-- An invariant is kept as long as every event meets a condition. -/
theorem along_invariant (invariant : σ → Prop) {guard : σ → ε → Prop} {start : σ}
    {events : Nat → ε} (holds : invariant start)
    (preserved : ∀ state event, invariant state → guard state event →
      invariant (step state event))
    (guarded : ∀ time, guard (along step start events time) (events time)) (time : Nat) :
    invariant (along step start events time) := by
  induction time with
  | zero => exact holds
  | succ time induction => exact preserved _ _ induction (guarded time)

/-- A state that meets one condition is reached, and none on the way meets another. -/
def Reaches (states : Nat → σ) (avoided target : σ → Prop) (now : Nat) : Prop :=
  ∃ later, now ≤ later ∧ target (states later) ∧
    ∀ between, now < between → between ≤ later → ¬ avoided (states between)

section

variable {states : Nat → σ} {avoided target : σ → Prop} {now : Nat}

theorem Reaches.here (reached : target (states now)) : Reaches states avoided target now :=
  ⟨now, Nat.le_refl now, reached, fun _ after before =>
    absurd (Nat.lt_of_lt_of_le after before) (Nat.lt_irrefl now)⟩

theorem Reaches.next (avoids : ¬ avoided (states (now + 1)))
    (reaches : Reaches states avoided target (now + 1)) : Reaches states avoided target now := by
  obtain ⟨later, sooner, reached, clear⟩ := reaches
  refine ⟨later, Nat.le_of_succ_le sooner, reached, fun between after before => ?_⟩
  rcases Nat.lt_or_eq_of_le (Nat.succ_le_of_lt after) with further | same
  · exact clear between further before
  · exact same ▸ avoids

theorem Reaches.trans {middle : σ → Prop} (first : Reaches states avoided middle now)
    (second : ∀ later, now ≤ later → middle (states later) →
      Reaches states avoided target later) : Reaches states avoided target now := by
  obtain ⟨halfway, sooner, reached, clear⟩ := first
  obtain ⟨later, further, target, clearToo⟩ := second halfway sooner reached
  refine ⟨later, Nat.le_trans sooner further, target, fun between after before => ?_⟩
  rcases Nat.lt_or_ge halfway between with beyond | within
  · exact clearToo between beyond before
  · exact clear between after within

end

end Segvault.Transition
