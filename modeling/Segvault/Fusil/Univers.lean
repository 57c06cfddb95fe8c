import Segvault.Fusil.Mta
import Segvault.Outcome

namespace Segvault.Fusil

/-! `Univers.execute` and the loop around it in `Application.executeProject`: one call of a
handler or of `live` at a time. -/

structure World (ε μ σ : Type) where
  mas : Mas ε μ
  agents : List AgentId
  isDone : Bool := false
  memory : σ

/-- Which messages of an agent have a handler, and what one call does. -/
abbrev HasHandler (ε μ σ : Type) := World ε μ σ → AgentId → μ → Bool

abbrev Reaction (ε μ σ : Type) := World ε μ σ → Outcome (World ε μ σ)

inductive Turn (μ : Type)
  | next (index : Nat)
  | reading (index : Nat) (agent : AgentId) (messages : List μ)
  | stopped
  deriving DecidableEq

structure Univers (ε μ σ : Type) where
  world : World ε μ σ
  turn : Turn μ

variable {ε μ σ : Type}

namespace Univers

def execute (world : World ε μ σ) : Univers ε μ σ := ⟨{ world with isDone := false }, .next 0⟩

/-- Every exception but `KeyboardInterrupt` and those of ptrace starts `execute` again. -/
def resume (turn : Turn μ) : Outcome (World ε μ σ) → Univers ε μ σ
  | .returned world => ⟨world, turn⟩
  | .raised world => execute world
  | .interrupted world => ⟨world, .stopped⟩

/-- `executeAgent` up to the loop of `readMailbox`; an agent without mailbox raises. -/
def executeAgent (world : World ε μ σ) (index : Nat) (agent : AgentId) : Univers ε μ σ :=
  if !world.mas.isActive agent then ⟨world, .next (index + 1)⟩
  else
    match world.mas.mailbox agent with
    | none => execute world
    | some box =>
        let (messages, mas) := world.mas.popMessages box
        ⟨{ world with mas }, .reading index agent messages⟩

/-- `hasHandler` is the `getattr` of `Message.__call__`; `reaction` is what the call does. Where
`execute` returns, the loop of `executeProject` calls it again: `run` is still 1. -/
def step (hasHandler : HasHandler ε μ σ) (univers : Univers ε μ σ)
    (reaction : Reaction ε μ σ) : Univers ε μ σ :=
  match univers.turn with
  | .next index =>
      match univers.world.agents[index]? with
      | some agent => executeAgent univers.world index agent
      | none =>
          if univers.world.isDone then execute univers.world else ⟨univers.world, .next 0⟩
  | .reading index agent (message :: messages) =>
      if hasHandler univers.world agent message then
        resume (.reading index agent messages) (reaction univers.world)
      else ⟨univers.world, .reading index agent messages⟩
  | .reading index _ [] => resume (.next (index + 1)) (reaction univers.world)
  | .stopped => univers

/-- The agent that is about to handle a message or to live. -/
def caller (hasHandler : HasHandler ε μ σ) (univers : Univers ε μ σ) : Option AgentId :=
  match univers.turn with
  | .reading _ agent (message :: _) =>
      if hasHandler univers.world agent message then some agent else none
  | .reading _ agent [] => some agent
  | .next _ | .stopped => none

def CallerActive (hasHandler : HasHandler ε μ σ) (univers : Univers ε μ σ) : Prop :=
  ∀ agent ∈ univers.caller hasHandler, univers.world.mas.isActive agent = true

/-- A handler that returns leaves its own agent active. -/
def StaysActive (hasHandler : HasHandler ε μ σ) (univers : Univers ε μ σ)
    (reaction : Reaction ε μ σ) : Prop :=
  ∀ index agent message messages world,
    univers.turn = .reading index agent (message :: messages) →
      hasHandler univers.world agent message = true → reaction univers.world = .returned world →
        world.mas.isActive agent = true

/-- Whoever is reading is active. -/
def ReaderActive (univers : Univers ε μ σ) : Prop :=
  ∀ index agent messages, univers.turn = .reading index agent messages →
    univers.world.mas.isActive agent = true

theorem ReaderActive.callerActive {univers : Univers ε μ σ} (active : univers.ReaderActive)
    (hasHandler : HasHandler ε μ σ) : univers.CallerActive hasHandler := by
  intro agent called
  unfold caller at called
  split at called
  · rename_i index reader message messages turn
    split at called
    · cases called
      exact active index _ _ turn
    · cases called
  · rename_i index reader turn
    cases called
    exact active index _ _ turn
  · cases called
  · cases called

theorem readerActive_next (world : World ε μ σ) (index : Nat) :
    (⟨world, .next index⟩ : Univers ε μ σ).ReaderActive :=
  fun _ _ _ turn => nomatch turn

theorem readerActive_resume {turn : Turn μ} {outcome : Outcome (World ε μ σ)}
    (returned : ∀ world, outcome = .returned world →
      (⟨world, turn⟩ : Univers ε μ σ).ReaderActive) :
    (resume turn outcome).ReaderActive := by
  cases outcome with
  | returned world => exact returned world rfl
  | raised world => exact readerActive_next _ _
  | interrupted world => exact fun _ _ _ turn => nomatch turn

theorem readerActive_executeAgent (world : World ε μ σ) (index : Nat) (agent : AgentId) :
    (executeAgent world index agent).ReaderActive := by
  unfold executeAgent
  split
  · exact readerActive_next _ _
  · rename_i active
    split
    · exact readerActive_next _ _
    · rintro _ _ _ ⟨⟩
      rw [Bool.not_eq_true', Bool.not_eq_false] at active
      exact active

theorem readerActive_step {hasHandler : HasHandler ε μ σ} {univers : Univers ε μ σ}
    {reaction : Reaction ε μ σ} (active : univers.ReaderActive)
    (stays : univers.StaysActive hasHandler reaction) :
    (univers.step hasHandler reaction).ReaderActive := by
  unfold step
  split
  · split
    · exact readerActive_executeAgent _ _ _
    · split
      · exact readerActive_next _ _
      · exact readerActive_next _ _
  · rename_i index agent message messages turn
    split
    · rename_i handles
      refine readerActive_resume fun world returned => ?_
      rintro _ _ _ ⟨⟩
      exact stays index _ message messages world turn handles returned
    · rintro _ _ _ ⟨⟩
      exact active index _ _ turn
  · exact readerActive_resume fun world _ => readerActive_next world _
  · exact active

/-- A reader always comes to a call of its own, if only to its `live`. -/
theorem exists_call {hasHandler : HasHandler ε μ σ} {start : Univers ε μ σ}
    {reactions : Nat → Reaction ε μ σ} {world : World ε μ σ} {index : Nat}
    {agent : AgentId} (messages : List μ) {time : Nat}
    (now : Transition.along (step hasHandler) start reactions time =
      ⟨world, .reading index agent messages⟩) :
    ∃ later, (Transition.along (step hasHandler) start reactions later).caller hasHandler =
        some agent ∧
      (Transition.along (step hasHandler) start reactions later).world = world := by
  induction messages generalizing time with
  | nil => exact ⟨time, by rw [now]; rfl, by rw [now]⟩
  | cons message messages induction =>
      cases handles : hasHandler world agent message with
      | true => exact ⟨time, by rw [now]; simp only [caller, handles, if_true], by rw [now]⟩
      | false =>
          refine @induction (time + 1) ?_
          rw [Transition.along_succ, now]
          simp only [step, handles, Bool.false_eq_true, if_false]

theorem callers_active_iff (hasHandler : HasHandler ε μ σ) (world : World ε μ σ)
    (reactions : Nat → Reaction ε μ σ) :
    (∀ time, (Transition.along (step hasHandler) (execute world) reactions time).CallerActive
        hasHandler) ↔
      ∀ time, (Transition.along (step hasHandler) (execute world) reactions time).StaysActive
        hasHandler (reactions time) := by
  constructor
  · intro quiet time index agent message messages after turn handles returned
    have next : Transition.along (step hasHandler) (execute world) reactions (time + 1) =
        ⟨after, .reading index agent messages⟩ := by
      rw [Transition.along_succ, step, turn]
      simp only [handles, if_true, returned, resume]
    obtain ⟨later, called, same⟩ := exists_call messages next
    rw [← same]
    exact quiet later agent called
  · intro stays time
    refine ReaderActive.callerActive ?_ hasHandler
    exact Transition.along_invariant ReaderActive (readerActive_next _ _)
      (fun _ _ active stays => readerActive_step active stays) stays time

/-- Agent 1 gets two messages and deactivates itself while it handles the first. -/
theorem callers_active_fails :
    ¬ ∀ (hasHandler : HasHandler Unit Nat Unit) (world : World Unit Nat Unit)
        (reactions : Nat → Reaction Unit Nat Unit) (time : Nat),
        (Transition.along (step hasHandler) (execute world) reactions time).CallerActive
          hasHandler := by
  intro claimed
  let mas : Mas Unit Nat :=
    { isActive := fun _ => true
      mailbox := some
      mailboxes := [⟨0, [], [], false⟩, ⟨1, [()], [7, 8], false⟩] }
  have called := claimed (fun _ _ _ => true) ⟨mas, [1], false, ()⟩
    (fun _ world => .returned { world with mas := world.mas.deactivate 1 }) 2 1 rfl
  exact Bool.false_ne_true called

/-! What the calls keep, a step of the univers keeps. -/

/-- `isDone` and the mailboxes do not count. -/
structure Indifferent (holds : World ε μ σ → Prop) : Prop where
  execute : ∀ world, holds world → holds { world with isDone := false }
  pop : ∀ world box, holds world → holds { world with mas := (world.mas.popMessages box).2 }

theorem Indifferent.resume {holds : World ε μ σ → Prop} (indifferent : Indifferent holds)
    {outcome : Outcome (World ε μ σ)} (reacted : outcome.All holds) (turn : Turn μ) :
    holds (resume turn outcome).world := by
  cases outcome with
  | returned world => exact reacted
  | raised world => exact indifferent.execute world reacted
  | interrupted world => exact reacted

theorem Indifferent.step {holds : World ε μ σ → Prop} (indifferent : Indifferent holds)
    {hasHandler : HasHandler ε μ σ} {univers : Univers ε μ σ} {reaction : Reaction ε μ σ}
    (held : holds univers.world)
    (reacted : (univers.caller hasHandler).isSome = true → (reaction univers.world).All holds) :
    holds (univers.step hasHandler reaction).world := by
  unfold Univers.step
  split
  · split
    · unfold executeAgent
      split
      · exact held
      · split
        · exact indifferent.execute _ held
        · exact indifferent.pop _ _ held
    · split
      · exact indifferent.execute _ held
      · exact held
  · rename_i turn
    split
    · rename_i handles
      refine indifferent.resume (reacted ?_) _
      rw [caller, turn]
      simp only [handles, if_true, Option.isSome_some]
    · exact held
  · rename_i turn
    refine indifferent.resume (reacted ?_) _
    rw [caller, turn]
    rfl
  · exact held

end Univers

end Segvault.Fusil
