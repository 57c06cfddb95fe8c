import Segvault.LiveList
import Segvault.Fusil.Univers

namespace Segvault.Fusil

/-! One step of the univers: the `for` loop of `Univers.execute` over the agents of the project,
while handlers register and unregister agents. -/

inductive AgentCall
  | registerAgent (agent : AgentId)
  | unregisterAgent (agent : AgentId)

namespace AgentCall

/-- What `AgentList.append`, which raises where the agent is there, and `AgentList.remove` make of
the list. -/
def apply (agents : List AgentId) : AgentCall → List AgentId
  | .registerAgent agent => if agent ∈ agents then agents else agents ++ [agent]
  | .unregisterAgent agent => if agent ∈ agents then agents.erase agent else agents

def action : AgentCall → LiveList.Action AgentId
  | .registerAgent agent => .append agent
  | .unregisterAgent agent => .remove agent

end AgentCall

/-- What one handler, or one `live`, does until it returns: to the agents of the project, and to
anything else. -/
structure Behaviour (ε μ σ : Type) where
  calls : List AgentCall
  others : World ε μ σ → World ε μ σ

variable {ε μ σ : Type}

def Behaviour.reaction (behaviour : Behaviour ε μ σ) : Reaction ε μ σ := fun world =>
  .returned { behaviour.others world with
    agents := behaviour.calls.foldl AgentCall.apply world.agents }

namespace Univers

/-- The agent that is passed to `executeAgent`. -/
def executed (univers : Univers ε μ σ) : Option AgentId :=
  match univers.turn with
  | .next index => univers.world.agents[index]?
  | .reading _ _ _ | .stopped => none

def calls (hasHandler : HasHandler ε μ σ) (univers : Univers ε μ σ)
    (behaviour : Behaviour ε μ σ) : List AgentCall :=
  if (univers.caller hasHandler).isSome then behaviour.calls else []

/-- The loop goes on; an active agent without a mailbox would raise. -/
def Inside (univers : Univers ε μ σ) : Prop :=
  match univers.turn with
  | .next index => ∃ agent, univers.world.agents[index]? = some agent ∧
      (univers.world.mas.isActive agent = true → (univers.world.mas.mailbox agent).isSome = true)
  | .reading _ _ _ => True
  | .stopped => False

/-- The iterator has nothing left. -/
def AtEnd (univers : Univers ε μ σ) : Prop :=
  match univers.turn with
  | .next index => univers.world.agents[index]? = none
  | .reading _ _ _ | .stopped => False

/-- The agents of the project with the iterator. -/
def liveList (univers : Univers ε μ σ) : LiveList AgentId :=
  match univers.turn with
  | .next index => ⟨univers.world.agents, index⟩
  | .reading index _ _ => ⟨univers.world.agents, index + 1⟩
  | .stopped => ⟨univers.world.agents, univers.world.agents.length⟩

/-- The agents that the iterator passes over, as one at or before it is unregistered. -/
def passedOver (hasHandler : HasHandler ε μ σ) (univers : Univers ε μ σ)
    (behaviour : Behaviour ε μ σ) : List AgentId :=
  LiveList.collect LiveList.passedOver univers.liveList
    ((univers.calls hasHandler behaviour).map AgentCall.action)

/-- The univers after some time, from the beginning of a step. -/
def during (hasHandler : HasHandler ε μ σ) (start : World ε μ σ)
    (behaviours : Nat → Behaviour ε μ σ) (time : Nat) : Univers ε μ σ :=
  Transition.along (fun univers behaviour => univers.step hasHandler behaviour.reaction)
    ⟨start, .next 0⟩ behaviours time

end Univers

/-! A step of the univers in terms of the list and its iterator. -/

namespace AgentCall

theorem run_calls (calls : List AgentCall) (agents : List AgentId) (next : Nat) :
    Transition.run LiveList.act ⟨agents, next⟩ (calls.map action) =
      ⟨calls.foldl apply agents, next⟩ := by
  induction calls generalizing agents with
  | nil => rfl
  | cons call calls induction =>
      have here : (⟨agents, next⟩ : LiveList AgentId).act call.action =
          ⟨call.apply agents, next⟩ := by
        cases call with
        | registerAgent agent =>
            rw [action, LiveList.act, apply]
            split <;> rfl
        | unregisterAgent agent =>
            rw [action, LiveList.act, apply]
            split
            · rfl
            · rename_i absent
              rw [List.erase_of_not_mem absent]
      rw [List.map_cons, Transition.run_cons, here, induction]
      rfl

theorem given_calls (calls : List AgentCall) (list : LiveList AgentId) :
    LiveList.collect LiveList.given list (calls.map action) = [] := by
  induction calls generalizing list with
  | nil => rfl
  | cons call calls induction =>
      rw [List.map_cons, LiveList.collect, induction]
      cases call <;> rfl

theorem action_injective : Function.Injective action := by
  intro first second same
  cases first <;> cases second <;> cases same <;> rfl

end AgentCall

namespace Univers

def actions (hasHandler : HasHandler ε μ σ) (univers : Univers ε μ σ)
    (behaviour : Behaviour ε μ σ) : List (LiveList.Action AgentId) :=
  match univers.turn with
  | .next _ => [.advance]
  | .reading _ _ _ | .stopped => (univers.calls hasHandler behaviour).map AgentCall.action

variable {hasHandler : HasHandler ε μ σ} {univers : Univers ε μ σ} {behaviour : Behaviour ε μ σ}

theorem liveList_step (inside : univers.Inside) :
    (univers.step hasHandler behaviour.reaction).liveList =
      Transition.run LiveList.act univers.liveList (univers.actions hasHandler behaviour) := by
  obtain ⟨world, turn⟩ := univers
  cases turn with
  | next index =>
      obtain ⟨agent, here, ready⟩ := inside
      rw [step]
      dsimp only at here ready ⊢
      rw [here]
      dsimp only
      rw [executeAgent]
      split
      · rfl
      · rename_i active
        rw [Bool.not_eq_true', Bool.not_eq_false] at active
        obtain ⟨box, mailbox⟩ := Option.isSome_iff_exists.mp (ready active)
        rw [mailbox]
        rfl
  | reading index agent messages =>
      refine Eq.trans ?_ (AgentCall.run_calls _ _ _).symm
      cases messages with
      | nil => rfl
      | cons message messages =>
          cases handles : hasHandler world agent message with
          | true =>
              simp only [step, calls, caller, handles, if_true, Option.isSome_some]
              rfl
          | false =>
              simp only [step, calls, caller, handles, Bool.false_eq_true, if_false,
                Option.isSome_none]
              rfl
  | stopped => exact inside.elim

theorem given_step :
    LiveList.collect LiveList.given univers.liveList (univers.actions hasHandler behaviour) =
      univers.executed.toList := by
  obtain ⟨world, turn⟩ := univers
  cases turn with
  | next index => exact List.append_nil _
  | reading index agent messages => exact AgentCall.given_calls _ _
  | stopped => exact AgentCall.given_calls _ _

theorem passedOver_step :
    LiveList.collect LiveList.passedOver univers.liveList (univers.actions hasHandler behaviour) =
      univers.passedOver hasHandler behaviour := by
  obtain ⟨world, turn⟩ := univers
  cases turn with
  | next index => rfl
  | reading index agent messages => rfl
  | stopped => rfl

theorem action_mem_step {call : AgentCall} :
    call.action ∈ univers.actions hasHandler behaviour ↔
      call ∈ univers.calls hasHandler behaviour := by
  obtain ⟨world, turn⟩ := univers
  cases turn with
  | next index =>
      have other : call.action ∉ [LiveList.Action.advance] := by
        cases call <;> exact fun member => nomatch List.mem_singleton.mp member
      exact iff_of_false other (fun member => nomatch member)
  | reading index agent messages => exact List.mem_map_of_injective AgentCall.action_injective
  | stopped => exact List.mem_map_of_injective AgentCall.action_injective

end Univers

open Univers

/-- A step that comes to its end. Only new agents are registered: each registers itself as it is
made. -/
structure UniversStep (ε μ σ : Type) where
  hasHandler : HasHandler ε μ σ
  start : World ε μ σ
  behaviours : Nat → Behaviour ε μ σ
  ending : Nat
  nodup : start.agents.Nodup
  inside : ∀ time < ending, (during hasHandler start behaviours time).Inside
  ended : (during hasHandler start behaviours ending).AtEnd
  new : ∀ time < ending, ∀ agent ∈ start.agents,
    .registerAgent agent ∉ (during hasHandler start behaviours time).calls hasHandler
      (behaviours time)

namespace UniversStep

variable (step : UniversStep ε μ σ)

def after (time : Nat) : Univers ε μ σ := during step.hasHandler step.start step.behaviours time

def executed : List AgentId :=
  (List.range step.ending).filterMap fun time => (step.after time).executed

def calls (time : Nat) : List AgentCall :=
  (step.after time).calls step.hasHandler (step.behaviours time)

/-- The agents of the project when the step ends. -/
def final : World ε μ σ := (step.after step.ending).world

def Unregistered (agent : AgentId) : Prop :=
  ∃ time < step.ending, .unregisterAgent agent ∈ step.calls time

def passedOver (time : Nat) : List AgentId :=
  (step.after time).passedOver step.hasHandler (step.behaviours time)

/-- What happens to the list until some time. -/
def actions (time : Nat) : List (LiveList.Action AgentId) :=
  (List.range time).flatMap fun now =>
    (step.after now).actions step.hasHandler (step.behaviours now)

variable {step}

theorem actions_succ (time : Nat) :
    step.actions (time + 1) = step.actions time ++
      (step.after time).actions step.hasHandler (step.behaviours time) := by
  rw [actions, List.range_succ, List.flatMap_append, List.flatMap_singleton]
  rfl

theorem liveList_at {time : Nat} (early : time ≤ step.ending) :
    (step.after time).liveList =
      Transition.run LiveList.act ⟨step.start.agents, 0⟩ (step.actions time) := by
  induction time with
  | zero => rfl
  | succ time induction =>
      have next := @liveList_step _ _ _ step.hasHandler _ (step.behaviours time)
        (step.inside time early)
      rw [actions_succ, Transition.run_append, ← induction (Nat.le_of_succ_le early)]
      exact next

theorem collect_at {part : LiveList AgentId → LiveList.Action AgentId → List AgentId}
    {now : Nat → List AgentId}
    (here : ∀ time, LiveList.collect part (step.after time).liveList
      ((step.after time).actions step.hasHandler (step.behaviours time)) = now time)
    {time : Nat} (early : time ≤ step.ending) :
    LiveList.collect part ⟨step.start.agents, 0⟩ (step.actions time) =
      (List.range time).flatMap now := by
  induction time with
  | zero => rfl
  | succ time induction =>
      have before := Nat.le_of_succ_le early
      rw [actions_succ, LiveList.collect_append, induction before, ← liveList_at before, here,
        List.range_succ, List.flatMap_append, List.flatMap_singleton]

theorem append_not_mem_actions {agent : AgentId} (held : agent ∈ step.start.agents) :
    .append agent ∉ step.actions step.ending := by
  intro member
  obtain ⟨time, early, appended⟩ := List.mem_flatMap.mp member
  have called := (@action_mem_step _ _ _ _ _ _ (.registerAgent agent)).mp appended
  exact step.new time (List.mem_range.mp early) agent held called

theorem remove_mem_actions {agent : AgentId} :
    .remove agent ∈ step.actions step.ending ↔ step.Unregistered agent := by
  rw [actions, List.mem_flatMap]
  refine exists_congr fun time => ?_
  rw [List.mem_range]
  exact and_congr_right fun _ => @action_mem_step _ _ _ _ _ _ (.unregisterAgent agent)

theorem items_liveList (univers : Univers ε μ σ) :
    univers.liveList.items = univers.world.agents := by
  rw [liveList]
  split <;> rfl

theorem remains_iff {agent : AgentId} (held : agent ∈ step.start.agents) :
    agent ∈ step.final.agents ↔ ¬ step.Unregistered agent := by
  rw [final, ← items_liveList, liveList_at (Nat.le_refl _), ← remove_mem_actions]
  constructor
  · intro remains removed
    exact LiveList.not_mem_run_of_removed step.nodup removed (append_not_mem_actions held) remains
  · exact fun stays => (LiveList.count_run held stays).1

theorem ahead_of_atEnd {univers : Univers ε μ σ} (ended : univers.AtEnd) :
    univers.liveList.ahead = [] := by
  obtain ⟨world, turn⟩ := univers
  cases turn with
  | next index => exact List.drop_eq_nil_of_le (List.getElem?_eq_none_iff.mp ended)
  | reading index agent messages => exact ended.elim
  | stopped => exact ended.elim

/-- Who stays to the end is executed, or passed over. -/
theorem count_executed {agent : AgentId} (held : agent ∈ step.start.agents)
    (stays : ¬ step.Unregistered agent) :
    step.executed.count agent +
      ((List.range step.ending).flatMap step.passedOver).count agent = 1 := by
  have given : LiveList.collect LiveList.given ⟨step.start.agents, 0⟩
      (step.actions step.ending) = step.executed :=
    (collect_at (fun _ => given_step) (Nat.le_refl _)).trans
      (List.filterMap_eq_flatMap_toList _ _).symm
  have passed : LiveList.collect LiveList.passedOver ⟨step.start.agents, 0⟩
      (step.actions step.ending) = (List.range step.ending).flatMap step.passedOver :=
    collect_at (fun _ => passedOver_step) (Nat.le_refl _)
  have nothing : (step.after step.ending).liveList.ahead = [] := ahead_of_atEnd step.ended
  have all := (@LiveList.count_run _ _ _ ⟨step.start.agents, 0⟩ _ held
    fun removed => stays (remove_mem_actions.mp removed)).2
  rw [given, passed, ← liveList_at (Nat.le_refl _), nothing, List.count_nil, Nat.add_zero] at all
  exact all.trans (List.count_eq_one_of_mem step.nodup held)

end UniversStep

/-- Every agent that is there from the beginning to the end of a step is executed once exactly if
the agents that the iterator passes over are unregistered in the same step. -/
theorem executeAgent_once_iff (step : UniversStep ε μ σ) :
    (∀ agent ∈ step.start.agents, agent ∈ step.final.agents →
        step.executed.count agent = 1) ↔
      ∀ time < step.ending, ∀ agent ∈ step.passedOver time, agent ∈ step.start.agents →
        step.Unregistered agent := by
  constructor
  · intro once time early agent passed held
    by_contra stays
    have counted := UniversStep.count_executed held stays
    rw [once agent held ((UniversStep.remains_iff held).mpr stays)] at counted
    have member : agent ∈ (List.range step.ending).flatMap step.passedOver :=
      List.mem_flatMap.mpr ⟨time, List.mem_range.mpr early, passed⟩
    have positive := List.count_pos_iff.mpr member
    omega
  · intro condition agent held remains
    have stays := (UniversStep.remains_iff held).mp remains
    have counted := UniversStep.count_executed held stays
    have notPassed : agent ∉ (List.range step.ending).flatMap step.passedOver := by
      intro member
      obtain ⟨time, early, passed⟩ := List.mem_flatMap.mp member
      exact stays (condition time (List.mem_range.mp early) agent passed held)
    rwa [List.count_eq_zero_of_not_mem notPassed] at counted

/-- Agent 1 unregisters itself as it lives. -/
def leaving : UniversStep Unit Nat Unit where
  hasHandler := fun _ _ _ => false
  start :=
    { mas :=
        { isActive := fun _ => true
          mailbox := some
          mailboxes := [⟨0, [], [], false⟩, ⟨1, [], [], false⟩, ⟨2, [], [], false⟩] }
      agents := [1, 2]
      memory := () }
  behaviours := fun _ => ⟨[.unregisterAgent 1], id⟩
  ending := 2
  nodup := by decide
  inside
    | 0, _ => ⟨1, rfl, fun _ => rfl⟩
    | 1, _ => trivial
  ended := rfl
  new
    | 0, _ => fun _ _ member => nomatch member
    | 1, _ => fun _ _ member => nomatch member

/-- Agent 2, which comes after it, is not executed. -/
theorem executeAgent_once_fails :
    ¬ ∀ step : UniversStep Unit Nat Unit, ∀ agent ∈ step.start.agents,
        agent ∈ step.final.agents → step.executed.count agent = 1 := by
  intro claimed
  have executed : leaving.executed = [1] := rfl
  have once := claimed leaving 2 (by decide) (List.mem_singleton.mpr rfl)
  rw [executed] at once
  exact absurd once (by decide)

end Segvault.Fusil
