import Segvault.Fusil.Lifecycle

namespace Segvault.Fusil

open FusilWorld

variable {σ : Type}

section

variable [LE σ] [DecidableLE σ] (options : Options σ) (choice : Choice σ)

/-! One step, turn by turn. -/

theorem fusilStep_agent {world : FusilWorld σ} {index : Nat} {agent : AgentId}
    (found : world.agents[index]? = some agent) :
    fusilStep options ⟨world, .next index⟩ choice = Univers.executeAgent world index agent := by
  simp only [fusilStep, Univers.step, found]

theorem fusilStep_end {world : FusilWorld σ} {index : Nat}
    (found : world.agents[index]? = none) :
    fusilStep options ⟨world, .next index⟩ choice =
      if world.isDone then Univers.execute world else ⟨world, .next 0⟩ := by
  simp only [fusilStep, Univers.step, found]

theorem fusilStep_handled {world : FusilWorld σ} {index : Nat} {agent : AgentId}
    {message : Message σ} {messages : List (Message σ)}
    (handles : hasHandler world agent message = true) :
    fusilStep options ⟨world, .reading index agent (message :: messages)⟩ choice =
      Univers.resume (.reading index agent messages)
        (call options choice agent (some message) world) := by
  simp only [fusilStep, Univers.step, handles, if_true, reaction]

theorem fusilStep_skipped {world : FusilWorld σ} {index : Nat} {agent : AgentId}
    {message : Message σ} {messages : List (Message σ)}
    (ignored : ¬ hasHandler world agent message = true) :
    fusilStep options ⟨world, .reading index agent (message :: messages)⟩ choice =
      ⟨world, .reading index agent messages⟩ := by
  simp only [fusilStep, Univers.step, ignored, Bool.false_eq_true, if_false]

theorem fusilStep_live (world : FusilWorld σ) (index : Nat) (agent : AgentId) :
    fusilStep options ⟨world, .reading index agent []⟩ choice =
      Univers.resume (.next (index + 1)) (call options choice agent none world) := rfl

end

/-! The messages of a run and the ends of its universe steps. -/

/-- The agent is about to handle the message. -/
def Handles (state : FusilUnivers σ) (agent : AgentId) (message : Message σ) : Prop :=
  ∃ index messages, state.turn = .reading index agent (message :: messages) ∧
    hasHandler state.world agent message = true

/-- The project is about to end its last session. -/
def Closing (options : Options σ) [LE σ] [DecidableLE σ] (state : FusilUnivers σ) : Prop :=
  ∃ message, Handles state project message ∧ Closes options state.world.memory message

/-- The list of agents is done with, or a call raises. -/
def PassEnds (options : Options σ) [LE σ] [DecidableLE σ] (state : FusilUnivers σ)
    (choice : Choice σ) : Prop :=
  (∃ index, state.turn = .next index ∧ state.world.agents.length ≤ index) ∨
    (state.caller hasHandler).isSome = true ∧
      ∃ world, reaction options choice state state.world = .raised world

/-! The session does not change between two messages that end one. -/

structure Between (before after : FusilWorld σ) : Prop where
  wired : after.Wired
  session : after.memory.session = before.memory.session
  created : createdSessions after.memory.journal = createdSessions before.memory.journal
  stopped : .projectStopped ∈ after.memory.journal → .projectStopped ∈ before.memory.journal

theorem between_self {world : FusilWorld σ} (wired : world.Wired) : Between world world :=
  ⟨wired, rfl, rfl, id⟩

theorem between_stable (before : FusilWorld σ) : Stable (Between before) where
  wired held := held.wired
  registered _ held wired := ⟨wired, held.session, held.created, held.stopped⟩
  setActive outside held :=
    ⟨held.wired.setActive outside, held.session, held.created, held.stopped⟩
  remember {world} {memory} held wired sameSession sameJournal := by
    refine ⟨wired, sameSession.trans held.session, ?_, ?_⟩
    · exact (congrArg createdSessions sameJournal).trans held.created
    · show .projectStopped ∈ memory.journal → _
      rw [sameJournal]
      exact held.stopped
  sent {world} sender message held := by
    refine ⟨wired_creating.sent sender message held.wired, held.session, ?_, fun member => ?_⟩
    · refine (createdSessions_append world.memory.journal _).trans ?_
      rw [held.created]
      exact List.append_nil _
    · refine held.stopped ((List.mem_append.mp member).resolve_right fun new => ?_)
      cases List.mem_singleton.mp new
  clearMailbox box held :=
    ⟨wired_creating.clearMailbox box held.wired, held.session, held.created, held.stopped⟩
  newAgent events held := ⟨held.wired.newAgent events, held.session, held.created, held.stopped⟩

section

variable [LE σ] [DecidableLE σ] {options : Options σ} {choice : Choice σ}

theorem call_mta (message : Option (Message σ)) (world : FusilWorld σ) :
    call options choice mta message world =
      .returned { world with mas := world.mas.live Message.event } := rfl

theorem call_univers (message : Option (Message σ)) (world : FusilWorld σ) :
    call options choice univers message world =
      .returned (if message.isSome then { world with isDone := true } else world) := rfl

theorem call_project (message : Message σ) (world : FusilWorld σ) :
    call options choice project (some message) world = projectHandle options choice world message :=
  rfl

theorem call_between {world : FusilWorld σ} (wired : world.Wired) {agent : AgentId}
    {message : Option (Message σ)}
    (lasts : agent = project → ∀ first ∈ message, first.ends = false) :
    (call options choice agent message world).All (Between world) := by
  have ended := wired.call options choice agent message
  by_cases isMta : agent = mta
  · subst isMta
    rw [call_mta] at ended ⊢
    exact ⟨ended, rfl, rfl, id⟩
  by_cases isUnivers : agent = univers
  · subst isUnivers
    rw [call_univers] at ended ⊢
    refine ⟨ended, ?_, ?_, ?_⟩ <;> split <;> first | rfl | exact id
  · exact (between_stable world).call (between_self wired) options choice isMta isUnivers lasts

/-! Who is reading a sound world. -/

namespace Sound

variable {reader : AgentId} {world : FusilWorld σ}

omit [LE σ] [DecidableLE σ] in
theorem reread (sound : Sound options reader world) {other : AgentId}
    (known : other < world.memory.nextAgent) : Sound options other world :=
  have life := sound.life
  ⟨sound.wired, ⟨life.replays, life.distinct, life.index, life.maxSession, life.maxSuccess,
    life.busy, life.created, life.known, known, life.dones, life.fresh, life.halted,
    life.stopped⟩, sound.tidy, sound.own⟩

omit [LE σ] [DecidableLE σ] in
theorem executed (sound : Sound options reader world) :
    Sound options project ({ world with isDone := false } : FusilWorld σ) :=
  have again := sound.reread sound.wired.next
  ⟨wired_indifferent.execute world again.wired, again.life, again.tidy, again.own⟩

omit [LE σ] [DecidableLE σ] in
theorem popped (sound : Sound options reader world) (box : MailboxId) :
    Sound options reader
      ({ world with mas := (world.mas.popMessages box).2 } : FusilWorld σ) :=
  ⟨wired_indifferent.pop world box sound.wired, sound.life, sound.tidy, sound.own⟩

end Sound

/-- A world is sound for whoever is reading. -/
def SoundState (options : Options σ) (state : FusilUnivers σ) : Prop :=
  match state.turn with
  | .next _ => Sound options project state.world
  | .reading _ agent _ => Sound options agent state.world
  | .stopped => ∃ reader, Life options reader state.world.memory

omit [LE σ] [DecidableLE σ] in
theorem SoundState.lifecycle {state : FusilUnivers σ} (sound : SoundState options state) :
    Lifecycle options state.world.memory := by
  obtain ⟨world, turn⟩ := state
  cases turn with
  | next index => exact sound.life.lifecycle
  | reading index agent messages => exact sound.life.lifecycle
  | stopped =>
      obtain ⟨reader, life⟩ := sound
      exact life.lifecycle

omit [LE σ] [DecidableLE σ] in
theorem soundState_executeAgent {world : FusilWorld σ} (sound : Sound options project world)
    {index : Nat} {agent : AgentId} (member : agent ∈ world.agents) :
    SoundState options (Univers.executeAgent world index agent) := by
  unfold Univers.executeAgent
  split
  · exact sound
  · cases world.mas.mailbox agent with
    | none => exact sound.executed
    | some box => exact (sound.reread (sound.wired.known agent member)).popped box

omit [LE σ] [DecidableLE σ] in
theorem soundState_resume {reader : AgentId} {outcome : Outcome (FusilWorld σ)}
    (ends : Sounds options reader outcome) {turn : Turn (Message σ)}
    (resumed : ∀ world, Sound options reader world → SoundState options ⟨world, turn⟩) :
    SoundState options (Univers.resume turn outcome) := by
  cases outcome with
  | returned world => exact resumed world ends
  | raised world => exact Sound.executed ends
  | interrupted world => exact ⟨reader, ends⟩

theorem soundState_step {state : FusilUnivers σ} (sound : SoundState options state)
    (manageable : ∀ message, Handles state project message →
      Manageable choice project (some message)) :
    SoundState options (fusilStep options state choice) := by
  obtain ⟨world, turn⟩ := state
  cases turn with
  | next index =>
      cases found : world.agents[index]? with
      | some agent =>
          rw [fusilStep_agent options choice found]
          exact soundState_executeAgent sound (List.mem_of_getElem? found)
      | none =>
          rw [fusilStep_end options choice found]
          split
          · exact Sound.executed sound
          · exact sound
  | reading index agent messages =>
      cases messages with
      | nil =>
          have ends : Sounds options agent (call options choice agent none world) :=
            Sound.call sound fun _ => ⟨nofun, nofun⟩
          rw [fusilStep_live]
          exact soundState_resume ends fun after kept => kept.reread kept.wired.next
      | cons message messages =>
          by_cases handles : hasHandler world agent message = true
          · have ends : Sounds options agent (call options choice agent (some message) world) := by
              refine Sound.call sound fun isProject => ?_
              subst isProject
              exact manageable message ⟨index, messages, rfl, handles⟩ rfl
            rw [fusilStep_handled options choice handles]
            exact soundState_resume ends fun after kept => kept
          · rw [fusilStep_skipped options choice handles]
            exact sound
  | stopped => exact sound

/-! A session stays open until the project closes. -/

theorem Sound.call_open {agent : AgentId} {world : FusilWorld σ}
    (sound : Sound options agent world) {message : Option (Message σ)}
    (manageable : Manageable choice agent message)
    (present : world.memory.session.isSome = true)
    (lasts : agent = project → ∀ first ∈ message, ¬ Closes options world.memory first) :
    (FusilWorld.call options choice agent message world).Ends
      (fun after => after.memory.session.isSome = true)
      (fun after => after.memory.session.isSome = true) fun _ => True := by
  by_cases ordinary : agent = project → ∀ first ∈ message, first.ends = false
  · refine (call_between sound.wired ordinary).imp (fun after kept => ?_) (fun after kept => ?_)
      fun _ _ => trivial
    · rw [kept.session]
      exact present
    · rw [kept.session]
      exact present
  · obtain ⟨rfl, first, rfl, -⟩ : agent = project ∧ ∃ first ∈ message, ¬ first.ends = false := by
      simpa only [Classical.not_imp, not_forall, exists_prop] using ordinary
    rw [call_project]
    refine (sound.projectHandle manageable).imp (fun after kept => ?_) (fun after raised => ?_)
      fun _ _ => trivial
    · exact (kept.2 present).resolve_left (lasts rfl first rfl)
    · rw [raised.2.2] at present
      cases present

omit [LE σ] [DecidableLE σ] in
theorem open_resume {outcome : Outcome (FusilWorld σ)}
    (ends : outcome.Ends (fun after => after.memory.session.isSome = true)
      (fun after => after.memory.session.isSome = true) fun _ => True) (turn : Turn (Message σ)) :
    (Univers.resume turn outcome).turn = .stopped ∨
      (Univers.resume turn outcome).world.memory.session.isSome = true := by
  cases outcome with
  | returned world => exact .inr ends
  | raised world => exact .inr ends
  | interrupted world => exact .inl rfl

theorem open_step {state : FusilUnivers σ} (sound : SoundState options state)
    (manageable : ∀ message, Handles state project message →
      Manageable choice project (some message))
    (present : state.turn = .stopped ∨ state.world.memory.session.isSome = true)
    (lasts : ¬ Closing options state) :
    (fusilStep options state choice).turn = .stopped ∨
      (fusilStep options state choice).world.memory.session.isSome = true := by
  obtain ⟨world, turn⟩ := state
  cases turn with
  | next index =>
      have present := present.resolve_left nofun
      cases found : world.agents[index]? with
      | some agent =>
          rw [fusilStep_agent options choice found, Univers.executeAgent]
          split
          · exact .inr present
          · cases world.mas.mailbox agent <;> exact .inr present
      | none =>
          rw [fusilStep_end options choice found]
          split <;> exact .inr present
  | reading index agent messages =>
      have present := present.resolve_left nofun
      cases messages with
      | nil =>
          have manageable : Manageable choice agent none := fun _ => ⟨nofun, nofun⟩
          rw [fusilStep_live]
          exact open_resume (Sound.call_open sound manageable present nofun) _
      | cons message messages =>
          by_cases handles : hasHandler world agent message = true
          · have manageableHere : Manageable choice agent (some message) := by
              intro isProject
              subst isProject
              exact manageable message ⟨index, messages, rfl, handles⟩ rfl
            rw [fusilStep_handled options choice handles]
            refine open_resume (Sound.call_open sound manageableHere present ?_) _
            rintro rfl first ⟨⟩ closes
            exact lasts ⟨message, ⟨index, messages, rfl, handles⟩, closes⟩
          · rw [fusilStep_skipped options choice handles]
            exact .inr present
  | stopped => exact .inl rfl

/-! A universe step begins where another ends. -/

theorem passEnds_of_next {state : FusilUnivers σ} (wired : FusilWorld.Wired state.world)
    (begins : (fusilStep options state choice).turn = .next 0) :
    PassEnds options state choice := by
  obtain ⟨world, turn⟩ := state
  cases turn with
  | next index =>
      cases found : world.agents[index]? with
      | some agent =>
          rw [fusilStep_agent options choice found, Univers.executeAgent] at begins
          split at begins
          · cases begins
          · have boxed := wired.boxes agent (List.mem_of_getElem? found)
            cases placed : world.mas.mailbox agent with
            | none =>
                rw [placed] at boxed
                cases boxed
            | some box =>
                rw [placed] at begins
                cases begins
      | none => exact .inl ⟨index, rfl, List.getElem?_eq_none_iff.mp found⟩
  | reading index agent messages =>
      cases messages with
      | nil =>
          rw [fusilStep_live] at begins
          cases ended : call options choice agent none world with
          | raised after => exact .inr ⟨rfl, after, ended⟩
          | returned after | interrupted after =>
              rw [ended] at begins
              cases begins
      | cons message messages =>
          by_cases handles : hasHandler world agent message = true
          · rw [fusilStep_handled options choice handles] at begins
            cases ended : call options choice agent (some message) world with
            | raised after =>
                refine .inr ⟨?_, after, ended⟩
                simp only [Univers.caller, handles, if_true, Option.isSome_some]
            | returned after | interrupted after =>
                rw [ended] at begins
                cases begins
          · rw [fusilStep_skipped options choice handles] at begins
            cases begins
  | stopped => cases begins

/-! The first session. -/

omit [LE σ] [DecidableLE σ] in
theorem memory_setUp (others : List (List Event × Bool)) :
    ∃ nextAgent, (setUp others : FusilWorld σ).memory = { nextAgent } := by
  have added : ∀ world : FusilWorld σ, (∃ nextAgent, world.memory = { nextAgent }) →
      ∃ nextAgent, (others.foldl setUpOther world).memory = { nextAgent } := by
    induction others with
    | nil => exact fun _ plain => plain
    | cons other others induction =>
        rintro world ⟨nextAgent, plain⟩
        exact induction _ ⟨nextAgent + 1, by simp only [setUpOther, plain]⟩
  exact added _ ⟨_, rfl⟩

omit [LE σ] [DecidableLE σ] in
theorem sound_of_fresh {world : FusilWorld σ} (wired : world.Wired) {nextAgent : AgentId}
    (fresh : world.memory = { nextAgent }) : Sound options project world := by
  have next := wired.next
  refine ⟨wired, ?_, fun session member => ?_, fun session current => ?_⟩
  · rw [fresh] at next ⊢
    exact ⟨rfl, List.nodup_nil, rfl, fun positive => Int.le_of_lt positive,
      fun positive => Int.le_of_lt positive, nofun, nofun, nofun, next, nofun, fun _ _ => rfl,
      nofun, rfl⟩
  · rw [fresh] at member
    cases member
  · rw [fresh] at current
    cases current

omit [LE σ] [DecidableLE σ] in
theorem sound_activateProject {others : List (List Event × Bool)} {world : FusilWorld σ}
    (started : activateProject options choice (setUp others) = .returned world) :
    Sound options project world ∧ world.memory.session.isSome = true := by
  obtain ⟨nextAgent, fresh⟩ := memory_setUp (σ := σ) others
  have wired := wired_setUp (σ := σ) others
  generalize setUp others = before at started wired fresh
  rw [activateProject, FusilWorld.activate, Mas.activate] at started
  split at started
  · cases started
  · rename_i mas activated
    split at activated
    · cases activated
    · obtain ⟨box, -, rfl⟩ := Option.map_eq_some_iff.mp activated
      have active : Sound options project ({ before with
          mas := (before.mas.setActive project true).clearMailbox box } : FusilWorld σ) :=
        sound_of_fresh (wired.withMas (wired.mas.setMessages box []) rfl) fresh
      have memory := fresh
      refine (active.createSession choice ?_ ?_ ?_ ?_).of_returned started
      · rw [fresh]
      · rw [fresh]
        intro impossible
        cases impossible
      · rw [fresh]
        exact id
      · rw [fresh]
        exact id

/-! Whole runs. -/

/-- What the project and its sessions promise of a state of a run: it ends a session only where
there is one, the sessions come one at a time within the limits, and the universe step in which it
has handled `univers_stop` is the last one. -/
structure Proper (options : Options σ) (states : Nat → FusilUnivers σ) (choices : Nat → Choice σ)
    (time : Nat) : Prop where
  destroys : ∀ score, Handles (states time) project (.projectSessionDestroy score) →
    (states time).world.memory.session.isSome = true ∧
      ∀ after, projectHandle options (choices time) (states time).world
        (.projectSessionDestroy score) ≠ .raised after
  lifecycle : Lifecycle options (states time).world.memory
  last : ∀ earlier < time, Handles (states earlier) project .universStop →
    (states time).turn ≠ .next 0

/-- No agent, system calm detector or session directory fails in the calls of the project, the
project handles no `project_session_destroy` once it has ended its last session, and the universe
step in which it handles `univers_stop` is broken off. -/
structure Orderly (options : Options σ) (states : Nat → FusilUnivers σ) (choices : Nat → Choice σ)
    (time : Nat) : Prop where
  manageable : ∀ now ≤ time, ∀ message, Handles (states now) project message →
    Manageable (choices now) project (some message)
  ended : ∀ earlier < time, Closing options (states earlier) →
    ∀ now ≤ time, earlier < now → ∀ score,
      ¬ Handles (states now) project (.projectSessionDestroy score)
  broken : ∀ earlier < time, Handles (states earlier) project .universStop →
    ∀ now < time, earlier < now → ¬ PassEnds options (states now) (choices now)

theorem soundState_along {world : FusilWorld σ} (sound : Sound options project world)
    (choices : Nat → Choice σ) (time : Nat)
    (manageable : ∀ now < time, ∀ message,
      Handles (Transition.along (fusilStep options) (Univers.execute world) choices now) project
        message → Manageable (choices now) project (some message)) :
    SoundState options
      (Transition.along (fusilStep options) (Univers.execute world) choices time) := by
  induction time with
  | zero => exact sound.executed
  | succ time induction =>
      exact soundState_step
        (induction fun now earlier => manageable now (Nat.lt_succ_of_lt earlier))
        (manageable time (Nat.lt_succ_self time))

theorem open_along {world : FusilWorld σ} (sound : Sound options project world)
    (present : world.memory.session.isSome = true) (choices : Nat → Choice σ) (time : Nat)
    (manageable : ∀ now < time, ∀ message,
      Handles (Transition.along (fusilStep options) (Univers.execute world) choices now) project
        message → Manageable (choices now) project (some message))
    (lasts : ∀ now < time, ¬ Closing options
      (Transition.along (fusilStep options) (Univers.execute world) choices now)) :
    (Transition.along (fusilStep options) (Univers.execute world) choices time).turn = .stopped ∨
      (Transition.along (fusilStep options) (Univers.execute world) choices
        time).world.memory.session.isSome = true := by
  induction time with
  | zero => exact .inr present
  | succ time induction =>
      have sooner : ∀ now < time, now < time + 1 := fun now => Nat.lt_succ_of_lt
      exact open_step
        (soundState_along sound choices time fun now earlier => manageable now (sooner now earlier))
        (manageable time (Nat.lt_succ_self time))
        (induction (fun now earlier => manageable now (sooner now earlier))
          fun now earlier => lasts now (sooner now earlier))
        (lasts time (Nat.lt_succ_self time))

/-- The project cannot fail as it stops, so that its universe step goes on. -/
theorem passGoesOn_of_stop {state : FusilUnivers σ} (sound : SoundState options state)
    (handles : Handles state project .universStop)
    (manageable : Manageable choice project (some .universStop)) :
    ¬ PassEnds options state choice := by
  obtain ⟨world, turn⟩ := state
  obtain ⟨index, messages, rfl, -⟩ := handles
  rintro (⟨place, turn, -⟩ | ⟨-, after, raised⟩)
  · cases turn
  · have ends := Sound.onProjectUniversStop sound ((manageable rfl).1 rfl)
    have same : onProjectUniversStop choice world = .raised after := raised
    rw [same] at ends
    exact ends

end

/-! One agent, which the project wakes, sends some messages as it starts. -/

def limitless : Options Nat :=
  { maxSession := 0, maxSuccess := 0, successScore := 1, errorScore := 0, sessionTimeout := false }

def idle : Choice Nat := { score := 0 }

def sends (messages : List (Message Nat)) : Choice Nat :=
  { score := 0, init := fun _ => (messages, .returns) }

def begun (messages : List (Message Nat)) : FusilWorld Nat :=
  (activateProject limitless (sends messages) (setUp [([], false)])).world

theorem caller_of_handles {state : FusilUnivers σ} {agent : AgentId} {message : Message σ}
    (handles : Handles state agent message) : state.caller hasHandler = some agent := by
  obtain ⟨index, messages, turn, found⟩ := handles
  rw [Univers.caller, turn]
  simp only [found, if_true]

/-- Whatever the application and the code outside do, the univers stays wired. -/
theorem wiring_kept [LE σ] [DecidableLE σ] {options : Options σ} {first : Choice σ}
    {others : List (List Event × Bool)} {world : FusilWorld σ}
    (started : activateProject options first (setUp others) = .returned world)
    (choices : Nat → Choice σ) (time : Nat) :
    FusilWorld.Wired
      (Transition.along (fusilStep options) (Univers.execute world) choices time).world :=
  wired_along (wired_activateProject options first started) options choices time

theorem wiring_kept_stop :
    FusilWorld.Wired
      (Transition.along (fusilStep limitless) (Univers.execute (begun [.universStop]))
        (fun _ => idle) 12).world := by
  have started : activateProject limitless (sends [.universStop]) (setUp [([], false)]) =
      .returned (begun [.universStop]) := rfl
  exact wiring_kept started (fun _ => idle) 12

end Segvault.Fusil
