import Segvault.Fusil.Runs

namespace Segvault.Fusil

open FusilWorld

variable {σ : Type}

/-! What a call sends is in the queue afterwards, unless a session is destroyed later on. -/

/-- The journal has grown, and no `univers_stop` was sent. -/
def Silent (before after : FusilWorld σ) : Prop :=
  after.Wired ∧ ∃ entries, after.memory.journal = before.memory.journal ++ entries ∧
    ∀ sender, .sent sender .universStop ∉ entries

/-- The journal has grown, and a `univers_stop` that was sent waits in the queue. -/
def Told (before after : FusilWorld σ) : Prop :=
  after.Wired ∧ ∃ entries, after.memory.journal = before.memory.journal ++ entries ∧
    ∀ sender, .sent sender .universStop ∈ entries → .universStop ∈ after.mas.queue

theorem Silent.told {before after : FusilWorld σ} (silent : Silent before after) :
    Told before after := by
  obtain ⟨wired, entries, grown, never⟩ := silent
  exact ⟨wired, entries, grown, fun sender member => absurd member (never sender)⟩

theorem told_self {world : FusilWorld σ} (wired : world.Wired) : Told world world :=
  ⟨wired, [], (List.append_nil _).symm, nofun⟩

theorem silent_destroying (before : FusilWorld σ) : Destroying (Silent before) where
  wired held := held.1
  registered _ held wired := ⟨wired, held.2⟩
  setActive outside held := ⟨held.1.setActive outside, held.2⟩
  erased _ later held := ⟨held.1.erased later, held.2⟩
  destroyed {world} session held := by
    obtain ⟨wired, entries, grown, never⟩ := held
    refine ⟨wired_destroying.destroyed session wired, entries ++ [.destroyedSession session], ?_,
      fun sender member => ?_⟩
    · show world.memory.journal ++ _ = _
      rw [grown, List.append_assoc]
    · rcases List.mem_append.mp member with old | new
      · exact never sender old
      · cases List.mem_singleton.mp new

theorem told_creating (before : FusilWorld σ) : Creating (Told before) where
  wired held := held.1
  registered _ held wired := ⟨wired, held.2⟩
  setActive outside held := ⟨held.1.setActive outside, held.2⟩
  remember {world} {memory} held wired _ same := by
    refine ⟨wired, ?_⟩
    show ∃ entries, memory.journal = _ ∧ _
    rw [same]
    exact held.2
  sent {world} sender message held := by
    obtain ⟨wired, entries, grown, waits⟩ := held
    refine ⟨wired_creating.sent sender message wired, entries ++ [.sent sender message], ?_,
      fun other member => ?_⟩
    · show world.memory.journal ++ _ = _
      rw [grown, List.append_assoc]
    · refine List.mem_append.mpr ?_
      rcases List.mem_append.mp member with old | new
      · exact .inl (waits other old)
      · cases List.mem_singleton.mp new
        exact .inr (List.mem_singleton_self _)
  clearMailbox box held := ⟨wired_creating.clearMailbox box held.1, held.2⟩
  newAgent {world} events held := by
    have opened := Mas.opened_newMailbox world.mas world.memory.nextAgent events
    refine ⟨held.1.newAgent events, ?_⟩
    show ∃ entries, _ ∧ ∀ sender, _ → _ ∈ Mas.queue _
    rw [opened.queue]
    exact held.2
  created {world} session later held := by
    obtain ⟨wired, entries, grown, waits⟩ := held
    refine ⟨wired_creating.created session later wired, entries ++ [.createdSession session], ?_,
      fun sender member => ?_⟩
    · show world.memory.journal ++ _ = _
      rw [grown, List.append_assoc]
    · rcases List.mem_append.mp member with old | new
      · exact waits sender old
      · cases List.mem_singleton.mp new

/-- A `univers_stop` waits in the queue. -/
def Queued (world : FusilWorld σ) : Prop := world.Wired ∧ .universStop ∈ world.mas.queue

theorem queued_erasing : Erasing (@Queued σ) where
  wired held := held.1
  registered _ held wired := ⟨wired, held.2⟩
  setActive outside held := ⟨held.1.setActive outside, held.2⟩
  erased _ later held := ⟨held.1.erased later, held.2⟩

theorem queued_creating : Creating (@Queued σ) where
  toSteady := queued_erasing.toSteady
  remember held wired _ _ := ⟨wired, held.2⟩
  sent sender message held :=
    ⟨wired_creating.sent sender message held.1, List.mem_append_left _ held.2⟩
  clearMailbox box held := ⟨wired_creating.clearMailbox box held.1, held.2⟩
  newAgent {world} events held := by
    have opened := Mas.opened_newMailbox world.mas world.memory.nextAgent events
    refine ⟨held.1.newAgent events, ?_⟩
    show _ ∈ Mas.queue _
    rw [opened.queue]
    exact held.2
  created session later held := ⟨wired_creating.created session later held.1, held.2⟩

section

variable [LE σ] [DecidableLE σ] {options : Options σ} {choice : Choice σ} {world : FusilWorld σ}

theorem told_call (wired : world.Wired) {agent : AgentId} (notMta : agent ≠ mta)
    (message : Option (Message σ)) :
    (call options choice agent message world).All (Told world) := by
  have told := told_self wired
  have silent : Silent world world := ⟨wired, [], (List.append_nil _).symm, nofun⟩
  rcases call_kinds agent message with isMta | rfl | ⟨rfl, rfl⟩ | ⟨score, rfl, rfl⟩ |
    ⟨-, notUnivers, lasts⟩
  · exact absurd isMta notMta
  · rw [call_univers]
    split
    · exact ⟨wired.withDone true, told.2⟩
    · exact told
  · refine ((silent_destroying world).onProjectUniversStop ?_ silent choice).imp
      (fun _ => Silent.told) (fun _ => Silent.told) fun _ => Silent.told
    rintro after ⟨wired, entries, grown, never⟩
    refine ⟨wired.log _, entries ++ [.projectStopped], ?_, fun sender member => ?_⟩
    · show after.memory.journal ++ _ = _
      rw [grown, List.append_assoc]
    · rcases List.mem_append.mp member with old | new
      · exact never sender old
      · cases List.mem_singleton.mp new
  · rw [call_project]
    unfold projectHandle onProjectSessionDestroy
    cases world.memory.session with
    | none => exact told
    | some session =>
        have destroyed := ((silent_destroying world).destroySession silent choice).imp
          (fun _ => Silent.told) (fun _ => Silent.told) fun _ => Silent.told
        have creating := told_creating world
        exact destroyed.bind fun after told =>
          creating.nextSession (creating.countSuccess told options score) options choice score
  · exact (told_creating world).call told options choice notMta notUnivers lasts

/-- The call is one of the project that destroys a session. -/
def Destroys (choice : Choice σ) (agent : AgentId) (message : Option (Message σ))
    (world : FusilWorld σ) : Prop :=
  agent = project ∧ (∃ first ∈ message, first.ends = true) ∧
    ∃ after, destroySession choice world = .returned after

theorem queued_call (queued : Queued world) {agent : AgentId} (notMta : agent ≠ mta)
    {message : Option (Message σ)} (keeps : ¬ Destroys choice agent message world) :
    (call options choice agent message world).All Queued := by
  have destroyed := queued_erasing.destroySession queued choice
  rcases call_kinds agent message with isMta | rfl | ⟨rfl, rfl⟩ | ⟨score, rfl, rfl⟩ |
    ⟨-, notUnivers, lasts⟩
  · exact absurd isMta notMta
  · rw [call_univers]
    split
    · exact ⟨queued.1.withDone true, queued.2⟩
    · exact queued
  · show (onProjectUniversStop choice world).All Queued
    unfold onProjectUniversStop
    split
    · cases ended : destroySession choice world with
      | returned after => exact absurd ⟨rfl, ⟨_, rfl, rfl⟩, after, ended⟩ keeps
      | raised after | interrupted after =>
          rw [ended] at destroyed
          exact destroyed
    · exact ⟨queued.1.log _, queued.2⟩
  · rw [call_project]
    unfold projectHandle onProjectSessionDestroy
    cases world.memory.session with
    | none => exact queued
    | some session =>
        dsimp only
        cases ended : destroySession choice world with
        | returned after => exact absurd ⟨rfl, ⟨_, rfl, rfl⟩, after, ended⟩ keeps
        | raised after | interrupted after =>
            rw [ended] at destroyed
            exact destroyed
  · exact queued_creating.call queued options choice notMta notUnivers lasts

/-! From the send to the next universe step. -/

/-- The transfer agent has had its turn in this universe step. -/
def Past (state : FusilUnivers σ) : Prop :=
  match state.turn with
  | .next index => 0 < index
  | .reading _ agent _ => agent ≠ mta
  | .stopped => True

/-- A `univers_stop` waits for the next universe step. -/
def Awaits (state : FusilUnivers σ) : Prop :=
  Queued state.world ∧ (state.turn = .next 0 ∨ Past state)

/-- One step of a run sends `univers_stop`. -/
def SendsStop (options : Options σ) (choice : Choice σ) (state : FusilUnivers σ) : Prop :=
  ∃ sender entries, .sent sender .universStop ∈ entries ∧
    (fusilStep options state choice).world.memory.journal = state.world.memory.journal ++ entries

/-- The project is about to destroy a session, and with it the queue. -/
def ClearsQueue (choice : Choice σ) (state : FusilUnivers σ) : Prop :=
  ∃ message, Handles state project message ∧ message.ends = true ∧
    ∃ after, destroySession choice state.world = .returned after

omit [LE σ] [DecidableLE σ] in
theorem awaits_resume {outcome : Outcome (FusilWorld σ)} (queued : outcome.All Queued)
    {turn : Turn (Message σ)} (past : ∀ world : FusilWorld σ, Past ⟨world, turn⟩) :
    Awaits (Univers.resume turn outcome) := by
  cases outcome with
  | returned world => exact ⟨queued, .inr (past world)⟩
  | raised world => exact ⟨⟨queued.1.withDone false, queued.2⟩, .inl rfl⟩
  | interrupted world => exact ⟨queued, .inr trivial⟩

omit [LE σ] [DecidableLE σ] in
theorem ne_mta_of_getElem? (wired : world.Wired) {index : Nat} (later : 0 < index)
    {agent : AgentId} (found : world.agents[index]? = some agent) : agent ≠ mta := by
  rintro rfl
  obtain ⟨others, agents, -⟩ := wired.agents
  have first : world.agents[0]? = some mta := by
    rw [agents]
    rfl
  have bound : 0 < world.agents.length := (List.getElem?_eq_some_iff.mp first).1
  exact Nat.ne_of_lt later ((List.getElem?_inj bound wired.nodup).mp (first.trans found.symm))

theorem awaits_step {state : FusilUnivers σ} (queued : Queued state.world) (past : Past state)
    (keeps : ¬ ClearsQueue choice state) : Awaits (fusilStep options state choice) := by
  obtain ⟨world, turn⟩ := state
  cases turn with
  | next index =>
      cases found : world.agents[index]? with
      | some agent =>
          rw [fusilStep_agent options choice found, Univers.executeAgent]
          split
          · exact ⟨queued, .inr (Nat.succ_pos index)⟩
          · cases world.mas.mailbox agent with
            | none => exact ⟨⟨queued.1.withDone false, queued.2⟩, .inl rfl⟩
            | some box =>
                exact ⟨⟨wired_indifferent.pop world box queued.1, queued.2⟩,
                  .inr (ne_mta_of_getElem? queued.1 past found)⟩
      | none =>
          rw [fusilStep_end options choice found]
          split
          · exact ⟨⟨queued.1.withDone false, queued.2⟩, .inl rfl⟩
          · exact ⟨queued, .inl rfl⟩
  | reading index agent messages =>
      cases messages with
      | nil =>
          rw [fusilStep_live]
          refine awaits_resume (queued_call queued past ?_) fun world => Nat.succ_pos index
          rintro ⟨-, ⟨first, found, -⟩, -⟩
          cases found
      | cons message messages =>
          by_cases handles : hasHandler world agent message = true
          · rw [fusilStep_handled options choice handles]
            refine awaits_resume (queued_call queued past ?_) fun world => past
            rintro ⟨rfl, ⟨first, ⟨⟩, ends⟩, destroyed⟩
            exact keeps ⟨message, ⟨index, messages, rfl, handles⟩, ends, destroyed⟩
          · rw [fusilStep_skipped options choice handles]
            exact ⟨queued, .inr past⟩
  | stopped => exact ⟨queued, .inr trivial⟩

omit [LE σ] [DecidableLE σ] in
/-- What the journal of a call has over the world before it. -/
theorem queued_of_told {before after : FusilWorld σ} (told : Told before after)
    {sender : AgentId} {entries : List (Entry σ)} (sent : .sent sender .universStop ∈ entries)
    (grown : after.memory.journal = before.memory.journal ++ entries) : Queued after := by
  obtain ⟨wired, others, same, waits⟩ := told
  rw [grown] at same
  exact ⟨wired, waits sender (List.append_cancel_left same ▸ sent)⟩

omit [LE σ] [DecidableLE σ] in
theorem awaits_of_told {outcome : Outcome (FusilWorld σ)} (told : outcome.All (Told world))
    {turn : Turn (Message σ)} (past : ∀ world : FusilWorld σ, Past ⟨world, turn⟩)
    {sender : AgentId} {entries : List (Entry σ)} (sent : .sent sender .universStop ∈ entries)
    (grown : (Univers.resume turn outcome).world.memory.journal =
      world.memory.journal ++ entries) : Awaits (Univers.resume turn outcome) := by
  cases outcome with
  | returned after => exact ⟨queued_of_told told sent grown, .inr (past after)⟩
  | raised after =>
      have queued := queued_of_told told sent grown
      exact ⟨⟨queued.1.withDone false, queued.2⟩, .inl rfl⟩
  | interrupted after => exact ⟨queued_of_told told sent grown, .inr trivial⟩

theorem ne_mta_of_sent {agent : AgentId} {message : Option (Message σ)} {turn : Turn (Message σ)}
    {sender : AgentId} {entries : List (Entry σ)} (sent : .sent sender .universStop ∈ entries)
    (grown : (Univers.resume turn (call options choice agent message world)).world.memory.journal =
      world.memory.journal ++ entries) : agent ≠ mta := by
  rintro rfl
  rw [call_mta] at grown
  have empty : entries = [] := List.append_right_eq_self.mp grown.symm
  rw [empty] at sent
  cases sent

theorem awaits_of_send {state : FusilUnivers σ} (wired : FusilWorld.Wired state.world)
    (sends : SendsStop options choice state) : Awaits (fusilStep options state choice) := by
  obtain ⟨world, turn⟩ := state
  obtain ⟨sender, entries, sent, grown⟩ := sends
  have silent : (fusilStep options ⟨world, turn⟩ choice).world.memory.journal ≠
      world.memory.journal := by
    intro same
    rw [same] at grown
    rw [List.append_right_eq_self.mp grown.symm] at sent
    cases sent
  cases turn with
  | next index =>
      cases found : world.agents[index]? with
      | some agent =>
          rw [fusilStep_agent options choice found, Univers.executeAgent] at silent
          split at silent
          · exact absurd rfl silent
          · cases placed : world.mas.mailbox agent <;> rw [placed] at silent <;>
              exact absurd rfl silent
      | none =>
          rw [fusilStep_end options choice found] at silent
          split at silent <;> exact absurd rfl silent
  | reading index agent messages =>
      cases messages with
      | nil =>
          rw [fusilStep_live] at grown ⊢
          exact awaits_of_told (told_call wired (ne_mta_of_sent sent grown) none)
            (fun _ => Nat.succ_pos index) sent grown
      | cons message messages =>
          by_cases handles : hasHandler world agent message = true
          · rw [fusilStep_handled options choice handles] at grown ⊢
            have notMta := ne_mta_of_sent sent grown
            exact awaits_of_told (told_call wired notMta (some message))
              (fun _ => notMta) sent grown
          · rw [fusilStep_skipped options choice handles] at silent
            exact absurd rfl silent
  | stopped => exact absurd rfl silent

/-! From the next universe step to the univers. -/

/-- A `univers_stop` is in the mailbox of the univers. -/
def Arrived (world : FusilWorld σ) : Prop :=
  world.Wired ∧ ∃ box, world.mas.mailbox univers = some box ∧
    .universStop ∈ world.mas.contents box

omit [LE σ] [DecidableLE σ] in
theorem arrived_live (waits : Queued world ∨ Arrived world) :
    Arrived ({ world with mas := world.mas.live Message.event } : FusilWorld σ) := by
  have wired : world.Wired := waits.elim And.left And.left
  have same := (Mas.delivered_foldl Message.event wired.mas.lists
    world.mas.queue).owners
  obtain ⟨box, events, found, kind, -, listed⟩ := wired.mas.stops univers (by decide)
  refine ⟨wired.withMas wired.mas.live (Mas.mailbox_of_same same), box, ?_, ?_⟩
  · exact (congrFun (Mas.mailbox_of_same same) univers).trans found
  · refine (Mas.contents_live wired.mas.lists box).symm ▸ List.mem_append.mpr ?_
    rcases waits with queued | ⟨-, other, foundToo, inside⟩
    · refine .inr (List.mem_filter.mpr ⟨queued.2, ?_⟩)
      have accepts := Mas.accepts_of_kind kind (wired.mas.present univers)
        (wired.mas.active univers (by decide))
      simp only [Mas.receives, accepts, Bool.true_and, decide_eq_true_eq]
      exact listed
    · rw [found] at foundToo
      cases foundToo
      exact .inl inside

omit [LE σ] [DecidableLE σ] in
theorem hasHandler_stop (wired : world.Wired) :
    hasHandler world univers .universStop = true := by
  obtain ⟨box, events, found, kind, named, -⟩ := wired.mas.stops univers (by decide)
  obtain ⟨mailbox, placed, same⟩ := Option.map_eq_some_iff.mp kind
  simp only [Prod.mk.injEq] at same
  obtain ⟨-, rfl, -⟩ := same
  simp only [hasHandler, found, Option.bind_some, placed, decide_eq_true_eq]
  exact named

abbrev StepBegins (state : FusilUnivers σ) : Prop := state.turn = .next 0

variable {start : FusilUnivers σ} {choices : Nat → Choice σ} {now : Nat}

/-- The transfer agent delivers, and the univers is next. -/
theorem reaches_univers {messages : List (Message σ)}
    (here : Transition.along (fusilStep options) start choices now =
      ⟨world, .reading 0 mta messages⟩) (waits : Queued world ∨ Arrived world) :
    Transition.Reaches (Transition.along (fusilStep options) start choices) StepBegins
      (fun state => Arrived state.world ∧ state.turn = .next 1) now := by
  induction messages generalizing now world with
  | nil =>
      have next : Transition.along (fusilStep options) start choices (now + 1) =
          ⟨{ world with mas := world.mas.live Message.event }, .next 1⟩ := by
        rw [Transition.along_succ, here, fusilStep_live, call_mta]
        rfl
      refine .next (by rw [StepBegins, next]; nofun) (.here ?_)
      rw [next]
      exact ⟨arrived_live waits, rfl⟩
  | cons message messages induction =>
      by_cases handles : hasHandler world mta message = true
      · have next : Transition.along (fusilStep options) start choices (now + 1) =
            ⟨{ world with mas := world.mas.live Message.event }, .reading 0 mta messages⟩ := by
          rw [Transition.along_succ, here, fusilStep_handled options _ handles, call_mta]
          rfl
        exact .next (by rw [StepBegins, next]; nofun) (induction next (.inr (arrived_live waits)))
      · have next : Transition.along (fusilStep options) start choices (now + 1) =
            ⟨world, .reading 0 mta messages⟩ := by
          rw [Transition.along_succ, here, fusilStep_skipped options _ handles]
        exact .next (by rw [StepBegins, next]; nofun) (induction next waits)

/-- The univers comes to the message in its batch. -/
theorem reaches_stop {messages : List (Message σ)}
    (here : Transition.along (fusilStep options) start choices now =
      ⟨world, .reading 1 univers messages⟩) (wired : world.Wired)
    (inside : .universStop ∈ messages) :
    Transition.Reaches (Transition.along (fusilStep options) start choices) StepBegins
      (fun state => Handles state univers .universStop) now := by
  induction messages generalizing now world with
  | nil => cases inside
  | cons message messages induction =>
      rcases List.mem_cons.mp inside with rfl | inside
      · refine .here ?_
        rw [here]
        exact ⟨1, messages, rfl, hasHandler_stop wired⟩
      by_cases handles : hasHandler world univers message = true
      · have next : Transition.along (fusilStep options) start choices (now + 1) =
            ⟨{ world with isDone := true }, .reading 1 univers messages⟩ := by
          rw [Transition.along_succ, here, fusilStep_handled options _ handles, call_univers]
          rfl
        exact .next (by rw [StepBegins, next]; nofun) (induction next (wired.withDone true) inside)
      · have next : Transition.along (fusilStep options) start choices (now + 1) =
            ⟨world, .reading 1 univers messages⟩ := by
          rw [Transition.along_succ, here, fusilStep_skipped options _ handles]
        exact .next (by rw [StepBegins, next]; nofun) (induction next wired inside)

omit [LE σ] [DecidableLE σ] in
/-- The application agents are the first ones, and always ready to read. -/
theorem executeAgent_core (wired : world.Wired) {index : Nat} {agent : AgentId}
    (core : applicationAgents[index]? = some agent) :
    world.agents[index]? = some agent ∧ ∃ box, world.mas.mailbox agent = some box ∧
      Univers.executeAgent world index agent =
        ⟨{ world with mas := (world.mas.popMessages box).2 },
          .reading index agent (world.mas.contents box)⟩ := by
  obtain ⟨others, agents, -⟩ := wired.agents
  have found : world.agents[index]? = some agent := by
    rw [agents, List.getElem?_append_left (List.getElem?_eq_some_iff.mp core).1]
    exact core
  have member := List.mem_of_getElem? found
  obtain ⟨box, placed⟩ := Option.isSome_iff_exists.mp (wired.boxes agent member)
  have active := wired.mas.active agent (List.mem_of_getElem? core)
  refine ⟨found, box, placed, ?_⟩
  simp only [Univers.executeAgent, active, placed, Bool.not_true, Bool.false_eq_true, if_false]
  rfl

/-- A `univers_stop` that waits as a universe step begins is handled in it. -/
theorem reaches_handled
    (begins : StepBegins (Transition.along (fusilStep options) start choices now))
    (queued : Queued (Transition.along (fusilStep options) start choices now).world) :
    Transition.Reaches (Transition.along (fusilStep options) start choices) StepBegins
      (fun state => Handles state univers .universStop) now := by
  obtain ⟨found, box, placed, reads⟩ :=
    executeAgent_core queued.1 (show applicationAgents[0]? = some mta from rfl)
  generalize here : Transition.along (fusilStep options) start choices now = state at *
  obtain ⟨world, turn⟩ := state
  cases begins
  have next : Transition.along (fusilStep options) start choices (now + 1) =
      ⟨{ world with mas := (world.mas.popMessages box).2 },
        .reading 0 mta (world.mas.contents box)⟩ := by
    rw [Transition.along_succ, here, fusilStep_agent options _ found]
    exact reads
  have waits : Queued ({ world with mas := (world.mas.popMessages box).2 } : FusilWorld σ) :=
    ⟨wired_indifferent.pop world box queued.1, queued.2⟩
  refine .next (by rw [StepBegins, next]; nofun)
    ((reaches_univers next (.inl waits)).trans fun later _ reached => ?_)
  obtain ⟨⟨wired, box, placed, inside⟩, turn⟩ := reached
  obtain ⟨found, other, foundToo, reads⟩ :=
    executeAgent_core wired (show applicationAgents[1]? = some univers from rfl)
  generalize there : Transition.along (fusilStep options) start choices later = state at *
  obtain ⟨world, turn⟩ := state
  dsimp only at turn
  subst turn
  rw [placed] at foundToo
  cases foundToo
  have next : Transition.along (fusilStep options) start choices (later + 1) =
      ⟨{ world with mas := (world.mas.popMessages box).2 },
        .reading 1 univers (world.mas.contents box)⟩ := by
    rw [Transition.along_succ, there, fusilStep_agent options _ found]
    exact reads
  exact .next (by rw [StepBegins, next]; nofun)
    (reaches_stop next (wired_indifferent.pop world box wired) inside)

/-! Which calls create a session. -/

/-- Once the project has stopped there is no session. -/
def Settled (world : FusilWorld σ) : Prop :=
  world.Wired ∧ (.projectStopped ∈ world.memory.journal → world.memory.session = none)

/-- The project has not stopped. -/
def Unstopped (world : FusilWorld σ) : Prop :=
  world.Wired ∧ .projectStopped ∉ world.memory.journal

omit [LE σ] [DecidableLE σ] in
theorem Unstopped.settled (unstopped : Unstopped world) : Settled world :=
  ⟨unstopped.1, fun member => absurd member unstopped.2⟩

omit [LE σ] [DecidableLE σ] in
theorem Unstopped.logged {memory : Memory σ} (never : .projectStopped ∉ memory.journal)
    {entry : Entry σ} (other : entry ≠ .projectStopped) :
    .projectStopped ∉ memory.journal ++ [entry] := by
  intro member
  exact other (List.mem_singleton.mp ((List.mem_append.mp member).resolve_left never)).symm

omit [LE σ] [DecidableLE σ] in
theorem unstopped_destroying : Destroying (@Unstopped σ) where
  wired held := held.1
  registered _ held wired := ⟨wired, held.2⟩
  setActive outside held := ⟨held.1.setActive outside, held.2⟩
  erased _ later held := ⟨held.1.erased later, held.2⟩
  destroyed session held :=
    ⟨wired_destroying.destroyed session held.1, Unstopped.logged held.2 nofun⟩

omit [LE σ] [DecidableLE σ] in
theorem unstopped_creating : Creating (@Unstopped σ) where
  toSteady := unstopped_destroying.toSteady
  remember {world} {memory} held wired _ same := by
    have never : .projectStopped ∉ memory.journal := by
      rw [same]
      exact held.2
    exact ⟨wired, never⟩
  sent sender message held :=
    ⟨wired_creating.sent sender message held.1, Unstopped.logged held.2 nofun⟩
  clearMailbox box held := ⟨wired_creating.clearMailbox box held.1, held.2⟩
  newAgent events held := ⟨held.1.newAgent events, held.2⟩
  created session later held :=
    ⟨wired_creating.created session later held.1, Unstopped.logged held.2 nofun⟩

omit [LE σ] [DecidableLE σ] in
theorem Settled.unstopped (settled : Settled world) {session : AgentId}
    (current : world.memory.session = some session) : Unstopped world := by
  refine ⟨settled.1, fun member => ?_⟩
  have idle := settled.2 member
  rw [current] at idle
  cases idle

omit [LE σ] [DecidableLE σ] in
theorem Between.settled {after : FusilWorld σ} (between : Between world after)
    (settled : Settled world) : Settled after :=
  ⟨between.wired, fun member => between.session.trans (settled.2 (between.stopped member))⟩

theorem settled_call (settled : Settled world) (agent : AgentId) (message : Option (Message σ)) :
    (call options choice agent message world).All Settled := by
  have kept : (call options choice agent message world).All (Between world) →
      (call options choice agent message world).All Settled := fun between =>
    between.imp (fun _ kept => kept.settled settled) (fun _ kept => kept.settled settled)
      fun _ kept => kept.settled settled
  rcases call_kinds agent message with rfl | rfl | ⟨rfl, rfl⟩ | ⟨score, rfl, rfl⟩ |
    ⟨-, -, lasts⟩
  · exact kept (call_between settled.1 nofun)
  · exact kept (call_between settled.1 nofun)
  · show (onProjectUniversStop choice world).All Settled
    unfold onProjectUniversStop
    split
    · rename_i present
      obtain ⟨session, current⟩ := Option.isSome_iff_exists.mp present
      have destroyed := unstopped_destroying.destroySession (settled.unstopped current) choice
      have returned := unstopped_destroying.toErasing.destroySession (settled.unstopped current)
        choice
      refine Outcome.Ends.through (fun after => after.Wired ∧ after.memory.session = none)
        ?_ fun after idle => ⟨idle.1.log _, fun _ => idle.2⟩
      refine (destroyed.and returned).imp ?_ (fun after kept => kept.1.settled)
        fun after kept => kept.1.settled
      rintro after ⟨unstopped, other, middle, -, rfl⟩
      exact ⟨unstopped.1, rfl⟩
    · rename_i absent
      exact ⟨settled.1.log _, fun _ => Option.not_isSome_iff_eq_none.mp absent⟩
  · show (onProjectSessionDestroy options choice score world).All Settled
    cases current : world.memory.session with
    | none =>
        unfold onProjectSessionDestroy
        rw [current]
        exact settled
    | some session =>
        exact (unstopped_destroying.onProjectSessionDestroy unstopped_creating
          (settled.unstopped current) options choice score).imp (fun _ => Unstopped.settled)
          (fun _ => Unstopped.settled) fun _ => Unstopped.settled
  · exact kept (call_between settled.1 lasts)

omit [LE σ] [DecidableLE σ] in
/-- Only the agents of sessions have changed in the memory. -/
theorem remembered_erasing (memory : Memory σ) : Erasing fun world : FusilWorld σ =>
    world.Wired ∧ ∃ sessionAgents, world.memory = { memory with sessionAgents } where
  wired held := held.1
  registered sessionAgents held wired := by
    obtain ⟨-, others, same⟩ := held
    refine ⟨wired, sessionAgents, ?_⟩
    simp only [remember, same]
  setActive outside held := ⟨held.1.setActive outside, held.2⟩
  erased _ later held := ⟨held.1.erased later, held.2⟩

theorem nextSession_atLimit {score : σ} (limit : atLimit options world.memory score = true) :
    nextSession options choice score (countSuccess options score world) =
      FusilWorld.send project .universStop (countSuccess options score world) := by
  simp only [atLimit, Bool.or_eq_true, decide_eq_true_eq] at limit
  unfold nextSession countSuccess
  by_cases success : options.successScore ≤ score
  · simp only [success, if_true, remember, true_and] at limit ⊢
    split
    · rfl
    · rename_i notEnough
      rw [if_pos (limit.resolve_left fun enough => notEnough (by push_cast; exact enough))]
  · simp only [success, if_false, false_and, false_or] at limit ⊢
    rw [if_pos limit]

omit [LE σ] [DecidableLE σ] in
theorem created_projectUniversStop (wired : world.Wired) :
    (onProjectUniversStop choice world).All fun after =>
      createdSessions after.memory.journal = createdSessions world.memory.journal := by
  have ended := (remembered_erasing world.memory).destroySession ⟨wired, _, rfl⟩ choice
  refine Outcome.All.bind ?_ fun after same => ?_
  · split
    · refine ended.imp ?_ ?_ ?_
      · rintro after ⟨session, middle, ⟨-, sessionAgents, same⟩, rfl⟩
        refine (createdSessions_append middle.memory.journal _).trans ?_
        rw [same]
        exact List.append_nil _
      · rintro after ⟨-, sessionAgents, same⟩
        rw [same]
      · rintro after ⟨-, sessionAgents, same⟩
        rw [same]
    · exact rfl
  · exact (createdSessions_append after.memory.journal _).trans
      ((List.append_nil _).trans same)

theorem created_atLimit (wired : world.Wired) {score : σ}
    (limit : atLimit options world.memory score = true) :
    (onProjectSessionDestroy options choice score world).All fun after =>
      createdSessions after.memory.journal = createdSessions world.memory.journal := by
  have ended := (remembered_erasing world.memory).destroySession ⟨wired, _, rfl⟩ choice
  unfold onProjectSessionDestroy
  cases world.memory.session with
  | none => exact rfl
  | some session =>
      refine Outcome.Ends.bind (ended.imp (fun _ => id) ?_ ?_) ?_
      · rintro after ⟨-, sessionAgents, same⟩
        rw [same]
      · rintro after ⟨-, sessionAgents, same⟩
        rw [same]
      · rintro after ⟨session, middle, ⟨-, sessionAgents, same⟩, rfl⟩
        have still : atLimit options (withoutSession session middle).memory score = true := by
          refine Eq.trans ?_ limit
          show atLimit options { middle.memory with session := none, journal := _ } score = _
          rw [same]
          rfl
        have journal : (countSuccess options score (withoutSession session middle)).memory.journal =
            world.memory.journal ++ [.destroyedSession session] := by
          have counted : (countSuccess options score
              (withoutSession session middle)).memory.journal =
                middle.memory.journal ++ [.destroyedSession session] := by
            unfold countSuccess
            split <;> rfl
          rw [counted, same]
        have created : createdSessions (countSuccess options score
            (withoutSession session middle)).memory.journal =
              createdSessions world.memory.journal := by
          rw [journal, createdSessions_append]
          exact List.append_nil _
        rw [nextSession_atLimit still]
        unfold FusilWorld.send
        split
        · exact created
        · exact (createdSessions_append _ _).trans ((List.append_nil _).trans created)

/-- The project is about to create a session although it stays within the limits: it has not
stopped yet. -/
def CreatesAgain (options : Options σ) (state : FusilUnivers σ) : Prop :=
  ∃ score, Handles state project (.projectSessionDestroy score) ∧
    atLimit options state.world.memory score = false ∧
    .projectStopped ∉ state.world.memory.journal

theorem created_call (settled : Settled world) (agent : AgentId) (message : Option (Message σ))
    (ended : ∀ score, agent = project → message = some (.projectSessionDestroy score) →
      atLimit options world.memory score = false → .projectStopped ∈ world.memory.journal) :
    (call options choice agent message world).All fun after =>
      createdSessions after.memory.journal = createdSessions world.memory.journal := by
  have kept : (call options choice agent message world).All (Between world) →
      (call options choice agent message world).All fun after =>
        createdSessions after.memory.journal = createdSessions world.memory.journal :=
    fun between => between.imp (fun _ => Between.created) (fun _ => Between.created)
      fun _ => Between.created
  rcases call_kinds agent message with rfl | rfl | ⟨rfl, rfl⟩ | ⟨score, rfl, rfl⟩ |
    ⟨-, -, lasts⟩
  · exact kept (call_between settled.1 nofun)
  · exact kept (call_between settled.1 nofun)
  · exact created_projectUniversStop settled.1
  · cases limit : atLimit options world.memory score with
    | true => exact created_atLimit settled.1 limit
    | false =>
        have idle := settled.2 (ended score rfl rfl limit)
        rw [call_project]
        unfold projectHandle onProjectSessionDestroy
        rw [idle]
        exact rfl
  · exact kept (call_between settled.1 lasts)

/-! Along a run. -/

omit [LE σ] [DecidableLE σ] in
theorem settled_indifferent : Univers.Indifferent (@Settled σ) where
  execute _ settled := ⟨settled.1.withDone false, settled.2⟩
  pop world box settled := ⟨wired_indifferent.pop world box settled.1, settled.2⟩

theorem settled_step {state : FusilUnivers σ} (settled : Settled state.world) :
    Settled (fusilStep options state choice).world := by
  refine settled_indifferent.step settled fun _ => ?_
  obtain ⟨world, turn⟩ := state
  cases turn with
  | reading index agent messages =>
      cases messages with
      | nil => exact settled_call settled agent none
      | cons message messages => exact settled_call settled agent (some message)
  | next index => exact settled
  | stopped => exact settled

theorem created_step {state : FusilUnivers σ} (settled : Settled state.world)
    (ended : ¬ CreatesAgain options state) :
    createdSessions (fusilStep options state choice).world.memory.journal =
      createdSessions state.world.memory.journal := by
  have indifferent : Univers.Indifferent fun world : FusilWorld σ =>
      createdSessions world.memory.journal = createdSessions state.world.memory.journal :=
    ⟨fun _ => id, fun _ _ => id⟩
  refine indifferent.step rfl fun called => ?_
  obtain ⟨world, turn⟩ := state
  cases turn with
  | reading index agent messages =>
      cases messages with
      | nil => exact created_call settled agent none nofun
      | cons message messages =>
          refine created_call settled agent (some message) ?_
          rintro score rfl ⟨⟩ limit
          have handles : hasHandler world project (.projectSessionDestroy score) = true := by
            by_contra ignored
            rw [Univers.caller] at called
            simp only [ignored, Bool.false_eq_true, if_false, Option.isSome_none] at called
          by_contra running
          exact ended ⟨score, ⟨index, messages, rfl, handles⟩, limit, running⟩
  | next index => exact rfl
  | stopped => exact rfl

theorem settled_along (settled : Settled start.world) (time : Nat) :
    Settled (Transition.along (fusilStep options) start choices time).world := by
  induction time with
  | zero => exact settled
  | succ time induction => exact settled_step induction

theorem stopped_along (stopped : (Transition.along (fusilStep options) start choices now).turn =
    .stopped) {later : Nat} (after : now ≤ later) :
    (Transition.along (fusilStep options) start choices later).turn = .stopped := by
  induction later, after using Nat.le_induction with
  | base => exact stopped
  | succ later after induction =>
      rw [Transition.along_succ]
      generalize Transition.along (fusilStep options) start choices later = state at induction ⊢
      obtain ⟨world, turn⟩ := state
      dsimp only at induction
      subst induction
      rfl

end

/-- The message that is about to be handled, and by whom. -/
def handling (state : FusilUnivers σ) : Option (AgentId × Message σ) :=
  match state.turn with
  | .reading _ agent (message :: _) =>
      if hasHandler state.world agent message then some (agent, message) else none
  | _ => none

theorem handling_of_handles {state : FusilUnivers σ} {agent : AgentId} {message : Message σ}
    (handles : Handles state agent message) : handling state = some (agent, message) := by
  obtain ⟨index, messages, turn, found⟩ := handles
  rw [handling, turn]
  simp only [found, if_true]

/-- The agents break the run off when they are deactivated. -/
def breaking : Choice Nat := { score := 0, deinit := fun _ => .interrupts }

end Segvault.Fusil
