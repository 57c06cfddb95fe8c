import Segvault.Fusil.Project

namespace Segvault.Fusil

variable {σ : Type}

/-! The application agents stay active, each with its own mailbox, and the univers and the
project stay registered for `univers_stop`. -/

structure Mas.Wired (mas : Mas Event (Message σ)) : Prop where
  lists : mas.Listed
  active : ∀ agent ∈ applicationAgents, mas.isActive agent = true
  present : ∀ agent, mas.agentCollected agent = false
  bound : ∀ agent box, mas.mailbox agent = some box → box < mas.mailboxes.length
  injective : ∀ agent other box, mas.mailbox agent = some box → mas.mailbox other = some box →
    agent = other
  stops : ∀ agent ∈ [univers, project], ∃ box events, mas.mailbox agent = some box ∧
    mas.kind box = some (agent, events, false) ∧ Event.universStop ∈ events ∧
    box ∈ mas.listed .universStop

structure FusilWorld.Wired (world : FusilWorld σ) : Prop where
  mas : world.mas.Wired
  agents : ∃ others, world.agents = applicationAgents ++ others ∧ ∀ agent ∈ others, project < agent
  nodup : world.agents.Nodup
  known : ∀ agent ∈ world.agents, agent < world.memory.nextAgent
  next : project < world.memory.nextAgent
  boxes : ∀ agent ∈ world.agents, (world.mas.mailbox agent).isSome = true
  session : ∀ session, world.memory.session = some session → project < session
  sessionAgents : ∀ session, ∀ agent ∈ world.memory.sessionAgents session, project < agent

namespace Mas

variable {mas : Mas Event (Message σ)}

theorem Wired.setMessages (wired : mas.Wired) (box : MailboxId) (messages : List (Message σ)) :
    (mas.setMessages box messages).Wired where
  lists := wired.lists
  active := wired.active
  present := wired.present
  bound agent other found := by
    rw [Mas.setMessages, List.length_modify]
    exact wired.bound agent other found
  injective := wired.injective
  stops agent member := by
    obtain ⟨own, events, found, kind, rest⟩ := wired.stops agent member
    exact ⟨own, events, found, (kind_of_same (owners_setMessages mas box messages) own).trans kind,
      rest⟩

theorem Wired.withQueue (wired : mas.Wired) (queue : List (Message σ)) :
    ({ mas with queue } : Mas Event (Message σ)).Wired :=
  ⟨wired.lists, wired.active, wired.present, wired.bound, wired.injective, wired.stops⟩

theorem Wired.setActive (wired : mas.Wired) {agent : AgentId} {isActive : Bool}
    (outside : isActive = true ∨ agent ∉ applicationAgents) :
    (mas.setActive agent isActive).Wired where
  lists := wired.lists
  active other member := by
    simp only [Mas.setActive, Function.update_apply]
    split
    · rename_i same
      subst same
      exact outside.resolve_right (not_not_intro member)
    · exact wired.active other member
  present := wired.present
  bound := wired.bound
  injective := wired.injective
  stops := wired.stops

theorem Wired.live (wired : mas.Wired) : (mas.live Message.event).Wired := by
  have delivered := delivered_foldl Message.event wired.lists mas.queue
  have same : (mas.live Message.event).owners = mas.owners := delivered.owners
  refine ⟨delivered.nodup, fun agent member => ?_, fun agent => ?_, fun agent box found => ?_,
    fun agent other box => ?_, fun agent member => ?_⟩
  · rw [isActive_of_same same]
    exact wired.active agent member
  · rw [agentCollected_of_same same]
    exact wired.present agent
  · rw [mailbox_of_same same] at found
    exact lt_of_lt_of_eq (wired.bound agent box found) (length_of_same same).symm
  · rw [mailbox_of_same same]
    exact wired.injective agent other box
  · obtain ⟨box, events, found, kind, named, listed⟩ := wired.stops agent member
    have accepts := accepts_of_kind kind (wired.present agent) (wired.active agent (by
      obtain rfl | rfl : agent = univers ∨ agent = project := by simpa using member
      · decide
      · decide))
    rw [mailbox_of_same same]
    refine ⟨box, events, found, (kind_of_same same box).trans kind, named, ?_⟩
    exact (delivered.listed box .universStop (mailboxAlive_of_accepts accepts)).mpr listed

theorem Wired.newMailbox (wired : mas.Wired) {agent : AgentId} (outside : project < agent)
    (events : List Event) : (mas.newMailbox agent events).Wired := by
  have opened := opened_newMailbox mas agent events
  refine ⟨opened.nodup wired.lists, fun other member => ?_, fun other => ?_,
    fun other box found => ?_, fun first second box => ?_, fun other member => ?_⟩
  · rw [opened.isActive]
    exact wired.active other member
  · rw [opened.agentCollected]
    exact wired.present other
  · rw [opened.mailbox, Function.update_apply] at found
    rw [opened.mailboxes, List.length_append, List.length_singleton]
    split at found
    · exact Option.some.inj found ▸ Nat.lt_succ_self _
    · exact Nat.lt_succ_of_lt (wired.bound other box found)
  · simp only [opened.mailbox, Function.update_apply]
    intro firstFound secondFound
    split at firstFound <;> split at secondFound
    · rename_i firstSame secondSame
      exact firstSame.trans secondSame.symm
    · exact absurd (wired.bound second box secondFound)
        (Option.some.inj firstFound ▸ Nat.lt_irrefl _)
    · exact absurd (wired.bound first box firstFound)
        (Option.some.inj secondFound ▸ Nat.lt_irrefl _)
    · exact wired.injective first second box firstFound secondFound
  · obtain ⟨box, names, found, kind, named, listed⟩ := wired.stops other member
    have differs : other ≠ agent := by
      obtain rfl | rfl : other = univers ∨ other = project := by simpa using member
      · exact Nat.ne_of_lt (Nat.lt_trans (by decide) outside)
      · exact Nat.ne_of_lt outside
    refine ⟨box, names, ?_, ?_, named, (opened.listed box .universStop).mpr (.inl listed)⟩
    · rw [opened.mailbox, Function.update_of_ne differs]
      exact found
    · rw [Mas.kind, opened.mailboxes, List.getElem?_append_left (wired.bound other box found)]
      exact kind

end Mas

/-- The messages with which the project ends a session. -/
def Message.ends : Message σ → Bool
  | .universStop | .projectSessionDestroy _ => true
  | _ => false

/-- The two messages with which the project ends a session are the calls of their own. -/
theorem call_kinds (agent : AgentId) (message : Option (Message σ)) :
    agent = mta ∨ agent = univers ∨ (agent = project ∧ message = some .universStop) ∨
      (∃ score, agent = project ∧ message = some (.projectSessionDestroy score)) ∨
      (agent ≠ mta ∧ agent ≠ univers ∧
        (agent = project → ∀ first ∈ message, first.ends = false)) := by
  by_cases isMta : agent = mta
  · exact .inl isMta
  by_cases isUnivers : agent = univers
  · exact .inr (.inl isUnivers)
  by_cases lasts : agent = project → ∀ first ∈ message, first.ends = false
  · exact .inr (.inr (.inr (.inr ⟨isMta, isUnivers, lasts⟩)))
  obtain ⟨isProject, first, rfl, ends⟩ :
      agent = project ∧ ∃ first ∈ message, ¬ first.ends = false := by
    simpa only [Classical.not_imp, not_forall, exists_prop] using lasts
  cases first with
  | universStop => exact .inr (.inr (.inl ⟨isProject, rfl⟩))
  | projectSessionDestroy score => exact .inr (.inr (.inr (.inl ⟨score, isProject, rfl⟩)))
  | _ => exact absurd rfl ends

namespace FusilWorld

variable {world : FusilWorld σ}

theorem le_of_mem {agent : AgentId} (member : agent ∈ applicationAgents) : agent ≤ project := by
  simp only [applicationAgents, List.mem_cons, List.not_mem_nil, or_false] at member
  obtain rfl | rfl | rfl | rfl := member <;> decide

theorem outside_of_lt {agent : AgentId} (later : project < agent) : agent ∉ applicationAgents :=
  fun member => Nat.not_lt_of_le (le_of_mem member) later

theorem Wired.remember (wired : world.Wired) {memory : Memory σ}
    (next : world.memory.nextAgent ≤ memory.nextAgent)
    (session : ∀ session, memory.session = some session → project < session)
    (sessionAgents : ∀ session, ∀ agent ∈ memory.sessionAgents session, project < agent) :
    (remember world memory).Wired :=
  ⟨wired.mas, wired.agents, wired.nodup,
    fun agent member => Nat.lt_of_lt_of_le (wired.known agent member) next,
    Nat.lt_of_lt_of_le wired.next next, wired.boxes, session, sessionAgents⟩

theorem Wired.log (wired : world.Wired) (entry : Entry σ) : (log world entry).Wired :=
  wired.remember (Nat.le_refl _) wired.session wired.sessionAgents

theorem Wired.withDone (wired : world.Wired) (isDone : Bool) :
    Wired ({ world with isDone } : FusilWorld σ) :=
  ⟨wired.mas, wired.agents, wired.nodup, wired.known, wired.next, wired.boxes, wired.session,
    wired.sessionAgents⟩

theorem Wired.withMas (wired : world.Wired) {mas : Mas Event (Message σ)} (masWired : mas.Wired)
    (same : mas.mailbox = world.mas.mailbox) :
    Wired ({ world with mas } : FusilWorld σ) := by
  refine ⟨masWired, wired.agents, wired.nodup, wired.known, wired.next, fun agent member => ?_,
    wired.session, wired.sessionAgents⟩
  rw [same]
  exact wired.boxes agent member

theorem Wired.setActive (wired : world.Wired) {agent : AgentId} {isActive : Bool}
    (outside : isActive = true ∨ agent ∉ applicationAgents) :
    Wired ({ world with mas := world.mas.setActive agent isActive } : FusilWorld σ) :=
  wired.withMas (wired.mas.setActive outside) rfl

/-- A new agent gets the next number, a mailbox, and the last place. -/
theorem Wired.withAgent (wired : world.Wired) {mas : Mas Event (Message σ)} (masWired : mas.Wired)
    {events : List Event}
    (opened : mas.mailbox = (world.mas.newMailbox world.memory.nextAgent events).mailbox)
    {memory : Memory σ} (next : memory.nextAgent = world.memory.nextAgent + 1)
    (session : memory.session = world.memory.session)
    (sessionAgents : ∀ session, ∀ agent ∈ memory.sessionAgents session, project < agent) :
    Wired ({ world with mas, agents := world.agents ++ [world.memory.nextAgent], memory } :
      FusilWorld σ) := by
  obtain ⟨others, agents, later⟩ := wired.agents
  have fresh : world.memory.nextAgent ∉ world.agents := fun member =>
    Nat.lt_irrefl _ (wired.known _ member)
  refine ⟨masWired, ⟨others ++ [world.memory.nextAgent], ?_, ?_⟩, ?_, fun agent member => ?_,
    next ▸ Nat.lt_succ_of_lt wired.next, fun agent member => ?_, session ▸ wired.session,
    sessionAgents⟩
  · rw [agents, List.append_assoc]
  · intro agent member
    rcases List.mem_append.mp member with old | new
    · exact later agent old
    · exact List.mem_singleton.mp new ▸ wired.next
  · refine List.nodup_append.mpr ⟨wired.nodup, List.nodup_singleton _, ?_⟩
    intro agent member other new same
    rw [same, List.mem_singleton.mp new] at member
    exact fresh member
  · rw [next]
    rcases List.mem_append.mp member with old | new
    · exact Nat.lt_succ_of_lt (wired.known agent old)
    · exact List.mem_singleton.mp new ▸ Nat.lt_succ_self _
  · rw [opened, (Mas.opened_newMailbox world.mas world.memory.nextAgent events).mailbox,
      Function.update_apply]
    split
    · rfl
    · rename_i differs
      refine wired.boxes agent ((List.mem_append.mp member).resolve_right fun new => ?_)
      exact differs (List.mem_singleton.mp new)

theorem Wired.newAgent (wired : world.Wired) (events : List Event) :
    Wired ({ world with
      mas := world.mas.newMailbox world.memory.nextAgent events
      agents := world.agents ++ [world.memory.nextAgent]
      memory := { world.memory with nextAgent := world.memory.nextAgent + 1 } } : FusilWorld σ) :=
  wired.withAgent (wired.mas.newMailbox wired.next events) rfl rfl rfl wired.sessionAgents

theorem Wired.erased (wired : world.Wired) {agent : AgentId} (later : project < agent) :
    Wired ({ world with agents := world.agents.erase agent } : FusilWorld σ) := by
  obtain ⟨others, agents, laterOthers⟩ := wired.agents
  refine ⟨wired.mas, ⟨others.erase agent, ?_, fun other member => ?_⟩, wired.nodup.erase agent,
    fun other member => ?_, wired.next, fun other member => ?_, wired.session,
    wired.sessionAgents⟩
  · rw [agents, List.erase_append_right _ (outside_of_lt later)]
  · exact laterOthers other (List.mem_of_mem_erase member)
  · exact wired.known other (List.mem_of_mem_erase member)
  · exact wired.boxes other (List.mem_of_mem_erase member)

theorem Wired.clearMail (wired : world.Wired) : (clearMail world).Wired := by
  have cleared : ∀ (agents : List AgentId) (mas : Mas Event (Message σ)), mas.Wired →
      (agents.foldl (fun mas agent => (mas.mailbox agent).elim mas mas.clearMailbox) mas).Wired ∧
        (agents.foldl (fun mas agent => (mas.mailbox agent).elim mas mas.clearMailbox)
          mas).mailbox = mas.mailbox := by
    intro agents
    induction agents with
    | nil => exact fun mas wired => ⟨wired, rfl⟩
    | cons agent agents induction =>
        intro mas wired
        rw [List.foldl_cons]
        cases mas.mailbox agent with
        | none => exact induction mas wired
        | some box => exact induction _ (wired.setMessages box [])
  obtain ⟨masWired, same⟩ := cleared applicationAgents world.mas wired.mas
  exact wired.withMas (masWired.withQueue []) same

/-! What agents do, one change at a time. -/

/-- A condition that does not depend on who is active, nor on the agents of the sessions. -/
structure Steady (holds : FusilWorld σ → Prop) : Prop where
  wired : ∀ {world}, holds world → world.Wired
  registered : ∀ {world} sessionAgents, holds world →
    (remember world { world.memory with sessionAgents }).Wired →
      holds (FusilWorld.remember world { world.memory with sessionAgents })
  setActive : ∀ {world} {agent} {isActive}, isActive = true ∨ agent ∉ applicationAgents →
    holds world → holds { world with mas := world.mas.setActive agent isActive }

/-- One that is kept as the agents of a session go. -/
structure Erasing (holds : FusilWorld σ → Prop) : Prop extends Steady holds where
  erased : ∀ {world} agent, project < agent → holds world →
    holds { world with agents := world.agents.erase agent }

/-- The session is gone, and the mail with it. -/
def withoutSession (session : AgentId) (world : FusilWorld σ) : FusilWorld σ :=
  clearMail (log (remember world { world.memory with session := none })
    (.destroyedSession session))

/-- One that is kept when a session is destroyed. -/
structure Destroying (holds : FusilWorld σ → Prop) : Prop extends Erasing holds where
  destroyed : ∀ {world} session, holds world → holds (withoutSession session world)

/-- One that the calls keep between two sessions. -/
structure Stable (holds : FusilWorld σ → Prop) : Prop extends Steady holds where
  remember : ∀ {world} {memory : Memory σ}, holds world → (remember world memory).Wired →
    memory.session = world.memory.session → memory.journal = world.memory.journal →
      holds (FusilWorld.remember world memory)
  sent : ∀ {world} sender message, holds world →
    holds (log { world with mas := world.mas.deliver message } (.sent sender message))
  clearMailbox : ∀ {world} box, holds world →
    holds { world with mas := world.mas.clearMailbox box }
  newAgent : ∀ {world} events, holds world → holds { world with
    mas := world.mas.newMailbox world.memory.nextAgent events
    agents := world.agents ++ [world.memory.nextAgent]
    memory := { world.memory with nextAgent := world.memory.nextAgent + 1 } }

/-- One that is kept when a session is created. -/
structure Creating (holds : FusilWorld σ → Prop) : Prop extends Stable holds where
  created : ∀ {world} session, project < session → holds world →
    holds (log (FusilWorld.remember world { world.memory with session := some session })
      (.createdSession session))

section

variable {holds : FusilWorld σ → Prop}

theorem Stable.send (stable : Stable holds) (held : holds world) (sender : AgentId)
    (message : Message σ) : (send sender message world).All holds := by
  unfold FusilWorld.send Mas.send
  split
  · exact held
  · rename_i mas sent
    split at sent
    · cases sent
      exact stable.sent sender message held
    · cases sent

theorem Stable.sendAll (stable : Stable holds) (held : holds world) (sender : AgentId)
    (messages : List (Message σ)) : (sendAll sender messages world).All holds := by
  induction messages generalizing world with
  | nil => exact held
  | cons message messages induction =>
      exact (stable.send held sender message).bind fun world held => induction held

theorem Stable.activate (stable : Stable holds) (held : holds world) (agent : AgentId) :
    (activate agent world).All holds := by
  unfold FusilWorld.activate
  cases activated : world.mas.activate agent with
  | none => exact held
  | some mas =>
      rw [Mas.activate] at activated
      split at activated
      · cases activated
      · obtain ⟨box, -, rfl⟩ := Option.map_eq_some_iff.mp activated
        exact stable.setActive (.inl rfl) (stable.clearMailbox box held)

theorem Steady.deactivate (steady : Steady holds) (held : holds world) {agent : AgentId}
    (outside : agent ∉ applicationAgents) :
    holds { world with mas := world.mas.deactivate agent } := by
  unfold Mas.deactivate
  split
  · exact steady.setActive (.inr outside) held
  · exact held

theorem Stable.newSessionAgent (stable : Stable holds) (held : holds world) (session : AgentId)
    (events : List Event) : (newSessionAgent session events world).All holds := by
  have later := (stable.wired held).next
  let opened : FusilWorld σ := { world with
    mas := (world.mas.newMailbox world.memory.nextAgent events).setActive world.memory.nextAgent
      false
    agents := world.agents ++ [world.memory.nextAgent]
    memory := { world.memory with nextAgent := world.memory.nextAgent + 1 } }
  have heldOpened : holds opened :=
    stable.setActive (.inr (outside_of_lt later)) (stable.newAgent events held)
  have wired := stable.wired heldOpened
  let memory : Memory σ := { opened.memory with
    sessionAgents := Function.update world.memory.sessionAgents session
      (world.memory.sessionAgents session ++ [world.memory.nextAgent]) }
  have registered : holds (FusilWorld.remember opened memory) := by
    refine stable.remember heldOpened ?_ rfl rfl
    refine wired.remember (Nat.le_refl _) wired.session fun other agent member => ?_
    simp only [memory, Function.update_apply] at member
    split at member
    · rcases List.mem_append.mp member with old | new
      · exact wired.sessionAgents session agent old
      · exact List.mem_singleton.mp new ▸ later
    · exact wired.sessionAgents other agent member
  exact stable.activate registered _

theorem Stable.act (stable : Stable holds) (held : holds world) {agent : AgentId}
    (outside : agent ∉ applicationAgents) (first : Act σ) : (act agent world first).All holds := by
  cases first with
  | send message => exact stable.send held agent message
  | activate => exact stable.activate held agent
  | deactivate => exact stable.deactivate held outside
  | newSessionAgent events =>
      unfold FusilWorld.act
      cases world.memory.session with
      | none => exact held
      | some session => exact stable.newSessionAgent held session events

theorem Stable.actAll (stable : Stable holds) (held : holds world) {agent : AgentId}
    (outside : agent ∉ applicationAgents) (acts : List (Act σ)) :
    (actAll agent acts world).All holds := by
  induction acts generalizing world with
  | nil => exact held
  | cons act acts induction =>
      exact (stable.act held outside act).bind fun world held => induction held

theorem all_outcome (held : holds world) (ending : Ending) : (ending.outcome world).All holds := by
  cases ending <;> exact held

theorem Stable.projectLive (stable : Stable holds) (held : holds world) (choice : Choice σ) :
    (projectLive choice world).All holds := by
  unfold FusilWorld.projectLive
  split
  · refine (stable.send held project _).bind fun world held => ?_
    have wired := stable.wired held
    exact stable.remember held (wired.remember (Nat.le_refl _) wired.session wired.sessionAgents)
      rfl rfl
  · exact held

section

variable [LE σ] [DecidableLE σ]

theorem Stable.onSessionStop (stable : Stable holds) (held : holds world) (options : Options σ)
    (choice : Choice σ) (session : AgentId) :
    (onSessionStop options choice session world).All holds := by
  unfold FusilWorld.onSessionStop
  split
  · exact held
  · have wired := stable.wired held
    have stopped : holds (FusilWorld.remember world { world.memory with
        stopped := Function.update world.memory.stopped session true }) :=
      stable.remember held (wired.remember (Nat.le_refl _) wired.session wired.sessionAgents) rfl
        rfl
    refine Outcome.All.bind (all_outcome stopped _) fun world held =>
      Outcome.All.bind ?_ fun world held => stable.send held session _
    split
    · exact stable.send held session _
    · exact held

theorem Stable.sessionLive (stable : Stable holds) (held : holds world) (options : Options σ)
    (choice : Choice σ) (session : AgentId) :
    (sessionLive options choice session world).All holds := by
  unfold FusilWorld.sessionLive
  split
  · exact held
  · refine (all_outcome held _).bind fun world held => ?_
    split
    · exact stable.send held session _
    · exact held

end

/-! The end of a session. -/

theorem Steady.deactivate' (steady : Steady holds) (held : holds world) (choice : Choice σ)
    {agent : AgentId} (outside : agent ∉ applicationAgents) :
    holds (FusilWorld.deactivate choice agent world).2 := by
  unfold FusilWorld.deactivate
  split
  · exact steady.deactivate held outside
  · exact held

theorem Erasing.destroyAgent (erasing : Erasing holds) (held : holds world) (choice : Choice σ)
    {agent : AgentId} (later : project < agent) :
    (destroyAgent choice agent world).All holds := by
  have inactive := erasing.deactivate' held choice (outside_of_lt later)
  unfold FusilWorld.destroyAgent
  generalize FusilWorld.deactivate choice agent world = ended at inactive
  obtain ⟨ending, world⟩ := ended
  cases ending with
  | returns | ptraceError => exact erasing.erased agent later inactive
  | raises | interrupts => exact inactive

theorem Erasing.clearAgents (erasing : Erasing holds) (held : holds world) (choice : Choice σ)
    (session : AgentId) {agents : List AgentId} (later : ∀ agent ∈ agents, project < agent) :
    (clearAgents choice session agents world).All holds := by
  induction agents generalizing world with
  | nil => exact held
  | cons agent agents induction =>
      obtain ⟨first, later⟩ := List.forall_mem_cons.mp later
      have wired := erasing.wired held
      have shorter : holds (FusilWorld.remember world { world.memory with
          sessionAgents :=
            Function.update world.memory.sessionAgents session agents.reverse }) := by
        refine erasing.registered _ held ?_
        refine wired.remember (Nat.le_refl _) wired.session fun other member found => ?_
        simp only [Function.update_apply] at found
        split at found
        · exact later member (List.mem_reverse.mp found)
        · exact wired.sessionAgents other member found
      exact (erasing.destroyAgent shorter choice first).bind fun world held => induction held later

theorem Erasing.deactivateSession (erasing : Erasing holds) (held : holds world)
    (choice : Choice σ) {session : AgentId} (later : project < session) :
    (deactivateSession choice session world).All holds := by
  unfold FusilWorld.deactivateSession
  split
  · refine erasing.clearAgents (erasing.deactivate held (outside_of_lt later)) choice session
      fun agent member => ?_
    exact (erasing.wired held).sessionAgents session agent (List.mem_reverse.mp member)
  · exact held

theorem Steady.deactivateAgents (steady : Steady holds) (held : holds world) (choice : Choice σ)
    (agents : List AgentId) : (deactivateAgents choice agents world).All holds := by
  induction agents generalizing world with
  | nil => exact held
  | cons agent agents induction =>
      unfold FusilWorld.deactivateAgents
      split
      · exact induction held
      · rename_i outside
        exact (all_outcome (steady.deactivate' held choice outside) _).bind
          fun world held => induction held

theorem Erasing.destroySession (erasing : Erasing holds) (held : holds world)
    (choice : Choice σ) :
    (destroySession choice world).Ends
      (fun after => ∃ session middle, holds middle ∧ after = withoutSession session middle)
      holds holds := by
  unfold FusilWorld.destroySession
  cases current : world.memory.session with
  | none => exact held
  | some session =>
      have later := (erasing.wired held).session session current
      refine Outcome.Ends.bind (erasing.deactivateSession held choice later) fun world held => ?_
      refine Outcome.Ends.bind (erasing.deactivateAgents held choice _) fun middle held => ?_
      exact ⟨session, middle, held, rfl⟩

theorem Destroying.destroySession (destroying : Destroying holds) (held : holds world)
    (choice : Choice σ) : (destroySession choice world).All holds := by
  refine (destroying.toErasing.destroySession held choice).imp ?_ (fun _ => id) fun _ => id
  rintro after ⟨session, middle, held, rfl⟩
  exact destroying.destroyed session held

/-! The next session. -/

theorem Stable.initSession (stable : Stable holds) (held : holds world) (choice : Choice σ)
    (session : AgentId) : (initSession choice session world).All holds := by
  refine (stable.newSessionAgent held session _).bind fun world held => ?_
  refine (all_outcome held choice.directory).bind fun world held => ?_
  have wired := stable.wired held
  exact stable.remember held (wired.remember (Nat.le_refl _) wired.session wired.sessionAgents)
    rfl rfl

theorem Creating.newSession (creating : Creating holds) (held : holds world)
    (choice : Choice σ) : (newSession choice world).All holds := by
  have wired := creating.wired held
  have listed : holds (FusilWorld.remember world { world.memory with
      sessions := world.memory.sessions ++ [world.memory.nextAgent] }) :=
    creating.remember held (wired.remember (Nat.le_refl _) wired.session wired.sessionAgents) rfl
      rfl
  refine (creating.newSessionAgent listed _ _).bind fun world held => ?_
  refine (creating.initSession held choice _).bind fun world held => ?_
  exact creating.created _ wired.next held

theorem Stable.initAgent (stable : Stable holds) (held : holds world) (choice : Choice σ)
    (agent : AgentId) : (initAgent choice agent world).All holds := by
  unfold FusilWorld.initAgent
  split
  · exact stable.initSession held choice agent
  · exact (stable.sendAll held agent _).bind fun world held => all_outcome held _

theorem Stable.activateAgents (stable : Stable holds) (held : holds world) (choice : Choice σ)
    (agents : List AgentId) : (activateAgents choice agents world).All holds := by
  induction agents generalizing world with
  | nil => exact held
  | cons agent agents induction =>
      refine Outcome.All.bind ?_ fun world held => induction held
      split
      · exact held
      · exact (stable.activate held agent).bind fun world held =>
          stable.initAgent held choice agent

theorem Creating.createSession (creating : Creating holds) (held : holds world)
    (options : Options σ) (choice : Choice σ) :
    (createSession options choice world).All holds := by
  refine (all_outcome held choice.calm).bind fun world held => ?_
  have wired := creating.wired held
  have opening : holds (FusilWorld.remember world { world.memory with
      sessionIndex := world.memory.sessionIndex + 1
      useTimeout := options.sessionTimeout }) :=
    creating.remember held (wired.remember (Nat.le_refl _) wired.session wired.sessionAgents) rfl
      rfl
  refine (creating.activateAgents opening choice _).bind fun world held => ?_
  refine (creating.newSession held choice).bind fun world held => ?_
  refine Outcome.All.bind ?_ fun world held => creating.send held project _
  split
  · exact creating.send held project _
  · exact held

variable [LE σ] [DecidableLE σ]

theorem Stable.countSuccess (stable : Stable holds) (held : holds world) (options : Options σ)
    (score : σ) : holds (countSuccess options score world) := by
  unfold FusilWorld.countSuccess
  split
  · have wired := stable.wired held
    exact stable.remember held (wired.remember (Nat.le_refl _) wired.session wired.sessionAgents)
      rfl rfl
  · exact held

theorem Creating.nextSession (creating : Creating holds) (held : holds world)
    (options : Options σ) (choice : Choice σ) (score : σ) :
    (nextSession options choice score world).All holds := by
  unfold FusilWorld.nextSession
  split
  · exact creating.send held project _
  · split
    · exact creating.send held project _
    · exact creating.createSession held options choice

omit [LE σ] [DecidableLE σ] in
theorem Destroying.onProjectUniversStop (destroying : Destroying holds)
    (stopped : ∀ {world}, holds world → holds (log world .projectStopped)) (held : holds world)
    (choice : Choice σ) : (onProjectUniversStop choice world).All holds := by
  refine Outcome.All.bind ?_ fun world held => stopped held
  split
  · exact destroying.destroySession held choice
  · exact held

theorem Destroying.onProjectSessionDestroy (destroying : Destroying holds)
    (creating : Creating holds) (held : holds world) (options : Options σ) (choice : Choice σ)
    (score : σ) : (onProjectSessionDestroy options choice score world).All holds := by
  unfold FusilWorld.onProjectSessionDestroy
  cases world.memory.session with
  | none => exact held
  | some session =>
      exact (destroying.destroySession held choice).bind fun world held =>
        creating.nextSession (creating.countSuccess held options score) options choice score

theorem Stable.call (stable : Stable holds) (held : holds world) (options : Options σ)
    (choice : Choice σ) {agent : AgentId} (notMta : agent ≠ mta) (notUnivers : agent ≠ univers)
    {message : Option (Message σ)}
    (lasts : agent = project → ∀ first ∈ message, first.ends = false) :
    (call options choice agent message world).All holds := by
  unfold FusilWorld.call
  rw [if_neg notMta, if_neg notUnivers]
  split
  · split
    · exact stable.send held application _
    · exact held
  split
  · rename_i isProject
    cases message with
    | none => exact stable.projectLive held choice
    | some message =>
        have quiet := lasts isProject message rfl
        cases message with
        | sessionDone score => exact stable.send held project _
        | projectStop => exact stable.send held project _
        | universStop | projectSessionDestroy score => cases quiet
        | _ => exact held
  split
  · split
    · exact stable.onSessionStop held options choice agent
    · exact stable.sessionLive held options choice agent
  · rename_i notApplication notProject notSession
    have outside : agent ∉ applicationAgents := by
      simp [applicationAgents, notMta, notUnivers, notApplication, notProject]
    exact (stable.actAll held outside choice.acts).bind fun world held => all_outcome held _

/-- Any call but those of the transfer agent and of the univers. -/
theorem Destroying.call (destroying : Destroying holds) (creating : Creating holds)
    (stopped : ∀ {world}, holds world → holds (log world .projectStopped)) (held : holds world)
    (options : Options σ) (choice : Choice σ) {agent : AgentId} (notMta : agent ≠ mta)
    (notUnivers : agent ≠ univers) (message : Option (Message σ)) :
    (call options choice agent message world).All holds := by
  by_cases lasts : agent = project → ∀ first ∈ message, first.ends = false
  · exact creating.toStable.call held options choice notMta notUnivers lasts
  · obtain ⟨rfl, first, rfl, ends⟩ : agent = project ∧ ∃ first ∈ message, ¬ first.ends = false := by
      simpa only [Classical.not_imp, not_forall, exists_prop] using lasts
    cases first with
    | universStop => exact destroying.onProjectUniversStop stopped held choice
    | projectSessionDestroy score =>
        exact destroying.onProjectSessionDestroy creating held options choice score
    | _ => exact absurd rfl ends

end

/-! The wiring itself. -/

theorem wired_steady : Steady (@Wired σ) where
  wired := id
  registered _ _ wired := wired
  setActive outside wired := wired.setActive outside

theorem wired_creating : Creating (@Wired σ) where
  toSteady := wired_steady
  remember _ wired _ _ := wired
  sent {world} sender message wired := by
    have delivered : Wired ({ world with mas := world.mas.deliver message } : FusilWorld σ) :=
      wired.withMas (wired.mas.withQueue _) rfl
    exact delivered.log _
  clearMailbox box wired := wired.withMas (wired.mas.setMessages box []) rfl
  newAgent events wired := wired.newAgent events
  created {world} session later wired := by
    have opened : (FusilWorld.remember world { world.memory with
        session := some session }).Wired := by
      refine wired.remember (Nat.le_refl _) (fun other found => ?_) wired.sessionAgents
      cases found
      exact later
    exact opened.log _

theorem wired_destroying : Destroying (@Wired σ) where
  toSteady := wired_steady
  erased agent later wired := wired.erased later
  destroyed {world} session wired := by
    have ended : (FusilWorld.remember world { world.memory with session := none }).Wired := by
      refine wired.remember (Nat.le_refl _) (fun other found => ?_) wired.sessionAgents
      cases found
    exact (ended.log _).clearMail

theorem Wired.call (wired : world.Wired) (options : Options σ) [LE σ] [DecidableLE σ]
    (choice : Choice σ) (agent : AgentId) (message : Option (Message σ)) :
    (call options choice agent message world).All Wired := by
  by_cases isMta : agent = mta
  · unfold FusilWorld.call
    rw [if_pos isMta]
    exact wired.withMas wired.mas.live
      (Mas.mailbox_of_same
        (Mas.delivered_foldl Message.event wired.mas.lists world.mas.queue).owners)
  by_cases isUnivers : agent = univers
  · unfold FusilWorld.call
    rw [if_neg isMta, if_pos isUnivers]
    split
    · exact wired.withDone true
    · exact wired
  · exact wired_destroying.call wired_creating (fun wired => wired.log _) wired options choice isMta
      isUnivers message

end FusilWorld

/-! The application as it is set up, but for the activation of the project. -/

theorem mailbox_createMas (agent : AgentId) :
    (createMas : Mas Event (Message σ)).mailbox agent =
      if agent = project then some 3 else if agent = application then some 2
        else if agent = univers then some 1 else if agent = mta then some 0 else none := by
  simp [createMas, setUpAgent, Mas.newMailbox, Mas.setActive, Mas.registerMailingList,
    Function.update_apply]

theorem listed_setUpAgent {mas : Mas Event (Message σ)} (lists : mas.Listed) (agent : AgentId)
    (events : List Event) (isActive : Bool) : (setUpAgent mas agent events isActive).Listed :=
  (Mas.opened_newMailbox mas agent events).nodup lists

theorem listed_start : ({} : Mas Event (Message σ)).Listed := fun _ => List.nodup_nil

theorem wired_createMas : ((createMas : Mas Event (Message σ)).setActive project true).Wired where
  lists := by
    have lists : (createMas : Mas Event (Message σ)).Listed :=
      listed_setUpAgent (listed_setUpAgent (listed_setUpAgent (listed_setUpAgent
        listed_start _ _ _) _ _ _) _ _ _) _ _ _
    exact lists
  active agent member := by
    simp only [applicationAgents, List.mem_cons, List.not_mem_nil, or_false] at member
    obtain rfl | rfl | rfl | rfl := member <;> rfl
  present _ := rfl
  bound agent box found := by
    have place := (mailbox_createMas agent).symm.trans found
    show box < 4
    split_ifs at place <;> cases place <;> decide
  injective agent other box found otherFound := by
    have place := (mailbox_createMas agent).symm.trans found
    have otherPlace := (mailbox_createMas other).symm.trans otherFound
    split_ifs at place <;> cases place <;> split_ifs at otherPlace <;> simp_all
  stops agent member := by
    have listed : (createMas : Mas Event (Message σ)).listed .universStop = [1, 3] := rfl
    obtain rfl | rfl : agent = univers ∨ agent = project := by simpa using member
    · exact ⟨1, [.universStop], rfl, rfl, List.mem_singleton_self _,
        listed ▸ (by decide : 1 ∈ [1, 3])⟩
    · exact ⟨3, _, rfl, rfl, by simp, listed ▸ (by decide : 3 ∈ [1, 3])⟩

/-- The world once the project is active. -/
def activeProject (world : FusilWorld σ) : FusilWorld σ :=
  { world with mas := world.mas.setActive project true }

theorem wired_setUpOther {world : FusilWorld σ} (wired : (activeProject world).Wired)
    (other : List Event × Bool) : (activeProject (setUpOther world other)).Wired := by
  have later : project < world.memory.nextAgent := wired.next
  have same : (setUpOther world other).mas.setActive project true =
      ((world.mas.setActive project true).newMailbox world.memory.nextAgent other.1).setActive
        world.memory.nextAgent other.2 := by
    rw [Mas.newMailbox_setActive]
    simp only [setUpOther, setUpAgent, Mas.setActive]
    rw [Function.update_comm (Nat.ne_of_lt later)]
  have masWired : (((world.mas.setActive project true).newMailbox world.memory.nextAgent
      other.1).setActive world.memory.nextAgent other.2).Wired :=
    (wired.mas.newMailbox later other.1).setActive (.inr (FusilWorld.outside_of_lt later))
  rw [activeProject, same]
  exact wired.withAgent masWired rfl rfl rfl wired.sessionAgents

theorem wired_setUp (others : List (List Event × Bool)) :
    (activeProject (setUp others : FusilWorld σ)).Wired := by
  have added : ∀ world : FusilWorld σ, (activeProject world).Wired →
      (activeProject (others.foldl setUpOther world)).Wired := by
    induction others with
    | nil => exact fun _ wired => wired
    | cons other others induction =>
        exact fun world wired => induction _ (wired_setUpOther wired other)
  have nodup : applicationAgents.Nodup := by decide
  refine added _ ⟨wired_createMas, ⟨[], rfl, by simp⟩, nodup, fun agent member => ?_,
    Nat.lt_succ_self _, fun agent member => ?_, (fun session found => nomatch found),
    (fun session agent member => nomatch member)⟩
  · exact Nat.lt_succ_of_le (FusilWorld.le_of_mem member)
  · refine (congrArg Option.isSome (mailbox_createMas agent)).trans ?_
    have known : agent ∈ applicationAgents := member
    simp only [applicationAgents, List.mem_cons, List.not_mem_nil, or_false] at known
    obtain rfl | rfl | rfl | rfl := known <;> rfl

variable [LE σ] [DecidableLE σ]

omit [LE σ] [DecidableLE σ] in
theorem wired_activateProject (options : Options σ) (choice : Choice σ)
    {others : List (List Event × Bool)} {world : FusilWorld σ}
    (started : activateProject options choice (setUp others) = .returned world) :
    world.Wired := by
  have wired := wired_setUp (σ := σ) others
  generalize setUp others = before at started wired
  rw [activateProject, FusilWorld.activate, Mas.activate] at started
  split at started
  · cases started
  · rename_i mas activated
    split at activated
    · cases activated
    · obtain ⟨box, -, rfl⟩ := Option.map_eq_some_iff.mp activated
      have cleared : FusilWorld.Wired ({ before with
          mas := (before.mas.setActive project true).clearMailbox box } : FusilWorld σ) :=
        wired.withMas (wired.mas.setMessages box []) rfl
      exact (FusilWorld.wired_creating.createSession cleared options choice).of_returned started

/-! Along a run, whatever the code outside decides. -/

theorem wired_reaction {state : FusilUnivers σ} (wired : FusilWorld.Wired state.world)
    (options : Options σ) (choice : Choice σ) :
    (reaction options choice state state.world).All FusilWorld.Wired := by
  obtain ⟨world, turn⟩ := state
  cases turn with
  | reading index agent messages =>
      cases messages with
      | nil => exact wired.call options choice agent none
      | cons message messages => exact wired.call options choice agent (some message)
  | next index => exact wired
  | stopped => exact wired

omit [LE σ] [DecidableLE σ] in
theorem wired_indifferent : Univers.Indifferent (@FusilWorld.Wired σ) where
  execute _ wired := wired.withDone false
  pop _ box wired := wired.withMas (wired.mas.setMessages box []) rfl

theorem wired_step {state : FusilUnivers σ} (wired : FusilWorld.Wired state.world)
    (options : Options σ) (choice : Choice σ) :
    FusilWorld.Wired (fusilStep options state choice).world :=
  wired_indifferent.step wired fun _ => wired_reaction wired options choice

theorem wired_along {world : FusilWorld σ} (wired : world.Wired) (options : Options σ)
    (choices : Nat → Choice σ) (time : Nat) :
    FusilWorld.Wired
      (Transition.along (fusilStep options) (Univers.execute world) choices time).world := by
  induction time with
  | zero => exact wired_indifferent.execute world wired
  | succ time induction => exact wired_step induction options (choices time)

end Segvault.Fusil
