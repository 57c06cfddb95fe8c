import Mathlib.Data.List.DropRight
import Segvault.Fusil.Wiring

namespace Segvault.Fusil

variable {σ : Type}

/-! What the journal of a run says of the sessions. -/

/-- The session after an entry, if sessions are created and destroyed one at a time. -/
def openSession (current : Option AgentId) : Entry σ → Option (Option AgentId)
  | .createdSession session => if current = none then some (some session) else none
  | .destroyedSession session => if current = some session then some none else none
  | .sent _ _ | .projectStopped => some current

def replaySessions (journal : List (Entry σ)) : Option (Option AgentId) :=
  journal.foldlM openSession none

def Entry.created : Entry σ → Option AgentId
  | .createdSession session => some session
  | .destroyedSession _ | .sent _ _ | .projectStopped => none

def createdSessions (journal : List (Entry σ)) : List AgentId := journal.filterMap Entry.created

def Entry.isDone (session : AgentId) : Entry σ → Bool
  | .sent sender (.sessionDone _) => sender == session
  | _ => false

def sessionDones (session : AgentId) (journal : List (Entry σ)) : Nat :=
  journal.countP (Entry.isDone session)

def Entry.isStop : Entry σ → Bool
  | .projectStopped => true
  | .createdSession _ | .destroyedSession _ | .sent _ _ => false

/-- The journal from the first time the project has handled `univers_stop`. -/
def afterStop (journal : List (Entry σ)) : List (Entry σ) :=
  journal.dropWhile fun entry => !entry.isStop

/-- Sessions come one at a time, each is new and destroyed before the next, sends its score once
at most, stays within the limits, and none comes after the stop. -/
structure Lifecycle (options : Options σ) (memory : Memory σ) : Prop where
  replays : replaySessions memory.journal = some memory.session
  distinct : (createdSessions memory.journal).Nodup
  index : memory.sessionIndex = (createdSessions memory.journal).length
  maxSession : 0 < options.maxSession → (memory.sessionIndex : Int) ≤ options.maxSession
  maxSuccess : 0 < options.maxSuccess → (memory.nbSuccess : Int) ≤ options.maxSuccess
  dones : ∀ session ∈ createdSessions memory.journal, sessionDones session memory.journal ≤ 1
  stopped : createdSessions (afterStop memory.journal) = []

/-- `reader` is the agent whose call it is. -/
structure Life (options : Options σ) (reader : AgentId) (memory : Memory σ) : Prop where
  replays : replaySessions memory.journal = some memory.session
  distinct : (createdSessions memory.journal).Nodup
  index : memory.sessionIndex = (createdSessions memory.journal).length
  maxSession : 0 < options.maxSession → (memory.sessionIndex : Int) ≤ options.maxSession
  maxSuccess : 0 < options.maxSuccess → (memory.nbSuccess : Int) ≤ options.maxSuccess
  busy : memory.session.isSome = true → 0 < options.maxSuccess →
    (memory.nbSuccess : Int) < options.maxSuccess
  created : ∀ session ∈ createdSessions memory.journal, session ∈ memory.sessions
  known : ∀ session ∈ memory.sessions, session < memory.nextAgent
  reader : reader < memory.nextAgent
  dones : ∀ session ∈ memory.sessions,
    sessionDones session memory.journal ≤ if memory.stopped session then 1 else 0
  fresh : ∀ session, memory.nextAgent ≤ session → sessionDones session memory.journal = 0
  halted : .projectStopped ∈ memory.journal → memory.session = none
  stopped : createdSessions (afterStop memory.journal) = []

theorem Life.lifecycle {options : Options σ} {reader : AgentId} {memory : Memory σ}
    (life : Life options reader memory) : Lifecycle options memory where
  replays := life.replays
  distinct := life.distinct
  index := life.index
  maxSession := life.maxSession
  maxSuccess := life.maxSuccess
  dones session member := by
    refine Nat.le_trans (life.dones session (life.created session member)) ?_
    split <;> decide
  stopped := life.stopped

/-! Entries that say nothing of the sessions. -/

def Harmless (memory : Memory σ) (entry : Entry σ) : Prop :=
  ∃ sender message, entry = .sent sender message ∧
    ((∀ score, message ≠ .sessionDone score) ∨
      sender ∉ memory.sessions ∧ sender < memory.nextAgent)

theorem createdSessions_append (journal entries : List (Entry σ)) :
    createdSessions (journal ++ entries) = createdSessions journal ++ createdSessions entries :=
  List.filterMap_append

theorem replaySessions_append (journal entries : List (Entry σ)) :
    replaySessions (journal ++ entries) = (replaySessions journal).bind fun current =>
      entries.foldlM openSession current :=
  List.foldlM_append

theorem sessionDones_append (session : AgentId) (journal entries : List (Entry σ)) :
    sessionDones session (journal ++ entries) =
      sessionDones session journal + sessionDones session entries :=
  List.countP_append

theorem createdSessions_afterStop {entries : List (Entry σ)}
    (none : createdSessions entries = []) : createdSessions (afterStop entries) = [] := by
  have quiet := List.filterMap_eq_nil_iff.mp none
  exact List.filterMap_eq_nil_iff.mpr fun entry member =>
    quiet entry ((List.dropWhile_sublist _).subset member)

theorem afterStop_eq_nil {journal : List (Entry σ)} (running : .projectStopped ∉ journal) :
    afterStop journal = [] := by
  refine List.dropWhile_eq_nil_iff.mpr fun entry member => ?_
  cases entry with
  | projectStopped => exact absurd member running
  | _ => rfl

theorem stopped_append {journal entries : List (Entry σ)}
    (before : createdSessions (afterStop journal) = [])
    (after : createdSessions entries = []) :
    createdSessions (afterStop (journal ++ entries)) = [] := by
  rw [afterStop, List.dropWhile_append]
  split
  · exact createdSessions_afterStop after
  · rw [createdSessions_append, after, List.append_nil]
    exact before

variable {memory : Memory σ} {entries : List (Entry σ)}

theorem createdSessions_harmless (harmless : ∀ entry ∈ entries, Harmless memory entry) :
    createdSessions entries = [] := by
  refine List.filterMap_eq_nil_iff.mpr fun entry member => ?_
  obtain ⟨sender, message, rfl, -⟩ := harmless entry member
  rfl

theorem foldlM_harmless (harmless : ∀ entry ∈ entries, Harmless memory entry)
    (current : Option AgentId) : entries.foldlM openSession current = some current := by
  induction entries with
  | nil => rfl
  | cons entry entries induction =>
      obtain ⟨⟨sender, message, rfl, -⟩, rest⟩ := List.forall_mem_cons.mp harmless
      exact induction rest

theorem sessionDones_harmless (harmless : ∀ entry ∈ entries, Harmless memory entry)
    {session : AgentId} (counted : session ∈ memory.sessions ∨ memory.nextAgent ≤ session) :
    sessionDones session entries = 0 := by
  refine List.countP_eq_zero.mpr fun entry member => ?_
  obtain ⟨sender, message, rfl, quiet⟩ := harmless entry member
  cases message with
  | sessionDone score =>
      obtain ⟨outside, known⟩ := quiet.resolve_left fun never => never score rfl
      have differs : sender ≠ session := by
        rintro rfl
        exact counted.elim outside (Nat.not_le_of_lt known)
      simpa [Entry.isDone] using differs
  | _ => exact Bool.false_ne_true

theorem not_stopped_harmless (harmless : ∀ entry ∈ entries, Harmless memory entry) :
    Entry.projectStopped ∉ entries := by
  intro member
  obtain ⟨sender, message, same, -⟩ := harmless _ member
  cases same

/-- Entries that create no session. -/
theorem Life.appended {options : Options σ} {reader : AgentId} (life : Life options reader memory)
    {session : Option AgentId} (sessionAgents : AgentId → List AgentId)
    (noneCreated : createdSessions entries = [])
    (replays : entries.foldlM openSession memory.session = some session)
    (busy : session.isSome = true → memory.session.isSome = true)
    (dones : ∀ other ∈ memory.sessions, sessionDones other memory.journal +
      sessionDones other entries ≤ if memory.stopped other then 1 else 0)
    (fresh : ∀ other, memory.nextAgent ≤ other → sessionDones other entries = 0)
    (halted : .projectStopped ∈ memory.journal ++ entries → session = none) :
    Life options reader { memory with
      session, sessionAgents, journal := memory.journal ++ entries } where
  replays := by
    rw [replaySessions_append, life.replays]
    exact replays
  distinct := by
    rw [createdSessions_append, noneCreated, List.append_nil]
    exact life.distinct
  index := by
    rw [createdSessions_append, noneCreated, List.append_nil]
    exact life.index
  maxSession := life.maxSession
  maxSuccess := life.maxSuccess
  busy present := life.busy (busy present)
  created := by
    rw [createdSessions_append, noneCreated, List.append_nil]
    exact life.created
  known := life.known
  reader := life.reader
  dones other member := by
    rw [sessionDones_append]
    exact dones other member
  fresh other later := by
    rw [sessionDones_append, life.fresh other later, fresh other later]
  halted := halted
  stopped := stopped_append life.stopped noneCreated

theorem Life.grows {options : Options σ} {reader : AgentId} (life : Life options reader memory)
    (harmless : ∀ entry ∈ entries, Harmless memory entry) :
    Life options reader { memory with journal := memory.journal ++ entries } := by
  refine life.appended memory.sessionAgents (createdSessions_harmless harmless)
    (foldlM_harmless harmless _) id (fun other member => ?_) (fun other later => ?_)
    fun member => ?_
  · rw [sessionDones_harmless harmless (.inl member)]
    exact life.dones other member
  · exact sessionDones_harmless harmless (.inr later)
  · exact life.halted ((List.mem_append.mp member).resolve_right (not_stopped_harmless harmless))

/-- Nothing the invariant speaks of has changed, but that agents may have been numbered. -/
theorem Life.same {options : Options σ} {reader : AgentId} (life : Life options reader memory)
    {nextAgent : AgentId} (next : memory.nextAgent ≤ nextAgent)
    (sessionAgents : AgentId → List AgentId) (useTimeout : Bool) :
    Life options reader { memory with nextAgent, sessionAgents, useTimeout } :=
  ⟨life.replays, life.distinct, life.index, life.maxSession, life.maxSuccess, life.busy,
    life.created, fun session member => Nat.lt_of_lt_of_le (life.known session member) next,
    Nat.lt_of_lt_of_le life.reader next, life.dones,
    fun session later => life.fresh session (Nat.le_trans next later), life.halted,
    life.stopped⟩

/-! The sessions among the agents: only the current one, which is active. -/

structure Sound (options : Options σ) (reader : AgentId) (world : FusilWorld σ) : Prop where
  wired : world.Wired
  life : Life options reader world.memory
  tidy : ∀ session ∈ world.memory.sessions, session ∈ world.agents →
    world.memory.session = some session ∧ world.mas.isActive session = true
  own : ∀ session, world.memory.session = some session →
    session ∈ world.memory.sessions ∧ session ∈ world.memory.sessionAgents session

variable {options : Options σ} {reader : AgentId} {world : FusilWorld σ}

namespace FusilWorld

/-- What a call leaves if it meets no condition: an interruption ends the run. -/
abbrev Sounds (options : Options σ) (reader : AgentId) (outcome : Outcome (FusilWorld σ)) : Prop :=
  outcome.Ends (Sound options reader) (Sound options reader)
    fun world => Life options reader world.memory

theorem send_eq {sender : AgentId} (active : world.mas.isActive sender = true)
    (message : Message σ) :
    send sender message world =
      .returned (log { world with mas := world.mas.deliver message } (.sent sender message)) := by
  simp only [send, Mas.send, active, if_true]

theorem send_inactive {sender : AgentId} (inactive : ¬ world.mas.isActive sender = true)
    (message : Message σ) : send sender message world = .raised world := by
  simp only [send, Mas.send, inactive, Bool.false_eq_true, if_false]

end FusilWorld

open FusilWorld

theorem Sound.sent (sound : Sound options reader world) {sender : AgentId} {message : Message σ}
    (harmless : Harmless world.memory (.sent sender message)) :
    Sound options reader
      (log { world with mas := world.mas.deliver message } (.sent sender message)) where
  wired := by
    have sent : Wired ({ world with mas := world.mas.deliver message } : FusilWorld σ) :=
      sound.wired.withMas (sound.wired.mas.withQueue _) rfl
    exact sent.log _
  life := sound.life.grows (fun entry member => List.mem_singleton.mp member ▸ harmless)
  tidy := sound.tidy
  own := sound.own

theorem Sound.send (sound : Sound options reader world) {sender : AgentId} {message : Message σ}
    (harmless : Harmless world.memory (.sent sender message)) :
    Sounds options reader (send sender message world) := by
  by_cases active : world.mas.isActive sender = true
  · rw [send_eq active]
    exact sound.sent harmless
  · rw [send_inactive active]
    exact sound

/-! Other agents. -/

/-- A new agent of a session is active; its mailbox is new. -/
theorem newSessionAgent_spec (session : AgentId) (events : List Event) (world : FusilWorld σ) :
    ∃ mas, newSessionAgent session events world = .returned { world with
        mas
        agents := world.agents ++ [world.memory.nextAgent]
        memory := { world.memory with
          nextAgent := world.memory.nextAgent + 1
          sessionAgents := Function.update world.memory.sessionAgents session
            (world.memory.sessionAgents session ++ [world.memory.nextAgent]) } } ∧
      mas.isActive = Function.update world.mas.isActive world.memory.nextAgent true := by
  have opened := Mas.opened_newMailbox world.mas world.memory.nextAgent events
  have inactive : ((world.mas.newMailbox world.memory.nextAgent events).setActive
      world.memory.nextAgent false).isActive world.memory.nextAgent = false :=
    Function.update_self ..
  have mailbox : ((world.mas.newMailbox world.memory.nextAgent events).setActive
      world.memory.nextAgent false).mailbox world.memory.nextAgent =
        some world.mas.mailboxes.length :=
    (congrFun opened.mailbox _).trans (Function.update_self ..)
  refine ⟨(((world.mas.newMailbox world.memory.nextAgent events).setActive
    world.memory.nextAgent false).clearMailbox world.mas.mailboxes.length).setActive
      world.memory.nextAgent true, ?_, ?_⟩
  · simp only [newSessionAgent, activate, Mas.activate, inactive, mailbox, Bool.false_eq_true,
      if_false, Option.map_some]
  · simp only [Mas.setActive, Mas.clearMailbox, Mas.setMessages, Function.update_idem,
      opened.isActive]

theorem Sound.newSessionAgent (sound : Sound options reader world) (session : AgentId)
    (events : List Event) :
    Sounds options reader (newSessionAgent session events world) := by
  have wired := wired_creating.newSessionAgent sound.wired session events
  obtain ⟨mas, returned, active⟩ := newSessionAgent_spec session events world
  rw [returned] at wired ⊢
  refine ⟨wired, sound.life.same (Nat.le_succ _) _ _, fun other member placed => ?_,
    fun other current => ?_⟩
  · have old : other ≠ world.memory.nextAgent := Nat.ne_of_lt (sound.life.known other member)
    obtain ⟨current, still⟩ := sound.tidy other member
      ((List.mem_append.mp placed).resolve_right fun new => old (List.mem_singleton.mp new))
    refine ⟨current, ?_⟩
    rw [active, Function.update_of_ne old]
    exact still
  · obtain ⟨member, inside⟩ := sound.own other current
    refine ⟨member, ?_⟩
    simp only [Function.update_apply]
    split
    · rename_i same
      exact List.mem_append_left _ (same ▸ inside)
    · exact inside

/-- Another agent may wake or stop only itself. -/
theorem Sound.withActive (sound : Sound options reader world)
    {mas : Mas Event (Message σ)} (wired : Wired ({ world with mas } : FusilWorld σ))
    (outside : reader ∉ world.memory.sessions)
    (others : ∀ other, other ≠ reader → mas.isActive other = world.mas.isActive other) :
    Sound options reader ({ world with mas } : FusilWorld σ) where
  wired := wired
  life := sound.life
  tidy session member placed := by
    obtain ⟨current, still⟩ := sound.tidy session member placed
    refine ⟨current, (others session ?_).trans still⟩
    rintro rfl
    exact outside member
  own := sound.own

/-- The calls of another agent leave it so. -/
abbrev Foreign (options : Options σ) (reader : AgentId) (outcome : Outcome (FusilWorld σ)) : Prop :=
  outcome.Ends (fun world => Sound options reader world ∧ reader ∉ world.memory.sessions)
    (Sound options reader) fun world => Life options reader world.memory

theorem Sound.act (sound : Sound options reader world) (notCore : reader ∉ applicationAgents)
    (outside : reader ∉ world.memory.sessions) (first : Act σ) :
    Foreign options reader (act reader world first) := by
  cases first with
  | send message =>
      show Foreign options reader (FusilWorld.send reader message world)
      by_cases active : world.mas.isActive reader = true
      · rw [send_eq active]
        exact ⟨sound.sent ⟨reader, message, rfl, .inr ⟨outside, sound.life.reader⟩⟩, outside⟩
      · rw [send_inactive active]
        exact sound
  | activate =>
      have wired := wired_creating.activate sound.wired reader
      show Foreign options reader (FusilWorld.activate reader world)
      rw [FusilWorld.activate] at wired ⊢
      cases activated : world.mas.activate reader with
      | none => exact sound
      | some mas =>
          rw [activated] at wired
          refine ⟨sound.withActive wired outside fun other differs => ?_, outside⟩
          rw [Mas.activate] at activated
          split at activated
          · cases activated
          · obtain ⟨box, -, rfl⟩ := Option.map_eq_some_iff.mp activated
            exact Function.update_of_ne differs ..
  | deactivate =>
      refine ⟨sound.withActive (wired_steady.deactivate sound.wired notCore) outside
        fun other differs => ?_,
        outside⟩
      unfold Mas.deactivate
      split
      · exact Function.update_of_ne differs ..
      · rfl
  | newSessionAgent events =>
      unfold FusilWorld.act
      cases world.memory.session with
      | none => exact sound
      | some session =>
          have kept := sound.newSessionAgent session events
          obtain ⟨mas, returned, -⟩ := newSessionAgent_spec session events world
          show Foreign options reader (FusilWorld.newSessionAgent session events world)
          rw [returned] at kept ⊢
          exact ⟨kept, outside⟩

theorem Sound.actAll (sound : Sound options reader world) (notCore : reader ∉ applicationAgents)
    (outside : reader ∉ world.memory.sessions) (acts : List (Act σ)) :
    Foreign options reader (actAll reader acts world) := by
  induction acts generalizing world with
  | nil => exact ⟨sound, outside⟩
  | cons first acts induction =>
      exact (sound.act notCore outside first).bind fun world kept => induction kept.1 kept.2

theorem Sound.outcome (sound : Sound options reader world) (ending : Ending) :
    Sounds options reader (ending.outcome world) := by
  cases ending with
  | returns | raises => exact sound
  | ptraceError | interrupts => exact sound.life

/-! The end of a session, when no `deinit` raises. -/

theorem deactivate_spec {choice : Choice σ} (calm : ∀ agent, choice.deinit agent ≠ .raises)
    (agent : AgentId) (world : FusilWorld σ) :
    (deactivate choice agent world).1 ≠ .raises ∧
      (deactivate choice agent world).2.memory = world.memory ∧
      (deactivate choice agent world).2.agents = world.agents := by
  unfold deactivate
  split
  · exact ⟨calm agent, rfl, rfl⟩
  · exact ⟨by simp, rfl, rfl⟩

theorem clearAgents_ends {choice : Choice σ} (calm : ∀ agent, choice.deinit agent ≠ .raises)
    (session : AgentId) (agents : List AgentId) {world : FusilWorld σ}
    (nodup : world.agents.Nodup) :
    (clearAgents choice session agents world).Ends
      (fun after => (∃ sessionAgents, after.memory = { world.memory with sessionAgents }) ∧
        after.agents.Nodup ∧ ∀ agent ∈ after.agents, agent ∈ world.agents ∧ agent ∉ agents)
      (fun _ => False)
      (fun after => ∃ sessionAgents, after.memory = { world.memory with sessionAgents }) := by
  induction agents generalizing world with
  | nil => exact ⟨⟨_, rfl⟩, nodup, fun agent member => ⟨member, List.not_mem_nil⟩⟩
  | cons first agents induction =>
      unfold clearAgents destroyAgent
      have spec := deactivate_spec calm first (remember world { world.memory with
        sessionAgents := Function.update world.memory.sessionAgents session agents.reverse })
      generalize deactivate choice first _ = ended at spec ⊢
      obtain ⟨ending, after⟩ := ended
      obtain ⟨quiet, memory, same⟩ := spec
      dsimp only [remember] at memory same
      have erased := @induction { after with agents := after.agents.erase first }
        (same ▸ nodup.erase first)
      cases ending with
      | returns | ptraceError =>
          refine erased.imp (fun last => ?_) (fun last => id) fun last => ?_
          · rintro ⟨⟨sessionAgents, kept⟩, still, placed⟩
            refine ⟨⟨sessionAgents, kept.trans ?_⟩, still, fun agent member => ?_⟩
            · simp only [memory]
            · obtain ⟨inside, out⟩ := placed agent member
              simp only [same] at inside
              exact ⟨List.mem_of_mem_erase inside, List.not_mem_cons_of_ne_of_not_mem
                (fun equal => nodup.not_mem_erase (equal ▸ inside)) out⟩
          · rintro ⟨sessionAgents, kept⟩
            exact ⟨sessionAgents, kept.trans (by simp only [memory])⟩
      | raises => exact quiet rfl
      | interrupts => exact ⟨_, memory⟩

theorem deactivateAgents_ends {choice : Choice σ} (calm : ∀ agent, choice.deinit agent ≠ .raises)
    (agents : List AgentId) (world : FusilWorld σ) :
    (deactivateAgents choice agents world).Ends
      (fun after => after.memory = world.memory ∧ after.agents = world.agents)
      (fun _ => False) (fun after => after.memory = world.memory) := by
  induction agents generalizing world with
  | nil => exact ⟨rfl, rfl⟩
  | cons agent agents induction =>
      unfold deactivateAgents
      split
      · exact induction world
      · have spec := deactivate_spec calm agent world
        generalize deactivate choice agent world = ended at spec ⊢
        obtain ⟨ending, after⟩ := ended
        obtain ⟨quiet, memory, same⟩ := spec
        dsimp only at memory same
        have rest := induction after
        rw [memory, same] at rest
        cases ending with
        | returns => exact rest
        | raises => exact quiet rfl
        | ptraceError | interrupts => exact memory

/-- What `destroySession` leaves when it returns. -/
structure Destroyed (session : AgentId) (before after : FusilWorld σ) : Prop where
  memory : ∃ sessionAgents, after.memory = { before.memory with
    session := none
    sessionAgents
    journal := before.memory.journal ++ [.destroyedSession session] }
  agents : ∀ agent ∈ after.agents, agent ∈ before.agents
  gone : session ∉ after.agents

theorem clearMail_memory (world : FusilWorld σ) : (clearMail world).memory = world.memory := rfl

theorem destroySession_ends {choice : Choice σ} (calm : ∀ agent, choice.deinit agent ≠ .raises)
    (sound : Sound options reader world) {session : AgentId}
    (current : world.memory.session = some session) :
    (destroySession choice world).Ends (Destroyed session world) (fun _ => False)
      (fun after => ∃ sessionAgents, after.memory = { world.memory with sessionAgents }) := by
  unfold destroySession
  rw [current]
  refine Outcome.Ends.through (fun after =>
    (∃ sessionAgents, after.memory = { world.memory with sessionAgents }) ∧
      (∀ agent ∈ after.agents, agent ∈ world.agents) ∧ session ∉ after.agents) ?_ ?_
  · obtain ⟨member, inside⟩ := sound.own session current
    unfold deactivateSession
    split
    · have cleared := @clearAgents_ends σ choice calm session
        (world.memory.sessionAgents session).reverse
        { world with mas := world.mas.deactivate session } sound.wired.nodup
      refine cleared.imp (fun after => ?_) (fun after => id) fun after => id
      rintro ⟨memory, -, placed⟩
      refine ⟨memory, fun agent member => (placed agent member).1, fun member => ?_⟩
      exact (placed session member).2 (List.mem_reverse.mpr inside)
    · rename_i inactive
      refine ⟨⟨_, rfl⟩, fun agent => id, fun placed => inactive ?_⟩
      exact (sound.tidy session member placed).2
  · rintro middle ⟨⟨sessionAgents, memory⟩, agents, gone⟩
    refine Outcome.Ends.bind ((deactivateAgents_ends calm middle.agents middle).imp
      (fun after => id) (fun after => id) fun after same => ⟨sessionAgents, same.trans memory⟩) ?_
    rintro after ⟨same, sameAgents⟩
    refine ⟨⟨sessionAgents, ?_⟩, fun agent member => ?_, fun member => ?_⟩
    · rw [clearMail_memory]
      simp only [log, remember, same, memory]
    · exact agents agent (sameAgents ▸ member)
    · exact gone (sameAgents ▸ member)

/-! A new session, when the system is calm, the agents start and its directory is made. -/

structure Prepared (choice : Choice σ) : Prop where
  calm : choice.calm ≠ .raises
  init : ∀ agent, (choice.init agent).2 = .returns
  directory : choice.directory = .returns

/-- Agents that are no sessions were activated and sent messages. -/
structure Grown (before after : FusilWorld σ) : Prop where
  agents : after.agents = before.agents
  mailbox : after.mas.mailbox = before.mas.mailbox
  memory : ∃ entries, after.memory = { before.memory with
    journal := before.memory.journal ++ entries } ∧
      ∀ entry ∈ entries, Harmless before.memory entry
  active : ∀ agent, before.mas.isActive agent = true → after.mas.isActive agent = true

theorem Grown.rfl (world : FusilWorld σ) : Grown world world :=
  ⟨Eq.refl _, Eq.refl _, ⟨[], by rw [List.append_nil], by simp⟩, fun _ => id⟩

theorem Grown.trans {before middle after : FusilWorld σ} (first : Grown before middle)
    (second : Grown middle after) : Grown before after where
  agents := second.agents.trans first.agents
  mailbox := second.mailbox.trans first.mailbox
  memory := by
    obtain ⟨earlier, firstMemory, firstHarmless⟩ := first.memory
    obtain ⟨later, secondMemory, secondHarmless⟩ := second.memory
    refine ⟨earlier ++ later, ?_, fun entry member => ?_⟩
    · rw [secondMemory, firstMemory, List.append_assoc]
    · rcases List.mem_append.mp member with old | new
      · exact firstHarmless entry old
      · obtain ⟨sender, message, same, quiet⟩ := secondHarmless entry new
        rw [firstMemory] at quiet
        exact ⟨sender, message, same, quiet⟩
  active agent active := second.active agent (first.active agent active)

theorem sendAll_ends {sender : AgentId} (messages : List (Message σ)) {world : FusilWorld σ}
    (active : world.mas.isActive sender = true) (outside : sender ∉ world.memory.sessions)
    (known : sender < world.memory.nextAgent) :
    (sendAll sender messages world).Ends (Grown world) (fun _ => False) fun _ => False := by
  induction messages generalizing world with
  | nil => exact Grown.rfl world
  | cons message messages induction =>
      unfold sendAll
      rw [send_eq active]
      have first : Grown world
          (log { world with mas := world.mas.deliver message } (.sent sender message)) := by
        refine ⟨rfl, rfl, ⟨[.sent sender message], rfl, fun entry member => ?_⟩, fun _ => id⟩
        exact List.mem_singleton.mp member ▸ ⟨sender, message, rfl, .inr ⟨outside, known⟩⟩
      have rest := @induction
        (log { world with mas := world.mas.deliver message } (.sent sender message)) active outside
        known
      exact rest.imp (fun after rest => first.trans rest) (fun _ => id) fun _ => id

theorem activateAgents_ends (choice : Choice σ) (agents : List AgentId) {world : FusilWorld σ}
    (outside : ∀ agent ∈ agents, agent ∉ world.memory.sessions)
    (known : ∀ agent ∈ agents, agent < world.memory.nextAgent)
    (boxes : ∀ agent ∈ agents, (world.mas.mailbox agent).isSome = true) :
    (activateAgents choice agents world).Ends (Grown world) (fun _ => ¬ Prepared choice)
      fun _ => ¬ Prepared choice := by
  induction agents generalizing world with
  | nil => exact Grown.rfl world
  | cons agent agents induction =>
      obtain ⟨outsideFirst, outside⟩ := List.forall_mem_cons.mp outside
      obtain ⟨knownFirst, known⟩ := List.forall_mem_cons.mp known
      obtain ⟨boxFirst, boxes⟩ := List.forall_mem_cons.mp boxes
      refine Outcome.Ends.through (Grown world) ?_ fun middle first => ?_
      · split
        · exact Grown.rfl world
        · rename_i inactive
          obtain ⟨box, found⟩ := Option.isSome_iff_exists.mp boxFirst
          have activated : activate agent world = .returned { world with
              mas := (world.mas.clearMailbox box).setActive agent true } := by
            simp only [activate, Mas.activate, inactive, found, Bool.false_eq_true, if_false,
              Option.map_some]
          rw [activated]
          have woken : Grown world { world with
              mas := (world.mas.clearMailbox box).setActive agent true } := by
            refine ⟨rfl, rfl, ⟨[], by rw [List.append_nil], by simp⟩, fun other active => ?_⟩
            simp only [Mas.setActive, Function.update_apply]
            split
            · rfl
            · exact active
          show Outcome.Ends _ _ _ (initAgent choice agent _)
          unfold initAgent
          rw [if_neg outsideFirst]
          have sent := @sendAll_ends σ agent (choice.init agent).1
            { world with mas := (world.mas.clearMailbox box).setActive agent true }
            (Function.update_self ..) outsideFirst knownFirst
          refine Outcome.Ends.bind (sent.imp (fun after sent => woken.trans sent)
            (fun _ never => never.elim) fun _ never => never.elim) fun after grown => ?_
          have unready : (choice.init agent).2 ≠ .returns → ¬ Prepared choice :=
            fun differs prepared => differs (prepared.init agent)
          cases ending : (choice.init agent).2 with
          | returns => exact grown
          | raises | ptraceError | interrupts => exact unready (by simp [ending])
      · obtain ⟨entries, memory, -⟩ := first.memory
        refine (@induction middle ?_ ?_ ?_).imp (fun after rest => first.trans rest) (fun _ => id)
          fun _ => id
        · rw [memory]
          exact outside
        · rw [memory]
          exact known
        · rw [first.mailbox]
          exact boxes

/-- What `Session(self)` leaves, with the agent of its directory. -/
structure Created (before after : FusilWorld σ) : Prop where
  memory : ∃ sessionAgents, after.memory = { before.memory with
      session := some before.memory.nextAgent
      sessions := before.memory.sessions ++ [before.memory.nextAgent]
      sessionAgents
      stopped := Function.update before.memory.stopped before.memory.nextAgent false
      nextAgent := before.memory.nextAgent + 2
      journal := before.memory.journal ++ [.createdSession before.memory.nextAgent] } ∧
    before.memory.nextAgent ∈ sessionAgents before.memory.nextAgent
  agents : after.agents =
    before.agents ++ [before.memory.nextAgent, before.memory.nextAgent + 1]
  active : after.mas.isActive before.memory.nextAgent = true

theorem newSession_ends (choice : Choice σ) (world : FusilWorld σ) :
    (newSession choice world).Ends (Created world) (fun _ => ¬ Prepared choice)
      fun _ => ¬ Prepared choice := by
  unfold newSession
  refine Outcome.Ends.through (fun middle =>
    middle.memory = { world.memory with
      sessions := world.memory.sessions ++ [world.memory.nextAgent]
      nextAgent := world.memory.nextAgent + 1
      sessionAgents := Function.update world.memory.sessionAgents world.memory.nextAgent
        (world.memory.sessionAgents world.memory.nextAgent ++ [world.memory.nextAgent]) } ∧
    middle.agents = world.agents ++ [world.memory.nextAgent] ∧
    middle.mas.isActive world.memory.nextAgent = true) ?_ ?_
  · obtain ⟨mas, returned, active⟩ := newSessionAgent_spec world.memory.nextAgent [.sessionStop]
      (remember world { world.memory with
        sessions := world.memory.sessions ++ [world.memory.nextAgent] })
    dsimp only
    rw [returned]
    refine ⟨rfl, rfl, ?_⟩
    rw [active]
    exact Function.update_self ..
  · rintro middle ⟨memory, agents, active⟩
    obtain ⟨mas, returned, activeToo⟩ :=
      newSessionAgent_spec world.memory.nextAgent [.sessionRename] middle
    unfold initSession
    rw [returned]
    have unready : choice.directory ≠ .returns → ¬ Prepared choice :=
      fun differs prepared => differs prepared.directory
    cases made : choice.directory with
    | raises | ptraceError | interrupts => exact unready (by simp [made])
    | returns =>
        have next : middle.memory.nextAgent = world.memory.nextAgent + 1 := by rw [memory]
        refine ⟨⟨Function.update middle.memory.sessionAgents world.memory.nextAgent
          (middle.memory.sessionAgents world.memory.nextAgent ++ [middle.memory.nextAgent]),
        ?_, ?_⟩,
          ?_, ?_⟩
        · simp only [log, remember, memory]
        · rw [Function.update_self, memory]
          simp
        · show middle.agents ++ [middle.memory.nextAgent] = _
          rw [agents, next, List.append_assoc]
          rfl
        · show mas.isActive _ = true
          rw [activeToo, next, Function.update_of_ne (Nat.ne_of_lt (Nat.lt_succ_self _))]
          exact active

/-- The memory once a session is created where there was none. -/
theorem Life.opened (life : Life options reader memory) (idle : memory.session = none)
    (running : .projectStopped ∉ memory.journal)
    (room : 0 < options.maxSession → (memory.sessionIndex : Int) < options.maxSession)
    (free : 0 < options.maxSuccess → (memory.nbSuccess : Int) < options.maxSuccess)
    (sessionAgents : AgentId → List AgentId) (useTimeout : Bool) :
    Life options reader { memory with
      session := some memory.nextAgent
      sessionIndex := memory.sessionIndex + 1
      useTimeout
      sessions := memory.sessions ++ [memory.nextAgent]
      sessionAgents
      stopped := Function.update memory.stopped memory.nextAgent false
      nextAgent := memory.nextAgent + 2
      journal := memory.journal ++ [.createdSession memory.nextAgent] } where
  replays := by
    rw [replaySessions_append, life.replays, idle]
    rfl
  distinct := by
    rw [createdSessions_append]
    refine List.nodup_append.mpr ⟨life.distinct, List.nodup_singleton _, ?_⟩
    intro session member other new same
    rw [same, List.mem_singleton.mp new] at member
    exact Nat.lt_irrefl _ (life.known _ (life.created _ member))
  index := by
    rw [createdSessions_append, List.length_append, ← life.index]
    rfl
  maxSession positive := by
    have fits := room positive
    push_cast
    omega
  maxSuccess := life.maxSuccess
  busy _ := free
  created session member := by
    rw [createdSessions_append] at member
    exact List.mem_append.mpr ((List.mem_append.mp member).imp_left (life.created session))
  known session member := by
    rcases List.mem_append.mp member with old | new
    · exact Nat.lt_add_right 2 (life.known session old)
    · exact List.mem_singleton.mp new ▸ Nat.lt_add_of_pos_right (by decide)
  reader := Nat.lt_add_right 2 life.reader
  dones session member := by
    rw [sessionDones_append]
    rcases List.mem_append.mp member with old | new
    · have differs : session ≠ memory.nextAgent := Nat.ne_of_lt (life.known session old)
      simp only [Function.update_of_ne differs]
      exact life.dones session old
    · rw [List.mem_singleton.mp new, life.fresh _ (Nat.le_refl _)]
      exact Nat.zero_le _
  fresh session later := by
    rw [sessionDones_append, life.fresh session (Nat.le_trans (Nat.le_add_right _ 2) later)]
    rfl
  halted member := by
    refine absurd ((List.mem_append.mp member).resolve_right fun new => ?_) running
    cases List.mem_singleton.mp new
  stopped := by
    rw [afterStop, List.dropWhile_append, ← afterStop, afterStop_eq_nil running]
    rfl

theorem Sound.of_created {before middle after : FusilWorld σ} (sound : Sound options reader before)
    (wired : after.Wired) (idle : before.memory.session = none)
    (running : .projectStopped ∉ before.memory.journal)
    (room : 0 < options.maxSession → (before.memory.sessionIndex : Int) < options.maxSession)
    (free : 0 < options.maxSuccess → (before.memory.nbSuccess : Int) < options.maxSuccess)
    (grown : Grown (remember before { before.memory with
      sessionIndex := before.memory.sessionIndex + 1
      useTimeout := options.sessionTimeout }) middle) (created : Created middle after) :
    Sound options reader after := by
  obtain ⟨entries, grownMemory, harmless⟩ := grown.memory
  obtain ⟨sessionAgents, memory, inside⟩ := created.memory
  have grownLife : Life options reader { before.memory with
      journal := before.memory.journal ++ entries } := sound.life.grows harmless
  have life := grownLife.opened idle
    (fun member => (List.mem_append.mp member).elim running (not_stopped_harmless harmless))
    room free sessionAgents options.sessionTimeout
  have next : middle.memory.nextAgent = before.memory.nextAgent := by
    rw [grownMemory]
    rfl
  have sessions : middle.memory.sessions = before.memory.sessions := by
    rw [grownMemory]
    rfl
  have agents : middle.agents = before.agents := grown.agents
  refine ⟨wired, ?_, fun session member placed => ?_, fun session current => ?_⟩
  · rw [memory, grownMemory]
    exact life
  · rw [memory] at member ⊢
    have same : session = middle.memory.nextAgent := by
      rcases List.mem_append.mp member with old | new
      · rw [sessions] at old
        rw [created.agents, agents] at placed
        rcases List.mem_append.mp placed with placed | new
        · have current := (sound.tidy session old placed).1
          rw [idle] at current
          cases current
        · have known := sound.life.known session old
          rw [← next] at known
          simp only [List.mem_cons, List.not_mem_nil, or_false] at new
          obtain rfl | rfl := new
          · exact absurd known (Nat.lt_irrefl _)
          · exact absurd known (Nat.not_lt_of_le (Nat.le_succ _))
      · exact List.mem_singleton.mp new
    subst same
    exact ⟨rfl, created.active⟩
  · rw [memory] at current ⊢
    cases current
    exact ⟨List.mem_append_right _ (List.mem_singleton_self _), inside⟩

/-- The project is active, so its messages leave. -/
theorem Sound.send_project (sound : Sound options reader world) (message : Message σ)
    (other : ∀ score, message ≠ .sessionDone score) :
    ∃ after, FusilWorld.send project message world = .returned after ∧ Sound options reader after ∧
      after.memory.session = world.memory.session := by
  refine ⟨_, send_eq (sound.wired.mas.active project (by decide)) message, ?_, rfl⟩
  exact sound.sent ⟨_, _, rfl, .inl other⟩

theorem Sound.createSession (sound : Sound options reader world) (choice : Choice σ)
    (idle : world.memory.session = none) (running : .projectStopped ∉ world.memory.journal)
    (room : 0 < options.maxSession → (world.memory.sessionIndex : Int) < options.maxSession)
    (free : 0 < options.maxSuccess → (world.memory.nbSuccess : Int) < options.maxSuccess) :
    (createSession options choice world).Ends
      (fun after => Sound options reader after ∧ after.memory.session.isSome = true)
      (fun _ => ¬ Prepared choice) fun after =>
        Prepared choice → Life options reader after.memory := by
  unfold FusilWorld.createSession
  cases calm : choice.calm with
  | raises => exact fun prepared => prepared.calm calm
  | ptraceError | interrupts => exact fun _ => sound.life
  | returns =>
      have opening : Wired (remember world { world.memory with
          sessionIndex := world.memory.sessionIndex + 1
          useTimeout := options.sessionTimeout }) :=
        sound.wired.remember (Nat.le_refl _) sound.wired.session sound.wired.sessionAgents
      have outside : ∀ agent ∈ world.agents, agent ∉ world.memory.sessions := by
        intro agent placed member
        have current := (sound.tidy agent member placed).1
        rw [idle] at current
        cases current
      have activated := (wired_creating.activateAgents opening choice world.agents).and
        (activateAgents_ends choice world.agents outside sound.wired.known sound.wired.boxes)
      refine Outcome.Ends.through (fun after => after = world) rfl fun after same => ?_
      subst same
      refine Outcome.Ends.bind (activated.imp (fun after => id) (fun _ unready => unready.2)
        fun _ unready prepared => absurd prepared unready.2) fun middle grown => ?_
      have created := (wired_creating.newSession grown.1 choice).and (newSession_ends choice middle)
      refine Outcome.Ends.bind (created.imp (fun after => id) (fun _ unready => unready.2)
        fun _ unready prepared => absurd prepared unready.2) fun after fresh => ?_
      have soundAfter := sound.of_created fresh.1 idle running room free grown.2 fresh.2
      have present : after.memory.session.isSome = true := by
        obtain ⟨_, memory, -⟩ := fresh.2.memory
        rw [memory]
        rfl
      obtain ⟨started, startSent, soundStarted, startSame⟩ :=
        soundAfter.send_project .projectStart fun _ same => nomatch same
      refine Outcome.Ends.through (fun last =>
        Sound options reader last ∧ last.memory.session = after.memory.session) ?_
        fun last kept => ?_
      · split
        · rw [startSent]
          exact ⟨soundStarted, startSame⟩
        · exact ⟨soundAfter, rfl⟩
      · obtain ⟨done, sent, soundDone, same⟩ :=
          kept.1.send_project .sessionStart fun _ same => nomatch same
        rw [sent]
        refine ⟨soundDone, ?_⟩
        rw [same, kept.2]
        exact present

/-! The memory once the session is destroyed, and once the project has stopped. -/

theorem Life.closed (life : Life options reader memory) {session : AgentId}
    (current : memory.session = some session) (sessionAgents : AgentId → List AgentId) :
    Life options reader { memory with
      session := none
      sessionAgents
      journal := memory.journal ++ [.destroyedSession session] } := by
  refine life.appended sessionAgents rfl ?_ (fun present => (Bool.false_ne_true present).elim)
    life.dones (fun _ _ => rfl) fun _ => rfl
  rw [current]
  simp [openSession]

theorem Life.halts (life : Life options reader memory) (idle : memory.session = none) :
    Life options reader { memory with journal := memory.journal ++ [.projectStopped] } :=
  life.appended memory.sessionAgents rfl rfl id life.dones (fun _ _ => rfl) fun _ => idle

/-- The score of a session that has stopped and sent none. -/
theorem Life.done (life : Life options reader memory) (member : reader ∈ memory.sessions)
    (stopped : memory.stopped reader = true) (silent : sessionDones reader memory.journal = 0)
    (score : σ) :
    Life options reader { memory with
      journal := memory.journal ++ [.sent reader (.sessionDone score)] } := by
  have single : ∀ other : AgentId, sessionDones other [Entry.sent reader (.sessionDone score)] =
      if reader = other then 1 else 0 := by
    intro other
    by_cases same : reader = other <;> simp [sessionDones, Entry.isDone, same]
  refine life.appended memory.sessionAgents rfl rfl id (fun other inside => ?_)
    (fun other later => ?_) fun found => ?_
  · rw [single]
    by_cases same : reader = other
    · rw [if_pos same, ← same, silent, stopped]
      exact Nat.le_refl _
    · rw [if_neg same]
      exact life.dones other inside
  · rw [single, if_neg (Nat.ne_of_lt (Nat.lt_of_lt_of_le (life.known reader member) later))]
  · refine life.halted ((List.mem_append.mp found).resolve_right fun new => ?_)
    cases List.mem_singleton.mp new

theorem Sound.of_destroyed {after : FusilWorld σ} (sound : Sound options reader world)
    (wired : after.Wired) {session : AgentId} (current : world.memory.session = some session)
    (destroyed : Destroyed session world after) : Sound options reader after := by
  obtain ⟨sessionAgents, memory⟩ := destroyed.memory
  refine ⟨wired, ?_, fun other member placed => ?_, fun other found => ?_⟩
  · rw [memory]
    exact sound.life.closed current sessionAgents
  · rw [memory] at member
    have same := (sound.tidy other member (destroyed.agents other placed)).1
    rw [current] at same
    cases same
    exact absurd placed destroyed.gone
  · rw [memory] at found
    cases found

/-- The session is destroyed, and nothing else of the project has changed. -/
theorem Sound.destroySession (sound : Sound options reader world) {choice : Choice σ}
    (calm : ∀ agent, choice.deinit agent ≠ .raises) {session : AgentId}
    (current : world.memory.session = some session) :
    (destroySession choice world).Ends
      (fun after => Sound options reader after ∧ Destroyed session world after)
      (fun _ => False) (fun after => Life options reader after.memory) := by
  have destroyed := (wired_destroying.destroySession sound.wired choice).and
    (destroySession_ends calm sound current)
  refine destroyed.imp (fun after ended => ?_) (fun _ never => never.2) fun after ended => ?_
  · exact ⟨sound.of_destroyed ended.1 current ended.2, ended.2⟩
  · obtain ⟨sessionAgents, memory⟩ := ended.2
    rw [memory]
    exact sound.life.same (Nat.le_refl _) sessionAgents _

theorem Sound.onProjectUniversStop (sound : Sound options reader world) {choice : Choice σ}
    (calm : ∀ agent, choice.deinit agent ≠ .raises) :
    (onProjectUniversStop choice world).Ends (Sound options reader) (fun _ => False)
      fun after => Life options reader after.memory := by
  unfold FusilWorld.onProjectUniversStop
  refine Outcome.Ends.through (fun after =>
    Sound options reader after ∧ after.memory.session = none) ?_ ?_
  · split
    · rename_i present
      obtain ⟨session, current⟩ := Option.isSome_iff_exists.mp present
      refine (sound.destroySession calm current).imp (fun after ended => ⟨ended.1, ?_⟩)
        (fun _ never => never.elim) fun _ => id
      obtain ⟨sessionAgents, memory⟩ := ended.2.memory
      rw [memory]
    · rename_i absent
      exact ⟨sound, by simpa using absent⟩
  · rintro after ⟨sound, idle⟩
    exact ⟨sound.wired.log _, sound.life.halts idle, sound.tidy, sound.own⟩

theorem Sound.projectLive (sound : Sound options reader world) (choice : Choice σ) :
    Sounds options reader (projectLive choice world) := by
  unfold FusilWorld.projectLive
  split
  · refine Outcome.Ends.bind (sound.send ⟨_, _, rfl, .inl fun _ same => nomatch same⟩)
      fun after sound => ?_
    exact ⟨sound.wired.remember (Nat.le_refl _) sound.wired.session sound.wired.sessionAgents,
      sound.life.same (Nat.le_refl _) _ _, sound.tidy, sound.own⟩
  · exact sound

section

variable [LE σ] [DecidableLE σ]

theorem Sound.countSuccess (sound : Sound options reader world)
    (idle : world.memory.session = none)
    (free : 0 < options.maxSuccess → (world.memory.nbSuccess : Int) < options.maxSuccess)
    (score : σ) : Sound options reader (countSuccess options score world) := by
  have wired := wired_creating.countSuccess sound.wired options score
  unfold FusilWorld.countSuccess at wired ⊢
  split
  · rename_i success
    rw [if_pos success] at wired
    have life := sound.life
    refine ⟨wired, ⟨life.replays, life.distinct, life.index, life.maxSession, fun positive => ?_,
      fun present => ?_, life.created, life.known, life.reader, life.dones, life.fresh,
      life.halted, life.stopped⟩, sound.tidy, sound.own⟩
    · have fits := free positive
      simp only [remember]
      omega
    · simp only [remember, idle] at present
      cases present
  · exact sound

/-- Where no limit is reached, the next session follows. -/
theorem Sound.nextSession (sound : Sound options reader world) {choice : Choice σ}
    (prepared : Prepared choice) (score : σ) (idle : world.memory.session = none)
    (running : .projectStopped ∉ world.memory.journal)
    (free : ¬ options.successScore ≤ score → 0 < options.maxSuccess →
      (world.memory.nbSuccess : Int) < options.maxSuccess) :
    (nextSession options choice score world).Ends
      (fun after => Sound options reader after ∧
        (after.memory.session.isSome = true ∨
          (options.successScore ≤ score ∧ 0 < options.maxSuccess ∧
            options.maxSuccess ≤ world.memory.nbSuccess) ∨
          (0 < options.maxSession ∧ options.maxSession ≤ world.memory.sessionIndex)))
      (fun _ => False) fun after => Life options reader after.memory := by
  obtain ⟨done, sent, soundDone, -⟩ :=
    sound.send_project .universStop fun _ same => nomatch same
  unfold FusilWorld.nextSession
  split
  · rename_i enough
    rw [sent]
    exact ⟨soundDone, .inr (.inl enough)⟩
  · rename_i notEnough
    split
    · rename_i last
      rw [sent]
      exact ⟨soundDone, .inr (.inr last)⟩
    · rename_i notLast
      have created := sound.createSession choice idle running
        (fun positive => Int.not_le.mp fun last => notLast ⟨positive, last⟩) fun positive => by
          by_cases success : options.successScore ≤ score
          · exact Int.not_le.mp fun enough => notEnough ⟨success, positive, enough⟩
          · exact free success positive
      exact created.imp (fun after kept => ⟨kept.1, .inl kept.2⟩)
        (fun _ unready => unready prepared)
        fun _ ends => ends prepared

/-- A session that ends is followed by another, unless a limit is reached. -/
theorem Sound.onProjectSessionDestroy (sound : Sound options reader world) {choice : Choice σ}
    (calm : ∀ agent, choice.deinit agent ≠ .raises) (prepared : Prepared choice) (score : σ) :
    (onProjectSessionDestroy options choice score world).Ends
      (fun after => Sound options reader after ∧ (after.memory.session.isSome = true ∨
        atLimit options world.memory score = true))
      (fun after => Sound options reader after ∧ world.memory.session = none)
      fun after => Life options reader after.memory := by
  unfold FusilWorld.onProjectSessionDestroy
  cases current : world.memory.session with
  | none => exact ⟨sound, rfl⟩
  | some session =>
      have running : Entry.projectStopped ∉ world.memory.journal := by
        intro member
        have idle := sound.life.halted member
        rw [current] at idle
        cases idle
      refine Outcome.Ends.bind ((sound.destroySession calm current).imp (fun after => id)
        (fun _ never => never.elim) fun _ => id) ?_
      rintro after ⟨soundAfter, destroyed⟩
      obtain ⟨sessionAgents, memory⟩ := destroyed.memory
      have idle : after.memory.session = none := by rw [memory]
      have free : 0 < options.maxSuccess → (after.memory.nbSuccess : Int) < options.maxSuccess := by
        rw [memory]
        exact sound.life.busy (by rw [current]; rfl)
      have counted := soundAfter.countSuccess idle free score
      have still : Entry.projectStopped ∉ after.memory.journal := by
        rw [memory]
        intro member
        refine running ((List.mem_append.mp member).resolve_right fun new => ?_)
        cases List.mem_singleton.mp new
      have successes : (FusilWorld.countSuccess options score after).memory.nbSuccess =
          if options.successScore ≤ score then world.memory.nbSuccess + 1
            else world.memory.nbSuccess := by
        unfold FusilWorld.countSuccess
        split
        · simp only [remember, memory]
        · rw [memory]
      have index : (FusilWorld.countSuccess options score after).memory.sessionIndex =
          world.memory.sessionIndex := by
        unfold FusilWorld.countSuccess
        split
        · simp only [remember, memory]
        · rw [memory]
      have next := counted.nextSession prepared score (by
        unfold FusilWorld.countSuccess
        split <;> exact idle) (by
        unfold FusilWorld.countSuccess
        split <;> exact still) fun failure => by
          rw [FusilWorld.countSuccess, if_neg failure]
          exact free
      refine next.imp (fun last kept => ⟨kept.1, kept.2.imp_right fun limit => ?_⟩)
        (fun _ never => never.elim) fun _ => id
      rw [successes, index] at limit
      simp only [atLimit, Bool.or_eq_true, decide_eq_true_eq]
      refine limit.imp_left fun enough => ?_
      rw [if_pos enough.1] at enough
      exact enough

/-! The calls of a session, of the project, and then any call. -/

/-- A session that has just stopped, and has not sent its score. -/
structure Stopping (options : Options σ) (reader : AgentId) (world : FusilWorld σ) : Prop where
  sound : Sound options reader world
  member : reader ∈ world.memory.sessions
  stopped : world.memory.stopped reader = true
  silent : sessionDones reader world.memory.journal = 0

omit [LE σ] [DecidableLE σ] in
theorem Sound.stopping (sound : Sound options reader world)
    (member : reader ∈ world.memory.sessions) (running : ¬ world.memory.stopped reader = true) :
    Stopping options reader (remember world { world.memory with
      stopped := Function.update world.memory.stopped reader true }) := by
  have silent : sessionDones reader world.memory.journal = 0 := by
    have few := sound.life.dones reader member
    rw [if_neg running] at few
    exact Nat.le_zero.mp few
  have life := sound.life
  refine ⟨⟨sound.wired.remember (Nat.le_refl _) sound.wired.session sound.wired.sessionAgents,
    ⟨life.replays, life.distinct, life.index, life.maxSession, life.maxSuccess, life.busy,
      life.created, life.known, life.reader, fun session inside => ?_, life.fresh, life.halted,
      life.stopped⟩, sound.tidy, sound.own⟩, member, Function.update_self .., silent⟩
  simp only [remember, Function.update_apply]
  by_cases same : session = reader
  · rw [same, silent]
    exact Nat.zero_le _
  · rw [if_neg same]
    exact life.dones session inside

omit [LE σ] [DecidableLE σ] in
theorem Stopping.sent (stopping : Stopping options reader world) {message : Message σ}
    (other : ∀ score, message ≠ .sessionDone score) :
    Stopping options reader
      (log { world with mas := world.mas.deliver message } (.sent reader message)) := by
  refine ⟨stopping.sound.sent ⟨_, _, rfl, .inl other⟩, stopping.member, stopping.stopped, ?_⟩
  refine (sessionDones_append reader _ _).trans ?_
  rw [stopping.silent, Nat.zero_add]
  refine sessionDones_harmless (fun entry member => ?_) (.inl stopping.member)
  exact List.mem_singleton.mp member ▸ ⟨_, _, rfl, .inl other⟩

omit [LE σ] [DecidableLE σ] in
theorem Stopping.done (stopping : Stopping options reader world) (score : σ) :
    Sounds options reader (FusilWorld.send reader (.sessionDone score) world) := by
  by_cases active : world.mas.isActive reader = true
  · rw [send_eq active]
    have sent : Wired ({ world with mas := world.mas.deliver (.sessionDone score) } :
        FusilWorld σ) :=
      stopping.sound.wired.withMas (stopping.sound.wired.mas.withQueue _) rfl
    exact ⟨sent.log _, stopping.sound.life.done stopping.member stopping.stopped stopping.silent
      score, stopping.sound.tidy, stopping.sound.own⟩
  · rw [send_inactive active]
    exact stopping.sound

theorem Sound.onSessionStop (sound : Sound options reader world) (choice : Choice σ)
    (member : reader ∈ world.memory.sessions) :
    Sounds options reader (onSessionStop options choice reader world) := by
  unfold FusilWorld.onSessionStop
  split
  · exact sound
  · rename_i running
    have stopping := sound.stopping member running
    refine Outcome.Ends.through (Stopping options reader) ?_ fun after stopping => ?_
    · cases choice.ending with
      | returns => exact stopping
      | raises => exact stopping.sound
      | ptraceError | interrupts => exact stopping.sound.life
    · refine Outcome.Ends.through (Stopping options reader) ?_
        fun after stopping => stopping.done _
      split
      · by_cases active : after.mas.isActive reader = true
        · rw [send_eq active]
          exact stopping.sent fun _ same => nomatch same
        · rw [send_inactive active]
          exact stopping.sound
      · exact stopping

theorem Sound.sessionLive (sound : Sound options reader world) (choice : Choice σ)
    (session : AgentId) : Sounds options reader (sessionLive options choice session world) := by
  unfold FusilWorld.sessionLive
  split
  · exact sound
  · refine Outcome.Ends.bind (sound.outcome _) fun after sound => ?_
    split
    · exact sound.send ⟨_, _, rfl, .inl fun _ same => nomatch same⟩
    · exact sound

/-- The project ends its last session: it stops, or a limit is reached. -/
def Closes (options : Options σ) (memory : Memory σ) : Message σ → Prop
  | .universStop => True
  | .projectSessionDestroy score => atLimit options memory score = true
  | _ => False

/-- In a call of the project, no agent fails as it stops, and none as a session begins, nor the
wait for a calm system or the directory. -/
def Manageable (choice : Choice σ) (agent : AgentId) (message : Option (Message σ)) : Prop :=
  agent = project →
    (message = some .universStop → ∀ other, choice.deinit other ≠ .raises) ∧
      ∀ score, message = some (.projectSessionDestroy score) →
        (∀ other, choice.deinit other ≠ .raises) ∧ Prepared choice

/-- A session stays open unless the project closes. -/
theorem Sound.projectHandle (sound : Sound options reader world) {choice : Choice σ}
    {message : Message σ} (manageable : Manageable choice project (some message)) :
    (projectHandle options choice world message).Ends
      (fun after => Sound options reader after ∧ (world.memory.session.isSome = true →
        Closes options world.memory message ∨ after.memory.session.isSome = true))
      (fun after => Sound options reader after ∧
        (∃ score, message = .projectSessionDestroy score) ∧ world.memory.session = none)
      fun after => Life options reader after.memory := by
  obtain ⟨stop, destroy⟩ := manageable rfl
  cases message with
  | sessionDone score =>
      obtain ⟨after, sent, soundAfter, same⟩ := sound.send_project
        (.projectSessionDestroy score) fun _ same => nomatch same
      rw [FusilWorld.projectHandle, sent]
      exact ⟨soundAfter, fun present => .inr (same ▸ present)⟩
  | projectStop =>
      obtain ⟨after, sent, soundAfter, same⟩ := sound.send_project
        .universStop fun _ same => nomatch same
      rw [FusilWorld.projectHandle, sent]
      exact ⟨soundAfter, fun present => .inr (same ▸ present)⟩
  | universStop =>
      exact (sound.onProjectUniversStop (stop rfl)).imp
        (fun after soundAfter => ⟨soundAfter, fun _ => .inl trivial⟩)
        (fun _ never => never.elim) fun _ => id
  | projectSessionDestroy score =>
      obtain ⟨calm, prepared⟩ := destroy score rfl
      exact (sound.onProjectSessionDestroy calm prepared score).imp
        (fun after kept => ⟨kept.1, fun _ => kept.2.symm⟩)
        (fun after raised => ⟨raised.1, ⟨score, rfl⟩, raised.2⟩) fun _ => id
  | _ => exact ⟨sound, .inr⟩

theorem Sound.call (sound : Sound options reader world) {choice : Choice σ}
    {message : Option (Message σ)} (manageable : Manageable choice reader message) :
    Sounds options reader (call options choice reader message world) := by
  have wired := sound.wired.call options choice reader message
  unfold FusilWorld.call at wired ⊢
  split
  · rename_i isMta
    rw [if_pos isMta] at wired
    have same := (Mas.delivered_foldl Message.event sound.wired.mas.lists
      world.mas.queue).owners
    refine ⟨wired, sound.life, fun session member placed => ?_, sound.own⟩
    obtain ⟨current, active⟩ := sound.tidy session member placed
    exact ⟨current, (congrFun (Mas.isActive_of_same same) session).trans active⟩
  split
  · rename_i notMta isUnivers
    rw [if_neg notMta, if_pos isUnivers] at wired
    split at wired
    · rename_i handles
      rw [if_pos handles]
      exact ⟨wired, sound.life, sound.tidy, sound.own⟩
    · rename_i lives
      rw [if_neg lives]
      exact sound
  split
  · split
    · exact sound.send ⟨_, _, rfl, .inl fun _ same => nomatch same⟩
    · exact sound
  split
  · rename_i isProject
    subst isProject
    cases message with
    | none => exact sound.projectLive choice
    | some message =>
        exact (sound.projectHandle manageable).imp (fun _ => And.left) (fun _ => And.left)
          fun _ => id
  split
  · rename_i member
    split
    · exact sound.onSessionStop choice member
    · exact sound.sessionLive choice reader
  · rename_i notMta notUnivers notApplication notProject notSession
    have notCore : reader ∉ applicationAgents := by
      simp [applicationAgents, notMta, notUnivers, notApplication, notProject]
    exact Outcome.Ends.bind (sound.actAll notCore notSession choice.acts)
      fun after kept => kept.1.outcome _

end

end Segvault.Fusil
