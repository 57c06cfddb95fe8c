import Segvault.Fusil.Univers

namespace Segvault.Fusil

/-! The project and its sessions: `fusil/{project,session,application}.py`. -/

inductive Event
  | applicationInterrupt
  | applicationError
  | projectStart
  | projectStop
  | projectSessionDestroy
  | sessionStart
  | sessionStop
  | sessionSuccess
  | sessionDone
  | sessionRename
  | universStop
  | other (name : Nat)
  deriving DecidableEq, Repr

inductive Message (σ : Type)
  | applicationInterrupt
  | applicationError
  | projectStart
  | projectStop
  | projectSessionDestroy (score : σ)
  | sessionStart
  | sessionStop
  | sessionSuccess
  | sessionDone (score : σ)
  | sessionRename (part : Nat)
  | universStop
  | other (name : Nat)
  deriving DecidableEq

variable {σ : Type}

def Message.event : Message σ → Event
  | .applicationInterrupt => .applicationInterrupt
  | .applicationError => .applicationError
  | .projectStart => .projectStart
  | .projectStop => .projectStop
  | .projectSessionDestroy _ => .projectSessionDestroy
  | .sessionStart => .sessionStart
  | .sessionStop => .sessionStop
  | .sessionSuccess => .sessionSuccess
  | .sessionDone _ => .sessionDone
  | .sessionRename _ => .sessionRename
  | .universStop => .universStop
  | .other name => .other name

/-! The application agents, numbered as they are created. -/

def application : AgentId := 1
def mta : AgentId := 2
def univers : AgentId := 3
def project : AgentId := 4

/-- MTA has to be the first agent. -/
def applicationAgents : List AgentId := [mta, univers, application, project]

structure Options (σ : Type) where
  maxSession : Int
  maxSuccess : Int
  successScore : σ
  errorScore : σ
  sessionTimeout : Bool

/-- What happened so far, for the properties of whole runs. -/
inductive Entry (σ : Type)
  | sent (sender : AgentId) (message : Message σ)
  | createdSession (session : AgentId)
  | destroyedSession (session : AgentId)
  | projectStopped
  deriving DecidableEq

/-- The attributes of the project and of its sessions: `sessions` are the agents of class
`Session`, with the `agents` and the `stopped` of each. -/
structure Memory (σ : Type) where
  session : Option AgentId := none
  sessionIndex : Nat := 0
  nbSuccess : Nat := 0
  useTimeout : Bool := false
  sessions : List AgentId := []
  sessionAgents : AgentId → List AgentId := fun _ => []
  stopped : AgentId → Bool := fun _ => false
  nextAgent : AgentId
  journal : List (Entry σ) := []

abbrev FusilWorld (σ : Type) := World Event (Message σ) (Memory σ)

/-! What the code outside decides in one call. -/

inductive Ending
  | returns
  | raises
  | ptraceError
  | interrupts
  deriving DecidableEq, Repr

def Ending.outcome {ω : Type} (ending : Ending) (world : ω) : Outcome ω :=
  match ending with
  | .returns => .returned world
  | .raises => .raised world
  | .ptraceError | .interrupts => .interrupted world

/-- What a call of another agent may do. -/
inductive Act (σ : Type)
  | send (message : Message σ)
  | newSessionAgent (events : List Event)
  | activate
  | deactivate

/-- `acts` and `ending` are those of another agent's call, or the ending of `computeScore`; the
others stand for what the project calls: the system calm detector, `init` of an agent with the
messages it sends, `deinit`, and the making of the session directory. -/
structure Choice (σ : Type) where
  acts : List (Act σ) := []
  ending : Ending := .returns
  score : σ
  timedOut : Bool := false
  calm : Ending := .returns
  init : AgentId → List (Message σ) × Ending := fun _ => ([], .returns)
  deinit : AgentId → Ending := fun _ => .returns
  directory : Ending := .returns

namespace FusilWorld

def remember (world : FusilWorld σ) (memory : Memory σ) : FusilWorld σ := { world with memory }

def log (world : FusilWorld σ) (entry : Entry σ) : FusilWorld σ :=
  remember world { world.memory with journal := world.memory.journal ++ [entry] }

def send (sender : AgentId) (message : Message σ) (world : FusilWorld σ) :
    Outcome (FusilWorld σ) :=
  match world.mas.send sender message with
  | none => .raised world
  | some mas => .returned (log { world with mas } (.sent sender message))

def sendAll (sender : AgentId) : List (Message σ) → FusilWorld σ → Outcome (FusilWorld σ)
  | [], world => .returned world
  | message :: messages, world => (send sender message world).bind (sendAll sender messages)

def activate (agent : AgentId) (world : FusilWorld σ) : Outcome (FusilWorld σ) :=
  match world.mas.activate agent with
  | none => .raised world
  | some mas => .returned { world with mas }

/-- `SessionAgent.__init__` up to `init`: registration with the project and the session. -/
def newSessionAgent (session : AgentId) (events : List Event) (world : FusilWorld σ) :
    Outcome (FusilWorld σ) :=
  let agent := world.memory.nextAgent
  activate agent
    { world with
      mas := (world.mas.newMailbox agent events).setActive agent false
      agents := world.agents ++ [agent]
      memory := { world.memory with
        nextAgent := agent + 1
        sessionAgents := Function.update world.memory.sessionAgents session
          (world.memory.sessionAgents session ++ [agent]) } }

def act (agent : AgentId) (world : FusilWorld σ) : Act σ → Outcome (FusilWorld σ)
  | .send message => send agent message world
  | .activate => activate agent world
  | .deactivate => .returned { world with mas := world.mas.deactivate agent }
  | .newSessionAgent events =>
      match world.memory.session with
      | none => .raised world
      | some session => newSessionAgent session events world

def actAll (agent : AgentId) : List (Act σ) → FusilWorld σ → Outcome (FusilWorld σ)
  | [], world => .returned world
  | first :: acts, world => (act agent world first).bind (actAll agent acts)

/-! `Agent.deactivate`, `AgentList.clear` and `Project.destroySession`. -/

def deactivate (choice : Choice σ) (agent : AgentId) (world : FusilWorld σ) :
    Ending × FusilWorld σ :=
  if world.mas.isActive agent then
    (choice.deinit agent, { world with mas := world.mas.deactivate agent })
  else (.returns, world)

/-- `AgentList._destroy`, which catches the errors of ptrace. -/
def destroyAgent (choice : Choice σ) (agent : AgentId) (world : FusilWorld σ) :
    Outcome (FusilWorld σ) :=
  let (ending, world) := deactivate choice agent world
  match ending with
  | .returns | .ptraceError => .returned { world with agents := world.agents.erase agent }
  | .raises => .raised world
  | .interrupts => .interrupted world

/-- The agents of the session go from the last one. -/
def clearAgents (choice : Choice σ) (session : AgentId) :
    List AgentId → FusilWorld σ → Outcome (FusilWorld σ)
  | [], world => .returned world
  | agent :: agents, world =>
      (destroyAgent choice agent (remember world { world.memory with
        sessionAgents := Function.update world.memory.sessionAgents session agents.reverse })).bind
        (clearAgents choice session agents)

def deactivateSession (choice : Choice σ) (session : AgentId) (world : FusilWorld σ) :
    Outcome (FusilWorld σ) :=
  if world.mas.isActive session then
    clearAgents choice session (world.memory.sessionAgents session).reverse
      { world with mas := world.mas.deactivate session }
  else .returned world

def deactivateAgents (choice : Choice σ) : List AgentId → FusilWorld σ → Outcome (FusilWorld σ)
  | [], world => .returned world
  | agent :: agents, world =>
      if agent ∈ applicationAgents then deactivateAgents choice agents world
      else
        let (ending, world) := deactivate choice agent world
        (ending.outcome world).bind (deactivateAgents choice agents)

/-- `agent.mailbox.clear()` for the application agents, then `mta().clear()`. -/
def clearMail (world : FusilWorld σ) : FusilWorld σ :=
  { world with mas :=
      (applicationAgents.foldl
        (fun mas agent => (mas.mailbox agent).elim mas mas.clearMailbox) world.mas).clear }

def destroySession (choice : Choice σ) (world : FusilWorld σ) : Outcome (FusilWorld σ) :=
  match world.memory.session with
  | none => .raised world
  | some session =>
      (deactivateSession choice session world).bind fun world =>
        (deactivateAgents choice world.agents world).bind fun world =>
          .returned (clearMail (log (remember world { world.memory with session := none })
            (.destroyedSession session)))

/-! `Session.__init__` and `Project.createSession`. -/

/-- `Session.init`, which makes the agent of the session directory. -/
def initSession (choice : Choice σ) (session : AgentId) (world : FusilWorld σ) :
    Outcome (FusilWorld σ) :=
  (newSessionAgent session [.sessionRename] world).bind fun world =>
    (choice.directory.outcome world).bind fun world =>
      .returned (remember world { world.memory with
        stopped := Function.update world.memory.stopped session false })

def newSession (choice : Choice σ) (world : FusilWorld σ) : Outcome (FusilWorld σ) :=
  let session := world.memory.nextAgent
  (newSessionAgent session [.sessionStop] (remember world { world.memory with
    sessions := world.memory.sessions ++ [session] })).bind fun world =>
      (initSession choice session world).bind fun world =>
        .returned (log (remember world { world.memory with session := some session })
          (.createdSession session))

def initAgent (choice : Choice σ) (agent : AgentId) (world : FusilWorld σ) :
    Outcome (FusilWorld σ) :=
  if agent ∈ world.memory.sessions then initSession choice agent world
  else (sendAll agent (choice.init agent).1 world).bind (choice.init agent).2.outcome

def activateAgents (choice : Choice σ) : List AgentId → FusilWorld σ → Outcome (FusilWorld σ)
  | [], world => .returned world
  | agent :: agents, world =>
      (if world.mas.isActive agent then .returned world
        else (activate agent world).bind (initAgent choice agent)).bind
        (activateAgents choice agents)

def createSession (options : Options σ) (choice : Choice σ) (world : FusilWorld σ) :
    Outcome (FusilWorld σ) :=
  (choice.calm.outcome world).bind fun world =>
    (activateAgents choice world.agents (remember world { world.memory with
      sessionIndex := world.memory.sessionIndex + 1
      useTimeout := options.sessionTimeout })).bind fun world =>
      (newSession choice world).bind fun world =>
        (if world.memory.sessionIndex = 1 then send project .projectStart world
          else .returned world).bind (send project .sessionStart)

/-! The handlers and `live` of the application agents and of the sessions. -/

variable [LE σ] [DecidableLE σ]

/-- The two limits of `on_project_session_destroy`, from the state before it. -/
def atLimit (options : Options σ) (memory : Memory σ) (score : σ) : Bool :=
  decide (options.successScore ≤ score ∧ 0 < options.maxSuccess ∧
      options.maxSuccess ≤ memory.nbSuccess + 1) ||
    decide (0 < options.maxSession ∧ options.maxSession ≤ memory.sessionIndex)

def countSuccess (options : Options σ) (score : σ) (world : FusilWorld σ) : FusilWorld σ :=
  if options.successScore ≤ score then
    remember world { world.memory with nbSuccess := world.memory.nbSuccess + 1 }
  else world

def nextSession (options : Options σ) (choice : Choice σ) (score : σ) (world : FusilWorld σ) :
    Outcome (FusilWorld σ) :=
  if options.successScore ≤ score ∧ 0 < options.maxSuccess ∧
      options.maxSuccess ≤ world.memory.nbSuccess then
    send project .universStop world
  else if 0 < options.maxSession ∧ options.maxSession ≤ world.memory.sessionIndex then
    send project .universStop world
  else createSession options choice world

/-- Without a session, `self.session.score = session_score` raises. -/
def onProjectSessionDestroy (options : Options σ) (choice : Choice σ) (score : σ)
    (world : FusilWorld σ) : Outcome (FusilWorld σ) :=
  match world.memory.session with
  | none => .raised world
  | some _ =>
      (destroySession choice world).bind fun world =>
        nextSession options choice score (countSuccess options score world)

def onProjectUniversStop (choice : Choice σ) (world : FusilWorld σ) : Outcome (FusilWorld σ) :=
  (if world.memory.session.isSome then destroySession choice world else .returned world).bind
    fun world => .returned (log world .projectStopped)

def projectHandle (options : Options σ) (choice : Choice σ) (world : FusilWorld σ) :
    Message σ → Outcome (FusilWorld σ)
  | .sessionDone score => send project (.projectSessionDestroy score) world
  | .projectStop => send project .universStop world
  | .universStop => onProjectUniversStop choice world
  | .projectSessionDestroy score => onProjectSessionDestroy options choice score world
  | _ => .returned world

def projectLive (choice : Choice σ) (world : FusilWorld σ) : Outcome (FusilWorld σ) :=
  if world.memory.session.isSome ∧ world.memory.useTimeout = true ∧ choice.timedOut = true then
    (send project .sessionStop world).bind fun world =>
      .returned (remember world { world.memory with useTimeout := false })
  else .returned world

def onSessionStop (options : Options σ) (choice : Choice σ) (session : AgentId)
    (world : FusilWorld σ) : Outcome (FusilWorld σ) :=
  if world.memory.stopped session then .returned world
  else
    (choice.ending.outcome (remember world { world.memory with
      stopped := Function.update world.memory.stopped session true })).bind fun world =>
      (if options.successScore ≤ choice.score then send session .sessionSuccess world
        else .returned world).bind (send session (.sessionDone choice.score))

def sessionLive (options : Options σ) (choice : Choice σ) (session : AgentId)
    (world : FusilWorld σ) : Outcome (FusilWorld σ) :=
  if world.memory.stopped session then .returned world
  else
    (choice.ending.outcome world).bind fun world =>
      if options.successScore ≤ choice.score ∨ choice.score ≤ options.errorScore then
        send session .sessionStop world
      else .returned world

/-- One call: `none` stands for `live`. -/
def call (options : Options σ) (choice : Choice σ) (agent : AgentId)
    (message : Option (Message σ)) (world : FusilWorld σ) : Outcome (FusilWorld σ) :=
  if agent = mta then .returned { world with mas := world.mas.live Message.event }
  else if agent = univers then
    .returned (if message.isSome then { world with isDone := true } else world)
  else if agent = application then
    if message.isSome then send application .universStop world else .returned world
  else if agent = project then
    match message with
    | none => projectLive choice world
    | some message => projectHandle options choice world message
  else if agent ∈ world.memory.sessions then
    if message.isSome then onSessionStop options choice agent world
    else sessionLive options choice agent world
  else (actAll agent choice.acts world).bind choice.ending.outcome

/-- `getattr` finds the handlers that `getEvents` found when the mailbox was made. -/
def hasHandler (world : FusilWorld σ) (agent : AgentId) (message : Message σ) : Bool :=
  match (world.mas.mailbox agent).bind (world.mas.mailboxes[·]?) with
  | none => false
  | some mailbox => decide (message.event ∈ mailbox.events)

end FusilWorld

/-! The application from `createMAS` to the end of `executeProject`. -/

def setUpAgent (mas : Mas Event (Message σ)) (agent : AgentId) (events : List Event)
    (isActive : Bool) : Mas Event (Message σ) :=
  (mas.newMailbox agent events).setActive agent isActive

/-- The agents of `createMAS` and the project. -/
def createMas : Mas Event (Message σ) :=
  let mas := setUpAgent {} mta [] true
  let mas := setUpAgent mas univers [.universStop] true
  let mas := setUpAgent mas application [.applicationInterrupt, .applicationError] true
  setUpAgent mas project [.sessionDone, .projectStop, .universStop, .projectSessionDestroy] false

def setUpOther (world : FusilWorld σ) (other : List Event × Bool) : FusilWorld σ :=
  { world with
    mas := setUpAgent world.mas world.memory.nextAgent other.1 other.2
    agents := world.agents ++ [world.memory.nextAgent]
    memory := { world.memory with nextAgent := world.memory.nextAgent + 1 } }

/-- `others` are the agents of the project, in the order of their creation, with their events
and whether they are active yet. -/
def setUp (others : List (List Event × Bool)) : FusilWorld σ :=
  others.foldl setUpOther
    { mas := createMas, agents := applicationAgents, memory := { nextAgent := project + 1 } }

section

variable [LE σ] [DecidableLE σ]

/-- `self.project.activate()`. -/
def activateProject (options : Options σ) (choice : Choice σ) (world : FusilWorld σ) :
    Outcome (FusilWorld σ) :=
  (FusilWorld.activate project world).bind (FusilWorld.createSession options choice)

abbrev FusilUnivers (σ : Type) := Univers Event (Message σ) (Memory σ)

/-- The call the univers is about to make. -/
def reaction (options : Options σ) (choice : Choice σ) (univers : FusilUnivers σ) :
    Reaction Event (Message σ) (Memory σ) :=
  match univers.turn with
  | .reading _ agent (message :: _) => FusilWorld.call options choice agent (some message)
  | .reading _ agent [] => FusilWorld.call options choice agent none
  | .next _ | .stopped => .returned

def fusilStep (options : Options σ) (univers : FusilUnivers σ) (choice : Choice σ) :
    FusilUnivers σ :=
  univers.step FusilWorld.hasHandler (reaction options choice univers)

end

end Segvault.Fusil
