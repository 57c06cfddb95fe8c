import Mathlib.Data.List.Nodup
import Segvault.Transition

namespace Segvault.Fusil

/-! The agents, their mailboxes and the transfer agent: `fusil/mas/{agent,mailbox,mta}.py`. -/

abbrev AgentId := Nat
abbrev MailboxId := Nat

/-- `agent` is a weak reference; `collected` says that the mailbox itself is gone. -/
structure Mailbox (ε μ : Type) where
  agent : AgentId
  events : List ε
  messages : List μ := []
  collected : Bool := false

/-- The mailing lists hold weak references: a mailbox is named there by its place. -/
structure Mas (ε μ : Type) where
  isActive : AgentId → Bool := fun _ => false
  agentCollected : AgentId → Bool := fun _ => false
  mailbox : AgentId → Option MailboxId := fun _ => none
  mailboxes : List (Mailbox ε μ) := []
  mailingList : ε → Option (List MailboxId) := fun _ => none
  queue : List μ := []

variable {ε μ : Type}

namespace Mas

section

variable [DecidableEq ε]

/-! `MTA`. -/

def registerMailingList (mas : Mas ε μ) (box : MailboxId) (event : ε) : Mas ε μ :=
  match mas.mailingList event with
  | none => { mas with mailingList := Function.update mas.mailingList event (some [box]) }
  | some refs =>
      if box ∉ refs then
        { mas with mailingList := Function.update mas.mailingList event (some (refs ++ [box])) }
      else mas

/-- What `in` compares: a weak reference is not the mailbox it leads to. -/
inductive Reference
  | weak (box : MailboxId)
  | strong (box : MailboxId)
  deriving DecidableEq

/-- The list holds weak references and is searched for the mailbox itself. -/
def unregisterMailingList (mas : Mas ε μ) (box : MailboxId) (event : ε) : Mas ε μ :=
  match mas.mailingList event with
  | none => mas
  | some refs =>
      if Reference.strong box ∉ refs.map Reference.weak then mas
      else { mas with
        mailingList := Function.update mas.mailingList event (some (refs.erase box)) }

def clear (mas : Mas ε μ) : Mas ε μ := { mas with queue := [] }

def deliver (mas : Mas ε μ) (message : μ) : Mas ε μ :=
  { mas with queue := mas.queue ++ [message] }

/-! `Mailbox`. -/

def contents (mas : Mas ε μ) (box : MailboxId) : List μ :=
  (mas.mailboxes[box]?.map Mailbox.messages).getD []

def setMessages (mas : Mas ε μ) (box : MailboxId) (messages : List μ) : Mas ε μ :=
  { mas with mailboxes := mas.mailboxes.modify box fun mailbox => { mailbox with messages } }

/-- `Mailbox.__init__`, with `agent.mailbox` set to the new mailbox. -/
def newMailbox (mas : Mas ε μ) (agent : AgentId) (events : List ε) : Mas ε μ :=
  let box := mas.mailboxes.length
  events.foldl (fun mas event => mas.registerMailingList box event)
    { mas with
      mailboxes := mas.mailboxes ++ [{ agent, events }]
      mailbox := Function.update mas.mailbox agent (some box) }

def unregister (mas : Mas ε μ) (box : MailboxId) : Mas ε μ :=
  match mas.mailboxes[box]? with
  | none => mas
  | some mailbox =>
      mailbox.events.foldl (fun mas event => mas.unregisterMailingList box event) mas

def clearMailbox (mas : Mas ε μ) (box : MailboxId) : Mas ε μ := mas.setMessages box []

def deliverMailbox (mas : Mas ε μ) (box : MailboxId) (message : μ) : Mas ε μ :=
  match mas.mailboxes[box]? with
  | none => mas
  | some mailbox =>
      if mas.agentCollected mailbox.agent then mas.unregister box
      else if !mas.isActive mailbox.agent then mas
      else mas.setMessages box (mailbox.messages ++ [message])

def popMessages (mas : Mas ε μ) (box : MailboxId) : List μ × Mas ε μ :=
  (mas.contents box, mas.setMessages box [])

/-- Whether a weak reference still leads to its mailbox. -/
def mailboxAlive (mas : Mas ε μ) (box : MailboxId) : Bool :=
  match mas.mailboxes[box]? with
  | none => false
  | some mailbox => !mailbox.collected

/-! `MTA.live`: the inner loop gathers the broken references, which then go. -/

def deliverRefs (message : μ) : List MailboxId → List MailboxId → Mas ε μ →
    List MailboxId × Mas ε μ
  | [], brokenRefs, mas => (brokenRefs, mas)
  | box :: refs, brokenRefs, mas =>
      if mas.mailboxAlive box then
        deliverRefs message refs brokenRefs (mas.deliverMailbox box message)
      else deliverRefs message refs (brokenRefs ++ [box]) mas

def deliverMessage (event : μ → ε) (mas : Mas ε μ) (message : μ) : Mas ε μ :=
  match mas.mailingList (event message) with
  | none => mas
  | some refs =>
      let (brokenRefs, mas) := deliverRefs message refs [] mas
      { mas with
        mailingList :=
          Function.update mas.mailingList (event message)
            (some (brokenRefs.foldl List.erase refs)) }

def live (event : μ → ε) (mas : Mas ε μ) : Mas ε μ :=
  (mas.queue.foldl (deliverMessage event) mas).clear

/-! `Agent`: `none` is `AgentError`, or the missing mailbox of an agent without MTA. -/

def send (mas : Mas ε μ) (sender : AgentId) (message : μ) : Option (Mas ε μ) :=
  if mas.isActive sender then some (mas.deliver message) else none

def setActive (mas : Mas ε μ) (agent : AgentId) (isActive : Bool) : Mas ε μ :=
  { mas with isActive := Function.update mas.isActive agent isActive }

/-- `activate` up to its call of `init`. -/
def activate (mas : Mas ε μ) (agent : AgentId) : Option (Mas ε μ) :=
  if mas.isActive agent then none
  else (mas.mailbox agent).map fun box => (mas.clearMailbox box).setActive agent true

/-- `deactivate` up to its call of `deinit`. -/
def deactivate (mas : Mas ε μ) (agent : AgentId) : Mas ε μ :=
  if mas.isActive agent then mas.setActive agent false else mas

end

/-! Which mailboxes and agents there are, and who is active: what deliveries do not change. -/

def owners (mas : Mas ε μ) : Mas ε μ :=
  { mas with
    mailboxes := mas.mailboxes.map fun mailbox => { mailbox with messages := [] }
    mailingList := fun _ => none
    queue := [] }

def listed (mas : Mas ε μ) (event : ε) : List MailboxId := (mas.mailingList event).getD []

/-- The mailbox exists, and its owner too and is active. -/
def accepts (mas : Mas ε μ) (box : MailboxId) : Bool :=
  match mas.mailboxes[box]? with
  | none => false
  | some mailbox =>
      !mailbox.collected && (!mas.agentCollected mailbox.agent && mas.isActive mailbox.agent)

def receives (event : μ → ε) (mas : Mas ε μ) (box : MailboxId) (message : μ) : Bool :=
  mas.accepts box && decide (box ∈ mas.listed (event message))

theorem accepts_owners (mas : Mas ε μ) (box : MailboxId) :
    mas.owners.accepts box = mas.accepts box := by
  simp only [accepts, owners, List.getElem?_map]
  cases mas.mailboxes[box]? <;> rfl

theorem accepts_of_same {mas other : Mas ε μ} (same : other.owners = mas.owners)
    (box : MailboxId) : other.accepts box = mas.accepts box := by
  rw [← accepts_owners, same, accepts_owners]

theorem isActive_of_same {mas other : Mas ε μ} (same : other.owners = mas.owners) :
    other.isActive = mas.isActive := by
  have flags := congrArg Mas.isActive same
  exact flags

theorem agentCollected_of_same {mas other : Mas ε μ} (same : other.owners = mas.owners) :
    other.agentCollected = mas.agentCollected := by
  have flags := congrArg Mas.agentCollected same
  exact flags

theorem mailbox_of_same {mas other : Mas ε μ} (same : other.owners = mas.owners) :
    other.mailbox = mas.mailbox := by
  have boxes := congrArg Mas.mailbox same
  exact boxes

theorem length_of_same {mas other : Mas ε μ} (same : other.owners = mas.owners) :
    other.mailboxes.length = mas.mailboxes.length := by
  have lengths := congrArg (fun mas => mas.mailboxes.length) same
  simp only [Mas.owners, List.length_map] at lengths
  exact lengths

theorem mailboxAlive_owners (mas : Mas ε μ) (box : MailboxId) :
    mas.owners.mailboxAlive box = mas.mailboxAlive box := by
  simp only [mailboxAlive, owners, List.getElem?_map]
  cases mas.mailboxes[box]? <;> rfl

theorem mailboxAlive_of_same {mas other : Mas ε μ} (same : other.owners = mas.owners)
    (box : MailboxId) : other.mailboxAlive box = mas.mailboxAlive box := by
  rw [← mailboxAlive_owners, same, mailboxAlive_owners]

theorem mailboxAlive_of_accepts {mas : Mas ε μ} {box : MailboxId}
    (accepts : mas.accepts box = true) : mas.mailboxAlive box = true := by
  cases found : mas.mailboxes[box]? with
  | none => simp [Mas.accepts, found] at accepts
  | some mailbox =>
      simp only [Mas.accepts, found, Bool.and_eq_true] at accepts
      simpa only [mailboxAlive, found] using accepts.1

theorem lt_of_mailboxAlive {mas : Mas ε μ} {box : MailboxId}
    (alive : mas.mailboxAlive box = true) : box < mas.mailboxes.length := by
  by_contra outside
  rw [mailboxAlive, List.getElem?_eq_none (Nat.le_of_not_lt outside)] at alive
  exact Bool.false_ne_true alive

theorem lt_of_accepts {mas : Mas ε μ} {box : MailboxId} (accepts : mas.accepts box = true) :
    box < mas.mailboxes.length :=
  lt_of_mailboxAlive (mailboxAlive_of_accepts accepts)

theorem contents_setMessages (mas : Mas ε μ) (box other : MailboxId) (messages : List μ) :
    (mas.setMessages box messages).contents other =
      if other = box ∧ box < mas.mailboxes.length then messages else mas.contents other := by
  simp only [contents, setMessages, List.getElem?_modify]
  by_cases same : box = other
  · subst same
    by_cases bound : box < mas.mailboxes.length
    · simp [bound]
    · simp [bound]
  · have differs : ¬ other = box := fun equal => same equal.symm
    simp [same, differs]

@[simp] theorem owners_setMessages (mas : Mas ε μ) (box : MailboxId) (messages : List μ) :
    (mas.setMessages box messages).owners = mas.owners := by
  simp only [setMessages, owners]
  congr 1
  refine List.ext_getElem? fun place => ?_
  simp only [List.getElem?_map, List.getElem?_modify]
  cases mas.mailboxes[place]? with
  | none => rfl
  | some mailbox => by_cases same : box = place <;> simp [same]

/-! What is known of one mailbox but its messages. -/

def kind (mas : Mas ε μ) (box : MailboxId) : Option (AgentId × List ε × Bool) :=
  mas.mailboxes[box]?.map fun mailbox => (mailbox.agent, mailbox.events, mailbox.collected)

theorem kind_owners (mas : Mas ε μ) (box : MailboxId) : mas.owners.kind box = mas.kind box := by
  simp only [kind, owners, List.getElem?_map, Option.map_map]
  rfl

theorem kind_of_same {mas other : Mas ε μ} (same : other.owners = mas.owners)
    (box : MailboxId) : other.kind box = mas.kind box := by
  rw [← kind_owners, same, kind_owners]

theorem accepts_of_kind {mas : Mas ε μ} {box : MailboxId} {agent : AgentId} {events : List ε}
    (kind : mas.kind box = some (agent, events, false))
    (present : mas.agentCollected agent = false) (active : mas.isActive agent = true) :
    mas.accepts box = true := by
  obtain ⟨mailbox, found, same⟩ := Option.map_eq_some_iff.mp kind
  simp only [Prod.mk.injEq] at same
  obtain ⟨owner, -, collected⟩ := same
  simp only [accepts, found, owner, collected, present, active, Bool.not_false, Bool.and_self]

/-- No mailbox is twice on a mailing list. -/
def Listed (mas : Mas ε μ) : Prop := ∀ event, (mas.listed event).Nodup

/-- What the delivery of some messages does. -/
structure Delivered (event : μ → ε) (messages : List μ) (before after : Mas ε μ) : Prop where
  owners : after.owners = before.owners
  queue : after.queue = before.queue
  fewer : ∀ box other, box ∈ after.listed other → box ∈ before.listed other
  listed : ∀ box other, before.mailboxAlive box = true →
    (box ∈ after.listed other ↔ box ∈ before.listed other)
  nodup : after.Listed
  contents : ∀ box, after.contents box =
    before.contents box ++ messages.filter (before.receives event box)

variable {event : μ → ε}

theorem Delivered.receives {messages : List μ} {before after : Mas ε μ}
    (delivered : Delivered event messages before after) (box : MailboxId) :
    after.receives event box = before.receives event box := by
  funext message
  simp only [Mas.receives, accepts_of_same delivered.owners]
  by_cases accepted : before.accepts box = true
  · have kept := delivered.listed box (event message) (mailboxAlive_of_accepts accepted)
    rw [decide_eq_decide.mpr kept]
  · simp [accepted]

theorem Delivered.trans {first second : List μ} {before middle after : Mas ε μ}
    (former : Delivered event first before middle)
    (latter : Delivered event second middle after) :
    Delivered event (first ++ second) before after where
  owners := latter.owners.trans former.owners
  queue := latter.queue.trans former.queue
  fewer box other member := former.fewer box other (latter.fewer box other member)
  listed box other alive :=
    have still : middle.mailboxAlive box = true :=
      (mailboxAlive_of_same former.owners box).trans alive
    (latter.listed box other still).trans (former.listed box other alive)
  nodup := latter.nodup
  contents box := by
    rw [latter.contents, former.contents, former.receives, List.filter_append,
      List.append_assoc]

variable [DecidableEq ε]

/-! Registration. -/

structure Enrolled (box : MailboxId) (events : List ε) (before after : Mas ε μ) : Prop where
  isActive : after.isActive = before.isActive
  agentCollected : after.agentCollected = before.agentCollected
  mailbox : after.mailbox = before.mailbox
  mailboxes : after.mailboxes = before.mailboxes
  queue : after.queue = before.queue
  listed : ∀ other event, other ∈ after.listed event ↔
    other ∈ before.listed event ∨ other = box ∧ event ∈ events
  nodup : before.Listed → after.Listed

theorem enrolled_registerMailingList (mas : Mas ε μ) (box : MailboxId) (event : ε) :
    Enrolled box [event] mas (mas.registerMailingList box event) := by
  unfold registerMailingList
  cases present : mas.mailingList event with
  | none =>
      refine ⟨rfl, rfl, rfl, rfl, rfl, fun other name => ?_, fun nodup name => ?_⟩
      · simp only [listed, Function.update_apply]
        by_cases same : name = event
        · simp [same, present]
        · simp [same]
      · simp only [listed, Function.update_apply]
        split
        · exact List.nodup_singleton box
        · exact nodup name
  | some refs =>
      by_cases already : box ∈ refs
      · simp only [already, not_true_eq_false, if_false]
        refine ⟨rfl, rfl, rfl, rfl, rfl, fun other name => ?_, id⟩
        refine ⟨Or.inl, fun found => found.elim id ?_⟩
        rintro ⟨rfl, named⟩
        simpa [List.mem_singleton.mp named, listed, present] using already
      · simp only [already, not_false_eq_true, if_true]
        refine ⟨rfl, rfl, rfl, rfl, rfl, fun other name => ?_, fun nodup name => ?_⟩
        · simp only [listed, Function.update_apply]
          by_cases same : name = event
          · simp [same, present]
          · simp [same]
        · have fresh := nodup event
          simp only [listed, present, Option.getD_some] at fresh
          simp only [listed, Function.update_apply]
          split
          · refine List.nodup_append.mpr ⟨fresh, List.nodup_singleton box, ?_⟩
            intro kept member other single same
            rw [same, List.mem_singleton.mp single] at member
            exact already member
          · exact nodup name

omit [DecidableEq ε] in
theorem Enrolled.trans {box : MailboxId} {first second : List ε} {before middle after : Mas ε μ}
    (former : Enrolled box first before middle) (latter : Enrolled box second middle after) :
    Enrolled box (first ++ second) before after where
  isActive := latter.isActive.trans former.isActive
  agentCollected := latter.agentCollected.trans former.agentCollected
  mailbox := latter.mailbox.trans former.mailbox
  mailboxes := latter.mailboxes.trans former.mailboxes
  queue := latter.queue.trans former.queue
  listed other event := by
    rw [latter.listed, former.listed, List.mem_append, or_assoc, ← and_or_left]
  nodup nodup := latter.nodup (former.nodup nodup)

theorem enrolled_foldl (mas : Mas ε μ) (box : MailboxId) (events : List ε) :
    Enrolled box events mas
      (events.foldl (fun mas event => mas.registerMailingList box event) mas) := by
  induction events generalizing mas with
  | nil => exact ⟨rfl, rfl, rfl, rfl, rfl, by simp, id⟩
  | cons event events induction =>
      exact (enrolled_registerMailingList mas box event).trans (induction _)

theorem registerMailingList_setActive (mas : Mas ε μ) (box : MailboxId) (event : ε)
    (agent : AgentId) (isActive : Bool) :
    (mas.setActive agent isActive).registerMailingList box event =
      (mas.registerMailingList box event).setActive agent isActive := by
  unfold registerMailingList
  simp only [setActive]
  cases mas.mailingList event with
  | none => rfl
  | some refs => by_cases already : box ∈ refs <;> simp only [already, not_true_eq_false,
      not_false_eq_true, if_true, if_false]

theorem newMailbox_setActive (mas : Mas ε μ) (owner : AgentId) (events : List ε)
    (agent : AgentId) (isActive : Bool) :
    (mas.setActive agent isActive).newMailbox owner events =
      (mas.newMailbox owner events).setActive agent isActive := by
  have registered : ∀ (events : List ε) (box : MailboxId) (mas : Mas ε μ),
      events.foldl (fun mas event => mas.registerMailingList box event)
          (mas.setActive agent isActive) =
        (events.foldl (fun mas event => mas.registerMailingList box event) mas).setActive agent
          isActive := by
    intro events box
    induction events with
    | nil => exact fun _ => rfl
    | cons event events induction =>
        intro mas
        rw [List.foldl_cons, List.foldl_cons, registerMailingList_setActive, induction]
  exact registered events mas.mailboxes.length
    { mas with
      mailboxes := mas.mailboxes ++ [{ agent := owner, events }]
      mailbox := Function.update mas.mailbox owner (some mas.mailboxes.length) }

/-- What a new mailbox changes. -/
structure Opened (agent : AgentId) (events : List ε) (before after : Mas ε μ) : Prop where
  isActive : after.isActive = before.isActive
  agentCollected : after.agentCollected = before.agentCollected
  mailbox : after.mailbox = Function.update before.mailbox agent (some before.mailboxes.length)
  mailboxes : after.mailboxes = before.mailboxes ++ [⟨agent, events, [], false⟩]
  queue : after.queue = before.queue
  nodup : before.Listed → after.Listed
  listed : ∀ box event, box ∈ after.listed event ↔
    box ∈ before.listed event ∨ box = before.mailboxes.length ∧ event ∈ events

theorem opened_newMailbox (mas : Mas ε μ) (agent : AgentId) (events : List ε) :
    Opened agent events mas (mas.newMailbox agent events) := by
  have enrolled : Enrolled mas.mailboxes.length events _ (mas.newMailbox agent events) :=
    enrolled_foldl _ mas.mailboxes.length events
  exact ⟨enrolled.isActive, enrolled.agentCollected, enrolled.mailbox, enrolled.mailboxes,
    enrolled.queue, enrolled.nodup, enrolled.listed⟩

/-! Deliveries. -/

@[simp] theorem unregisterMailingList_eq (mas : Mas ε μ) (box : MailboxId) (event : ε) :
    mas.unregisterMailingList box event = mas := by
  unfold unregisterMailingList
  cases mas.mailingList event with
  | none => rfl
  | some refs =>
      have absent : Reference.strong box ∉ refs.map Reference.weak := by simp
      simp only [absent, not_false_eq_true, if_true]

/-- A mailbox is never found among weak references: `unregister` leaves it registered. -/
@[simp] theorem unregister_eq (mas : Mas ε μ) (box : MailboxId) : mas.unregister box = mas := by
  unfold unregister
  cases mas.mailboxes[box]? with
  | none => rfl
  | some mailbox =>
      simp only [unregisterMailingList_eq]
      induction mailbox.events with
      | nil => rfl
      | cons event events induction => exact induction

theorem deliverMailbox_eq {mas : Mas ε μ} {box : MailboxId} (alive : mas.mailboxAlive box = true)
    (message : μ) :
    mas.deliverMailbox box message =
      if mas.accepts box then mas.setMessages box (mas.contents box ++ [message]) else mas := by
  cases found : mas.mailboxes[box]? with
  | none => simp [mailboxAlive, found] at alive
  | some mailbox =>
      simp only [mailboxAlive, found, Bool.not_eq_true'] at alive
      simp only [deliverMailbox, accepts, contents, found, alive, unregister_eq, Option.map_some,
        Option.getD_some]
      cases mas.agentCollected mailbox.agent <;> cases mas.isActive mailbox.agent <;> rfl

theorem contents_deliverMailbox {mas : Mas ε μ} {box : MailboxId}
    (alive : mas.mailboxAlive box = true) (message : μ) (other : MailboxId) :
    (mas.deliverMailbox box message).contents other =
      mas.contents other ++ if other = box ∧ mas.accepts box then [message] else [] := by
  rw [deliverMailbox_eq alive]
  by_cases accepts : mas.accepts box = true
  · rw [if_pos accepts, contents_setMessages]
    by_cases same : other = box
    · subst same
      simp [lt_of_accepts accepts, accepts]
    · simp [same]
  · simp [accepts]

/-- One mailing list: who is gone from it, and who gets the message. -/
structure Posted (message : μ) (refs : List MailboxId) (before after : Mas ε μ) : Prop where
  owners : after.owners = before.owners
  queue : after.queue = before.queue
  mailingList : after.mailingList = before.mailingList
  contents : ∀ box, after.contents box =
    before.contents box ++ if box ∈ refs ∧ before.accepts box then [message] else []

theorem posted_deliverMailbox {mas : Mas ε μ} {box : MailboxId}
    (alive : mas.mailboxAlive box = true) (message : μ) :
    Posted message [box] mas (mas.deliverMailbox box message) where
  owners := by
    rw [deliverMailbox_eq alive]
    split
    · exact owners_setMessages mas box _
    · rfl
  queue := by
    rw [deliverMailbox_eq alive]
    split <;> rfl
  mailingList := by
    rw [deliverMailbox_eq alive]
    split <;> rfl
  contents other := by
    rw [contents_deliverMailbox alive]
    by_cases same : other = box
    · subst same
      simp
    · simp [same]

omit [DecidableEq ε] in
theorem Posted.cons {message : μ} {box : MailboxId} {refs : List MailboxId}
    {before middle after : Mas ε μ} (fresh : box ∉ refs)
    (first : Posted message [box] before middle) (others : Posted message refs middle after) :
    Posted message (box :: refs) before after where
  owners := others.owners.trans first.owners
  queue := others.queue.trans first.queue
  mailingList := others.mailingList.trans first.mailingList
  contents other := by
    rw [others.contents, first.contents, accepts_of_same first.owners]
    by_cases same : other = box
    · subst same
      simp [fresh]
    · simp [same]

theorem deliverRefs_spec (message : μ) (refs brokenRefs : List MailboxId) (mas : Mas ε μ)
    (nodup : refs.Nodup) :
    (deliverRefs message refs brokenRefs mas).1 =
        brokenRefs ++ refs.filter (fun box => !mas.mailboxAlive box) ∧
      Posted message refs mas (deliverRefs message refs brokenRefs mas).2 := by
  induction refs generalizing brokenRefs mas with
  | nil => exact ⟨(List.append_nil _).symm, ⟨rfl, rfl, rfl, by simp [deliverRefs]⟩⟩
  | cons ref refs induction =>
      obtain ⟨fresh, nodup⟩ := List.nodup_cons.mp nodup
      by_cases alive : mas.mailboxAlive ref = true
      · have first := posted_deliverMailbox alive message
        obtain ⟨broken, others⟩ := induction brokenRefs (mas.deliverMailbox ref message) nodup
        simp only [deliverRefs, alive, if_true]
        refine ⟨?_, first.cons fresh others⟩
        rw [broken]
        simp only [mailboxAlive_of_same first.owners, List.filter_cons, alive, Bool.not_true,
          Bool.false_eq_true, if_false]
      · obtain ⟨broken, others⟩ := induction (brokenRefs ++ [ref]) mas nodup
        have refused : mas.accepts ref = false := by
          by_contra accepts
          exact alive (mailboxAlive_of_accepts (eq_true_of_ne_false accepts))
        have first : Posted message [ref] mas mas := ⟨rfl, rfl, rfl, by simp [refused]⟩
        simp only [deliverRefs, alive, Bool.false_eq_true, if_false]
        refine ⟨?_, first.cons fresh others⟩
        rw [broken]
        simp [alive]

/-! One message and then the whole queue. -/

theorem mem_foldl_erase {dropped refs : List MailboxId} {box : MailboxId}
    (kept : box ∉ dropped) : box ∈ dropped.foldl List.erase refs ↔ box ∈ refs := by
  induction dropped generalizing refs with
  | nil => rfl
  | cons first dropped induction =>
      obtain ⟨differs, kept⟩ := List.ne_and_not_mem_of_not_mem_cons kept
      rw [List.foldl_cons, induction kept, List.mem_erase_of_ne differs]

theorem mem_of_mem_foldl_erase {dropped refs : List MailboxId} {box : MailboxId}
    (member : box ∈ dropped.foldl List.erase refs) : box ∈ refs := by
  induction dropped generalizing refs with
  | nil => exact member
  | cons first dropped induction => exact List.mem_of_mem_erase (induction member)

theorem nodup_foldl_erase (dropped : List MailboxId) {refs : List MailboxId}
    (nodup : refs.Nodup) : (dropped.foldl List.erase refs).Nodup := by
  induction dropped generalizing refs with
  | nil => exact nodup
  | cons first dropped induction => exact induction (nodup.erase first)

theorem delivered_deliverMessage (event : μ → ε) {mas : Mas ε μ} (nodup : mas.Listed)
    (message : μ) :
    Delivered event [message] mas (mas.deliverMessage event message) := by
  cases present : mas.mailingList (event message) with
  | none =>
      have unchanged : mas.deliverMessage event message = mas := by
        simp only [deliverMessage, present]
      rw [unchanged]
      refine ⟨rfl, rfl, fun box other => id, fun box other alive => Iff.rfl, nodup, fun box => ?_⟩
      simp [receives, listed, present]
  | some refs =>
      have refsNodup : refs.Nodup := by
        have listNodup := nodup (event message)
        rwa [listed, present] at listNodup
      obtain ⟨broken, posted⟩ := deliverRefs_spec message refs [] mas refsNodup
      have after : mas.deliverMessage event message =
          { (deliverRefs message refs [] mas).2 with
            mailingList := Function.update (deliverRefs message refs [] mas).2.mailingList
              (event message)
              (some ((deliverRefs message refs [] mas).1.foldl List.erase refs)) } := by
        simp only [deliverMessage, present]
      rw [after]
      refine ⟨posted.owners, posted.queue, fun box other member => ?_, fun box other alive => ?_,
        fun other => ?_, fun box => ?_⟩
      · simp only [listed, posted.mailingList, Function.update_apply] at member
        split at member
        · rename_i equal
          subst equal
          rw [listed, present]
          exact mem_of_mem_foldl_erase member
        · exact member
      · simp only [listed, posted.mailingList, Function.update_apply, broken, List.nil_append]
        split
        · rename_i equal
          subst equal
          rw [Option.getD_some, present, Option.getD_some]
          exact mem_foldl_erase (by simp [alive])
        · rfl
      · simp only [listed, posted.mailingList, Function.update_apply]
        split
        · exact nodup_foldl_erase _ refsNodup
        · exact nodup other
      · refine (posted.contents box).trans ?_
        simp only [receives, listed, present, Option.getD_some, List.filter_cons,
          List.filter_nil, Bool.and_eq_true, decide_eq_true_eq, and_comm]

theorem delivered_foldl (event : μ → ε) {mas : Mas ε μ} (nodup : mas.Listed) (messages : List μ) :
    Delivered event messages mas (messages.foldl (deliverMessage event) mas) := by
  induction messages generalizing mas with
  | nil => exact ⟨rfl, rfl, fun box other => id, fun box other alive => Iff.rfl, nodup, by simp⟩
  | cons message messages induction =>
      have first := delivered_deliverMessage event nodup message
      exact first.trans (induction first.nodup)

theorem contents_live {mas : Mas ε μ} (nodup : mas.Listed) (box : MailboxId) :
    (mas.live event).contents box =
      mas.contents box ++ mas.queue.filter (mas.receives event box) :=
  (delivered_foldl event nodup mas.queue).contents box

end Mas

end Segvault.Fusil
