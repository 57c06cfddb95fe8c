import Segvault.Fusil.Mta

namespace Segvault.Fusil

/-! What the agents and the collector can do to the mail, in any order. -/

inductive MasAction (ε μ : Type)
  | newMailbox (agent : AgentId) (events : List ε)
  | register (box : MailboxId) (event : ε)
  | unregister (box : MailboxId) (event : ε)
  | send (sender : AgentId) (message : μ)
  | live
  | popMessages (box : MailboxId)
  | activate (agent : AgentId)
  | deactivate (agent : AgentId)
  | collectAgent (agent : AgentId)
  | collectMailbox (box : MailboxId)
  | clear
  | clearMailbox (box : MailboxId)

variable {ε μ : Type} [DecidableEq ε]

namespace Mas

/-- A call that raises leaves everything as it was. -/
def perform (event : μ → ε) (mas : Mas ε μ) : MasAction ε μ → Mas ε μ
  | .newMailbox agent events => mas.newMailbox agent events
  | .register box event => if mas.mailboxAlive box then mas.registerMailingList box event else mas
  | .unregister box event => mas.unregisterMailingList box event
  | .send sender message => (mas.send sender message).getD mas
  | .live => mas.live event
  | .popMessages box => (mas.popMessages box).2
  | .activate agent => (mas.activate agent).getD mas
  | .deactivate agent => mas.deactivate agent
  | .collectAgent agent =>
      { mas with agentCollected := Function.update mas.agentCollected agent true }
  | .collectMailbox box =>
      { mas with
        mailboxes := mas.mailboxes.modify box fun mailbox => { mailbox with collected := true } }
  | .clear => mas.clear
  | .clearMailbox box => mas.clearMailbox box

/-- No message is waiting where something is cleared. -/
def Undisturbed (mas : Mas ε μ) : MasAction ε μ → Prop
  | .clear => mas.queue = []
  | .clearMailbox box => mas.contents box = []
  | .activate agent => mas.isActive agent = true ∨ ∀ box ∈ mas.mailbox agent, mas.contents box = []
  | _ => True

instance (mas : Mas ε μ) : DecidablePred mas.Undisturbed
  | .clear => inferInstanceAs (Decidable (mas.queue = []))
  | .clearMailbox box => inferInstanceAs (Decidable (mas.contents box = []))
  | .activate agent =>
      inferInstanceAs (Decidable (mas.isActive agent = true ∨
        ∀ box ∈ mas.mailbox agent, mas.contents box = []))
  | .newMailbox .. | .register .. | .unregister .. | .send .. | .live | .popMessages _
  | .deactivate _ | .collectAgent _ | .collectMailbox _ => isTrue trivial

end Mas

/-- The lists are left alone, and no mailbox comes back to life. -/
structure Mas.SameLists (before after : Mas ε μ) : Prop where
  mailingList : after.mailingList = before.mailingList
  boxes : after.mailboxes.length = before.mailboxes.length
  alive : ∀ box, after.mailboxAlive box = true → before.mailboxAlive box = true

namespace Mas

omit [DecidableEq ε] in
theorem SameLists.refl (mas : Mas ε μ) : SameLists mas mas := ⟨rfl, rfl, fun _ => id⟩

omit [DecidableEq ε] in
theorem sameLists_setMessages (mas : Mas ε μ) (box : MailboxId) (messages : List μ) :
    SameLists mas (mas.setMessages box messages) where
  mailingList := rfl
  boxes := List.length_modify ..
  alive other := by
    rw [mailboxAlive_of_same (owners_setMessages mas box messages)]
    exact id

omit [DecidableEq ε] in
theorem sameLists_collected (mas : Mas ε μ) (box : MailboxId) :
    SameLists mas { mas with
      mailboxes := mas.mailboxes.modify box fun mailbox => { mailbox with collected := true } } where
  mailingList := rfl
  boxes := List.length_modify ..
  alive other alive := by
    simp only [mailboxAlive, List.getElem?_modify] at alive ⊢
    cases found : mas.mailboxes[other]? with
    | none => simp [found] at alive
    | some mailbox => by_cases same : box = other <;> simp_all

end Mas

/-! The purpose of the agent system's mail: what has been sent since the last delivery waits,
and a delivery hands all of it, in order, to who is registered and active by then. -/

structure Courier (ε μ : Type) where
  pending : List μ := []
  registered : MailboxId → ε → Bool := fun _ _ => false
  delivered : MailboxId → List μ := fun _ => []

namespace Courier

def register (courier : Courier ε μ) (box : MailboxId) (events : List ε) : Courier ε μ :=
  { courier with
    registered := fun other event =>
      courier.registered other event || decide (other = box ∧ event ∈ events) }

def perform (event : μ → ε) (mas : Mas ε μ) (courier : Courier ε μ) :
    MasAction ε μ → Courier ε μ
  | .newMailbox _ events => courier.register mas.mailboxes.length events
  | .register box event => if mas.mailboxAlive box then courier.register box [event] else courier
  | .send sender message =>
      if mas.isActive sender then { courier with pending := courier.pending ++ [message] }
      else courier
  | .live =>
      { courier with
        pending := []
        delivered := fun box => courier.delivered box ++ courier.pending.filter fun message =>
          mas.accepts box && courier.registered box (event message) }
  | _ => courier

end Courier

/-! A run of the mail beside its purpose, with what was read from each mailbox so far. -/

structure MailRun (ε μ : Type) where
  mas : Mas ε μ := {}
  courier : Courier ε μ := {}
  read : MailboxId → List μ := fun _ => []

namespace MailRun

def step (event : μ → ε) (mail : MailRun ε μ) (action : MasAction ε μ) : MailRun ε μ where
  mas := mail.mas.perform event action
  courier := mail.courier.perform event mail.mas action
  read :=
    match action with
    | .popMessages box =>
        Function.update mail.read box (mail.read box ++ (mail.mas.popMessages box).1)
    | _ => mail.read

structure Kept (mail : MailRun ε μ) : Prop where
  nodup : mail.mas.Listed
  queue : mail.mas.queue = mail.courier.pending
  bound : ∀ box event, box ∈ mail.mas.listed event → box < mail.mas.mailboxes.length
  known : ∀ box event, mail.courier.registered box event = true →
    box < mail.mas.mailboxes.length
  registered : ∀ box event, mail.mas.mailboxAlive box = true →
    (box ∈ mail.mas.listed event ↔ mail.courier.registered box event = true)
  read : ∀ box, mail.read box ++ mail.mas.contents box = mail.courier.delivered box

omit [DecidableEq ε] in
theorem kept_start : ({} : MailRun ε μ).Kept where
  nodup _ := List.nodup_nil
  queue := rfl
  bound _ _ member := (List.not_mem_nil member).elim
  known _ _ registered := (Bool.false_ne_true registered).elim
  registered _ _ alive := (Bool.false_ne_true alive).elim
  read _ := rfl

omit [DecidableEq ε] in
/-- The agents may change, and messages may be added to a queue: nothing else is asked. -/
theorem Kept.same {mail other : MailRun ε μ} (kept : mail.Kept)
    (queue : other.mas.queue = other.courier.pending)
    (lists : Mas.SameLists mail.mas other.mas)
    (registered : other.courier.registered = mail.courier.registered)
    (read : ∀ box, other.read box ++ other.mas.contents box = other.courier.delivered box) :
    other.Kept where
  nodup event := by
    rw [Mas.listed, lists.mailingList]
    exact kept.nodup event
  queue := queue
  bound box event := by
    rw [Mas.listed, lists.mailingList, lists.boxes]
    exact kept.bound box event
  known box event := by
    rw [registered, lists.boxes]
    exact kept.known box event
  registered box event still := by
    rw [Mas.listed, lists.mailingList, registered]
    exact kept.registered box event (lists.alive box still)
  read := read

omit [DecidableEq ε] in
theorem Kept.cleared {mail : MailRun ε μ} (kept : mail.Kept) {box : MailboxId}
    (empty : mail.mas.contents box = []) {isActive : AgentId → Bool} :
    ({ mail with mas := { mail.mas.clearMailbox box with isActive } } : MailRun ε μ).Kept := by
  have lists := Mas.sameLists_setMessages mail.mas box []
  refine kept.same kept.queue ⟨lists.mailingList, lists.boxes, lists.alive⟩ rfl fun other => ?_
  refine Eq.trans ?_ (kept.read other)
  refine congrArg (mail.read other ++ ·)
    ((Mas.contents_setMessages mail.mas box other []).trans ?_)
  split
  · rename_i same
    rw [same.1, empty]
  · rfl

omit [DecidableEq ε] in
theorem Kept.collected {mail : MailRun ε μ} (kept : mail.Kept) (box : MailboxId) :
    ({ mail with mas := { mail.mas with
        mailboxes := mail.mas.mailboxes.modify box fun mailbox =>
          { mailbox with collected := true } } } : MailRun ε μ).Kept := by
  refine kept.same kept.queue (Mas.sameLists_collected mail.mas box) rfl fun other => ?_
  refine Eq.trans ?_ (kept.read other)
  refine congrArg (mail.read other ++ ·) ?_
  simp only [Mas.contents, List.getElem?_modify]
  cases mail.mas.mailboxes[other]? with
  | none => rfl
  | some mailbox => by_cases same : box = other <;> simp [same]

/-- Mailboxes are enrolled in the mailing lists as they are registered. -/
theorem Kept.enrolled {mail : MailRun ε μ} (kept : mail.Kept) {box : MailboxId} {events : List ε}
    {after : Mas ε μ} (bound : box < mail.mas.mailboxes.length)
    (enrolled : Mas.Enrolled box events mail.mas after) :
    ({ mail with mas := after, courier := mail.courier.register box events } :
      MailRun ε μ).Kept := by
  have boxes := enrolled.mailboxes
  refine ⟨enrolled.nodup kept.nodup, enrolled.queue.trans kept.queue, fun other event member => ?_,
    fun other event registered => ?_, fun other event alive => ?_, fun other => ?_⟩
  · rw [boxes]
    obtain former | ⟨rfl, -⟩ := (enrolled.listed other event).mp member
    · exact kept.bound other event former
    · exact bound
  · rw [boxes]
    simp only [Courier.register, Bool.or_eq_true, decide_eq_true_eq] at registered
    obtain former | ⟨rfl, -⟩ := registered
    · exact kept.known other event former
    · exact bound
  · have was : mail.mas.mailboxAlive other = true := by
      rwa [Mas.mailboxAlive, boxes] at alive
    rw [enrolled.listed, kept.registered other event was]
    simp only [Courier.register, Bool.or_eq_true, decide_eq_true_eq]
  · have held : after.contents other = mail.mas.contents other := by
      rw [Mas.contents, boxes, Mas.contents]
    rw [held]
    exact kept.read other

omit [DecidableEq ε] in
/-- A new mailbox is on no mailing list yet. -/
theorem Kept.appended {mail : MailRun ε μ} (kept : mail.Kept) (agent : AgentId)
    (events : List ε) :
    ({ mail with mas := { mail.mas with
        mailboxes := mail.mas.mailboxes ++ [{ agent, events }]
        mailbox := Function.update mail.mas.mailbox agent (some mail.mas.mailboxes.length) } } :
      MailRun ε μ).Kept where
  nodup := kept.nodup
  queue := kept.queue
  bound box event member := by
    rw [List.length_append]
    exact Nat.lt_add_right _ (kept.bound box event member)
  known box event registered := by
    rw [List.length_append]
    exact Nat.lt_add_right _ (kept.known box event registered)
  registered box event alive := by
    by_cases old : box < mail.mas.mailboxes.length
    · refine kept.registered box event ?_
      simpa only [Mas.mailboxAlive, List.getElem?_append_left old] using alive
    · exact ⟨fun member => absurd (kept.bound box event member) old,
        fun registered => absurd (kept.known box event registered) old⟩
  read box := by
    rw [← kept.read box]
    congr 1
    simp only [Mas.contents, List.getElem?_append]
    split
    · rfl
    · rename_i new
      rw [List.getElem?_eq_none (Nat.le_of_not_lt new)]
      cases box - mail.mas.mailboxes.length <;> rfl

theorem Kept.newMailbox {mail : MailRun ε μ} (kept : mail.Kept) (event : μ → ε)
    (agent : AgentId) (events : List ε) : (mail.step event (.newMailbox agent events)).Kept :=
  (kept.appended agent events).enrolled (by simp) (Mas.enrolled_foldl _ _ events)

theorem Kept.live {mail : MailRun ε μ} (kept : mail.Kept) (event : μ → ε) :
    (mail.step event .live).Kept := by
  have delivered := Mas.delivered_foldl event kept.nodup mail.mas.queue
  have boxes : (mail.mas.live event).mailboxes.length = mail.mas.mailboxes.length :=
    Mas.length_of_same delivered.owners
  refine ⟨delivered.nodup, rfl, fun box name member => ?_, fun box name registered => ?_,
    fun box name alive => ?_, fun box => ?_⟩
  · exact lt_of_lt_of_eq (kept.bound box name (delivered.fewer box name member)) boxes.symm
  · exact boxes ▸ kept.known box name registered
  · have was := (Mas.mailboxAlive_of_same delivered.owners box).symm.trans alive
    exact (delivered.listed box name was).trans (kept.registered box name was)
  · refine (congrArg (mail.read box ++ ·) (Mas.contents_live kept.nodup box)).trans ?_
    rw [← List.append_assoc, kept.read, kept.queue]
    refine congrArg (mail.courier.delivered box ++ ·) (List.filter_congr fun message _ => ?_)
    simp only [Mas.receives]
    by_cases accepted : mail.mas.accepts box = true
    · have listed := kept.registered box (event message) (Mas.mailboxAlive_of_accepts accepted)
      rw [accepted, Bool.true_and, Bool.true_and, Bool.eq_iff_iff, decide_eq_true_eq]
      exact listed
    · simp [accepted]

theorem Kept.step {mail : MailRun ε μ} (kept : mail.Kept) {event : μ → ε}
    {action : MasAction ε μ} (undisturbed : mail.mas.Undisturbed action) :
    (mail.step event action).Kept := by
  cases action with
  | newMailbox agent events => exact kept.newMailbox event agent events
  | live => exact kept.live event
  | register box name =>
      simp only [MailRun.step, Mas.perform, Courier.perform]
      split
      · rename_i alive
        exact kept.enrolled (Mas.lt_of_mailboxAlive alive)
          (Mas.enrolled_registerMailingList mail.mas box name)
      · exact kept
  | unregister box name =>
      simp only [MailRun.step, Mas.perform, Courier.perform, Mas.unregisterMailingList_eq]
      exact kept
  | send sender message =>
      simp only [MailRun.step, Mas.perform, Courier.perform, Mas.send]
      split
      · exact kept.same (congrArg (· ++ [message]) kept.queue) ⟨rfl, rfl, fun _ => id⟩ rfl
          kept.read
      · exact kept
  | popMessages box =>
      refine kept.same kept.queue (Mas.sameLists_setMessages mail.mas box []) rfl fun other => ?_
      refine Eq.trans ?_ (kept.read other)
      simp only [MailRun.step, Mas.perform, Mas.popMessages, Function.update_apply,
        Mas.contents_setMessages]
      by_cases same : other = box
      · subst same
        by_cases bound : other < mail.mas.mailboxes.length
        · simp [bound]
        · simp [bound, Mas.contents]
      · simp [same]
  | activate agent =>
      simp only [MailRun.step, Mas.perform, Courier.perform, Mas.activate]
      split
      · exact kept
      · rename_i inactive
        cases found : mail.mas.mailbox agent with
        | none => exact kept
        | some box =>
            have empty : mail.mas.contents box = [] :=
              (undisturbed.resolve_left inactive) box found
            exact kept.cleared empty
  | deactivate agent =>
      simp only [MailRun.step, Mas.perform, Courier.perform, Mas.deactivate]
      split
      · exact kept.same kept.queue ⟨rfl, rfl, fun _ => id⟩ rfl kept.read
      · exact kept
  | collectAgent agent => exact kept.same kept.queue ⟨rfl, rfl, fun _ => id⟩ rfl kept.read
  | collectMailbox box => exact kept.collected box
  | clear =>
      exact kept.same (Eq.trans undisturbed.symm kept.queue) ⟨rfl, rfl, fun _ => id⟩ rfl kept.read
  | clearMailbox box => exact kept.cleared undisturbed

theorem kept_run (event : μ → ε) {history : List (MasAction ε μ)}
    (undisturbed : Transition.Guarded (MailRun.step event)
      (fun mail => mail.mas.Undisturbed) {} history) :
    (Transition.run (MailRun.step event) {} history).Kept :=
  undisturbed.invariant Kept (fun _ _ kept undisturbed => kept.step undisturbed) kept_start

end MailRun

end Segvault.Fusil
