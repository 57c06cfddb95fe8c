import Segvault.Fusil.Courier

namespace Segvault.Fusil

variable {ε μ : Type}

/-! `Mailbox.unregister` among the other actions, and who has been unregistered since. -/

inductive RegistryAction (ε μ : Type)
  | mail (action : MasAction ε μ)
  | unregister (box : MailboxId)

structure Registry (ε μ : Type) extends MailRun ε μ where
  unregistered : MailboxId → Bool := fun _ => false

section

variable [DecidableEq ε]

namespace Registry

/-- Only a mailbox that still exists can be registered or unregistered. -/
def step (event : μ → ε) (registry : Registry ε μ) : RegistryAction ε μ → Registry ε μ
  | .mail action =>
      { toMailRun := registry.toMailRun.step event action
        unregistered :=
          match action with
          | .newMailbox _ _ =>
              Function.update registry.unregistered registry.mas.mailboxes.length false
          | .register box _ =>
              if registry.mas.mailboxAlive box then
                Function.update registry.unregistered box false
              else registry.unregistered
          | _ => registry.unregistered }
  | .unregister box =>
      if registry.mas.mailboxAlive box then
        { registry with
          mas := registry.mas.unregister box
          unregistered := Function.update registry.unregistered box true }
      else registry

end Registry

/-- No mailing list holds the mailbox, and no delivery reaches it. -/
structure Mas.Forgotten (event : μ → ε) (mas : Mas ε μ) (box : MailboxId) : Prop where
  unlisted : ∀ name, box ∉ mas.listed name
  undelivered : (mas.live event).contents box = mas.contents box

/-- Every mailbox that has been unregistered and not registered again is forgotten, and an
unregistration takes only its own mailbox from the lists. -/
structure Registry.Forgets (event : μ → ε) (registry : Registry ε μ)
    (action : RegistryAction ε μ) : Prop where
  forgotten : ∀ box, (registry.step event action).unregistered box = true →
    (registry.step event action).mas.Forgotten event box
  others : ∀ box, action = .unregister box → ∀ other, other ≠ box → ∀ name,
    (other ∈ (registry.step event action).mas.listed name ↔ other ∈ registry.mas.listed name)

/-- Nobody unregisters a mailbox that some mailing list was ever asked to take. -/
def Registry.NeverRegistered (registry : Registry ε μ) : RegistryAction ε μ → Prop
  | .mail _ => True
  | .unregister box => registry.mas.mailboxAlive box = true →
      ∀ name, registry.courier.registered box name = false

end

/-! What the mailing lists hold, whatever has been cleared. -/

/-- The lists hold what was registered, and all of it that still exists. -/
structure MailRun.Enlisted (mail : MailRun ε μ) : Prop where
  nodup : mail.mas.Listed
  known : ∀ box event, mail.courier.registered box event = true →
    box < mail.mas.mailboxes.length
  named : ∀ box event, box ∈ mail.mas.listed event → mail.courier.registered box event = true
  present : ∀ box event, mail.mas.mailboxAlive box = true →
    mail.courier.registered box event = true → box ∈ mail.mas.listed event

namespace MailRun

theorem enlisted_start : ({} : MailRun ε μ).Enlisted where
  nodup _ := List.nodup_nil
  known _ _ registered := (Bool.false_ne_true registered).elim
  named _ _ member := (List.not_mem_nil member).elim
  present _ _ alive := (Bool.false_ne_true alive).elim

theorem Enlisted.same {mail other : MailRun ε μ} (enlisted : mail.Enlisted)
    (lists : Mas.SameLists mail.mas other.mas)
    (registered : other.courier.registered = mail.courier.registered) : other.Enlisted where
  nodup event := by
    rw [Mas.listed, lists.mailingList]
    exact enlisted.nodup event
  known box event := by
    rw [registered, lists.boxes]
    exact enlisted.known box event
  named box event := by
    rw [Mas.listed, lists.mailingList, registered]
    exact enlisted.named box event
  present box event alive := by
    rw [Mas.listed, lists.mailingList, registered]
    exact enlisted.present box event (lists.alive box alive)

variable [DecidableEq ε]

theorem Enlisted.enrolled {mail : MailRun ε μ} (enlisted : mail.Enlisted) {box : MailboxId}
    {events : List ε} {after : Mas ε μ} (bound : box < mail.mas.mailboxes.length)
    (enrolled : Mas.Enrolled box events mail.mas after) :
    ({ mail with mas := after, courier := mail.courier.register box events } :
      MailRun ε μ).Enlisted := by
  have joined : ∀ other event, (mail.courier.register box events).registered other event = true ↔
      mail.courier.registered other event = true ∨ other = box ∧ event ∈ events := by
    intro other event
    simp only [Courier.register, Bool.or_eq_true, decide_eq_true_eq]
  refine ⟨enrolled.nodup enlisted.nodup, fun other event registered => ?_,
    fun other event member => ?_, fun other event alive registered => ?_⟩
  · rw [enrolled.mailboxes]
    obtain former | ⟨rfl, -⟩ := (joined other event).mp registered
    · exact enlisted.known other event former
    · exact bound
  · exact (joined other event).mpr
      (((enrolled.listed other event).mp member).imp_left (enlisted.named other event))
  · have was : mail.mas.mailboxAlive other = true := by
      rwa [Mas.mailboxAlive, enrolled.mailboxes] at alive
    exact (enrolled.listed other event).mpr
      (((joined other event).mp registered).imp_left (enlisted.present other event was))

omit [DecidableEq ε] in
theorem Enlisted.appended {mail : MailRun ε μ} (enlisted : mail.Enlisted) (agent : AgentId)
    (events : List ε) :
    ({ mail with mas := { mail.mas with
        mailboxes := mail.mas.mailboxes ++ [{ agent, events }]
        mailbox := Function.update mail.mas.mailbox agent (some mail.mas.mailboxes.length) } } :
      MailRun ε μ).Enlisted where
  nodup := enlisted.nodup
  known box event registered := by
    rw [List.length_append]
    exact Nat.lt_add_right _ (enlisted.known box event registered)
  named := enlisted.named
  present box event alive registered := by
    have old := enlisted.known box event registered
    refine enlisted.present box event ?_ registered
    simpa only [Mas.mailboxAlive, List.getElem?_append_left old] using alive

theorem Enlisted.live {mail : MailRun ε μ} (enlisted : mail.Enlisted) (event : μ → ε) :
    (mail.step event .live).Enlisted := by
  have delivered := Mas.delivered_foldl event enlisted.nodup mail.mas.queue
  refine ⟨delivered.nodup, fun box name registered => ?_, fun box name member => ?_,
    fun box name alive registered => ?_⟩
  · exact (Mas.length_of_same delivered.owners).symm ▸ enlisted.known box name registered
  · exact enlisted.named box name (delivered.fewer box name member)
  · have was := (Mas.mailboxAlive_of_same delivered.owners box).symm.trans alive
    exact (delivered.listed box name was).mpr (enlisted.present box name was registered)

theorem Enlisted.step {mail : MailRun ε μ} (enlisted : mail.Enlisted) (event : μ → ε)
    (action : MasAction ε μ) : (mail.step event action).Enlisted := by
  cases action with
  | newMailbox agent events =>
      exact (enlisted.appended agent events).enrolled (by simp) (Mas.enrolled_foldl _ _ events)
  | register box name =>
      simp only [MailRun.step, Mas.perform, Courier.perform]
      split
      · rename_i alive
        exact enlisted.enrolled (Mas.lt_of_mailboxAlive alive)
          (Mas.enrolled_registerMailingList mail.mas box name)
      · exact enlisted
  | live => exact enlisted.live event
  | unregister box name =>
      refine enlisted.same ?_ rfl
      simp only [MailRun.step, Mas.perform, Mas.unregisterMailingList_eq]
      exact .refl mail.mas
  | send sender message =>
      simp only [MailRun.step, Mas.perform, Courier.perform, Mas.send]
      split
      · exact enlisted.same ⟨rfl, rfl, fun _ => id⟩ rfl
      · exact enlisted
  | popMessages box => exact enlisted.same (Mas.sameLists_setMessages mail.mas box []) rfl
  | activate agent =>
      refine enlisted.same ?_ rfl
      simp only [MailRun.step, Mas.perform, Mas.activate]
      split
      · exact .refl mail.mas
      · cases mail.mas.mailbox agent with
        | none => exact .refl mail.mas
        | some box =>
            have cleared := Mas.sameLists_setMessages mail.mas box []
            exact ⟨cleared.mailingList, cleared.boxes, cleared.alive⟩
  | deactivate agent =>
      refine enlisted.same ?_ rfl
      simp only [MailRun.step, Mas.perform, Mas.deactivate]
      split
      · exact ⟨rfl, rfl, fun _ => id⟩
      · exact .refl mail.mas
  | collectAgent agent => exact enlisted.same ⟨rfl, rfl, fun _ => id⟩ rfl
  | collectMailbox box => exact enlisted.same (Mas.sameLists_collected mail.mas box) rfl
  | clear => exact enlisted.same ⟨rfl, rfl, fun _ => id⟩ rfl
  | clearMailbox box => exact enlisted.same (Mas.sameLists_setMessages mail.mas box []) rfl

/-- A mailbox that was never registered gets nothing. -/
theorem Enlisted.forgotten {mail : MailRun ε μ} (enlisted : mail.Enlisted) (event : μ → ε)
    {box : MailboxId} (never : ∀ name, mail.courier.registered box name = false) :
    mail.mas.Forgotten event box := by
  have unlisted : ∀ name, box ∉ mail.mas.listed name := fun name member =>
    Bool.false_ne_true ((never name).symm.trans (enlisted.named box name member))
  refine ⟨unlisted, (Mas.contents_live enlisted.nodup box).trans ?_⟩
  have nothing : mail.mas.queue.filter (mail.mas.receives event box) = [] := by
    refine List.filter_eq_nil_iff.mpr fun message _ receives => ?_
    rw [Mas.receives, Bool.and_eq_true, decide_eq_true_eq] at receives
    exact unlisted _ receives.2
  rw [nothing, List.append_nil]

end MailRun

namespace Registry

variable [DecidableEq ε] {event : μ → ε}

theorem enlisted_step {registry : Registry ε μ} (enlisted : registry.toMailRun.Enlisted)
    (action : RegistryAction ε μ) : (registry.step event action).toMailRun.Enlisted := by
  cases action with
  | mail action => exact enlisted.step event action
  | unregister box =>
      simp only [step, Mas.unregister_eq]
      split <;> exact enlisted

theorem others_step (registry : Registry ε μ) (box : MailboxId) (name : ε) (other : MailboxId) :
    other ∈ (registry.step event (.unregister box)).mas.listed name ↔
      other ∈ registry.mas.listed name := by
  simp only [step, Mas.unregister_eq]
  split <;> exact Iff.rfl

theorem registered_newMailbox {registry : Registry ε μ} {agent : AgentId} {events : List ε}
    {box : MailboxId} (older : box ≠ registry.mas.mailboxes.length) (name : ε) :
    (registry.toMailRun.step event (.newMailbox agent events)).courier.registered box name =
      registry.courier.registered box name := by
  simp only [MailRun.step, Courier.perform, Courier.register, older, false_and, decide_false,
    Bool.or_false]

theorem registered_register {registry : Registry ε μ} {box other : MailboxId}
    (differs : other ≠ box) (name first : ε) :
    (registry.toMailRun.step event (.register box first)).courier.registered other name =
      registry.courier.registered other name := by
  simp only [MailRun.step, Courier.perform]
  split
  · simp only [Courier.register, differs, false_and, decide_false, Bool.or_false]
  · rfl

/-- What a history leaves in which only mailboxes without registrations are unregistered. -/
structure Unnoticed (registry : Registry ε μ) : Prop where
  enlisted : registry.toMailRun.Enlisted
  never : ∀ box, registry.unregistered box = true →
    ∀ name, registry.courier.registered box name = false

omit [DecidableEq ε] in
theorem unnoticed_start : ({} : Registry ε μ).Unnoticed where
  enlisted := MailRun.enlisted_start
  never _ unregistered := (Bool.false_ne_true unregistered).elim

theorem Unnoticed.step {registry : Registry ε μ} (unnoticed : registry.Unnoticed)
    {action : RegistryAction ε μ} (never : registry.NeverRegistered action) :
    (registry.step event action).Unnoticed := by
  refine ⟨enlisted_step unnoticed.enlisted action, fun box unregistered name => ?_⟩
  cases action with
  | unregister gone =>
      by_cases alive : registry.mas.mailboxAlive gone = true
      · simp only [Registry.step, alive, if_true] at unregistered ⊢
        by_cases same : box = gone
        · subst same
          exact never alive name
        · rw [Function.update_of_ne same] at unregistered
          exact unnoticed.never box unregistered name
      · simp only [Registry.step, alive] at unregistered ⊢
        exact unnoticed.never box unregistered name
  | mail action =>
      cases action with
      | newMailbox agent events =>
          simp only [Registry.step] at unregistered ⊢
          by_cases same : box = registry.mas.mailboxes.length
          · rw [same, Function.update_self] at unregistered
            cases unregistered
          · rw [Function.update_of_ne same] at unregistered
            rw [registered_newMailbox same]
            exact unnoticed.never box unregistered name
      | register other first =>
          by_cases alive : registry.mas.mailboxAlive other = true
          · simp only [Registry.step, alive, if_true] at unregistered ⊢
            by_cases same : box = other
            · rw [same, Function.update_self] at unregistered
              cases unregistered
            · rw [Function.update_of_ne same] at unregistered
              rw [registered_register same]
              exact unnoticed.never box unregistered name
          · simp only [Registry.step, alive] at unregistered
            simp only [Registry.step, MailRun.step, Courier.perform, alive]
            exact unnoticed.never box unregistered name
      | send sender message =>
          simp only [Registry.step, MailRun.step, Courier.perform]
          split <;> exact unnoticed.never box unregistered name
      | live => exact unnoticed.never box unregistered name
      | unregister _ _ => exact unnoticed.never box unregistered name
      | popMessages _ => exact unnoticed.never box unregistered name
      | activate _ => exact unnoticed.never box unregistered name
      | deactivate _ => exact unnoticed.never box unregistered name
      | collectAgent _ => exact unnoticed.never box unregistered name
      | collectMailbox _ => exact unnoticed.never box unregistered name
      | clear => exact unnoticed.never box unregistered name
      | clearMailbox _ => exact unnoticed.never box unregistered name

theorem Unnoticed.forgets {registry : Registry ε μ} (unnoticed : registry.Unnoticed)
    {action : RegistryAction ε μ} (never : registry.NeverRegistered action) :
    registry.Forgets event action := by
  have after : (registry.step event action).Unnoticed := unnoticed.step never
  refine ⟨fun box unregistered => ?_, ?_⟩
  · exact after.enlisted.forgotten event (after.never box unregistered)
  · rintro box rfl other - name
    exact others_step registry box name other

/-- An unregistered mailbox stays on every list that holds it. -/
theorem neverRegistered_of_forgets {registry : Registry ε μ}
    (enlisted : registry.toMailRun.Enlisted) {action : RegistryAction ε μ}
    (forgets : registry.Forgets event action) : registry.NeverRegistered action := by
  cases action with
  | mail action => trivial
  | unregister box =>
      intro alive name
      have unregistered : (registry.step event (.unregister box)).unregistered box = true := by
        simp only [step, alive, if_true, Function.update_self]
      have unlisted := (forgets.forgotten box unregistered).unlisted name
      simp only [step, alive, if_true, Mas.unregister_eq] at unlisted
      exact Bool.eq_false_iff.mpr fun registered =>
        unlisted (enlisted.present box name alive registered)

/-- Main result: an unregistered mailbox is forgotten, in every history, exactly when nothing
had ever put it on a mailing list. -/
theorem forgets_iff (event : μ → ε) (history : List (RegistryAction ε μ)) :
    Transition.Guarded (step event) (Forgets event) {} history ↔
      Transition.Guarded (step event) NeverRegistered {} history := by
  constructor
  · exact fun forgets => forgets.meets (fun registry => registry.toMailRun.Enlisted)
      (fun _ action enlisted forgets =>
        ⟨neverRegistered_of_forgets enlisted forgets, enlisted_step enlisted action⟩)
      MailRun.enlisted_start
  · exact fun never => never.meets Unnoticed
      (fun _ _ unnoticed never => ⟨unnoticed.forgets never, unnoticed.step never⟩)
      unnoticed_start

/-- Agent 0 is active and listens: its mailbox still gets messages after it is unregistered. -/
theorem unregistered_still_gets :
    let history : List (RegistryAction Bool Nat) :=
      [.mail (.newMailbox 0 [true]), .mail (.activate 0), .unregister 0, .mail (.send 0 7),
        .mail .live]
    let registry := Transition.run (step fun _ => true) {} history
    registry.unregistered 0 = true ∧ registry.mas.listed true = [0] ∧
      registry.mas.contents 0 = [7] := by
  decide

end Registry

end Segvault.Fusil
