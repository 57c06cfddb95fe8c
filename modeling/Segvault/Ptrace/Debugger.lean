import Segvault.Outcome
import Segvault.Transition
import Mathlib.Data.List.Nodup

namespace Segvault.Ptrace

open Transition

/-! The processes that a debugger traces, on Linux. -/

structure TracedProcess where
  pid : Nat
  running : Bool
  isAttached : Bool
  wasAttached : Bool
  isStopped : Bool
  deriving DecidableEq, Repr

namespace TracedProcess

def ended (self : TracedProcess) : TracedProcess := { self with running := false }

def released (self : TracedProcess) : TracedProcess := { self with isAttached := false }

def stopped (self : TracedProcess) : TracedProcess := { self with isStopped := true }

def continued (self : TracedProcess) : TracedProcess := { self with isStopped := false }

end TracedProcess

/-- A debugger with every process object that was ever made for it; `dict` and `list` hold
places in `made`. -/
structure Debugger where
  made : List TracedProcess
  dict : List (Nat × Nat)
  list : List Nat
  options : Nat
  deriving DecidableEq, Repr

/-- What waiting for the first signal of a process meets, with what goes wrong on the way:
`display` of a signal may raise, and the pid of a new process may not be had. -/
inductive Wait
  | signal (signum : Nat) (displayFails : Bool)
  | exited
  | killed
  | noChild
  | unknownStatus
  | execution
  | newProcess (pid : Option Nat) (wait : Wait) (setoptionsFails : Bool)
  | unknownEvent
  | error
  | keyboardInterrupt
  deriving DecidableEq, Repr

def sigtrap : Nat := 5

def sigstop : Nat := 19

namespace Debugger

def update (self : Debugger) (index : Nat) (change : TracedProcess → TracedProcess) : Debugger :=
  { self with made := self.made.modify index change }

/-- `deleteProcess` of a process object. -/
def removeProcess (self : Debugger) (index : Nat) : Debugger :=
  match self.made[index]? with
  | none => self
  | some process =>
      { self with
        dict := self.dict.filter (·.1 ≠ process.pid)
        list := self.list.erase index }

def deleteProcess (self : Debugger) (process : Option Nat) (pid : Nat) : Debugger :=
  match process with
  | some index => self.removeProcess index
  | none =>
      match self.dict.lookup pid with
      | none => self
      | some index => self.removeProcess index

/-- `fails`: detaching the process or continuing it raises an error. -/
def detach (self : Debugger) (index : Nat) (fails : Bool) : Outcome Debugger :=
  match self.made[index]? with
  | none => .returned self
  | some process =>
      if process.isAttached = false then .returned self
      else
        let self := self.update index .released
        if process.running ∧ (process.wasAttached ∨ process.isStopped) then
          if fails then .raised self
          else
            let self := if process.wasAttached then self
              else self.update index .continued
            .returned (self.removeProcess index)
        else .returned (self.removeProcess index)

def notRunning (self : Debugger) (index : Nat) : Debugger :=
  let self := self.update index .ended
  (self.detach index false).world

/-- A new process object in the dictionary and the list. -/
def register (self : Debugger) (pid : Nat) (wasAttached : Bool) : Debugger :=
  { self with
    made := self.made ++
      [{ pid, running := true, isAttached := true, wasAttached, isStopped := true }]
    dict := self.dict ++ [(pid, self.made.length)]
    list := self.list ++ [self.made.length] }

/-- The bare `except` of `addProcess`. -/
def giveUp (self : Debugger) (index : Nat) : Outcome Debugger :=
  let self := self.update index .released
  .raised (self.detach index false).world

/-- The end of `addProcess`. -/
def setoptions (self : Debugger) (fails : Bool) : Outcome Debugger :=
  if self.options ≠ 0 ∧ fails then .raised self else .returned self

def addProcess (wait : Wait) (self : Debugger) (pid : Nat)
    (isAttached attachFails setoptionsFails : Bool) : Outcome Debugger :=
  if (self.dict.lookup pid).isSome then .raised self
  else if isAttached = false ∧ attachFails then .raised self
  else
    let process := self.made.length
    let self := self.register pid isAttached
    match wait with
    | .keyboardInterrupt => self.setoptions setoptionsFails
    | .signal signum displayFails =>
        let self := self.update process .stopped
        if signum = sigtrap ∨ signum = sigstop then self.setoptions setoptionsFails
        else if displayFails then .raised self
        else self.setoptions setoptionsFails
    | .exited | .killed | .noChild => (self.notRunning process).giveUp process
    | .unknownStatus | .execution | .unknownEvent | .error => self.giveUp process
    | .newProcess none _ _ => self.giveUp process
    | .newProcess (some child) wait setoptionsFails =>
        (addProcess wait self child true false setoptionsFails).world.giveUp process

end Debugger

/-! What a call does to the dictionary and to the list. -/

structure InSync (debugger : Debugger) : Prop where
  same : ∀ index, index ∈ debugger.list ↔ ∃ pid, (pid, index) ∈ debugger.dict
  keyed : ∀ pid index, (pid, index) ∈ debugger.dict →
    ∃ process, debugger.made[index]? = some process ∧ process.pid = pid
  single : ∀ pid index other, (pid, index) ∈ debugger.dict → (pid, other) ∈ debugger.dict →
    index = other
  nodup : debugger.list.Nodup

namespace Debugger

variable {debugger : Debugger} {index : Nat}

@[simp] theorem dict_update (change : TracedProcess → TracedProcess) :
    (debugger.update index change).dict = debugger.dict := rfl

@[simp] theorem list_update (change : TracedProcess → TracedProcess) :
    (debugger.update index change).list = debugger.list := rfl

/-- Changes of a process object that leave its pid. -/
theorem pid_update {change : TracedProcess → TracedProcess}
    (same : ∀ process, (change process).pid = process.pid) (other : Nat) :
    ((debugger.update index change).made[other]?).map TracedProcess.pid =
      (debugger.made[other]?).map TracedProcess.pid := by
  rw [update, List.getElem?_modify, Option.map_eq_map, Option.map_map]
  cases debugger.made[other]? with
  | none => rfl
  | some process =>
      by_cases here : index = other
      · simp [here, same]
      · simp [here]

theorem detach_notAttached {process : TracedProcess} (made : debugger.made[index]? = some process)
    (free : process.isAttached = false) (fails : Bool) :
    debugger.detach index fails = .returned debugger := by
  rw [detach, made]
  exact if_pos free

theorem giveUp_eq (debugger : Debugger) (index : Nat) :
    debugger.giveUp index = .raised (debugger.update index .released) := by
  rw [giveUp]
  cases made : debugger.made[index]? with
  | none =>
      have absent : (debugger.update index .released).made[index]? = none := by
        rw [update, List.getElem?_modify, made]
        rfl
      rw [detach, absent]
      rfl
  | some process =>
      have here : (debugger.update index .released).made[index]? =
            some process.released := by
        rw [update, List.getElem?_modify, made]
        simp
      rw [detach_notAttached here rfl]
      rfl

/-- What is left of a process that does not run. -/
theorem notRunning_eq {process : TracedProcess} (made : debugger.made[index]? = some process)
    (attached : process.isAttached = true) :
    (debugger.notRunning index).dict = debugger.dict.filter (·.1 ≠ process.pid) ∧
      (debugger.notRunning index).list = debugger.list.erase index ∧
      ∀ other : Nat, ((debugger.notRunning index).made[other]?).map TracedProcess.pid =
        (debugger.made[other]?).map TracedProcess.pid := by
  have here : (debugger.update index .ended).made[index]? =
      some process.ended := by
    rw [update, List.getElem?_modify, made]
    simp
  have removed : debugger.notRunning index =
      ((debugger.update index .ended).update index
        .released).removeProcess index := by
    rw [notRunning, detach, here]
    dsimp only
    rw [if_neg (by simp [TracedProcess.ended, attached]), if_neg (by simp [TracedProcess.ended])]
    rfl
  have there : ((debugger.update index .ended).update index
      .released).made[index]? =
        some process.ended.released := by
    rw [update, List.getElem?_modify, here]
    simp
  rw [removed, removeProcess, there]
  refine ⟨rfl, rfl, fun other => ?_⟩
  exact (@pid_update (debugger.update index .ended) index .released (fun _ => rfl) other).trans
    (@pid_update debugger index .ended (fun _ => rfl) other)

end Debugger

/-- The two tables agree on what they hold, whatever else the process objects say. -/
theorem InSync.of_pids {debugger other : Debugger} (sync : InSync debugger)
    (dict : other.dict = debugger.dict) (list : other.list = debugger.list)
    (pids : ∀ index : Nat, (other.made[index]?).map TracedProcess.pid =
      (debugger.made[index]?).map TracedProcess.pid) : InSync other := by
  refine ⟨?_, ?_, ?_, ?_⟩
  · rw [dict, list]
    exact sync.same
  · intro pid index entry
    rw [dict] at entry
    obtain ⟨process, made, rfl⟩ := sync.keyed pid index entry
    have same := pids index
    rw [made, Option.map_some] at same
    exact Option.map_eq_some_iff.mp same
  · rw [dict]
    exact sync.single
  · rw [list]
    exact sync.nodup

theorem InSync.update {debugger : Debugger} (sync : InSync debugger) (index : Nat)
    {change : TracedProcess → TracedProcess}
    (same : ∀ process, (change process).pid = process.pid) :
    InSync (debugger.update index change) :=
  sync.of_pids rfl rfl fun other => Debugger.pid_update same other

/-- Nothing else is registered under the pid of a process. -/
def Held (debugger : Debugger) (index : Nat) : Prop :=
  ∀ process, debugger.made[index]? = some process →
    ∀ other, (process.pid, other) ∈ debugger.dict → other = index

theorem InSync.removeProcess {debugger : Debugger} (sync : InSync debugger) {index : Nat}
    (held : Held debugger index) : InSync (debugger.removeProcess index) := by
  rw [Debugger.removeProcess]
  cases made : debugger.made[index]? with
  | none => exact sync
  | some process =>
      refine ⟨fun other => ?_, fun pid other entry => ?_, fun pid first second one two => ?_,
        sync.nodup.erase index⟩
      · dsimp only
        rw [sync.nodup.mem_erase_iff, sync.same]
        simp only [List.mem_filter, decide_eq_true_eq]
        constructor
        · rintro ⟨different, pid, entry⟩
          refine ⟨pid, entry, ?_⟩
          rintro rfl
          exact different (held process made other entry)
        · rintro ⟨pid, entry, different⟩
          refine ⟨?_, pid, entry⟩
          rintro rfl
          obtain ⟨found, here, rfl⟩ := sync.keyed pid other entry
          rw [made] at here
          cases here
          exact different rfl
      · exact sync.keyed pid other (List.mem_filter.mp entry).1
      · exact sync.single pid first second (List.mem_filter.mp one).1 (List.mem_filter.mp two).1

theorem InSync.notRunning {debugger : Debugger} (sync : InSync debugger) {index : Nat}
    {process : TracedProcess} (made : debugger.made[index]? = some process)
    (attached : process.isAttached = true) (held : Held debugger index) :
    InSync (debugger.notRunning index) := by
  obtain ⟨dict, list, pids⟩ := Debugger.notRunning_eq made attached
  have removed := sync.removeProcess held
  rw [Debugger.removeProcess, made] at removed
  exact removed.of_pids dict list pids

/-- Removing a process while another is registered under its pid breaks the tables. -/
theorem not_inSync_removeProcess {debugger : Debugger} (sync : InSync debugger) {index : Nat}
    (other : ¬ Held debugger index) : ¬ InSync (debugger.removeProcess index) := by
  unfold Held at other
  push Not at other
  obtain ⟨process, made, newer, entry, different⟩ := other
  rw [Debugger.removeProcess, made]
  intro broken
  have listed : newer ∈ debugger.list.erase index :=
    (List.mem_erase_of_ne different).mpr ((sync.same newer).mpr ⟨_, entry⟩)
  obtain ⟨pid, kept⟩ := (broken.same newer).mp listed
  obtain ⟨remains, elsewhere⟩ := List.mem_filter.mp kept
  obtain ⟨first, here, rfl⟩ := sync.keyed _ _ remains
  obtain ⟨second, there, same⟩ := sync.keyed _ _ entry
  rw [here] at there
  cases there
  simp [same] at elsewhere

theorem lookup_isSome {dict : List (Nat × Nat)} {pid : Nat} :
    (dict.lookup pid).isSome = true ↔ ∃ index, (pid, index) ∈ dict := by
  induction dict with
  | nil => simp
  | cons entry rest induction =>
      obtain ⟨key, value⟩ := entry
      rw [List.lookup_cons]
      by_cases same : pid = key
      · subst same
        simp
      · have different : (pid == key) = false := beq_eq_false_iff_ne.mpr same
        rw [different, induction]
        simp [same]

section Register

variable {debugger : Debugger} {pid : Nat} {wasAttached : Bool}

theorem made_register :
    (debugger.register pid wasAttached).made[debugger.made.length]? =
      some { pid, running := true, isAttached := true, wasAttached, isStopped := true } :=
  List.getElem?_concat_length

theorem made_register_of_lt {index : Nat} (bound : index < debugger.made.length) :
    (debugger.register pid wasAttached).made[index]? = debugger.made[index]? :=
  List.getElem?_append_left bound

theorem InSync.lt (sync : InSync debugger) {index : Nat} (listed : index ∈ debugger.list) :
    index < debugger.made.length := by
  obtain ⟨key, entry⟩ := (sync.same index).mp listed
  obtain ⟨process, made, -⟩ := sync.keyed key index entry
  exact (List.getElem?_eq_some_iff.mp made).1

theorem InSync.register (sync : InSync debugger) (fresh : ∀ index, (pid, index) ∉ debugger.dict) :
    InSync (debugger.register pid wasAttached) := by
  have new : debugger.made.length ∉ debugger.list := fun listed => Nat.lt_irrefl _ (sync.lt listed)
  have entry_iff (key index : Nat) : (key, index) ∈ (debugger.register pid wasAttached).dict ↔
      (key, index) ∈ debugger.dict ∨ key = pid ∧ index = debugger.made.length := by
    rw [Debugger.register]
    simp only [List.mem_append, List.mem_singleton, Prod.mk.injEq]
  refine ⟨fun index => ?_, fun key index entry => ?_, fun key first second one two => ?_, ?_⟩
  · simp only [entry_iff, exists_or, ← sync.same]
    rw [Debugger.register]
    simp only [List.mem_append, List.mem_singleton, exists_eq_left]
  · obtain old | ⟨rfl, rfl⟩ := (entry_iff key index).mp entry
    · obtain ⟨process, made, same⟩ := sync.keyed key index old
      refine ⟨process, ?_, same⟩
      rw [made_register_of_lt (List.getElem?_eq_some_iff.mp made).1, made]
    · exact ⟨_, made_register, rfl⟩
  · obtain old | ⟨rfl, rfl⟩ := (entry_iff key first).mp one <;>
      obtain older | ⟨same, rfl⟩ := (entry_iff _ second).mp two
    · exact sync.single key first second old older
    · exact absurd (same ▸ old) (fresh first)
    · exact absurd older (fresh second)
    · rfl
  · exact List.Nodup.append sync.nodup (List.nodup_singleton _)
      (List.disjoint_singleton.mpr new)

end Register

/-! Adding a process. -/

section Add

variable {debugger : Debugger} {pid : Nat} {isAttached attachFails setoptionsFails : Bool}

@[simp] theorem world_setoptions (fails : Bool) :
    (debugger.setoptions fails).world = debugger := by
  unfold Debugger.setoptions
  split <;> rfl

theorem dict_notRunning_register (fresh : ∀ index, (pid, index) ∉ debugger.dict) :
    ((debugger.register pid isAttached).notRunning debugger.made.length).dict =
      debugger.dict := by
  rw [(Debugger.notRunning_eq made_register rfl).1, Debugger.register]
  dsimp only
  rw [List.filter_append, List.filter_singleton]
  have others : debugger.dict.filter (·.1 ≠ pid) = debugger.dict := by
    refine List.filter_eq_self.mpr fun entry member => decide_eq_true ?_
    rintro rfl
    exact fresh entry.2 member
  rw [others]
  simp

theorem list_notRunning_register (bounded : ∀ index ∈ debugger.list, index < debugger.made.length) :
    ((debugger.register pid isAttached).notRunning debugger.made.length).list =
      debugger.list := by
  have new : debugger.made.length ∉ debugger.list := fun listed =>
    Nat.lt_irrefl _ (bounded _ listed)
  rw [(Debugger.notRunning_eq made_register rfl).2.1, Debugger.register]
  dsimp only
  rw [List.erase_append_right _ new]
  simp

/-- What is registered stays registered while another process is added. -/
theorem mem_dict_addProcess (wait : Wait) {entry : Nat × Nat} (member : entry ∈ debugger.dict) :
    entry ∈ (debugger.addProcess wait pid isAttached attachFails setoptionsFails).world.dict := by
  induction wait generalizing debugger pid isAttached attachFails setoptionsFails
  all_goals
    rw [Debugger.addProcess]
    split
    · exact member
    split
    · exact member
    rename_i absent attached
    have fresh : ∀ index, (pid, index) ∉ debugger.dict := fun index known =>
      absent (lookup_isSome.mpr ⟨index, known⟩)
    have registered : entry ∈ (debugger.register pid isAttached).dict :=
      List.mem_append_left _ member
  case signal signum displayFails =>
    dsimp only
    split
    · rw [world_setoptions]
      exact registered
    split
    · exact registered
    · rw [world_setoptions]
      exact registered
  case exited | killed | noChild =>
    dsimp only
    rw [Debugger.giveUp_eq]
    exact (dict_notRunning_register fresh).symm ▸ member
  case unknownStatus | execution | unknownEvent | error =>
    dsimp only
    rw [Debugger.giveUp_eq]
    exact registered
  case newProcess child wait fails induction =>
    cases child with
    | none =>
        dsimp only
        rw [Debugger.giveUp_eq]
        exact registered
    | some child =>
        dsimp only
        rw [Debugger.giveUp_eq]
        exact induction registered
  case keyboardInterrupt =>
    dsimp only
    rw [world_setoptions]
    exact registered

/-- Adding a process keeps the tables in step, however it ends. -/
theorem InSync.addProcess (sync : InSync debugger) (wait : Wait) :
    InSync (debugger.addProcess wait pid isAttached attachFails setoptionsFails).world := by
  induction wait generalizing debugger pid isAttached attachFails setoptionsFails
  all_goals
    rw [Debugger.addProcess]
    split
    · exact sync
    split
    · exact sync
    rename_i absent attached
    have fresh : ∀ index, (pid, index) ∉ debugger.dict := fun index known =>
      absent (lookup_isSome.mpr ⟨index, known⟩)
    have registered : InSync (debugger.register pid isAttached) := sync.register fresh
  case signal signum displayFails =>
    have stopped := registered.update debugger.made.length (fun process => rfl : ∀ process,
      (TracedProcess.stopped process).pid = process.pid)
    dsimp only
    split
    · rwa [world_setoptions]
    split
    · exact stopped
    · rwa [world_setoptions]
  case exited | killed | noChild =>
    dsimp only
    rw [Debugger.giveUp_eq]
    refine InSync.update (registered.notRunning made_register rfl ?_) _ fun process => rfl
    intro process made other entry
    rw [made_register] at made
    cases made
    exact registered.single pid other _ entry (List.mem_append_right _ (List.mem_singleton_self _))
  case unknownStatus | execution | unknownEvent | error =>
    dsimp only
    rw [Debugger.giveUp_eq]
    exact registered.update _ fun process => rfl
  case newProcess child wait fails induction =>
    cases child with
    | none =>
        dsimp only
        rw [Debugger.giveUp_eq]
        exact registered.update _ fun process => rfl
    | some child =>
        dsimp only
        rw [Debugger.giveUp_eq]
        exact (induction registered).update _ fun process => rfl
  case keyboardInterrupt =>
    dsimp only
    rwa [world_setoptions]

end Add

/-! When adding a process is atomic. -/

/-- The places in the tables are those of objects. -/
structure Valid (debugger : Debugger) : Prop where
  dict : ∀ pid index, (pid, index) ∈ debugger.dict → index < debugger.made.length
  list : ∀ index ∈ debugger.list, index < debugger.made.length

def Atomic (before : Debugger) (outcome : Outcome Debugger) : Prop :=
  ∀ after, outcome = .raised after → after.dict = before.dict ∧ after.list = before.list

/-- The outcomes that raise an exception with the process still registered. -/
def Leaves (options : Nat) (setoptionsFails : Bool) : Wait → Prop
  | .signal signum displayFails =>
      if signum = sigtrap ∨ signum = sigstop then options ≠ 0 ∧ setoptionsFails = true
      else displayFails = true ∨ options ≠ 0 ∧ setoptionsFails = true
  | .keyboardInterrupt => options ≠ 0 ∧ setoptionsFails = true
  | .exited | .killed | .noChild => False
  | .unknownStatus | .execution | .newProcess _ _ _ | .unknownEvent | .error => True

section Atomic

variable {debugger : Debugger} {pid : Nat} {isAttached attachFails setoptionsFails : Bool}

theorem InSync.valid (sync : InSync debugger) : Valid debugger where
  dict := fun pid index entry => sync.lt ((sync.same index).mpr ⟨pid, entry⟩)
  list := fun _ => sync.lt

theorem not_atomic (valid : Valid debugger) {after : Debugger}
    (left : (pid, debugger.made.length) ∈ after.dict) :
    ¬ Atomic debugger (.raised after) := by
  intro atomic
  rw [(atomic after rfl).1] at left
  exact Nat.lt_irrefl _ (valid.dict pid _ left)

theorem atomic_returned (before after : Debugger) : Atomic before (.returned after) := by
  intro other raised
  cases raised

theorem atomic_raised {before after : Debugger} (dict : after.dict = before.dict)
    (list : after.list = before.list) : Atomic before (.raised after) := by
  intro other raised
  cases raised
  exact ⟨dict, list⟩

theorem atomic_setoptions (valid : Valid debugger) {after : Debugger}
    (left : (pid, debugger.made.length) ∈ after.dict) :
    Atomic debugger (after.setoptions setoptionsFails) ↔
      ¬ (after.options ≠ 0 ∧ setoptionsFails = true) := by
  unfold Debugger.setoptions
  by_cases fails : after.options ≠ 0 ∧ setoptionsFails = true
  · rw [if_pos fails]
    exact iff_of_false (not_atomic valid left) (not_not.mpr fails)
  · rw [if_neg fails]
    exact iff_of_true (atomic_returned debugger after) fails

/-- Adding a process is atomic exactly if it is refused before it is registered, or the wait
does not raise with it registered. -/
theorem addProcess_atomic (valid : Valid debugger) (wait : Wait) :
    Atomic debugger (debugger.addProcess wait pid isAttached attachFails setoptionsFails) ↔
      (∃ index, (pid, index) ∈ debugger.dict) ∨ isAttached = false ∧ attachFails = true ∨
        ¬ Leaves debugger.options setoptionsFails wait := by
  have left : (pid, debugger.made.length) ∈ (debugger.register pid isAttached).dict :=
    List.mem_append_right _ (List.mem_singleton_self _)
  rw [Debugger.addProcess.eq_def]
  by_cases known : (debugger.dict.lookup pid).isSome = true
  · rw [if_pos known]
    exact iff_of_true (atomic_raised rfl rfl) (.inl (lookup_isSome.mp known))
  · rw [if_neg known, or_iff_right fun found => known (lookup_isSome.mpr found)]
    by_cases refused : isAttached = false ∧ attachFails = true
    · rw [if_pos refused]
      exact iff_of_true (atomic_raised rfl rfl) (.inl refused)
    · rw [if_neg refused, or_iff_right refused]
      have fresh : ∀ index, (pid, index) ∉ debugger.dict := fun index entry =>
        known (lookup_isSome.mpr ⟨index, entry⟩)
      cases wait with
      | signal signum displayFails =>
          dsimp only [Leaves]
          by_cases wanted : signum = sigtrap ∨ signum = sigstop
          · rw [if_pos wanted, if_pos wanted]
            exact atomic_setoptions valid left
          · rw [if_neg wanted, if_neg wanted]
            cases displayFails with
            | true => exact iff_of_false (not_atomic valid left) (by simp)
            | false =>
                rw [or_iff_right Bool.false_ne_true]
                exact atomic_setoptions valid left
      | exited | killed | noChild =>
          dsimp only
          rw [Debugger.giveUp_eq]
          refine iff_of_true (atomic_raised ?_ ?_) not_false
          · exact dict_notRunning_register fresh
          · exact list_notRunning_register valid.list
      | unknownStatus | execution | unknownEvent | error =>
          dsimp only
          rw [Debugger.giveUp_eq]
          exact iff_of_false (not_atomic valid left) (not_not.mpr trivial)
      | newProcess child wait fails =>
          cases child with
          | none =>
              dsimp only
              rw [Debugger.giveUp_eq]
              exact iff_of_false (not_atomic valid left) (not_not.mpr trivial)
          | some child =>
              dsimp only
              rw [Debugger.giveUp_eq]
              exact iff_of_false (not_atomic valid (mem_dict_addProcess wait left))
                (not_not.mpr trivial)
      | keyboardInterrupt => exact atomic_setoptions valid left

end Atomic

/-! Runs of the debugger. -/

inductive DebuggerCall
  | add (wait : Wait) (pid : Nat) (isAttached attachFails setoptionsFails : Bool)
  | delete (process : Option Nat) (pid : Nat)
  | detach (process : Nat) (fails : Bool)
  deriving DecidableEq, Repr

/-- An exception leaves the debugger as it is at that point. -/
def Debugger.call (self : Debugger) : DebuggerCall → Debugger
  | .add wait pid isAttached attachFails setoptionsFails =>
      (self.addProcess wait pid isAttached attachFails setoptionsFails).world
  | .delete process pid => self.deleteProcess process pid
  | .detach process fails => (self.detach process fails).world

def Debugger.new (options : Nat) : Debugger := { made := [], dict := [], list := [], options }

/-- Detaching goes on to delete the process. -/
def Detaches (debugger : Debugger) (index : Nat) (fails : Bool) : Prop :=
  ∃ process, debugger.made[index]? = some process ∧ process.isAttached = true ∧
    ¬ (process.running = true ∧ (process.wasAttached = true ∨ process.isStopped = true) ∧
      fails = true)

/-- No other process is registered under the pid of a process object that is deleted. -/
def Current (debugger : Debugger) : DebuggerCall → Prop
  | .add _ _ _ _ _ => True
  | .delete none _ => True
  | .delete (some index) _ => Held debugger index
  | .detach index fails => Detaches debugger index fails → Held debugger index

section Runs

variable {debugger : Debugger}

/-- A detach deletes the process or changes its object alone. -/
theorem detach_cases (debugger : Debugger) (index : Nat) (fails : Bool) :
    ∃ changed, (∀ other : Nat, (changed.made[other]?).map TracedProcess.pid =
        (debugger.made[other]?).map TracedProcess.pid) ∧
      changed.dict = debugger.dict ∧ changed.list = debugger.list ∧
      (Detaches debugger index fails ∧
          (debugger.detach index fails).world = changed.removeProcess index ∨
        ¬ Detaches debugger index fails ∧ (debugger.detach index fails).world = changed) := by
  unfold Debugger.detach
  cases made : debugger.made[index]? with
  | none =>
      refine ⟨debugger, fun _ => rfl, rfl, rfl, .inr ⟨?_, rfl⟩⟩
      rintro ⟨process, here, -⟩
      rw [made] at here
      cases here
  | some process =>
      have released := @Debugger.pid_update debugger index .released fun _ => rfl
      dsimp only
      by_cases free : process.isAttached = false
      · rw [if_pos free]
        refine ⟨debugger, fun _ => rfl, rfl, rfl, .inr ⟨?_, rfl⟩⟩
        rintro ⟨other, here, attached, -⟩
        rw [made] at here
        cases here
        rw [free] at attached
        cases attached
      · rw [if_neg free]
        have attached : process.isAttached = true := by simpa using free
        by_cases runs : process.running = true ∧
            (process.wasAttached = true ∨ process.isStopped = true)
        · rw [if_pos runs]
          cases fails with
          | true =>
              refine ⟨_, released, rfl, rfl, .inr ⟨?_, rfl⟩⟩
              rintro ⟨other, here, -, calm⟩
              rw [made] at here
              cases here
              exact calm ⟨runs.1, runs.2, rfl⟩
          | false =>
              have detaches : Detaches debugger index false :=
                ⟨process, made, attached, fun failing => Bool.false_ne_true failing.2.2⟩
              cases process.wasAttached with
              | true => exact ⟨_, released, rfl, rfl, .inl ⟨detaches, rfl⟩⟩
              | false =>
                  refine ⟨(debugger.update index .released).update index .continued,
                    fun other => ?_, rfl, rfl, .inl ⟨detaches, rfl⟩⟩
                  exact (@Debugger.pid_update (debugger.update index .released) index .continued
                    (fun _ => rfl) other).trans (released other)
        · rw [if_neg runs]
          refine ⟨_, released, rfl, rfl, .inl ⟨⟨process, made, attached, ?_⟩, rfl⟩⟩
          exact fun failing => runs ⟨failing.1, failing.2.1⟩

theorem held_of_pids {changed : Debugger} {index : Nat}
    (pids : ∀ other : Nat, (changed.made[other]?).map TracedProcess.pid =
      (debugger.made[other]?).map TracedProcess.pid)
    (dict : changed.dict = debugger.dict) : Held changed index ↔ Held debugger index := by
  have one {first second : Debugger}
      (pids : (first.made[index]?).map TracedProcess.pid =
        (second.made[index]?).map TracedProcess.pid)
      (dict : first.dict = second.dict) (held : Held first index) : Held second index := by
    intro process made other entry
    rw [made, Option.map_some] at pids
    obtain ⟨twin, here, same⟩ := Option.map_eq_some_iff.mp pids
    exact held twin here other (by rw [same, dict]; exact entry)
  exact ⟨one (pids index) dict, one (pids index).symm dict.symm⟩

theorem InSync.held_lookup (sync : InSync debugger) {pid index : Nat}
    (found : debugger.dict.lookup pid = some index) : Held debugger index := by
  have entry : (pid, index) ∈ debugger.dict := by
    obtain ⟨before, after, split, -⟩ := List.lookup_eq_some_iff.mp found
    rw [split]
    exact List.mem_append_right _ (List.mem_cons_self ..)
  intro process made other known
  obtain ⟨same, here, rfl⟩ := sync.keyed pid index entry
  rw [made] at here
  cases here
  exact sync.single _ other index known entry

theorem InSync.call (sync : InSync debugger) {event : DebuggerCall}
    (current : Current debugger event) : InSync (debugger.call event) := by
  cases event with
  | add wait pid isAttached attachFails setoptionsFails => exact sync.addProcess wait
  | delete process pid =>
      cases process with
      | some index => exact sync.removeProcess current
      | none =>
          unfold Debugger.call Debugger.deleteProcess
          dsimp only
          cases found : debugger.dict.lookup pid with
          | none => exact sync
          | some index => exact sync.removeProcess (sync.held_lookup found)
  | detach index fails =>
      obtain ⟨changed, pids, dict, list, ⟨detaches, world⟩ | ⟨-, world⟩⟩ :=
        detach_cases debugger index fails
      · change InSync (debugger.detach index fails).world
        rw [world]
        exact (sync.of_pids dict list pids).removeProcess
          ((held_of_pids pids dict).mpr (current detaches))
      · change InSync (debugger.detach index fails).world
        rw [world]
        exact sync.of_pids dict list pids

theorem not_inSync_call (sync : InSync debugger) {event : DebuggerCall}
    (stale : ¬ Current debugger event) : ¬ InSync (debugger.call event) := by
  cases event with
  | add wait pid isAttached attachFails setoptionsFails => exact absurd trivial stale
  | delete process pid =>
      cases process with
      | some index => exact not_inSync_removeProcess sync stale
      | none => exact absurd trivial stale
  | detach index fails =>
      unfold Current at stale
      rw [Classical.not_imp] at stale
      obtain ⟨detaches, other⟩ := stale
      obtain ⟨changed, pids, dict, list, ⟨-, world⟩ | ⟨stays, -⟩⟩ :=
        detach_cases debugger index fails
      · change ¬ InSync (debugger.detach index fails).world
        rw [world]
        exact not_inSync_removeProcess (sync.of_pids dict list pids)
          (fun held => other ((held_of_pids pids dict).mp held))
      · exact absurd detaches stays

theorem inSync_new (options : Nat) : InSync (.new options) where
  same := fun index => iff_of_false List.not_mem_nil (by rintro ⟨pid, entry⟩; cases entry)
  keyed := fun pid index entry => absurd entry List.not_mem_nil
  single := fun pid index other entry => absurd entry List.not_mem_nil
  nodup := List.nodup_nil

/-- Adding a process is atomic in a state exactly if its outcome does not leave it registered,
and the tables agree at every time of a run exactly if every process object that is deleted is
the one that is registered under its pid, if there is one. -/
theorem addProcess_atomic_and_inSync_iff (debugger : Debugger) (valid : Valid debugger)
    (wait : Wait) (pid : Nat) (isAttached attachFails setoptionsFails : Bool) (options : Nat)
    (calls : List DebuggerCall) :
    (Atomic debugger (debugger.addProcess wait pid isAttached attachFails setoptionsFails) ↔
        (∃ index, (pid, index) ∈ debugger.dict) ∨ isAttached = false ∧ attachFails = true ∨
          ¬ Leaves debugger.options setoptionsFails wait) ∧
      ((∀ before, before <+: calls → InSync (run Debugger.call (.new options) before)) ↔
        Guarded Debugger.call Current (.new options) calls) := by
  refine ⟨addProcess_atomic valid wait, ?_⟩
  exact guarded_iff_throughout InSync InSync (fun _ sync => sync)
    (fun _ _ sync current => sync.call current)
    (fun _ _ sync stale => not_inSync_call sync stale) (inSync_new options) calls

end Runs

theorem addProcess_atomic_and_inSync_iff_new :
    (Atomic (.new 1) ((Debugger.new 1).addProcess .exited 7 true false false) ↔
        (∃ index, (7, index) ∈ (Debugger.new 1).dict) ∨ true = false ∧ false = true ∨
          ¬ Leaves 1 false .exited) ∧
      ((∀ before, before <+: [.add .exited 7 true false false, .delete none 7] →
          InSync (run Debugger.call (.new 1) before)) ↔
        Guarded Debugger.call Current (.new 1)
          [.add .exited 7 true false false, .delete none 7]) :=
  addProcess_atomic_and_inSync_iff (.new 1) (inSync_new 1).valid .exited 7 true false false 1
    [.add .exited 7 true false false, .delete none 7]

/-- A process that calls `exec` before its first signal; and an object that is detached after
its pid was deleted and added again. -/
theorem addProcess_not_atomic_nor_inSync :
    ¬ (∀ debugger, Valid debugger →
      ∀ wait pid isAttached attachFails setoptionsFails,
        Atomic debugger
          (debugger.addProcess wait pid isAttached attachFails setoptionsFails)) ∧
      ¬ ∀ options calls, InSync (run Debugger.call (.new options) calls) := by
  constructor
  · intro always
    have atomic := always (.new 1) (inSync_new 1).valid .execution 7 true false false
    have same := (atomic _ rfl).2
    cases same
  · intro always
    have sync := always 1 [.add (.signal 19 false) 7 true false false, .delete none 7,
      .add (.signal 19 false) 7 true false false, .detach 0 false]
    obtain ⟨pid, entry⟩ := (sync.same 1).mp (List.mem_singleton_self 1)
    exact absurd entry List.not_mem_nil

end Segvault.Ptrace
