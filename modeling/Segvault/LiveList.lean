import Mathlib.Data.List.Nodup
import Segvault.Transition

namespace Segvault

universe u

/-! A list that changes while it is iterated over: the iterator keeps nothing but the index of what
it gives next. -/

structure LiveList (α : Type u) where
  items : List α
  next : Nat

namespace LiveList

inductive Action (α : Type u)
  | advance
  | append (item : α)
  | remove (item : α)

variable {α : Type u}

def ahead (list : LiveList α) : List α := list.items.drop list.next

/-- What the iterator gives. -/
def given (list : LiveList α) : Action α → List α
  | .advance => list.items[list.next]?.toList
  | .append _ | .remove _ => []

theorem drop_eq_append_drop_succ (items : List α) (next : Nat) :
    items.drop next = items[next]?.toList ++ items.drop (next + 1) := by
  obtain inside | outside := Nat.lt_or_ge next items.length
  · rw [List.getElem?_eq_getElem inside, ← List.getElem_cons_drop inside]
    rfl
  · rw [List.getElem?_eq_none outside, List.drop_of_length_le outside,
      List.drop_of_length_le (Nat.le_succ_of_le outside)]
    rfl

variable [DecidableEq α]

/-- An item is in the list at most once. -/
def act (list : LiveList α) : Action α → LiveList α
  | .advance => { list with next := list.next + 1 }
  | .append item =>
      if item ∈ list.items then list else { list with items := list.items ++ [item] }
  | .remove item => { list with items := list.items.erase item }

/-- What the iterator passes over when something is removed that it has already given. -/
def passedOver (list : LiveList α) : Action α → List α
  | .remove item =>
      if item ∈ list.items.take list.next then list.items[list.next]?.toList else []
  | .advance | .append _ => []

/-- What all actions of a run have given, or passed over. -/
def collect (part : LiveList α → Action α → List α) : LiveList α → List (Action α) → List α
  | _, [] => []
  | list, action :: actions => part list action ++ collect part (list.act action) actions

theorem collect_append (part : LiveList α → Action α → List α) (list : LiveList α)
    (first second : List (Action α)) :
    collect part list (first ++ second) =
      collect part list first ++ collect part (Transition.run act list first) second := by
  induction first generalizing list with
  | nil => rfl
  | cons action actions induction =>
      rw [List.cons_append, collect, induction, collect, List.append_assoc, Transition.run_cons]

/-! What is ahead after each action. -/

variable {items : List α} {next : Nat} {item : α}

theorem drop_erase_of_mem_take (behind : item ∈ items.take next) :
    (items.erase item).drop next = items.drop (next + 1) := by
  have split : items.erase item = (items.take next).erase item ++ items.drop next := by
    rw [← List.erase_append_left _ behind, List.take_append_drop]
  have length := List.length_erase_of_mem behind
  have positive := List.length_pos_of_mem behind
  rw [List.length_take] at length positive
  rw [split, List.drop_append, List.drop_of_length_le (by omega), List.nil_append, List.drop_drop,
    length]
  obtain inside | outside := Nat.le_total next items.length
  · congr 1
    omega
  · rw [List.drop_of_length_le (by omega), List.drop_of_length_le (by omega)]

theorem drop_erase_of_not_mem_take (ahead : item ∉ items.take next) :
    (items.erase item).drop next = (items.drop next).erase item := by
  have split : items.erase item = items.take next ++ (items.drop next).erase item := by
    rw [← List.erase_append_right _ ahead, List.take_append_drop]
  obtain inside | outside := Nat.le_total next items.length
  · rw [split, List.drop_left' (by rw [List.length_take, Nat.min_eq_left inside])]
  · have shorter := List.length_erase_le (a := item) (l := items)
    rw [List.drop_of_length_le (Nat.le_trans shorter outside), List.drop_of_length_le outside]
    rfl

/-- An item that is not removed is given, or passed over, or ahead, as often as before. -/
theorem count_act {list : LiveList α} {action : Action α} (held : item ∈ list.items)
    (stays : action ≠ .remove item) :
    item ∈ (list.act action).items ∧
      (list.given action).count item + (list.passedOver action).count item +
        (list.act action).ahead.count item = list.ahead.count item := by
  cases action with
  | advance =>
      refine ⟨held, ?_⟩
      rw [ahead, ahead, drop_eq_append_drop_succ list.items, List.count_append]
      rfl
  | append other =>
      rw [act]
      split
      · exact ⟨held, by rw [given, passedOver, List.count_nil, Nat.zero_add]⟩
      · rename_i notHeld
        have apart : other ≠ item := fun same => notHeld (same ▸ held)
        refine ⟨List.mem_append_left _ held, ?_⟩
        have none_ : item ∉ [other].drop (list.next - list.items.length) := fun member =>
          apart (List.mem_singleton.mp (List.mem_of_mem_drop member)).symm
        rw [ahead, ahead, List.drop_append, List.count_append, List.count_eq_zero_of_not_mem none_,
          given, passedOver, List.count_nil, Nat.zero_add, Nat.add_zero]
  | remove other =>
      have apart : item ≠ other := fun same => stays (congrArg Action.remove same.symm)
      refine ⟨(List.mem_erase_of_ne apart).mpr held, ?_⟩
      rw [given, passedOver, List.count_nil, Nat.zero_add, act, ahead, ahead]
      split
      · rename_i behind
        rw [drop_erase_of_mem_take behind, drop_eq_append_drop_succ list.items list.next,
          List.count_append]
      · rename_i notBehind
        rw [drop_erase_of_not_mem_take notBehind, List.count_erase_of_ne apart, List.count_nil,
          Nat.zero_add]

theorem count_run {list : LiveList α} {actions : List (Action α)} (held : item ∈ list.items)
    (stays : .remove item ∉ actions) :
    item ∈ (Transition.run act list actions).items ∧
      (collect given list actions).count item + (collect passedOver list actions).count item +
        (Transition.run act list actions).ahead.count item = list.ahead.count item := by
  induction actions generalizing list with
  | nil => exact ⟨held, Nat.zero_add _⟩
  | cons action actions induction =>
      rw [List.mem_cons, not_or] at stays
      obtain ⟨heldNext, here⟩ := count_act held (Ne.symm stays.1)
      obtain ⟨heldLast, later⟩ := induction heldNext stays.2
      refine ⟨heldLast, ?_⟩
      rw [collect, collect, List.count_append, List.count_append, Transition.run_cons]
      omega

theorem nodup_act {list : LiveList α} (nodup : list.items.Nodup) (action : Action α) :
    (list.act action).items.Nodup := by
  cases action with
  | advance => exact nodup
  | append other =>
      rw [act]
      split
      · exact nodup
      · rename_i notHeld
        exact List.concat_eq_append ▸ List.Nodup.concat notHeld nodup
  | remove other => exact nodup.erase other

theorem not_mem_act {list : LiveList α} {action : Action α} (gone : item ∉ list.items)
    (stays : action ≠ .append item) : item ∉ (list.act action).items := by
  cases action with
  | advance => exact gone
  | append other =>
      rw [act]
      split
      · exact gone
      · intro member
        obtain held | last := List.mem_append.mp member
        · exact gone held
        · exact stays (congrArg Action.append (List.mem_singleton.mp last).symm)
  | remove other => exact fun member => gone (List.mem_of_mem_erase member)

theorem not_mem_run {list : LiveList α} {actions : List (Action α)} (gone : item ∉ list.items)
    (stays : .append item ∉ actions) : item ∉ (Transition.run act list actions).items := by
  induction actions generalizing list with
  | nil => exact gone
  | cons action actions induction =>
      rw [List.mem_cons, not_or] at stays
      exact induction (not_mem_act gone (Ne.symm stays.1)) stays.2

/-- What is removed and not appended again is gone at the end. -/
theorem not_mem_run_of_removed {list : LiveList α} {actions : List (Action α)}
    (nodup : list.items.Nodup) (removed : .remove item ∈ actions)
    (stays : .append item ∉ actions) : item ∉ (Transition.run act list actions).items := by
  induction actions generalizing list with
  | nil => cases removed
  | cons action actions induction =>
      rw [List.mem_cons, not_or] at stays
      obtain now | later := List.mem_cons.mp removed
      · rw [Transition.run_cons, ← now]
        exact not_mem_run (fun member => (nodup.mem_erase_iff.mp member).1 rfl) stays.2
      · exact induction (nodup_act nodup action) later stays.2

end LiveList

end Segvault
