import Segvault.Odometer
import Mathlib.Algebra.Order.BigOperators.GroupWithZero.List
import Mathlib.Algebra.Order.Ring.Nat

namespace Segvault.Untidy

open Odometer

/-! The iterator of xmlFuzzer._generateIterator. -/

inductive NextError
  | stopIteration
  | indexError
  deriving DecidableEq, Repr

/-- `items[index]`, where a negative index counts from the end. -/
def subscript {α : Type} (items : List α) (index : Int) : Except NextError α :=
  let index := if index < 0 then index + items.length else index
  if index < 0 then .error .indexError
  else
    match items[index.toNat]? with
    | some item => .ok item
    | none => .error .indexError

structure Iterator where
  fi : List (List String)
  counter : List Nat
  stopIteration : Bool
  deriving DecidableEq, Repr

namespace Iterator

/-- `self._counter[len(self._fi) - 1] = 0` fixes the first call to next(). -/
def new (fuzzedItems : List (List String)) : Except NextError Iterator :=
  if fuzzedItems = [] then .error .indexError
  else
    .ok {
      fi := fuzzedItems
      counter := (List.replicate fuzzedItems.length 1).set (fuzzedItems.length - 1) 0
      stopIteration := false }

def fetchData (fi : List (List String)) (counter : List Nat) :
    Except NextError (List String) :=
  (List.range counter.length).mapM fun (pos : Nat) => do
    let items ← subscript fi pos
    let count ← subscript counter pos
    subscript items ((count : Int) - 1)

/-- One position of the loop of _incrementCounter. -/
def carry (fi : List (List String)) (counter : List Nat) (position : Nat) :
    Except NextError (List Nat) := do
  let count ← subscript counter position
  let items ← subscript fi position
  if items.length < count then
    -- `position - 1` is -1 at the first position, and then the last one is meant
    let previous := if position = 0 then counter.length - 1 else position - 1
    .ok ((counter.set position 1).modify previous (· + 1))
  else .ok counter

/-- `self._counter[len(self._counter) - 1] += 1` -/
def bumpLast (counter : List Nat) : List Nat :=
  counter.modify (counter.length - 1) (· + 1)

def incrementCounter (self : Iterator) : Except NextError Iterator := do
  if self.counter = [] then throw .indexError
  let counter ← (List.range self.counter.length).reverse.foldlM (carry self.fi)
    (bumpLast self.counter)
  let equal ← (List.range counter.length).mapM fun (c : Nat) => do
    let count ← subscript counter c
    let items ← subscript self.fi c
    pure (decide (count = items.length))
  .ok { self with counter, stopIteration := self.stopIteration || equal.all id }

def next (self : Iterator) : Except NextError (String × Iterator) :=
  if self.stopIteration then .error .stopIteration
  else do
    let self ← self.incrementCounter
    let itemList ← fetchData self.fi self.counter
    .ok (String.join itemList, self)

/-- What the first calls of next() give; one that raises StopIteration changes nothing. -/
def nexts : Nat → Iterator → List (Except NextError String)
  | 0, _ => []
  | count + 1, self =>
      match self.next with
      | .ok (xmlStr, self) => .ok xmlStr :: nexts count self
      | .error error => .error error :: nexts count self

end Iterator

/-! Choices: an index for each position. -/

def radices (fuzzedItems : List (List String)) : List Nat := fuzzedItems.map List.length

theorem radices_cons (items : List String) (fuzzedItems : List (List String)) :
    radices (items :: fuzzedItems) = items.length :: radices fuzzedItems := rfl

@[simp] theorem length_radices (fuzzedItems : List (List String)) :
    (radices fuzzedItems).length = fuzzedItems.length :=
  List.length_map _

theorem radices_pos {fuzzedItems : List (List String)} (each : ∀ items ∈ fuzzedItems, items ≠ [])
    (radix : Nat) (member : radix ∈ radices fuzzedItems) : 0 < radix := by
  obtain ⟨items, listed, rfl⟩ := List.mem_map.mp member
  exact List.length_pos_of_ne_nil (each items listed)

def chosen (fuzzedItems : List (List String)) (choice : List Nat) : List String :=
  List.zipWith (fun items index => items.getD index "") fuzzedItems choice

theorem subscript_eq {α : Type} {items : List α} {index : Nat} (inside : index < items.length) :
    subscript items index = .ok items[index] := by
  rw [subscript]
  simp only [if_neg (show ¬ (index : Int) < 0 by omega), Int.toNat_natCast,
    List.getElem?_eq_getElem inside]

theorem mapM_ok {α β : Type} {f : α → Except NextError β} {g : α → β} {items : List α}
    (each : ∀ item ∈ items, f item = .ok (g item)) : items.mapM f = .ok (items.map g) := by
  induction items with
  | nil => rfl
  | cons item items induction =>
      rw [List.mapM_cons, each item List.mem_cons_self,
        induction fun other member => each other (List.mem_cons_of_mem _ member)]
      rfl

namespace Iterator

variable {front back fi : List (List String)} {counts others counter : List Nat}

theorem modify_middle (before : List Nat) (count : Nat) (after : List Nat) :
    (before ++ count :: after).modify before.length (· + 1) =
      before ++ (count + 1) :: after := by
  induction before with
  | nil => rfl
  | cons first before induction => simp [induction]

theorem bumpLast_concat (counts : List Nat) (count : Nat) :
    bumpLast (counts ++ [count]) = counts ++ [count + 1] := by
  rw [bumpLast, List.length_append, List.length_singleton, Nat.add_sub_cancel,
    modify_middle]

/-- The loop at the position after `counts`. -/
theorem carry_eq (aligned : counts.length = front.length) (items : List String) (count : Nat)
    (before : counts ≠ [] ∨ count ≤ items.length) :
    carry (front ++ items :: back) (counts ++ count :: others) front.length =
      .ok (if items.length < count then bumpLast counts ++ 1 :: others
        else counts ++ count :: others) := by
  have here : subscript (counts ++ count :: others) front.length = .ok count := by
    rw [subscript_eq (by simp; omega)]
    simp [← aligned]
  have there : subscript (front ++ items :: back) front.length = .ok items := by
    rw [subscript_eq (by simp)]
    simp
  rw [carry, here, there]
  simp only [bind, Except.bind]
  split
  · rename_i exceeds
    obtain ⟨init, last, rfl⟩ : ∃ init last, counts = init ++ [last] :=
      (List.eq_nil_or_concat' counts).resolve_left (before.resolve_right (by omega))
    rw [List.length_append, List.length_singleton] at aligned
    have reset : (init ++ [last] ++ count :: others).set front.length 1 =
        init ++ last :: 1 :: others := by
      rw [← aligned, List.set_append_right _ _ (by simp)]
      simp
    have previous : front.length - 1 = init.length := by omega
    rw [if_neg (by omega), reset, previous, modify_middle, bumpLast_concat]
    simp
  · rfl

theorem advance_cons (radix count : Nat) (rest counts : List Nat) :
    advance (radix :: rest) (count :: counts) =
      if (advance rest counts).1 then
        if radix < count + 1 then (true, 1 :: (advance rest counts).2)
        else (false, (count + 1) :: (advance rest counts).2)
      else (false, count :: (advance rest counts).2) := rfl

/-- The loop over the positions after `counts`, from the last one down. -/
theorem foldlM_carry {after : List Nat} (aligned : counts.length = front.length)
    (bounded : List.Forall₂ (fun count (items : List String) => count ≤ items.length)
      after back)
    (within : counts ≠ [] ∨ (advance (radices back) after).1 = false) :
    (List.range' front.length back.length).reverse.foldlM (carry (front ++ back))
        (bumpLast (counts ++ after)) =
      .ok ((if (advance (radices back) after).1 then bumpLast counts else counts) ++
        (advance (radices back) after).2) := by
  induction bounded generalizing front counts with
  | nil =>
      rw [List.append_nil, List.append_nil]
      simp [radices, advance, pure, Except.pure]
  | @cons count items after back small _ induction =>
      have longer : (counts ++ [count]).length = (front ++ [items]).length := by
        simp [aligned]
      have later := induction longer (.inl (by simp))
      rw [List.append_assoc, List.append_assoc, List.singleton_append, List.singleton_append,
        List.length_append, List.length_singleton] at later
      rw [List.length_cons, List.range'_succ, List.reverse_cons, List.foldlM_append, later]
      rw [radices_cons, advance_cons] at within ⊢
      cases carried : (advance (radices back) after).1 with
      | true =>
          simp only [carried, if_true] at within ⊢
          rw [bumpLast_concat, List.append_assoc, List.singleton_append]
          have step := @carry_eq front back counts (advance (radices back) after).2 aligned
            items (count + 1) (within.imp_right fun free => by
              by_contra within'
              rw [if_pos (by omega)] at free
              cases free)
          simp only [bind, Except.bind, List.foldlM_cons, List.foldlM_nil, step]
          split <;> rfl
      | false =>
          simp only [carried, Bool.false_eq_true, if_false] at within ⊢
          rw [List.append_assoc, List.singleton_append]
          have step := @carry_eq front back counts (advance (radices back) after).2 aligned
            items count (.inr small)
          rw [if_neg (by omega)] at step
          simp only [bind, Except.bind, List.foldlM_cons, List.foldlM_nil, step]
          rfl

/-- What one increment makes of a counter that does not overflow. -/
theorem incrementCounter_eq {self : Iterator} {ds : List Nat} (nonempty : self.counter ≠ [])
    (bounded : List.Forall₂ (fun count (items : List String) => count ≤ items.length)
      self.counter self.fi)
    (advanced : advance (radices self.fi) self.counter = (false, shown ds))
    (valid : Valid (radices self.fi) ds) :
    self.incrementCounter = .ok { self with
      counter := shown ds
      stopIteration := self.stopIteration || decide (shown ds = radices self.fi) } := by
  have swept := @foldlM_carry [] self.fi [] self.counter rfl bounded (.inr (by rw [advanced]))
  have aligned := bounded.length_eq
  have size : (shown ds).length = self.fi.length := by
    rw [shown, List.length_map, ← valid.length_eq, length_radices]
  rw [advanced, List.length_nil, ← List.range_eq_range', List.nil_append, List.nil_append,
    ← aligned] at swept
  simp only [Bool.false_eq_true, if_false, List.nil_append] at swept
  have compared : (List.range (shown ds).length).mapM (fun (c : Nat) => do
      let count ← subscript (shown ds) c
      let items ← subscript self.fi c
      pure (decide (count = items.length))) =
      .ok ((List.range (shown ds).length).map fun c =>
        decide ((shown ds)[c]? = (radices self.fi)[c]?)) := by
    refine mapM_ok fun c member => ?_
    have inside := List.mem_range.mp member
    have there : c < self.fi.length := by omega
    rw [subscript_eq inside, subscript_eq there, List.getElem?_eq_getElem inside]
    simp [radices, there, bind, Except.bind, pure, Except.pure]
  have full : ((List.range (shown ds).length).map fun c =>
      decide ((shown ds)[c]? = (radices self.fi)[c]?)).all id =
      decide (shown ds = radices self.fi) := by
    rw [List.all_map, Bool.eq_iff_iff, List.all_eq_true, decide_eq_true_iff]
    refine ⟨fun each => List.ext_getElem? fun c => ?_, fun same c _ => ?_⟩
    · by_cases inside : c < (shown ds).length
      · exact of_decide_eq_true (each c (List.mem_range.mpr inside))
      · rw [List.getElem?_eq_none (by omega),
          List.getElem?_eq_none (by rw [length_radices]; omega)]
    · exact decide_eq_true (by rw [same])
  rw [incrementCounter, if_neg nonempty]
  simp only [bind, Except.bind, pure, Except.pure] at compared ⊢
  rw [swept]
  simp only [compared, full]

theorem fetchData_eq {fi : List (List String)} {ds : List Nat}
    (valid : Valid (radices fi) ds) :
    fetchData fi (shown ds) = .ok (chosen fi ds) := by
  have aligned : fi.length = ds.length := by rw [← length_radices, valid.length_eq]
  have each : fetchData fi (shown ds) = .ok ((List.range (shown ds).length).map fun pos =>
      (fi.getD pos []).getD (ds.getD pos 0) "") := by
    refine mapM_ok fun pos member => ?_
    have inside := List.mem_range.mp member
    have inside' : pos < ds.length := by rwa [shown, List.length_map] at inside
    have there : pos < fi.length := by omega
    have digit : ds[pos] < fi[pos].length := by
      have compared := (List.forall₂_iff_get.mp valid).2 pos (by simpa using there) inside'
      simpa [radices] using compared
    have index : (((shown ds)[pos] : Nat) : Int) - 1 = (ds[pos] : Nat) := by
      simp [shown]
    rw [subscript_eq inside, subscript_eq there]
    simp only [bind, Except.bind]
    rw [index, subscript_eq digit]
    simp [inside', there, digit]
  rw [each, chosen]
  congr 1
  refine List.ext_getElem (by simp [shown, aligned]) fun pos inside inside' => ?_
  rw [List.length_zipWith] at inside'
  have there : pos < fi.length := by omega
  have place : pos < ds.length := by omega
  simp [there, place]

/-- One call of next() that increments a counter without overflow. -/
theorem next_eq {self : Iterator} {ds : List Nat} (running : self.stopIteration = false)
    (nonempty : self.counter ≠ [])
    (bounded : List.Forall₂ (fun count (items : List String) => count ≤ items.length)
      self.counter self.fi)
    (advanced : advance (radices self.fi) self.counter = (false, shown ds))
    (valid : Valid (radices self.fi) ds) :
    self.next = .ok (String.join (chosen self.fi ds), { self with
      counter := shown ds
      stopIteration := decide (shown ds = radices self.fi) }) := by
  rw [next, if_neg (by simp [running]), incrementCounter_eq nonempty bounded advanced valid]
  simp only [bind, Except.bind, fetchData_eq valid, running, Bool.false_or]

/-! The run of the iterator. -/

/-- The iterator after it gave the combination of a number. -/
def shows (fi : List (List String)) (number : Nat) : Iterator where
  fi := fi
  counter := shown (digits (radices fi) number)
  stopIteration := decide (number + 1 = (radices fi).prod)

theorem next_new (nonempty : fi ≠ []) (each : ∀ items ∈ fi, items ≠ []) :
    ∃ start, new fi = .ok start ∧
      start.next = .ok (String.join (chosen fi (digits (radices fi) 0)), shows fi 0) := by
  have positive := radices_pos each
  have small : 0 < (radices fi).prod := List.prod_pos positive
  have some : 0 < fi.length := List.length_pos_of_ne_nil nonempty
  have counter : (List.replicate fi.length 1).set (fi.length - 1) 0 =
      List.replicate (fi.length - 1) 1 ++ [0] := by
    obtain ⟨size, same⟩ : ∃ size, fi.length = size + 1 := ⟨fi.length - 1, by omega⟩
    rw [same, Nat.add_sub_cancel, List.replicate_succ', List.set_append_right _ _ (by simp)]
    simp
  refine ⟨_, if_neg nonempty, ?_⟩
  rw [counter]
  have advanced := @advance_below (radices fi) (by simpa [radices] using nonempty) positive
  rw [length_radices] at advanced
  rw [next_eq rfl (by simp) ?_ advanced (digits_valid small)]
  · simp only [shows, shown_eq_radices small]
  · refine List.forall₂_iff_get.mpr ⟨by simp; omega, fun index inside inside' => ?_⟩
    have bound : (List.replicate (fi.length - 1) 1 ++ [0])[index] ≤ 1 := by
      have member := List.getElem_mem inside
      rcases List.mem_append.mp member with one | zero
      · rw [List.eq_of_mem_replicate one]
      · rw [List.mem_singleton.mp zero]
        exact Nat.zero_le 1
    exact Nat.le_trans bound (List.length_pos_of_ne_nil (each _ (List.getElem_mem _)))

theorem next_shows {number : Nat} (nonempty : fi ≠ [])
    (more : number + 1 < (radices fi).prod) :
    (shows fi number).next =
      .ok (String.join (chosen fi (digits (radices fi) (number + 1))), shows fi (number + 1)) := by
  have small : number < (radices fi).prod := Nat.lt_of_succ_lt more
  have valid := digits_valid small
  have advanced := advance_shown small
  rw [decide_eq_false more.ne, Nat.mod_eq_of_lt more] at advanced
  have some : (shows fi number).counter ≠ [] := by
    have length := valid.length_eq
    rw [length_radices] at length
    have positive := List.length_pos_of_ne_nil nonempty
    rw [← List.length_pos_iff, shows, shown, List.length_map]
    omega
  rw [next_eq (decide_eq_false more.ne) some ?_ advanced (digits_valid more)]
  · simp only [shows, shown_eq_radices more]
  · rw [shows, shown, List.forall₂_map_left_iff]
    exact (List.forall₂_map_left_iff.mp valid).flip

theorem nexts_stopped {self : Iterator} (stopped : self.stopIteration = true) (count : Nat) :
    nexts count self = List.replicate count (.error .stopIteration) := by
  induction count with
  | zero => rfl
  | succ count induction =>
      rw [nexts, next, if_pos stopped, List.replicate_succ, induction]

theorem nexts_shows {number : Nat} (nonempty : fi ≠ []) (small : number < (radices fi).prod)
    (count : Nat) :
    nexts count (shows fi number) = (List.range count).map fun call =>
      if number + 1 + call < (radices fi).prod then
        .ok (String.join (chosen fi (digits (radices fi) (number + 1 + call))))
      else .error .stopIteration := by
  induction count generalizing number with
  | zero => rfl
  | succ count induction =>
      rw [List.range_succ_eq_map, List.map_cons, List.map_map, nexts, Nat.add_zero]
      by_cases more : number + 1 < (radices fi).prod
      · rw [next_shows nonempty more, if_pos more]
        simp only [induction more]
        congr 1
        refine List.map_congr_left fun call _ => ?_
        simp only [Function.comp_apply, Nat.succ_eq_add_one, Nat.add_assoc, Nat.add_comm 1 call]
      · have stopped : (shows fi number).stopIteration = true := decide_eq_true (by omega)
        rw [next, if_pos stopped, if_neg more]
        simp only [nexts_stopped stopped]
        congr 1
        refine (List.eq_replicate_iff.mpr ⟨by simp, fun outcome member => ?_⟩).symm
        obtain ⟨call, -, rfl⟩ := List.mem_map.mp member
        exact if_neg (by simp only [Nat.succ_eq_add_one]; omega)

end Iterator

/-- The calls of next() give the chosen strings joined, for all the choices in lexicographic
order, each once, and then StopIteration for ever. -/
theorem generateIterator_enumerates (fuzzedItems : List (List String))
    (nonempty : fuzzedItems ≠ []) (each : ∀ items ∈ fuzzedItems, items ≠ []) :
    ∃ start, ∃ choices : List (List Nat), Iterator.new fuzzedItems = .ok start ∧
      choices.Pairwise (· < ·) ∧
      (∀ choice, choice ∈ choices ↔
        List.Forall₂ (fun (items : List String) index => index < items.length)
          fuzzedItems choice) ∧
      choices.length = (fuzzedItems.map List.length).prod ∧
      ∀ count, Iterator.nexts count start = (List.range count).map fun call =>
        match choices[call]? with
        | some choice => .ok (String.join (chosen fuzzedItems choice))
        | none => .error .stopIteration := by
  obtain ⟨start, made, first⟩ := Iterator.next_new nonempty each
  have some : 0 < (radices fuzzedItems).prod := List.prod_pos (radices_pos each)
  refine ⟨start, (List.range (radices fuzzedItems).prod).map (digits (radices fuzzedItems)), made,
    ?_, fun choice => ?_, by simp [radices], fun count => ?_⟩
  · refine List.pairwise_map.mpr (List.pairwise_lt_range.imp_of_mem fun _ member later => ?_)
    exact digits_lt (List.mem_range.mp member) later
  · have valid : Valid (radices fuzzedItems) choice ↔
        List.Forall₂ (fun (items : List String) index => index < items.length)
          fuzzedItems choice := by
      rw [Valid, radices, List.forall₂_map_left_iff]
    rw [← valid]
    refine ⟨fun member => ?_, fun valid => ?_⟩
    · obtain ⟨number, below, rfl⟩ := List.mem_map.mp member
      exact digits_valid (List.mem_range.mp below)
    · obtain ⟨number, below, rfl⟩ := exists_digits valid
      exact List.mem_map_of_mem (List.mem_range.mpr below)
  · cases count with
    | zero => rfl
    | succ count =>
        rw [List.range_succ_eq_map, List.map_cons, List.map_map, Iterator.nexts, first]
        simp only [Iterator.nexts_shows nonempty some]
        congr 1
        · simp [some]
        · refine List.map_congr_left fun call _ => ?_
          by_cases more : call + 1 < (radices fuzzedItems).prod
          · rw [if_pos (by omega)]
            simp [more, Nat.add_comm]
          · rw [if_neg (by omega)]
            simp [Nat.not_lt.mp more]

theorem generateIterator_enumerates_two :
    ∃ start, ∃ choices : List (List Nat), Iterator.new [["a", "b"], ["c"]] = .ok start ∧
      choices.Pairwise (· < ·) ∧
      (∀ choice, choice ∈ choices ↔
        List.Forall₂ (fun (items : List String) index => index < items.length)
          [["a", "b"], ["c"]] choice) ∧
      choices.length = ([["a", "b"], ["c"]].map List.length).prod ∧
      ∀ count, Iterator.nexts count start = (List.range count).map fun call =>
        match choices[call]? with
        | some choice => .ok (String.join (chosen [["a", "b"], ["c"]] choice))
        | none => .error .stopIteration :=
  generateIterator_enumerates [["a", "b"], ["c"]] (by decide) (by decide)

end Segvault.Untidy
