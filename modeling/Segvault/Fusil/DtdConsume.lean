import Mathlib.Data.List.Induction

namespace Segvault.Fusil

/-! The table of elements and their attributes: `XMLGen.elems`. -/

structure ElementTable (ν : Type) where
  keys : List ν := []
  attributes : ν → List ν := fun _ => []

/-! `DTDConsume`: `fusil/xmlgen.py`. -/

/-- What the parser of a DTD tells its consumer. -/
inductive DtdEvent (ν : Type)
  | newGeneralEntity
  | newExternalEntity
  | newParameterEntity
  | newExternalPe
  | newNotation
  | newElementType (name : ν)
  | newAttribute (elem attr : ν)
  | handleComment
  | handlePi

structure DtdConsume (ν : Type) where
  attlist : List (ν × ν) := []
  elems : ElementTable ν := {}

variable {ν : Type} [DecidableEq ν]

namespace ElementTable

/-- `elems[elem] = []`, unless there is such an entry. -/
def enter (elems : ElementTable ν) (elem : ν) : ElementTable ν :=
  if elem ∈ elems.keys then elems
  else
    { keys := elems.keys ++ [elem]
      attributes := Function.update elems.attributes elem [] }

/-- `elems[elem].append(attr)`, which raises without such an entry. -/
def append (elems : ElementTable ν) (elem attr : ν) : Option (ElementTable ν) :=
  if elem ∈ elems.keys then
    some { elems with
      attributes := Function.update elems.attributes elem (elems.attributes elem ++ [attr]) }
  else none

end ElementTable

namespace DtdConsume

/-- The loop of `_empty_attlist`. -/
def emptyLoop : Option ν → List (ν × ν) → ElementTable ν → Option (ElementTable ν)
  | _, [], elems => some elems
  | prev, (elem, attr) :: attlist, elems =>
      let entered := if some elem ≠ prev then elems.enter elem else elems
      (entered.append elem attr).bind (emptyLoop (some elem) attlist)

def emptyAttlist (self : DtdConsume ν) : Option (DtdConsume ν) :=
  (emptyLoop none self.attlist self.elems).map fun elems => { attlist := [], elems }

def handle (self : DtdConsume ν) : DtdEvent ν → Option (DtdConsume ν)
  | .newAttribute elem attr => some { self with attlist := self.attlist ++ [(elem, attr)] }
  | _ => self.emptyAttlist

/-- What is left when the DTD has been parsed: no method is called at its end. -/
def consume (events : List (DtdEvent ν)) : Option (DtdConsume ν) :=
  events.foldlM handle {}

end DtdConsume

/-! What is declared, in its order. -/

def DtdEvent.declared : DtdEvent ν → Option (ν × ν)
  | .newAttribute elem attr => some (elem, attr)
  | _ => none

/-- The attributes of one element. -/
def attributesOf (elem : ν) (declared : List (ν × ν)) : List ν :=
  (declared.filter fun entry => entry.1 = elem).map Prod.snd

/-- The table has an entry for each element with attributes, and each lists its own. -/
structure ElementTable.Lists (elems : ElementTable ν) (declared : List (ν × ν)) : Prop where
  keys : ∀ elem, elem ∈ elems.keys ↔ attributesOf elem declared ≠ []
  attributes : ∀ elem, elems.attributes elem = attributesOf elem declared

theorem attributesOf_append (elem : ν) (first second : List (ν × ν)) :
    attributesOf elem (first ++ second) = attributesOf elem first ++ attributesOf elem second := by
  rw [attributesOf, List.filter_append, List.map_append]
  rfl

theorem attributesOf_concat (elem : ν) (declared : List (ν × ν)) (entry : ν × ν) :
    attributesOf elem (declared ++ [entry]) =
      attributesOf elem declared ++ if entry.1 = elem then [entry.2] else [] := by
  rw [attributesOf_append]
  by_cases same : entry.1 = elem
  · simp [attributesOf, same]
  · simp [attributesOf, same]

namespace ElementTable

variable {elems : ElementTable ν} {declared : List (ν × ν)}

/-- Adding an attribute to an entry, which may be a new one. -/
theorem Lists.concat (lists : elems.Lists declared) (elem attr : ν) {after : ElementTable ν}
    (keys : ∀ other, other ∈ after.keys ↔ other ∈ elems.keys ∨ other = elem)
    (own : after.attributes elem = elems.attributes elem ++ [attr])
    (others : ∀ other, other ≠ elem → after.attributes other = elems.attributes other) :
    after.Lists (declared ++ [(elem, attr)]) where
  keys other := by
    rw [keys, lists.keys, attributesOf_concat]
    by_cases same : elem = other
    · simp [same]
    · simp [same, Ne.symm same]
  attributes other := by
    rw [attributesOf_concat]
    by_cases same : elem = other
    · subst same
      rw [own, lists.attributes, if_pos rfl]
    · rw [others other (Ne.symm same), lists.attributes, if_neg same, List.append_nil]

/-- An entry is made where there is none, and the attribute comes after those before. -/
theorem Lists.append (lists : elems.Lists declared) (elem attr : ν) {prev : Option ν}
    (known : ∀ elem ∈ prev, elem ∈ elems.keys) :
    ∃ after : ElementTable ν,
      (if some elem ≠ prev then elems.enter elem else elems).append elem attr = some after ∧
        after.Lists (declared ++ [(elem, attr)]) ∧ elem ∈ after.keys := by
  by_cases present : elem ∈ elems.keys
  · have same : (if some elem ≠ prev then elems.enter elem else elems) = elems := by
      rw [enter, if_pos present, ite_self]
    rw [same]
    refine ⟨_, if_pos present, ?_, present⟩
    refine lists.concat elem attr (fun other => ?_) (Function.update_self ..)
      fun other differs => Function.update_of_ne differs ..
    exact ⟨.inl, fun either => either.elim id fun same => same ▸ present⟩
  · have differs : some elem ≠ prev := fun same => present (known elem same.symm)
    have entered : elem ∈ (elems.enter elem).keys := by
      rw [enter, if_neg present]
      exact List.mem_append_right _ List.mem_cons_self
    have none_ : elems.attributes elem = [] := by
      rw [lists.attributes]
      exact not_not.mp fun some_ => present ((lists.keys elem).mpr some_)
    rw [if_pos differs]
    refine ⟨_, if_pos entered, ?_, entered⟩
    refine lists.concat elem attr (fun other => ?_) ?_ fun other differs => ?_
    · simp only [enter, if_neg present, List.mem_append, List.mem_singleton]
    · simp only [enter, if_neg present, Function.update_self, none_]
    · simp only [enter, if_neg present, Function.update_of_ne differs]

end ElementTable

namespace DtdConsume

theorem emptyLoop_lists {attlist declared : List (ν × ν)} {elems : ElementTable ν}
    {prev : Option ν} (lists : elems.Lists declared)
    (known : ∀ elem ∈ prev, elem ∈ elems.keys) :
    ∃ after, emptyLoop prev attlist elems = some after ∧ after.Lists (declared ++ attlist) := by
  induction attlist generalizing prev elems declared with
  | nil => exact ⟨elems, rfl, (List.append_nil declared).symm ▸ lists⟩
  | cons entry attlist induction =>
      obtain ⟨elem, attr⟩ := entry
      obtain ⟨middle, appended, lists, entered⟩ := lists.append elem attr known
      obtain ⟨after, looped, lists⟩ := @induction _ middle (some elem) lists
        fun other same => Option.some.inj same ▸ entered
      refine ⟨after, ?_, ?_⟩
      · rw [emptyLoop, appended]
        exact looped
      · rwa [List.append_assoc] at lists

/-- The table lists what is declared, but for the attributes that are still pending. -/
structure Consumed (consumer : DtdConsume ν) (events : List (DtdEvent ν)) : Prop where
  lists : ∃ flushed, consumer.elems.Lists flushed ∧
    events.filterMap DtdEvent.declared = flushed ++ consumer.attlist
  pending : consumer.attlist ≠ [] ↔ ∃ event ∈ events.getLast?, event.declared ≠ none

theorem Consumed.flush {self : DtdConsume ν} {events : List (DtdEvent ν)}
    (consumed : self.Consumed events) {event : DtdEvent ν} (other : event.declared = none) :
    ∃ after, self.emptyAttlist = some after ∧ after.Consumed (events ++ [event]) := by
  obtain ⟨flushed, lists, declared⟩ := consumed.lists
  obtain ⟨elems, looped, lists⟩ := @emptyLoop_lists _ _ self.attlist _ _ none lists nofun
  refine ⟨{ attlist := [], elems }, ?_, ⟨flushed ++ self.attlist, lists, ?_⟩, ?_⟩
  · rw [emptyAttlist, looped]
    rfl
  · rw [List.filterMap_append, declared, List.filterMap_cons_none other]
    rfl
  · rw [List.getLast?_concat]
    refine iff_of_false (fun nonempty => nonempty rfl) ?_
    rintro ⟨_, ⟨⟩, some_⟩
    exact some_ other

theorem Consumed.handle {self : DtdConsume ν} {events : List (DtdEvent ν)}
    (consumed : self.Consumed events) (event : DtdEvent ν) :
    ∃ after, self.handle event = some after ∧ after.Consumed (events ++ [event]) := by
  cases event with
  | newAttribute elem attr =>
      obtain ⟨flushed, lists, declared⟩ := consumed.lists
      refine ⟨_, rfl, ⟨flushed, lists, ?_⟩, ?_⟩
      · rw [List.filterMap_append, declared, List.append_assoc]
        rfl
      · rw [List.getLast?_concat]
        exact iff_of_true (List.append_ne_nil_of_right_ne_nil _ (List.cons_ne_nil _ _))
          ⟨_, rfl, nofun⟩
  | newGeneralEntity | newExternalEntity | newParameterEntity | newExternalPe | newNotation
  | newElementType | handleComment | handlePi => exact consumed.flush rfl

theorem consume_spec (events : List (DtdEvent ν)) :
    ∃ self, consume events = some self ∧ self.Consumed events := by
  induction events using List.reverseRecOn with
  | nil =>
      refine ⟨{}, rfl, ⟨[], ⟨fun elem => ?_, fun _ => rfl⟩, rfl⟩, ?_⟩
      · exact iff_of_false List.not_mem_nil fun nonempty => nonempty rfl
      · exact iff_of_false (fun nonempty => nonempty rfl) nofun
  | append_singleton events event induction =>
      obtain ⟨before, consumed, invariant⟩ := induction
      obtain ⟨after, handled, invariant⟩ := invariant.handle event
      refine ⟨after, ?_, invariant⟩
      rw [consume, List.foldlM_append]
      refine Option.bind_eq_some_iff.mpr ⟨before, consumed, ?_⟩
      rw [List.foldlM_cons, handled]
      rfl

/-- The table lists all that is declared exactly if an attribute is not the last declaration. -/
theorem consume_lists_iff (events : List (DtdEvent ν)) :
    (∃ self, consume events = some self ∧
      self.elems.Lists (events.filterMap DtdEvent.declared)) ↔
    ∀ event ∈ events.getLast?, event.declared = none := by
  obtain ⟨self, consumed, invariant⟩ := consume_spec events
  obtain ⟨flushed, lists, declared⟩ := invariant.lists
  have last : self.attlist = [] ↔ ∀ event ∈ events.getLast?, event.declared = none := by
    rw [← not_iff_not, ← ne_eq, invariant.pending]
    push Not
    rfl
  rw [← last]
  constructor
  · rintro ⟨other, same, complete⟩
    cases consumed.symm.trans same
    -- what is pending is declared, but not in the table
    refine List.eq_nil_iff_forall_not_mem.mpr fun entry member => ?_
    have differs := (lists.attributes entry.1).symm.trans (complete.attributes entry.1)
    rw [declared, attributesOf_append, List.self_eq_append_right] at differs
    have listed : entry.2 ∈ attributesOf entry.1 self.attlist :=
      List.mem_map_of_mem (List.mem_filter.mpr ⟨member, decide_eq_true rfl⟩)
    rw [differs] at listed
    cases listed
  · intro none_
    refine ⟨self, consumed, ?_⟩
    rwa [declared, none_, List.append_nil]

/-- `<!ATTLIST svg version CDATA "1.1">` at the end of a DTD. -/
theorem consume_loses :
    attributesOf "svg" ([.newElementType "svg", .newAttribute "svg" "version"].filterMap
        DtdEvent.declared) = ["version"] ∧
      (consume [.newElementType "svg", .newAttribute "svg" "version"]).map
        (fun self => self.elems.attributes "svg") = some [] := by decide

end DtdConsume

end Segvault.Fusil
