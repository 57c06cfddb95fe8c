import Segvault.Hachoir.EditableFieldSet
import Segvault.Transition

namespace Segvault.Hachoir

variable {Value : Type}

/-! What an edit asks for, on the fields of an iteration. -/

def position (name : FieldName) (fields : List (NamedField Value)) : Nat :=
  (names fields).idxOf name

def Edit.target : Edit Value → Option FieldName
  | .insertBefore name _ => some name
  | .insertAfter name _ => some name
  | .insert _ => none
  | .setValue name _ => some name
  | .delItem name => some name

def Edit.newFields : Edit Value → List (NamedField Value)
  | .insertBefore _ newFields => newFields
  | .insertAfter _ newFields => newFields
  | .insert newFields => newFields
  | .setValue .. => []
  | .delItem _ => []

def splice {α : Type} (index : Nat) (elements before : List α) : List α :=
  before.take index ++ elements ++ before.drop index

def Edit.changed (newFields before : List (NamedField Value)) :
    Edit Value → List (NamedField Value)
  | .insertBefore name _ => splice (position name before) newFields before
  | .insertAfter name _ => splice (position name before + 1) newFields before
  | .insert _ => splice before.length newFields before
  | .setValue name value =>
      before.map fun field => if field.name = name then { field with value } else field
  | .delItem name => before.filter fun field => field.name ≠ name

theorem split_position {fields : List (NamedField Value)} {name : FieldName}
    (member : name ∈ names fields) :
    ∃ field after, fields = fields.take (position name fields) ++ field :: after ∧
      field.name = name := by
  have bound : position name fields < fields.length := by
    have inside := List.idxOf_lt_length_iff.mpr member
    rw [names, List.length_map] at inside
    exact inside
  refine ⟨fields[position name fields], fields.drop (position name fields + 1), ?_, ?_⟩
  · rw [List.cons_getElem_drop_succ, List.take_append_drop]
  · have here := List.getElem_idxOf (List.idxOf_lt_length_iff.mpr member)
    simp only [names, List.getElem_map] at here
    exact here

theorem position_append {left right : List (NamedField Value)} {field : NamedField Value}
    (distinct : (names (left ++ field :: right)).Nodup) :
    position field.name (left ++ field :: right) = left.length := by
  rw [names, List.map_append, List.map_cons, List.nodup_append] at distinct
  have fresh : field.name ∉ left.map NamedField.name := fun member =>
    distinct.2.2 _ member _ List.mem_cons_self rfl
  rw [position, names, List.map_append, List.map_cons, List.idxOf_append_of_notMem fresh,
    List.idxOf_cons_self, List.length_map, Nat.add_zero]

section Splice

variable {α : Type}

theorem splice_within {left middle right : List α} {index : Nat} (elements : List α)
    (within : index ≤ middle.length) :
    left ++ splice index elements middle ++ right =
      splice (left.length + index) elements (left ++ middle ++ right) := by
  have taken : (left ++ middle ++ right).take (left.length + index) =
      left ++ middle.take index := by
    rw [List.append_assoc, List.take_length_add_append, List.take_append_of_le_length within]
  have dropped : (left ++ middle ++ right).drop (left.length + index) =
      middle.drop index ++ right := by
    rw [List.append_assoc, List.drop_length_add_append, List.drop_append_of_le_length within]
  rw [splice, splice, taken, dropped]
  simp only [List.append_assoc]

theorem splice_nil (index : Nat) (before : List α) : splice index [] before = before := by
  rw [splice, List.append_nil, List.take_append_drop]

theorem splice_whole (elements : List α) : splice 0 elements [] = elements := by
  simp [splice]

theorem splice_perm (index : Nat) (elements before : List α) :
    (splice index elements before).Perm (elements ++ before) := by
  have moved := (@List.perm_append_comm _ (before.take index) elements).append_right
    (before.drop index)
  rw [List.append_assoc elements, List.take_append_drop] at moved
  exact moved

theorem rotateRight_append (later first : List α) :
    (later ++ first).rotateRight first.length = first ++ later := by
  rw [List.rotateRight]
  dsimp only
  rw [List.length_append]
  rcases later with _ | ⟨head, later⟩
  · simp
  split
  · next short =>
      have none_first : first = [] :=
        List.eq_nil_of_length_eq_zero (by rw [List.length_cons] at short; omega)
      rw [none_first, List.append_nil, List.nil_append]
  · have index : (head :: later).length + first.length -
        first.length % ((head :: later).length + first.length) = (head :: later).length := by
      rw [Nat.mod_eq_of_lt (by rw [List.length_cons]; omega), Nat.add_sub_cancel]
    rw [index, List.drop_left, List.take_left]

theorem insertAt_splice {queue : List α} {pos : Nat} (elements : List α)
    (within : pos ≤ queue.length) :
    insertAt queue pos elements = splice pos elements queue := by
  have rotated := List.rotate_eq_drop_append_take within
  have length : (queue.take pos).length = pos := List.length_take_of_le within
  rw [insertAt, extendleft_reverse, rotated]
  have back := rotateRight_append (elements ++ queue.drop pos) (queue.take pos)
  rw [length, List.append_assoc] at back
  rw [back, splice, List.append_assoc]

end Splice

namespace EditableFieldSet

variable {self : EditableFieldSet Value}

/-! The slots and the fields that an iteration goes through. -/

structure WellFormed (editable : EditableFieldSet Value) : Prop where
  nodup : (names editable.iter).Nodup
  keys : ∀ name, some name ∈ editable.inserted → name ∈ names editable.input.fields

/-- The fields that an iteration yields before the slot of a name. -/
def early (self : EditableFieldSet Value) (name : FieldName) : List (NamedField Value) :=
  Weave.lead NamedField.name self.slots self.shown
    (self.input.fields.take (position name self.input.fields))

theorem early_split {before after : List (NamedField Value)} {field : NamedField Value}
    (split : self.input.fields = before ++ field :: after) :
    self.early field.name = Weave.lead NamedField.name self.slots self.shown before := by
  have distinct := self.input.distinct
  rw [split] at distinct
  rw [early, split, position_append distinct, List.take_left]

theorem slots_putInserted (self : EditableFieldSet Value) (key : Option FieldName)
    (fields : List (NamedField Value)) (place : Option FieldName) :
    (self.putInserted key fields).slots place =
      if place = key then fields else self.slots place := by
  rw [slots, putInserted]
  dsimp only
  split
  · next same => rw [same, AList.lookup_insert, Option.getD_some]
  · next apart => rw [AList.lookup_insert_ne apart, slots]

/-- A slot before a field. -/
theorem iter_at {name : FieldName} (known : name ∈ names self.input.fields) :
    ∃ field rest, field ∈ self.input.fields ∧ field.name = name ∧
      self.iter = self.early name ++ self.slots (some name) ++ (self.shown field ++ rest) ∧
      ∀ fields, (self.putInserted (some name) fields).iter =
        self.early name ++ fields ++ (self.shown field ++ rest) := by
  obtain ⟨field, after, split, named⟩ := split_position known
  have distinct := self.input.distinct
  rw [split] at distinct
  have slot : ∀ other : Option FieldName → List (NamedField Value),
      (∀ place, place ≠ some field.name → other place = self.slots place) →
      Weave.weave NamedField.name other self.shown self.input.fields =
        self.early name ++ other (some field.name) ++ (self.shown field ++
          Weave.weave NamedField.name self.slots self.shown after) := by
    intro other same
    have whole := @Weave.weave_slot _ _ _ _ _ _ self.shown _ _ _ distinct same
    rw [← split] at whole
    exact whole
  refine ⟨field, Weave.weave NamedField.name self.slots self.shown after, ?_, named, ?_,
    fun fields => ?_⟩
  · rw [split]
    simp
  · have own := slot self.slots fun _ _ => rfl
    rw [named] at own
    exact own
  · have put := slot (self.putInserted (some name) fields).slots fun place apart => by
      rw [slots_putInserted, if_neg (named ▸ apart)]
    rw [named, slots_putInserted, if_pos rfl] at put
    exact put

/-- The slot at the end. -/
theorem iter_last (self : EditableFieldSet Value) :
    ∃ left, self.iter = left ++ self.slots none ∧
      ∀ fields, (self.putInserted none fields).iter = left ++ fields := by
  refine ⟨Weave.lead NamedField.name self.slots self.shown self.input.fields,
    Weave.weave_lead .., fun fields => ?_⟩
  have put := @Weave.weave_last _ _ _ NamedField.name self.slots
    (self.putInserted none fields).slots self.shown self.input.fields fun place apart => by
      rw [slots_putInserted, if_neg apart]
  rw [slots_putInserted, if_pos rfl] at put
  exact put

theorem slots_of_lookup {key : Option FieldName} {fields : List (NamedField Value)}
    (lookup : self.inserted.lookup key = some fields) : self.slots key = fields := by
  rw [slots, lookup, Option.getD_some]

theorem mem_slots {key : Option FieldName} {field : NamedField Value} :
    field ∈ self.slots key ↔
      ∃ fields, ⟨key, fields⟩ ∈ self.inserted.entries ∧ field ∈ fields := by
  constructor
  · intro member
    cases lookup : self.inserted.lookup key with
    | none => simp [slots, lookup] at member
    | some fields =>
        rw [slots_of_lookup lookup] at member
        exact ⟨fields, AList.mem_lookup_iff.mp lookup, member⟩
  · rintro ⟨fields, entry, member⟩
    rw [slots_of_lookup (AList.mem_lookup_iff.mpr entry)]
    exact member

theorem mem_shown {field shown : NamedField Value} :
    shown ∈ self.shown field ↔ field.name ∉ self.deleted ∧ shown = self.getItem field := by
  rw [EditableFieldSet.shown]
  split
  · next gone => simp [gone]
  · next kept => simp [kept]

theorem WellFormed.known (wellFormed : self.WellFormed) {place : Option FieldName}
    {fields : List (NamedField Value)} (entry : ⟨place, fields⟩ ∈ self.inserted.entries) :
    ∀ name ∈ place, name ∈ names self.input.fields := by
  rintro name rfl
  exact wellFormed.keys name (AList.mem_keys.mpr (List.mem_keys_of_mem entry))

theorem mem_names_iter (wellFormed : self.WellFormed) {name : FieldName} :
    name ∈ names self.iter ↔
      (name ∈ names self.input.fields ∧ name ∉ self.deleted) ∨
        ∃ entry ∈ self.inserted.entries, name ∈ names entry.2 := by
  simp only [names, List.mem_map, iter, Weave.mem_weave]
  constructor
  · rintro ⟨field, ⟨item, member, slot | visible⟩ | slot, rfl⟩
    · obtain ⟨fields, entry, inside⟩ := mem_slots.mp slot
      exact .inr ⟨_, entry, field, inside, rfl⟩
    · obtain ⟨kept, rfl⟩ := mem_shown.mp visible
      exact .inl ⟨⟨item, member, rfl⟩, kept⟩
    · obtain ⟨fields, entry, inside⟩ := mem_slots.mp slot
      exact .inr ⟨_, entry, field, inside, rfl⟩
  · rintro (⟨⟨item, member, rfl⟩, kept⟩ | ⟨⟨place, fields⟩, entry, field, inside, rfl⟩)
    · exact ⟨self.getItem item, .inl ⟨item, member, .inr (mem_shown.mpr ⟨kept, rfl⟩)⟩, rfl⟩
    · refine ⟨field, ?_, rfl⟩
      have slot : field ∈ self.slots place := mem_slots.mpr ⟨fields, entry, inside⟩
      cases place with
      | none => exact .inr slot
      | some place =>
          obtain ⟨item, member, rfl⟩ := List.mem_map.mp (wellFormed.known entry place rfl)
          exact .inl ⟨item, member, .inl slot⟩

/-- What an iteration yields around a slot. -/
theorem iter_slot {key : Option FieldName}
    (known : ∀ name ∈ key, name ∈ names self.input.fields) :
    ∃ left right, self.iter = left ++ self.slots key ++ right ∧
      (∀ name ∈ key, left = self.early name) ∧ (key = none → right = []) ∧
      ∀ fields, (self.putInserted key fields).iter = left ++ fields ++ right := by
  cases key with
  | none =>
      obtain ⟨left, whole, put⟩ := self.iter_last
      exact ⟨left, [], by rw [whole, List.append_nil], nofun, fun _ => rfl, fun fields => by
        rw [put, List.append_nil]⟩
  | some name =>
      obtain ⟨field, rest, -, -, whole, put⟩ := iter_at (known name rfl)
      exact ⟨self.early name, self.shown field ++ rest, whole, by rintro _ ⟨⟩; rfl, nofun, put⟩

/-! The operations ask for a field of the iteration, and new names must be unused. -/

def named (self : EditableFieldSet Value) (edit : Edit Value) : List (NamedField Value) :=
  (uniqueNames self.arrayCount edit.newFields).1

def Targets (self : EditableFieldSet Value) (edit : Edit Value) : Prop :=
  ∀ name ∈ edit.target, name ∈ names self.iter

def Clash (self : EditableFieldSet Value) (edit : Edit Value) : Prop :=
  ¬ (names (self.named edit)).Nodup ∨
    ∃ name ∈ names (self.named edit), name ∈ names self.iter

instance (self : EditableFieldSet Value) (edit : Edit Value) : Decidable (self.Clash edit) :=
  inferInstanceAs (Decidable (_ ∨ _))

def refused (self : EditableFieldSet Value) (edit : Edit Value) : Option EditError :=
  match edit with
  | .setValue name value => if self.input.accepts name value then none else some .valueError
  | _ => if self.Clash edit then some .uniqKeyError else none

/-- The fields that an iteration should yield after an edit. -/
def wanted (self : EditableFieldSet Value) (edit : Edit Value) : List (NamedField Value) :=
  if self.refused edit = none then edit.changed (self.named edit) self.iter else self.iter

def KeepsOrder (self : EditableFieldSet Value) (edit : Edit Value) : Prop :=
  (self.perform edit).1 = self.refused edit ∧
    (self.perform edit).2.iter = self.wanted edit

/-! Where the slots of an edit are the right ones. -/

/-- The field after the named one, where nothing is inserted between them. -/
def FreeNext (self : EditableFieldSet Value) (name : FieldName) : Prop :=
  ∃ next ∈ self.input.fields[position name self.input.fields + 1]?,
    self.slots (some next.name) = []

def Placed (self : EditableFieldSet Value) : Edit Value → Prop
  | .insertBefore name newFields =>
      some name ∈ self.inserted →
        newFields = [] ∨ (self.early name).length = position name self.iter
  | .insertAfter name newFields =>
      (some name ∈ self.inserted →
        newFields = [] ∨ newFields.length = 1 ∧
          (self.early name).length + (self.slots (some name)).length =
            position name self.iter + 1) ∧
      (some name ∉ self.inserted →
        (∃ entry ∈ self.inserted.entries, name ∈ names entry.2) ∨ self.FreeNext name)
  | .insert newFields => none ∈ self.inserted → newFields.length ≤ 1
  | .setValue name _ => name ∈ names self.input.fields ∧ name ∉ self.deleted
  | .delItem name => name ∈ names self.input.fields ∧ name ∉ self.deleted

def Sound (self : EditableFieldSet Value) (edit : Edit Value) : Prop :=
  self.Clash edit ∨ self.Placed edit

section Positions

/-- A field that is still there. -/
theorem iter_visible {name : FieldName} (known : name ∈ names self.input.fields)
    (kept : name ∉ self.deleted) :
    ∃ field rest, field.name = name ∧
      self.iter = self.early name ++ self.slots (some name) ++ field :: rest := by
  obtain ⟨field, rest, -, rfl, whole, -⟩ := iter_at known
  refine ⟨self.getItem field, rest, rfl, ?_⟩
  rw [whole, shown, if_neg kept]
  rfl

theorem position_visible (wellFormed : self.WellFormed) {name : FieldName}
    (known : name ∈ names self.input.fields) (kept : name ∉ self.deleted) :
    position name self.iter =
      (self.early name).length + (self.slots (some name)).length := by
  obtain ⟨field, rest, rfl, whole⟩ := iter_visible known kept
  have distinct := wellFormed.nodup
  rw [whole] at distinct
  rw [whole, position_append distinct, List.length_append]

/-- A field inserted in a slot. -/
theorem position_inserted (wellFormed : self.WellFormed)
    {left fields right : List (NamedField Value)} {name : FieldName}
    (whole : self.iter = left ++ fields ++ right) (member : name ∈ names fields) :
    position name self.iter = left.length + position name fields := by
  obtain ⟨field, after, split, rfl⟩ := split_position member
  have distinct := wellFormed.nodup
  rw [split] at whole
  have around : self.iter =
      (left ++ fields.take (position field.name fields)) ++ field :: (after ++ right) := by
    rw [whole]
    simp only [List.append_assoc, List.cons_append]
  rw [around] at distinct
  have bound : position field.name fields ≤ fields.length := List.idxOf_le_length.trans_eq
    (List.length_map _)
  rw [around, position_append distinct, List.length_append, List.length_take_of_le bound]

/-- The slot of the next field comes right after a field. -/
theorem early_next {name : FieldName} {next : NamedField Value}
    (known : name ∈ names self.input.fields) (kept : name ∉ self.deleted)
    (follows : self.input.fields[position name self.input.fields + 1]? = some next) :
    (self.early next.name).length =
      (self.early name).length + (self.slots (some name)).length + 1 := by
  obtain ⟨field, after, split, rfl⟩ := split_position known
  generalize self.input.fields.take (position field.name self.input.fields) = before at split
  have distinct := self.input.distinct
  rw [split] at distinct
  rw [split, position_append distinct, List.getElem?_append_right (Nat.le_add_right _ 1),
    Nat.add_sub_cancel_left, List.getElem?_cons_succ] at follows
  obtain ⟨later, rfl⟩ : ∃ later, after = next :: later := by
    cases after with
    | nil => simp at follows
    | cons head later => exact ⟨later, by rw [Option.some.inj follows]⟩
  have shifted : self.input.fields = (before ++ [field]) ++ next :: later := by
    rw [split, List.append_assoc, List.singleton_append]
  rw [early_split shifted, early_split split, Weave.lead, List.flatMap_append,
    List.flatMap_singleton, shown, if_neg kept]
  simp only [Weave.lead, List.length_append, List.length_singleton, Nat.add_assoc]

end Positions

/-! Each branch of an insertion splices one slot. -/

/-- An insertion that comes out at an index of the iteration. -/
def Puts (self : EditableFieldSet Value) (index : Nat) (newFields : List (NamedField Value))
    (after : Except EditError (EditableFieldSet Value)) : Prop :=
  ∃ place fields, after = .ok (self.putInserted place fields) ∧
    (∀ name ∈ place, name ∈ names self.input.fields) ∧
    (self.putInserted place fields).iter = splice index newFields self.iter

section Branches

variable {newFields : List (NamedField Value)}

theorem putInserted_splice {key : Option FieldName} {left right : List (NamedField Value)}
    (whole : self.iter = left ++ self.slots key ++ right)
    (put : ∀ fields, (self.putInserted key fields).iter = left ++ fields ++ right)
    {pos : Nat} (within : pos ≤ (self.slots key).length) :
    (self.putInserted key (splice pos newFields (self.slots key))).iter =
      splice (left.length + pos) newFields self.iter := by
  rw [put, splice_within newFields within, whole]

/-- A slot that is there already. -/
theorem insertChecked_slot {key : Option FieldName} (present : key ∈ self.inserted)
    (next : Bool) :
    self.insertChecked key newFields next =
      .ok (self.putInserted key
        (if next then splice (self.slots key).length newFields.reverse (self.slots key)
        else splice 0 newFields (self.slots key))) := by
  obtain ⟨fields, lookup⟩ := Option.isSome_iff_exists.mp (AList.lookup_isSome.mpr present)
  rw [insertChecked.eq_def, lookup]
  dsimp only
  rw [slots_of_lookup lookup, extendleft_reverse]
  cases next
  · simp [splice]
  · simp [splice, extend]

theorem slots_absent {key : Option FieldName} (absent : key ∉ self.inserted) :
    self.slots key = [] := by
  rw [slots, AList.lookup_eq_none.mpr absent, Option.getD_none]

theorem insertChecked_last (absent : none ∉ self.inserted) (next : Bool) :
    self.insertChecked none newFields next = .ok (self.putInserted none newFields) := by
  rw [insertChecked, AList.lookup_eq_none.mpr absent]

/-- Next to an inserted field. -/
theorem insertChecked_inserted {name : FieldName} (absent : some name ∉ self.inserted)
    (inside : ∃ entry ∈ self.inserted.entries, name ∈ names entry.2) (next : Bool) :
    ∃ place fields, ⟨place, fields⟩ ∈ self.inserted.entries ∧ name ∈ names fields ∧
      self.insertChecked (some name) newFields next =
        .ok (self.putInserted place (splice (position name fields + if next then 1 else 0)
          newFields fields)) := by
  have found : (self.inserted.entries.find? fun entry => name ∈ names entry.2).isSome := by
    obtain ⟨entry, member, inside⟩ := inside
    exact List.find?_isSome.mpr ⟨entry, member, decide_eq_true inside⟩
  obtain ⟨⟨place, fields⟩, find⟩ := Option.isSome_iff_exists.mp found
  have holds := List.find?_some find
  have member : name ∈ names fields := of_decide_eq_true holds
  refine ⟨place, fields, List.mem_of_find?_eq_some find, member, ?_⟩
  have within : (names fields).idxOf name + (if next then 1 else 0) ≤ fields.length := by
    have bound : (names fields).idxOf name < fields.length :=
      (List.idxOf_lt_length_iff.mpr member).trans_eq (List.length_map _)
    split <;> omega
  rw [insertChecked, AList.lookup_eq_none.mpr absent, find]
  dsimp only
  rw [insertAt_splice newFields within, position]

theorem find_none {name : FieldName}
    (outside : ¬ ∃ entry ∈ self.inserted.entries, name ∈ names entry.2) :
    (self.inserted.entries.find? fun entry => name ∈ names entry.2) = none :=
  List.find?_eq_none.mpr fun entry member inside =>
    outside ⟨entry, member, of_decide_eq_true inside⟩

/-- Before a field of the input. -/
theorem insertChecked_before {name : FieldName} (absent : some name ∉ self.inserted)
    (outside : ¬ ∃ entry ∈ self.inserted.entries, name ∈ names entry.2)
    (known : name ∈ names self.input.fields) :
    self.insertChecked (some name) newFields false =
      .ok (self.putInserted (some name) newFields) := by
  rw [insertChecked, AList.lookup_eq_none.mpr absent, find_none outside]
  simp only [known, not_true, if_false, Bool.false_eq_true]

/-- After a field of the input that is not the last one. -/
theorem insertChecked_after {name : FieldName} (absent : some name ∉ self.inserted)
    (outside : ¬ ∃ entry ∈ self.inserted.entries, name ∈ names entry.2)
    (known : name ∈ names self.input.fields) {next : NamedField Value}
    (follows : self.input.fields[position name self.input.fields + 1]? = some next) :
    self.insertChecked (some name) newFields true =
      .ok (self.putInserted (some next.name) newFields) := by
  rw [position] at follows
  rw [insertChecked, AList.lookup_eq_none.mpr absent, find_none outside]
  simp only [known, not_true, if_false, if_true, follows]

/-- Around the slots of an insertion the iteration stays as it is. -/
theorem Puts.of_slot {key : Option FieldName}
    (known : ∀ name ∈ key, name ∈ names self.input.fields) {pos : Nat}
    (within : pos ≤ (self.slots key).length) {index : Nat}
    (here : ∀ left right, self.iter = left ++ self.slots key ++ right →
      (∀ name ∈ key, left = self.early name) → (key = none → right = []) →
      newFields = [] ∨ left.length + pos = index) :
    self.Puts index newFields
      (.ok (self.putInserted key (splice pos newFields (self.slots key)))) := by
  obtain ⟨left, right, whole, before, last, put⟩ := iter_slot known
  refine ⟨key, _, rfl, known, ?_⟩
  rw [putInserted_splice whole put within]
  obtain rfl | same := here left right whole before last
  · rw [splice_nil, splice_nil]
  · rw [same]

theorem Puts.of_empty {key : Option FieldName}
    (known : ∀ name ∈ key, name ∈ names self.input.fields) (empty : self.slots key = [])
    {index : Nat}
    (here : ∀ left right, self.iter = left ++ right →
      (∀ name ∈ key, left = self.early name) → (key = none → right = []) →
      left.length = index) :
    self.Puts index newFields (.ok (self.putInserted key newFields)) := by
  have put := @Puts.of_slot _ self newFields key known 0 (Nat.zero_le _) index
    fun left right whole before last => by
      rw [empty, List.append_nil] at whole
      exact .inr (here left right whole before last)
  rw [empty, splice_whole] at put
  exact put

/-- `insert` -/
theorem puts_last (placed : none ∈ self.inserted → newFields.length ≤ 1) :
    self.Puts self.iter.length newFields (self.insertChecked none newFields true) := by
  by_cases present : none ∈ self.inserted
  · have turned : newFields.reverse = newFields := by
      match newFields, placed present with
      | [], _ => rfl
      | [_], _ => rfl
    rw [insertChecked_slot present, if_pos rfl, turned]
    refine .of_slot (by rintro _ ⟨⟩) le_rfl fun left right whole _ last => .inr ?_
    rw [whole, last rfl, List.append_nil, List.length_append]
  · rw [insertChecked_last present]
    refine .of_empty (by rintro _ ⟨⟩) (slots_absent present)
      fun left right whole _ last => ?_
    rw [whole, last rfl, List.append_nil]

/-- Next to a field that is an inserted one. -/
theorem puts_inserted (wellFormed : self.WellFormed) {name : FieldName}
    (absent : some name ∉ self.inserted)
    (inside : ∃ entry ∈ self.inserted.entries, name ∈ names entry.2) (next : Bool) :
    self.Puts (position name self.iter + if next then 1 else 0) newFields
      (self.insertChecked (some name) newFields next) := by
  obtain ⟨place, fields, entry, member, result⟩ :=
    @insertChecked_inserted _ self newFields name absent inside next
  have slot := slots_of_lookup (AList.mem_lookup_iff.mpr entry)
  have bound : position name fields < fields.length :=
    (List.idxOf_lt_length_iff.mpr member).trans_eq (List.length_map _)
  rw [result, ← slot]
  refine .of_slot (wellFormed.known entry) (by rw [slot]; split <;> omega)
    fun left right whole _ _ => .inr ?_
  rw [← slot] at member
  rw [position_inserted wellFormed whole member, slot, Nat.add_assoc]

/-- `insertBefore` -/
theorem puts_before (wellFormed : self.WellFormed) {name : FieldName}
    (target : name ∈ names self.iter)
    (placed : some name ∈ self.inserted →
      newFields = [] ∨ (self.early name).length = position name self.iter) :
    self.Puts (position name self.iter) newFields
      (self.insertChecked (some name) newFields false) := by
  by_cases present : some name ∈ self.inserted
  · rw [insertChecked_slot present, if_neg Bool.false_ne_true]
    refine .of_slot (by rintro _ ⟨⟩; exact wellFormed.keys name present) (Nat.zero_le _)
      fun left right _ before _ => ?_
    rw [before name rfl]
    exact placed present
  by_cases inside : ∃ entry ∈ self.inserted.entries, name ∈ names entry.2
  · exact puts_inserted wellFormed present inside false
  · obtain ⟨known, kept⟩ := (mem_names_iter wellFormed).mp target |>.resolve_right inside
    have empty := slots_absent present
    rw [insertChecked_before present inside known]
    refine .of_empty (by rintro _ ⟨⟩; exact known) empty fun left right _ before _ => ?_
    rw [before name rfl, position_visible wellFormed known kept, empty, List.length_nil,
      Nat.add_zero]

/-- `insertAfter` -/
theorem puts_after (wellFormed : self.WellFormed) {name : FieldName}
    (target : name ∈ names self.iter)
    (placed : self.Placed (.insertAfter name newFields)) :
    self.Puts (position name self.iter + 1) newFields
      (self.insertChecked (some name) newFields true) := by
  obtain ⟨slot, free⟩ := placed
  by_cases present : some name ∈ self.inserted
  · have placed := slot present
    have turned : newFields.reverse = newFields := by
      match newFields, placed with
      | [], _ => rfl
      | [_], _ => rfl
      | _ :: _ :: _, .inr placed => simp at placed
    rw [insertChecked_slot present, if_pos rfl, turned]
    refine .of_slot (by rintro _ ⟨⟩; exact wellFormed.keys name present) le_rfl
      fun left right _ before _ => ?_
    rw [before name rfl]
    exact placed.imp_right And.right
  by_cases inside : ∃ entry ∈ self.inserted.entries, name ∈ names entry.2
  · exact puts_inserted wellFormed present inside true
  · obtain ⟨known, kept⟩ := (mem_names_iter wellFormed).mp target |>.resolve_right inside
    obtain ⟨next, follows, empty⟩ := (free present).resolve_left inside
    rw [insertChecked_after present inside known follows]
    refine .of_empty ?_ empty fun left right _ before _ => ?_
    · rintro _ ⟨⟩
      exact List.mem_map_of_mem (List.mem_of_getElem? follows)
    · rw [before next.name rfl, early_next known kept follows,
        position_visible wellFormed known kept]

end Branches

/-! What each operation does to an iteration. -/

theorem uniqueNames_length (count : ArrayCount) (newFields : List (NamedField Value)) :
    (uniqueNames count newFields).1.length = newFields.length := by
  induction newFields generalizing count with
  | nil => rfl
  | cons field newFields induction =>
      rw [uniqueNames]
      exact congrArg Nat.succ (induction _)

theorem named_length (self : EditableFieldSet Value) (edit : Edit Value) :
    (self.named edit).length = edit.newFields.length :=
  uniqueNames_length _ _

theorem named_eq_nil {edit : Edit Value} (empty : edit.newFields = []) :
    self.named edit = [] :=
  List.eq_nil_of_length_eq_zero (by rw [named_length, empty, List.length_nil])

theorem clash_iff (wellFormed : self.WellFormed) (edit : Edit Value) :
    self.Clash edit ↔ ¬ (names (self.named edit)).Nodup ∨
      (∃ name ∈ names (self.named edit), name ∈ names self.input.fields ∧ name ∉ self.deleted) ∨
      ∃ entry ∈ self.inserted.entries, ∃ name ∈ names entry.2,
        name ∈ names (self.named edit) := by
  rw [Clash]
  refine or_congr_right ?_
  constructor
  · rintro ⟨name, new, member⟩
    obtain visible | ⟨entry, member, inside⟩ := (mem_names_iter wellFormed).mp member
    · exact .inl ⟨name, new, visible⟩
    · exact .inr ⟨entry, member, name, inside, new⟩
  · rintro (⟨name, new, visible⟩ | ⟨entry, member, name, inside, new⟩)
    · exact ⟨name, new, (mem_names_iter wellFormed).mpr (.inl visible)⟩
    · exact ⟨name, new, (mem_names_iter wellFormed).mpr (.inr ⟨entry, member, inside⟩)⟩

/-- The state once the names of the new fields are set. -/
def counted (self : EditableFieldSet Value) (edit : Edit Value) : EditableFieldSet Value :=
  { self with arrayCount := (uniqueNames self.arrayCount edit.newFields).2 }

theorem insertNamed_counted (wellFormed : self.WellFormed) (edit : Edit Value)
    (key : Option FieldName) (next : Bool) :
    (self.counted edit).insertNamed key (self.named edit) next =
      if self.Clash edit then .error .uniqKeyError
      else (self.counted edit).insertChecked key (self.named edit) next := by
  have clash := clash_iff wellFormed edit
  rw [insertNamed]
  change (if ¬ (names (self.named edit)).Nodup then _
    else if ∃ name ∈ names (self.named edit),
      name ∈ names self.input.fields ∧ name ∉ self.deleted then _
    else if ∃ entry ∈ self.inserted.entries, ∃ name ∈ names entry.2,
      name ∈ names (self.named edit) then _ else _) = _
  split
  · next twice => rw [if_pos (clash.mpr (.inl twice))]
  split
  · next taken => rw [if_pos (clash.mpr (.inr (.inl taken)))]
  split
  · next taken => rw [if_pos (clash.mpr (.inr (.inr taken)))]
  · next distinct unused fresh =>
      rw [if_neg fun clashes => ?_]
      exact (clash.mp clashes).elim distinct (Or.rec unused fresh)

theorem WellFormed.counted (wellFormed : self.WellFormed) (edit : Edit Value) :
    (self.counted edit).WellFormed :=
  ⟨wellFormed.nodup, wellFormed.keys⟩

theorem WellFormed.putInserted (wellFormed : self.WellFormed) {place : Option FieldName}
    {fields : List (NamedField Value)}
    (known : ∀ name ∈ place, name ∈ names self.input.fields)
    (nodup : (names (self.putInserted place fields).iter).Nodup) :
    (self.putInserted place fields).WellFormed where
  nodup := nodup
  keys name member := by
    obtain here | before := (AList.mem_insert _).mp member
    · exact known name here.symm
    · exact wellFormed.keys name before

theorem splice_nodup {edit : Edit Value} (wellFormed : self.WellFormed)
    (clear : ¬ self.Clash edit) (index : Nat) :
    (names (splice index (self.named edit) self.iter)).Nodup := by
  rw [Clash, not_or, not_not] at clear
  rw [names, (splice_perm ..).map _ |>.nodup_iff, List.map_append]
  refine clear.1.append wellFormed.nodup fun name new member => ?_
  exact clear.2 ⟨name, new, member⟩

/-- An insertion that splices one slot. -/
theorem insertFields_eq (edit : Edit Value) (key : Option FieldName) (next : Bool) :
    self.insertFields key edit.newFields next =
      match (self.counted edit).insertNamed key (self.named edit) next with
      | .error error => (some error, self.counted edit)
      | .ok self => (none, self) := rfl

theorem insertFields_spec (wellFormed : self.WellFormed) {edit : Edit Value}
    {key : Option FieldName} {next : Bool} {index : Nat}
    (puts : ¬ self.Clash edit → (self.counted edit).Puts index (self.named edit)
      ((self.counted edit).insertChecked key (self.named edit) next)) :
    (self.insertFields key edit.newFields next).1 =
        (if self.Clash edit then some .uniqKeyError else none) ∧
      (self.insertFields key edit.newFields next).2.iter =
        (if self.Clash edit then self.iter else splice index (self.named edit) self.iter) ∧
      (self.insertFields key edit.newFields next).2.WellFormed := by
  rw [insertFields_eq, insertNamed_counted wellFormed]
  by_cases clash : self.Clash edit
  · rw [if_pos clash, if_pos clash, if_pos clash]
    exact ⟨rfl, rfl, wellFormed.counted edit⟩
  · rw [if_neg clash, if_neg clash, if_neg clash]
    obtain ⟨place, fields, done, known, spliced⟩ := puts clash
    rw [done]
    refine ⟨rfl, spliced, (wellFormed.counted edit).putInserted known ?_⟩
    rw [spliced]
    exact splice_nodup wellFormed clash index

/-- Another show of the fields of one name. -/
theorem iter_shown {other : EditableFieldSet Value} {name : FieldName}
    (known : name ∈ names self.input.fields) (input_eq : other.input = self.input)
    (slots_eq : other.slots = self.slots)
    (same : ∀ one, one.name ≠ name → other.shown one = self.shown one) :
    ∃ field left right, field.name = name ∧
      self.iter = left ++ self.shown field ++ right ∧
      other.iter = left ++ other.shown field ++ right := by
  obtain ⟨field, after, split, rfl⟩ := split_position known
  have distinct := self.input.distinct
  rw [split] at distinct
  generalize self.input.fields.take (position field.name self.input.fields) = before
    at split distinct
  have around : ∀ seen : NamedField Value → List (NamedField Value),
      (∀ one, one.name ≠ field.name → seen one = self.shown one) →
      Weave.weave NamedField.name self.slots seen self.input.fields =
        Weave.lead NamedField.name self.slots self.shown before ++
          self.slots (some field.name) ++ seen field ++
          Weave.weave NamedField.name self.slots self.shown after := by
    intro seen same
    rw [split]
    exact Weave.weave_shown distinct same
  refine ⟨field, _, _, rfl, around self.shown fun _ _ => rfl, ?_⟩
  rw [iter, input_eq, slots_eq]
  exact around other.shown same

theorem names_apart {left right : List (NamedField Value)} {field : NamedField Value}
    (distinct : (names (left ++ [field] ++ right)).Nodup) :
    (∀ one ∈ left, one.name ≠ field.name) ∧ ∀ one ∈ right, one.name ≠ field.name := by
  rw [List.append_assoc, List.singleton_append] at distinct
  exact Weave.key_apart distinct

theorem changed_setValue {left right : List (NamedField Value)} {field : NamedField Value}
    (distinct : (names (left ++ [field] ++ right)).Nodup)
    (newFields : List (NamedField Value)) (value : Value) :
    (Edit.setValue field.name value).changed newFields (left ++ [field] ++ right) =
      left ++ [{ field with value }] ++ right := by
  obtain ⟨before, behind⟩ := names_apart distinct
  have same : ∀ fields : List (NamedField Value), (∀ one ∈ fields, one.name ≠ field.name) →
      (fields.map fun one => if one.name = field.name then { one with value } else one) =
        fields := fun fields apart =>
    (List.map_congr_left fun one member => if_neg (apart one member)).trans (List.map_id' _)
  rw [Edit.changed, List.map_append, List.map_append, same left before, same right behind,
    List.map_singleton, if_pos rfl]

theorem changed_delItem {left right : List (NamedField Value)} {field : NamedField Value}
    (distinct : (names (left ++ [field] ++ right)).Nodup)
    (newFields : List (NamedField Value)) :
    (Edit.delItem field.name).changed newFields (left ++ [field] ++ right) =
      left ++ [] ++ right := by
  obtain ⟨before, behind⟩ := names_apart distinct
  have same : ∀ fields : List (NamedField Value), (∀ one ∈ fields, one.name ≠ field.name) →
      (fields.filter fun one => one.name ≠ field.name) = fields := fun fields apart =>
    List.filter_eq_self.mpr fun one member => decide_eq_true (apart one member)
  rw [Edit.changed, List.filter_append, List.filter_append, same left before,
    same right behind, List.filter_singleton]
  simp

theorem setValue_spec (wellFormed : self.WellFormed) {name : FieldName} {value : Value}
    (known : name ∈ names self.input.fields) (kept : name ∉ self.deleted) :
    (self.setValue name value).1 = self.refused (.setValue name value) ∧
      (self.setValue name value).2.iter = self.wanted (.setValue name value) ∧
      (self.setValue name value).2.WellFormed := by
  rw [setValue, if_neg (not_or.mpr ⟨kept, not_not.mpr known⟩), wanted, refused]
  split
  · let other := { self with fields := Function.update self.fields name (some value) }
    obtain ⟨field, left, right, rfl, whole, after⟩ :=
      @iter_shown _ self other name known rfl rfl fun one apart => by
        simp only [other, shown, getItem, Function.update_of_ne apart]
    have seen : other.shown field = [{ self.getItem field with value }] := by
      simp only [other, shown, if_neg kept, getItem, Function.update_self, Option.getD_some]
    rw [shown, if_neg kept] at whole
    rw [seen] at after
    have distinct := wellFormed.nodup
    rw [whole] at distinct
    have changed := changed_setValue distinct (self.named (.setValue field.name value)) value
    refine ⟨rfl, ?_, ?_⟩
    · rw [if_pos rfl, whole]
      exact after.trans changed.symm
    · refine ⟨?_, wellFormed.keys⟩
      change (names other.iter).Nodup
      rw [after]
      simp only [names, List.map_append, List.map_singleton] at distinct ⊢
      exact distinct
  · exact ⟨rfl, rfl, wellFormed⟩

theorem delItem_spec (wellFormed : self.WellFormed) {name : FieldName}
    (known : name ∈ names self.input.fields) (kept : name ∉ self.deleted) :
    (self.delItem name).1 = none ∧
      (self.delItem name).2.iter = (Edit.delItem name).changed [] self.iter ∧
      (self.delItem name).2.WellFormed := by
  rw [delItem, if_neg kept]
  let other : EditableFieldSet Value := { self with
    deleted := name :: self.deleted
    fields := Function.update self.fields name none }
  obtain ⟨field, left, right, rfl, whole, after⟩ :=
    @iter_shown _ self other name known rfl rfl fun one apart => by
      simp only [other, shown, getItem, Function.update_of_ne apart, List.mem_cons, apart,
        false_or]
  have seen : other.shown field = [] := if_pos List.mem_cons_self
  rw [shown, if_neg kept] at whole
  rw [seen] at after
  have distinct := wellFormed.nodup
  rw [whole] at distinct
  refine ⟨rfl, ?_, ?_⟩
  · rw [whole]
    exact after.trans (changed_delItem distinct []).symm
  · refine ⟨?_, wellFormed.keys⟩
    change (names other.iter).Nodup
    rw [after, List.append_nil]
    exact distinct.sublist (((List.sublist_append_left left _).append_right right).map _)

/-! A step keeps the order, and so does a run. -/

theorem perform_spec (wellFormed : self.WellFormed) {edit : Edit Value}
    (targets : self.Targets edit) (sound : self.Sound edit) :
    self.KeepsOrder edit ∧ (self.perform edit).2.WellFormed := by
  have inserted : ∀ {key next index},
      (¬ self.Clash edit → (self.counted edit).Puts index (self.named edit)
        ((self.counted edit).insertChecked key (self.named edit) next)) →
      self.perform edit = self.insertFields key edit.newFields next →
      self.refused edit = (if self.Clash edit then some .uniqKeyError else none) →
      edit.changed (self.named edit) self.iter = splice index (self.named edit) self.iter →
      self.KeepsOrder edit ∧ (self.perform edit).2.WellFormed := by
    intro key next index puts performed refused changed
    obtain ⟨error, order, after⟩ := insertFields_spec wellFormed puts
    rw [KeepsOrder, performed, wanted, refused, changed]
    refine ⟨⟨error, order.trans ?_⟩, after⟩
    split <;> simp
  have counted := wellFormed.counted edit
  cases edit with
  | insertBefore name newFields =>
      refine inserted (fun clear => puts_before counted (targets name rfl) fun present => ?_)
        rfl rfl rfl
      exact (sound.resolve_left clear present).imp_left named_eq_nil
  | insertAfter name newFields =>
      refine inserted (fun clear => puts_after counted (targets name rfl) ?_) rfl rfl rfl
      obtain ⟨slot, free⟩ := sound.resolve_left clear
      refine ⟨fun present => ?_, free⟩
      rw [named_length]
      exact (slot present).imp_left named_eq_nil
  | insert newFields =>
      refine inserted (fun clear => puts_last fun present => ?_) rfl rfl rfl
      rw [named_length]
      exact sound.resolve_left clear present
  | setValue name value =>
      have clear : ¬ self.Clash (.setValue name value) := by
        rintro (twice | ⟨-, ⟨⟩, -⟩)
        exact twice List.nodup_nil
      obtain ⟨known, kept⟩ := sound.resolve_left clear
      obtain ⟨error, order, after⟩ := @setValue_spec _ self wellFormed name value known kept
      exact ⟨⟨error, order⟩, after⟩
  | delItem name =>
      have clear : ¬ self.Clash (.delItem name) := by
        rintro (twice | ⟨-, ⟨⟩, -⟩)
        exact twice List.nodup_nil
      obtain ⟨known, kept⟩ := sound.resolve_left clear
      obtain ⟨error, order, after⟩ := @delItem_spec _ self wellFormed name known kept
      have refused : self.refused (.delItem name) = none := by
        rw [EditableFieldSet.refused, if_neg clear]
        nofun
      refine ⟨⟨error.trans refused.symm, ?_⟩, after⟩
      rw [wanted, if_pos refused]
      exact order

def step (self : EditableFieldSet Value) (edit : Edit Value) : EditableFieldSet Value :=
  (self.perform edit).2

def Meets (self : EditableFieldSet Value) (edit : Edit Value) : Prop :=
  self.Targets edit ∧ self.Sound edit

theorem create_iter (input : FieldSet Value) (arrayCount : ArrayCount) :
    (create input arrayCount).iter = input.fields := by
  rw [iter, Weave.weave_lead, Weave.lead]
  have own : (fun item : NamedField Value => (create input arrayCount).slots (some item.name) ++
      (create input arrayCount).shown item) = fun item => [item] := rfl
  rw [own, List.flatMap_singleton']
  exact List.append_nil _

theorem create_wellFormed (input : FieldSet Value) (arrayCount : ArrayCount) :
    (create input arrayCount).WellFormed where
  nodup := by
    rw [create_iter]
    exact input.distinct
  keys name member := absurd member (AList.notMem_empty _)

theorem edits_keep_order_when (input : FieldSet Value) (arrayCount : ArrayCount)
    (edits : List (Edit Value))
    (guarded : Transition.Guarded step Meets (create input arrayCount) edits) :
    Transition.Guarded step KeepsOrder (create input arrayCount) edits :=
  Transition.Guarded.meets WellFormed
    (fun _ _ wellFormed meets => perform_spec wellFormed meets.1 meets.2)
    (create_wellFormed input arrayCount) guarded

/-! Edits of a set of two fields. -/

section Runs

def letter (char : Char) (component : '/' ≠ char) (notDot : char ≠ '.') : FieldName where
  text := [char]
  component := fun member => component (List.mem_singleton.mp member)
  notDots := ⟨char, List.mem_singleton_self char, notDot⟩

def headAndTail : FieldSet Nat where
  fields := [⟨letter 'h' (by decide) (by decide), 1⟩, ⟨letter 't' (by decide) (by decide), 2⟩]
  distinct := by decide
  accepts _ value := value < 256

def padding : NamedField Nat := ⟨letter 'p' (by decide) (by decide), 0⟩

def comment : NamedField Nat := ⟨letter 'c' (by decide) (by decide), 3⟩

instance (self : EditableFieldSet Value) (edit : Edit Value) : Decidable (self.Targets edit) :=
  inferInstanceAs (Decidable (∀ name ∈ edit.target, name ∈ names self.iter))

instance [DecidableEq Value] (self : EditableFieldSet Value) (edit : Edit Value) :
    Decidable (self.KeepsOrder edit) :=
  inferInstanceAs (Decidable (_ ∧ _))

instance [DecidableEq Value] (self : EditableFieldSet Value) (name : FieldName) :
    Decidable (self.FreeNext name) :=
  inferInstanceAs (Decidable (∃ next ∈ _, _))

instance [DecidableEq Value] (self : EditableFieldSet Value) :
    ∀ edit : Edit Value, Decidable (self.Placed edit)
  | .insertBefore .. => inferInstanceAs (Decidable (_ → _ ∨ _))
  | .insertAfter .. => inferInstanceAs (Decidable ((_ → _ ∨ _) ∧ (_ → _ ∨ _)))
  | .insert _ => inferInstanceAs (Decidable (_ → _))
  | .setValue .. => inferInstanceAs (Decidable (_ ∧ _))
  | .delItem _ => inferInstanceAs (Decidable (_ ∧ _))

instance [DecidableEq Value] (self : EditableFieldSet Value) (edit : Edit Value) :
    Decidable (self.Meets edit) :=
  inferInstanceAs (Decidable (self.Targets edit ∧ (_ ∨ _)))

theorem edits_keep_order_two_fields :
    Transition.Guarded step KeepsOrder (create headAndTail fun _ => none)
      [.insertBefore (letter 't' (by decide) (by decide)) [padding],
        .insertAfter padding.name [comment],
        .setValue (letter 'h' (by decide) (by decide)) 7,
        .delItem (letter 't' (by decide) (by decide))] :=
  edits_keep_order_when _ _ _ (by decide)

theorem edits_keep_order_fails_last :
    ¬ ∀ (input : FieldSet Nat) (arrayCount : ArrayCount) (edits : List (Edit Nat)),
      Transition.Guarded step Targets (create input arrayCount) edits →
        Transition.Guarded step KeepsOrder (create input arrayCount) edits := by
  intro claim
  have last := claim headAndTail (fun _ => none)
    [.insertAfter (letter 't' (by decide) (by decide)) [padding]] (by decide)
  revert last
  decide

end Runs

end EditableFieldSet

end Segvault.Hachoir
