import Mathlib.Data.List.AList
import Mathlib.Data.List.Rotate
import Segvault.Weave

namespace Segvault.Hachoir

/-! Fields with their names. A name is one component of a path. -/

structure FieldName where
  text : List Char
  component : '/' ∉ text
  notDots : ∃ char ∈ text, char ≠ '.'
  deriving DecidableEq

/-! What the examples ask of their names. -/

theorem a_component : '/' ∉ ['a'] := by decide

theorem a_notDots : ∃ char ∈ ['a'], char ≠ '.' := ⟨'a', by decide, by decide⟩

theorem b_component : '/' ∉ ['b'] := by decide

theorem b_notDots : ∃ char ∈ ['b'], char ≠ '.' := ⟨'b', by decide, by decide⟩

structure NamedField (Value : Type) where
  name : FieldName
  value : Value
  deriving DecidableEq

def names {Value : Type} (fields : List (NamedField Value)) : List FieldName :=
  fields.map NamedField.name

/-- A parsed field set, with the values that its editable fields accept. -/
structure FieldSet (Value : Type) where
  fields : List (NamedField Value)
  distinct : (names fields).Nodup
  accepts : FieldName → Value → Bool

/-- `_field_array_count` -/
abbrev ArrayCount := List Char → Option Nat

inductive EditError
  | missingField
  | uniqKeyError
  | valueError
  deriving DecidableEq, Repr

structure EditableFieldSet (Value : Type) where
  input : FieldSet Value
  arrayCount : ArrayCount
  fields : FieldName → Option Value
  deleted : List FieldName
  inserted : AList fun _ : Option FieldName => List (NamedField Value)

inductive Edit (Value : Type)
  | insertBefore (name : FieldName) (newFields : List (NamedField Value))
  | insertAfter (name : FieldName) (newFields : List (NamedField Value))
  | insert (newFields : List (NamedField Value))
  | setValue (name : FieldName) (value : Value)
  | delItem (name : FieldName)

/-! The names that end in `[]` are numbered. -/

theorem slash_not_digit (number : Nat) : '/' ∉ Nat.toDigits 10 number := by
  intro member
  have digit := Nat.isDigit_of_mem_toDigits (by decide) (by decide) member
  exact absurd digit (by decide)

def FieldName.numbered (name : FieldName) (number : Nat) : FieldName where
  text := name.text.dropLast.dropLast ++ '[' :: (Nat.toDigits 10 number ++ [']'])
  component := by
    intro member
    simp only [List.mem_append, List.mem_cons, List.not_mem_nil, or_false] at member
    obtain early | bracket | digit | bracket := member
    · exact name.component (List.dropLast_subset _ (List.dropLast_subset _ early))
    · exact absurd bracket (by decide)
    · exact slash_not_digit number digit
    · exact absurd bracket (by decide)
  notDots := ⟨'[', by simp, by decide⟩

section Names

variable {Value : Type}

def setUniqueFieldName (count : ArrayCount) (field : NamedField Value) :
    NamedField Value × ArrayCount :=
  let key := field.name.text.dropLast.dropLast
  let number := match count key with
    | some number => number + 1
    | none => 0
  ({ field with name := field.name.numbered number },
    Function.update count key (some number))

def uniqueNames (count : ArrayCount) :
    List (NamedField Value) → List (NamedField Value) × ArrayCount
  | [] => ([], count)
  | field :: fields =>
      let (field, count) :=
        if ['[', ']'].isSuffixOf field.name.text then setUniqueFieldName count field
        else (field, count)
      let (fields, count) := uniqueNames count fields
      (field :: fields, count)

end Names

/-! Double-ended queues, as `collections.deque` moves its elements. -/

def extendleft {α : Type} (queue elements : List α) : List α :=
  elements.reverse ++ queue

def extend {α : Type} (queue elements : List α) : List α :=
  queue ++ elements

theorem extendleft_reverse {α : Type} (queue elements : List α) :
    extendleft queue elements.reverse = elements ++ queue := by
  rw [extendleft, List.reverse_reverse]

/-- Elements put in the middle of a queue, by rotating it there and back. -/
def insertAt {α : Type} (queue : List α) (pos : Nat) (elements : List α) : List α :=
  (extendleft (queue.rotate pos) elements.reverse).rotateRight pos

namespace EditableFieldSet

variable {Value : Type}

def create (input : FieldSet Value) (arrayCount : ArrayCount) : EditableFieldSet Value where
  input := input
  arrayCount := arrayCount
  fields _ := none
  deleted := []
  inserted := ∅

def getItem (self : EditableFieldSet Value) (field : NamedField Value) : NamedField Value :=
  { field with value := (self.fields field.name).getD field.value }

def slots (self : EditableFieldSet Value) (key : Option FieldName) :
    List (NamedField Value) :=
  (self.inserted.lookup key).getD []

def shown (self : EditableFieldSet Value) (field : NamedField Value) :
    List (NamedField Value) :=
  if field.name ∈ self.deleted then [] else [self.getItem field]

/-- The fields that an iteration yields. -/
def iter (self : EditableFieldSet Value) : List (NamedField Value) :=
  Weave.weave NamedField.name self.slots self.shown self.input.fields

def putInserted (self : EditableFieldSet Value) (key : Option FieldName)
    (fields : List (NamedField Value)) : EditableFieldSet Value :=
  { self with inserted := self.inserted.insert key fields }

/-- `_insert`, once the names are checked. -/
def insertChecked (self : EditableFieldSet Value) (key : Option FieldName)
    (newFields : List (NamedField Value)) (next : Bool) :
    Except EditError (EditableFieldSet Value) :=
  match self.inserted.lookup key with
  | some fields =>
      if next then .ok (self.putInserted key (extend fields newFields.reverse))
      else .ok (self.putInserted key (extendleft fields newFields.reverse))
  | none =>
      match key with
      | none => .ok (self.putInserted none newFields)
      | some name =>
          match self.inserted.entries.find? fun entry => name ∈ names entry.2 with
          | some ⟨place, fields⟩ =>
              let pos := (names fields).idxOf name + if next then 1 else 0
              .ok (self.putInserted place (insertAt fields pos newFields))
          | none =>
              if name ∉ names self.input.fields then .error .missingField
              else if next then
                let index := (names self.input.fields).idxOf name + 1
                match self.input.fields[index]? with
                -- not the `IndexError` that the source catches
                | none => .error .missingField
                | some field => .ok (self.putInserted (some field.name) newFields)
              else .ok (self.putInserted (some name) newFields)

/-- `_insert`, once the new names are set. -/
def insertNamed (self : EditableFieldSet Value) (key : Option FieldName)
    (newFields : List (NamedField Value)) (next : Bool) :
    Except EditError (EditableFieldSet Value) :=
  if ¬ (names newFields).Nodup then .error .uniqKeyError
  else if ∃ name ∈ names newFields, name ∈ names self.input.fields ∧ name ∉ self.deleted then
    .error .uniqKeyError
  else if ∃ entry ∈ self.inserted.entries, ∃ name ∈ names entry.2, name ∈ names newFields then
    .error .uniqKeyError
  else self.insertChecked key newFields next

/-- `_insert`: the numbers of the names stay counted when it raises. -/
def insertFields (self : EditableFieldSet Value) (key : Option FieldName)
    (newFields : List (NamedField Value)) (next : Bool) :
    Option EditError × EditableFieldSet Value :=
  let (newFields, arrayCount) := uniqueNames self.arrayCount newFields
  let self := { self with arrayCount }
  match self.insertNamed key newFields next with
  | .error error => (some error, self)
  | .ok self => (none, self)

def setValue (self : EditableFieldSet Value) (name : FieldName) (value : Value) :
    Option EditError × EditableFieldSet Value :=
  if name ∈ self.deleted ∨ name ∉ names self.input.fields then (some .missingField, self)
  else if self.input.accepts name value then
    (none, { self with fields := Function.update self.fields name (some value) })
  else (some .valueError, self)

def delItem (self : EditableFieldSet Value) (name : FieldName) :
    Option EditError × EditableFieldSet Value :=
  if name ∈ self.deleted then (some .missingField, self)
  else
    (none, { self with
      deleted := name :: self.deleted
      fields := Function.update self.fields name none })

def perform (self : EditableFieldSet Value) :
    Edit Value → Option EditError × EditableFieldSet Value
  | .insertBefore name newFields => self.insertFields (some name) newFields false
  | .insertAfter name newFields => self.insertFields (some name) newFields true
  | .insert newFields => self.insertFields none newFields true
  | .setValue name value => self.setValue name value
  | .delItem name => self.delItem name

end EditableFieldSet

end Segvault.Hachoir
