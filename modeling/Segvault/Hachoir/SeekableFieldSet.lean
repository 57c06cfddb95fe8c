import Segvault.Hachoir.GetGaps
import Segvault.Hachoir.ReplaceField

namespace Segvault.Hachoir

/-! `RootSeekableFieldSet` and `NewRootSeekableFieldSet`. -/

inductive SeekableClass
  | seekable
  | newSeekable
  deriving DecidableEq, Repr

/-- What a set knows of its surroundings: `room` is what the nearest ancestor of known size
leaves it. -/
structure Surroundings where
  hasParent : Bool
  room : Option Nat
  absoluteAddress : Nat
  autofix : Bool

structure SeekableFieldSet extends GenericFieldSet where
  size : Option Nat

/-- How one turn of the feeding ends: it goes on, or with a StopIteration, or with one of
HACHOIR_ERRORS. -/
inductive Feeding
  | goesOn
  | stops
  | raises
  deriving DecidableEq, Repr

/-- What createFields does next: a seek, or a new field, whose address is that of the end
of the set. After a field that `asksStop` the set stops. -/
inductive Created
  | seekBit (address : Int) (relative : Bool)
  | field (name : FieldName) (id size : Nat) (isFieldSet asksStop : Bool)
  | raises

def FieldName.bracketed (name : FieldName) : FieldName where
  text := name.text ++ ['[', ']']
  component := by
    simp [name.component]
  notDots := by
    obtain ⟨char, member, other⟩ := name.notDots
    exact ⟨char, List.mem_append_left _ member, other⟩

def unparsedName : FieldName where
  text := "unparsed[]".toList
  component := by decide
  notDots := ⟨'u', by decide, by decide⟩

namespace SeekableFieldSet

def empty (size : Option Nat) : SeekableFieldSet where
  fields := Dict.empty
  arrayCount := fun _ => none
  currentSize := 0
  size := size

def seekMessage (address : Int) : String :=
  "Seek below field set start (" ++ toString (address / 8) ++ "." ++ toString (address % 8) ++ ")"

def seekBit (place : Surroundings) (self : SeekableFieldSet) (address : Int) (relative : Bool) :
    Except FieldSetError SeekableFieldSet :=
  let address := if relative then address else address - place.absoluteAddress
  if address < 0 then .error (.parserError (seekMessage address))
  else .ok { self with currentSize := address.toNat }

def withBase (self : SeekableFieldSet) (base : GenericFieldSet) : SeekableFieldSet :=
  { self with toGenericFieldSet := base }

/-- The end of `_addField`. A name that is in use is numbered. -/
def appendField (self : SeekableFieldSet) (field : Field) : Feeding × SeekableFieldSet :=
  let self := { self with currentSize := self.currentSize + field.size }
  match self.fields.append field.name field with
  | (none, fields) => (.goesOn, { self with fields })
  | (some _, _) =>
      let (field, arrayCount) :=
        setUniqueFieldName self.arrayCount { field with name := field.name.bracketed }
      let self := { self with arrayCount }
      match self.fields.append field.name field with
      | (none, fields) => (.goesOn, { self with fields })
      | (some _, _) => (.raises, self)

/-- What is left of the set, or of an ancestor, after so many bits. -/
def checkSize (place : Surroundings) (self : SeekableFieldSet) (size : Nat) : Option Int :=
  (self.size.or place.room).map fun whole : Nat => (whole : Int) - size

def addField (place : Surroundings) (self : SeekableFieldSet) (field : Field)
    (isFieldSet : Bool) : Feeding × SeekableFieldSet :=
  let (field, base) := self.numbered field
  let self := self.withBase base
  let field := field.at' self.currentSize
  let dsize := self.checkSize place (field.address + field.size)
  if (∃ missing ∈ dsize, missing < 0) ∨ (isFieldSet ∧ field.size = 0) then
    if place.autofix ∧ self.currentSize ≠ 0 then
      match dsize with
      | none => (.raises, self)
      | some dsize =>
          let newSize := field.size + dsize
          if 0 < newSize then
            if isFieldSet ∧ 0 < field.size then
              self.appendField { field with value := { field.value with size := newSize.toNat } }
            else
              (.stops, { self with
                size := some (self.size.getD (self.currentSize + newSize.toNat)) })
          else (.stops, self)
    else (.raises, self)
  else self.appendField field

def perform (place : Surroundings) (self : SeekableFieldSet) :
    Created → Feeding × SeekableFieldSet
  | .seekBit address relative =>
      match self.seekBit place address relative with
      | .error _ => (.raises, self)
      | .ok self => (.goesOn, self)
  | .field name id size isFieldSet asksStop =>
      match self.addField place ⟨name, .object id, 0, size⟩ isFieldSet with
      | (.goesOn, self) => (if asksStop then .stops else .goesOn, self)
      | other => other
  | .raises => (.raises, self)

/-- The set after what createFields does, up to where the feeding ends. -/
def feed (place : Surroundings) (self : SeekableFieldSet) :
    List Created → Feeding × SeekableFieldSet
  | [] => (.stops, self)
  | created :: further =>
      match self.perform place created with
      | (.goesOn, self) => feed place self further
      | ended => ended

/-! `_fixLastField` and `_stopFeeding`. -/

/-- The loop that deletes the last field, with the turns it can have. -/
def deleteLoop (size : Nat) : Nat → Int → Dict FieldName Field →
    Except FieldSetError (Dict FieldName Field)
  | 0, currentSize, fields => if size < currentSize then .error .indexError else .ok fields
  | turns + 1, currentSize, fields =>
      if size < currentSize then
        match fields.valueList.getLast? with
        | none => .error .indexError
        | some field =>
            match fields.delItem (fields.valueList.length - 1 : Nat) with
            | (some error, _) => .error (.ofDict error)
            | (none, fields) => deleteLoop size turns (currentSize - field.size) fields
      else .ok fields

def blocks (place : Surroundings) (fields : List Field) : List Interval :=
  fields.map fun x => (((place.absoluteAddress + x.address : Nat) : Int), (x.size : Int))

/-- The size of the set, which the fields of a SeekableFieldSet may make larger. -/
def fixedSize (kind : SeekableClass) (size : Nat) (fields : List Field) :
    Except FieldSetError Nat :=
  match kind with
  | .seekable =>
      match (fields.map fun x => x.address + x.size).max? with
      | none => .error .valueError
      | some last => .ok (max size last)
  | .newSeekable => .ok size

/-- The loop over the gaps. -/
def addUnparsed (place : Surroundings) (self : SeekableFieldSet) :
    List Interval → Except FieldSetError SeekableFieldSet
  | [] => .ok self
  | (start, length) :: gaps => do
      let self ← self.seekBit place start false
      let field ← createField unparsedName .unparsed self.currentSize length.toNat
      let (field, base) := self.numbered field
      let self := self.withBase base
      match self.fields.append field.name field with
      | (some error, _) => .error (.ofDict error)
      | (none, fields) => addUnparsed place { self with fields } gaps

/-- `_fixLastField`, for a size that is known. -/
def fixLastField (kind : SeekableClass) (place : Surroundings) (self : SeekableFieldSet)
    (size : Nat) : Except FieldSetError SeekableFieldSet := do
  let fields ← deleteLoop size self.fields.valueList.length self.currentSize self.fields
  let size ← fixedSize kind size fields.valueList
  let gaps := getgaps place.absoluteAddress size (blocks place fields.valueList)
  let self ← addUnparsed place { self with fields, size := some size } gaps
  match kind with
  | .seekable => self.seekBit place (size + place.absoluteAddress) false
  | .newSeekable => self.seekBit place size false

/-- The size that `_stopFeeding` leaves to `_fixLastField`. -/
def stoppedSize (place : Surroundings) (self : SeekableFieldSet) : Option Nat :=
  match self.size with
  | some size => some size
  | none => if place.hasParent then some self.currentSize else none

def stopFeeding (kind : SeekableClass) (place : Surroundings) (self : SeekableFieldSet) :
    Except FieldSetError SeekableFieldSet :=
  match self.stoppedSize place with
  | none => .error .assertionError
  | some size => self.fixLastField kind place size

end SeekableFieldSet

end Segvault.Hachoir
