import Mathlib.Algebra.Ring.Nat
import Segvault.Hachoir.Dict
import Segvault.Hachoir.EditableFieldSet

namespace Segvault.Hachoir

/-! The fields of a set, with their addresses in it and their sizes in bits. -/

/-- A padding the set makes itself, or an object that its parser or a caller made. -/
inductive Content
  | padding
  | unparsed
  | object (id : Nat)
  deriving DecidableEq, Repr

structure Extent where
  content : Content
  address : Nat
  size : Nat
  deriving DecidableEq, Repr

abbrev Field := NamedField Extent

namespace Field

def address (field : Field) : Nat := field.value.address

def size (field : Field) : Nat := field.value.size

/-- `field._address = address` -/
def at' (field : Field) (address : Nat) : Field :=
  { field with value := { field.value with address := address } }

def Has (field : Field) (place : Nat) : Prop :=
  field.address ≤ place ∧ place < field.address + field.size

@[simp] theorem at'_name (field : Field) (address : Nat) : (field.at' address).name = field.name :=
  rfl

@[simp] theorem at'_address (field : Field) (address : Nat) :
    (field.at' address).address = address := rfl

@[simp] theorem at'_size (field : Field) (address : Nat) :
    (field.at' address).size = field.size := rfl

end Field

def totalSize (fields : List Field) : Nat := (fields.map Field.size).sum

inductive FieldSetError
  | parserError (message : String)
  | fieldError (message : String)
  | uniqKeyError
  | assertionError
  | indexError
  | keyError
  | typeError
  | valueError
  deriving DecidableEq, Repr

def FieldSetError.ofDict : DictError → FieldSetError
  | .uniqKeyError => .uniqKeyError
  | .keyError => .keyError
  | .indexError => .indexError

/-- `createPaddingField`, and `createRawField`: RawBytes takes at most 2**64 bytes. -/
def createField (name : FieldName) (content : Content) (address nbits : Nat) :
    Except FieldSetError Field :=
  if nbits % 8 = 0 ∧ 2 ^ 64 < nbits / 8 then
    .error (.fieldError ("Invalid RawBytes length (" ++ toString (nbits / 8) ++ ")!"))
  else .ok ⟨name, ⟨content, address, nbits⟩⟩

def paddingName : FieldName where
  text := "padding[]".toList
  component := by decide
  notDots := ⟨'p', by decide, by decide⟩

def createPaddingField (address nbits : Nat) : Except FieldSetError Field :=
  createField paddingName .padding address nbits

/-! `GenericFieldSet`, once its fields are parsed. -/

structure GenericFieldSet where
  fields : Dict FieldName Field
  arrayCount : ArrayCount
  currentSize : Nat

/-- The new fields at their addresses, the one after the other. -/
def placed : Nat → List Field → List Field
  | _, [] => []
  | address, field :: fields => field.at' address :: placed (address + field.size) fields

namespace GenericFieldSet

/-- The set that a parser makes of fields it yields without a seek. -/
def ofFields (fields : List Field) (arrayCount : ArrayCount) : GenericFieldSet where
  fields := (placed 0 fields).foldl (fun dict field => (dict.append field.name field).2) Dict.empty
  arrayCount := arrayCount
  currentSize := totalSize fields

def values (self : GenericFieldSet) : List Field := self.fields.valueList

/-- `self[name]`, for the name of a field. -/
def getItem (self : GenericFieldSet) (name : FieldName) : Option Field := do
  let index ← self.fields.index.lookup name
  self.values[index]?

/-- A name that ends in `[]` is numbered. -/
def numbered (self : GenericFieldSet) (field : Field) : Field × GenericFieldSet :=
  if ['[', ']'].isSuffixOf field.name.text then
    let (field, arrayCount) := setUniqueFieldName self.arrayCount field
    (field, { self with arrayCount })
  else (field, self)

def missingMessage (name : FieldName) : String :=
  "Unable to replace " ++ String.ofList name.text ++ ": field doesn't exist!"

def sizeMessage (name : FieldName) (total size : Nat) : String :=
  "Unable to replace " ++ String.ofList name.text ++ ": new field(s) hasn't same size (" ++
    toString total ++ " bits instead of " ++ toString size ++ " bits)!"

def usedMessage (name used : FieldName) : String :=
  "Unable to replace " ++ String.ofList name.text ++ ": name \"" ++ String.ofList used.text ++
    "\" is already used!"

/-- The loop of replaceField over the new fields after the first. -/
def insertFields (name : FieldName) (self : GenericFieldSet) (index address : Nat) :
    List Field → Option FieldSetError × GenericFieldSet
  | [] => (none, self)
  | field :: newFields =>
      let (field, self) := self.numbered field
      let field := field.at' address
      if field.name ∈ self.fields.index then
        (some (.parserError (usedMessage name field.name)), self)
      else
        match self.fields.insert index field.name field with
        | (some error, fields) => (some (.ofDict error), { self with fields })
        | (none, fields) =>
            insertFields name { self with fields } (index + 1) (address + field.size) newFields

/-- replaceField, once the sizes are checked. -/
def replaceSized (self : GenericFieldSet) (name : FieldName) (oldField field : Field)
    (others : List Field) : Option FieldSetError × GenericFieldSet :=
  let (field, self) := self.numbered field
  let field := field.at' oldField.address
  if field.name ≠ name ∧ field.name ∈ self.fields.index then
    (some (.parserError (usedMessage name field.name)), self)
  else
    match self.fields.replace name field.name field with
    | (some error, fields) => (some (.ofDict error), { self with fields })
    | (none, fields) =>
        let self := { self with fields }
        if others = [] then (none, self)
        else
          match self.fields.index.lookup field.name with
          | none => (some .typeError, self)
          | some index =>
              insertFields name self (index + 1) (field.address + field.size) others

def replaceField (self : GenericFieldSet) (name : FieldName) (newFields : List Field) :
    Option FieldSetError × GenericFieldSet :=
  match self.getItem name with
  | none => (some (.parserError (missingMessage name)), self)
  | some oldField =>
      match newFields with
      | [] => (some .assertionError, self)
      | field :: others =>
          let total := totalSize (field :: others)
          if oldField.size ≠ total then
            (some (.parserError (sizeMessage name total oldField.size)), self)
          else self.replaceSized name oldField field others

/-! `writeFieldsIn`. -/

def tooBigMessage (address : Nat) : String :=
  "Unable to write fields at address " ++ toString address ++ " (too big)!"

/-- The padding from one address to another, if there is room for any. -/
def paddingBetween (start stop : Nat) : Except FieldSetError (List Field) :=
  if stop < start then .error .assertionError
  else if start < stop then do
    let padding ← createPaddingField start (stop - start)
    .ok [padding]
  else .ok []

def replacement (oldField : Field) (address : Nat) (newFields : List Field) :
    Except FieldSetError (List Field) := do
  let before ← paddingBetween oldField.address address
  let after ← paddingBetween (address + totalSize newFields) (oldField.address + oldField.size)
  .ok (before ++ placed address newFields ++ after)

def writeFieldsIn (self : GenericFieldSet) (oldField : Field) (address : Nat)
    (newFields : List Field) : Option FieldSetError × GenericFieldSet :=
  if oldField.size < totalSize newFields then
    (some (.parserError (tooBigMessage address)), self)
  else
    match replacement oldField address newFields with
    | .error error => (some error, self)
    | .ok replace => self.replaceField oldField.name replace

end GenericFieldSet

end Segvault.Hachoir
