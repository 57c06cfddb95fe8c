import Segvault.MaximalElements

namespace Segvault.HachoirMetadata

/-! The values of a metadata key, Data of metadata_item.py. -/

/-- The codes of the characters of a string. -/
abbrev Text := List Nat

inductive Value (α : Type)
  | unicode (text : Text)
  | bytes (text : Text)
  | other (value : α)
  deriving DecidableEq

structure DataValue (α : Type) where
  value : Value α
  text : Text
  deriving DecidableEq

/-- What a conversion gives: one of HACHOIR_ERRORS, None, a value, or a value and its text. -/
inductive Converted (α : Type)
  | failed
  | nothing
  | single (value : Value α)
  | pair (value : Value α) (text : Option Text)

/-- The argument of add, where a tuple may have any length. -/
inductive Argument (α : Type)
  | single (value : Option (Value α))
  | pair (value : Option (Value α)) (text : Option Text)
  | tuple (length : Nat) (other : length ≠ 2)

inductive AddError
  | valueError (message : String)
  | typeError
  deriving DecidableEq, Repr

structure Config where
  rawOutput : Bool
  -- 0 for no limit
  maxStrLength : Nat

/-- A key as registerAllItems makes them: the type of a key with a conversion is no string type. -/
structure Key (α : Type) where
  isInstance : Option (Value α → Bool)
  filter : Option (Value α → Bool)
  conversion : Option (Value α → Converted α)
  textHandler : Option (Value α → Text)
  makeUnicode : Value α → Text
  typed : conversion.isSome → ∃ instanceOf, isInstance = some instanceOf ∧
    ∀ string, instanceOf (.bytes string) = false

/-! Strings. -/

def strip (characters : List Nat) (text : Text) : Text :=
  ((text.dropWhile (· ∈ characters)).reverse.dropWhile (· ∈ characters)).reverse

/-- `text.strip(" \t\v\n\r\0")`, unless the output is raw. -/
def normalizeString (config : Config) (text : Text) : Text :=
  if config.rawOutput then text else strip [32, 9, 11, 10, 13, 0] text

/-- `text.replace("\r\n", "\n")` -/
def replaceWindows : Text → Text
  | 13 :: 10 :: rest => 10 :: replaceWindows rest
  | code :: rest => code :: replaceWindows rest
  | [] => []

/-- `NEWLINES_REGEX.sub("\n", text)` -/
def joinNewlines : Text → Text
  | 10 :: 10 :: rest => joinNewlines (10 :: rest)
  | code :: rest => code :: joinNewlines rest
  | [] => []

def normalizeNewline (text : Text) : Text :=
  joinNewlines ((replaceWindows text).map fun code => if code = 13 then 10 else code)

/-- `"(...)"` -/
def ellipsis : Text := [40, 46, 46, 46, 41]

def truncate (config : Config) (text : Text) : Text :=
  if config.maxStrLength ≠ 0 ∧ config.maxStrLength < text.length then
    text.take config.maxStrLength ++ ellipsis
  else text

namespace Key

variable {α : Type} (key : Key α) (config : Config)

/-- The first steps of add: None and empty strings are skipped. -/
def normalize : Argument α → Except AddError (Option (Value α × Option Text))
  | .tuple _ _ => .error (.valueError "Data.add() only accept tuple of 2 elements: (value,text)")
  | .single none | .pair none _ => .ok none
  | .single (some value) => .ok (strings value none)
  | .pair (some value) text => .ok (strings value text)
where
  strings : Value α → Option Text → Option (Value α × Option Text)
    | .unicode string, text =>
        let string := normalizeString config string
        if string = [] then none else some (.unicode string, text)
    | .bytes string, text =>
        let string := normalizeString config string
        if string = [] then none else some (.bytes string, text)
    | .other value, text => some (.other value, text)

/-- The conversion; without one, bytes are read as ISO-8859-1. -/
def convert (value : Value α) (text : Option Text) :
    Except AddError (Option (Value α × Option Text)) :=
  match key.conversion with
  | some conversion =>
      match conversion value with
      | .failed => .ok none
      | .nothing =>
          -- the warning names the types, of which there has to be a list
          if key.isInstance.isNone then .error .typeError else .ok none
      | .single converted => .ok (some (converted, text))
      | .pair converted textToo =>
          if text.isSome ∧ text ≠ some [] then .ok (some (converted, text))
          else .ok (some (converted, textToo))
  | none =>
      match value with
      | .bytes string => .ok (some (.unicode string, text))
      | value => .ok (some (value, text))

def hasType (value : Value α) : Bool :=
  match key.isInstance with
  | some isInstance => isInstance value
  | none => true

def passes (value : Value α) : Bool :=
  match key.filter with
  | some filter => filter value
  | none => true

def shorten : Value α → Value α
  | .unicode string => .unicode (truncate config (normalizeNewline string))
  | value => value

/-- The value that add compares with the stored ones, if it comes so far. -/
def prepare (argument : Argument α) : Except AddError (Option (Value α × Option Text)) := do
  match ← normalize config argument with
  | none => .ok none
  | some (value, text) =>
      match ← key.convert value text with
      | none => .ok none
      | some (value, text) =>
          if key.hasType value then .ok (some (shorten config value, text)) else .ok none

def createItem (value : Value α) (text : Option Text) : DataValue α where
  value := value
  text :=
    match text, value with
    | some text, _ => text
    | none, .unicode string => string
    | none, value =>
        match key.textHandler with
        | some handler => handler value
        | none => key.makeUnicode value

variable [DecidableEq α]

/-- The loop over the stored values: a longer string replaces a shorter one. -/
def replaceOrSkip (new : DataValue α) (string : Text) : List (DataValue α) → List (DataValue α)
  | [] => [new]
  | item :: values =>
      match item.value with
      | .unicode stored =>
          if stored.isPrefixOf string then new :: values
          else if string.isPrefixOf stored then item :: values
          else item :: replaceOrSkip new string values
      | _ => item :: replaceOrSkip new string values

/-- Data.add: the error it raises, and the values after it. -/
def add (values : List (DataValue α)) (argument : Argument α) :
    Option AddError × List (DataValue α) :=
  match key.prepare config argument with
  | .error error => (some error, values)
  | .ok none => (none, values)
  | .ok (some (value, text)) =>
      if values.any fun item => value = item.value then (none, values)
      else if ¬ key.passes value then (none, values)
      else
        match value with
        | .unicode string => (none, replaceOrSkip (key.createItem value text) string values)
        | _ => (none, values ++ [key.createItem value text])

/-- The stored values after a sequence of calls. -/
def addAll (values : List (DataValue α)) (arguments : List (Argument α)) : List (DataValue α) :=
  arguments.foldl (fun values argument => (key.add config values argument).2) values

/-- The value of a call that is normalised and passes the filter. -/
def accepted (argument : Argument α) : Option (Value α) :=
  match key.prepare config argument with
  | .ok (some (value, _)) => if key.passes value then some value else none
  | _ => none

end Key

/-! The order of the values. -/

/-- The one is a proper prefix of the other. -/
def Below {α : Type} : Value α → Value α → Prop
  | .unicode first, .unicode second => first <+: second ∧ first ≠ second
  | _, _ => False

instance {α : Type} : DecidableRel (@Below α)
  | .unicode _, .unicode _ => inferInstanceAs (Decidable (_ ∧ _))
  | .unicode _, .bytes _ | .unicode _, .other _ | .bytes _, _ | .other _, _ => isFalse id

theorem below_iff {α : Type} {first second : Value α} :
    Below first second ↔ ∃ short long, first = .unicode short ∧ second = .unicode long ∧
      short <+: long ∧ short ≠ long := by
  constructor
  · intro below
    cases first <;> cases second <;> first | exact ⟨_, _, rfl, rfl, below⟩ | exact below.elim
  · rintro ⟨short, long, rfl, rfl, below⟩
    exact below

theorem below_treeOrder {α : Type} : MaximalElements.TreeOrder (@Below α) where
  irrefl value below := by
    obtain ⟨short, long, same, rfl, -, differs⟩ := below_iff.mp below
    exact differs (Value.unicode.inj same).symm
  trans first second := by
    obtain ⟨short, middle, rfl, rfl, starts, differs⟩ := below_iff.mp first
    obtain ⟨_, long, same, rfl, startsToo, differsToo⟩ := below_iff.mp second
    cases same
    refine ⟨starts.trans startsToo, ?_⟩
    rintro rfl
    exact differs (starts.eq_of_length_le startsToo.length_le)
  tree first second := by
    obtain ⟨short, top, rfl, rfl, starts, -⟩ := below_iff.mp first
    obtain ⟨other, _, rfl, same, startsToo, -⟩ := below_iff.mp second
    cases same
    by_cases equal : short = other
    · exact .inl (by rw [equal])
    · rcases List.prefix_or_prefix_of_prefix starts startsToo with below | above
      · exact .inr (.inl ⟨below, equal⟩)
      · exact .inr (.inr ⟨above, Ne.symm equal⟩)

namespace Key

variable {α : Type} (key : Key α) (config : Config)

theorem map_replaceOrSkip {string : Text} {values : List (DataValue α)} (new : DataValue α)
    (isNew : new.value = .unicode string) (fresh : ∀ item ∈ values, item.value ≠ .unicode string) :
    (replaceOrSkip new string values).map DataValue.value =
      MaximalElements.place Below (.unicode string) (values.map DataValue.value) := by
  induction values with
  | nil => rw [replaceOrSkip, List.map_singleton, isNew]; rfl
  | cons item values induction =>
      have later := induction fun other member => fresh other (List.mem_cons_of_mem _ member)
      have here := fresh item List.mem_cons_self
      rw [replaceOrSkip, List.map_cons, MaximalElements.place]
      cases kind : item.value with
      | unicode stored =>
          rw [kind] at here
          have differs : stored ≠ string := fun same => here (by rw [same])
          have shorter : stored.isPrefixOf string = true ↔
              Below (Value.unicode stored : Value α) (.unicode string) := by
            rw [List.isPrefixOf_iff_prefix]
            exact ⟨fun starts => ⟨starts, differs⟩, And.left⟩
          have longer : string.isPrefixOf stored = true ↔
              Below (Value.unicode string : Value α) (.unicode stored) := by
            rw [List.isPrefixOf_iff_prefix]
            exact ⟨fun starts => ⟨starts, Ne.symm differs⟩, And.left⟩
          simp only [shorter, longer]
          split
          · rw [List.map_cons, isNew]
          split
          · rw [List.map_cons, kind]
          · rw [List.map_cons, kind, later]
      | bytes stored =>
          rw [if_neg (fun below : Below (Value.bytes stored) (.unicode string) => below),
            if_neg (fun below : Below (.unicode string) (Value.bytes stored) => below)]
          simp only [List.map_cons, kind, later]
      | other stored =>
          rw [if_neg (fun below : Below (Value.other stored) (.unicode string) => below),
            if_neg (fun below : Below (.unicode string) (Value.other stored) => below)]
          simp only [List.map_cons, kind, later]

/-- A value that is no string is comparable to none. -/
theorem place_other {value : Value α} (notString : ∀ string, value ≠ .unicode string)
    (values : List (Value α)) : MaximalElements.place Below value values = values ++ [value] := by
  induction values with
  | nil => rfl
  | cons item values induction =>
      have notAbove : ¬ Below item value := fun below => by
        obtain ⟨_, long, -, same, -⟩ := below_iff.mp below
        exact notString long same
      have notBelow : ¬ Below value item := fun below => by
        obtain ⟨short, _, same, -⟩ := below_iff.mp below
        exact notString short same
      rw [MaximalElements.place, if_neg notAbove, if_neg notBelow, induction]
      rfl

variable [DecidableEq α]

/-- A call keeps the greatest of the values accepted so far. -/
theorem add_keeps {values : List (DataValue α)} {given : List (Value α)}
    (keeps : MaximalElements.Keeps Below (values.map DataValue.value) given)
    (argument : Argument α) :
    MaximalElements.Keeps Below ((key.add config values argument).2.map DataValue.value)
      (given ++ (key.accepted config argument).toList) := by
  rw [add, accepted]
  cases prepared : key.prepare config argument with
  | error error => simpa using keeps
  | ok result =>
      cases result with
      | none => simpa using keeps
      | some pair =>
          obtain ⟨value, text⟩ := pair
          have stored : (values.any fun item => decide (value = item.value)) = true ↔
              value ∈ values.map DataValue.value := by
            rw [List.any_eq_true, List.mem_map]
            simp only [decide_eq_true_iff, @eq_comm _ value]
          have inserted := keeps.insert below_treeOrder value
          rw [MaximalElements.insert] at inserted
          by_cases passes : key.passes value = true
          · simp only [passes, not_true_eq_false, if_false, if_true, Option.toList_some]
            by_cases known : value ∈ values.map DataValue.value
            · rw [if_pos known] at inserted
              rw [if_pos (stored.mpr known)]
              exact inserted
            · rw [if_neg known] at inserted
              rw [if_neg (mt stored.mp known)]
              cases value with
              | unicode string =>
                  have fresh : ∀ item ∈ values, item.value ≠ .unicode string :=
                    fun item member same => known (List.mem_map.mpr ⟨item, member, same⟩)
                  rw [← map_replaceOrSkip (key.createItem (.unicode string) text) rfl fresh]
                    at inserted
                  exact inserted
              | bytes string =>
                  rw [place_other (by simp)] at inserted
                  simpa [createItem] using inserted
              | other value =>
                  rw [place_other (by simp)] at inserted
                  simpa [createItem] using inserted
          · have unchanged : (if (values.any fun item => decide (value = item.value)) = true
                then (none, values) else (none, values) : Option AddError × List (DataValue α)) =
                  (none, values) := ite_self _
            simp only [passes, not_false_eq_true, if_true, Bool.false_eq_true, if_false, unchanged]
            simpa using keeps

theorem addAll_keeps {values : List (DataValue α)} {given : List (Value α)}
    (keeps : MaximalElements.Keeps Below (values.map DataValue.value) given)
    (arguments : List (Argument α)) :
    MaximalElements.Keeps Below ((key.addAll config values arguments).map DataValue.value)
      (given ++ arguments.filterMap (key.accepted config)) := by
  induction arguments generalizing values given with
  | nil => simpa [addAll] using keeps
  | cons argument arguments induction =>
      have later := induction (key.add_keeps config keeps argument)
      have head : (argument :: arguments).filterMap (key.accepted config) =
          (key.accepted config argument).toList ++
            arguments.filterMap (key.accepted config) := by
        rw [List.filterMap_cons]
        cases key.accepted config argument <;> rfl
      rw [head, ← List.append_assoc]
      exact later

omit [DecidableEq α] in
theorem shorten_eq_bytes {value : Value α} {string : Text}
    (same : shorten config value = .bytes string) : value = .bytes string := by
  cases value with
  | unicode other => simp [shorten] at same
  | bytes other => exact same
  | other other => exact same

omit [DecidableEq α] in
/-- Byte strings are decoded, or excluded by the type. -/
theorem hasType_bytes {value : Value α} {text text' : Option Text} {string : Text}
    (converted : key.convert value text = .ok (some (.bytes string, text'))) :
    key.hasType (.bytes string) = false := by
  cases conversion : key.conversion with
  | none =>
      unfold convert at converted
      rw [conversion] at converted
      cases value <;> simp at converted
  | some convertWith =>
      obtain ⟨instanceOf, isInstance, typed⟩ := key.typed (by rw [conversion]; rfl)
      rw [hasType, isInstance]
      exact typed string

omit [DecidableEq α] in
theorem accepted_not_bytes {argument : Argument α} {value : Value α}
    (accepts : key.accepted config argument = some value) (string : Text) :
    value ≠ .bytes string := by
  rintro rfl
  rw [accepted, prepare] at accepts
  cases normalized : normalize config argument with
  | error error => simp [normalized, bind, Except.bind] at accepts
  | ok result =>
      cases result with
      | none => simp [normalized, bind, Except.bind] at accepts
      | some pair =>
          obtain ⟨first, text⟩ := pair
          simp only [normalized, bind, Except.bind] at accepts
          cases converted : key.convert first text with
          | error error => simp [converted] at accepts
          | ok result =>
              cases result with
              | none => simp [converted] at accepts
              | some pair =>
                  obtain ⟨second, text⟩ := pair
                  simp only [converted] at accepts
                  by_cases typed : key.hasType second = true
                  · simp only [typed, if_true] at accepts
                    have same : shorten config second = .bytes string := by
                      by_cases passes : key.passes (shorten config second) = true
                      · simpa [passes] using accepts
                      · simp [passes] at accepts
                    have isBytes := shorten_eq_bytes config same
                    subst isBytes
                    rw [key.hasType_bytes converted] at typed
                    cases typed
                  · simp [typed] at accepts

end Key

end Segvault.HachoirMetadata
