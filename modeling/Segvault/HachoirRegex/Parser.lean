import Segvault.HachoirRegex.Repeat
import Segvault.Logged

namespace Segvault.HachoirRegex

/-! parser.py. An exception is its text; the log has the turns of the loops. -/

inductive Loop
  | underParse
  | parseOr
  | parseRange
  deriving DecidableEq

/-- A turn of a loop with the index before it and the index after it. -/
structure Turn where
  loop : Loop
  before : Nat
  after : Nat

abbrev Parsing := Logged String Turn Heap

def printed (text : List UInt8) : String :=
  String.ofList (text.map fun char => Char.ofNat char.toNat)

def regexCommandCharacters : List UInt8 :=
  ['.', '^', '$', '[', ']', '(', ')', '{', '}', '|', '+', '?', '*', '\\'].map Char.toUInt8

/-- `text[index]` -/
def charAt (text : List UInt8) (index : Nat) : Parsing UInt8 :=
  match text[index]? with
  | some char => pure char
  | none => Logged.raise "string index out of range"

def newAtom (leaf : Atom) : Parsing Ref :=
  Logged.step fun h => some (h.new (.atom leaf))

def newString (char : UInt8) : Parsing Ref :=
  newAtom (.regexString [char] (List.cons_ne_nil _ _))

/-! parseRange -/

def rangeCharacter (char : UInt8) : Parsing RegexRangeItem :=
  Logged.step fun h =>
    let (item, items) := regexRangeCharacter char h.items
    some (item, { h with items := items })

def rangeItem (cmin cmax : UInt8) : Parsing RegexRangeItem :=
  Logged.tryStep fun h =>
    match newItem h.items cmin.toNat cmax.toNat with
    | some (item, items) => some (.ok (item, { h with items := items }))
    | none => some (.error ("RegexRangeItem: minimum (" ++ toString cmin.toNat ++
        ") is bigger than maximum (" ++ toString cmax.toNat ++ ")"))

def rangeLoop (fuel : Nat) (text : List UInt8) (index : Nat) (charRange : List RegexRangeItem) :
    Parsing (List RegexRangeItem × Nat) :=
  match fuel with
  | 0 => Logged.starve
  | fuel + 1 =>
      if index < text.length ∧ text[index]? ≠ some ']'.toUInt8 then
        if index + 1 < text.length ∧ text[index]? = some '\\'.toUInt8 then do
          let item ← rangeCharacter (← charAt text (index + 1))
          Logged.enter ⟨.parseRange, index, index + 2⟩
          rangeLoop fuel text (index + 2) (charRange ++ [item])
        else if index + 1 < text.length ∧ text[index]? = some '-'.toUInt8 ∧
            text[index + 1]? = some ']'.toUInt8 then
          pure (charRange, index)
        else if index + 3 < text.length ∧ text[index + 1]? = some '-'.toUInt8 ∧
            text[index + 2]? ≠ some ']'.toUInt8 then do
          let item ← rangeItem (← charAt text index) (← charAt text (index + 2))
          Logged.enter ⟨.parseRange, index, index + 3⟩
          rangeLoop fuel text (index + 3) (charRange ++ [item])
        else do
          let item ← rangeCharacter (← charAt text index)
          Logged.enter ⟨.parseRange, index, index + 1⟩
          rangeLoop fuel text (index + 1) (charRange ++ [item])
      else pure (charRange, index)

/-- A `]` that stands first is a character. -/
def leadingBracket (text : List UInt8) (index : Nat) : Parsing (List RegexRangeItem × Nat) := do
  if (← charAt text index) = ']'.toUInt8 then do
    let item ← rangeCharacter ']'.toUInt8
    pure ([item], index + 1)
  else pure ([], index)

/-- A `-` that stands last is a character. -/
def trailingDash (text : List UInt8) (index : Nat) (charRange : List RegexRangeItem) :
    Parsing (List RegexRangeItem × Nat) :=
  if text[index]? = some '-'.toUInt8 then do
    let item ← rangeCharacter '-'.toUInt8
    pure (charRange ++ [item], index + 1)
  else pure (charRange, index)

def parseRange (fuel : Nat) (text : List UInt8) (start : Nat) : Parsing (Ref × Nat) := do
  let exclude := decide ((← charAt text start) = '^'.toUInt8)
  let (charRange, index) ← leadingBracket text (if exclude then start + 1 else start)
  let (charRange, index) ← rangeLoop fuel text index charRange
  let (charRange, index) ← trailingDash text index charRange
  if text[index]? ≠ some ']'.toUInt8 then
    Logged.raise ("Invalid range: " ++
      printed ((text.drop (start - 1)).take (index - (start - 1))))
  else do
    let regex ← Logged.step (regexRange charRange exclude)
    pure (regex, index + 1)

/-! parseRepeat -/

def isDigit (char : UInt8) : Bool :=
  decide ('0'.toUInt8 ≤ char) && decide (char ≤ '9'.toUInt8)

def int (digits : List UInt8) : Nat :=
  digits.foldl (fun number digit => 10 * number + (digit.toNat - 48)) 0

/-- The match of REPEAT_REGEX at `start`. -/
def parseRepeat (text : List UInt8) (start : Nat) : Parsing (Nat × Option Nat × Nat) :=
  let digits := (text.drop start).takeWhile isDigit
  let index := start + digits.length
  let more := (text.drop (index + 1)).takeWhile isDigit
  let past := index + 1 + more.length
  if digits ≠ [] ∧ text[index]? = some '}'.toUInt8 then
    pure (int digits, some (int digits), index + 1)
  else if digits ≠ [] ∧ text[index]? = some ','.toUInt8 ∧ text[past]? = some '}'.toUInt8 then
    pure (int digits, if more = [] then none else some (int more), past + 1)
  else Logged.raise ("Unable to parse repetition " ++ printed (text.drop start))

/-! _parse and parseOr -/

def charToClass (char : UInt8) : Option Atom :=
  if char = '.'.toUInt8 then some .regexDot
  else if char = '^'.toUInt8 then some .regexStart
  else if char = '$'.toUInt8 then some .regexEnd
  else none

def charToRepeat (char : UInt8) : Option (Nat × Option Nat) :=
  if char = '*'.toUInt8 then some (0, none)
  else if char = '?'.toUInt8 then some (0, some 1)
  else if char = '+'.toUInt8 then some (1, none)
  else none

def newRegexRepeat (fuel : Nat) (last : Option Ref) (rmin : Nat) (rmax : Option Nat) :
    Parsing Ref :=
  Logged.tryStep fun h => (regexRepeat fuel last rmin rmax h).run

/-- `regex + last`, unless `last` is None. -/
def addLast (fuel : Nat) (regex : Ref) (last : Option Ref) : Parsing Ref :=
  match last with
  | some last => Logged.step (dunderAnd fuel regex last)
  | none => pure regex

/-- `regex | newRegex`, unless `regex` is None. -/
def orNext (fuel : Nat) (regex : Option Ref) (newRegex : Ref) : Parsing Ref :=
  match regex with
  | some regex => Logged.step (dunderOr fuel regex newRegex)
  | none => pure newRegex

/-- The branch of an antislash. -/
def escaped (text : List UInt8) (index : Nat) : Parsing (Ref × Nat) :=
  if index + 1 = text.length then
    Logged.raise "Antislash (\\) without escaped character"
  else do
    let char ← charAt text (index + 1)
    if char = 'b'.toUInt8 then do
      let newRegex ← newAtom .regexWord
      pure (newRegex, index + 2)
    else if char ∈ regexCommandCharacters ∨ char = ' '.toUInt8 ∨ char = '\''.toUInt8 then do
      let newRegex ← newString char
      pure (newRegex, index + 2)
    else Logged.raise ("Operator '\\" ++ printed [char] ++ "' is not supported")

/-- The branches of a command character without a regex inside: the new regex, what
becomes of `last`, and the index after them. -/
def simpleCommand (fuel : Nat) (text : List UInt8) (index : Nat) (char : UInt8)
    (last : Option Ref) : Parsing (Ref × Option Ref × Nat) :=
  match charToClass char, charToRepeat char with
  | some leaf, _ => do
      let newRegex ← newAtom leaf
      pure (newRegex, last, index + 1)
  | none, some (rmin, rmax) =>
      if last.isNone then
        Logged.raise ("Repetition character (" ++ printed [char] ++
          ") without previous expression")
      else do
        let newRegex ← newRegexRepeat fuel last rmin rmax
        pure (newRegex, none, index + 1)
  | none, none =>
      if char = '['.toUInt8 then do
        let (newRegex, index) ← parseRange fuel text (index + 1)
        pure (newRegex, last, index)
      else if char = '{'.toUInt8 then do
        let (rmin, rmax, index) ← parseRepeat text (index + 1)
        let newRegex ← newRegexRepeat fuel last rmin rmax
        pure (newRegex, none, index)
      else if char = '\\'.toUInt8 then do
        let (newRegex, index) ← escaped text index
        pure (newRegex, last, index)
      else Logged.raise ("Operator '" ++ printed [char] ++ "' is not supported")

mutual

def underParse (fuel : Nat) (text : List UInt8) (start : Nat) (untilChars : List UInt8) :
    Parsing (Ref × Nat) :=
  match fuel with
  | 0 => Logged.starve
  | fuel + 1 => do
      let regex ← newAtom .regexEmpty
      if text.length = start then pure (regex, 0)
      else do
        let (regex, last, index) ← parseLoop fuel text start untilChars regex none
        let regex ← addLast fuel regex last
        pure (regex, index)
termination_by structural fuel

/-- The loop of `_parse`. -/
def parseLoop (fuel : Nat) (text : List UInt8) (index : Nat) (untilChars : List UInt8)
    (regex : Ref) (last : Option Ref) : Parsing (Ref × Option Ref × Nat) :=
  match fuel with
  | 0 => Logged.starve
  | fuel + 1 =>
      match text[index]? with
      | none => pure (regex, last, index)
      | some char =>
          if char ∈ untilChars then pure (regex, last, index)
          else if char ∈ regexCommandCharacters then do
            let (newRegex, last, next) ← command fuel text index char last
            let regex ← addLast fuel regex last
            Logged.enter ⟨.underParse, index, next⟩
            parseLoop fuel text next untilChars regex (some newRegex)
          else do
            let regex ← addLast fuel regex last
            let newRegex ← newString char
            Logged.enter ⟨.underParse, index, index + 1⟩
            parseLoop fuel text (index + 1) untilChars regex (some newRegex)
termination_by structural fuel

def command (fuel : Nat) (text : List UInt8) (index : Nat) (char : UInt8)
    (last : Option Ref) : Parsing (Ref × Option Ref × Nat) :=
  match fuel with
  | 0 => Logged.starve
  | fuel + 1 =>
      if char = '('.toUInt8 then do
        let (newRegex, index) ← parseOr fuel text (index + 1)
        pure (newRegex, last, index)
      else simpleCommand fuel text index char last
termination_by structural fuel

def parseOr (fuel : Nat) (text : List UInt8) (start : Nat) : Parsing (Ref × Nat) :=
  match fuel with
  | 0 => Logged.starve
  | fuel + 1 => do
      let index := if (text.drop start).take 2 = ['?', ':'].map Char.toUInt8 then start + 2
        else start
      if (← charAt text index) = '?'.toUInt8 then
        Logged.raise "Doesn't support Python extension (?...)"
      else do
        let (regex, index) ← orLoop fuel text index none
        pure (regex, index + 1)
termination_by structural fuel

/-- The loop of parseOr; a turn that finds the parenthesis also leaves it behind. -/
def orLoop (fuel : Nat) (text : List UInt8) (index : Nat) (regex : Option Ref) :
    Parsing (Ref × Nat) :=
  match fuel with
  | 0 => Logged.starve
  | fuel + 1 => do
      let (newRegex, next) ← underParse fuel text index (['|', ')'].map Char.toUInt8)
      let regex ← orNext fuel regex newRegex
      if text.length ≤ next then Logged.raise "Missing closing parenthesis"
      else do
        Logged.enter ⟨.parseOr, index, next + 1⟩
        if text[next]? = some ')'.toUInt8 then pure (regex, next)
        else orLoop fuel text (next + 1) (some regex)
termination_by structural fuel

end

def parse (fuel : Nat) (text : List UInt8) : Parsing Ref := do
  let (regex, index) ← underParse fuel text 0 []
  if index = text.length then pure regex
  -- the exception of an assertion has no text
  else Logged.raise ""

/-! The turns of the loops. -/

section Turns

variable (fuel : Nat) {text : List UInt8} {index : Nat} {untilChars : List UInt8} (regex : Ref)
  (last : Option Ref)

theorem underParse_step (start : Nat) :
    underParse (fuel + 1) text start untilChars =
      newAtom .regexEmpty >>= fun regex =>
        if text.length = start then pure (regex, 0)
        else parseLoop fuel text start untilChars regex none >>= fun (regex, last, index) =>
          addLast fuel regex last >>= fun regex => pure (regex, index) := by
  rewrite [underParse]
  rfl

theorem parseLoop_end (past : text[index]? = none) :
    parseLoop (fuel + 1) text index untilChars regex last = pure (regex, last, index) := by
  rewrite [parseLoop, past]
  rfl

theorem parseLoop_until {char : UInt8} (here : text[index]? = some char)
    (stops : char ∈ untilChars) :
    parseLoop (fuel + 1) text index untilChars regex last = pure (regex, last, index) := by
  rewrite [parseLoop, here]
  exact if_pos stops

theorem parseLoop_command {char : UInt8} (here : text[index]? = some char)
    (goesOn : char ∉ untilChars) (special : char ∈ regexCommandCharacters) :
    parseLoop (fuel + 1) text index untilChars regex last =
      command fuel text index char last >>= fun (newRegex, last, next) =>
        addLast fuel regex last >>= fun regex =>
          Logged.enter ⟨.underParse, index, next⟩ >>= fun _ =>
            parseLoop fuel text next untilChars regex (some newRegex) := by
  rewrite [parseLoop, here]
  exact (if_neg goesOn).trans (if_pos special)

theorem parseLoop_character {char : UInt8} (here : text[index]? = some char)
    (goesOn : char ∉ untilChars) (plain : char ∉ regexCommandCharacters) :
    parseLoop (fuel + 1) text index untilChars regex last =
      addLast fuel regex last >>= fun regex =>
        newString char >>= fun newRegex =>
          Logged.enter ⟨.underParse, index, index + 1⟩ >>= fun _ =>
            parseLoop fuel text (index + 1) untilChars regex (some newRegex) := by
  rewrite [parseLoop, here]
  exact (if_neg goesOn).trans (if_neg plain)

theorem command_group (index : Nat) :
    command (fuel + 1) text index '('.toUInt8 last =
      parseOr fuel text (index + 1) >>= fun (newRegex, index) =>
        pure (newRegex, last, index) := by
  rewrite [command]
  rfl

theorem command_simple {char : UInt8} (index : Nat) (notGroup : char ≠ '('.toUInt8) :
    command (fuel + 1) text index char last = simpleCommand fuel text index char last := by
  rewrite [command]
  exact if_neg notGroup

/-- Where the alternatives of a group begin. -/
def groupStart (text : List UInt8) (start : Nat) : Nat :=
  if (text.drop start).take 2 = ['?', ':'].map Char.toUInt8 then start + 2 else start

theorem parseOr_step (start : Nat) :
    parseOr (fuel + 1) text start =
      charAt text (groupStart text start) >>= fun char =>
        if char = '?'.toUInt8 then Logged.raise "Doesn't support Python extension (?...)"
        else orLoop fuel text (groupStart text start) none >>= fun (regex, index) =>
          pure (regex, index + 1) := by
  rewrite [parseOr]
  rfl

theorem orLoop_step (index : Nat) (regex : Option Ref) :
    orLoop (fuel + 1) text index regex =
      underParse fuel text index (['|', ')'].map Char.toUInt8) >>= fun (newRegex, next) =>
        orNext fuel regex newRegex >>= fun regex =>
          if text.length ≤ next then Logged.raise "Missing closing parenthesis"
          else Logged.enter ⟨.parseOr, index, next + 1⟩ >>= fun _ =>
            if text[next]? = some ')'.toUInt8 then pure (regex, next)
            else orLoop fuel text (next + 1) (some regex) := by
  rewrite [orLoop]
  rfl

end Turns

end Segvault.HachoirRegex
