import Mathlib.Data.Finset.Insert
import Mathlib.Data.List.DropRight
import Segvault.Fusil.HelpOption

namespace Segvault.Fusil

open PercentFormat

namespace CommandHelpParser

/-! `CommandHelpParser`: `fusil/cmd_help_parser.py`. A group of a regular expression that took no
part is `none`. -/

def rstrip (text : Text) : Text := text.rdropWhile isWhite

def strip (text : Text) : Text := rstrip (text.dropWhile isWhite)

/-! The regular expressions: each takes its match off a text. -/

def shortOpt : Text → Option (Text × Text)
  | '-' :: letter :: rest => if letter.isAlphanum then some (['-', letter], rest) else none
  | _ => none

def isNameChar (symbol : Char) : Bool := symbol.isLower || symbol = '-'

def longOpt : Text → Option (Text × Text)
  | '-' :: letter :: rest =>
      if letter.isAlpha ∧ rest.takeWhile isNameChar ≠ [] then
        some ('-' :: letter :: rest.takeWhile isNameChar, rest.dropWhile isNameChar)
      else none
  | _ => none

def longlongOpt : Text → Option (Text × Text)
  | '-' :: '-' :: letter :: rest =>
      if letter.isLower ∧ rest.takeWhile isNameChar ≠ [] then
        some ('-' :: '-' :: letter :: rest.takeWhile isNameChar, rest.dropWhile isNameChar)
      else none
  | _ => none

def eitherOpt (text : Text) : Option (Text × Text) := (shortOpt text).or (longlongOpt text)

def isValueChar (symbol : Char) : Bool := symbol.isAlpha || symbol ∈ ['_', ':']

/-- One or more of the symbols of a value, between two fixed texts, after one symbol. -/
def enclosed (starts : List Char) (opening closing : Text) : Text → Option (Text × Text)
  | [] => none
  | start :: rest =>
      let word := (rest.drop opening.length).takeWhile isValueChar
      let after := (rest.drop opening.length).dropWhile isValueChar
      if start ∈ starts ∧ opening <+: rest ∧ word ≠ [] ∧ closing <+: after then
        some (start :: opening ++ word ++ closing, after.drop closing.length)
      else none

def value (text : Text) : Option (Text × Text) :=
  (enclosed [' ', '='] [] [] text).or <|
    (enclosed [' ', ',', '='] ['<'] ['>'] text).or <|
      (enclosed [' ', '='] ['"'] ['"'] text).or <|
        enclosed ['['] ['='] [']'] text

def optional (expression : Text → Option (Text × Text)) (text : Text) : Option Text × Text :=
  match expression text with
  | some (found, rest) => (some found, rest)
  | none => (none, text)

/-- `\s+` -/
def blanks (text : Text) : Option Text :=
  if text.takeWhile isWhite = [] then none else some (text.dropWhile isWhite)

def fixed (expected text : Text) : Option Text :=
  if expected <+: text then some (text.drop expected.length) else none

def gnuRegex (line : Text) : Option (Text × Option Text × Option Text) := do
  let rest ← blanks line
  let (name, rest) ← shortOpt rest
  let rest ← fixed [',', ' '] rest
  let (long, rest) := optional longlongOpt rest
  some (name, long, (optional value rest).1)

def longOptRegex (line : Text) : Option (Text × Option Text × Option Text) := do
  let rest ← blanks line
  let (name, rest) ← longOpt rest
  let (first, rest) := optional value rest
  some (name, first, (optional value rest).1)

def optRegex (line : Text) : Option (Text × Option Text) := do
  let rest ← blanks line
  let (name, rest) ← eitherOpt rest
  some (name, (optional value rest).1)

/-- The value is given up again if no colon follows it. -/
def opt2Regex (line : Text) : Option (Text × Option Text) := do
  let (name, rest) ← eitherOpt line
  let colon (rest : Text) : Option Text := (blanks rest).bind (fixed [':', ' '])
  let withValue : Option (Text × Option Text) := do
    let (found, rest) ← value rest
    let _ ← colon rest
    some (name, some found)
  withValue.or ((colon rest).map fun _ => (name, none))

/-- `usage_prefix_regex`, which holds the name of the program as a pattern of its own: its group is
what follows the name. -/
structure UsagePrefix where
  usage : Text → Option Text
  shorter : ∀ {line rest}, usage line = some rest → rest.length < line.length

theorem length_fixed {expected text rest : Text} (matched : fixed expected text = some rest) :
    rest.length + expected.length = text.length := by
  rw [fixed] at matched
  split at matched
  · rename_i starts
    cases matched
    rw [List.length_drop]
    exact Nat.sub_add_cancel starts.length_le
  · cases matched

/-- The pattern of a program whose name stands for itself. -/
def literalPrefix (program : Text) : UsagePrefix where
  usage line := do
    let usage := ['s', 'a', 'g', 'e', ':', ' '] ++ program ++ [' ']
    let rest ← (fixed ('U' :: usage) line).or (fixed ('u' :: usage) line)
    if rest.dropWhile (· ≠ '\n') ∈ [[], ['\n']] then some (rest.takeWhile (· ≠ '\n')) else none
  shorter := by
    intro line rest matched
    obtain ⟨after, started, matched⟩ := Option.bind_eq_some_iff.mp matched
    split at matched
    · cases matched
      refine Nat.lt_of_le_of_lt (List.takeWhile_sublist _).length_le ?_
      obtain upper | ⟨-, lower⟩ := Option.or_eq_some_iff.mp started
      · exact Nat.lt_of_lt_of_eq (Nat.lt_add_of_pos_right (Nat.succ_pos _)) (length_fixed upper)
      · exact Nat.lt_of_lt_of_eq (Nat.lt_add_of_pos_right (Nat.succ_pos _)) (length_fixed lower)
    · cases matched

/-- `usage_group_regex`: the text of an open group is kept beside what is still to be read. -/
def groupsFrom : Option Text → Text → List Text
  | _, [] => []
  | none, symbol :: rest => groupsFrom (if symbol = '[' then some [] else none) rest
  | some body, symbol :: rest =>
      if symbol ≠ ']' then groupsFrom (some (body ++ [symbol])) rest
      else if body = [] then groupsFrom none rest
      else body :: groupsFrom none rest

/-! The options that a line gives. A line is read in the same way whatever options are known
already, so what is read of it is the calls of `addOption`, in their order. -/

structure Call where
  name : Text
  values : List (Option Text)
  defaultSeparator : Option Char := none

/-- What a value adds to the format. A symbol that is not there raises. -/
def valueFormat (defaultSeparator : Option Char) (value : Text) : Option Text := do
  let separator ← defaultSeparator.or value[0]?
  if '"' ∈ value then some [separator, '"', '%', 's', '"']
  else
    let separator ← if separator = '[' then value[1]? else some separator
    some [separator, '%', 's']

def Call.option (call : Call) : Option HelpOption := do
  let values := call.values.filterMap fun value => value.filter (· ≠ [])
  let format ← values.mapM (valueFormat call.defaultSeparator)
  some { format := call.name ++ format.flatten, nbArgument := format.length }

/-- What is matched by the first regular expression that matches. -/
def optionCalls (line : Text) : Option (List Call) :=
  match gnuRegex line with
  | some (name, long, value) =>
      let short : Call := { name, values := [value], defaultSeparator := some ' ' }
      some (short :: long.toList.map fun name => { name, values := [value] })
  | none =>
      match longOptRegex line with
      | some (name, value, value2) =>
          some [{ name, values := if value2.isSome then [value, value2] else [value] }]
      | none =>
          ((optRegex line).or (opt2Regex line)).map fun (name, value) =>
            [{ name, values := [value] }]

/-- A line that starts with a hyphen has a first word. -/
def parseUsageGroup (line : Text) : List Call × Bool :=
  match strip line with
  | '-' :: letters =>
      if ' ' ∈ letters then
        let parts := splitWords ('-' :: letters)
        ([{ name := parts.headD [], values := parts.tail.map some, defaultSeparator := some ' ' }],
          true)
      else (letters.map fun opt => { name := ['-', opt], values := [] }, true)
  | _ => ([], false)

def parseUsageGroups (groups : List Text) : List Call × Bool :=
  let parsed := (groups.flatMap fun line => line.splitOn '|').map parseUsageGroup
  (parsed.flatMap Prod.fst, parsed.any Prod.snd)

/-- `line` after the loop of `parseUsage`. -/
def lastGroup (line : Text) : Text := (groupsFrom none line).getLast?.getD line

/-- `self.parse_line` -/
inductive LineParser
  | parseLine
  | parseUsage
  deriving DecidableEq

theorem length_of_mem_groupsFrom {group : Option Text} {line body : Text}
    (member : body ∈ groupsFrom group line) :
    body.length ≤ (group.getD []).length + line.length := by
  induction group, line using groupsFrom.induct with
  | case1 group => cases member
  | case2 symbol rest induction =>
      have bound := induction member
      split at bound <;> exact Nat.le_succ_of_le bound
  | case3 text symbol rest open_ induction =>
      rw [groupsFrom, if_pos open_] at member
      have bound := induction member
      rw [Option.getD_some, List.length_append, List.length_singleton] at bound
      rw [Option.getD_some, List.length_cons]
      omega
  | case4 symbol rest closed induction =>
      rw [groupsFrom, if_neg closed, if_pos rfl] at member
      exact Nat.le_succ_of_le (induction member)
  | case5 text symbol rest closed nonempty induction =>
      rw [groupsFrom, if_neg closed, if_neg nonempty] at member
      obtain rfl | later := List.mem_cons.mp member
      · exact Nat.le_add_right _ _
      · have bound := induction later
        rw [Option.getD_none, List.length_nil, Nat.zero_add] at bound
        rw [Option.getD_some, List.length_cons]
        omega

theorem length_strip (line : Text) : (strip line).length ≤ line.length :=
  ((List.rdropWhile_prefix isWhite _).sublist.trans (List.dropWhile_sublist _)).length_le

theorem length_lastGroup (line : Text) : (lastGroup line).length ≤ line.length := by
  rw [lastGroup]
  cases last : (groupsFrom none line).getLast? with
  | none => exact Nat.le_refl _
  | some body =>
      have bound := length_of_mem_groupsFrom (List.mem_of_getLast? last)
      rwa [Option.getD_none, List.length_nil, Nat.zero_add] at bound

variable (usagePrefix : UsagePrefix)

mutual

def parseLine (line : Text) : List Call × LineParser :=
  match optionCalls line with
  | some calls => (calls, .parseLine)
  | none =>
      match _matched : usagePrefix.usage line with
      | some rest => parseUsage rest
      | none => ([], .parseLine)
termination_by 2 * line.length
decreasing_by
  have := usagePrefix.shorter _matched
  omega

def parseUsage (line : Text) : List Call × LineParser :=
  let (calls, matched) := parseUsageGroups (groupsFrom none (strip line))
  if matched then (calls, .parseUsage)
  else
    let (others, parser) := parseLine (lastGroup (strip line))
    (calls ++ others, parser)
termination_by 2 * line.length + 1
decreasing_by
  have := length_lastGroup (strip line)
  have := length_strip line
  omega

end

def fileCalls : LineParser → List Text → List Call
  | _, [] => []
  | parser, line :: lines =>
      let (calls, parser) :=
        match parser with
        | .parseLine => parseLine usagePrefix (rstrip line)
        | .parseUsage => parseUsage usagePrefix (rstrip line)
      calls ++ fileCalls parser lines

end CommandHelpParser

/-! The parser, which raises where a key cannot be formatted. -/

structure CommandHelpParser where
  options : List HelpOption := []
  optionsSet : Finset Text := ∅

namespace CommandHelpParser

/-- `_addOption` -/
def record (parser : CommandHelpParser) (option : HelpOption) : Option CommandHelpParser := do
  let key ← option.str
  if key ∈ parser.optionsSet then some parser
  else
    some
      { options := parser.options ++ [option], optionsSet := insert key parser.optionsSet }

def addOption (parser : CommandHelpParser) (call : Call) : Option CommandHelpParser := do
  let option ← call.option
  parser.record option

def parseFile (usagePrefix : UsagePrefix) (stdout : List Text) : Option CommandHelpParser :=
  (fileCalls usagePrefix .parseLine stdout).foldlM addOption {}

/-! What the regular expressions find. -/

theorem not_mem_takeWhile {kind : Char → Bool} (other : kind '%' = false) (text : Text) :
    '%' ∉ text.takeWhile kind := fun member =>
  Bool.false_ne_true (other.symm.trans (List.mem_takeWhile_imp member))

theorem shortOpt_name {text name rest : Text} (found : shortOpt text = some (name, rest)) :
    '%' ∉ name := by
  rw [shortOpt.eq_def] at found
  split at found
  · split at found
    · rename_i alphanum
      cases found
      rintro (_ | ⟨_, _ | ⟨_, none_⟩⟩)
      · exact absurd alphanum (by decide)
      · cases none_
    · cases found
  · cases found

theorem longOpt_name {text name rest : Text} (found : longOpt text = some (name, rest)) :
    '%' ∉ name := by
  rw [longOpt.eq_def] at found
  split at found
  · split at found
    · rename_i alpha
      cases found
      rintro (_ | ⟨_, _ | ⟨_, later⟩⟩)
      · exact absurd alpha.1 (by decide)
      · exact not_mem_takeWhile (by decide) _ later
    · cases found
  · cases found

theorem longlongOpt_name {text name rest : Text}
    (found : longlongOpt text = some (name, rest)) : '%' ∉ name := by
  rw [longlongOpt.eq_def] at found
  split at found
  · split at found
    · rename_i lower
      cases found
      rintro (_ | ⟨_, _ | ⟨_, _ | ⟨_, later⟩⟩⟩)
      · exact absurd lower.1 (by decide)
      · exact not_mem_takeWhile (by decide) _ later
    · cases found
  · cases found

theorem eitherOpt_name {text name rest : Text} (found : eitherOpt text = some (name, rest)) :
    '%' ∉ name := by
  obtain short | ⟨-, long⟩ := Option.or_eq_some_iff.mp found
  · exact shortOpt_name short
  · exact longlongOpt_name long

/-- A value without percent signs, and a symbol after its separator. -/
structure IsValue (value : Text) : Prop where
  noSign : '%' ∉ value
  long : 2 ≤ value.length

theorem isValue_enclosed {starts : List Char} {opening closing text found rest : Text}
    (noSign : '%' ∉ starts ++ opening ++ closing)
    (matched : enclosed starts opening closing text = some (found, rest)) : IsValue found := by
  cases text with
  | nil => cases matched
  | cons start text =>
      simp only [enclosed] at matched
      split at matched
      · rename_i conditions
        obtain ⟨starting, -, nonempty, -⟩ := conditions
        cases matched
        obtain ⟨⟨notStarts, notOpening⟩, notClosing⟩ := by
          simpa only [List.mem_append, not_or] using noSign
        refine ⟨?_, ?_⟩
        · simp only [List.cons_append, List.mem_cons, List.mem_append, not_or]
          refine ⟨fun same => notStarts (same ▸ starting), ⟨notOpening, ?_⟩, notClosing⟩
          exact not_mem_takeWhile (by decide) _
        · have long := List.length_pos_iff.mpr nonempty
          simp only [List.cons_append, List.length_cons, List.length_append]
          omega
      · cases matched

theorem isValue_value {text found rest : Text} (matched : value text = some (found, rest)) :
    IsValue found := by
  obtain first | ⟨-, matched⟩ := Option.or_eq_some_iff.mp matched
  · exact isValue_enclosed (by decide) first
  · obtain second | ⟨-, matched⟩ := Option.or_eq_some_iff.mp matched
    · exact isValue_enclosed (by decide) second
    · obtain third | ⟨-, fourth⟩ := Option.or_eq_some_iff.mp matched
      · exact isValue_enclosed (by decide) third
      · exact isValue_enclosed (by decide) fourth

theorem optional_found {expression : Text → Option (Text × Text)} {text found : Text}
    (matched : (optional expression text).1 = some found) :
    ∃ rest, expression text = some (found, rest) := by
  rw [optional] at matched
  split at matched
  · rename_i rest same
    cases matched
    exact ⟨rest, same⟩
  · cases matched

theorem gnuRegex_found {line name : Text} {long value : Option Text}
    (matched : gnuRegex line = some (name, long, value)) :
    '%' ∉ name ∧ (∀ found, long = some found → '%' ∉ found) ∧
      ∀ found, value = some found → IsValue found := by
  obtain ⟨rest, -, matched⟩ := Option.bind_eq_some_iff.mp matched
  obtain ⟨⟨short, rest⟩, shortFound, matched⟩ := Option.bind_eq_some_iff.mp matched
  obtain ⟨rest, -, matched⟩ := Option.bind_eq_some_iff.mp matched
  cases matched
  refine ⟨shortOpt_name shortFound, fun found same => ?_, fun found same => ?_⟩
  · obtain ⟨_, longFound⟩ := optional_found same
    exact longlongOpt_name longFound
  · obtain ⟨_, valueFound⟩ := optional_found same
    exact isValue_value valueFound

theorem longOptRegex_found {line name : Text} {first second : Option Text}
    (matched : longOptRegex line = some (name, first, second)) :
    '%' ∉ name ∧ (∀ found, first = some found → IsValue found) ∧
      ∀ found, second = some found → IsValue found := by
  obtain ⟨rest, -, matched⟩ := Option.bind_eq_some_iff.mp matched
  obtain ⟨⟨long, rest⟩, longFound, matched⟩ := Option.bind_eq_some_iff.mp matched
  cases matched
  refine ⟨longOpt_name longFound, fun found same => ?_, fun found same => ?_⟩
  all_goals
    obtain ⟨_, valueFound⟩ := optional_found same
    exact isValue_value valueFound

theorem optRegex_found {line name : Text} {value : Option Text}
    (matched : optRegex line = some (name, value)) :
    '%' ∉ name ∧ ∀ found, value = some found → IsValue found := by
  obtain ⟨rest, -, matched⟩ := Option.bind_eq_some_iff.mp matched
  obtain ⟨⟨either, rest⟩, eitherFound, matched⟩ := Option.bind_eq_some_iff.mp matched
  cases matched
  refine ⟨eitherOpt_name eitherFound, fun found same => ?_⟩
  obtain ⟨_, valueFound⟩ := optional_found same
  exact isValue_value valueFound

theorem opt2Regex_found {line name : Text} {value : Option Text}
    (matched : opt2Regex line = some (name, value)) :
    '%' ∉ name ∧ ∀ found, value = some found → IsValue found := by
  obtain ⟨⟨either, rest⟩, eitherFound, matched⟩ := Option.bind_eq_some_iff.mp matched
  obtain withValue | ⟨-, without⟩ := Option.or_eq_some_iff.mp matched
  · obtain ⟨⟨found, rest⟩, valueFound, withValue⟩ := Option.bind_eq_some_iff.mp withValue
    obtain ⟨_, -, withValue⟩ := Option.bind_eq_some_iff.mp withValue
    cases withValue
    refine ⟨eitherOpt_name eitherFound, ?_⟩
    rintro _ ⟨⟩
    exact isValue_value valueFound
  · obtain ⟨_, -, same⟩ := Option.map_eq_some_iff.mp without
    cases same
    exact ⟨eitherOpt_name eitherFound, nofun⟩

/-! The calls that a text gives. -/

inductive Call.Read : Call → Prop
  | matched {call : Call} (noSign : '%' ∉ call.name)
      (values : ∀ value, some value ∈ call.values → IsValue value)
      (separator : call.defaultSeparator ≠ some '%') : Read call
  | words {name : Text} {values : List Text} (nonempty : name ≠ [])
      (word : ∀ symbol ∈ name, isWhite symbol = false) (several : values ≠ [])
      (filled : ∀ value ∈ values, value ≠ []) :
      Read { name, values := values.map some, defaultSeparator := some ' ' }
  | sign : Read { name := ['-', '%'], values := [] }

theorem read_single {name : Text} {value : Option Text} (noSign : '%' ∉ name)
    (values : ∀ found, value = some found → IsValue found) {separator : Option Char}
    (other : separator ≠ some '%') :
    Call.Read { name, values := [value], defaultSeparator := separator } :=
  .matched noSign (fun found member => values found (List.mem_singleton.mp member).symm) other

theorem read_optionCalls {line : Text} {calls : List Call} (matched : optionCalls line = some calls) :
    ∀ call ∈ calls, call.Read := by
  rw [optionCalls] at matched
  split at matched
  · rename_i name long value found
    obtain ⟨short, longName, values⟩ := gnuRegex_found found
    cases matched
    rintro call (_ | ⟨_, member⟩)
    · exact read_single short values (by decide)
    · obtain ⟨name, known, rfl⟩ := List.mem_map.mp member
      exact read_single (longName name (Option.mem_toList.mp known)) values nofun
  · split at matched
    · rename_i name value value2 found
      obtain ⟨long, first, second⟩ := longOptRegex_found found
      cases matched
      intro call member
      obtain rfl := List.mem_singleton.mp member
      refine .matched long (fun found member => ?_) nofun
      split at member
      · obtain here | later := List.mem_cons.mp member
        · exact first found here.symm
        · exact second found (List.mem_singleton.mp later).symm
      · exact first found (List.mem_singleton.mp member).symm
    · obtain ⟨⟨name, value⟩, either, rfl⟩ := Option.map_eq_some_iff.mp matched
      intro call member
      obtain rfl := List.mem_singleton.mp member
      obtain found | ⟨-, found⟩ := Option.or_eq_some_iff.mp either
      · exact read_single (optRegex_found found).1 (optRegex_found found).2 nofun
      · exact read_single (opt2Regex_found found).1 (opt2Regex_found found).2 nofun

/-- A stripped text does not end in a blank. -/
theorem strip_append {line before after : Text} {symbol : Char}
    (same : strip line = before ++ symbol :: after) :
    ∃ last ∈ symbol :: after, isWhite last = false := by
  have nonempty : strip line ≠ [] := by
    rw [same]
    exact List.append_ne_nil_of_right_ne_nil _ (List.cons_ne_nil _ _)
  refine ⟨(strip line).getLast nonempty, ?_, ?_⟩
  · simp only [same, List.getLast_append_of_ne_nil, ne_eq, reduceCtorEq, not_false_eq_true]
    exact List.getLast_mem _
  · exact Bool.eq_false_iff.mpr (List.rdropWhile_last_not _ _ nonempty)

theorem read_parseUsageGroup (line : Text) : ∀ call ∈ (parseUsageGroup line).1, call.Read := by
  rw [parseUsageGroup]
  split
  · rename_i letters stripped
    split
    · rename_i blank
      obtain ⟨before, after, rfl⟩ := List.append_of_mem blank
      obtain ⟨last, member, notWhite⟩ := @strip_append line ('-' :: before) after ' ' stripped
      have later : splitWords after ≠ [] := by
        obtain rfl | inside := List.mem_cons.mp member
        · exact absurd notWhite (by decide)
        · exact splitWords_ne_nil inside notWhite
      obtain ⟨name, values, starts⟩ := List.exists_cons_of_ne_nil
        (@splitWords_ne_nil ('-' :: before) '-' List.mem_cons_self (by decide))
      have parts : splitWords ('-' :: (before ++ ' ' :: after)) =
          name :: (values ++ splitWords after) := by
        rw [← List.cons_append, splitWords_append _ _ (by decide), starts, List.cons_append]
      have words := @ne_nil_of_mem_splitWords ('-' :: (before ++ ' ' :: after))
      have letters := @not_white_of_mem_splitWords ('-' :: (before ++ ' ' :: after))
      rw [parts] at words letters ⊢
      intro call single
      obtain rfl := List.mem_singleton.mp single
      exact .words (words List.mem_cons_self) (letters List.mem_cons_self)
        (List.append_ne_nil_of_right_ne_nil _ later)
        fun value member => words (List.mem_cons_of_mem _ member)
    · intro call member
      obtain ⟨opt, -, rfl⟩ := List.mem_map.mp member
      by_cases sign : opt = '%'
      · rw [sign]
        exact .sign
      · refine .matched ?_ nofun nofun
        rintro (_ | ⟨_, _ | ⟨_, none_⟩⟩)
        · exact sign rfl
        · cases none_
  · intro call none_
    cases none_

theorem read_parseUsageGroups (groups : List Text) :
    ∀ call ∈ (parseUsageGroups groups).1, call.Read := by
  intro call member
  obtain ⟨parsed, known, inside⟩ := List.mem_flatMap.mp member
  obtain ⟨line, -, rfl⟩ := List.mem_map.mp known
  exact read_parseUsageGroup line call inside

mutual

theorem read_parseLine (usagePrefix : UsagePrefix) (line : Text) :
    ∀ call ∈ (parseLine usagePrefix line).1, call.Read := by
  rw [parseLine]
  split
  · rename_i calls matched
    exact read_optionCalls matched
  · split
    · rename_i rest matched
      have shorter := usagePrefix.shorter matched
      exact read_parseUsage usagePrefix rest
    · exact nofun
termination_by 2 * line.length
decreasing_by omega

theorem read_parseUsage (usagePrefix : UsagePrefix) (line : Text) :
    ∀ call ∈ (parseUsage usagePrefix line).1, call.Read := by
  rw [parseUsage]
  have groups := read_parseUsageGroups (groupsFrom none (strip line))
  have again := read_parseLine usagePrefix (lastGroup (strip line))
  cases parsed : parseUsageGroups (groupsFrom none (strip line)) with
  | mk calls matched =>
      rw [parsed] at groups
      cases matched with
      | true => exact groups
      | false =>
          intro call member
          obtain here | later := List.mem_append.mp member
          · exact groups call here
          · exact again call later
termination_by 2 * line.length + 1
decreasing_by
  have := length_lastGroup (strip line)
  have := length_strip line
  omega

end

theorem read_fileCalls (usagePrefix : UsagePrefix) (parser : LineParser) (stdout : List Text) :
    ∀ call ∈ fileCalls usagePrefix parser stdout, call.Read := by
  induction stdout generalizing parser with
  | nil => exact nofun
  | cons line stdout induction =>
      intro call member
      obtain here | later := List.mem_append.mp member
      · cases parser with
        | parseLine => exact read_parseLine usagePrefix _ call here
        | parseUsage => exact read_parseUsage usagePrefix _ call here
      · exact induction _ call later

/-! The option of a call. -/

theorem valueFormat_isValue {value : Text} (found : IsValue value) {separator : Option Char}
    (other : separator ≠ some '%') :
    ∃ part, valueFormat separator value = some part ∧ Slots 's' (fun _ => True) part 1 := by
  obtain ⟨first, second, rest, rfl⟩ : ∃ first second rest, value = first :: second :: rest := by
    obtain ⟨-, long⟩ := found
    match value with
    | first :: second :: rest => exact ⟨first, second, rest, rfl⟩
  obtain ⟨notFirst, later⟩ := List.ne_and_not_mem_of_not_mem_cons found.noSign
  obtain ⟨notSecond, -⟩ := List.ne_and_not_mem_of_not_mem_cons later
  obtain ⟨symbol, chosen, notSign⟩ : ∃ symbol,
      separator.or (first :: second :: rest)[0]? = some symbol ∧ symbol ≠ '%' := by
    cases separator with
    | none => exact ⟨first, rfl, notFirst.symm⟩
    | some symbol => exact ⟨symbol, rfl, fun same => other (congrArg some same)⟩
  rw [valueFormat, chosen]
  by_cases quoted : '"' ∈ first :: second :: rest
  · refine ⟨_, if_pos quoted, .symbol notSign trivial (.symbol (by decide) trivial ?_)⟩
    exact .slot (.symbol (by decide) trivial .nil)
  · by_cases bracket : symbol = '['
    · refine ⟨[second, '%', 's'], ?_, .symbol notSecond.symm trivial (.slot .nil)⟩
      simp only [bind, Option.bind_some, if_neg quoted, if_pos bracket]
      rfl
    · refine ⟨[symbol, '%', 's'], ?_, .symbol notSign trivial (.slot .nil)⟩
      simp only [bind, Option.bind_some, if_neg quoted, if_neg bracket]

theorem valueFormat_blank (value : Text) :
    ∃ rest, valueFormat (some ' ') value = some (' ' :: rest) ∧
      Slots 's' (· ∈ [' ', ',', '=', '"']) rest 1 := by
  by_cases quoted : '"' ∈ value
  · refine ⟨['"', '%', 's', '"'], if_pos quoted, .symbol (by decide) (by decide) ?_⟩
    exact .slot (.symbol (by decide) (by decide) .nil)
  · exact ⟨['%', 's'], if_neg quoted, .slot .nil⟩

theorem mapM_slots {admits : Char → Prop} {values : List Text} {form : Text → Option Text}
    (each : ∀ value ∈ values, ∃ part, form value = some part ∧ Slots 's' admits part 1) :
    ∃ parts, values.mapM form = some parts ∧ Slots 's' admits parts.flatten parts.length := by
  induction values with
  | nil => exact ⟨[], rfl, .nil⟩
  | cons value values induction =>
      obtain ⟨first, others⟩ := List.forall_mem_cons.mp each
      obtain ⟨part, formed, slots⟩ := first
      obtain ⟨parts, formedRest, slotsRest⟩ := induction others
      refine ⟨part :: parts, ?_, ?_⟩
      · rw [List.mapM_cons, formed, formedRest]
        rfl
      · rw [List.flatten_cons, List.length_cons, Nat.add_comm]
        exact slots.append slotsRest

theorem filterMap_some {values : List Text} (filled : ∀ value ∈ values, value ≠ []) :
    ((values.map some).filterMap fun value => value.filter (· ≠ [])) = values := by
  rw [List.filterMap_map]
  refine (List.filterMap_congr fun value member => ?_).trans List.filterMap_some
  exact if_pos (decide_eq_true (filled value member))

/-- The options of the three kinds of calls. -/
theorem Call.Read.option {call : Call} (read : call.Read) :
    ∃ option, call.option = some option ∧
      ('%' ∉ call.name ∧ Slots 's' (fun _ => True) option.format option.nbArgument ∨
        (∃ rest, Spaced option call.name rest) ∨
        call.name = ['-', '%'] ∧ option = { format := ['-', '%'], nbArgument := 0 }) := by
  cases read with
  | matched noSign values separator =>
      have each : ∀ value ∈ call.values.filterMap fun value => value.filter (· ≠ []),
          ∃ part, valueFormat call.defaultSeparator value = some part ∧
            Slots 's' (fun _ => True) part 1 := by
        intro value member
        obtain ⟨known, inside, kept⟩ := List.mem_filterMap.mp member
        obtain ⟨rfl, -⟩ := Option.filter_eq_some_iff.mp kept
        exact valueFormat_isValue (values value inside) separator
      obtain ⟨parts, formed, slots⟩ := mapM_slots each
      refine ⟨{ format := call.name ++ parts.flatten, nbArgument := parts.length }, ?_,
        .inl ⟨noSign, ?_⟩⟩
      · simp only [Call.option, formed, bind, Option.bind_some]
      · have all := (slots_zero noSign fun _ _ => trivial).append slots
        rwa [Nat.zero_add] at all
  | @words name values nonempty word several filled =>
      obtain ⟨first, others, rfl⟩ := List.exists_cons_of_ne_nil several
      obtain ⟨rest, formedFirst, slotsFirst⟩ := valueFormat_blank first
      have each : ∀ value ∈ others, ∃ part, valueFormat (some ' ') value = some part ∧
          Slots 's' (· ∈ [' ', ',', '=', '"']) part 1 := by
        intro value member
        obtain ⟨rest, formed, slots⟩ := valueFormat_blank value
        exact ⟨' ' :: rest, formed, .symbol (by decide) (by decide) slots⟩
      obtain ⟨parts, formed, slots⟩ := mapM_slots each
      refine ⟨{ format := name ++ (' ' :: rest) ++ parts.flatten, nbArgument := parts.length + 1 },
        ?_, .inr (.inl ⟨rest ++ parts.flatten, ?_, nonempty, word, ?_⟩)⟩
      · rw [Call.option, filterMap_some filled, List.mapM_cons, formedFirst, formed]
        simp only [bind, pure, Option.bind_some, List.flatten_cons, List.append_assoc,
          List.length_cons]
      · rw [List.append_assoc, List.cons_append]
      · rw [Nat.add_comm]
        exact slotsFirst.append slots
  | sign => exact ⟨_, rfl, .inr (.inr ⟨rfl, rfl⟩)⟩

theorem plain_of_noSign {name : Text} (noSign : '%' ∉ name) : Plain name where
  literal := by
    rw [format_plain noSign]
    rfl
  apart := countSlots_slots (slots_zero noSign fun _ _ => trivial)

theorem not_plain_sign : ¬ Plain ['-', '%'] := fun plain => absurd plain.literal (by decide)

theorem not_sign_placeholders {count : Nat} {argument : Text}
    (member : argument ∈ HelpOption.placeholders count) : '%' ∉ argument := by
  obtain ⟨index, -, rfl⟩ := List.mem_map.mp member
  intro inside
  obtain letters | digits := List.mem_append.mp inside
  · exact absurd letters (by decide)
  · have digit := Nat.isDigit_of_mem_toDigits (by decide) (by decide) digits
    exact absurd digit (by decide)

theorem Call.Read.plain {call : Call} (read : call.Read) (plain : Plain call.name) :
    ∃ option key, call.option = some option ∧ option.Counts ∧ option.str = some key ∧
      ¬ ['%', 's'] <:+: solid key := by
  obtain ⟨option, made, ⟨-, slots⟩ | ⟨rest, spaced⟩ | ⟨sign, -⟩⟩ := read.option
  · obtain ⟨key, printed, own⟩ := format_slots slots (length_placeholders option.nbArgument)
    refine ⟨option, key, made, counts_slots slots, printed, fun inside => ?_⟩
    have member : '%' ∈ key := List.mem_of_mem_filter (inside.subset List.mem_cons_self)
    obtain ⟨other, -⟩ | ⟨argument, known, within⟩ := own '%' member
    · exact other rfl
    · exact not_sign_placeholders known within
  · obtain ⟨key, printed, apart⟩ := spaced.str_plain plain
    exact ⟨option, key, made, spaced.counts plain, printed, apart⟩
  · rw [sign] at plain
    exact absurd plain not_plain_sign

theorem Call.Read.other {call : Call} (read : call.Read) (other : ¬ Plain call.name) :
    ∃ option, call.option = some option ∧ ¬ option.Counts ∧
      ∀ key, option.str = some key → ['%', 's'] <:+: solid key := by
  obtain ⟨option, made, ⟨noSign, -⟩ | ⟨rest, spaced⟩ | ⟨-, rfl⟩⟩ := read.option
  · exact absurd (plain_of_noSign noSign) other
  · exact ⟨option, made, fun counts => other (spaced.plain_of_counts counts),
      fun key printed => spaced.str_other other printed⟩
  · exact ⟨_, made, fun counts => absurd counts.prints (by decide),
      fun key printed => absurd printed nofun⟩

/-! All calls. -/

/-- All recorded options count their arguments right, and no recorded key has a percent sign
before `s`. -/
structure Clean (parser : CommandHelpParser) : Prop where
  counts : ∀ option ∈ parser.options, option.Counts
  keys : ∀ key ∈ parser.optionsSet, ¬ ['%', 's'] <:+: solid key

theorem Clean.addOption {parser : CommandHelpParser} (clean : parser.Clean) {call : Call}
    (read : call.Read) (plain : Plain call.name) :
    ∃ after, parser.addOption call = some after ∧ after.Clean := by
  obtain ⟨option, key, made, counts, printed, apart⟩ := read.plain plain
  by_cases known : key ∈ parser.optionsSet
  · refine ⟨parser, ?_, clean⟩
    simp only [CommandHelpParser.addOption, record, made, printed, bind, Option.bind_some,
      if_pos known]
  · refine ⟨{ options := parser.options ++ [option], optionsSet := insert key parser.optionsSet },
      ?_, ⟨fun other member => ?_, fun other member => ?_⟩⟩
    · simp only [CommandHelpParser.addOption, record, made, printed, bind, Option.bind_some,
        if_neg known]
    · obtain before | here := List.mem_append.mp member
      · exact clean.counts other before
      · exact List.mem_singleton.mp here ▸ counts
    · obtain rfl | before := Finset.mem_insert.mp member
      · exact apart
      · exact clean.keys other before

theorem addOption_grows {parser after : CommandHelpParser} {call : Call}
    (added : parser.addOption call = some after) : parser.options <+: after.options := by
  obtain ⟨option, -, recorded⟩ := Option.bind_eq_some_iff.mp added
  obtain ⟨key, -, recorded⟩ := Option.bind_eq_some_iff.mp recorded
  split at recorded
  · cases recorded
    exact List.prefix_rfl
  · cases recorded
    exact List.prefix_append _ _

/-- The option of a name that is not plain is recorded: no key before has been like its own. -/
theorem Clean.addOption_other {parser after : CommandHelpParser} (clean : parser.Clean)
    {call : Call} (read : call.Read) (other : ¬ Plain call.name)
    (added : parser.addOption call = some after) : ∃ option ∈ after.options, ¬ option.Counts := by
  obtain ⟨option, made, notCounts, signs⟩ := read.other other
  refine ⟨option, ?_, notCounts⟩
  rw [CommandHelpParser.addOption, made] at added
  change parser.record option = some after at added
  obtain ⟨key, printed, recorded⟩ := Option.bind_eq_some_iff.mp added
  split at recorded
  · rename_i known
    exact absurd (signs key printed) (clean.keys key known)
  · cases recorded
    exact List.mem_append_right _ List.mem_cons_self

theorem foldlM_addOption_grows {calls : List Call} {parser after : CommandHelpParser}
    (added : calls.foldlM addOption parser = some after) : parser.options <+: after.options := by
  induction calls generalizing parser with
  | nil =>
      cases added
      exact List.prefix_rfl
  | cons call calls induction =>
      obtain ⟨middle, first, rest⟩ := Option.bind_eq_some_iff.mp added
      exact (addOption_grows first).trans (induction rest)

theorem Clean.foldlM_addOption {calls : List Call} (read : ∀ call ∈ calls, call.Read)
    {parser : CommandHelpParser} (clean : parser.Clean) :
    (∃ after, calls.foldlM CommandHelpParser.addOption parser = some after ∧
      ∀ option ∈ after.options, option.Counts) ↔ ∀ call ∈ calls, Plain call.name := by
  induction calls generalizing parser with
  | nil => exact iff_of_true ⟨parser, rfl, clean.counts⟩ nofun
  | cons call calls induction =>
      obtain ⟨readFirst, readOthers⟩ := List.forall_mem_cons.mp read
      rw [List.forall_mem_cons, List.foldlM_cons]
      by_cases plain : Plain call.name
      · obtain ⟨middle, added, cleanMiddle⟩ := clean.addOption readFirst plain
        rw [added]
        exact (induction readOthers cleanMiddle).trans (and_iff_right plain).symm
      · refine iff_of_false ?_ fun all => plain all.1
        rintro ⟨after, added, counts⟩
        obtain ⟨middle, first, rest⟩ := Option.bind_eq_some_iff.mp added
        obtain ⟨option, member, notCounts⟩ := clean.addOption_other readFirst plain first
        exact notCounts (counts option ((foldlM_addOption_grows rest).subset member))

/-- No help text raises, and all options that are recorded of it count their arguments right, as
far as every name that is read of it is plain. -/
theorem parseFile_counts_iff (usagePrefix : UsagePrefix) (stdout : List Text) :
    (∃ parser, parseFile usagePrefix stdout = some parser ∧
      ∀ option ∈ parser.options, option.Counts) ↔
    ∀ call ∈ fileCalls usagePrefix .parseLine stdout, Plain call.name :=
  Clean.foldlM_addOption (read_fileCalls usagePrefix .parseLine stdout) ⟨nofun, nofun⟩

theorem parseFile_raises :
    parseFile (literalPrefix ['p'])
      [['U', 's', 'a', 'g', 'e', ':', ' ', 'p', ' ', '[', '-', '%', 'd', ']']] = none := by
  have line : rstrip ['U', 's', 'a', 'g', 'e', ':', ' ', 'p', ' ', '[', '-', '%', 'd', ']'] =
      ['U', 's', 'a', 'g', 'e', ':', ' ', 'p', ' ', '[', '-', '%', 'd', ']'] := by decide
  have usage : parseLine (literalPrefix ['p'])
      ['U', 's', 'a', 'g', 'e', ':', ' ', 'p', ' ', '[', '-', '%', 'd', ']'] =
        parseUsage (literalPrefix ['p']) ['[', '-', '%', 'd', ']'] := by
    rw [parseLine]
    rfl
  have group : parseUsage (literalPrefix ['p']) ['[', '-', '%', 'd', ']'] =
      ([{ name := ['-', '%'], values := [] }, { name := ['-', 'd'], values := [] }],
        .parseUsage) := by
    rw [parseUsage]
    rfl
  rw [parseFile, fileCalls, line, usage, group]
  rfl

end CommandHelpParser

end Segvault.Fusil
