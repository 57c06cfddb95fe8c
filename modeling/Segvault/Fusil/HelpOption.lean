import Segvault.PercentSlots

namespace Segvault.Fusil

open PercentFormat

/-! Byte strings, as Python takes them apart. -/

def isWhite (symbol : Char) : Bool := symbol ∈ [' ', '\t', '\n', '\x0b', '\x0c', '\r']

/-- `text.split()` -/
def splitWords (text : Text) : List Text := (text.splitOnP isWhite).filter (· ≠ [])

/-- `text.count("%s")` -/
def countSlots : Text → Nat
  | [] => 0
  | [_] => 0
  | first :: second :: rest =>
      if first = '%' ∧ second = 's' then countSlots rest + 1 else countSlots (second :: rest)

def escape (quote symbol : Char) : Text :=
  if symbol = quote ∨ symbol = '\\' then ['\\', symbol]
  else if symbol = '\t' then ['\\', 't']
  else if symbol = '\n' then ['\\', 'n']
  else if symbol = '\r' then ['\\', 'r']
  else if symbol < ' ' ∨ '\x7f' ≤ symbol then
    ['\\', 'x', Nat.digitChar (symbol.toNat / 16), Nat.digitChar (symbol.toNat % 16)]
  else [symbol]

/-- `repr(text)` -/
def repr (text : Text) : Text :=
  let quote := if '\'' ∈ text ∧ '"' ∉ text then '"' else '\''
  quote :: text.flatMap (escape quote) ++ [quote]

/-- The conversions of a byte string, which is no width either. -/
def stringConversions : Conversions Text where
  convert directive text :=
    let cut (text : Text) := directive.precision.elim text text.take
    if directive.conversion = 's' then some (pad directive.flags directive.width (cut text))
    else if directive.conversion = 'r' then
      some (pad directive.flags directive.width (cut (repr text)))
    else if directive.conversion = 'c' ∧ text.length = 1 then
      some (pad directive.flags directive.width text)
    else none
  number _ := none

/-! `Option`: `fusil/cmd_help_parser.py`. -/

structure HelpOption where
  format : Text
  nbArgument : Nat
  deriving DecidableEq

namespace HelpOption

def formatParts : List Text → List Text → Nat → Option (List Text × Nat)
  | [], _, index => some ([], index)
  | part :: parts, arguments, index => do
      let count := countSlots part
      let arg ← PercentFormat.format stringConversions part ((arguments.drop index).take count)
      let (result, index) ← formatParts parts arguments (index + count)
      some (arg :: result, index)

def formatArguments (option : HelpOption) (arguments : List Text) : Option (List Text) := do
  let (result, index) ← formatParts (splitWords option.format) arguments 0
  if index ≠ arguments.length then none else some result

/-- `"ARG1"`, `"ARG2"`, ... -/
def placeholders (count : Nat) : List Text :=
  (List.range count).map fun index => ['A', 'R', 'G'] ++ Nat.toDigits 10 (index + 1)

/-- `__str__` -/
def str (option : HelpOption) : Option Text :=
  PercentFormat.format stringConversions option.format (placeholders option.nbArgument)

/-- The arguments are counted right, and that many can be formatted. -/
structure Counts (option : HelpOption) : Prop where
  slots : option.nbArgument = countSlots option.format
  formats : ∀ arguments : List Text, arguments.length = option.nbArgument →
    (option.formatArguments arguments).isSome
  prints : option.str.isSome

end HelpOption

/-! The words of a text. -/

theorem splitWords_append (before after : Text) {blank : Char} (white : isWhite blank = true) :
    splitWords (before ++ blank :: after) = splitWords before ++ splitWords after := by
  rw [splitWords, List.splitOnP_append_cons _ _ white, List.filter_append]
  rfl

theorem splitWords_ne_nil {text : Text} {symbol : Char} (member : symbol ∈ text)
    (notWhite : isWhite symbol = false) : splitWords text ≠ [] := by
  induction text with
  | nil => cases member
  | cons first text induction =>
      rw [splitWords, List.splitOnP_cons_eq_if_modifyHead]
      split
      · rename_i white
        obtain rfl | later := List.mem_cons.mp member
        · rw [notWhite] at white
          cases white
        · exact induction later
      · obtain ⟨piece, others, pieces⟩ :=
          List.exists_cons_of_ne_nil (List.splitOnP_ne_nil isWhite text)
        rw [pieces]
        exact List.cons_ne_nil _ _

theorem not_white_of_mem_splitOnP {text piece : Text} (member : piece ∈ text.splitOnP isWhite) :
    ∀ symbol ∈ piece, isWhite symbol = false := by
  induction text generalizing piece with
  | nil =>
      obtain rfl := List.mem_singleton.mp member
      exact fun symbol none_ => absurd none_ List.not_mem_nil
  | cons first text induction =>
      rw [List.splitOnP_cons_eq_if_modifyHead] at member
      split at member
      · obtain rfl | later := List.mem_cons.mp member
        · exact fun symbol none_ => absurd none_ List.not_mem_nil
        · exact induction later
      · rename_i notWhite
        obtain ⟨head, others, pieces⟩ :=
          List.exists_cons_of_ne_nil (List.splitOnP_ne_nil isWhite text)
        rw [pieces] at member induction
        obtain rfl | later := List.mem_cons.mp member
        · exact List.forall_mem_cons.mpr
            ⟨Bool.eq_false_iff.mpr notWhite, induction List.mem_cons_self⟩
        · exact induction (List.mem_cons_of_mem _ later)

theorem not_white_of_mem_splitWords {text word : Text} (member : word ∈ splitWords text) :
    ∀ symbol ∈ word, isWhite symbol = false :=
  not_white_of_mem_splitOnP (List.mem_of_mem_filter member)

theorem ne_nil_of_mem_splitWords {text word : Text} (member : word ∈ splitWords text) :
    word ≠ [] := of_decide_eq_true (List.mem_filter.mp member).2

/-! Slots and how they are counted. -/

theorem countSlots_cons {symbol : Char} (plain : symbol ≠ '%') (text : Text) :
    countSlots (symbol :: text) = countSlots text := by
  cases text with
  | nil => rfl
  | cons second rest =>
      rw [countSlots, if_neg fun both => plain both.1]

theorem countSlots_eq_zero_iff (text : Text) : countSlots text = 0 ↔ ¬ ['%', 's'] <:+: text := by
  induction text with
  | nil => exact iff_of_true rfl (by simp)
  | cons first rest induction =>
      cases rest with
      | nil =>
          refine iff_of_true rfl fun inside => ?_
          exact absurd inside.length_le (by simp)
      | cons second rest =>
          rw [countSlots, List.infix_cons_iff]
          split
          · rename_i both
            obtain ⟨rfl, rfl⟩ := both
            refine iff_of_false (Nat.succ_ne_zero _) (not_not_intro (.inl ⟨rest, rfl⟩))
          · rename_i differs
            rw [induction, not_or]
            refine (and_iff_right fun starts => differs ?_).symm
            obtain ⟨after, same⟩ := starts
            cases same
            exact ⟨rfl, rfl⟩

theorem countSlots_slots {admits : Char → Prop} {text : Text} {count : Nat}
    (slots : Slots 's' admits text count) : countSlots text = count := by
  induction slots with
  | nil => rfl
  | symbol plain _ _ induction => rw [countSlots_cons plain, induction]
  | slot _ induction => rw [countSlots, if_pos ⟨rfl, rfl⟩, induction]

theorem bare_string (text : Text) :
    stringConversions.convert { conversion := 's' } text = some text := by
  have unpadded : pad [] 0 text = text := by
    rw [pad, if_neg List.not_mem_nil, Nat.zero_sub]
    rfl
  simp only [stringConversions, if_true, Option.elim_none, unpadded]

theorem converts_s : Converts 's' := by decide

/-- A text with slots takes as many arguments. -/
theorem format_slots {admits : Char → Prop} {text : Text} {count : Nat}
    (slots : Slots 's' admits text count) {arguments : List Text}
    (enough : arguments.length = count) :
    ∃ filled, format stringConversions text arguments = some filled ∧
      ∀ symbol ∈ filled, symbol ≠ '%' ∧ admits symbol ∨
        ∃ argument ∈ arguments, symbol ∈ argument := by
  obtain ⟨filled, ran, own⟩ := run_slots converts_s bare_string slots (Nat.le_of_eq enough.symm) []
  refine ⟨filled, ?_, own⟩
  rw [format, ran, List.drop_of_length_le (Nat.le_of_eq enough)]
  rfl

/-! The words of a text with slots have its slots between them. -/

inductive Pieces (admits : Char → Prop) : List Text → Nat → Prop
  | nil : Pieces admits [] 0
  | cons {piece : Text} {pieces : List Text} {count others : Nat}
      (slots : Slots 's' admits piece count) (rest : Pieces admits pieces others) :
      Pieces admits (piece :: pieces) (count + others)

variable {admits : Char → Prop}

theorem Pieces.modifyHead {pieces : List Text} {count : Nat} (more : Nat) {change : Text → Text}
    (changed : ∀ piece count, Slots 's' admits piece count →
      Slots 's' admits (change piece) (count + more))
    (nonempty : pieces ≠ []) (all : Pieces admits pieces count) :
    Pieces admits (pieces.modifyHead change) (count + more) := by
  cases all with
  | nil => exact absurd rfl nonempty
  | cons slots rest =>
      rw [Nat.add_right_comm]
      exact .cons (changed _ _ slots) rest

theorem pieces_splitOnP {text : Text} {count : Nat} (slots : Slots 's' admits text count) :
    Pieces admits (text.splitOnP isWhite) count := by
  induction slots with
  | nil => exact .cons .nil .nil
  | @symbol symbol text count plain admitted slots induction =>
      rw [List.splitOnP_cons_eq_if_modifyHead]
      split
      · have whole := Pieces.cons Slots.nil induction
        rwa [Nat.zero_add] at whole
      · exact induction.modifyHead 0 (fun piece count slots => .symbol plain admitted slots)
          (List.splitOnP_ne_nil _ _)
  | @slot text count slots induction =>
      rw [List.splitOnP_cons_eq_if_modifyHead, if_neg (by decide), List.splitOnP_cons_eq_if_modifyHead, if_neg (by decide),
        List.modifyHead_modifyHead]
      exact induction.modifyHead 1 (fun piece count slots => .slot slots)
        (List.splitOnP_ne_nil _ _)

theorem Pieces.filter {pieces : List Text} {count : Nat} (all : Pieces admits pieces count) :
    Pieces admits (pieces.filter (· ≠ [])) count := by
  induction all with
  | nil => exact .nil
  | @cons piece pieces count others slots rest induction =>
      cases slots with
      | nil =>
          rw [Nat.zero_add]
          exact induction
      | symbol plain admitted slots => exact .cons (.symbol plain admitted slots) induction
      | slot slots => exact .cons (.slot slots) induction

theorem formatParts_pieces {pieces : List Text} {count : Nat} (all : Pieces admits pieces count)
    (arguments : List Text) (index : Nat) (enough : index + count ≤ arguments.length) :
    ∃ result, HelpOption.formatParts pieces arguments index = some (result, index + count) := by
  induction all generalizing index with
  | nil => exact ⟨[], rfl⟩
  | @cons piece pieces count others slots rest induction =>
      have taken : ((arguments.drop index).take count).length = count := by
        rw [List.length_take, List.length_drop]
        omega
      obtain ⟨filled, formatted, -⟩ := format_slots slots taken
      obtain ⟨result, formattedRest⟩ := induction (index + count) (by omega)
      refine ⟨filled :: result, ?_⟩
      simp only [HelpOption.formatParts, countSlots_slots slots, formatted, formattedRest, bind,
        Option.bind_some, Nat.add_assoc]

theorem length_placeholders (count : Nat) : (HelpOption.placeholders count).length = count := by
  rw [HelpOption.placeholders, List.length_map, List.length_range]

/-- An option whose only percent signs are those of its slots. -/
theorem counts_slots {option : HelpOption}
    (slots : Slots 's' admits option.format option.nbArgument) : option.Counts where
  slots := (countSlots_slots slots).symm
  formats arguments enough := by
    obtain ⟨result, formatted⟩ := formatParts_pieces (pieces_splitOnP slots).filter arguments 0
      (by omega)
    rw [HelpOption.formatArguments, splitWords, formatted]
    simp only [bind, Option.bind_some, Nat.zero_add, enough, ne_eq, not_true_eq_false, if_false,
      Option.isSome_some]
  prints := by
    obtain ⟨filled, formatted, -⟩ := format_slots slots (length_placeholders option.nbArgument)
    rw [HelpOption.str, formatted]
    rfl

/-! A name before the slots, apart from them by a blank. -/

/-- Every percent sign belongs to a literal one, and none is followed by `s`. -/
structure Plain (name : Text) : Prop where
  literal : (format stringConversions name []).isSome
  apart : countSlots name = 0

structure Spaced (option : HelpOption) (name rest : Text) : Prop where
  format : option.format = name ++ ' ' :: rest
  nonempty : name ≠ []
  word : ∀ symbol ∈ name, isWhite symbol = false
  slots : Slots 's' (· ∈ [' ', ',', '=', '"']) rest option.nbArgument

theorem Spaced.splitWords {option : HelpOption} {name rest : Text}
    (spaced : Spaced option name rest) : splitWords option.format = name :: splitWords rest := by
  rw [Fusil.splitWords, spaced.format,
    List.splitOnP_append_cons_of_forall_mem spaced.word ' ' (by decide), List.filter_cons,
    if_pos (by simpa using spaced.nonempty)]
  rfl

theorem Spaced.pieces {option : HelpOption} {name rest : Text}
    (spaced : Spaced option name rest) :
    Pieces (· ∈ [' ', ',', '=', '"']) (Fusil.splitWords rest) option.nbArgument :=
  (pieces_splitOnP spaced.slots).filter

theorem countSlots_append_blank (name rest : Text) :
    countSlots (name ++ ' ' :: rest) = countSlots name + countSlots rest := by
  induction name using countSlots.induct with
  | case1 => exact (countSlots_cons (by decide) rest).trans (Nat.zero_add _).symm
  | case2 symbol =>
      have notS : ¬ (symbol = '%' ∧ ' ' = 's') := fun both => absurd both.2 (by decide)
      have one : countSlots (symbol :: ' ' :: rest) = countSlots (' ' :: rest) := by
        rw [countSlots, if_neg notS]
      exact one.trans ((countSlots_cons (by decide) rest).trans (Nat.zero_add _).symm)
  | case3 first second name both induction =>
      have cons : countSlots (first :: second :: (name ++ ' ' :: rest)) =
          countSlots (name ++ ' ' :: rest) + 1 := by rw [countSlots, if_pos both]
      rw [countSlots, if_pos both, Nat.add_right_comm, ← induction]
      exact cons
  | case4 first second name differs induction =>
      have cons : countSlots (first :: second :: (name ++ ' ' :: rest)) =
          countSlots (second :: (name ++ ' ' :: rest)) := by rw [countSlots, if_neg differs]
      rw [countSlots, if_neg differs, ← induction]
      exact cons

/-- The first word is formatted with as many arguments as it seems to have slots, and with none
of its own only if it is plain. -/
theorem Spaced.plain_of_counts {option : HelpOption} {name rest : Text}
    (spaced : Spaced option name rest) (counts : option.Counts) : Plain name := by
  have slots := counts.slots
  rw [spaced.format, countSlots_append_blank, countSlots_slots spaced.slots] at slots
  have apart : countSlots name = 0 := by omega
  refine ⟨?_, apart⟩
  have formats := counts.formats (List.replicate option.nbArgument []) List.length_replicate
  rw [HelpOption.formatArguments, spaced.splitWords] at formats
  obtain ⟨result, formatted⟩ := Option.isSome_iff_exists.mp formats
  obtain ⟨parts, all, -⟩ := Option.bind_eq_some_iff.mp formatted
  simp only [HelpOption.formatParts, apart, List.drop_zero, List.take_zero] at all
  obtain ⟨rendered, literal, -⟩ := Option.bind_eq_some_iff.mp all
  exact Option.isSome_iff_exists.mpr ⟨rendered, literal⟩

/-! What an option prints tells whether its name is plain. -/

theorem not_s_placeholders {count : Nat} {argument : Text}
    (member : argument ∈ HelpOption.placeholders count) : 's' ∉ argument := by
  obtain ⟨index, -, rfl⟩ := List.mem_map.mp member
  intro inside
  obtain letters | digits := List.mem_append.mp inside
  · exact absurd letters (by decide)
  · have digit := Nat.isDigit_of_mem_toDigits (by decide) (by decide) digits
    exact absurd digit (by decide)

theorem Spaced.slotsBlank {option : HelpOption} {name rest : Text}
    (spaced : Spaced option name rest) :
    Slots 's' (· ∈ [' ', ',', '=', '"']) (' ' :: rest) option.nbArgument :=
  .symbol (by decide) (by decide) spaced.slots

theorem Spaced.notBlank {option : HelpOption} {name rest : Text}
    (spaced : Spaced option name rest) : ' ' ∉ name := fun member =>
  absurd (spaced.word ' ' member) (by decide)

theorem Spaced.str_plain {option : HelpOption} {name rest : Text}
    (spaced : Spaced option name rest) (plain : Plain name) :
    ∃ key, option.str = some key ∧ ¬ ['%', 's'] <:+: solid key := by
  obtain ⟨rendered, literal⟩ := Option.isSome_iff_exists.mp plain.literal
  obtain ⟨filled, ran, own⟩ := run_slots converts_s bare_string spaced.slotsBlank
    (Nat.le_of_eq (length_placeholders option.nbArgument).symm) rendered
  have all : run stringConversions { arguments := HelpOption.placeholders option.nbArgument }
      option.format = some { output := rendered ++ filled } := by
    rw [spaced.format, run_append, run_literal literal]
    refine ran.trans ?_
    rw [List.drop_of_length_le (Nat.le_of_eq (length_placeholders option.nbArgument))]
  refine ⟨rendered ++ filled, ?_, fun inside => ?_⟩
  · rw [HelpOption.str, PercentFormat.format, all]
    rfl
  · rw [solid_append] at inside
    have absent : 's' ∉ solid filled := by
      intro member
      obtain ⟨-, separator⟩ | ⟨argument, known, symbol⟩ := own 's' (List.mem_of_mem_filter member)
      · exact absurd separator (by decide)
      · exact not_s_placeholders known symbol
    have inName := (literal_infix_iff converts_s spaced.notBlank literal).mp
      (pair_infix_left absent inside)
    exact (countSlots_eq_zero_iff name).mp plain.apart inName

theorem Spaced.counts {option : HelpOption} {name rest : Text}
    (spaced : Spaced option name rest) (plain : Plain name) : option.Counts where
  slots := by
    rw [spaced.format, countSlots_append_blank, countSlots_slots spaced.slots, plain.apart,
      Nat.zero_add]
  formats arguments enough := by
    obtain ⟨rendered, literal⟩ := Option.isSome_iff_exists.mp plain.literal
    obtain ⟨result, formatted⟩ := formatParts_pieces spaced.pieces arguments 0 (by omega)
    rw [HelpOption.formatArguments, spaced.splitWords]
    simp only [HelpOption.formatParts, plain.apart, List.drop_zero, List.take_zero, literal,
      formatted, bind, Option.bind_some, Nat.zero_add, enough, ne_eq, not_true_eq_false, if_false,
      Option.isSome_some]
  prints := by
    obtain ⟨key, printed, -⟩ := spaced.str_plain plain
    rw [printed]
    rfl

theorem convert_other {directive : Directive} {symbol : Char}
    (other : symbol ∈ [' ', ',', '=', '"']) (same : directive.conversion = symbol) (text : Text) :
    stringConversions.convert directive text = none := by
  have letters : symbol ≠ 's' ∧ symbol ≠ 'r' ∧ symbol ≠ 'c' := by
    simp only [List.mem_cons, List.not_mem_nil, or_false] at other
    obtain rfl | rfl | rfl | rfl := other <;> decide
  rw [← same] at letters
  simp only [stringConversions, letters, false_and, if_false]

/-- A directive that a name leaves open can only end in the first slot, as a literal percent sign
that `s` follows. -/
theorem run_open {pending : Pending} {output : Text} {arguments : List Text} {rest : Text}
    {count : Nat} (slots : Slots 's' (· ∈ [' ', ',', '=', '"']) rest count) {after : State Text}
    (ran : run stringConversions { output, arguments, pending := some pending } rest = some after)
    (closed : after.pending = none) : ['%', 's'] <:+: solid after.output := by
  induction slots generalizing pending arguments with
  | nil =>
      cases ran
      cases closed
  | @symbol symbol text count plain admitted slots induction =>
      obtain ⟨middle, first, later⟩ := Option.bind_eq_some_iff.mp ran
      have ends := move_ends pending symbol
      change perform stringConversions _ (move pending symbol) = some middle at first
      cases kind : move pending symbol with
      | read next =>
          rw [kind] at first
          cases first
          exact induction later
      | percent text =>
          rw [kind] at ends
          exact absurd ends.1 plain
      | number next =>
          rw [kind] at first
          cases arguments <;> cases first
      | convert directive =>
          rw [kind] at first ends
          cases arguments with
          | nil => cases first
          | cons argument arguments =>
              simp only [perform, convert_other admitted ends.2] at first
              cases first
      | raise =>
          rw [kind] at first
          cases first
  | @slot text count slots induction =>
      have sign : step stringConversions { output, arguments, pending := some pending } '%' =
          some { output := output ++ pad pending.flags pending.width ['%'], arguments } := by
        simp only [step, move_percent, perform]
      rw [run, List.foldlM_cons, sign] at ran
      obtain ⟨before, same⟩ := (run_advances (show run stringConversions
        { output := output ++ pad pending.flags pending.width ['%'] ++ ['s'], arguments } text =
          some after from ran)).output
      refine ⟨solid output, solid before, ?_⟩
      rw [← same, solid_append, solid_append, solid_append, solid_pad, List.append_assoc,
        List.append_assoc, List.append_assoc]
      rfl

/-- An option that prints, but whose name is not plain, prints a percent sign before `s`. -/
theorem Spaced.str_other {option : HelpOption} {name rest : Text}
    (spaced : Spaced option name rest) (other : ¬ Plain name) {key : Text}
    (printed : option.str = some key) : ['%', 's'] <:+: solid key := by
  obtain ⟨after, all, whole⟩ := Option.bind_eq_some_iff.mp printed
  split at whole
  · rename_i done
    cases whole
    rw [spaced.format, run_append] at all
    obtain ⟨middle, ran, later⟩ := Option.bind_eq_some_iff.mp all
    have advances := run_advances ran
    obtain ⟨output, arguments, _ | pending⟩ := middle
    · by_cases fewer : arguments.length < option.nbArgument
      · rw [run_slots_short converts_s spaced.slotsBlank fewer] at later
        cases later
      · have same : arguments.length = (HelpOption.placeholders option.nbArgument).length := by
          have := advances.fewer
          rw [length_placeholders] at this ⊢
          exact Nat.le_antisymm this (Nat.le_of_not_lt fewer)
        have literal : PercentFormat.format stringConversions name [] = some output :=
          format_nil_iff.mpr (advances.without same)
        have inName : ['%', 's'] <:+: name := by
          by_contra absent
          exact other ⟨Option.isSome_iff_exists.mpr ⟨output, literal⟩,
            (countSlots_eq_zero_iff name).mpr absent⟩
        obtain ⟨more, same⟩ := (run_advances later).output
        rw [← same, solid_append]
        exact ((literal_infix_iff converts_s spaced.notBlank literal).mpr inName).trans
          (List.infix_append' [] _ _)
    · exact run_open spaced.slotsBlank later (Option.isNone_iff_eq_none.mp done.1)
  · cases whole

end Segvault.Fusil
