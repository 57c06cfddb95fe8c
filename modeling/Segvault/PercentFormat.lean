import Mathlib.Algebra.Ring.Nat
import Mathlib.Data.List.Basic

namespace Segvault

/-! Python's `%` on byte strings, whose bytes are characters here. The arguments are no mapping.
A formatting that raises gives `none`. -/

namespace PercentFormat

abbrev Text := List Char

/-- The conversion of one argument. -/
structure Directive where
  flags : Text := []
  width : Nat := 0
  precision : Option Nat := none
  conversion : Char
  deriving DecidableEq

/-- How arguments are converted, and what an argument is as a width or a precision. -/
structure Conversions (α : Type) where
  convert : Directive → α → Option Text
  number : α → Option Int

/-- Which part of a directive comes next. -/
inductive Phase
  | flags
  | digits
  | point
  | precision
  | digitsAfterPoint
  | length
  | conversion
  deriving DecidableEq

/-- A directive of which a part has been read. -/
structure Pending where
  phase : Phase := .flags
  flags : Text := []
  width : Nat := 0
  precision : Option Nat := none
  deriving DecidableEq

structure State (α : Type) where
  output : Text := []
  arguments : List α := []
  pending : Option Pending := none

/-- The largest width and precision of a 64-bit interpreter. -/
def widthLimit : Nat := 2 ^ 63 - 1

def precisionLimit : Nat := 2 ^ 31 - 1

def digit (symbol : Char) : Nat := symbol.toNat - '0'.toNat

/-- A text filled up to a width with blanks. -/
def pad (flags : Text) (width : Nat) (text : Text) : Text :=
  let blanks := List.replicate (width - text.length) ' '
  if '-' ∈ flags then text ++ blanks else blanks ++ text

/-! What a symbol of a directive does. -/

inductive Move
  | read (pending : Pending)
  | number (next : Int → Pending)
  | percent (text : Text)
  | convert (directive : Directive)
  | raise

/-- A key in parentheses would ask for a mapping. -/
def endMove (pending : Pending) (symbol : Char) : Move :=
  if symbol = '%' then .percent (pad pending.flags pending.width ['%'])
  else if symbol = '(' then .raise
  else
    .convert
      { flags := pending.flags, width := pending.width, precision := pending.precision
        conversion := symbol }

def afterPrecision (pending : Pending) (symbol : Char) : Move :=
  if symbol ∈ ['h', 'l', 'L'] then .read { pending with phase := .conversion }
  else endMove pending symbol

def afterWidth (pending : Pending) (symbol : Char) : Move :=
  if symbol = '.' then .read { pending with phase := .precision, precision := some 0 }
  else afterPrecision pending symbol

def move (pending : Pending) (symbol : Char) : Move :=
  match pending.phase with
  | .flags =>
      if symbol ∈ ['-', '+', ' ', '#', '0'] then
        .read { pending with flags := pending.flags ++ [symbol] }
      else if symbol = '*' then
        .number fun number =>
          { pending with
            phase := .point
            flags := if number < 0 then pending.flags ++ ['-'] else pending.flags
            width := number.natAbs }
      else if symbol.isDigit then .read { pending with phase := .digits, width := digit symbol }
      else afterWidth pending symbol
  | .digits =>
      if symbol.isDigit then
        let width := pending.width * 10 + digit symbol
        if widthLimit < width then .raise else .read { pending with width }
      else afterWidth pending symbol
  | .point => afterWidth pending symbol
  | .precision =>
      if symbol = '*' then
        .number fun number => { pending with phase := .length, precision := some number.toNat }
      else if symbol.isDigit then
        .read { pending with phase := .digitsAfterPoint, precision := some (digit symbol) }
      else afterPrecision pending symbol
  | .digitsAfterPoint =>
      if symbol.isDigit then
        let precision := pending.precision.getD 0 * 10 + digit symbol
        if precisionLimit < precision then .raise
        else .read { pending with precision := some precision }
      else afterPrecision pending symbol
  | .length => afterPrecision pending symbol
  | .conversion => endMove pending symbol

section

variable {α : Type} (conversions : Conversions α)

def perform (state : State α) : Move → Option (State α)
  | .read pending => some { state with pending := some pending }
  | .number next =>
      match state.arguments with
      | [] => none
      | argument :: arguments =>
          (conversions.number argument).map fun number =>
            { state with arguments, pending := some (next number) }
  | .percent text => some { state with output := state.output ++ text, pending := none }
  | .convert directive =>
      match state.arguments with
      | [] => none
      | argument :: arguments =>
          (conversions.convert directive argument).map fun text =>
            { output := state.output ++ text, arguments, pending := none }
  | .raise => none

def step (state : State α) (symbol : Char) : Option (State α) :=
  match state.pending with
  | none =>
      if symbol = '%' then some { state with pending := some {} }
      else some { state with output := state.output ++ [symbol] }
  | some pending => perform conversions state (move pending symbol)

def run (state : State α) (format : Text) : Option (State α) :=
  format.foldlM (step conversions) state

/-- `format % arguments`: a directive may not be left open, nor an argument left over. -/
def format (format : Text) (arguments : List α) : Option Text :=
  (run conversions { arguments } format).bind fun state =>
    if state.pending.isNone ∧ state.arguments = [] then some state.output else none

/-! The moves, by symbol. -/

theorem mem_pad {flags text : Text} {width : Nat} {symbol : Char}
    (member : symbol ∈ pad flags width text) : symbol ∈ text ∨ symbol = ' ' := by
  rw [pad] at member
  split at member
  · exact (List.mem_append.mp member).imp_right List.eq_of_mem_replicate
  · exact (List.mem_append.mp member).symm.imp_right List.eq_of_mem_replicate

/-- A move that puts something out ends a directive. -/
def Move.Ends (pending : Pending) (symbol : Char) : Move → Prop
  | .percent text => symbol = '%' ∧ text = pad pending.flags pending.width ['%']
  | .convert directive => symbol ≠ '%' ∧ directive.conversion = symbol
  | _ => True

theorem endMove_ends (pending : Pending) (symbol : Char) :
    (endMove pending symbol).Ends pending symbol := by
  rw [endMove]
  split
  · rename_i percent
    exact ⟨percent, rfl⟩
  · rename_i other
    split
    · trivial
    · exact ⟨other, rfl⟩

theorem afterPrecision_ends (pending : Pending) (symbol : Char) :
    (afterPrecision pending symbol).Ends pending symbol := by
  rw [afterPrecision]
  split
  · trivial
  · exact endMove_ends pending symbol

theorem afterWidth_ends (pending : Pending) (symbol : Char) :
    (afterWidth pending symbol).Ends pending symbol := by
  rw [afterWidth]
  split
  · trivial
  · exact afterPrecision_ends pending symbol

theorem move_ends (pending : Pending) (symbol : Char) :
    (move pending symbol).Ends pending symbol := by
  cases phase : pending.phase with
  | flags =>
      simp only [move, phase]
      split
      · trivial
      · split
        · trivial
        · split
          · trivial
          · exact afterWidth_ends pending symbol
  | digits =>
      simp only [move, phase]
      split
      · split <;> trivial
      · exact afterWidth_ends pending symbol
  | point =>
      simp only [move, phase]
      exact afterWidth_ends pending symbol
  | precision =>
      simp only [move, phase]
      split
      · trivial
      · split
        · trivial
        · exact afterPrecision_ends pending symbol
  | digitsAfterPoint =>
      simp only [move, phase]
      split
      · split <;> trivial
      · exact afterPrecision_ends pending symbol
  | length =>
      simp only [move, phase]
      exact afterPrecision_ends pending symbol
  | conversion =>
      simp only [move, phase]
      exact endMove_ends pending symbol

/-! What a format does without arguments it does within any output and before any arguments,
and what it puts out is admitted, if its own symbols are, percent signs and blanks. -/

def State.within (before : Text) (arguments : List α) (state : State α) : State α :=
  { output := before ++ state.output, arguments, pending := state.pending }

/-- Percent signs and blanks. -/
def AdmitsLiterals (admits : Char → Prop) : Prop := admits '%' ∧ admits ' '

structure Reached (admits : Char → Prop) (action : State α → Option (State α))
    (state after : State α) : Prop where
  arguments : after.arguments = []
  within : ∀ before arguments,
    action (state.within before arguments) = some (after.within before arguments)
  admitted : (∀ symbol ∈ state.output, admits symbol) → ∀ symbol ∈ after.output, admits symbol

variable {conversions} {admits : Char → Prop}

theorem reached_output {action : State α → Option (State α)} {state : State α} {text : Text}
    {pending : Option Pending} (left : state.arguments = [])
    (puts : ∀ before arguments, action (state.within before arguments) =
      some { output := (before ++ state.output) ++ text, arguments, pending })
    (admitted : ∀ symbol ∈ text, admits symbol) :
    Reached admits action state { state with output := state.output ++ text, pending } where
  arguments := left
  within before arguments := by
    rw [puts, State.within, List.append_assoc]
  admitted earlier symbol member :=
    (List.mem_append.mp member).elim (earlier symbol) (admitted symbol)

theorem reached_step (literals : AdmitsLiterals admits) {symbol : Char} (own : admits symbol)
    {state after : State α} (left : state.arguments = [])
    (result : step conversions state symbol = some after) :
    Reached admits (fun state => step conversions state symbol) state after := by
  obtain ⟨output, arguments, _ | pending⟩ := state
  all_goals obtain rfl : arguments = [] := left
  · by_cases percent : symbol = '%'
    · cases (if_pos percent).symm.trans result
      exact ⟨rfl, fun _ _ => if_pos percent, id⟩
    · cases (if_neg percent).symm.trans result
      refine reached_output rfl (fun _ _ => if_neg percent) fun other member => ?_
      exact List.mem_singleton.mp member ▸ own
  · have ends := move_ends pending symbol
    change perform conversions _ (move pending symbol) = some after at result
    have again (before : Text) (arguments : List α) :
        step conversions (State.within before arguments ⟨output, arguments, some pending⟩) symbol =
          perform conversions ⟨before ++ output, arguments, some pending⟩
            (move pending symbol) := rfl
    cases kind : move pending symbol with
    | read next =>
        rw [kind] at result
        cases result
        refine ⟨rfl, fun before arguments => ?_, id⟩
        exact (again before arguments).trans (by rw [kind]; rfl)
    | number next =>
        rw [kind] at result
        cases result
    | percent text =>
        rw [kind] at result ends
        cases result
        refine reached_output rfl (fun before arguments => ?_) fun other member => ?_
        · exact (again before arguments).trans (by rw [kind]; rfl)
        · rw [ends.2] at member
          obtain sign | rfl := mem_pad member
          · exact List.mem_singleton.mp sign ▸ literals.1
          · exact literals.2
    | convert directive =>
        rw [kind] at result
        cases result
    | raise =>
        rw [kind] at result
        cases result

theorem reached_run (literals : AdmitsLiterals admits) {text : Text}
    (own : ∀ symbol ∈ text, admits symbol) {state after : State α} (left : state.arguments = [])
    (result : run conversions state text = some after) :
    Reached admits (fun state => run conversions state text) state after := by
  induction text generalizing state with
  | nil =>
      cases result
      exact ⟨left, fun _ _ => rfl, id⟩
  | cons symbol text induction =>
      obtain ⟨ownHead, ownTail⟩ := List.forall_mem_cons.mp own
      obtain ⟨middle, first, rest⟩ := Option.bind_eq_some_iff.mp result
      have one := reached_step literals ownHead left first
      have others := induction ownTail one.arguments rest
      refine ⟨others.arguments, fun before arguments => ?_,
        fun earlier => others.admitted (one.admitted earlier)⟩
      exact Option.bind_eq_some_iff.mpr
        ⟨_, one.within before arguments, others.within before arguments⟩

/-! Formats in parts. -/

theorem run_append (state : State α) (first second : Text) :
    run conversions state (first ++ second) =
      (run conversions state first).bind fun middle => run conversions middle second :=
  List.foldlM_append

theorem format_nil_iff {text output : Text} :
    format conversions text [] = some output ↔ run conversions {} text = some { output } := by
  constructor
  · intro result
    obtain ⟨⟨_, arguments, pending⟩, ran, whole⟩ := Option.bind_eq_some_iff.mp result
    split at whole
    · rename_i done
      obtain ⟨closed, rfl⟩ := done
      cases Option.isNone_iff_eq_none.mp closed
      cases whole
      exact ran
    · cases whole
  · intro ran
    rw [format, ran]
    rfl

/-- A text that is a format without arguments takes none. -/
theorem run_literal {text rendered : Text} (literal : format conversions text [] = some rendered)
    (output : Text) (arguments : List α) :
    run conversions { output, arguments } text =
      some { output := output ++ rendered, arguments } := by
  have reached := @reached_run _ conversions (fun _ => True) ⟨trivial, trivial⟩ text
    (fun _ _ => trivial) _ _ rfl (format_nil_iff.mp literal)
  simpa only [State.within, List.append_nil] using reached.within output arguments

/-- Nothing but its own symbols, percent signs and blanks comes out of such a text. -/
theorem mem_literal {text rendered : Text} (literal : format conversions text [] = some rendered)
    {symbol : Char} (member : symbol ∈ rendered) :
    symbol ∈ text ∨ symbol = '%' ∨ symbol = ' ' := by
  have reached := @reached_run _ conversions
    (fun symbol => symbol ∈ text ∨ symbol = '%' ∨ symbol = ' ') ⟨.inr (.inl rfl), .inr (.inr rfl)⟩
    text (fun _ => .inl) _ _ rfl (format_nil_iff.mp literal)
  exact reached.admitted (fun _ none_ => absurd none_ List.not_mem_nil) symbol member

/-- A text without a percent sign stands for itself. -/
theorem format_plain {text : Text} (plain : '%' ∉ text) :
    format conversions text [] = some text := by
  suffices all : ∀ output, run conversions { output } text = some { output := output ++ text } from
    format_nil_iff.mpr (all [])
  induction text with
  | nil =>
      intro output
      rw [List.append_nil]
      rfl
  | cons symbol text induction =>
      intro output
      obtain ⟨differs, plain⟩ := List.ne_and_not_mem_of_not_mem_cons plain
      have one : step conversions { output } symbol = some { output := output ++ [symbol] } :=
        if_neg (Ne.symm differs)
      rw [run, List.foldlM_cons, one]
      exact (induction plain _).trans (by rw [List.append_assoc]; rfl)

/-- A letter that ends a directive and takes an argument. -/
def Converts (letter : Char) : Prop :=
  letter ∉ ['%', '(', '-', '+', ' ', '#', '0', '*', '.', 'h', 'l', 'L'] ∧ letter.isDigit = false

instance : DecidablePred Converts := fun letter =>
  inferInstanceAs (Decidable (letter ∉ _ ∧ letter.isDigit = false))

theorem move_letter {letter : Char} (converts : Converts letter) (pending : Pending) :
    move pending letter =
      .convert
        { flags := pending.flags, width := pending.width, precision := pending.precision
          conversion := letter } := by
  obtain ⟨other, notDigit⟩ := converts
  simp only [List.mem_cons, List.not_mem_nil, or_false, not_or] at other
  obtain ⟨percent, key, minus, plus, blank, sharp, zero, star, point, h, l, long⟩ := other
  cases phase : pending.phase <;>
    simp [move, phase, afterWidth, afterPrecision, endMove, percent, key, minus, plus, blank,
      sharp, zero, star, point, h, l, long, notDigit]

/-- The conversion of an argument with nothing between the percent sign and its letter. -/
theorem run_directive {letter : Char} (converts : Converts letter) (output : Text) (argument : α)
    (arguments : List α) :
    run conversions { output, arguments := argument :: arguments } ['%', letter] =
      (conversions.convert { conversion := letter } argument).map fun text =>
        { output := output ++ text, arguments } := by
  have opened : step conversions { output, arguments := argument :: arguments } '%' =
      some { output, arguments := argument :: arguments, pending := some {} } := rfl
  rw [run, List.foldlM_cons, opened]
  change (step conversions _ letter).bind some = _
  simp only [step, move_letter converts, perform]
  exact Option.bind_fun_some _

end

end PercentFormat

end Segvault
