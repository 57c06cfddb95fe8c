import Mathlib.Data.Int.Bitwise

/-! # Expressions of Python 2

The expressions that can be written with numbers, parentheses and the signs `+ - * / & < >`:
their tokens, their syntax trees, and the values they are evaluated to. Two slashes are the floor
division, one slash is no token here. The memory and the nesting of parentheses are not bounded. -/

namespace Segvault.PythonExpression

variable {α β F : Type}

abbrev Text := List Char

inductive Operator
  | amper | lshift | rshift | plus | minus | times | floordiv
deriving DecidableEq, Repr

/-- How tightly an operator binds: comparisons have level 0, signs and powers level 5. -/
def Operator.level : Operator → Nat
  | .amper => 1
  | .lshift | .rshift => 2
  | .plus | .minus => 3
  | .times | .floordiv => 4

inductive Comparison
  | less | greater | different
deriving DecidableEq, Repr

inductive Token (α : Type)
  | word (content : α)
  | operator (op : Operator)
  | compare (op : Comparison)
  | power
  | opening
  | closing
deriving DecidableEq, Repr

/-- The trees of the syntax. `both` is what a chain of comparisons stands for: `a < b < c` is
`a < b and b < c`. -/
inductive Tree (α : Type)
  | word (content : α)
  | tuple
  | signed (negative : Bool) (operand : Tree α)
  | binary (op : Operator) (left right : Tree α)
  | power (base exponent : Tree α)
  | compare (op : Comparison) (left right : Tree α)
  | both (first second : Tree α)
  | call (callee : Tree α)
  | callWith (callee argument : Tree α)
deriving DecidableEq, Repr

/-! ## Words and tokens -/

def isWord (c : Char) : Bool := c.isDigit || c.isLower || c == '_'

/-- The token at a sign, by the sign after it, and how many signs more the token takes. -/
def sign (c : Char) (next : Option Char) : Option (Token α × Nat) :=
  if c = '(' then some (.opening, 0)
  else if c = ')' then some (.closing, 0)
  else if c = '+' then some (.operator .plus, 0)
  else if c = '-' then some (.operator .minus, 0)
  else if c = '&' then some (.operator .amper, 0)
  else if c = '*' then
    if next = some '*' then some (.power, 1) else some (.operator .times, 0)
  else if c = '/' then
    if next = some '/' then some (.operator .floordiv, 1) else none
  else if c = '<' then
    if next = some '<' then some (.operator .lshift, 1)
    else if next = some '>' then some (.compare .different, 1)
    else some (.compare .less, 0)
  else if c = '>' then
    if next = some '>' then some (.operator .rshift, 1) else some (.compare .greater, 0)
  else none

/-- The tokens of a text, of which the first signs are skipped. -/
def tokenize (read : Text → Option α) : Nat → Text → Option (List (Token α))
  | _, [] => some []
  | skip + 1, _ :: rest => tokenize read skip rest
  | 0, c :: rest =>
      if isWord c then do
        let content ← read (c :: rest.takeWhile isWord)
        let tokens ← tokenize read (rest.takeWhile isWord).length rest
        return .word content :: tokens
      else do
        let (token, more) ← sign c rest.head?
        let tokens ← tokenize read more rest
        return token :: tokens

/-! ## The parser

An operator-precedence parser. A frame of its stack is a construct whose last operand is still
to be read. -/

inductive Frame (α : Type)
  | sign (negative : Bool)
  | left (op : Operator) (operand : Tree α)
  | base (operand : Tree α)
  | comparing (op : Comparison) (operand : Tree α)
  | chained (before : Tree α) (op : Comparison) (operand : Tree α)
  | opening
  | argument (callee : Tree α) (starred : Bool)

/-- Parentheses have no level: only their closing ends them. -/
def Frame.level : Frame α → Option Nat
  | .sign _ | .base _ => some 5
  | .left op _ => some op.level
  | .comparing .. | .chained .. => some 0
  | .opening | .argument .. => none

def Frame.complete : Frame α → Tree α → Tree α
  | .sign negative, last => .signed negative last
  | .left op first, last => .binary op first last
  | .base first, last => .power first last
  | .comparing op first, last => .compare op first last
  | .chained before op first, last => .both before (.compare op first last)
  | .opening, last | .argument .., last => last

/-- Completes the constructs that bind at least as tightly as a level. -/
def settle (level : Nat) : List (Frame α) → Tree α → List (Frame α) × Tree α
  | [], operand => ([], operand)
  | frame :: stack, operand =>
      match frame.level with
      | some own =>
          if level ≤ own then settle level stack (frame.complete operand)
          else (frame :: stack, operand)
      | none => (frame :: stack, operand)

/-- The stack after a comparison sign that follows an operand. -/
def compareWith (op : Comparison) (settled : List (Frame α) × Tree α) : List (Frame α) :=
  match settled.1 with
  | .comparing earlier left :: outer =>
      .chained (.compare earlier left settled.2) op settled.2 :: outer
  | .chained before earlier left :: outer =>
      .chained (.both before (.compare earlier left settled.2)) op settled.2 :: outer
  | stack => .comparing op settled.2 :: stack

/-- Reads tokens from a stack, where either an operand has just been read or one is needed. An
opening parenthesis after an operand begins the argument of a call. -/
def parse : Option (Tree α) → List (Frame α) → List (Token α) → Option (Tree α)
  | none, _, [] => none
  | some operand, stack, [] =>
      match settle 0 stack operand with
      | ([], tree) => some tree
      | _ => none
  | none, stack, token :: rest =>
      match token, stack with
      | .word content, _ => parse (some (.word content)) stack rest
      | .operator .plus, _ => parse none (.sign false :: stack) rest
      | .operator .minus, _ => parse none (.sign true :: stack) rest
      | .opening, _ => parse none (.opening :: stack) rest
      | .closing, .opening :: outer => parse (some .tuple) outer rest
      | .closing, .argument callee false :: outer => parse (some (.call callee)) outer rest
      | .operator .times, .argument callee false :: outer =>
          parse none (.argument callee true :: outer) rest
      | .power, .argument callee false :: outer =>
          parse none (.argument callee true :: outer) rest
      | _, _ => none
  | some operand, stack, token :: rest =>
      match token with
      | .word _ => none
      | .operator op =>
          parse none (.left op (settle op.level stack operand).2 ::
            (settle op.level stack operand).1) rest
      | .power => parse none (.base operand :: stack) rest
      | .compare op => parse none (compareWith op (settle 1 stack operand)) rest
      | .opening => parse none (.argument operand false :: stack) rest
      | .closing =>
          match settle 0 stack operand with
          | (.opening :: outer, inner) => parse (some inner) outer rest
          | (.argument callee _ :: outer, inner) =>
              parse (some (.callWith callee inner)) outer rest
          | _ => none

/-- The tree of a text, if it is an expression. -/
def compile (read : Text → Option α) (text : Text) : Option (Tree α) :=
  (tokenize read 0 text).bind (parse none [])

/-! ## Values -/

inductive Exception
  | valueError | typeError | zeroDivisionError | overflowError
deriving DecidableEq, Repr

inductive Value (F : Type)
  | int (value : Int)
  | bool (value : Bool)
  | float (value : F)
  | tuple
deriving DecidableEq, Repr

/-- The machine: the greatest size of an object, and the floating-point numbers. An integer may be
too large for one, and the division may be one by zero. -/
structure Machine (F : Type) where
  maxsize : Nat
  ofInt : Int → Option F
  negate : F → F
  arithmetic : Operator → F → F → Option F
  power : F → F → Except Exception F
  compare : Comparison → Int ⊕ F → Int ⊕ F → Bool

variable (machine : Machine F)

def Value.int? : Value F → Option Int
  | .int value => some value
  | .bool value => some value.toNat
  | _ => none

def Value.number? : Value F → Option (Int ⊕ F)
  | .int value => some (.inl value)
  | .bool value => some (.inl value.toNat)
  | .float value => some (.inr value)
  | .tuple => none

def Machine.toFloat : Int ⊕ F → Except Exception F
  | .inl value => (machine.ofInt value).elim (.error .overflowError) .ok
  | .inr value => .ok value

/-- A size is refused if it does not fit the machine, and then if it is negative. -/
def shiftCount (count : Int) : Except Exception Nat :=
  if (machine.maxsize : Int) < count ∨ count < -(machine.maxsize : Int) - 1 then
    .error .overflowError
  else if count < 0 then .error .valueError
  else .ok count.toNat

def Operator.onInts (left right : Int) : Operator → Except Exception Int
  | .amper => .ok (Int.land left right)
  | .lshift => (shiftCount machine right).map fun count => left * 2 ^ count
  | .rshift => (shiftCount machine right).map fun count => left.fdiv (2 ^ count)
  | .plus => .ok (left + right)
  | .minus => .ok (left - right)
  | .times => .ok (left * right)
  | .floordiv => if right = 0 then .error .zeroDivisionError else .ok (left.fdiv right)

/-- The empty tuple times a number. -/
def repeatTuple (times : Value F) : Except Exception (Value F) :=
  match times.int? with
  | some count =>
      if (machine.maxsize : Int) < count ∨ count < -(machine.maxsize : Int) - 1 then
        .error .overflowError
      else .ok .tuple
  | none => .error .typeError

def Operator.apply (op : Operator) (left right : Value F) : Except Exception (Value F) :=
  match op, left, right with
  | .amper, .bool first, .bool second => .ok (.bool (first && second))
  | .plus, .tuple, .tuple => .ok .tuple
  | .times, .tuple, count => repeatTuple machine count
  | .times, count, .tuple => repeatTuple machine count
  | op, left, right =>
      match left.int?, right.int? with
      | some first, some second => (op.onInts machine first second).map .int
      | _, _ =>
          match op, left.number?, right.number? with
          | .amper, _, _ | .lshift, _, _ | .rshift, _, _ => .error .typeError
          | op, some first, some second => do
              let first ← machine.toFloat first
              let second ← machine.toFloat second
              (machine.arithmetic op first second).elim (.error .zeroDivisionError)
                fun value => .ok (.float value)
          | _, _, _ => .error .typeError

def powerOfFloats (base exponent : Int ⊕ F) : Except Exception (Value F) := do
  let base ← machine.toFloat base
  let exponent ← machine.toFloat exponent
  (machine.power base exponent).map .float

/-- A negative exponent makes a power of integers one of floating-point numbers. -/
def raise (base exponent : Value F) : Except Exception (Value F) :=
  match base.number?, exponent.number? with
  | some (.inl base), some (.inl exponent) =>
      if 0 ≤ exponent then .ok (.int (base ^ exponent.toNat))
      else powerOfFloats machine (.inl base) (.inl exponent)
  | some base, some exponent => powerOfFloats machine base exponent
  | _, _ => .error .typeError

def Value.signed (negative : Bool) : Value F → Except Exception (Value F)
  | .int value => .ok (.int (if negative then -value else value))
  | .bool value => .ok (.int (if negative then -value.toNat else value.toNat))
  | .float value => .ok (.float (if negative then machine.negate value else value))
  | .tuple => .error .typeError

/-- Every number is less than a tuple, and the one tuple equals itself. -/
def Comparison.holds (op : Comparison) (left right : Value F) : Bool :=
  match left.number?, right.number? with
  | some first, some second =>
      match first, second with
      | .inl first, .inl second =>
          match op with
          | .less => decide (first < second)
          | .greater => decide (second < first)
          | .different => decide (first ≠ second)
      | first, second => machine.compare op first second
  | some _, none => decide (op ≠ .greater)
  | none, some _ => decide (op ≠ .less)
  | none, none => false

/-! ## The evaluation -/

/-- The value of a tree, from left to right. No value of these expressions can be called. -/
def evaluate : Tree Nat → Except Exception (Value F)
  | .word content => .ok (.int content)
  | .tuple => .ok .tuple
  | .signed negative operand => do (← evaluate operand).signed machine negative
  | .binary op left right => do
      let left ← evaluate left
      let right ← evaluate right
      op.apply machine left right
  | .power base exponent => do
      let base ← evaluate base
      let exponent ← evaluate exponent
      raise machine base exponent
  | .compare op left right => do
      let left ← evaluate left
      let right ← evaluate right
      return .bool (op.holds machine left right)
  | .both first second => do
      match ← evaluate first with
      | .bool false => return .bool false
      | _ => evaluate second
  | .call callee => do
      let _ ← evaluate callee
      .error .typeError
  | .callWith callee argument => do
      let _ ← evaluate callee
      let _ ← evaluate argument
      .error .typeError

/-- A shift by a negative count that is not too large for the machine. -/
def NegativeShift (op : Operator) (left right : Value F) : Prop :=
  (op = .lshift ∨ op = .rshift) ∧ left.int?.isSome ∧
    ∃ count ∈ right.int?, count < 0 ∧ -(machine.maxsize : Int) - 1 ≤ count

/-- A power of floating-point numbers that the machine refuses as a wrong value. -/
def NoPower (base exponent : Value F) : Prop :=
  ∃ first ∈ base.number?, ∃ second ∈ exponent.number?,
    (∀ value count, first = .inl value → second = .inl count → count < 0) ∧
      ∃ x y, machine.toFloat first = .ok x ∧ machine.toFloat second = .ok y ∧
        machine.power x y = .error .valueError

/-- From left to right, the first operation of a tree that fails is a shift by a negative count
or a power that the machine refuses as a wrong value. -/
def Stops : Tree Nat → Prop
  | .word _ | .tuple => False
  | .signed _ operand => Stops operand
  | .binary op left right =>
      Stops left ∨ ∃ first, evaluate machine left = .ok first ∧
        (Stops right ∨ ∃ second, evaluate machine right = .ok second ∧
          NegativeShift machine op first second)
  | .power base exponent =>
      Stops base ∨ ∃ first, evaluate machine base = .ok first ∧
        (Stops exponent ∨ ∃ second, evaluate machine exponent = .ok second ∧
          NoPower machine first second)
  | .compare _ left right => Stops left ∨ ∃ first, evaluate machine left = .ok first ∧ Stops right
  | .both left right =>
      Stops left ∨ ∃ first, evaluate machine left = .ok first ∧ first ≠ .bool false ∧ Stops right
  | .call callee => Stops callee
  | .callWith callee argument =>
      Stops callee ∨ ∃ first, evaluate machine callee = .ok first ∧ Stops argument

theorem bind_eq_error {γ : Type} {first : Except Exception γ} {next : γ → Except Exception β}
    {error : Exception} :
    (first >>= next) = .error error ↔
      first = .error error ∨ ∃ value, first = .ok value ∧ next value = .error error := by
  cases first with
  | ok value =>
      constructor
      · exact fun failed => .inr ⟨value, rfl, failed⟩
      · rintro (failed | ⟨_, same, failed⟩)
        · cases failed
        · cases same
          exact failed
  | error other =>
      constructor
      · intro failed
        cases failed
        exact .inl rfl
      · rintro (failed | ⟨_, same, _⟩)
        · cases failed
          rfl
        · cases same

variable {machine}

theorem map_eq_error {γ : Type} {first : Except Exception γ} {change : γ → β}
    {error : Exception} : first.map change = .error error ↔ first = .error error := by
  cases first <;> simp [Except.map]

theorem shiftCount_eq_valueError {count : Int} :
    shiftCount machine count = .error .valueError ↔
      count < 0 ∧ -(machine.maxsize : Int) - 1 ≤ count := by
  unfold shiftCount
  split
  case isTrue large =>
    simp only [Except.error.injEq, reduceCtorEq, false_iff]
    omega
  case isFalse fits =>
    split
    case isTrue negative => exact iff_of_true rfl ⟨negative, by omega⟩
    case isFalse positive => exact iff_of_false (by simp) (by omega)

theorem onInts_eq_valueError {op : Operator} {left right : Int} :
    op.onInts machine left right = .error .valueError ↔
      (op = .lshift ∨ op = .rshift) ∧ right < 0 ∧ -(machine.maxsize : Int) - 1 ≤ right := by
  cases op with
  | lshift | rshift =>
      rw [Operator.onInts, map_eq_error, shiftCount_eq_valueError]
      simp
  | floordiv =>
      rw [Operator.onInts]
      split <;> simp
  | _ => simp [Operator.onInts]

theorem toFloat_ne_valueError {number : Int ⊕ F} : machine.toFloat number ≠ .error .valueError := by
  cases number with
  | inl value =>
      cases float : machine.ofInt value <;> simp [Machine.toFloat, float]
  | inr value => simp [Machine.toFloat]

theorem arithmetic_ne_valueError {op : Operator} {first second : Int ⊕ F} :
    (do
      let first ← machine.toFloat first
      let second ← machine.toFloat second
      (machine.arithmetic op first second).elim (.error .zeroDivisionError)
        fun value => Except.ok (Value.float value)) ≠ .error .valueError := by
  simp only [ne_eq, bind_eq_error, toFloat_ne_valueError, false_or, not_exists, not_and]
  intro x _ y _
  cases machine.arithmetic op x y <;> simp

theorem repeatTuple_ne_valueError {times : Value F} :
    repeatTuple machine times ≠ .error .valueError := by
  unfold repeatTuple
  split
  · split <;> simp
  · simp

theorem apply_eq_valueError {op : Operator} {left right : Value F} :
    op.apply machine left right = .error .valueError ↔ NegativeShift machine op left right := by
  cases op <;> cases left <;> cases right <;>
    simp [Operator.apply, NegativeShift, Value.int?, Value.number?, map_eq_error,
      onInts_eq_valueError, arithmetic_ne_valueError, repeatTuple_ne_valueError]

theorem powerOfFloats_eq_valueError {base exponent : Int ⊕ F} :
    powerOfFloats machine base exponent = .error .valueError ↔
      ∃ x y, machine.toFloat base = .ok x ∧ machine.toFloat exponent = .ok y ∧
        machine.power x y = .error .valueError := by
  simp only [powerOfFloats, bind_eq_error, map_eq_error, toFloat_ne_valueError, false_or]
  constructor
  · rintro ⟨x, first, y, second, refused⟩
    exact ⟨x, y, first, second, refused⟩
  · rintro ⟨x, y, first, second, refused⟩
    exact ⟨x, first, y, second, refused⟩

theorem raise_eq_valueError {base exponent : Value F} :
    raise machine base exponent = .error .valueError ↔ NoPower machine base exponent := by
  unfold raise NoPower
  cases base.number? with
  | none => simp
  | some first =>
      cases exponent.number? with
      | none => simp
      | some second =>
          cases first with
          | inr x => simp [powerOfFloats_eq_valueError]
          | inl value =>
              cases second with
              | inr y => simp [powerOfFloats_eq_valueError]
              | inl count =>
                  by_cases positive : 0 ≤ count
                  · simp [positive, Int.not_lt.mpr positive]
                  · simp [positive, Int.not_le.mp positive, powerOfFloats_eq_valueError]

theorem signed_ne_valueError {negative : Bool} {value : Value F} :
    value.signed machine negative ≠ .error .valueError := by
  cases value <;> simp [Value.signed]

theorem evaluate_eq_valueError (tree : Tree Nat) :
    evaluate machine tree = .error .valueError ↔ Stops machine tree := by
  induction tree with
  | word _ | tuple => simp [evaluate, Stops]
  | signed negative operand induction =>
      simp [evaluate, Stops, bind_eq_error, induction, signed_ne_valueError]
  | binary op left right first second =>
      simp only [evaluate, Stops, bind_eq_error, first, second, apply_eq_valueError]
  | power base exponent first second =>
      simp only [evaluate, Stops, bind_eq_error, first, second, raise_eq_valueError]
  | compare op left right first second =>
      simp [evaluate, Stops, bind_eq_error, first, second, pure, Except.pure]
  | both left right first second =>
      simp only [evaluate, Stops, bind_eq_error, first]
      refine or_congr Iff.rfl (exists_congr fun value => and_congr_right fun _ => ?_)
      split
      · simp [pure, Except.pure]
      next other => exact second.trans ⟨fun stops => ⟨other, stops⟩, And.right⟩
  | call callee induction =>
      simp [evaluate, Stops, bind_eq_error, induction]
  | callWith callee argument first second =>
      simp [evaluate, Stops, bind_eq_error, first, second]

variable (machine)

/-- The number that a literal stands for: one that begins with 0 is octal. -/
def literal (digits : Text) : Option Nat :=
  if digits.head? = some '0' then
    if digits.all fun c => decide (c < '8') then some (Nat.ofDigitChars 8 digits 0) else none
  else some (Nat.ofDigitChars 10 digits 0)

end Segvault.PythonExpression
