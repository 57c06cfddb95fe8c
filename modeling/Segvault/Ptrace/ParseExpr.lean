import Segvault.InfixExpression
import Mathlib.Data.List.TakeWhile

namespace Segvault.Ptrace

open PythonExpression

/-! Expressions over the registers of a process. -/

/-- What `parseExpression` can raise: an exception of Python, or one of `getreg`. -/
inductive Failed (ε : Type)
  | python (exception : Exception)
  | getreg (error : ε)

variable {ε F : Type}

def isSpace (c : Char) : Bool :=
  c = ' ' || c = '\t' || c = '\n' || c = '\r' || c = '\x0b' || c = '\x0c'

def strip (text : Text) : Text :=
  ((text.dropWhile isSpace).reverse.dropWhile isSpace).reverse

def lower (text : Text) : Text := text.map Char.toLower

def isHexDigit (c : Char) : Bool := c.isDigit || (decide ('a' ≤ c) && decide (c ≤ 'f'))

/-- What `HEXADECIMAL_REGEX` matches at the start of a text. -/
def hexadecimalRegex (text : Text) : Option Text :=
  if text.take 2 = ['0', 'x'] ∧ (text.drop 2).takeWhile isHexDigit ≠ [] then
    some ('0' :: 'x' :: (text.drop 2).takeWhile isHexDigit)
  else none

/-- What `REGISTER_REGEX` matches at the start of a text. -/
def registerRegex : Text → Option Text
  | [] => none
  | c :: rest =>
      if c.isLower = true ∧ rest.takeWhile isWord ≠ [] then some (c :: rest.takeWhile isWord)
      else none

/-- The characters of a text and the matches of a regular expression among them, where the first
characters of the text belong to an earlier match. -/
def pieces (regex : Text → Option Text) : Nat → Text → List (Char ⊕ Text)
  | _, [] => []
  | skip + 1, _ :: rest => pieces regex skip rest
  | 0, c :: rest =>
      match regex (c :: rest) with
      | some found => .inr found :: pieces regex (found.length - 1) rest
      | none => .inl c :: pieces regex 0 rest

def hexDigit (c : Char) : Nat :=
  if c.isDigit = true then c.toNat - '0'.toNat else c.toNat - 'a'.toNat + 10

/-- `int(text, 16)`. -/
def intHexadecimal (digits : Text) : Nat := digits.foldl (fun value c => 16 * value + hexDigit c) 0

/-- `str(value)`. -/
def str (value : Nat) : Text := Nat.toDigits 10 value

def replaceHexadecimal (text : Text) : Text :=
  if text.take 2 = ['0', 'x'] then str (intHexadecimal (text.drop 2))
  else if text.all fun c => !(decide ('a' ≤ c) && decide (c ≤ 'f')) then text
  else str (intHexadecimal text)

/-- `HEXADECIMAL_REGEX.sub(replaceHexadecimal, text)`. -/
def substituteHexadecimals (text : Text) : Text :=
  (pieces hexadecimalRegex 0 text).flatMap (Sum.elim (fun c => [c]) replaceHexadecimal)

def readRegister (getreg : Text → Except ε Nat) (name : Text) : Except (Failed ε) Text :=
  match getreg name with
  | .ok value => .ok (str value)
  | .error error => .error (.getreg error)

/-- The registers are read from left to right. -/
def readRegisters (getreg : Text → Except ε Nat) :
    List (Char ⊕ Text) → Except (Failed ε) Text
  | [] => .ok []
  | .inl c :: rest => (readRegisters getreg rest).map (c :: ·)
  | .inr name :: rest => do
      let value ← readRegister getreg name
      let rest ← readRegisters getreg rest
      return value ++ rest

/-- `REGISTER_REGEX.sub(readRegister, text)`. -/
def substituteRegisters (getreg : Text → Except ε Nat) (text : Text) : Except (Failed ε) Text :=
  readRegisters getreg (pieces registerRegex 0 text)

def isExpressionChar (c : Char) : Bool :=
  c.isDigit || ['(', ')', '<', '>', '+', '*', '/', '&', '-'].contains c

/-- Whether `EXPR_REGEX` matches a text, which does not end in a newline here. -/
def exprRegex (text : Text) : Bool := !text.isEmpty && text.all isExpressionChar

/-- `text.replace("/", "//")`. -/
def doubleSlashes (text : Text) : Text := text.flatMap fun c => if c = '/' then ['/', '/'] else [c]

/-- A `SyntaxError` of `eval` becomes a `ValueError`. -/
def parseExpression (machine : Machine F) (getreg : Text → Except ε Nat) (text : Text) :
    Except (Failed ε) (Value F) :=
  if ' ' ∈ strip text then .error (.python .valueError)
  else do
    let text ← substituteRegisters getreg (substituteHexadecimals (lower (strip text)))
    if exprRegex text = false then .error (.python .valueError)
    else
      match compile literal (doubleSlashes text) with
      | none => .error (.python .valueError)
      | some tree => (evaluate machine tree).mapError .python

/-! The documented syntax. -/

/-- The numbers and the registers of an expression. -/
inductive Operand
  | decimal (digits : Text) (nonempty : digits ≠ []) (all : ∀ c ∈ digits, c.isDigit = true)
  | hexadecimal (digits : Text) (nonempty : digits ≠ [])
      (all : ∀ c ∈ digits, isHexDigit c = true)
  | register (letter : Char) (rest : Text) (letters : letter.isLower = true)
      (nonempty : rest ≠ []) (all : ∀ c ∈ rest, isWord c = true)

namespace Operand

def text : Operand → Text
  | .decimal digits .. => digits
  | .hexadecimal digits .. => '0' :: 'x' :: digits
  | .register letter rest .. => letter :: rest

def value (getreg : Text → Except ε Nat) : Operand → Option Nat
  | .decimal digits .. => some (Nat.ofDigitChars 10 digits 0)
  | .hexadecimal digits .. => some (intHexadecimal digits)
  | .register letter rest .. => (getreg (letter :: rest)).toOption

/-- The number that Python reads for an operand: a decimal number that begins with 0 is octal,
and hexadecimal numbers in the name of a register are replaced first. -/
def reading (getreg : Text → Except ε Nat) : Operand → Option Nat
  | .decimal digits .. => literal digits
  | .hexadecimal digits .. => some (intHexadecimal digits)
  | .register letter rest .. => (getreg (substituteHexadecimals (letter :: rest))).toOption

end Operand

abbrev Documented := Expression Operand 1

def Documented.text (expression : Documented) : Text := expression.render Operand.text ['/']

/-- A text, up to its case and the spaces around it, is an expression with a value. -/
def HasValue (getreg : Text → Except ε Nat) (text : Text) (value : Int) : Prop :=
  ∃ expression : Documented,
    lower (strip text) = expression.text ∧ expression.value (Operand.value getreg) = some value

/-- `parseExpression` gives the value of an expression that has one, and raises a `ValueError` or
the error of `getreg` for every other text. -/
def Exact (machine : Machine F) (getreg : Text → Except ε Nat) (text : Text) : Prop :=
  (∀ value, HasValue getreg text value →
    parseExpression machine getreg text = .ok (.int value)) ∧
  ((∀ value, ¬ HasValue getreg text value) →
    parseExpression machine getreg text = .error (.python .valueError) ∨
      ∃ name error, getreg name = .error error ∧
        parseExpression machine getreg text = .error (.getreg error))

/-- A text is an expression with a value, which is the same for the numbers that Python reads, and
no count of a shift is too large for the machine. -/
def ReadAsMeant (machine : Machine F) (getreg : Text → Except ε Nat) (text : Text) : Prop :=
  ∃ (expression : Documented) (value : Int),
    lower (strip text) = expression.text ∧
      expression.value (Operand.value getreg) = some value ∧
      expression.value (Operand.reading getreg) = some value ∧
      expression.Within (Operand.reading getreg) machine.maxsize

/-- A text has a space in it, or the name of a register that is not known; or once the numbers and
registers are replaced, it has a character that no expression has, or is none of Python, or its
evaluation stops at a shift by a negative count or at a power that is not a number. -/
def Refused (machine : Machine F) (getreg : Text → Except ε Nat) (text : Text) : Prop :=
  ' ' ∈ strip text ∨
  (∃ name, .inr name ∈ pieces registerRegex 0 (substituteHexadecimals (lower (strip text))) ∧
    ∃ error, getreg name = .error error) ∨
  ∃ replaced,
    substituteRegisters getreg (substituteHexadecimals (lower (strip text))) = .ok replaced ∧
      (exprRegex replaced = false ∨ compile literal (doubleSlashes replaced) = none ∨
        ∃ tree, compile literal (doubleSlashes replaced) = some tree ∧ Stops machine tree)

/-! Replacing the operands of an expression one by one. -/

section Pieces

variable {regex : Text → Option Text} {getreg : Text → Except ε Nat}

theorem pieces_append {word rest : Text}
    (same : ∀ suffix, suffix <:+ word → suffix ≠ [] → regex (suffix ++ rest) = regex suffix)
    (fits : ∀ text found, regex text = some found → found.length ≤ text.length) {skip : Nat}
    (bound : skip ≤ word.length) :
    pieces regex skip (word ++ rest) = pieces regex skip word ++ pieces regex 0 rest := by
  induction word generalizing skip with
  | nil =>
      obtain rfl := Nat.le_zero.mp bound
      rfl
  | cons c word induction =>
      have later {skip : Nat} := @induction
        (fun suffix ends => same suffix (ends.trans (List.suffix_cons c word))) skip
      cases skip with
      | succ skip => exact later (Nat.le_of_succ_le_succ bound)
      | zero =>
          have here := same (c :: word) (List.suffix_refl _) (List.cons_ne_nil _ _)
          rw [List.cons_append] at here ⊢
          rw [pieces, pieces, here]
          cases found : regex (c :: word) with
          | none => exact congrArg (Sum.inl c :: ·) (later (Nat.zero_le _))
          | some found' =>
              have short := fits _ _ found
              rw [List.length_cons] at short
              exact congrArg (Sum.inr found' :: ·) (later (by omega))

theorem pieces_none {word : Text}
    (not_found : ∀ suffix, suffix <:+ word → suffix ≠ [] → regex suffix = none) :
    pieces regex 0 word = word.map .inl := by
  induction word with
  | nil => rfl
  | cons c word induction =>
      rw [pieces, not_found (c :: word) (List.suffix_refl _) (List.cons_ne_nil _ _), List.map_cons,
        induction fun suffix ends => not_found suffix (ends.trans (List.suffix_cons c word))]

theorem pieces_whole {word : Text} (nonempty : word ≠ []) (found : regex word = some word) :
    pieces regex 0 word = [.inr word] := by
  cases word with
  | nil => exact absurd rfl nonempty
  | cons c word =>
      have skipped : ∀ word : Text, pieces regex word.length word = [] := by
        intro word
        induction word with
        | nil => rfl
        | cons c word induction => exact induction
      rw [pieces, found]
      exact congrArg (Sum.inr (c :: word) :: ·) (skipped word)

theorem readRegisters_append (first second : List (Char ⊕ Text)) :
    readRegisters getreg (first ++ second) = (do
      let before ← readRegisters getreg first
      (readRegisters getreg second).map (before ++ ·)) := by
  induction first with
  | nil =>
      rw [List.nil_append]
      cases readRegisters getreg second <;> rfl
  | cons piece first induction =>
      cases piece with
      | inl c =>
          rw [List.cons_append, readRegisters, readRegisters, induction]
          cases readRegisters getreg first <;> cases readRegisters getreg second <;> rfl
      | inr name =>
          rw [List.cons_append, readRegisters, readRegisters, induction]
          cases readRegister getreg name with
          | error _ => rfl
          | ok value =>
              cases readRegisters getreg first with
              | error _ => rfl
              | ok before =>
                  cases readRegisters getreg second with
                  | error _ => rfl
                  | ok after => exact congrArg Except.ok (List.append_assoc value before after).symm

theorem readRegisters_chars (word : Text) : readRegisters getreg (word.map .inl) = .ok word := by
  induction word with
  | nil => rfl
  | cons c word induction =>
      rw [List.map_cons, readRegisters, induction]
      rfl

/-- Reading the registers fails exactly if one of them is not known, and with its error. -/
theorem readRegisters_error {found : List (Char ⊕ Text)} {failed : Failed ε}
    (fails : readRegisters getreg found = .error failed) :
    ∃ name, .inr name ∈ found ∧ ∃ error, getreg name = .error error ∧ failed = .getreg error := by
  induction found with
  | nil => cases fails
  | cons piece found induction =>
      have later {failed' : Failed ε} (fails' : readRegisters getreg found = .error failed')
          (same : failed' = failed) : ∃ name, .inr name ∈ piece :: found ∧
            ∃ error, getreg name = .error error ∧ failed = .getreg error := by
        subst same
        obtain ⟨name, member, unknown⟩ := induction fails'
        exact ⟨name, List.mem_cons_of_mem _ member, unknown⟩
      cases piece with
      | inl c =>
          rw [readRegisters] at fails
          cases rest : readRegisters getreg found with
          | ok _ =>
              rw [rest] at fails
              cases fails
          | error _ =>
              rw [rest] at fails
              exact later rest (Except.error.inj fails)
      | inr name =>
          rw [readRegisters, readRegister] at fails
          cases read : getreg name with
          | error error =>
              rw [read] at fails
              exact ⟨name, List.mem_cons_self, error, read, (Except.error.inj fails).symm⟩
          | ok value =>
              rw [read] at fails
              cases rest : readRegisters getreg found with
              | ok _ =>
                  rw [rest] at fails
                  cases fails
              | error _ =>
                  rw [rest] at fails
                  exact later rest (Except.error.inj fails)

theorem readRegisters_known {found : List (Char ⊕ Text)} {text : Text}
    (done : readRegisters getreg found = .ok text) {name : Text} (member : .inr name ∈ found) :
    ∃ value, getreg name = .ok value := by
  induction found generalizing text with
  | nil => cases member
  | cons piece found induction =>
      cases rest : readRegisters getreg found with
      | error _ =>
          cases piece with
          | inl c =>
              rw [readRegisters, rest] at done
              cases done
          | inr other =>
              rw [readRegisters, rest] at done
              cases read : readRegister getreg other <;> rw [read] at done <;> cases done
      | ok _ =>
          rcases List.mem_cons.mp member with same | member
          · subst same
            rw [readRegisters, readRegister] at done
            cases read : getreg name with
            | ok value => exact ⟨value, rfl⟩
            | error _ =>
                rw [read] at done
                cases done
          · exact induction rest member

end Pieces

section Rendered

variable {κ : Type} {level : Nat} {run : Text → Except ε Text} {before after : κ → Text}

theorem run_signs
    (signs : ∀ c rest, isWord c = false → run (c :: rest) = (run rest).map (c :: ·))
    {word : Text} (inside : ∀ c ∈ word, isWord c = false) (rest : Text) :
    run (word ++ rest) = (run rest).map (word ++ ·) := by
  induction word with
  | nil =>
      rw [List.nil_append]
      cases run rest <;> rfl
  | cons c word induction =>
      rw [List.cons_append, signs c _ (inside c List.mem_cons_self),
        induction fun d member => inside d (List.mem_cons_of_mem c member)]
      cases run rest <;> rfl

/-- What replaces every operand where it ends replaces the operands of an expression. -/
theorem run_render
    (signs : ∀ c rest, isWord c = false → run (c :: rest) = (run rest).map (c :: ·))
    (expression : Expression κ level)
    (replaces : ∀ k ∈ expression.leaves, ∀ rest, Ends rest →
      run (before k ++ rest) = (run rest).map (after k ++ ·))
    {rest : Text} (ends : Ends rest) :
    run (expression.render before ['/'] ++ rest) =
      (run rest).map (expression.render after ['/'] ++ ·) := by
  induction expression generalizing rest with
  | leaf k => exact replaces k (List.mem_singleton_self k) rest ends
  | group inner induction =>
      have closing : Ends ([')'] ++ rest) := ends_sign rfl rest
      have last : ∀ c ∈ [')'], isWord c = false := List.forall_mem_singleton.mpr rfl
      have first : ∀ c ∈ ['('], isWord c = false := List.forall_mem_singleton.mpr rfl
      rw [Expression.render, List.append_assoc, ← List.singleton_append, List.append_assoc,
        run_signs signs first, induction replaces closing, run_signs signs last]
      cases run rest <;> simp [Except.map, Expression.render]
  | power base exponent first second =>
      have stars : Ends (['*', '*'] ++ (exponent.render before ['/'] ++ rest)) :=
        ends_sign rfl _
      rw [Expression.render, List.append_assoc, List.append_assoc,
        first (fun k member => replaces k (List.mem_append_left _ member)) stars,
        run_signs signs not_word_stars,
        second (fun k member => replaces k (List.mem_append_right _ member)) ends]
      cases run rest <;> simp [Except.map, Expression.render]
  | signed negative operand induction =>
      have inside : ∀ c ∈ [signOf negative], isWord c = false :=
        List.forall_mem_singleton.mpr (by cases negative <;> rfl)
      rw [Expression.render, ← List.singleton_append, List.append_assoc,
        run_signs signs inside, induction replaces ends]
      cases run rest <;> simp [Except.map, Expression.render]
  | binary op left right first second =>
      have slash : ∀ c ∈ ['/'], c = '/' := by simp
      rw [Expression.render, List.append_assoc, List.append_assoc,
        first (fun k member => replaces k (List.mem_append_left _ member))
          (ends_symbol op (List.cons_ne_nil _ _) slash _),
        run_signs signs (fun c member => not_word_symbol op slash member),
        second (fun k member => replaces k (List.mem_append_right _ member)) ends]
      cases run rest <;> simp [Except.map, Expression.render]
  | tighter operand induction => exact induction replaces ends

end Rendered

/-! What the replacements do to one operand. -/

section Operands

theorem takeWhile_stop {p : Char → Bool} {word rest : Text}
    (stops : ∀ c ∈ rest.head?, p c = false) : (word ++ rest).takeWhile p = word.takeWhile p := by
  induction word with
  | nil =>
      cases rest with
      | nil => rfl
      | cons c rest => simp [stops c rfl]
  | cons c word induction =>
      rw [List.cons_append, List.takeWhile_cons, List.takeWhile_cons, induction]

theorem isLower_iff {c : Char} : c.isLower = true ↔ 'a' ≤ c ∧ c ≤ 'z' := by
  change (decide ('a' ≤ c) && decide (c ≤ 'z')) = true ↔ _
  rw [Bool.and_eq_true, decide_eq_true_iff, decide_eq_true_iff]

theorem isWord_of_isDigit {c : Char} (digit : c.isDigit = true) : isWord c = true := by
  simp [isWord, digit]

theorem isWord_of_isLower {c : Char} (letter : c.isLower = true) : isWord c = true := by
  simp [isWord, letter]

theorem isWord_of_isHexDigit {c : Char} (digit : isHexDigit c = true) : isWord c = true := by
  rw [isHexDigit, Bool.or_eq_true, Bool.and_eq_true, decide_eq_true_iff,
    decide_eq_true_iff] at digit
  obtain digit | ⟨above, below⟩ := digit
  · exact isWord_of_isDigit digit
  · exact isWord_of_isLower (isLower_iff.mpr ⟨above, UInt32.le_trans below (by decide)⟩)

theorem isLower_of_isDigit {c : Char} (digit : c.isDigit = true) : c.isLower = false := by
  refine Bool.eq_false_iff.mpr fun letter => ?_
  have above := (isLower_iff.mp letter).1
  have below : c ≤ '9' := of_decide_eq_true (Bool.and_eq_true_iff.mp digit).2
  exact absurd (UInt32.le_trans above below) (by decide)

theorem hexDigit_ends {rest : Text} (ends : Ends rest) :
    ∀ c ∈ rest.head?, isHexDigit c = false := by
  intro c member
  refine Bool.eq_false_iff.mpr fun digit => ?_
  exact Bool.false_ne_true ((ends c member).symm.trans (isWord_of_isHexDigit digit))

theorem hexadecimalRegex_sign (c : Char) (rest : Text) (sign : isWord c = false) :
    hexadecimalRegex (c :: rest) = none := by
  refine if_neg fun found => ?_
  have first : c = '0' := (List.cons.inj found.1).1
  rw [first] at sign
  exact absurd sign (by decide)

theorem registerRegex_sign (c : Char) (rest : Text) (sign : isWord c = false) :
    registerRegex (c :: rest) = none := by
  refine if_neg fun found => ?_
  exact Bool.false_ne_true (sign.symm.trans (isWord_of_isLower found.1))

/-- No hexadecimal number begins in a word and ends after it. -/
theorem hexadecimalRegex_append {word rest : Text} (nonempty : word ≠ []) (ends : Ends rest) :
    hexadecimalRegex (word ++ rest) = hexadecimalRegex word := by
  cases word with
  | nil => exact absurd rfl nonempty
  | cons c word =>
      cases word with
      | nil =>
          have alone : hexadecimalRegex [c] = none := if_neg fun found => by cases found.1
          refine Eq.trans (if_neg fun found => ?_) alone.symm
          cases rest with
          | nil => cases found.1
          | cons d rest =>
              have second : d = 'x' := (List.cons.inj (List.cons.inj found.1).2).1
              have sign := ends d rfl
              rw [second] at sign
              exact absurd sign (by decide)
      | cons d word =>
          have same : ((c :: d :: word ++ rest).drop 2).takeWhile isHexDigit =
              ((c :: d :: word).drop 2).takeWhile isHexDigit := takeWhile_stop (hexDigit_ends ends)
          rw [hexadecimalRegex, hexadecimalRegex, same]
          rfl

theorem hexadecimalRegex_some {text found : Text} (equal : hexadecimalRegex text = some found) :
    found.take 2 = ['0', 'x'] ∧ found.length ≤ text.length := by
  unfold hexadecimalRegex at equal
  split at equal
  case isTrue here =>
    obtain rfl := Option.some.inj equal
    refine ⟨rfl, ?_⟩
    have long : 2 ≤ text.length := by
      have length := congrArg List.length here.1
      rw [List.length_take, List.length_cons, List.length_singleton] at length
      omega
    have short := (List.takeWhile_sublist isHexDigit (l := text.drop 2)).length_le
    rw [List.length_drop] at short
    simp only [List.length_cons]
    omega
  case isFalse => cases equal

theorem hexadecimalRegex_digits {word : Text} (digits : ∀ c ∈ word, c.isDigit = true) :
    hexadecimalRegex word = none := by
  refine if_neg fun found => ?_
  have member : 'x' ∈ word.take 2 := by simp [found.1]
  exact absurd (digits 'x' (List.mem_of_mem_take member)) (by decide)

theorem hexadecimalRegex_number {digits : Text} (nonempty : digits ≠ [])
    (all : ∀ c ∈ digits, isHexDigit c = true) :
    hexadecimalRegex ('0' :: 'x' :: digits) = some ('0' :: 'x' :: digits) := by
  have same : (('0' :: 'x' :: digits).drop 2).takeWhile isHexDigit = digits :=
    List.takeWhile_eq_self_iff.mpr all
  rw [hexadecimalRegex, same]
  exact if_pos ⟨rfl, nonempty⟩

theorem registerRegex_append {word rest : Text} (nonempty : word ≠ []) (ends : Ends rest) :
    registerRegex (word ++ rest) = registerRegex word := by
  cases word with
  | nil => exact absurd rfl nonempty
  | cons c word =>
      have same : (word ++ rest).takeWhile isWord = word.takeWhile isWord := takeWhile_stop ends
      rw [List.cons_append, registerRegex, registerRegex, same]

theorem registerRegex_some {text found : Text} (equal : registerRegex text = some found) :
    found.length ≤ text.length := by
  cases text with
  | nil => cases equal
  | cons c rest =>
      rw [registerRegex] at equal
      split at equal
      case isTrue =>
        obtain rfl := Option.some.inj equal
        exact Nat.succ_le_succ (List.takeWhile_sublist isWord).length_le
      case isFalse => cases equal

theorem registerRegex_name {letter : Char} {name : Text} (lower : letter.isLower = true)
    (nonempty : name ≠ []) (all : ∀ c ∈ name, isWord c = true) :
    registerRegex (letter :: name) = some (letter :: name) := by
  have same : name.takeWhile isWord = name := List.takeWhile_eq_self_iff.mpr all
  rw [registerRegex, same]
  exact if_pos ⟨lower, nonempty⟩

theorem registerRegex_digits {word : Text} (nonempty : word ≠ [])
    (digits : ∀ c ∈ word, c.isDigit = true) : registerRegex word = none := by
  cases word with
  | nil => exact absurd rfl nonempty
  | cons c word =>
      refine if_neg fun found => ?_
      have digit := isLower_of_isDigit (digits c List.mem_cons_self)
      exact Bool.false_ne_true (digit.symm.trans found.1)

theorem str_digits {value : Nat} {c : Char} (member : c ∈ str value) : c.isDigit = true :=
  Nat.isDigit_of_mem_toDigits (by decide) (by decide) member

theorem replaceHexadecimal_found {text found : Text} (equal : hexadecimalRegex text = some found) :
    replaceHexadecimal found = str (intHexadecimal (found.drop 2)) :=
  if_pos (hexadecimalRegex_some equal).1

theorem substituteHexadecimals_sign {c : Char} (rest : Text) (sign : isWord c = false) :
    substituteHexadecimals (c :: rest) = c :: substituteHexadecimals rest := by
  rw [substituteHexadecimals, pieces, hexadecimalRegex_sign c rest sign]
  rfl

theorem substituteHexadecimals_append {word rest : Text} (ends : Ends rest) :
    substituteHexadecimals (word ++ rest) =
      substituteHexadecimals word ++ substituteHexadecimals rest := by
  have parts : pieces hexadecimalRegex 0 (word ++ rest) =
      pieces hexadecimalRegex 0 word ++ pieces hexadecimalRegex 0 rest :=
    pieces_append (fun suffix _ nonempty => hexadecimalRegex_append nonempty ends)
      (fun text found equal => (hexadecimalRegex_some equal).2) (Nat.zero_le _)
  rw [substituteHexadecimals, parts, List.flatMap_append]
  rfl

theorem substituteHexadecimals_digits {digits : Text} (all : ∀ c ∈ digits, c.isDigit = true) :
    substituteHexadecimals digits = digits := by
  have parts := pieces_none fun suffix ends nonempty =>
    hexadecimalRegex_digits fun c member => all c (ends.subset member)
  rw [substituteHexadecimals, parts, List.flatMap_map]
  exact List.flatMap_singleton' digits

theorem substituteHexadecimals_number {digits : Text} (nonempty : digits ≠ [])
    (all : ∀ c ∈ digits, isHexDigit c = true) :
    substituteHexadecimals ('0' :: 'x' :: digits) = str (intHexadecimal digits) := by
  rw [substituteHexadecimals,
    pieces_whole (List.cons_ne_nil _ _) (hexadecimalRegex_number nonempty all)]
  exact List.append_nil _

theorem mem_pieces {regex : Text → Option Text} {skip : Nat} {text : Text}
    {piece : Char ⊕ Text} (member : piece ∈ pieces regex skip text) :
    (∃ c ∈ text, piece = .inl c) ∨ ∃ here found, regex here = some found ∧ piece = .inr found := by
  induction text generalizing skip with
  | nil => cases skip <;> cases member
  | cons c text induction =>
      have later {skip : Nat} (member : piece ∈ pieces regex skip text) :
          (∃ d ∈ c :: text, piece = .inl d) ∨
            ∃ here found, regex here = some found ∧ piece = .inr found := by
        obtain ⟨d, inside, same⟩ | found := induction member
        · exact .inl ⟨d, List.mem_cons_of_mem c inside, same⟩
        · exact .inr found
      cases skip with
      | succ skip => exact later member
      | zero =>
          rw [pieces] at member
          cases found : regex (c :: text) with
          | none =>
              rw [found] at member
              rcases List.mem_cons.mp member with same | member
              · exact .inl ⟨c, List.mem_cons_self, same⟩
              · exact later member
          | some found' =>
              rw [found] at member
              rcases List.mem_cons.mp member with same | member
              · exact .inr ⟨c :: text, found', found, same⟩
              · exact later member

/-- A word stays a word when the hexadecimal numbers in it are replaced. -/
theorem substituteHexadecimals_word {word : Text} (nonempty : word ≠ [])
    (all : ∀ c ∈ word, isWord c = true) :
    substituteHexadecimals word ≠ [] ∧ ∀ c ∈ substituteHexadecimals word, isWord c = true := by
  constructor
  · cases word with
    | nil => exact absurd rfl nonempty
    | cons c word =>
        rw [substituteHexadecimals, pieces]
        cases found : hexadecimalRegex (c :: word) with
        | none => exact List.cons_ne_nil _ _
        | some found' =>
            refine List.append_ne_nil_of_left_ne_nil ?_ _
            rw [Sum.elim_inr, replaceHexadecimal_found found]
            exact Nat.toDigits_ne_nil
  · intro c member
    obtain ⟨piece, part, member⟩ := List.mem_flatMap.mp member
    rcases mem_pieces part with ⟨d, inside, rfl⟩ | ⟨here, found, equal, rfl⟩
    · rw [List.mem_singleton.mp member]
      exact all d inside
    · rw [Sum.elim_inr, replaceHexadecimal_found equal] at member
      exact isWord_of_isDigit (str_digits member)

theorem substituteHexadecimals_name {letter : Char} {rest : Text} (letters : letter.isLower = true)
    (nonempty : rest ≠ []) (all : ∀ c ∈ rest, isWord c = true) :
    ∃ name, substituteHexadecimals (letter :: rest) = letter :: name ∧ name ≠ [] ∧
      ∀ c ∈ name, isWord c = true := by
  refine ⟨substituteHexadecimals rest, ?_, substituteHexadecimals_word nonempty all⟩
  have kept : hexadecimalRegex (letter :: rest) = none := by
    refine if_neg fun found => ?_
    have first : letter = '0' := (List.cons.inj found.1).1
    rw [first] at letters
    exact absurd letters (by decide)
  rw [substituteHexadecimals, pieces, kept]
  rfl

section Registers

variable {getreg : Text → Except ε Nat}

theorem substituteRegisters_sign (c : Char) (rest : Text) (sign : isWord c = false) :
    substituteRegisters getreg (c :: rest) =
      (substituteRegisters getreg rest).map (c :: ·) := by
  rw [substituteRegisters, pieces, registerRegex_sign c rest sign]
  rfl

theorem substituteRegisters_append {word rest : Text} (ends : Ends rest) :
    substituteRegisters getreg (word ++ rest) = (do
      let before ← substituteRegisters getreg word
      (substituteRegisters getreg rest).map (before ++ ·)) := by
  have parts : pieces registerRegex 0 (word ++ rest) =
      pieces registerRegex 0 word ++ pieces registerRegex 0 rest :=
    pieces_append (fun suffix _ nonempty => registerRegex_append nonempty ends)
      (fun text found equal => registerRegex_some equal) (Nat.zero_le _)
  rw [substituteRegisters, parts, readRegisters_append]
  rfl

theorem substituteRegisters_digits {digits : Text} (all : ∀ c ∈ digits, c.isDigit = true) :
    substituteRegisters getreg digits = .ok digits := by
  have parts := pieces_none fun suffix ends nonempty =>
    registerRegex_digits nonempty fun c member => all c (ends.subset member)
  rw [substituteRegisters, parts, readRegisters_chars]

theorem substituteRegisters_name {letter : Char} {name : Text} (letters : letter.isLower = true)
    (nonempty : name ≠ []) (all : ∀ c ∈ name, isWord c = true) :
    substituteRegisters getreg (letter :: name) = readRegister getreg (letter :: name) := by
  rw [substituteRegisters,
    pieces_whole (List.cons_ne_nil _ _) (registerRegex_name letters nonempty all)]
  rw [readRegisters]
  cases readRegister getreg (letter :: name) with
  | error _ => rfl
  | ok value => exact congrArg Except.ok (List.append_nil value)

end Registers

namespace Operand

/-- An operand once the numbers and the registers are replaced. -/
def numeral (number : Operand → Nat) : Operand → Text
  | .decimal digits .. => digits
  | .hexadecimal digits nonempty all => str (number (.hexadecimal digits nonempty all))
  | .register letter rest letters nonempty all =>
      str (number (.register letter rest letters nonempty all))

/-- The register that is read for an operand is known. -/
def Found (getreg : Text → Except ε Nat) : Operand → Prop
  | .register letter rest .. =>
      ∃ value, getreg (substituteHexadecimals (letter :: rest)) = .ok value
  | _ => True

theorem text_word (operand : Operand) :
    operand.text ≠ [] ∧ ∀ c ∈ operand.text, isWord c = true := by
  cases operand with
  | decimal digits nonempty all =>
      exact ⟨nonempty, fun c member => isWord_of_isDigit (all c member)⟩
  | hexadecimal digits nonempty all =>
      refine ⟨List.cons_ne_nil _ _, fun c member => ?_⟩
      rcases List.mem_cons.mp member with rfl | member
      · decide
      · rcases List.mem_cons.mp member with rfl | member
        · decide
        · exact isWord_of_isHexDigit (all c member)
  | register letter rest letters nonempty all =>
      refine ⟨List.cons_ne_nil _ _, fun c member => ?_⟩
      rcases List.mem_cons.mp member with rfl | member
      · exact isWord_of_isLower letters
      · exact all c member

theorem numeral_digits (number : Operand → Nat) (operand : Operand) :
    operand.numeral number ≠ [] ∧ ∀ c ∈ operand.numeral number, c.isDigit = true := by
  cases operand with
  | decimal digits nonempty all => exact ⟨nonempty, all⟩
  | hexadecimal digits nonempty all => exact ⟨Nat.toDigits_ne_nil, fun _ => str_digits⟩
  | register letter rest letters nonempty all => exact ⟨Nat.toDigits_ne_nil, fun _ => str_digits⟩

/-- The number that is read for an operand, or 0. -/
def number (getreg : Text → Except ε Nat) (operand : Operand) : Nat :=
  (operand.reading getreg).getD 0

/-- An operand is replaced by its number, unless its register is not known. -/
theorem substituteRegisters_operand {getreg : Text → Except ε Nat} (operand : Operand) :
    (operand.Found getreg ∧ substituteRegisters getreg (substituteHexadecimals operand.text) =
        .ok (operand.numeral (number getreg))) ∨
      ¬ operand.Found getreg ∧ ∃ failed,
        substituteRegisters getreg (substituteHexadecimals operand.text) = .error failed := by
  cases operand with
  | decimal digits nonempty all =>
      refine .inl ⟨trivial, ?_⟩
      rw [text, substituteHexadecimals_digits all]
      exact substituteRegisters_digits all
  | hexadecimal digits nonempty all =>
      refine .inl ⟨trivial, ?_⟩
      rw [text, substituteHexadecimals_number nonempty all]
      exact substituteRegisters_digits fun _ => str_digits
  | register letter rest letters nonempty all =>
      obtain ⟨name, equal, some_name, words⟩ := substituteHexadecimals_name letters nonempty all
      have read : substituteRegisters getreg (letter :: name) =
          readRegister getreg (letter :: name) := substituteRegisters_name letters some_name words
      rw [Found, text, numeral, number, reading, equal, read, readRegister]
      cases known : getreg (letter :: name) with
      | ok value => exact .inl ⟨⟨value, rfl⟩, rfl⟩
      | error error => exact .inr ⟨by simp, _, rfl⟩

end Operand

end Operands

end Segvault.Ptrace
