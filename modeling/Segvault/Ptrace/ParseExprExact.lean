import Segvault.Ptrace.ParseExpr
import Mathlib.Data.List.Induction
import Mathlib.Tactic.IntervalCases

namespace Segvault.Ptrace

open PythonExpression

variable {ε F : Type}

/-! What is left to `eval`. -/

section Literals

theorem toNat_of_isDigit {c : Char} (digit : c.isDigit = true) : 48 ≤ c.toNat ∧ c.toNat ≤ 57 := by
  simp only [Char.isDigit, Bool.and_eq_true, decide_eq_true_eq] at digit
  exact ⟨UInt32.le_iff_toNat_le.mp digit.1, UInt32.le_iff_toNat_le.mp digit.2⟩

/-- An octal number below 8 is the same decimal number. -/
theorem octal_eq_decimal {digits : Text} (all : ∀ c ∈ digits, c.isDigit = true)
    (small : Nat.ofDigitChars 10 digits 0 < 8) :
    (∀ c ∈ digits, c < '8') ∧
      Nat.ofDigitChars 8 digits 0 = Nat.ofDigitChars 10 digits 0 := by
  induction digits using List.reverseRecOn with
  | nil => exact ⟨by simp, rfl⟩
  | append_singleton digits c induction =>
      have digit := toNat_of_isDigit (all c (List.mem_append_right _ (List.mem_singleton_self c)))
      rw [Nat.ofDigitChars_append, Nat.ofDigitChars_cons, Nat.ofDigitChars_nil] at small ⊢
      have zero : '0'.toNat = 48 := rfl
      have none_before : Nat.ofDigitChars 10 digits 0 = 0 := by omega
      obtain ⟨below, same⟩ := induction (fun d member => all d (List.mem_append_left _ member))
        (by omega)
      constructor
      · intro d member
        rcases List.mem_append.mp member with member | member
        · exact below d member
        · obtain rfl := List.mem_singleton.mp member
          have bound : d.toNat < 56 := by omega
          exact UInt32.lt_iff_toNat_lt.mpr bound
      · rw [Nat.ofDigitChars_append, Nat.ofDigitChars_cons, Nat.ofDigitChars_nil, same,
          none_before]

theorem literal_decimal {digits : Text} (all : ∀ c ∈ digits, c.isDigit = true)
    (plain : digits.head? ≠ some '0' ∨ Nat.ofDigitChars 10 digits 0 < 8) :
    literal digits = some (Nat.ofDigitChars 10 digits 0) := by
  unfold literal
  split
  case isTrue zero =>
    obtain ⟨below, same⟩ := octal_eq_decimal all (plain.resolve_left (absurd zero))
    rw [if_pos (List.all_eq_true.mpr fun c member => decide_eq_true (below c member)), same]
  case isFalse nonzero => rfl

theorem head_str {value : Nat} (positive : 0 < value) : (str value).head? ≠ some '0' := by
  induction value using Nat.strongRecOn with
  | ind value induction =>
      unfold str
      by_cases small : value < 10
      · rw [Nat.toDigits_of_lt_base small]
        interval_cases value <;> decide
      · rw [Nat.toDigits_of_base_le (by decide) (by omega)]
        obtain ⟨c, rest, equal⟩ := List.exists_cons_of_ne_nil
          (Nat.toDigits_ne_nil : Nat.toDigits 10 (value / 10) ≠ [])
        have before := induction (value / 10) (by omega) (by omega)
        rw [str, equal] at before
        rw [equal]
        exact before

theorem literal_str (value : Nat) : literal (str value) = some value := by
  have number : Nat.ofDigitChars 10 (str value) 0 = value := Nat.ofDigitChars_ten_toDigits
  have plain : (str value).head? ≠ some '0' ∨ Nat.ofDigitChars 10 (str value) 0 < 8 := by
    rcases Nat.eq_zero_or_pos value with zero | positive
    · exact .inr (by omega)
    · exact .inl (head_str positive)
  rw [literal_decimal (fun c member => str_digits member) plain, number]

/-- What Python reads for an operand whose register is known. -/
theorem Operand.literal_numeral {getreg : Text → Except ε Nat} {operand : Operand}
    (found : operand.Found getreg) :
    literal (operand.numeral (Operand.number getreg)) = operand.reading getreg := by
  cases operand with
  | decimal digits nonempty all => rfl
  | hexadecimal digits nonempty all => exact literal_str _
  | register letter rest letters nonempty all =>
      obtain ⟨value, known⟩ := found
      rw [Operand.numeral, literal_str, Operand.number, Operand.reading, known]
      rfl

end Literals

section Texts

variable {κ : Type} {leaf : κ → Text} {divide : Text} {level : Nat}

/-- The characters of an expression are those of its leaves, its operators and parentheses. -/
theorem render_all {p : Char → Prop} (expression : Expression κ level)
    (signs : ∀ c ∈ ['(', ')', '<', '>', '+', '*', '&', '-'], p c) (divides : ∀ c ∈ divide, p c)
    (leaves : ∀ k ∈ expression.leaves, ∀ c ∈ leaf k, p c) :
    ∀ c ∈ expression.render leaf divide, p c := by
  induction expression with
  | leaf k => exact leaves k (List.mem_singleton_self k)
  | group inner induction =>
      intro c member
      rcases List.mem_append.mp member with member | member
      · rcases List.mem_cons.mp member with rfl | member
        · exact signs _ (by decide)
        · exact induction leaves c member
      · rw [List.mem_singleton.mp member]
        exact signs _ (by decide)
  | power base exponent first second =>
      intro c member
      rcases List.mem_append.mp member with member | member
      · rcases List.mem_append.mp member with member | member
        · exact first (fun k member => leaves k (List.mem_append_left _ member)) c member
        · have star : c = '*' := by simpa using member
          rw [star]
          exact signs _ (by decide)
      · exact second (fun k member => leaves k (List.mem_append_right _ member)) c member
  | signed negative operand induction =>
      intro c member
      rcases List.mem_cons.mp member with rfl | member
      · cases negative <;> exact signs _ (by decide)
      · exact induction leaves c member
  | binary op left right first second =>
      intro c member
      rcases List.mem_append.mp member with member | member
      · rcases List.mem_append.mp member with member | member
        · exact first (fun k member => leaves k (List.mem_append_left _ member)) c member
        · cases op with
          | floordiv => exact divides c member
          | _ =>
              simp [Operator.symbol] at member
              subst member
              exact signs _ (by decide)
      · exact second (fun k member => leaves k (List.mem_append_right _ member)) c member
  | tighter operand induction => exact induction leaves

theorem doubleSlashes_append (first second : Text) :
    doubleSlashes (first ++ second) = doubleSlashes first ++ doubleSlashes second :=
  List.flatMap_append

theorem doubleSlashes_word {word : Text} (inside : ∀ c ∈ word, isWord c = true) :
    doubleSlashes word = word := by
  induction word with
  | nil => rfl
  | cons c word induction =>
      have other : c ≠ '/' := by
        rintro rfl
        exact absurd (inside '/' List.mem_cons_self) (by decide)
      rw [doubleSlashes, List.flatMap_cons, if_neg other]
      exact congrArg (c :: ·) (induction fun d member => inside d (List.mem_cons_of_mem c member))

theorem doubleSlashes_render (expression : Expression κ level)
    (words : ∀ k ∈ expression.leaves, ∀ c ∈ leaf k, isWord c = true) :
    doubleSlashes (expression.render leaf ['/']) = expression.render leaf ['/', '/'] := by
  induction expression with
  | leaf k => exact doubleSlashes_word (words k (List.mem_singleton_self k))
  | group inner induction =>
      rw [Expression.render, doubleSlashes_append, ← List.singleton_append, doubleSlashes_append,
        induction words]
      rfl
  | power base exponent first second =>
      rw [Expression.render, doubleSlashes_append, doubleSlashes_append,
        first fun k member => words k (List.mem_append_left _ member),
        second fun k member => words k (List.mem_append_right _ member)]
      rfl
  | signed negative operand induction =>
      rw [Expression.render, ← List.singleton_append, doubleSlashes_append, induction words]
      cases negative <;> rfl
  | binary op left right first second =>
      rw [Expression.render, doubleSlashes_append, doubleSlashes_append,
        first fun k member => words k (List.mem_append_left _ member),
        second fun k member => words k (List.mem_append_right _ member)]
      cases op <;> rfl
  | tighter operand induction => exact induction words

end Texts

/-! The text of an expression. -/

section Documented

variable {getreg : Text → Except ε Nat}

theorem converted_word (operand : Operand) :
    substituteHexadecimals operand.text ≠ [] ∧
      ∀ c ∈ substituteHexadecimals operand.text, isWord c = true :=
  substituteHexadecimals_word operand.text_word.1 operand.text_word.2

theorem substituteHexadecimals_text (expression : Documented) :
    substituteHexadecimals expression.text =
      expression.render (fun k => substituteHexadecimals k.text) ['/'] := by
  have replaced := @run_render Unit Operand 1 (fun text => .ok (substituteHexadecimals text))
    Operand.text (fun k => substituteHexadecimals k.text)
    (fun c rest sign => congrArg Except.ok (substituteHexadecimals_sign rest sign)) expression
    (fun k _ rest ends => congrArg Except.ok (substituteHexadecimals_append ends)) [] ends_nil
  rw [List.append_nil] at replaced
  exact (Except.ok.inj replaced).trans (List.append_nil _)

theorem substituteRegisters_text {expression : Documented}
    (found : ∀ k ∈ expression.leaves, k.Found getreg) :
    substituteRegisters getreg (substituteHexadecimals expression.text) =
      .ok (expression.render (Operand.numeral (Operand.number getreg)) ['/']) := by
  have replaced := @run_render (Failed ε) Operand 1 (substituteRegisters getreg)
    (fun k => substituteHexadecimals k.text) (Operand.numeral (Operand.number getreg))
    substituteRegisters_sign expression (fun k member rest ends => by
      obtain ⟨_, here⟩ | ⟨missing, _⟩ := k.substituteRegisters_operand
      · rw [substituteRegisters_append ends, here]
        rfl
      · exact absurd (found k member) missing) [] ends_nil
  rw [List.append_nil] at replaced
  rw [substituteHexadecimals_text, replaced]
  exact congrArg Except.ok (List.append_nil _)

theorem found_of_substituteRegisters {expression : Documented} {replaced : Text}
    (done : substituteRegisters getreg (substituteHexadecimals expression.text) = .ok replaced) :
    ∀ k ∈ expression.leaves, k.Found getreg := by
  rw [substituteHexadecimals_text] at done
  have sign {c : Char} {rest : Text} (single : isWord c = false)
      (reads : ∃ replaced, substituteRegisters getreg (c :: rest) = .ok replaced) :
      ∃ replaced, substituteRegisters getreg rest = .ok replaced := by
    obtain ⟨_, reads⟩ := reads
    rw [substituteRegisters_sign c rest single] at reads
    cases after : substituteRegisters getreg rest with
    | ok replaced => exact ⟨replaced, rfl⟩
    | error _ =>
        rw [after] at reads
        cases reads
  have signs {word rest : Text} (single : ∀ c ∈ word, isWord c = false)
      (reads : ∃ replaced, substituteRegisters getreg (word ++ rest) = .ok replaced) :
      ∃ replaced, substituteRegisters getreg rest = .ok replaced := by
    induction word with
    | nil => exact reads
    | cons c word induction =>
        exact induction (fun d member => single d (List.mem_cons_of_mem c member))
          (sign (single c List.mem_cons_self) reads)
  refine (@reads_render Operand (fun text => ∃ replaced, substituteRegisters getreg text =
    .ok replaced) (fun k => k.Found getreg) (fun k => substituteHexadecimals k.text) ['/'] ?_
    converted_word ?_ ?_ ?_ (List.cons_ne_nil _ _) (by simp) 1 expression [] ends_nil
    ⟨replaced, by rwa [List.append_nil]⟩).1
  · rintro k rest ends ⟨_, reads⟩
    rw [substituteRegisters_append ends] at reads
    obtain ⟨found, here⟩ | ⟨_, _, here⟩ :
        (k.Found getreg ∧ substituteRegisters getreg (substituteHexadecimals k.text) =
            .ok (k.numeral (Operand.number getreg))) ∨
          ¬ k.Found getreg ∧ ∃ failed,
            substituteRegisters getreg (substituteHexadecimals k.text) = .error failed :=
      k.substituteRegisters_operand
    · rw [here] at reads
      cases after : substituteRegisters getreg rest with
      | ok replaced => exact ⟨found, replaced, rfl⟩
      | error _ =>
          rw [after] at reads
          cases reads
    · rw [here] at reads
      cases reads
  · intro c rest member
    refine sign ?_
    simp only [List.mem_cons, List.not_mem_nil, or_false] at member
    rcases member with rfl | rfl | rfl | rfl <;> decide
  · intro rest
    exact signs not_word_stars
  · intro op c rest _
    exact signs fun d member => not_word_symbol op (by simp) member

theorem exprRegex_render (number : Operand → Nat) (expression : Documented) :
    exprRegex (expression.render (Operand.numeral number) ['/']) = true := by
  obtain ⟨c, rest, equal, _⟩ :
      ∃ c rest, expression.render (Operand.numeral number) ['/'] = c :: rest ∧ Begins c :=
    render_begins expression fun k _ => ⟨(k.numeral_digits number).1,
      fun c member => isWord_of_isDigit ((k.numeral_digits number).2 c member)⟩
  have all : ∀ c ∈ expression.render (Operand.numeral number) ['/'], isExpressionChar c = true := by
    refine render_all expression (by simp [isExpressionChar]) (by simp [isExpressionChar])
      fun k _ c member => ?_
    simp [isExpressionChar, (k.numeral_digits number).2 c member]
  rw [exprRegex, List.all_eq_true.mpr all, equal]
  rfl

theorem space_not_mem_text (expression : Documented) : ' ' ∉ expression.text := by
  have all : ∀ c ∈ expression.text, c ≠ ' ' := by
    refine render_all expression (by simp) (by simp) fun k _ c member => ?_
    rintro rfl
    exact absurd (k.text_word.2 ' ' member) (by decide)
  exact fun member => all ' ' member rfl

theorem Operand.found_of_reading {operand : Operand} (known : (operand.reading getreg).isSome) :
    operand.Found getreg := by
  cases operand with
  | decimal digits nonempty all => trivial
  | hexadecimal digits nonempty all => trivial
  | register letter rest letters nonempty all =>
      rw [Operand.reading] at known
      rw [Operand.Found]
      cases read : getreg (substituteHexadecimals (letter :: rest)) with
      | ok value => exact ⟨value, rfl⟩
      | error _ =>
          rw [read] at known
          cases known

theorem mapError_eq_ok {result : Except Exception (Value F)} {value : Value F} :
    (result.mapError .python : Except (Failed ε) (Value F)) = .ok value ↔ result = .ok value := by
  cases result <;> simp [Except.mapError]

theorem mapError_eq_valueError {result : Except Exception (Value F)} {error : Exception} :
    (result.mapError .python : Except (Failed ε) (Value F)) = .error (.python error) ↔
      result = .error error := by
  cases result <;> simp [Except.mapError]

theorem mapError_ne_getreg {result : Except Exception (Value F)} {error : ε} :
    (result.mapError .python : Except (Failed ε) (Value F)) ≠ .error (.getreg error) := by
  cases result <;> simp [Except.mapError]

/-- For an expression, `parseExpression` gives an integer exactly if that is the value for the
numbers that Python reads and the machine takes every operand. -/
theorem parseExpression_text {machine : Machine F} {text : Text} {expression : Documented}
    (written : lower (strip text) = expression.text) {value : Int} :
    parseExpression machine getreg text = .ok (.int value) ↔
      expression.value (Operand.reading getreg) = some value ∧
        expression.Within (Operand.reading getreg) machine.maxsize := by
  have no_space : ' ' ∉ strip text := by
    intro member
    refine space_not_mem_text expression ?_
    rw [← written]
    exact List.mem_map.mpr ⟨' ', member, by decide⟩
  rw [parseExpression, if_neg no_space, written]
  cases substituted : substituteRegisters getreg (substituteHexadecimals expression.text) with
  | error failed =>
      refine iff_of_false (fun done => by cases done) fun meant => ?_
      have known := known_of_value expression meant.1
      rw [substituteRegisters_text fun k member => Operand.found_of_reading (known k member)]
        at substituted
      cases substituted
  | ok replaced =>
      have found := found_of_substituteRegisters substituted
      rw [substituteRegisters_text found] at substituted
      obtain rfl := Except.ok.inj substituted
      have words : ∀ k, Operand.numeral (Operand.number getreg) k ≠ [] ∧
          ∀ c ∈ Operand.numeral (Operand.number getreg) k, isWord c = true := fun k =>
        ⟨(k.numeral_digits _).1,
          fun c member => isWord_of_isDigit ((k.numeral_digits _).2 c member)⟩
      have doubled := doubleSlashes_render expression fun k _ => (words k).2
      have valid := exprRegex_render (Operand.number getreg) expression
      have read : ∀ k ∈ expression.leaves, literal (k.numeral (Operand.number getreg)) =
          k.reading getreg := fun k member => Operand.literal_numeral (found k member)
      change (if exprRegex (expression.render _ ['/']) = false then _ else _) = _ ↔ _
      rw [valid, if_neg (by decide : ¬ true = false), doubled]
      by_cases known : ∀ k ∈ expression.leaves, (k.reading getreg).isSome
      case pos =>
        have numbers : ∀ k ∈ expression.leaves,
            k.reading getreg = some (Operand.number getreg k) := by
          intro k member
          obtain ⟨number, here⟩ := Option.isSome_iff_exists.mp (known k member)
          rw [Operand.number, here]
          rfl
        rw [compile_render expression (fun k _ => words k)
          fun k member => (read k member).trans (numbers k member)]
        exact mapError_eq_ok.trans (evaluate_tree_iff expression numbers)
      case neg =>
        refine iff_of_false (fun done => known fun k member => ?_)
          fun meant => known (known_of_value expression meant.1)
        rw [← read k member]
        refine known_of_compile expression words ?_ k member
        cases compiled : compile literal
            (expression.render (Operand.numeral (Operand.number getreg)) ['/', '/']) with
        | some _ => rfl
        | none =>
            rw [compiled] at done
            cases done

/-! The value that a text has. -/

/-- The number that a word of a text stands for. -/
def wordValue (getreg : Text → Except ε Nat) (word : Text) : Option Nat :=
  if word.all Char.isDigit then some (Nat.ofDigitChars 10 word 0)
  else if word.take 2 = ['0', 'x'] then some (intHexadecimal (word.drop 2))
  else (getreg word).toOption

theorem Operand.wordValue_text (operand : Operand) :
    wordValue getreg operand.text = operand.value getreg := by
  cases operand with
  | decimal digits nonempty all => exact if_pos (List.all_eq_true.mpr all)
  | hexadecimal digits nonempty all =>
      have other : ¬ ('0' :: 'x' :: digits).all Char.isDigit = true := by simp [Char.isDigit]
      exact (if_neg other).trans (if_pos rfl)
  | register letter rest letters nonempty all =>
      have other : ¬ (letter :: rest).all Char.isDigit = true := by
        intro digits
        have digit := List.all_eq_true.mp digits letter List.mem_cons_self
        exact Bool.false_ne_true ((isLower_of_isDigit digit).symm.trans letters)
      have no_number : ¬ (letter :: rest).take 2 = ['0', 'x'] := by
        intro equal
        have first : letter = '0' := (List.cons.inj equal).1
        rw [first] at letters
        exact absurd letters (by decide)
      exact (if_neg other).trans (if_neg no_number)

/-- The expressions of one text have one value. -/
theorem value_eq_of_text {first second : Documented} (same : first.text = second.text) :
    first.value (Operand.value getreg) = second.value (Operand.value getreg) := by
  have compiled (expression : Documented) :
      compile some (doubleSlashes expression.text) = some (expression.tree Operand.text) := by
    rw [Documented.text, doubleSlashes_render expression fun k _ => k.text_word.2]
    exact compile_render expression (fun k _ => k.text_word) fun _ _ => rfl
  have trees := (compiled first).symm.trans ((congrArg _ (congrArg _ same)).trans (compiled second))
  have values := congrArg (Tree.value (wordValue getreg)) (Option.some.inj trees)
  rw [value_tree, value_tree] at values
  simpa only [Operand.wordValue_text] using values

end Documented

section Exactness

variable {machine : Machine F} {getreg : Text → Except ε Nat} {text : Text}

/-- `parseExpression` raises a `ValueError` or the error of an unknown register exactly for the
texts that are refused. -/
theorem parseExpression_refused :
    (parseExpression machine getreg text = .error (.python .valueError) ∨
      ∃ name error, getreg name = .error error ∧
        parseExpression machine getreg text = .error (.getreg error)) ↔
      Refused machine getreg text := by
  unfold Refused parseExpression
  by_cases space : ' ' ∈ strip text
  · simp [space]
  rw [if_neg space]
  cases substituted :
      substituteRegisters getreg (substituteHexadecimals (lower (strip text))) with
  | error failed =>
      obtain ⟨name, member, error, unknown, rfl⟩ := readRegisters_error substituted
      refine iff_of_true (.inr ⟨name, error, unknown, rfl⟩) ?_
      exact .inr (.inl ⟨name, member, error, unknown⟩)
  | ok replaced =>
      have known : ¬ ∃ name, .inr name ∈ pieces registerRegex 0
          (substituteHexadecimals (lower (strip text))) ∧ ∃ error, getreg name = .error error := by
        rintro ⟨name, member, error, unknown⟩
        obtain ⟨value, known⟩ := readRegisters_known substituted member
        cases unknown.symm.trans known
      have only {P : Text → Prop} : (∃ other, (Except.ok replaced : Except (Failed ε) Text) =
          .ok other ∧ P other) ↔ P replaced := by
        simp
      rw [or_iff_right space, or_iff_right known, only]
      simp only [bind, Except.bind]
      by_cases valid : exprRegex replaced = false
      · simp [valid]
      rw [if_neg valid, or_iff_right valid]
      cases compiled : compile literal (doubleSlashes replaced) with
      | none => simp
      | some tree => simp [mapError_eq_valueError, evaluate_eq_valueError, mapError_ne_getreg]

/-- `parseExpression` does what its documentation says for a text exactly if the text is an
expression that Python reads as it is meant, or has no value and is refused. -/
theorem parseExpression_exact_iff :
    Exact machine getreg text ↔
      ReadAsMeant machine getreg text ∨
        (∀ value, ¬ HasValue getreg text value) ∧ Refused machine getreg text := by
  constructor
  · rintro ⟨returns, raises⟩
    by_cases has : ∃ value, HasValue getreg text value
    · obtain ⟨value, expression, written, holds⟩ := has
      have done := returns value ⟨expression, written, holds⟩
      obtain ⟨read, within⟩ := (parseExpression_text written).mp done
      exact .inl ⟨expression, value, written, holds, read, within⟩
    · have none_has := not_exists.mp has
      exact .inr ⟨none_has, parseExpression_refused.mp (raises none_has)⟩
  · rintro (⟨expression, value, written, holds, read, within⟩ | ⟨none_has, refused⟩)
    · refine ⟨fun other has => ?_, fun none_has => absurd ⟨expression, written, holds⟩
        (none_has value)⟩
      obtain ⟨expression', written', holds'⟩ := has
      have same : expression.value (Operand.value getreg) =
          expression'.value (Operand.value getreg) := value_eq_of_text (written.symm.trans written')
      rw [holds, holds'] at same
      obtain rfl := Option.some.inj same
      exact (parseExpression_text written).mpr ⟨read, within⟩
    · exact ⟨fun value has => absurd has (none_has value),
        fun _ => parseExpression_refused.mpr refused⟩

end Exactness

/-- A machine of integers only, with 64 bits. -/
def integers : Machine Empty where
  maxsize := 2 ^ 63 - 1
  ofInt _ := none
  negate x := x
  arithmetic _ _ _ := none
  power x _ := x.elim
  compare _ _ _ := false

/-- The process of the documentation. -/
def fakeGetreg (name : Text) : Except String Nat :=
  if name = ['e', 'a', 'x'] then .ok 3 else .error "Unknown register"

example : parseExpression integers fakeGetreg ['e', 'a', 'x', '*', '0', 'x', '1', '0'] =
    .ok (.int 48) := rfl

def oneByZero : Documented :=
  .tighter (.tighter (.tighter (.binary .floordiv
    (.tighter (.tighter (.leaf (.decimal ['1'] (List.cons_ne_nil _ _)
      (List.forall_mem_singleton.mpr rfl)))))
    (.tighter (.leaf (.decimal ['0'] (List.cons_ne_nil _ _)
      (List.forall_mem_singleton.mpr rfl)))))))

/-- A division by zero is raised as it is, and a number that begins with 0 is octal. -/
theorem parseExpression_not_exact :
    ¬ Exact integers fakeGetreg ['1', '/', '0'] ∧ ¬ Exact integers fakeGetreg ['0', '1', '0'] := by
  constructor
  · rintro ⟨_, raises⟩
    have none_has : ∀ value, ¬ HasValue fakeGetreg ['1', '/', '0'] value := by
      rintro value ⟨expression, written, holds⟩
      have text : oneByZero.text = expression.text := written
      have none_holds : oneByZero.value (Operand.value fakeGetreg) = none := rfl
      rw [value_eq_of_text text, holds] at none_holds
      cases none_holds
    have computed : parseExpression integers fakeGetreg ['1', '/', '0'] =
      .error (.python .zeroDivisionError) := rfl
    rcases raises none_has with done | ⟨_, _, _, done⟩ <;>
    · rw [computed] at done
      cases done
  · rintro ⟨returns, _⟩
    have ten : ∀ c ∈ ['0', '1', '0'], c.isDigit = true := by
      simp [Char.isDigit]
    have done := returns 10 ⟨.tighter (.tighter (.tighter (.tighter (.tighter
      (.leaf (.decimal ['0', '1', '0'] (List.cons_ne_nil _ _) ten)))))), rfl, rfl⟩
    have computed : parseExpression integers fakeGetreg ['0', '1', '0'] = .ok (.int 8) := rfl
    rw [computed] at done
    cases done

end Segvault.Ptrace
