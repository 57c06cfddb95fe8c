import Segvault.PythonString

namespace Segvault.StringExpression

open PythonString

/-! The expressions of Python 2 that are sums of products of strings, numbers and names. -/

inductive Value
  | string (unicode : Bool) (codes : List Nat)
  | number (value : Nat)
  deriving DecidableEq

/-- A byte string in a sum with a unicode string has to be ASCII. -/
def Value.add : Value → Value → Option Value
  | .string unicode first, .string unicode' second =>
      if unicode = unicode' then some (.string unicode (first ++ second))
      else if (if unicode then second else first).all fun code => decide (code < 128) then
        some (.string true (first ++ second))
      else none
  | .number first, .number second => some (.number (first + second))
  | _, _ => none

def Value.mul : Value → Value → Option Value
  | .string unicode codes, .number times =>
      some (.string unicode (List.replicate times codes).flatten)
  | .number times, .string unicode codes =>
      some (.string unicode (List.replicate times codes).flatten)
  | .number first, .number second => some (.number (first * second))
  | .string _ _, .string _ _ => none

/-! Tokens. -/

inductive Token
  | operand (value : Value)
  | name (word : Text)
  | plus
  | times
  deriving DecidableEq

def isWord (symbol : Char) : Bool := symbol.isAlphanum || symbol == '_'

/-- A decimal number. The numbers of Python that begin with a zero, that have a fraction, an
exponent or a suffix are not modelled. -/
def readNumber (digits : Text) : Option Token :=
  if digits.all Char.isDigit ∧ (digits.head? ≠ some '0' ∨ digits.length = 1) then
    some (.operand (.number (Nat.ofDigitChars 10 digits 0)))
  else none

/-- The token that begins with a character, if that is no space, and how many characters more
it has. -/
def next (symbol : Char) (rest : Text) : Option (Option Token × Nat) :=
  if symbol = ' ' then some (none, 0)
  else if symbol = '+' then some (some .plus, 0)
  else if symbol = '*' then some (some .times, 0)
  else if symbol = '\'' ∨ symbol = '"' then
    (readBody false symbol 0 rest).map fun (codes, count) =>
      (some (.operand (.string false codes)), count)
  else if symbol = 'u' ∧ (rest.head? = some '\'' ∨ rest.head? = some '"') then
    (readBody true (rest.headD ' ') 0 rest.tail).map fun (codes, count) =>
      (some (.operand (.string true codes)), count + 1)
  else if isWord symbol then do
    let word := symbol :: rest.takeWhile isWord
    let token ← if symbol.isDigit then readNumber word else some (.name word)
    some (some token, word.length - 1)
  else none

/-- The tokens of a text, of which the first characters are skipped. -/
def tokenize : Nat → Text → Option (List Token)
  | _, [] => some []
  | skip + 1, _ :: rest => tokenize skip rest
  | 0, symbol :: rest => do
      let (token, more) ← next symbol rest
      let tokens ← tokenize more rest
      some (token.toList ++ tokens)

/-! The value. -/

def operand (names : Text → Option Value) : Token → Option Value
  | .operand value => some value
  | .name word => names word
  | _ => none

def addTo : Option Value → Value → Option Value
  | none, value => some value
  | some sum, value => sum.add value

/-- The sum of the products that are complete, and the product that is not. -/
def operands (names : Text → Option Value) :
    Option Value → Value → List Token → Option Value
  | sum, product, [] => addTo sum product
  | sum, product, .times :: token :: rest => do
      let value ← operand names token
      let product ← product.mul value
      operands names sum product rest
  | sum, product, .plus :: token :: rest => do
      let sum ← addTo sum product
      let value ← operand names token
      operands names (some sum) value rest
  | _, _, _ => none

/-- The value of an expression, or none if there is none or the text is no expression. -/
def evaluate (names : Text → Option Value) (text : Text) : Option Value := do
  let tokens ← tokenize 0 text
  match tokens with
  | [] => none
  | token :: rest => do
      let first ← operand names token
      operands names none first rest

/-! What a text adds to the tokens of the text after it. -/

def Ends (rest : Text) : Prop := ∀ symbol ∈ rest.head?, isWord symbol = false

theorem ends_nil : Ends [] := fun _ absent => absurd absent (by simp)

theorem ends_space (rest : Text) : Ends (' ' :: rest) := by
  intro symbol same
  obtain rfl := Option.mem_some_iff.mp same
  rfl

def Yields (text : Text) (tokens : List Token) : Prop :=
  ∀ rest, Ends rest → tokenize 0 (text ++ rest) = (tokenize 0 rest).map (tokens ++ ·)

theorem tokenize_skip (front rest : Text) :
    tokenize front.length (front ++ rest) = tokenize 0 rest := by
  induction front with
  | nil => rfl
  | cons symbol front induction => exact induction

theorem tokenize_next {symbol : Char} {tail rest : Text} {token : Option Token}
    (read : next symbol (tail ++ rest) = some (token, tail.length)) :
    tokenize 0 (symbol :: tail ++ rest) = (tokenize 0 rest).map (token.toList ++ ·) := by
  rw [List.cons_append, tokenize, read]
  simp only [Option.bind_eq_bind, Option.bind_some, tokenize_skip]
  cases tokenize 0 rest <;> rfl

theorem tokenize_space (rest : Text) : tokenize 0 (' ' :: rest) = tokenize 0 rest := by
  have skipped := @tokenize_next ' ' [] rest none rfl
  rw [List.cons_append, List.nil_append] at skipped
  rw [skipped]
  cases tokenize 0 rest <;> rfl

/-- Two texts with a sign between them. -/
theorem Yields.sign {first second : Text} {tokens others : List Token} {sign : Char}
    {token : Token} (yields : Yields first tokens)
    (read : ∀ rest, next sign rest = some (some token, 0)) (yieldsToo : Yields second others) :
    Yields (first ++ [' ', sign, ' '] ++ second) (tokens ++ token :: others) := by
  intro rest ends
  have signed := @tokenize_next sign [] (' ' :: (second ++ rest)) (some token) (read _)
  rw [List.cons_append, List.nil_append] at signed
  have between : first ++ [' ', sign, ' '] ++ second ++ rest =
      first ++ ' ' :: sign :: ' ' :: (second ++ rest) := by simp
  rw [between, yields _ (ends_space _), tokenize_space, signed, tokenize_space,
    yieldsToo rest ends, Option.map_map, Option.map_map]
  congr 1
  funext tail
  simp

theorem takeWhile_word {word rest : Text} (inside : ∀ symbol ∈ word, isWord symbol = true)
    (ends : Ends rest) : (word ++ rest).takeWhile isWord = word := by
  rw [List.takeWhile_append_of_pos inside]
  cases rest with
  | nil => simp
  | cons symbol rest =>
      rw [List.takeWhile_cons_of_neg (by rw [ends symbol rfl]; simp), List.append_nil]

theorem yields_name {symbol : Char} {tail : Text} (word : isWord symbol = true)
    (notDigit : symbol.isDigit = false) (other : symbol ∉ [' ', '+', '*', '\'', '"', 'u'])
    (inside : ∀ other ∈ tail, isWord other = true) :
    Yields (symbol :: tail) [.name (symbol :: tail)] := by
  intro rest ends
  simp only [List.mem_cons, List.not_mem_nil, or_false, not_or] at other
  obtain ⟨space, plus, times, single, double, notU⟩ := other
  have read : next symbol (tail ++ rest) = some (some (.name (symbol :: tail)), tail.length) := by
    rw [next, if_neg space, if_neg plus, if_neg times,
      if_neg (not_or.mpr ⟨single, double⟩), if_neg (fun both => notU both.1), if_pos word,
      takeWhile_word inside ends]
    simp [notDigit]
  exact tokenize_next read

theorem head_toDigits {number : Nat} (positive : 0 < number) :
    (Nat.toDigits 10 number).head? ≠ some '0' := by
  induction number using Nat.strongRecOn with
  | ind number induction =>
      rw [Nat.toDigits_eq_if (by decide)]
      split
      · rename_i small
        interval_cases number <;> decide
      · have shorter := induction (number / 10) (by omega) (by omega)
        cases digits : Nat.toDigits 10 (number / 10) with
        | nil => exact absurd digits Nat.toDigits_ne_nil
        | cons first others =>
            rw [digits] at shorter
            simpa using shorter

theorem yields_number {number : Nat} (positive : 0 < number) :
    Yields (Nat.toDigits 10 number) [.operand (.number number)] := by
  intro rest ends
  have digit (symbol : Char) (member : symbol ∈ Nat.toDigits 10 number) :
      symbol.isDigit = true :=
    Nat.isDigit_of_mem_toDigits (by decide) (by decide) member
  have word (symbol : Char) (member : symbol ∈ Nat.toDigits 10 number) :
      isWord symbol = true := by
    simp [isWord, Char.isAlphanum, digit symbol member]
  have value := @Nat.ofDigitChars_ten_toDigits number
  have leading := head_toDigits positive
  cases digits : Nat.toDigits 10 number with
  | nil => exact absurd digits Nat.toDigits_ne_nil
  | cons symbol tail =>
      rw [digits] at digit word value leading
      have first := digit symbol List.mem_cons_self
      have plain {other : Char} (notDigit : other.isDigit = false) : symbol ≠ other := by
        rintro rfl
        rw [first] at notDigit
        cases notDigit
      have whole : readNumber (symbol :: tail) = some (.operand (.number number)) := by
        rw [readNumber, if_pos ⟨List.all_eq_true.mpr digit, .inl leading⟩, value]
      have read : next symbol (tail ++ rest) =
          some (some (.operand (.number number)), tail.length) := by
        rw [next, if_neg (plain rfl), if_neg (plain rfl), if_neg (plain rfl),
          if_neg (not_or.mpr ⟨plain rfl, plain rfl⟩), if_neg (fun both => plain rfl both.1),
          if_pos (word symbol List.mem_cons_self),
          takeWhile_word (fun other member => word other (List.mem_cons_of_mem _ member)) ends,
          if_pos first, whole]
        simp
      exact tokenize_next read

theorem yields_repr {unicode : Bool} {codes : List Nat}
    (valid : ∀ code ∈ codes, code < bound unicode) :
    Yields (reprString unicode codes) [.operand (.string unicode codes)] := by
  have either : quoteOf codes = '\'' ∨ quoteOf codes = '"' := by
    unfold quoteOf
    split
    · exact .inr rfl
    · exact .inl rfl
  intro rest _
  have body := readBody_codes either valid rest
  cases unicode with
  | false =>
      have read := @tokenize_next (quoteOf codes)
        (codes.flatMap (escape (quoteOf codes)) ++ [quoteOf codes]) rest
        (some (.operand (.string false codes)))
      rw [reprString, if_neg (by decide), List.nil_append]
      refine read ?_
      have nothing : quoteOf codes ≠ ' ' ∧ quoteOf codes ≠ '+' ∧ quoteOf codes ≠ '*' := by
        rcases either with same | same <;> rw [same] <;> decide
      rw [next, if_neg nothing.1, if_neg nothing.2.1, if_neg nothing.2.2, if_pos either,
        List.append_assoc, List.singleton_append, body]
      simp
  | true =>
      have read := @tokenize_next 'u'
        (quoteOf codes :: (codes.flatMap (escape (quoteOf codes)) ++ [quoteOf codes])) rest
        (some (.operand (.string true codes)))
      rw [reprString, if_pos rfl, List.singleton_append]
      refine read ?_
      rw [next, if_neg (by decide), if_neg (by decide), if_neg (by decide), if_neg (by decide),
        if_pos ⟨rfl, by simpa using either⟩, List.cons_append, List.headD_cons, List.tail_cons,
        List.append_assoc, List.singleton_append, body]
      simp

/-! Sums of names, of literals and of repeated literals. -/

inductive Term
  | name (word : Text)
  | literal (codes : List Nat)
  | repeated (code count : Nat)

def Term.text (unicode : Bool) : Term → Text
  | .name word => word
  | .literal codes => reprString unicode codes
  | .repeated code count =>
      reprString unicode [code] ++ [' ', '*', ' '] ++ Nat.toDigits 10 count

/-- The codes of a term, where all names are those of one string. -/
def Term.codes (named : List Nat) : Term → List Nat
  | .name _ => named
  | .literal codes => codes
  | .repeated code count => List.replicate count code

def Term.first (unicode : Bool) : Term → Token
  | .name word => .name word
  | .literal codes => .operand (.string unicode codes)
  | .repeated code _ => .operand (.string unicode [code])

def Term.more : Term → List Token
  | .repeated _ count => [.times, .operand (.number count)]
  | _ => []

/-- A word that is read as a name, and has a certain value. -/
structure Named (names : Text → Option Value) (value : Value) (word : Text) : Prop where
  known : names word = some value
  read : Yields word [.name word]

def Term.Readable (unicode : Bool) (names : Text → Option Value) (named : List Nat) :
    Term → Prop
  | .name word => Named names (.string unicode named) word
  | .literal codes => ∀ code ∈ codes, code < bound unicode
  | .repeated code count => code < bound unicode ∧ 0 < count

section Terms

variable {unicode : Bool} {names : Text → Option Value} {named : List Nat}

theorem Term.yields {term : Term} (readable : term.Readable unicode names named) :
    Yields (term.text unicode) (term.first unicode :: term.more) := by
  cases term with
  | name word => exact readable.read
  | literal codes => exact yields_repr readable
  | repeated code count =>
      have character : Yields (reprString unicode [code]) [.operand (.string unicode [code])] :=
        yields_repr (by simpa using readable.1)
      exact character.sign (fun _ => rfl) (yields_number readable.2)

theorem operands_more {term : Term} (readable : term.Readable unicode names named)
    (sum : Option Value) (tokens : List Token) :
    ∃ first, operand names (term.first unicode) = some first ∧
      operands names sum first (term.more ++ tokens) =
        operands names sum (.string unicode (term.codes named)) tokens := by
  cases term with
  | name word => exact ⟨_, readable.known, rfl⟩
  | literal codes => exact ⟨_, rfl, rfl⟩
  | repeated code count =>
      refine ⟨_, rfl, ?_⟩
      have product : Value.mul (.string unicode [code]) (.number count) =
          some (.string unicode (List.replicate count code)) := by
        simp [Value.mul]
      rw [Term.more, List.cons_append, List.cons_append, List.nil_append, operands, operand]
      simp only [Option.bind_eq_bind, Option.bind_some, product]
      rfl

/-- The terms of a sum, after the first one. -/
def restTokens (unicode : Bool) (terms : List Term) : List Token :=
  terms.flatMap fun term => .plus :: term.first unicode :: term.more

theorem operands_terms {terms : List Term}
    (readable : ∀ term ∈ terms, term.Readable unicode names named) (sum : Option (List Nat))
    (codes : List Nat) :
    operands names (sum.map (.string unicode)) (.string unicode codes)
        (restTokens unicode terms) =
      some (.string unicode (sum.getD [] ++ codes ++ terms.flatMap (Term.codes named))) := by
  induction terms generalizing sum codes with
  | nil => cases sum <;> simp [restTokens, operands, addTo, Value.add]
  | cons term terms induction =>
      have here := readable term List.mem_cons_self
      have total : addTo (sum.map (.string unicode)) (.string unicode codes) =
          some (.string unicode (sum.getD [] ++ codes)) := by
        cases sum <;> simp [addTo, Value.add]
      obtain ⟨first, known, onward⟩ := operands_more here
        (some (.string unicode (sum.getD [] ++ codes))) (restTokens unicode terms)
      have later := induction (fun other member => readable other (List.mem_cons_of_mem _ member))
        (some (sum.getD [] ++ codes)) (term.codes named)
      rw [restTokens, List.flatMap_cons, ← restTokens, List.cons_append, List.cons_append, operands,
        total, known]
      simp only [Option.bind_eq_bind, Option.bind_some]
      rw [onward]
      refine later.trans ?_
      simp

theorem yields_terms {term : Term} (terms : List Term)
    (readable : ∀ other ∈ term :: terms, other.Readable unicode names named) :
    Yields ([' ', '+', ' '].intercalate ((term :: terms).map (Term.text unicode)))
      (term.first unicode :: (term.more ++ restTokens unicode terms)) := by
  induction terms generalizing term with
  | nil =>
      have single := Term.yields (readable term List.mem_cons_self)
      simpa [restTokens] using single
  | cons second terms induction =>
      have here := Term.yields (readable term List.mem_cons_self)
      have later := @induction second fun other member =>
        readable other (List.mem_cons_of_mem _ member)
      have joined := @Yields.sign _ _ _ _ '+' .plus here (fun _ => rfl) later
      simpa [restTokens, List.intercalate, List.intersperse] using joined

/-- A sum of readable terms has the value of their codes in a row. -/
theorem evaluate_terms {terms : List Term} (nonempty : terms ≠ [])
    (readable : ∀ term ∈ terms, term.Readable unicode names named) :
    evaluate names ([' ', '+', ' '].intercalate (terms.map (Term.text unicode))) =
      some (.string unicode (terms.flatMap (Term.codes named))) := by
  cases terms with
  | nil => exact absurd rfl nonempty
  | cons term terms =>
      have read := yields_terms terms readable [] ends_nil
      obtain ⟨first, known, onward⟩ := operands_more (readable term List.mem_cons_self) none
        (restTokens unicode terms)
      have total := operands_terms (fun other member =>
        readable other (List.mem_cons_of_mem _ member)) none (term.codes named)
      rw [List.append_nil] at read
      rw [evaluate, read]
      simp only [tokenize, Option.map_some, Option.bind_eq_bind, Option.bind_some,
        List.append_nil, known, onward]
      exact total

end Terms

end Segvault.StringExpression
