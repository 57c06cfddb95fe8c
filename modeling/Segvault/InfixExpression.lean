import Segvault.PythonExpression

/-! # Infix expressions

The expressions that are written with leaves of any kind, signs, binary operators and
parentheses, each construct at its level of precedence: how they are written, how Python reads
what is written, and what it evaluates to. -/

namespace Segvault.PythonExpression

variable {κ α F : Type}

/-- An expression of a level has operands of that level on the left and of the next level on the
right. The exponent of a power may have a sign. -/
inductive Expression (κ : Type) : Nat → Type
  | leaf (content : κ) : Expression κ 6
  | group (inner : Expression κ 1) : Expression κ 6
  | power (base : Expression κ 6) (exponent : Expression κ 5) : Expression κ 5
  | signed (negative : Bool) (operand : Expression κ 5) : Expression κ 5
  | binary (op : Operator) (left : Expression κ op.level)
      (right : Expression κ (op.level + 1)) : Expression κ op.level
  | tighter {level : Nat} (operand : Expression κ (level + 1)) : Expression κ level

/-- How an operator is written, for a way to write the division. -/
def Operator.symbol (divide : Text) : Operator → Text
  | .amper => ['&']
  | .lshift => ['<', '<']
  | .rshift => ['>', '>']
  | .plus => ['+']
  | .minus => ['-']
  | .times => ['*']
  | .floordiv => divide

def signOf (negative : Bool) : Char := if negative then '-' else '+'

namespace Expression

def render (leaf : κ → Text) (divide : Text) {level : Nat} : Expression κ level → Text
  | .leaf content => leaf content
  | .group inner => '(' :: inner.render leaf divide ++ [')']
  | .power base exponent =>
      base.render leaf divide ++ ['*', '*'] ++ exponent.render leaf divide
  | .signed negative operand => signOf negative :: operand.render leaf divide
  | .binary op left right =>
      left.render leaf divide ++ op.symbol divide ++ right.render leaf divide
  | .tighter operand => operand.render leaf divide

def leaves {level : Nat} : Expression κ level → List κ
  | .leaf content => [content]
  | .group inner => inner.leaves
  | .power base exponent => base.leaves ++ exponent.leaves
  | .signed _ operand => operand.leaves
  | .binary _ left right => left.leaves ++ right.leaves
  | .tighter operand => operand.leaves

def tokens (read : κ → α) {level : Nat} : Expression κ level → List (Token α)
  | .leaf content => [.word (read content)]
  | .group inner => .opening :: inner.tokens read ++ [.closing]
  | .power base exponent => base.tokens read ++ .power :: exponent.tokens read
  | .signed negative operand =>
      .operator (if negative then .minus else .plus) :: operand.tokens read
  | .binary op left right => left.tokens read ++ .operator op :: right.tokens read
  | .tighter operand => operand.tokens read

def tree (read : κ → α) {level : Nat} : Expression κ level → Tree α
  | .leaf content => .word (read content)
  | .group inner => inner.tree read
  | .power base exponent => .power (base.tree read) (exponent.tree read)
  | .signed negative operand => .signed negative (operand.tree read)
  | .binary op left right => .binary op (left.tree read) (right.tree read)
  | .tighter operand => operand.tree read

end Expression

/-! ## Parsing the tokens of an expression -/

section Parsing

/-- The construct on top of the stack binds less tightly than a level. -/
def Below (level : Nat) (stack : List (Frame α)) : Prop :=
  ∀ frame ∈ stack.head?, ∀ own ∈ frame.level, own < level

theorem settle_of_below {level : Nat} {stack : List (Frame α)} (below : Below level stack)
    (operand : Tree α) : settle level stack operand = (stack, operand) := by
  cases stack with
  | nil => rfl
  | cons frame stack =>
      cases own : frame.level with
      | none => simp [settle, own]
      | some level' =>
          have less : level' < level := below frame rfl level' own
          simp [settle, own, Nat.not_le.mpr less]

theorem settle_frame {level own : Nat} {frame : Frame α} (has : frame.level = some own)
    (at_least : level ≤ own) (stack : List (Frame α)) (operand : Tree α) :
    settle level (frame :: stack) operand = settle level stack (frame.complete operand) := by
  simp [settle, has, at_least]

/-- Nothing binds more tightly than signs and powers. -/
theorem below_six (stack : List (Frame α)) : Below 6 stack := by
  intro frame _ own has
  cases frame with
  | left op _ =>
      cases op <;> cases has <;> decide
  | _ => cases has <;> decide

/-- The parser reads an expression as an operand, which is the tree of the expression once the
constructs of its level are complete. -/
theorem parse_tokens {level : Nat} (read : κ → α) (expression : Expression κ level)
    (stack : List (Frame α)) (rest : List (Token α)) (below : level ≤ 4 → Below level stack) :
    ∃ inner operand,
      parse none stack (expression.tokens read ++ rest) = parse (some operand) inner rest ∧
        ∀ lower ≤ level,
          settle lower inner operand = settle lower stack (expression.tree read) := by
  induction expression generalizing stack rest with
  | leaf content => exact ⟨stack, .word (read content), rfl, fun _ _ => rfl⟩
  | group expression induction =>
      obtain ⟨inner, operand, parsed, settled⟩ := induction (.opening :: stack)
        (.closing :: rest) (fun _ frame member own has => by
          obtain rfl := Option.some.inj member
          cases has)
      refine ⟨stack, expression.tree read, ?_, fun _ _ => rfl⟩
      have ended : settle 0 inner operand = (.opening :: stack, expression.tree read) :=
        settled 0 (by decide)
      calc parse none stack ((Expression.group expression).tokens read ++ rest)
          = parse none (.opening :: stack) (expression.tokens read ++ .closing :: rest) := by
            simp [Expression.tokens, parse]
        _ = parse (some operand) inner (.closing :: rest) := parsed
        _ = parse (some (expression.tree read)) stack rest := by simp [parse, ended]
  | power base exponent first second =>
      obtain ⟨inner, operand, parsed, settled⟩ := first stack
        (.power :: (exponent.tokens read ++ rest)) (fun bound => absurd bound (by decide))
      have same := settled 6 (le_refl 6)
      rw [settle_of_below (below_six inner), settle_of_below (below_six stack)] at same
      cases same
      obtain ⟨inner, operand, parsed', settled'⟩ := second (.base (base.tree read) :: stack)
        rest (fun bound => absurd bound (by decide))
      refine ⟨inner, operand, ?_, fun lower bound => ?_⟩
      · rw [Expression.tokens, List.append_assoc, List.cons_append, parsed, ← parsed']
        rfl
      · rw [settled' lower bound, settle_frame rfl bound]
        rfl
  | signed negative expression induction =>
      obtain ⟨inner, operand, parsed, settled⟩ := induction (.sign negative :: stack) rest
        (fun bound => absurd bound (by decide))
      refine ⟨inner, operand, ?_, fun lower bound => ?_⟩
      · rw [← parsed, Expression.tokens, List.cons_append]
        cases negative <;> simp [parse]
      · rw [settled lower bound, settle_frame rfl bound]
        rfl
  | binary op left right first second =>
      have low : op.level ≤ 4 := by cases op <;> decide
      obtain ⟨inner, operand, parsed, settled⟩ := first stack
        (.operator op :: (right.tokens read ++ rest)) below
      have same := settled op.level (le_refl _)
      rw [settle_of_below (below low)] at same
      obtain ⟨inner', operand', parsed', settled'⟩ := second
        (.left op (left.tree read) :: stack) rest (fun _ frame member own has => by
          obtain rfl := Option.some.inj member
          cases has
          exact Nat.lt_succ_self _)
      refine ⟨inner', operand', ?_, fun lower bound => ?_⟩
      · rw [Expression.tokens, List.append_assoc, List.cons_append, parsed, ← parsed', parse, same]
      · rw [settled' lower (Nat.le_succ_of_le bound), settle_frame rfl bound]
        rfl
  | tighter expression induction =>
      obtain ⟨inner, operand, parsed, settled⟩ := induction stack rest (fun bound frame member
        own has => Nat.lt_succ_of_lt (below (Nat.le_of_succ_le bound) frame member own has))
      exact ⟨inner, operand, parsed, fun lower bound => settled lower (Nat.le_succ_of_le bound)⟩

theorem parse_expression {level : Nat} (read : κ → α) (expression : Expression κ level) :
    parse none [] (expression.tokens read) = some (expression.tree read) := by
  obtain ⟨inner, operand, parsed, settled⟩ := parse_tokens read expression [] []
    (fun _ frame member => by cases member)
  rw [List.append_nil] at parsed
  have ended : settle 0 inner operand = ([], expression.tree read) :=
    settled 0 (Nat.zero_le level)
  simp [parsed, parse, ended]

end Parsing

/-! ## Reading the text of an expression -/

section Reading

/-- A word ends where the text goes on. -/
def Ends (rest : Text) : Prop := ∀ c ∈ rest.head?, isWord c = false

theorem ends_nil : Ends [] := fun _ member => by cases member

theorem ends_sign {c : Char} (sign : isWord c = false) (rest : Text) : Ends (c :: rest) := by
  intro d member
  obtain rfl := Option.some.inj member
  exact sign

theorem takeWhile_word {word rest : Text} (inside : ∀ c ∈ word, isWord c = true)
    (ends : Ends rest) : (word ++ rest).takeWhile isWord = word := by
  rw [List.takeWhile_append_of_pos inside]
  cases rest with
  | nil => simp
  | cons c rest => simp [ends c rfl]

theorem tokenize_skip (read : Text → Option α) (skipped rest : Text) :
    tokenize read skipped.length (skipped ++ rest) = tokenize read 0 rest := by
  induction skipped with
  | nil => rfl
  | cons c skipped induction => exact induction

theorem tokenize_word {read : Text → Option α} {word rest : Text} {content : α}
    (nonempty : word ≠ []) (inside : ∀ c ∈ word, isWord c = true) (known : read word = some content)
    (ends : Ends rest) :
    tokenize read 0 (word ++ rest) = (tokenize read 0 rest).map (.word content :: ·) := by
  cases word with
  | nil => exact absurd rfl nonempty
  | cons c word =>
      have whole := takeWhile_word (fun d member => inside d (List.mem_cons_of_mem c member)) ends
      rw [List.cons_append, tokenize, if_pos (inside c List.mem_cons_self), whole,
        tokenize_skip read, known]
      cases tokenize read 0 rest <;> rfl

/-- What an expression can begin with. -/
def Begins (c : Char) : Prop := isWord c = true ∨ c = '(' ∨ c = '+' ∨ c = '-'

theorem Begins.ne {c : Char} (begins : Begins c) : c ≠ '*' ∧ c ≠ '/' ∧ c ≠ '<' ∧ c ≠ '>' := by
  refine ⟨?_, ?_, ?_, ?_⟩ <;> (rintro rfl; revert begins; unfold Begins; decide)

theorem render_begins {leaf : κ → Text} {divide : Text} {level : Nat}
    (expression : Expression κ level)
    (words : ∀ content ∈ expression.leaves,
      leaf content ≠ [] ∧ ∀ c ∈ leaf content, isWord c = true) :
    ∃ c rest, expression.render leaf divide = c :: rest ∧ Begins c := by
  induction expression with
  | leaf content =>
      obtain ⟨nonempty, inside⟩ := words content (List.mem_singleton_self content)
      obtain ⟨c, rest, equal⟩ := List.exists_cons_of_ne_nil nonempty
      exact ⟨c, rest, equal, .inl (inside c (by rw [equal]; exact List.mem_cons_self))⟩
  | group inner _ => exact ⟨'(', _, rfl, .inr (.inl rfl)⟩
  | power base exponent induction _ =>
      obtain ⟨c, rest, equal, begins⟩ := induction fun content member =>
        words content (List.mem_append_left _ member)
      refine ⟨c, rest ++ '*' :: '*' :: exponent.render leaf divide, ?_, begins⟩
      simp [Expression.render, equal]
  | signed negative operand _ =>
      refine ⟨signOf negative, _, rfl, ?_⟩
      cases negative
      · exact .inr (.inr (.inl rfl))
      · exact .inr (.inr (.inr rfl))
  | binary op left right induction _ =>
      obtain ⟨c, rest, equal, begins⟩ := induction fun content member =>
        words content (List.mem_append_left _ member)
      refine ⟨c, rest ++ (op.symbol divide ++ right.render leaf divide), ?_, begins⟩
      simp [Expression.render, equal]
  | tighter operand induction => exact induction words

/-- A sign that is one token alone. -/
theorem tokenize_sign {read : Text → Option α} {c : Char} {rest : Text} {token : Token α}
    (single : isWord c = false) (known : sign c rest.head? = some (token, 0)) :
    tokenize read 0 (c :: rest) = (tokenize read 0 rest).map (token :: ·) := by
  rw [tokenize, if_neg (by simp [single]), known]
  exact (Option.map_eq_bind ..).symm

theorem tokenize_sign_two {read : Text → Option α} {c d : Char} {rest : Text} {token : Token α}
    (single : isWord c = false) (known : sign c (some d) = some (token, 1)) :
    tokenize read 0 (c :: d :: rest) = (tokenize read 0 rest).map (token :: ·) := by
  rw [tokenize, if_neg (by simp [single]), List.head?_cons, known]
  exact (Option.map_eq_bind ..).symm

theorem tokenize_operator {read : Text → Option α} (op : Operator) {c : Char} {rest : Text}
    (begins : Begins c) :
    tokenize read 0 (op.symbol ['/', '/'] ++ c :: rest) =
      (tokenize read 0 (c :: rest)).map (.operator op :: ·) := by
  obtain ⟨star, slash, less, greater⟩ := begins.ne
  cases op with
  | amper => exact tokenize_sign rfl rfl
  | lshift => exact tokenize_sign_two rfl rfl
  | rshift => exact tokenize_sign_two rfl rfl
  | plus => exact tokenize_sign rfl rfl
  | minus => exact tokenize_sign rfl rfl
  | times => exact tokenize_sign rfl (by simp [sign, star])
  | floordiv => exact tokenize_sign_two rfl rfl

theorem not_word_stars : ∀ c ∈ ['*', '*'], isWord c = false :=
  List.forall_mem_cons.mpr ⟨rfl, List.forall_mem_singleton.mpr rfl⟩

theorem not_word_symbol (op : Operator) {divide : Text} (signs : ∀ c ∈ divide, c = '/') {c : Char}
    (member : c ∈ op.symbol divide) : isWord c = false := by
  cases op with
  | floordiv =>
      rw [signs c member]
      decide
  | _ =>
      simp [Operator.symbol] at member
      subst member
      decide

theorem ends_symbol (op : Operator) {divide : Text} (nonempty : divide ≠ [])
    (signs : ∀ c ∈ divide, c = '/') (rest : Text) : Ends (op.symbol divide ++ rest) := by
  intro c member
  refine not_word_symbol op signs (List.mem_of_mem_head? ?_)
  have some_symbol : op.symbol divide ≠ [] := by
    cases op with
    | floordiv => exact nonempty
    | _ => exact List.cons_ne_nil _ _
  obtain ⟨d, symbol, equal⟩ := List.exists_cons_of_ne_nil some_symbol
  rw [equal] at member ⊢
  exact member

/-- The text of an expression is read as its tokens, if its leaves are words. -/
theorem tokenize_render {leaf : κ → Text} {read : Text → Option α} {content : κ → α} {level : Nat}
    (expression : Expression κ level)
    (words : ∀ k ∈ expression.leaves, leaf k ≠ [] ∧ ∀ c ∈ leaf k, isWord c = true)
    (known : ∀ k ∈ expression.leaves, read (leaf k) = some (content k)) {rest : Text}
    (ends : Ends rest) :
    tokenize read 0 (expression.render leaf ['/', '/'] ++ rest) =
      (tokenize read 0 rest).map (expression.tokens content ++ ·) := by
  induction expression generalizing rest with
  | leaf k =>
      have member := List.mem_singleton_self k
      exact tokenize_word (words k member).1 (words k member).2 (known k member) ends
  | group inner induction =>
      have closing : Ends (')' :: rest) := ends_sign rfl rest
      rw [Expression.render, List.append_assoc, List.cons_append,
        tokenize_sign rfl rfl, List.singleton_append, induction words known closing,
        tokenize_sign rfl rfl]
      cases tokenize read 0 rest <;> simp [Expression.tokens]
  | power base exponent first second =>
      have stars : Ends ('*' :: '*' :: (exponent.render leaf ['/', '/'] ++ rest)) :=
        ends_sign rfl _
      have before := first (fun k member => words k (List.mem_append_left _ member))
        (fun k member => known k (List.mem_append_left _ member)) stars
      have after := second (fun k member => words k (List.mem_append_right _ member))
        (fun k member => known k (List.mem_append_right _ member)) ends
      rw [Expression.render, List.append_assoc, List.append_assoc]
      rw [List.cons_append, List.cons_append, List.nil_append, before,
        tokenize_sign_two rfl rfl, after]
      cases tokenize read 0 rest <;> simp [Expression.tokens]
  | signed negative operand induction =>
      have token : sign (signOf negative) (operand.render leaf ['/', '/'] ++ rest).head? =
          some (.operator (α := α) (if negative then .minus else .plus), 0) := by
        cases negative <;> rfl
      rw [Expression.render, List.cons_append,
        tokenize_sign (by cases negative <;> rfl) token, induction words known ends]
      cases tokenize read 0 rest <;> simp [Expression.tokens]
  | binary op left right first second =>
      have slashes : ∀ c ∈ ['/', '/'], c = '/' := by simp
      have before := first (fun k member => words k (List.mem_append_left _ member))
        (fun k member => known k (List.mem_append_left _ member))
        (ends_symbol op (List.cons_ne_nil _ _) slashes (right.render leaf ['/', '/'] ++ rest))
      have after := second (fun k member => words k (List.mem_append_right _ member))
        (fun k member => known k (List.mem_append_right _ member)) ends
      obtain ⟨c, tail, equal, begins⟩ :
          ∃ c tail, right.render leaf ['/', '/'] = c :: tail ∧ Begins c :=
        render_begins right fun k member => words k (List.mem_append_right _ member)
      rw [Expression.render, List.append_assoc, List.append_assoc, before, equal, List.cons_append,
        tokenize_operator op begins, ← List.cons_append, ← equal, after]
      cases tokenize read 0 rest <;> simp [Expression.tokens]
  | tighter operand induction => exact induction words known ends

theorem compile_render {leaf : κ → Text} {read : Text → Option α} {content : κ → α} {level : Nat}
    (expression : Expression κ level)
    (words : ∀ k ∈ expression.leaves, leaf k ≠ [] ∧ ∀ c ∈ leaf k, isWord c = true)
    (known : ∀ k ∈ expression.leaves, read (leaf k) = some (content k)) :
    compile read (expression.render leaf ['/', '/']) = some (expression.tree content) := by
  have tokens := tokenize_render expression words known ends_nil
  rw [List.append_nil] at tokens
  rw [compile, tokens]
  simpa [tokenize] using parse_expression content expression

/-- If what can be read stays so after an operand or a sign is read, every operand of an
expression that can be read is known. -/
theorem reads_render {Reads : Text → Prop} {known : κ → Prop} {leaf : κ → Text} {divide : Text}
    (leaves : ∀ k rest, Ends rest → Reads (leaf k ++ rest) → known k ∧ Reads rest)
    (words : ∀ k, leaf k ≠ [] ∧ ∀ c ∈ leaf k, isWord c = true)
    (signs : ∀ c rest, c ∈ ['(', ')', '+', '-'] → Reads (c :: rest) → Reads rest)
    (stars : ∀ rest, Reads ('*' :: '*' :: rest) → Reads rest)
    (symbols : ∀ (op : Operator) c rest, Begins c →
      Reads (op.symbol divide ++ c :: rest) → Reads (c :: rest))
    (nonempty : divide ≠ []) (slashes : ∀ c ∈ divide, c = '/') {level : Nat}
    (expression : Expression κ level) {rest : Text} (ends : Ends rest)
    (reads : Reads (expression.render leaf divide ++ rest)) :
    (∀ k ∈ expression.leaves, known k) ∧ Reads rest := by
  induction expression generalizing rest with
  | leaf k =>
      obtain ⟨here, reads⟩ := leaves k rest ends reads
      refine ⟨fun other member => ?_, reads⟩
      rw [List.mem_singleton.mp member]
      exact here
  | group inner induction =>
      have closing : Ends (')' :: rest) := ends_sign rfl rest
      rw [Expression.render, List.append_assoc, List.cons_append] at reads
      obtain ⟨all, reads⟩ := induction closing (signs _ _ (by decide) reads)
      exact ⟨all, signs _ _ (by decide) reads⟩
  | power base exponent first second =>
      have star : Ends ('*' :: '*' :: (exponent.render leaf divide ++ rest)) :=
        ends_sign rfl _
      rw [Expression.render, List.append_assoc, List.append_assoc] at reads
      obtain ⟨before, reads⟩ := first star reads
      obtain ⟨after, reads⟩ := second ends (stars _ reads)
      refine ⟨fun k member => ?_, reads⟩
      exact (List.mem_append.mp member).elim (before k) (after k)
  | signed negative operand induction =>
      refine induction ends (signs (signOf negative) _ ?_ reads)
      cases negative <;> decide
  | binary op left right first second =>
      obtain ⟨c, tail, equal, begins⟩ :
          ∃ c tail, right.render leaf divide = c :: tail ∧ Begins c :=
        render_begins right fun k _ => words k
      rw [Expression.render, List.append_assoc, List.append_assoc] at reads
      obtain ⟨before, reads⟩ := first (ends_symbol op nonempty slashes _) reads
      rw [equal, List.cons_append] at reads
      have reads := symbols op c _ begins reads
      rw [← List.cons_append, ← equal] at reads
      obtain ⟨after, reads⟩ := second ends reads
      refine ⟨fun k member => ?_, reads⟩
      exact (List.mem_append.mp member).elim (before k) (after k)
  | tighter operand induction => exact induction ends reads

/-- Every leaf of an expression that Python reads is one that it reads. -/
theorem known_of_compile {leaf : κ → Text} {read : Text → Option α} {level : Nat}
    (expression : Expression κ level)
    (words : ∀ k, leaf k ≠ [] ∧ ∀ c ∈ leaf k, isWord c = true)
    (compiled : (compile read (expression.render leaf ['/', '/'])).isSome) :
    ∀ k ∈ expression.leaves, (read (leaf k)).isSome := by
  have tokens : (tokenize read 0 (expression.render leaf ['/', '/'] ++ [])).isSome := by
    rw [List.append_nil]
    cases tokens : tokenize read 0 (expression.render leaf ['/', '/']) with
    | some _ => rfl
    | none =>
        rw [compile, tokens] at compiled
        cases compiled
  refine (@reads_render κ (fun rest => (tokenize read 0 rest).isSome) _ leaf ['/', '/'] ?_ words
    ?_ ?_ ?_ (List.cons_ne_nil _ _) (by simp) level expression [] ends_nil tokens).1
  · intro k rest ends reads
    cases here : read (leaf k) with
    | some content =>
        rw [tokenize_word (words k).1 (words k).2 here ends, Option.isSome_map] at reads
        exact ⟨rfl, reads⟩
    | none =>
        obtain ⟨c, word, equal⟩ := List.exists_cons_of_ne_nil (words k).1
        have inside := (words k).2
        rw [equal] at inside here reads
        have whole := takeWhile_word
          (fun d member => inside d (List.mem_cons_of_mem c member)) ends
        rw [List.cons_append, tokenize, if_pos (inside c List.mem_cons_self), whole, here] at reads
        cases reads
  · intro c rest sign reads
    simp only [List.mem_cons, List.not_mem_nil, or_false] at sign
    rcases sign with rfl | rfl | rfl | rfl <;>
      rwa [tokenize_sign rfl rfl, Option.isSome_map] at reads
  · intro rest reads
    rwa [tokenize_sign_two rfl rfl, Option.isSome_map] at reads
  · intro op c rest begins reads
    rwa [tokenize_operator op begins, Option.isSome_map] at reads

end Reading

/-! ## The value of an expression -/

section Values

/-- The integer an operation means, if there is one. -/
def Operator.meaning (left right : Int) : Operator → Option Int
  | .amper => some (Int.land left right)
  | .lshift => if right < 0 then none else some (left * 2 ^ right.toNat)
  | .rshift => if right < 0 then none else some (left.fdiv (2 ^ right.toNat))
  | .plus => some (left + right)
  | .minus => some (left - right)
  | .times => some (left * right)
  | .floordiv => if right = 0 then none else some (left.fdiv right)

/-- The integer an expression means, if there is one. -/
def Expression.value (number : κ → Option Nat) {level : Nat} : Expression κ level → Option Int
  | .leaf content => (number content).map Int.ofNat
  | .group inner => inner.value number
  | .power base exponent => do
      let base ← base.value number
      let exponent ← exponent.value number
      if exponent < 0 then none else some (base ^ exponent.toNat)
  | .signed negative operand =>
      (operand.value number).map fun value => if negative then -value else value
  | .binary op left right => do
      let left ← left.value number
      let right ← right.value number
      op.meaning left right
  | .tighter operand => operand.value number

/-- The same for the tree that is read. -/
def Tree.value (number : α → Option Nat) : Tree α → Option Int
  | .word content => (number content).map Int.ofNat
  | .signed negative operand =>
      (operand.value number).map fun value => if negative then -value else value
  | .binary op left right => do
      let left ← left.value number
      let right ← right.value number
      op.meaning left right
  | .power base exponent => do
      let base ← base.value number
      let exponent ← exponent.value number
      if exponent < 0 then none else some (base ^ exponent.toNat)
  | _ => none

theorem value_tree {number : α → Option Nat} {content : κ → α} {level : Nat}
    (expression : Expression κ level) :
    (expression.tree content).value number = expression.value fun k => number (content k) := by
  induction expression with
  | leaf _ => rfl
  | group inner induction => exact induction
  | power base exponent first second =>
      simp only [Expression.tree, Tree.value, Expression.value, first, second]
  | signed negative operand induction =>
      simp only [Expression.tree, Tree.value, Expression.value, induction]
  | binary op left right first second =>
      simp only [Expression.tree, Tree.value, Expression.value, first, second]
  | tighter operand induction => exact induction

/-- An expression has a value only if its leaves have. -/
theorem known_of_value {number : κ → Option Nat} {level : Nat} (expression : Expression κ level)
    {value : Int} (holds : expression.value number = some value) :
    ∀ k ∈ expression.leaves, (number k).isSome := by
  induction expression generalizing value with
  | leaf k =>
      intro other member
      rw [List.mem_singleton.mp member]
      obtain ⟨_, known, _⟩ := Option.map_eq_some_iff.mp holds
      rw [known]
      rfl
  | group inner induction => exact induction holds
  | power base exponent first second =>
      obtain ⟨left, left_holds, holds⟩ := Option.bind_eq_some_iff.mp holds
      obtain ⟨right, right_holds, _⟩ := Option.bind_eq_some_iff.mp holds
      intro k member
      exact (List.mem_append.mp member).elim (first left_holds k) (second right_holds k)
  | signed negative operand induction =>
      obtain ⟨_, operand_holds, _⟩ := Option.map_eq_some_iff.mp holds
      exact induction operand_holds
  | binary op left right first second =>
      obtain ⟨_, left_holds, holds⟩ := Option.bind_eq_some_iff.mp holds
      obtain ⟨_, right_holds, _⟩ := Option.bind_eq_some_iff.mp holds
      intro k member
      exact (List.mem_append.mp member).elim (first left_holds k) (second right_holds k)
  | tighter operand induction => exact induction holds

/-- The right operand of an operator is one that the machine takes: no divisor is zero, and the
count of a shift is not greater than an object can be. -/
def Operator.Takes (maxsize : Nat) (right : Int) : Operator → Prop
  | .lshift | .rshift => right ≤ maxsize ∧ -(maxsize : Int) - 1 ≤ right
  | .floordiv => right ≠ 0
  | _ => True

/-- The machine takes the operands of every operation that is reached. -/
def Expression.Within (number : κ → Option Nat) (maxsize : Nat) {level : Nat} :
    Expression κ level → Prop
  | .leaf _ => True
  | .group inner => inner.Within number maxsize
  | .power base exponent =>
      base.Within number maxsize ∧ ((base.value number).isSome →
        exponent.Within number maxsize ∧ ∀ count ∈ exponent.value number, 0 ≤ count)
  | .signed _ operand => operand.Within number maxsize
  | .binary op left right =>
      left.Within number maxsize ∧ ((left.value number).isSome →
        right.Within number maxsize ∧ ∀ operand ∈ right.value number, op.Takes maxsize operand)
  | .tighter operand => operand.Within number maxsize

/-- What an evaluation gives where the only operations without a meaning are negative shifts. -/
def outcome : Option Int → Except Exception (Value F)
  | some value => .ok (.int value)
  | none => .error .valueError

theorem onInts_takes {machine : Machine F} {op : Operator} {left right : Int}
    (takes : op.Takes machine.maxsize right) :
    (op.onInts machine left right).map .int = outcome (F := F) (op.meaning left right) := by
  cases op with
  | lshift | rshift =>
      obtain ⟨above, below⟩ := takes
      have fits : ¬ ((machine.maxsize : Int) < right ∨ right < -(machine.maxsize : Int) - 1) := by
        omega
      rw [Operator.onInts, shiftCount, if_neg fits, Operator.meaning]
      split <;> rfl
  | floordiv =>
      rw [Operator.onInts, if_neg takes, Operator.meaning, if_neg takes]
      rfl
  | _ => rfl

theorem apply_ints {machine : Machine F} (op : Operator) (left right : Int) :
    op.apply machine (.int left) (.int right) = (op.onInts machine left right).map .int := by
  cases op <;> rfl

/-- Where the machine takes every operand that is reached, evaluating an expression gives its
value, or a `ValueError` if there is none. -/
theorem evaluate_tree {machine : Machine F} {number : κ → Option Nat} {content : κ → Nat}
    {level : Nat} (expression : Expression κ level)
    (known : ∀ k ∈ expression.leaves, number k = some (content k))
    (within : expression.Within number machine.maxsize) :
    evaluate machine (expression.tree content) = outcome (expression.value number) := by
  induction expression with
  | leaf k =>
      rw [Expression.value, known k (List.mem_singleton_self k)]
      rfl
  | group inner induction => exact induction known within
  | power base exponent first second =>
      obtain ⟨before, after⟩ := within
      have known' := fun k member => known k (List.mem_append_right _ member)
      rw [Expression.tree, evaluate,
        first (fun k member => known k (List.mem_append_left _ member)) before, Expression.value]
      cases left : base.value number with
      | none => rfl
      | some left' =>
          obtain ⟨within, positive⟩ := after (by rw [left]; rfl)
          simp only [outcome, Option.bind_eq_bind, Option.bind_some]
          rw [second known' within]
          cases right : exponent.value number with
          | none => rfl
          | some count =>
              have bound := positive count right
              have raised : raise machine (.int left') (.int count) =
                  .ok (.int (left' ^ count.toNat)) := if_pos bound
              rw [Option.bind_some, if_neg (Int.not_lt.mpr bound)]
              exact raised
  | signed negative operand induction =>
      rw [Expression.tree, evaluate, induction known within, Expression.value]
      cases operand.value number <;> rfl
  | binary op left right first second =>
      obtain ⟨before, after⟩ := within
      have known' := fun k member => known k (List.mem_append_right _ member)
      rw [Expression.tree, evaluate,
        first (fun k member => known k (List.mem_append_left _ member)) before, Expression.value]
      cases value : left.value number with
      | none => rfl
      | some left' =>
          obtain ⟨within, takes⟩ := after (by rw [value]; rfl)
          simp only [outcome, Option.bind_eq_bind, Option.bind_some]
          rw [second known' within]
          cases other : right.value number with
          | none => rfl
          | some right' =>
              have taken : (op.onInts machine left' right').map .int =
                  outcome (F := F) (op.meaning left' right') := onInts_takes (takes right' other)
              rw [Option.bind_some]
              exact (apply_ints op left' right').trans taken
  | tighter operand induction => exact induction known within

theorem bind_eq_ok {β γ : Type} {first : Except Exception γ} {next : γ → Except Exception β}
    {result : β} (done : (first >>= next) = .ok result) :
    ∃ value, first = .ok value ∧ next value = .ok result := by
  cases first with
  | ok value => exact ⟨value, rfl, done⟩
  | error _ => cases done

theorem arithmetic_float {machine : Machine F} {op : Operator} {first second : Int ⊕ F}
    {result : Value F}
    (done : (do
      let first ← machine.toFloat first
      let second ← machine.toFloat second
      (machine.arithmetic op first second).elim (.error .zeroDivisionError)
        fun value => Except.ok (Value.float value)) = .ok result) :
    ∃ x, result = .float x := by
  obtain ⟨x, _, done⟩ := bind_eq_ok done
  obtain ⟨y, _, done⟩ := bind_eq_ok done
  cases value : machine.arithmetic op x y with
  | none =>
      rw [value] at done
      cases done
  | some value' =>
      rw [value] at done
      exact ⟨value', (Except.ok.inj done).symm⟩

theorem powerOfFloats_float {machine : Machine F} {base exponent : Int ⊕ F} {result : Value F}
    (done : powerOfFloats machine base exponent = .ok result) : ∃ x, result = .float x := by
  obtain ⟨x, _, done⟩ := bind_eq_ok done
  obtain ⟨y, _, done⟩ := bind_eq_ok done
  cases value : machine.power x y with
  | error _ =>
      rw [value] at done
      cases done
  | ok value' =>
      rw [value] at done
      exact ⟨value', (Except.ok.inj done).symm⟩

/-- A number: what an expression without comparisons and calls evaluates to. -/
def Value.IsNumber (value : Value F) : Prop := (∃ n, value = .int n) ∨ ∃ x, value = .float x

theorem apply_numbers {machine : Machine F} {op : Operator} {left right : Value F}
    {result : Value F} (done : op.apply machine left right = .ok result) (first : left.IsNumber)
    (second : right.IsNumber) :
    (∃ m n, left = .int m ∧ right = .int n) ∨ ∃ x, result = .float x := by
  rcases first with ⟨m, rfl⟩ | ⟨x, rfl⟩ <;> rcases second with ⟨n, rfl⟩ | ⟨y, rfl⟩
  · exact .inl ⟨m, n, rfl, rfl⟩
  all_goals
    refine .inr ?_
    cases op with
    | amper | lshift | rshift => cases done
    | plus | minus | times | floordiv => exact arithmetic_float done

theorem raise_numbers {machine : Machine F} {base exponent result : Value F}
    (done : raise machine base exponent = .ok result) (first : base.IsNumber)
    (second : exponent.IsNumber) :
    (∃ m n, base = .int m ∧ exponent = .int n ∧ 0 ≤ n ∧ result = .int (m ^ n.toNat)) ∨
      ∃ x, result = .float x := by
  rcases first with ⟨m, rfl⟩ | ⟨x, rfl⟩ <;> rcases second with ⟨n, rfl⟩ | ⟨y, rfl⟩
  · by_cases positive : 0 ≤ n
    · have raised : raise machine (.int m) (.int n) = .ok (.int (m ^ n.toNat)) := if_pos positive
      exact .inl ⟨m, n, rfl, rfl, positive, Except.ok.inj (done.symm.trans raised)⟩
    · have raised : raise machine (.int m) (.int n) =
          powerOfFloats machine (.inl m) (.inl n) := if_neg positive
      exact .inr (powerOfFloats_float (raised.symm.trans done))
  all_goals exact .inr (powerOfFloats_float done)

theorem onInts_ok {machine : Machine F} {op : Operator} {left right value : Int}
    (done : op.onInts machine left right = .ok value) :
    op.meaning left right = some value ∧ op.Takes machine.maxsize right := by
  cases op with
  | lshift | rshift =>
      rw [Operator.onInts, shiftCount] at done
      split at done
      case isTrue => cases done
      case isFalse fits =>
        split at done
        case isTrue => cases done
        case isFalse positive =>
          cases done
          exact ⟨if_neg positive, by constructor <;> omega⟩
  | floordiv =>
      rw [Operator.onInts] at done
      split at done
      case isTrue => cases done
      case isFalse nonzero =>
        cases done
        exact ⟨if_neg nonzero, nonzero⟩
  | amper | plus | minus | times =>
      cases done
      exact ⟨rfl, trivial⟩

/-- An evaluation that succeeds gives the value of the expression, or a floating-point number. -/
theorem evaluate_tree_ok {machine : Machine F} {number : κ → Option Nat} {content : κ → Nat}
    {level : Nat} (expression : Expression κ level)
    (known : ∀ k ∈ expression.leaves, number k = some (content k)) {result : Value F}
    (done : evaluate machine (expression.tree content) = .ok result) :
    (∃ value, result = .int value ∧ expression.value number = some value ∧
        expression.Within number machine.maxsize) ∨ ∃ x, result = .float x := by
  have isNumber {level : Nat} {expression : Expression κ level} {result : Value F}
      (either : (∃ value, result = .int value ∧ expression.value number = some value ∧
        expression.Within number machine.maxsize) ∨ ∃ x, result = .float x) :
      result.IsNumber := by
    obtain ⟨value, same, _⟩ | float := either
    · exact .inl ⟨value, same⟩
    · exact .inr float
  induction expression generalizing result with
  | leaf k =>
      refine .inl ⟨content k, (Except.ok.inj done).symm, ?_, trivial⟩
      rw [Expression.value, known k (List.mem_singleton_self k)]
      rfl
  | group inner induction => exact induction known done
  | power base exponent first second =>
      obtain ⟨left, left_done, done⟩ := bind_eq_ok done
      obtain ⟨right, right_done, done⟩ := bind_eq_ok done
      have before := first (fun k member => known k (List.mem_append_left _ member)) left_done
      have after := second (fun k member => known k (List.mem_append_right _ member)) right_done
      rcases raise_numbers done (isNumber before) (isNumber after) with
        ⟨m, n, rfl, rfl, positive, rfl⟩ | float
      · obtain ⟨_, same, value, within⟩ | ⟨_, same⟩ := before <;> cases same
        obtain ⟨_, same, value', within'⟩ | ⟨_, same⟩ := after <;> cases same
        refine .inl ⟨_, rfl, ?_, within, fun _ => ⟨within', fun count member => ?_⟩⟩
        · rw [Expression.value, value, value']
          exact if_neg (Int.not_lt.mpr positive)
        · rw [value'] at member
          cases member
          exact positive
      · exact .inr float
  | signed negative operand induction =>
      obtain ⟨value, operand_done, done⟩ := bind_eq_ok done
      obtain ⟨n, rfl, value, within⟩ | ⟨x, rfl⟩ := induction known operand_done
      · refine .inl ⟨_, (Except.ok.inj done).symm, ?_, within⟩
        rw [Expression.value, value]
        rfl
      · exact .inr ⟨_, (Except.ok.inj done).symm⟩
  | binary op left right first second =>
      obtain ⟨left', left_done, done⟩ := bind_eq_ok done
      obtain ⟨right', right_done, done⟩ := bind_eq_ok done
      have before := first (fun k member => known k (List.mem_append_left _ member)) left_done
      have after := second (fun k member => known k (List.mem_append_right _ member)) right_done
      rcases apply_numbers done (isNumber before) (isNumber after) with ⟨m, n, rfl, rfl⟩ | float
      · obtain ⟨_, same, value, within⟩ | ⟨_, same⟩ := before <;> cases same
        obtain ⟨_, same, value', within'⟩ | ⟨_, same⟩ := after <;> cases same
        rw [apply_ints] at done
        cases ints : op.onInts machine m n with
        | error _ =>
            rw [ints] at done
            cases done
        | ok result' =>
            rw [ints] at done
            obtain ⟨meaning, takes⟩ := onInts_ok ints
            refine .inl ⟨result', (Except.ok.inj done).symm, ?_, within,
              fun _ => ⟨within', fun operand member => ?_⟩⟩
            · rw [Expression.value, value, value']
              exact meaning
            · rw [value'] at member
              cases member
              exact takes
      · exact .inr float
  | tighter operand induction => exact induction known done

/-- Python evaluates an expression to an integer exactly if that is its value and the machine
takes every operand. -/
theorem evaluate_tree_iff {machine : Machine F} {number : κ → Option Nat} {content : κ → Nat}
    {level : Nat} (expression : Expression κ level)
    (known : ∀ k ∈ expression.leaves, number k = some (content k)) {value : Int} :
    evaluate machine (expression.tree content) = .ok (.int value) ↔
      expression.value number = some value ∧ expression.Within number machine.maxsize := by
  constructor
  · intro done
    obtain ⟨_, same, holds⟩ | ⟨_, same⟩ := evaluate_tree_ok expression known done <;> cases same
    exact holds
  · rintro ⟨holds, within⟩
    rw [evaluate_tree expression known within, holds]
    rfl

end Values

end Segvault.PythonExpression
