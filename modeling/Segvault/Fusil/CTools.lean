import Segvault.CLiteral

namespace Segvault.Fusil

open CLiteral

/-! `quoteString`: `fusil/c_tools.py`. -/

/-- `"%02X"` -/
def hexCode (character : UInt8) : List Char :=
  [character.toNat / 16, character.toNat % 16].map fun digit =>
    if digit < 10 then Char.ofNat ('0'.toNat + digit) else Char.ofNat ('A'.toNat + digit - 10)

def quoteCharacter (character : UInt8) : List Char :=
  if character = 34 then ['\\', '"']
  else if character = 0 then ['\\', '0']
  else if character = 10 then ['\\', 'n']
  else if character = 92 then ['\\', '\\']
  else if 32 ≤ character ∧ character ≤ 127 then [Char.ofNat character.toNat]
  else '\\' :: 'x' :: hexCode character

def quoteString (text : List UInt8) : List Char :=
  '"' :: text.flatMap quoteCharacter ++ ['"']

/-! What each character becomes. -/

/-- The characters that become hexadecimal escapes. -/
def HexEscaped (character : UInt8) : Prop :=
  ¬ (32 ≤ character ∧ character ≤ 127) ∧ character ≠ 0 ∧ character ≠ 10

instance : DecidablePred HexEscaped := fun character =>
  inferInstanceAs (Decidable (¬ (32 ≤ character ∧ character ≤ 127) ∧ _))

def asChar (character : UInt8) : Char := Char.ofNat character.toNat

/-- How a character stands in the literal. -/
inductive Quoted (character : UInt8) : List Char → Prop
  | plain (notQuote : asChar character ≠ '"') (notEscape : asChar character ≠ '\\')
      (notNewline : asChar character ≠ '\n') (ascii : (asChar character).toNat = character.toNat)
      (low : character.toNat < 128) (notNull : character ≠ 0) (notHex : ¬ HexEscaped character) :
      Quoted character [asChar character]
  | simple {symbol : Char} (notOctal : octalDigit symbol = false) (notX : symbol ≠ 'x')
      (escape : simpleEscape symbol = some character) (notNull : character ≠ 0)
      (notHex : ¬ HexEscaped character) : Quoted character ['\\', symbol]
  | null (null : character = 0) : Quoted character ['\\', '0']
  | hex (escaped : HexEscaped character) : Quoted character ('\\' :: 'x' :: hexCode character)

theorem forall_character {holds : UInt8 → Prop} (all : ∀ code : Fin 256, holds (.ofNat code))
    (character : UInt8) : holds character := by
  have same := all ⟨character.toNat, UInt8.toNat_lt character⟩
  rwa [UInt8.ofNat_toNat] at same

theorem asChar_printable : ∀ character : UInt8, 32 ≤ character → character ≤ 127 →
    character ≠ 34 → character ≠ 92 →
      asChar character ≠ '"' ∧ asChar character ≠ '\\' ∧ asChar character ≠ '\n' ∧
        (asChar character).toNat = character.toNat ∧ character.toNat < 128 :=
  forall_character (by decide +kernel)

theorem quoted (character : UInt8) : Quoted character (quoteCharacter character) := by
  rw [quoteCharacter]
  split
  · rename_i quote
    rw [quote]
    exact .simple rfl (by decide) rfl (by decide) (by decide)
  · rename_i notQuote
    split
    · rename_i null
      exact .null null
    · rename_i notNull
      split
      · rename_i newline
        rw [newline]
        exact .simple rfl (by decide) rfl (by decide) (by decide)
      · rename_i notNewline
        split
        · rename_i escape
          rw [escape]
          exact .simple rfl (by decide) rfl (by decide) (by decide)
        · rename_i notEscape
          split
          · rename_i printable
            obtain ⟨quote, escape, newline, same, low⟩ :=
              asChar_printable character printable.1 printable.2 notQuote notEscape
            exact .plain quote escape newline same low notNull fun escaped => escaped.1 printable
          · rename_i other
            exact .hex ⟨other, notNull, notNewline⟩

theorem quoteCharacter_digit : ∀ character : UInt8, hexDigit (asChar character) = true →
    quoteCharacter character = [asChar character] :=
  forall_character (by decide +kernel)

/-- Digits stand for themselves, and nothing else begins with one. -/
theorem quoteCharacter_starts (character : UInt8) :
    quoteCharacter character = [asChar character] ∨
      hexDigit (asChar character) = false ∧ ∃ rest, quoteCharacter character = '\\' :: rest := by
  cases digit : hexDigit (asChar character) with
  | true => exact .inl (quoteCharacter_digit character digit)
  | false =>
      have form := quoted character
      generalize quoteCharacter character = code at form ⊢
      cases form with
      | plain => exact .inl rfl
      | simple => exact .inr ⟨rfl, _, rfl⟩
      | null => exact .inr ⟨rfl, _, rfl⟩
      | hex => exact .inr ⟨rfl, _, rfl⟩

/-! The digits that follow an escape in the literal. -/

/-- The literal after its opening quote. -/
def quotedBody (text : List UInt8) : List Char := text.flatMap quoteCharacter ++ ['"']

theorem quotedBody_cons (character : UInt8) (text : List UInt8) :
    quotedBody (character :: text) = quoteCharacter character ++ quotedBody text := by
  rw [quotedBody, List.flatMap_cons, List.append_assoc]
  rfl

section

variable {digit : Char → Bool} (digits : ∀ symbol, digit symbol = true → hexDigit symbol = true)

include digits

theorem takeWhile_quotedBody (text : List UInt8) :
    (quotedBody text).takeWhile digit =
      (text.takeWhile fun character => digit (asChar character)).map asChar := by
  have other {symbol : Char} (notHex : hexDigit symbol = false) : ¬ digit symbol = true :=
    fun isDigit => Bool.false_ne_true (notHex.symm.trans (digits symbol isDigit))
  induction text with
  | nil => exact List.takeWhile_cons_of_neg (other (by decide))
  | cons character text induction =>
      rw [quotedBody_cons]
      obtain plain | ⟨notHex, rest, escaped⟩ := quoteCharacter_starts character
      · rw [plain, List.singleton_append, List.takeWhile_cons, List.takeWhile_cons, induction]
        split <;> rfl
      · have stops : (character :: text).takeWhile (fun next => digit (asChar next)) = [] :=
          List.takeWhile_cons_of_neg (other notHex)
        rw [escaped, List.cons_append, List.takeWhile_cons_of_neg (other (by decide)), stops]
        rfl

theorem drop_quotedBody (text : List UInt8) {count : Nat}
    (within : count ≤ (text.takeWhile fun character => digit (asChar character)).length) :
    (quotedBody text).drop count = quotedBody (text.drop count) := by
  induction text generalizing count with
  | nil =>
      obtain rfl := Nat.le_zero.mp within
      rfl
  | cons character text induction =>
      cases count with
      | zero => rfl
      | succ count =>
          rw [List.takeWhile_cons] at within
          split at within
          · rename_i isDigit
            rw [quotedBody_cons, quoteCharacter_digit character (digits _ isDigit)]
            exact induction (Nat.le_of_succ_le_succ within)
          · cases within

end

/-! One character of the text is read. -/

/-- The characters after one, whose digits its escape takes. -/
def absorbed (character : UInt8) (text : List UInt8) : List UInt8 :=
  if character = 0 then (text.takeWhile fun next => octalDigit (asChar next)).take 2
  else if HexEscaped character then text.takeWhile fun next => hexDigit (asChar next)
  else []

theorem hexDigit_of_octalDigit : ∀ symbol, octalDigit symbol = true → hexDigit symbol = true := by
  intro symbol octal
  obtain ⟨low, high⟩ := of_decide_eq_true octal
  exact decide_eq_true (.inl ⟨low, Char.le_trans high (by decide)⟩)

theorem hexCode_digits : ∀ character : UInt8, (hexCode character).all hexDigit = true :=
  forall_character (by decide +kernel)

theorem byte_hexCode : ∀ character : UInt8,
    byte (ofDigits 16 (hexCode character)) = some character :=
  forall_character (by decide +kernel)

/-- An escape that takes digits after it is no longer that of its character, maybe no escape. -/
theorem body_quotedBody (character : UInt8) (text : List UInt8) :
    ∃ first, body (quotedBody (character :: text)) = first.bind (fun value =>
        (body (quotedBody (text.drop (absorbed character text).length))).map (value :: ·)) ∧
      (absorbed character text = [] → first = some character) := by
  rw [quotedBody_cons]
  have form := quoted character
  generalize quoteCharacter character = code at form ⊢
  cases form with
  | plain notQuote notEscape notNewline ascii low notNull notHex =>
      have none_ : absorbed character text = [] := by rw [absorbed, if_neg notNull, if_neg notHex]
      refine ⟨some character, ?_, fun _ => rfl⟩
      rw [none_, List.singleton_append,
        body_plain notQuote notEscape notNewline (ascii ▸ low), ascii, UInt8.ofNat_toNat]
      rfl
  | @simple symbol notOctal notX escape notNull notHex =>
      have none_ : absorbed character text = [] := by rw [absorbed, if_neg notNull, if_neg notHex]
      refine ⟨some character, ?_, fun _ => rfl⟩
      rw [none_, List.cons_append, List.singleton_append, body_escape, CLiteral.escape,
        if_neg (by rw [notOctal]; exact Bool.false_ne_true), if_neg notX, escape]
      rfl
  | null null =>
      have taken : absorbed character text =
          (text.takeWhile fun next => octalDigit (asChar next)).take 2 := if_pos null
      have digits := takeWhile_quotedBody hexDigit_of_octalDigit text
      refine ⟨byte (ofDigits 8 ('0' :: (absorbed character text).map asChar)), ?_, ?_⟩
      · rw [List.cons_append, List.singleton_append, body_escape, CLiteral.escape,
          if_pos (by decide)]
        dsimp only
        rw [digits, ← List.map_take, ← taken, List.length_map,
          drop_quotedBody hexDigit_of_octalDigit text
            (by rw [taken, List.length_take]; exact Nat.min_le_right _ _), Option.bind_map]
        rfl
      · intro none_
        rw [none_, null]
        rfl
  | hex escaped =>
      have taken : absorbed character text =
          text.takeWhile fun next => hexDigit (asChar next) := by
        rw [absorbed, if_neg escaped.2.1, if_pos escaped]
      have digits : (hexCode character ++ quotedBody text).takeWhile hexDigit =
          hexCode character ++ (absorbed character text).map asChar := by
        rw [List.takeWhile_append_of_pos (List.all_eq_true.mp (hexCode_digits character)),
          takeWhile_quotedBody (fun _ => id) text, taken]
      have nonempty : hexCode character ≠ [] := List.cons_ne_nil _ _
      refine ⟨byte (ofDigits 16 (hexCode character ++ (absorbed character text).map asChar)),
        ?_, ?_⟩
      · rw [List.cons_append, List.cons_append, body_escape, CLiteral.escape,
          if_neg (by decide), if_pos rfl]
        dsimp only
        rw [digits, if_neg (List.append_ne_nil_of_left_ne_nil nonempty _),
          List.length_append, List.length_map, ← List.drop_drop, List.drop_left,
          drop_quotedBody (fun _ => id) text (Nat.le_of_eq (congrArg List.length taken)),
          Option.bind_map]
        rfl
      · intro none_
        rw [none_, List.map_nil, List.append_nil]
        exact byte_hexCode character

/-! The whole literal. -/

/-- Digits that an escape would take over from the character after it. -/
def Absorbs (character next : UInt8) : Prop :=
  character = 0 ∧ octalDigit (asChar next) = true ∨
    HexEscaped character ∧ hexDigit (asChar next) = true

theorem absorbed_nil (character : UInt8) : absorbed character [] = [] := by
  rw [absorbed]
  split
  · rfl
  · split <;> rfl

theorem absorbed_cons (character next : UInt8) (text : List UInt8) :
    absorbed character (next :: text) = [] ↔ ¬ Absorbs character next := by
  have starts (digit : Char → Bool) :
      (next :: text).takeWhile (fun next => digit (asChar next)) = [] ↔
        ¬ digit (asChar next) = true := by
    rw [List.takeWhile_cons]
    cases digit (asChar next) <;> simp
  have two (taken : List UInt8) : taken.take 2 = [] ↔ taken = [] := by cases taken <;> simp
  rw [absorbed]
  by_cases null : character = 0
  · have notHex : ¬ HexEscaped character := fun escaped => escaped.2.1 null
    rw [if_pos null, two, starts, Absorbs]
    exact not_congr ⟨fun octal => .inl ⟨null, octal⟩,
      fun absorbs => absorbs.elim And.right fun hex => absurd hex.1 notHex⟩
  · rw [if_neg null, Absorbs]
    by_cases escaped : HexEscaped character
    · rw [if_pos escaped, starts]
      exact not_congr ⟨fun hex => .inr ⟨escaped, hex⟩,
        fun absorbs => absorbs.elim (fun octal => absurd octal.1 null) And.right⟩
    · rw [if_neg escaped]
      exact iff_of_true rfl fun absorbs =>
        absorbs.elim (fun octal => null octal.1) fun hex => escaped hex.1

/-- No literal gives more bytes than it has been made of. -/
theorem length_body_quotedBody {text value : List UInt8}
    (reads : body (quotedBody text) = some value) : value.length ≤ text.length := by
  induction length : text.length using Nat.strongRecOn generalizing text value with
  | _ size induction =>
      cases text with
      | nil =>
          cases body_quote.symm.trans reads
          exact Nat.zero_le _
      | cons character text =>
          obtain ⟨first, body_eq, -⟩ := body_quotedBody character text
          rw [body_eq] at reads
          obtain ⟨byte, -, others⟩ := Option.bind_eq_some_iff.mp reads
          obtain ⟨rest, readsRest, rfl⟩ := Option.map_eq_some_iff.mp others
          have shorter : (text.drop (absorbed character text).length).length ≤ text.length :=
            (List.drop_sublist _ _).length_le
          have bound := induction _ (length ▸ Nat.lt_succ_of_le shorter) readsRest rfl
          exact length ▸ Nat.succ_le_succ (Nat.le_trans bound shorter)

/-- An escape that takes digits costs the value at least one byte. -/
theorem body_quotedBody_cons (character : UInt8) (text : List UInt8) :
    body (quotedBody (character :: text)) = some (character :: text) ↔
      absorbed character text = [] ∧ body (quotedBody text) = some text := by
  obtain ⟨first, body_eq, own⟩ := body_quotedBody character text
  rw [body_eq]
  constructor
  · intro reads
    obtain ⟨byte, -, others⟩ := Option.bind_eq_some_iff.mp reads
    obtain ⟨rest, readsRest, same⟩ := Option.map_eq_some_iff.mp others
    obtain ⟨-, rfl⟩ := List.cons.inj same
    have bound := length_body_quotedBody readsRest
    have none_ : absorbed character rest = [] := by
      rw [List.length_drop] at bound
      cases rest with
      | nil => exact absorbed_nil character
      | cons next text =>
          refine List.length_eq_zero_iff.mp ?_
          rw [List.length_cons] at bound
          omega
    rw [none_] at readsRest
    exact ⟨none_, readsRest⟩
  · rintro ⟨none_, reads⟩
    rw [own none_, none_]
    exact congrArg (Option.map (character :: ·)) reads

theorem body_quotedBody_iff (text : List UInt8) :
    body (quotedBody text) = some text ↔
      text.IsChain fun character next => ¬ Absorbs character next := by
  induction text with
  | nil => exact iff_of_true body_quote .nil
  | cons character text induction =>
      rw [body_quotedBody_cons, induction]
      cases text with
      | nil => exact iff_of_true ⟨absorbed_nil character, .nil⟩ (.singleton character)
      | cons next text => rw [List.isChain_cons_cons, absorbed_cons]

/-- The literal of a text has the text as its value exactly if no escape is followed by a digit
that it would take. -/
theorem quoteString_faithful (text : List UInt8) :
    value (quoteString text) = some text ↔
      text.IsChain fun character next => ¬ Absorbs character next := by
  rw [← body_quotedBody_iff]
  exact Iff.rfl

/-- `"\x010"` is the byte 16. -/
theorem quoteString_differs : value (quoteString [1, 48]) ≠ some [1, 48] := by
  have quotes : quoteString [1, 48] = ['"', '\\', 'x', '0', '1', '0', '"'] := by decide
  have reads : value (quoteString [1, 48]) = some [16] := by
    rw [quotes]
    change body ('\\' :: _) = _
    rw [body_escape]
    change (body ['"']).map _ = _
    rw [body_quote]
    rfl
  rw [reads]
  decide

end Segvault.Fusil
