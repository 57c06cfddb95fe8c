import Mathlib.Data.List.Induction
import Segvault.CString
import Segvault.Autodafe.Grammar

namespace Segvault.Autodafe

/-! `output_tab_string`: `pdml2ad/output.c`. -/

namespace OutputString

def maxLengthString : Nat := 70

def tabs (tab : Nat) : List UInt8 := (List.replicate tab (asciiBytes "   ")).flatten

def openString (tab : Nat) : List UInt8 := tabs tab ++ asciiBytes "string(\""

def closeString : List UInt8 := asciiBytes "\");\n"

/-- A quote is written as a value of its own, between two strings. -/
def outputChar (tab : Nat) (byte : UInt8) : List UInt8 :=
  if byte = 34 then
    closeString ++ tabs tab ++ asciiBytes "hex(22); /* quote */\n" ++ openString tab
  else [byte]

/-- The loop over `k`, with `i + k` and the turns that are left; it ends at the NUL. -/
def outputChars (tab : Nat) (string : List UInt8) : Nat → Nat → List UInt8
  | _, 0 => []
  | i, turns + 1 =>
      match string[i]? with
      | none => []
      | some byte => outputChar tab byte ++ outputChars tab string (i + 1) turns

/-- The loop over `i`, which is an `int`: there is no value where it overflows. -/
def outputFragments (tab : Nat) (string : List UInt8) (size i : Nat) : Option (List UInt8) :=
  if i < size then
    if i + maxLengthString < 2 ^ 31 then
      (outputFragments tab string size (i + maxLengthString)).map
        ((openString tab ++ outputChars tab string i maxLengthString ++ closeString) ++ ·)
    else none
  else some []
termination_by size - i
decreasing_by
  unfold maxLengthString
  omega

/-- The switch over `rn`. -/
def outputEnd (tab rn : Nat) : List UInt8 :=
  match rn with
  | 1 => tabs tab ++ asciiBytes "hex(0a); /* \\n */\n"
  | 2 => tabs tab ++ asciiBytes "hex(0d 0a); /* \\r\\n */\n"
  | 3 => tabs tab ++ asciiBytes "hex(0d); /* \\r */\n"
  | _ => []

end OutputString

open OutputString in
/-- `size` is an `unsigned int`. -/
def outputTabString (tab : Nat) (string : List UInt8) (rn : Nat) : Option (List UInt8) :=
  (outputFragments tab string (string.length % 2 ^ 32) 0).map (· ++ outputEnd tab rn)

/-! What the values of `rn` stand for. -/

def lineEnd : Nat → List UInt8
  | 1 => [10]
  | 2 => [13, 10]
  | 3 => [13]
  | _ => []

/-- The characters that `convert_asc_string` lets through. -/
structure AscString where
  bytes : List UInt8
  asc : ∀ byte ∈ bytes, 7 ≤ byte ∧ byte ≤ 126

def Directive.literal : Directive → List UInt8
  | .string text => text.bytes
  | .hex values => values.values
  | _ => []

namespace OutputString

/-! What is written, one directive after the other. -/

inductive HexPiece
  | quote
  | n
  | rn
  | r

def HexPiece.values : HexPiece → HexBuffer
  | .quote => ⟨[34], by decide, by decide⟩
  | .n => ⟨[10], by decide, by decide⟩
  | .rn => ⟨[13, 10], by decide, by decide⟩
  | .r => ⟨[13], by decide, by decide⟩

def HexPiece.text : HexPiece → List UInt8
  | .quote => asciiBytes "hex(22); /* quote */\n"
  | .n => asciiBytes "hex(0a); /* \\n */\n"
  | .rn => asciiBytes "hex(0d 0a); /* \\r\\n */\n"
  | .r => asciiBytes "hex(0d); /* \\r */\n"

inductive Piece
  | string (bytes : List UInt8)
  | hex (piece : HexPiece)

namespace Piece

def written (tab : Nat) : Piece → List UInt8
  | .string bytes => openString tab ++ bytes ++ closeString
  | .hex piece => tabs tab ++ piece.text

def directive : Piece → Directive
  | .string bytes => .string (Lexer.strncpy bytes)
  | .hex piece => .hex piece.values

def tokens : Piece → List Token
  | .string bytes =>
      [.fString, .openParen, .qString (Lexer.strncpy bytes), .closeParen, .semiColon]
  | .hex piece =>
      .fHex :: .openParen ::
        (piece.values.values.map fun value => Token.hex value.toNat) ++ [.closeParen, .semiColon]

/-- The lexer takes the string to its end. -/
def Closed : Piece → Prop
  | .string bytes => 10 ∉ bytes ∧ bytes.foldl Lexer.escapes false = false
  | .hex _ => True

/-- A string that fits the buffer of the lexer and holds no quote. -/
def Fits : Piece → Prop
  | .string bytes => bytes.length ≤ maxLengthString ∧ 34 ∉ bytes ∧ 0 ∉ bytes
  | .hex _ => True

end Piece

open Lexer

theorem blank_tabs (tab : Nat) : ∀ byte ∈ tabs tab, isBlank byte = true := by
  intro byte member
  obtain ⟨blanks, blank, inside⟩ := List.mem_flatten.mp member
  obtain rfl := List.eq_of_mem_replicate blank
  have all : (asciiBytes "   ").all isBlank = true := rfl
  exact List.all_eq_true.mp all byte inside

theorem lexes_close : Lexes (asciiBytes ");") [.closeParen, .semiColon] := by
  have paren : Lexes (asciiBytes ")") [.closeParen] :=
    @Lexes.token _ (List.cons_ne_nil _ _) _ (fun _ => .token .closeParen) rfl fun _ => rfl
  have semi : Lexes (asciiBytes ";") [.semiColon] :=
    @Lexes.token _ (List.cons_ne_nil _ _) _ (fun _ => .token .semiColon) rfl fun _ => rfl
  exact paren.append semi

theorem lexes_paren : Lexes (asciiBytes "(") [.openParen] :=
  @Lexes.token _ (List.cons_ne_nil _ _) _ (fun _ => .token .openParen) rfl fun _ => rfl

theorem lexes_h0 {word : List UInt8} {value : Nat} (some_ : word ≠ [])
    (isValue : dHex2i word = value)
    (found : ∀ rest, LexRule.longest rules (word ++ rest) =
      some (word.length, fun yytext => .token (.hex (dHex2i yytext)))) :
    Lexes word [.hex value] :=
  Lexes.token some_ (congrArg (LexAction.token ∘ Token.hex) isValue) found

/-- A value, and the comment after it. -/
theorem lexes_hex (piece : HexPiece) : Lexes piece.text (Piece.hex piece).tokens := by
  have hex : Lexes (asciiBytes "hex") [.fHex] :=
    @Lexes.token _ (List.cons_ne_nil _ _) _ (fun _ => .token .fHex) rfl fun _ => rfl
  have start := hex.append lexes_paren
  have blank : Lexes [32] [] := lexes_blank rfl
  have quote : Lexes (asciiBytes "22") [.hex 34] := lexes_h0 (List.cons_ne_nil _ _) rfl fun _ => rfl
  have n : Lexes (asciiBytes "0a") [.hex 10] := lexes_h0 (List.cons_ne_nil _ _) rfl fun _ => rfl
  have r : Lexes (asciiBytes "0d") [.hex 13] := lexes_h0 (List.cons_ne_nil _ _) rfl fun _ => rfl
  have finish {text : List UInt8} (skips : ∀ rest, skipComment (text ++ rest) = rest) :
      Lexes (asciiBytes ");" ++ ([32] ++ (asciiBytes "/*" ++ text ++ [10])))
        [.closeParen, .semiColon] :=
    lexes_close.append (blank.append ((lexes_comment skips).append lexes_newline))
  cases piece with
  | quote => exact start.append (quote.append (@finish (asciiBytes " quote */") fun _ => rfl))
  | n => exact start.append (n.append (@finish (asciiBytes " \\n */") fun _ => rfl))
  | rn =>
      exact start.append (r.append (blank.append (n.append
        (@finish (asciiBytes " \\r\\n */") fun _ => rfl))))
  | r => exact start.append (r.append (@finish (asciiBytes " \\r */") fun _ => rfl))

theorem lexes_string : Lexes (asciiBytes "string(") [.fString, .openParen] := by
  have string : Lexes (asciiBytes "string") [.fString] :=
    @Lexes.token _ (List.cons_ne_nil _ _) _ (fun _ => .token .fString) rfl fun _ => rfl
  exact string.append lexes_paren

theorem lexes_written (tab : Nat) {piece : Piece} (fits : piece.Fits) (closed : piece.Closed) :
    Lexes (piece.written tab) piece.tokens := by
  have blanks := lexes_blanks (blank_tabs tab)
  cases piece with
  | hex piece => exact blanks.append (lexes_hex piece)
  | string bytes =>
      have quoted := lexes_qstring fits.2.1 closed.1 closed.2 (Nat.le_trans fits.1 (by decide))
      have all := blanks.append (lexes_string.append (quoted.append
        (lexes_close.append lexes_newline)))
      have same : (Piece.string bytes).written tab = tabs tab ++ (asciiBytes "string(" ++
          (34 :: (bytes ++ [34]) ++ (asciiBytes ");" ++ [10]))) := by
        simp only [Piece.written, openString, List.append_assoc, List.cons_append]
        rfl
      rw [same]
      exact all

theorem lex_unclosed_written (tab : Nat) {piece : Piece} (fits : piece.Fits)
    (unclosed : ¬ piece.Closed) (rest : List UInt8) : lex (piece.written tab ++ rest) = none := by
  cases piece with
  | hex piece => exact absurd trivial unclosed
  | string bytes =>
      have breaks : 10 ∈ bytes ∨ bytes.foldl escapes false = true := by
        by_contra neither
        push Not at neither
        exact unclosed ⟨neither.1, Bool.eq_false_iff.mpr neither.2⟩
      have same : (Piece.string bytes).written tab ++ rest = tabs tab ++ (asciiBytes "string(" ++
          (34 :: (bytes ++ (closeString ++ rest)))) := by
        simp only [Piece.written, openString, List.append_assoc]
        rfl
      rw [same, lexes_blanks (blank_tabs tab), lexes_string]
      rw [closeString, lex_unclosed fits.2.1 breaks rest]
      rfl

theorem start_tokens (piece : Piece) (rest : List Token) :
    Grammar.start (piece.tokens ++ rest) = (Grammar.start rest).map (piece.directive :: ·) := by
  have parsed : Grammar.function (piece.tokens ++ rest) = some (piece.directive, rest) := by
    cases piece with
    | string bytes => rfl
    | hex piece => cases piece <;> rfl
  exact Grammar.start_function parsed

/-! All pieces of a script. -/

section

variable {pieces : List Piece} (tab : Nat)

theorem lexes_pieces (fits : ∀ piece ∈ pieces, piece.Fits)
    (closed : ∀ piece ∈ pieces, piece.Closed) :
    Lexes (pieces.flatMap (Piece.written tab)) (pieces.flatMap Piece.tokens) := by
  induction pieces with
  | nil => exact lexes_blanks nofun
  | cons piece pieces induction =>
      rw [List.forall_mem_cons] at fits closed
      exact (lexes_written tab fits.1 closed.1).append (induction fits.2 closed.2)

theorem lex_unclosed_pieces (fits : ∀ piece ∈ pieces, piece.Fits)
    (unclosed : ¬ ∀ piece ∈ pieces, piece.Closed) :
    lex (pieces.flatMap (Piece.written tab)) = none := by
  induction pieces with
  | nil => exact absurd nofun unclosed
  | cons piece pieces induction =>
      rw [List.forall_mem_cons] at fits unclosed
      rw [List.flatMap_cons]
      by_cases closed : piece.Closed
      · have later := induction fits.2 fun others => unclosed ⟨closed, others⟩
        rw [lexes_written tab fits.1 closed, later]
        rfl
      · exact lex_unclosed_written tab fits.1 closed _

theorem start_pieces (pieces : List Piece) :
    Grammar.start (pieces.flatMap Piece.tokens) = some (pieces.map Piece.directive) := by
  induction pieces with
  | nil =>
      rw [List.flatMap_nil, Grammar.start]
      rfl
  | cons piece pieces induction =>
      rw [List.flatMap_cons, start_tokens, induction]
      rfl

/-- A script of pieces is accepted exactly if all of them are closed. -/
theorem readScript_pieces (fits : ∀ piece ∈ pieces, piece.Fits) (directives : List Directive) :
    readScript (pieces.flatMap (Piece.written tab)) = some directives ↔
      (∀ piece ∈ pieces, piece.Closed) ∧ directives = pieces.map Piece.directive := by
  by_cases closed : ∀ piece ∈ pieces, piece.Closed
  · have lexed : lex (pieces.flatMap (Piece.written tab)) = some (pieces.flatMap Piece.tokens) := by
      have all := lexes_pieces tab fits closed []
      rw [List.append_nil, lex] at all
      rw [all, Option.map_some, List.append_nil]
    rw [readScript, lexed, Option.bind_some, start_pieces, Option.some_inj, eq_comm]
    exact (and_iff_right closed).symm
  · rw [readScript, lex_unclosed_pieces tab fits closed]
    refine ⟨fun accepted => ?_, fun accepted => absurd accepted.1 closed⟩
    cases accepted

end

/-! The pieces of a text. -/

def Piece.value : Piece → List UInt8
  | .string bytes => bytes
  | .hex piece => piece.values.values

theorem Piece.literal_directive {piece : Piece} (fits : piece.Fits) :
    piece.directive.literal = piece.value := by
  cases piece with
  | hex piece => rfl
  | string bytes =>
      have short : bytes.take 255 = bytes :=
        List.take_of_length_le (Nat.le_trans fits.1 (by decide))
      have whole : bytes.takeWhile (· ≠ 0) = bytes :=
        List.takeWhile_eq_self_iff.mpr fun byte member =>
          decide_eq_true fun null => fits.2.2 (null ▸ member)
      change (bytes.take 255).takeWhile (· ≠ 0) = bytes
      rw [short, whole]

def chunkPieces (chunk : List UInt8) : List Piece :=
  ((chunk.splitOn 34).map Piece.string).intersperse (.hex .quote)

/-- A text cut at its quotes: the strings between them, and the pieces. -/
inductive Cut : List UInt8 → List (List UInt8) → List Piece → Prop
  | last {bytes : List UInt8} (noQuote : 34 ∉ bytes) : Cut bytes [bytes] [.string bytes]
  | quote {bytes rest : List UInt8} {strings : List (List UInt8)} {pieces : List Piece}
      (noQuote : 34 ∉ bytes) (later : Cut rest strings pieces) :
      Cut (bytes ++ 34 :: rest) (bytes :: strings) (.string bytes :: .hex .quote :: pieces)

theorem chunkPieces_quote {bytes : List UInt8} (noQuote : 34 ∉ bytes) (rest : List UInt8) :
    chunkPieces (bytes ++ 34 :: rest) = .string bytes :: .hex .quote :: chunkPieces rest := by
  obtain ⟨first, others, pieces⟩ := List.exists_cons_of_ne_nil (List.splitOn_ne_nil 34 rest)
  rw [chunkPieces, chunkPieces, List.splitOn_append_cons_self_of_not_mem noQuote, pieces]
  rfl

theorem cut_chunkPieces (chunk : List UInt8) :
    Cut chunk (chunk.splitOn 34) (chunkPieces chunk) := by
  suffices all : ∀ bytes : List UInt8, 34 ∉ bytes →
      Cut (bytes ++ chunk) ((bytes ++ chunk).splitOn 34) (chunkPieces (bytes ++ chunk)) from
    all [] List.not_mem_nil
  induction chunk with
  | nil =>
      intro bytes noQuote
      rw [List.append_nil, chunkPieces, List.splitOn_eq_singleton noQuote]
      exact .last noQuote
  | cons byte chunk induction =>
      intro bytes noQuote
      by_cases quote : byte = 34
      · rw [quote, chunkPieces_quote noQuote, List.splitOn_append_cons_self_of_not_mem noQuote]
        exact .quote noQuote (induction [] List.not_mem_nil)
      · have longer := induction (bytes ++ [byte]) (by
          rw [List.mem_append, List.mem_singleton]
          exact not_or.mpr ⟨noQuote, Ne.symm quote⟩)
        rwa [List.append_assoc] at longer

namespace Cut

variable {chunk : List UInt8} {strings : List (List UInt8)} {pieces : List Piece}

theorem fits (cut : Cut chunk strings pieces) (short : chunk.length ≤ maxLengthString)
    (noNul : 0 ∉ chunk) : ∀ piece ∈ pieces, piece.Fits := by
  induction cut with
  | last noQuote => exact List.forall_mem_singleton.mpr ⟨short, noQuote, noNul⟩
  | quote noQuote later induction =>
      rw [List.length_append, List.length_cons] at short
      rw [List.mem_append, List.mem_cons, not_or, not_or] at noNul
      have first : Piece.Fits (.string _) := ⟨by omega, noQuote, noNul.1⟩
      exact List.forall_mem_cons.mpr ⟨first, List.forall_mem_cons.mpr
        ⟨trivial, induction (by omega) noNul.2.2⟩⟩

theorem value (cut : Cut chunk strings pieces) : pieces.flatMap Piece.value = chunk := by
  induction cut with
  | last noQuote => exact List.flatMap_singleton _ _
  | quote noQuote later induction =>
      rw [List.flatMap_cons, List.flatMap_cons, induction]
      rfl

theorem closed (cut : Cut chunk strings pieces) :
    (∀ piece ∈ pieces, piece.Closed) ↔
      10 ∉ chunk ∧ ∀ bytes ∈ strings, bytes.foldl escapes false = false := by
  induction cut with
  | last noQuote =>
      rw [List.forall_mem_singleton, List.forall_mem_singleton]
      rfl
  | quote noQuote later induction =>
      rw [List.forall_mem_cons, List.forall_mem_cons, List.forall_mem_cons, induction,
        List.mem_append, List.mem_cons, not_or, not_or]
      constructor
      · rintro ⟨⟨first, closed⟩, -, rest, others⟩
        exact ⟨⟨first, by decide, rest⟩, closed, others⟩
      · rintro ⟨⟨first, -, rest⟩, closed, others⟩
        exact ⟨⟨first, closed⟩, trivial, rest, others⟩

theorem written (cut : Cut chunk strings pieces) (tab : Nat) :
    pieces.flatMap (Piece.written tab) =
      openString tab ++ chunk.flatMap (outputChar tab) ++ closeString := by
  have plain {bytes : List UInt8} (noQuote : 34 ∉ bytes) :
      bytes.flatMap (outputChar tab) = bytes := by
    have each : ∀ byte ∈ bytes, outputChar tab byte = [byte] := fun byte member =>
      if_neg fun quote : byte = 34 => noQuote (quote ▸ member)
    rw [List.flatMap_congr each]
    exact List.flatMap_singleton' bytes
  induction cut with
  | last noQuote =>
      rw [plain noQuote]
      exact List.flatMap_singleton _ _
  | quote noQuote later induction =>
      rw [List.flatMap_cons, List.flatMap_cons, induction, List.flatMap_append, List.flatMap_cons,
        plain noQuote]
      simp only [Piece.written, HexPiece.text, outputChar, if_pos, List.append_assoc]

end Cut

/-! The fragments. -/

def fragments (string : List UInt8) (size i : Nat) : List (List UInt8) :=
  if i < size then
    (string.drop i).take maxLengthString :: fragments string size (i + maxLengthString)
  else []
termination_by size - i
decreasing_by
  unfold maxLengthString
  omega

theorem outputChars_eq (tab : Nat) (string : List UInt8) (i turns : Nat) :
    outputChars tab string i turns =
      ((string.drop i).take turns).flatMap (outputChar tab) := by
  induction turns generalizing i with
  | zero => rfl
  | succ turns induction =>
      rw [outputChars]
      cases next : string[i]? with
      | none => rw [List.drop_eq_nil_of_le (List.getElem?_eq_none_iff.mp next)]; rfl
      | some byte =>
          obtain ⟨inside, same⟩ := List.getElem?_eq_some_iff.mp next
          rw [List.drop_eq_getElem_cons inside, List.take_succ_cons, List.flatMap_cons, same,
            induction]

/-- The last `i` from which the `int` does not overflow. -/
def lastFragment : Nat := 2147483590

theorem outputFragments_some (tab : Nat) (string : List UInt8) {size i : Nat}
    (fits : size ≤ lastFragment) (aligned : maxLengthString ∣ i) :
    outputFragments tab string size i =
      some (((fragments string size i).flatMap chunkPieces).flatMap (Piece.written tab)) := by
  fun_induction fragments string size i with
  | case1 i more induction =>
      have bound : i + maxLengthString < 2 ^ 31 := by
        unfold lastFragment maxLengthString at *
        omega
      have next : maxLengthString ∣ i + maxLengthString := Nat.dvd_add_self_right.mpr aligned
      rw [outputFragments, if_pos more, if_pos bound, induction next, outputChars_eq,
        List.flatMap_cons, List.flatMap_append, (cut_chunkPieces _).written]
      rfl
  | case2 i done =>
      rw [outputFragments, if_neg done]
      rfl

theorem outputFragments_none (tab : Nat) (string : List UInt8) {size i : Nat}
    (large : lastFragment < size) (before : i ≤ lastFragment) (aligned : maxLengthString ∣ i) :
    outputFragments tab string size i = none := by
  fun_induction outputFragments tab string size i with
  | case1 i more bound induction =>
      have next : maxLengthString ∣ i + maxLengthString := Nat.dvd_add_self_right.mpr aligned
      rw [induction (by unfold lastFragment maxLengthString at *; omega) next]
      rfl
  | case2 i more overflow => rfl
  | case3 i done => exact absurd (Nat.lt_of_le_of_lt before large) done

theorem length_fragments (string : List UInt8) (size i : Nat) :
    (fragments string size i).flatten.length ≤ size + maxLengthString - i := by
  fun_induction fragments string size i with
  | case1 i more induction =>
      have short := List.length_take_le maxLengthString (string.drop i)
      rw [List.flatten_cons, List.length_append]
      omega
  | case2 i done => exact Nat.zero_le _

theorem flatten_fragments (string : List UInt8) (i : Nat) :
    (fragments string string.length i).flatten = string.drop i := by
  generalize length : string.length = size
  fun_induction fragments string size i with
  | case1 i more induction =>
      rw [List.flatten_cons, induction, ← List.drop_drop, List.take_append_drop]
  | case2 i done =>
      rw [List.drop_eq_nil_of_le (by omega)]
      rfl

theorem mem_fragments {string : List UInt8} {size i : Nat} {chunk : List UInt8}
    (member : chunk ∈ fragments string size i) :
    chunk.length ≤ maxLengthString ∧ chunk ⊆ string := by
  fun_induction fragments string size i with
  | case1 i more induction =>
      obtain rfl | later := List.mem_cons.mp member
      · exact ⟨List.length_take_le _ _,
          ((List.take_sublist _ _).trans (List.drop_sublist _ _)).subset⟩
      · exact induction later
  | case2 i done => cases member

/-- The piece for the line end. -/
def endPieces : Nat → List HexPiece
  | 1 => [.n]
  | 2 => [.rn]
  | 3 => [.r]
  | _ => []

/-- The pieces that are written for a string. -/
def pieces (string : List UInt8) (size : Nat) (rn : Nat) : List Piece :=
  (fragments string size 0).flatMap chunkPieces ++ (endPieces rn).map .hex

theorem outputEnd_eq (tab rn : Nat) :
    outputEnd tab rn = ((endPieces rn).map Piece.hex).flatMap (Piece.written tab) := by
  match rn with
  | 0 => rfl
  | 1 => exact (List.flatMap_singleton _ _).symm
  | 2 => exact (List.flatMap_singleton _ _).symm
  | 3 => exact (List.flatMap_singleton _ _).symm
  | _ + 4 => rfl

theorem endPieces_value (rn : Nat) :
    ((endPieces rn).map Piece.hex).flatMap Piece.value = lineEnd rn := by
  match rn with
  | 0 => rfl
  | 1 => rfl
  | 2 => rfl
  | 3 => rfl
  | _ + 4 => rfl

theorem outputTabString_some (tab : Nat) (string : List UInt8) (rn : Nat)
    (fits : string.length % 2 ^ 32 ≤ lastFragment) :
    outputTabString tab string rn =
      some ((pieces string (string.length % 2 ^ 32) rn).flatMap (Piece.written tab)) := by
  rw [outputTabString, outputFragments_some tab string fits (Nat.dvd_zero _), Option.map_some,
    pieces, List.flatMap_append, outputEnd_eq]

open CString in
/-- Backslashes escape one another in pairs. -/
theorem foldl_escapes (bytes : List UInt8) :
    bytes.foldl escapes false = !decide (Even (backslashes bytes)) := by
  induction bytes using List.reverseRecOn with
  | nil => rfl
  | append_singleton bytes byte induction =>
      rw [List.foldl_append, List.foldl_cons, List.foldl_nil, induction, escapes, Bool.not_not,
        backslashes_concat]
      by_cases backslash : byte = 92
      · rw [if_pos backslash, decide_eq_true backslash, Bool.and_true]
        simp only [Nat.even_add_one, decide_not, Bool.not_not]
      · rw [if_neg backslash, decide_eq_false backslash, Bool.and_false]
        rfl

section

variable {string : AscString} {size rn : Nat}

theorem pieces_fits : ∀ piece ∈ pieces string.bytes size rn, piece.Fits := by
  have noNul : 0 ∉ string.bytes := fun null => absurd (string.asc 0 null).1 (by decide)
  intro piece member
  obtain inside | atEnd := List.mem_append.mp member
  · obtain ⟨chunk, known, inside⟩ := List.mem_flatMap.mp inside
    obtain ⟨short, own⟩ := mem_fragments known
    exact (cut_chunkPieces chunk).fits short (fun null => noNul (own null)) piece inside
  · obtain ⟨hex, -, rfl⟩ := List.mem_map.mp atEnd
    trivial

theorem pieces_value : (pieces string.bytes size rn).flatMap Piece.value =
    (fragments string.bytes size 0).flatten ++ lineEnd rn := by
  have chunks : (fun chunk => (chunkPieces chunk).flatMap Piece.value) = id :=
    funext fun chunk => (cut_chunkPieces chunk).value
  rw [pieces, List.flatMap_append, endPieces_value, List.flatMap_assoc, chunks, List.flatMap_id]

theorem pieces_closed : (∀ piece ∈ pieces string.bytes size rn, piece.Closed) ↔
    10 ∉ (fragments string.bytes size 0).flatten ∧
      ∀ chunk ∈ fragments string.bytes size 0, ∀ piece ∈ chunk.splitOn 34,
        Even (CString.backslashes piece) := by
  have even (bytes : List UInt8) :
      bytes.foldl escapes false = false ↔ Even (CString.backslashes bytes) := by
    rw [foldl_escapes, Bool.not_eq_false', decide_eq_true_iff]
  have atEnd : ∀ piece ∈ (endPieces rn).map Piece.hex, piece.Closed := by
    intro piece member
    obtain ⟨hex, -, rfl⟩ := List.mem_map.mp member
    trivial
  have chunks (chunk : List UInt8) := (cut_chunkPieces chunk).closed
  simp only [even] at chunks
  constructor
  · intro closed
    have inside (chunk : List UInt8) (known : chunk ∈ fragments string.bytes size 0) :=
      (chunks chunk).mp fun piece member => closed piece <|
        List.mem_append_left _ (List.mem_flatMap.mpr ⟨chunk, known, member⟩)
    refine ⟨fun newline => ?_, fun chunk known => (inside chunk known).2⟩
    obtain ⟨chunk, known, newline⟩ := List.mem_flatten.mp newline
    exact (inside chunk known).1 newline
  · rintro ⟨noNewline, evenAll⟩ piece member
    obtain inside | last := List.mem_append.mp member
    · obtain ⟨chunk, known, inside⟩ := List.mem_flatMap.mp inside
      have noneHere : 10 ∉ chunk := fun newline =>
        noNewline (List.mem_flatten.mpr ⟨chunk, known, newline⟩)
      exact (chunks chunk).mpr ⟨noneHere, evenAll chunk known⟩ piece inside
    · exact atEnd piece last

theorem literal_directives :
    ((pieces string.bytes size rn).map Piece.directive).flatMap Directive.literal =
      (fragments string.bytes size 0).flatten ++ lineEnd rn := by
  rw [List.flatMap_map, ← pieces_value]
  exact List.flatMap_congr fun piece member => Piece.literal_directive (pieces_fits piece member)

end

end OutputString

open OutputString in
/-- The directives of a string give it back exactly if it holds no line end, no quote and no cut
comes after an odd number of backslashes, and it is not too long for an `int`. -/
theorem outputTabString_survives_iff (tab : Nat) (string : AscString) (rn : Nat) :
    (∃ script directives, outputTabString tab string.bytes rn = some script ∧
        readScript script = some directives ∧
        directives.flatMap Directive.literal = string.bytes ++ lineEnd rn) ↔
      string.bytes.length ≤ lastFragment ∧ 10 ∉ string.bytes ∧
        ∀ chunk ∈ fragments string.bytes string.bytes.length 0, ∀ piece ∈ chunk.splitOn 34,
          Even (CString.backslashes piece) := by
  have whole : (fragments string.bytes string.bytes.length 0).flatten = string.bytes :=
    flatten_fragments string.bytes 0
  constructor
  · rintro ⟨script, directives, written, accepted, same⟩
    by_cases fits : string.bytes.length % 2 ^ 32 ≤ lastFragment
    · rw [outputTabString_some tab string.bytes rn fits, Option.some_inj] at written
      rw [← written, readScript_pieces tab pieces_fits] at accepted
      obtain ⟨closed, rfl⟩ := accepted
      rw [literal_directives, List.append_cancel_right_eq] at same
      have short : string.bytes.length < 2 ^ 32 := by
        have bound := length_fragments string.bytes (string.bytes.length % 2 ^ 32) 0
        rw [same] at bound
        unfold lastFragment maxLengthString at *
        omega
      rw [Nat.mod_eq_of_lt short] at fits closed
      rw [pieces_closed, whole] at closed
      exact ⟨fits, closed⟩
    · rw [outputTabString, outputFragments_none tab string.bytes (Nat.lt_of_not_le fits)
        (Nat.zero_le _) (Nat.dvd_zero _)] at written
      cases written
  · rintro ⟨fits, closed⟩
    have small : string.bytes.length % 2 ^ 32 = string.bytes.length :=
      Nat.mod_eq_of_lt (by unfold lastFragment at fits; omega)
    have written := outputTabString_some tab string.bytes rn (by rwa [small])
    rw [small] at written
    have accepted : ∀ piece ∈ pieces string.bytes string.bytes.length rn, piece.Closed := by
      rw [pieces_closed, whole]
      exact closed
    refine ⟨_, _, written, (readScript_pieces tab pieces_fits _).mpr ⟨accepted, rfl⟩, ?_⟩
    rw [literal_directives, whole]

open OutputString in
/-- A backslash at the end takes the closing quote with it. -/
theorem outputTabString_escapes :
    ¬ ∃ script directives, outputTabString 0 [97, 92] 0 = some script ∧
      readScript script = some directives ∧
      directives.flatMap Directive.literal = [97, 92] ++ lineEnd 0 := by
  rintro ⟨script, directives, written, accepted, -⟩
  let string : AscString := ⟨[97, 92], List.forall_mem_cons.mpr
    ⟨by decide, List.forall_mem_singleton.mpr (by decide)⟩⟩
  rw [outputTabString_some 0 string.bytes 0 (by decide), Option.some_inj] at written
  rw [← written, readScript_pieces 0 pieces_fits, pieces_closed] at accepted
  have known : [97, 92] ∈ fragments string.bytes (string.bytes.length % 2 ^ 32) 0 := by
    rw [fragments]
    exact List.mem_cons_self
  exact absurd (accepted.1.2 _ known [97, 92] (by decide)) (by decide)

end Segvault.Autodafe
