import Mathlib.Data.List.TakeWhile
import Segvault.LongestMatch
import Segvault.Autodafe.Adc

namespace Segvault.Autodafe

/-! The lexer of scripts: `adc/lexer.l`. -/

inductive Token
  | fHex
  | fFuzzHex
  | fString
  | fFuzzString
  | fBlockBegin
  | fBlockEnd
  | fSend
  | fRecv
  | fBlockSize (type : SizeType)
  | fBlockCrc32 (type : CrcType)
  | qString (string : QString)
  | hex (value : Nat)
  | openParen
  | closeParen
  | semiColon
  | comma
  deriving DecidableEq

/-- What the action of a rule does: nothing, `skip_comment`, `return`, or `llerror`. -/
inductive LexAction
  | skip
  | skipComment
  | token (token : Token)
  | llerror

namespace Lexer

def isBlank (byte : UInt8) : Bool := byte = 32 || byte = 9

def isH (byte : UInt8) : Bool :=
  48 ≤ byte && byte ≤ 57 || 97 ≤ byte && byte ≤ 102 || 65 ≤ byte && byte ≤ 70

/-! The patterns: how much of the text each matches. -/

def ofClasses : List (UInt8 → Bool) → List UInt8 → Bool
  | [], _ => true
  | _ :: _, [] => false
  | cls :: classes, byte :: text => cls byte && ofClasses classes text

/-- A pattern that is a sequence of characters, each of some class. -/
def sequence (classes : List (UInt8 → Bool)) (text : List UInt8) : Option Nat :=
  if ofClasses classes text then some classes.length else none

def literal (bytes : List UInt8) : List UInt8 → Option Nat :=
  sequence (bytes.map fun expected byte => byte == expected)

/-- `//.*\n` -/
def qcomment : List UInt8 → Option Nat
  | 47 :: 47 :: text =>
      let line := text.takeWhile (· ≠ 10)
      if line.length < text.length then some (line.length + 3) else none
  | _ => none

def space (text : List UInt8) : Option Nat :=
  let blanks := text.takeWhile isBlank
  if blanks = [] then none else some blanks.length

/-- Whether the next character is escaped. -/
def escapes (escaped : Bool) (byte : UInt8) : Bool := !escaped && byte = 92

/-- `[^"\\\n]*(\\.[^"\\\n]*)*"`, what follows the opening quote. -/
def qstringRest (escaped : Bool) : List UInt8 → Option Nat
  | [] => none
  | byte :: text =>
      if byte = 10 then none
      else if byte = 34 && !escaped then some 1
      else (qstringRest (escapes escaped byte) text).map (· + 1)

def qstring : List UInt8 → Option Nat
  | 34 :: text => (qstringRest false text).map (· + 1)
  | _ => none

def isX (byte : UInt8) : Bool := byte = 120 || byte = 88

def h0 : List UInt8 → Option Nat := sequence [isH, isH]

def h1 : List UInt8 → Option Nat := sequence [(· = 48), isX, isH, isH]

def h2 : List UInt8 → Option Nat := sequence [(· = 92), isX, isH, isH]

def void : List UInt8 → Option Nat := sequence [(· ≠ 10)]

/-! The actions. -/

def hexValue (byte : UInt8) : Nat :=
  if 97 ≤ byte && byte ≤ 102 then byte.toNat - 97 + 10
  else if 65 ≤ byte && byte ≤ 70 then byte.toNat - 65 + 10
  else if 48 ≤ byte && byte ≤ 57 then byte.toNat - 48
  else 0

def dHex2i : List UInt8 → Nat
  | high :: low :: _ => hexValue low + hexValue high * 16
  | _ => 0

/-- `strncpy(yylval.string, bytes, 255)` -/
def strncpy (bytes : List UInt8) : QString where
  bytes := (bytes.take 255).takeWhile (· ≠ 0)
  size := Nat.le_trans (List.takeWhile_sublist _).length_le (List.length_take_le _ _)
  noNul := fun member => absurd (List.mem_takeWhile_imp member) (by decide)

def qStringAction (yytext : List UInt8) : LexAction :=
  if 257 < yytext.length then .llerror
  else .token (.qString (strncpy (yytext.drop 1).dropLast))

def keyword (name : String) (token : Token) : LexRule UInt8 (List UInt8 → LexAction) :=
  ⟨literal (asciiBytes name), fun _ => .token token⟩

def symbolRules : List (LexRule UInt8 (List UInt8 → LexAction)) :=
  [⟨qcomment, fun _ => .skip⟩, ⟨literal [10], fun _ => .skip⟩, ⟨space, fun _ => .skip⟩,
    ⟨literal (asciiBytes "/*"), fun _ => .skipComment⟩, keyword "(" .openParen,
    keyword ")" .closeParen, keyword ";" .semiColon, keyword "," .comma]

def keywordRules : List (LexRule UInt8 (List UInt8 → LexAction)) :=
  [keyword "hex" .fHex, keyword "string" .fString, keyword "block_begin" .fBlockBegin,
    keyword "block_end" .fBlockEnd, keyword "send" .fSend, keyword "recv" .fRecv,
    keyword "block_size_l32" (.fBlockSize .l32), keyword "block_size_b32" (.fBlockSize .b32),
    keyword "block_size_l16" (.fBlockSize .l16), keyword "block_size_b16" (.fBlockSize .b16),
    keyword "block_size_dec_string" (.fBlockSize .s10),
    keyword "block_size_hex_string" (.fBlockSize .s16), keyword "block_size_8" (.fBlockSize .size8),
    keyword "fuzz_string" .fFuzzString, keyword "fuzz_hex" .fFuzzHex,
    keyword "block_crc32_l" (.fBlockCrc32 .l), keyword "block_crc32_b" (.fBlockCrc32 .b)]

def valueRules : List (LexRule UInt8 (List UInt8 → LexAction)) :=
  [⟨h0, fun yytext => .token (.hex (dHex2i yytext))⟩,
    ⟨fun text => (h1 text).or (h2 text), fun yytext => .token (.hex (dHex2i (yytext.drop 2)))⟩,
    ⟨void, fun _ => .llerror⟩]

def rules : List (LexRule UInt8 (List UInt8 → LexAction)) :=
  symbolRules ++ ⟨qstring, qStringAction⟩ :: (valueRules ++ keywordRules)

/-- A comment that is not closed goes on to the end of the file. -/
def skipComment : List UInt8 → List UInt8
  | c1 :: c2 :: text => if c1 = 42 && c2 = 47 then text else skipComment (c2 :: text)
  | _ => []

theorem length_skipComment (text : List UInt8) : (skipComment text).length ≤ text.length := by
  fun_induction skipComment text with
  | case1 c1 c2 text closed => exact Nat.le_add_right _ 2
  | case2 c1 c2 text notClosed induction => exact Nat.le_succ_of_le induction
  | case3 text short => exact Nat.zero_le _

/-- The tokens of a text, up to its end; `llerror` exits. -/
def lex : List UInt8 → Option (List Token)
  | [] => some []
  | byte :: text =>
      match LexRule.longest rules (byte :: text) with
      | none => none
      | some (yyleng, action) =>
          -- no pattern matches the empty text
          let rest := text.drop (yyleng - 1)
          match action ((byte :: text).take yyleng) with
          | .skip => lex rest
          | .skipComment => lex (skipComment rest)
          | .token token => (lex rest).map (token :: ·)
          | .llerror => none
termination_by text => text.length
decreasing_by
  all_goals
    have shorter : (text.drop (yyleng - 1)).length < (byte :: text).length := by
      rw [List.length_drop, List.length_cons]
      omega
  · exact shorter
  · exact Nat.lt_of_le_of_lt (length_skipComment _) shorter
  · exact shorter

/-! What a text is read as, whatever follows it. -/

def Lexes (text : List UInt8) (tokens : List Token) : Prop :=
  ∀ rest, lex (text ++ rest) = (lex rest).map (tokens ++ ·)

variable {text more : List UInt8} {tokens others : List Token}

theorem Lexes.append (first : Lexes text tokens) (second : Lexes more others) :
    Lexes (text ++ more) (tokens ++ others) := by
  intro rest
  rw [List.append_assoc, first, second, Option.map_map]
  refine congrFun (congrArg Option.map (funext fun last => ?_)) _
  exact (List.append_assoc _ _ _).symm

theorem lex_of_longest {word : List UInt8} (some_ : word ≠ []) (rest : List UInt8)
    {action : List UInt8 → LexAction}
    (found : LexRule.longest rules (word ++ rest) = some (word.length, action)) :
    lex (word ++ rest) =
      match action word with
      | .skip => lex rest
      | .skipComment => lex (skipComment rest)
      | .token token => (lex rest).map (token :: ·)
      | .llerror => none := by
  obtain ⟨byte, word, rfl⟩ := List.exists_cons_of_ne_nil some_
  rw [List.cons_append] at found ⊢
  have drop : (word ++ rest).drop ((byte :: word).length - 1) = rest := List.drop_left' rfl
  have take : (byte :: (word ++ rest)).take (byte :: word).length = byte :: word :=
    @List.take_left' _ (byte :: word) _ _ rfl
  rw [lex, found]
  dsimp only
  rw [drop, take]

theorem Lexes.token {word : List UInt8} (some_ : word ≠ []) {token : Token}
    {action : List UInt8 → LexAction} (returns : action word = .token token)
    (found : ∀ rest, LexRule.longest rules (word ++ rest) = some (word.length, action)) :
    Lexes word [token] := by
  intro rest
  rw [lex_of_longest some_ rest (found rest), returns]
  rfl

theorem lexes_newline : Lexes [10] [] := by
  intro rest
  rw [@lex_of_longest [10] (List.cons_ne_nil _ _) rest (fun _ => .skip) rfl]
  exact Option.map_id'.symm

/-- A comment whose text after the opening is all that `skip_comment` takes. -/
theorem lexes_comment (skips : ∀ rest, skipComment (text ++ rest) = rest) :
    Lexes (asciiBytes "/*" ++ text) [] := by
  intro rest
  have found : LexRule.longest rules (asciiBytes "/*" ++ (text ++ rest)) =
      some ((asciiBytes "/*").length, fun _ => .skipComment) := rfl
  have some_ : asciiBytes "/*" ≠ [] := List.cons_ne_nil _ _
  rw [List.append_assoc, lex_of_longest some_ (text ++ rest) found]
  dsimp only
  rw [skips]
  exact Option.map_id'.symm

/-! Blanks. -/

theorem longest_blank {byte : UInt8} (blank : isBlank byte = true) (text : List UInt8) :
    LexRule.longest rules (byte :: text) =
      some ((byte :: text.takeWhile isBlank).length, fun _ => .skip) := by
  have spaces : space (byte :: text) = some (byte :: text.takeWhile isBlank).length := by
    rw [space, List.takeWhile_cons, if_pos blank]
    exact if_neg (List.cons_ne_nil _ _)
  have one : ∀ shorter ∈ [1], shorter ≤ (byte :: text.takeWhile isBlank).length :=
    List.forall_mem_singleton.mpr (Nat.le_add_left _ _)
  rw [isBlank, Bool.or_eq_true, decide_eq_true_eq, decide_eq_true_eq] at blank
  obtain rfl | rfl := blank
  · exact @LexRule.longest_of _ _ _ (symbolRules.take 2) _ ⟨space, fun _ => .skip⟩ _ spaces nofun one
  · exact @LexRule.longest_of _ _ _ (symbolRules.take 2) _ ⟨space, fun _ => .skip⟩ _ spaces nofun one

theorem lex_dropWhile_blank (text : List UInt8) : lex (text.dropWhile isBlank) = lex text := by
  cases text with
  | nil => rfl
  | cons byte text =>
      cases blank : isBlank byte with
      | false => rw [List.dropWhile_cons_of_neg (by rw [blank]; exact Bool.false_ne_true)]
      | true =>
          have word := @lex_of_longest (byte :: text.takeWhile isBlank) (List.cons_ne_nil _ _)
            (text.dropWhile isBlank) (fun _ => .skip)
          rw [List.cons_append, List.takeWhile_append_dropWhile] at word
          rw [word (longest_blank blank text), List.dropWhile_cons_of_pos blank]

theorem lexes_blank {byte : UInt8} (blank : isBlank byte = true) : Lexes [byte] [] := by
  intro rest
  have same : ([byte] ++ rest).dropWhile isBlank = rest.dropWhile isBlank :=
    List.dropWhile_cons_of_pos blank
  rw [← lex_dropWhile_blank, same, lex_dropWhile_blank]
  exact Option.map_id'.symm

theorem lexes_blanks (blanks : ∀ byte ∈ text, isBlank byte = true) : Lexes text [] := by
  induction text with
  | nil => exact fun rest => Option.map_id'.symm
  | cons byte text induction =>
      have both := (lexes_blank (blanks byte List.mem_cons_self)).append
        (induction fun other member => blanks other (List.mem_cons_of_mem _ member))
      exact both

/-! Strings between quotes. -/

theorem qstringRest_append {content : List UInt8} (noQuote : 34 ∉ content) (escaped : Bool)
    (rest : List UInt8) :
    qstringRest escaped (content ++ rest) =
      if 10 ∈ content then none
      else (qstringRest (content.foldl escapes escaped) rest).map (· + content.length) := by
  induction content generalizing escaped with
  | nil => exact Option.map_id'.symm
  | cons byte content induction =>
      have notQuote : byte ≠ 34 := fun same => noQuote (same ▸ List.mem_cons_self)
      have later := induction (fun member => noQuote (List.mem_cons_of_mem _ member))
        (escapes escaped byte)
      rw [List.cons_append, qstringRest, List.foldl_cons, later]
      by_cases newline : byte = 10
      · rw [if_pos newline, if_pos (newline ▸ List.mem_cons_self)]
      · have other : 10 ∈ byte :: content ↔ 10 ∈ content :=
          List.mem_cons.trans (or_iff_right (Ne.symm newline))
        rw [if_neg newline, if_neg (by simp only [notQuote, decide_false, Bool.false_and,
          Bool.false_eq_true, not_false_eq_true]), if_congr other rfl rfl]
        split
        · rfl
        · rw [Option.map_map, List.length_cons]
          rfl

theorem longest_qstring {text : List UInt8} {length : Nat}
    (matched : qstring (34 :: text) = some length) (some_ : 0 < length) :
    LexRule.longest rules (34 :: text) = some (length, qStringAction) :=
  @LexRule.longest_of _ _ _ symbolRules (valueRules ++ keywordRules) ⟨qstring, qStringAction⟩ _
    matched nofun (List.forall_mem_singleton.mpr some_)

theorem longest_unclosed {text : List UInt8} (nothing : qstring (34 :: text) = none) :
    LexRule.longest rules (34 :: text) = some (1, fun _ => .llerror) := by
  have earlier : (symbolRules ++ ⟨qstring, qStringAction⟩ :: valueRules.take 2).filterMap
      (·.matched (34 :: text)) = [] := by
    rw [List.filterMap_append, List.filterMap_cons]
    dsimp only
    rw [nothing]
    rfl
  exact @LexRule.longest_of _ _ _ (symbolRules ++ ⟨qstring, qStringAction⟩ :: valueRules.take 2)
    keywordRules ⟨void, fun _ => .llerror⟩ 1 rfl (by rw [earlier]; exact nofun) nofun

/-- A text without quotes and line ends, between quotes, is a string unless its last character is a
backslash that begins an escape. -/
theorem lexes_qstring {content : List UInt8} (noQuote : 34 ∉ content) (noNewline : 10 ∉ content)
    (closed : content.foldl escapes false = false) (short : content.length ≤ 255) :
    Lexes (34 :: (content ++ [34])) [.qString (strncpy content)] := by
  refine @Lexes.token _ (List.cons_ne_nil _ _) _ qStringAction ?_ fun rest => ?_
  · have fits : ¬ 257 < (34 :: (content ++ [34])).length := by
      rw [List.length_cons, List.length_append, List.length_singleton]
      omega
    rw [qStringAction, if_neg fits, List.drop_one, List.tail_cons, List.dropLast_concat]
  · have matched : qstring (34 :: (content ++ [34] ++ rest)) =
        some (34 :: (content ++ [34])).length := by
      rw [List.append_assoc, qstring, qstringRest_append noQuote, if_neg noNewline, closed,
        List.length_cons, List.length_append]
      exact congrArg some (congrArg Nat.succ (Nat.add_comm _ _))
    exact longest_qstring matched (Nat.zero_lt_succ _)

theorem lex_unclosed {content : List UInt8} (noQuote : 34 ∉ content)
    (unclosed : 10 ∈ content ∨ content.foldl escapes false = true) (rest : List UInt8) :
    lex (34 :: (content ++ (asciiBytes "\");\n" ++ rest))) = none := by
  have nothing : qstring (34 :: (content ++ (asciiBytes "\");\n" ++ rest))) = none := by
    rw [qstring, qstringRest_append noQuote]
    split
    · rfl
    · rename_i noNewline
      rw [unclosed.resolve_left noNewline]
      rfl
  exact @lex_of_longest [34] (List.cons_ne_nil _ _) _ _ (longest_unclosed nothing)

end Lexer

end Segvault.Autodafe
