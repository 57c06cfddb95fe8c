import Segvault.Autodafe.Lexer

namespace Segvault.Autodafe

/-! The grammar of scripts: `adc/parser.y`. -/

namespace Grammar

/-- The functions whose argument is one name. -/
def nameFunction : Token → Option (QString → Directive)
  | .fString => some .string
  | .fBlockBegin => some .blockBegin
  | .fBlockEnd => some .blockEnd
  | .fBlockCrc32 type => some (.blockCrc32 type)
  | .fBlockSize type => some (.blockSize type)
  | .fSend => some .send
  | .fRecv => some .recv
  | _ => none

def hexs : List Token → List UInt8 × List Token
  | .hex value :: tokens =>
      let (values, rest) := hexs tokens
      (UInt8.ofNat value :: values, rest)
  | tokens => ([], tokens)

/-- The strings of `two_strings` after the first. -/
def moreStrings : List Token → List QString × List Token
  | .comma :: .qString string :: tokens =>
      let (strings, rest) := moreStrings tokens
      (string :: strings, rest)
  | tokens => ([], tokens)

/-- The values of `hexs`, of which there is at least one; `hex_buffer_size` is an
`unsigned int`. -/
def hexBuffer (values : List UInt8) : Option HexBuffer :=
  if valid : values ≠ [] ∧ values.length < 2 ^ 32 then some ⟨values, valid.1, valid.2⟩ else none

def closing (directive : Option Directive) : List Token → Option (Directive × List Token)
  | .closeParen :: .semiColon :: rest => directive.map fun directive => (directive, rest)
  | _ => none

def function : List Token → Option (Directive × List Token)
  | .fFuzzString :: .openParen :: .qString one :: tokens =>
      let (more, rest) := moreStrings tokens
      closing (some (.fuzzString one more)) rest
  | .fHex :: .openParen :: tokens =>
      let (values, rest) := hexs tokens
      closing ((hexBuffer values).map .hex) rest
  | .fFuzzHex :: .openParen :: .qString filename :: .comma :: tokens =>
      let (values, rest) := hexs tokens
      closing ((hexBuffer values).map (.fuzzHex (some filename))) rest
  | .fFuzzHex :: .openParen :: tokens =>
      let (values, rest) := hexs tokens
      closing ((hexBuffer values).map (.fuzzHex none)) rest
  | token :: .openParen :: .qString name :: tokens =>
      closing ((nameFunction token).map fun function => function name) tokens
  | _ => none

theorem length_hexs (tokens : List Token) : (hexs tokens).2.length ≤ tokens.length := by
  fun_induction hexs tokens with
  | case1 value tokens values rest parsed induction =>
      rw [parsed] at induction
      exact Nat.le_succ_of_le induction
  | case2 tokens other => exact Nat.le_refl _

theorem length_moreStrings (tokens : List Token) :
    (moreStrings tokens).2.length ≤ tokens.length := by
  fun_induction moreStrings tokens with
  | case1 string tokens strings rest parsed induction =>
      rw [parsed] at induction
      exact Nat.le_trans induction (Nat.le_add_right _ 2)
  | case2 tokens other => exact Nat.le_refl _

theorem length_closing {directive : Option Directive} {tokens rest : List Token}
    {result : Directive} (closed : closing directive tokens = some (result, rest)) :
    rest.length < tokens.length := by
  unfold closing at closed
  split at closed
  · obtain ⟨same, known, shape⟩ := Option.map_eq_some_iff.mp closed
    cases shape
    exact Nat.lt_add_of_pos_right Nat.two_pos
  · cases closed

theorem length_function {tokens rest : List Token} {directive : Directive}
    (parsed : function tokens = some (directive, rest)) : rest.length < tokens.length := by
  unfold function at parsed
  split at parsed
  · rename_i one tokens
    have bound := length_moreStrings tokens
    have shorter := length_closing parsed
    simp only [List.length_cons]
    omega
  · rename_i tokens
    have bound := length_hexs tokens
    have shorter := length_closing parsed
    simp only [List.length_cons]
    omega
  · rename_i filename tokens
    have bound := length_hexs tokens
    have shorter := length_closing parsed
    simp only [List.length_cons]
    omega
  · rename_i tokens _
    have bound := length_hexs tokens
    have shorter := length_closing parsed
    simp only [List.length_cons]
    omega
  · have shorter := length_closing parsed
    simp only [List.length_cons]
    omega
  · cases parsed

/-- `start : /* empty */ | start function` -/
def start (tokens : List Token) : Option (List Directive) :=
  if tokens = [] then some []
  else
    match _ : function tokens with
    | none => none
    | some (directive, rest) => (start rest).map (directive :: ·)
termination_by tokens.length
decreasing_by exact length_function ‹_›

/-- A function at the front is read first. -/
theorem start_function {tokens rest : List Token} {directive : Directive}
    (parsed : function tokens = some (directive, rest)) :
    start tokens = (start rest).map (directive :: ·) := by
  have some_ : tokens ≠ [] := by
    rintro rfl
    cases parsed
  rw [start, if_neg some_]
  split
  · rename_i failed
    cases failed.symm.trans parsed
  · rename_i now after same
    cases same.symm.trans parsed
    rfl

end Grammar

/-- The directives of a script, if the lexer and the grammar accept it. -/
def readScript (text : List UInt8) : Option (List Directive) :=
  (Lexer.lex text).bind Grammar.start

end Segvault.Autodafe
