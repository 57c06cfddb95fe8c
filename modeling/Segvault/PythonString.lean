import Segvault.CLiteral
import Mathlib.Tactic.IntervalCases
import Mathlib.Tactic.Ring

namespace Segvault.PythonString

open CLiteral (octalDigit hexDigit digitValue ofDigits)

/-! The strings of Python 2, bytes or unicode, as the codes of their characters, and the text
that repr writes for them. -/

abbrev Text := List Char

def bound (unicode : Bool) : Nat := if unicode then 0x110000 else 256

structure Str where
  unicode : Bool
  codes : List Nat
  valid : ∀ code ∈ codes, code < bound unicode
  deriving DecidableEq

def hexChar (digit : Nat) : Char :=
  if digit < 10 then Char.ofNat ('0'.toNat + digit) else Char.ofNat ('a'.toNat + (digit - 10))

/-- The last digits of a number, most significant first. -/
def hexDigits : Nat → Nat → Text
  | 0, _ => []
  | count + 1, number => hexChar (number / 16 ^ count % 16) :: hexDigits count number

def escape (quote : Char) (code : Nat) : Text :=
  if code = quote.toNat ∨ code = '\\'.toNat then ['\\', Char.ofNat code]
  else if 0x10000 ≤ code then '\\' :: 'U' :: hexDigits 8 code
  else if 256 ≤ code then '\\' :: 'u' :: hexDigits 4 code
  else if code = '\t'.toNat then ['\\', 't']
  else if code = '\n'.toNat then ['\\', 'n']
  else if code = '\r'.toNat then ['\\', 'r']
  else if code < 32 ∨ 127 ≤ code then '\\' :: 'x' :: hexDigits 2 code
  else [Char.ofNat code]

def quoteOf (codes : List Nat) : Char :=
  if '\''.toNat ∈ codes ∧ '"'.toNat ∉ codes then '"' else '\''

def reprString (unicode : Bool) (codes : List Nat) : Text :=
  (if unicode then ['u'] else []) ++
    quoteOf codes :: (codes.flatMap (escape (quoteOf codes)) ++ [quoteOf codes])

/-! How a literal is read. -/

/-- So many hexadecimal digits at the start of a text. -/
def readHex (count : Nat) (text : Text) : Option Nat :=
  if (text.take count).length = count ∧ (text.take count).all hexDigit then
    some (ofDigits 16 (text.take count))
  else none

def simpleEscape : Char → Option Nat
  | '\\' => some 92
  | '\'' => some 39
  | '"' => some 34
  | 'a' => some 7
  | 'b' => some 8
  | 'f' => some 12
  | 'n' => some 10
  | 'r' => some 13
  | 't' => some 9
  | 'v' => some 11
  | _ => none

/-- The codes of an escape, and how many characters it has after the backslash. An escape that is
none stands for itself; `\N` needs the names of the characters, which are not modelled. -/
def readEscape (unicode : Bool) : Text → Option (List Nat × Nat)
  | [] => none
  | symbol :: rest =>
      if symbol = '\n' then some ([], 1)
      else if octalDigit symbol then
        let digits := symbol :: (rest.takeWhile octalDigit).take 2
        let code := ofDigits 8 digits
        some ([if unicode then code else code % 256], digits.length)
      else if symbol = 'x' then (readHex 2 rest).map fun code => ([code], 3)
      else if unicode ∧ symbol = 'u' then (readHex 4 rest).map fun code => ([code], 5)
      else if unicode ∧ symbol = 'U' then do
        let code ← readHex 8 rest
        if code < 0x110000 then some ([code], 9) else none
      else if unicode ∧ symbol = 'N' then none
      else
        match simpleEscape symbol with
        | some code => some ([code], 1)
        | none => if symbol.toNat < 128 then some (['\\'.toNat, symbol.toNat], 1) else none

/-- The codes that begin with a character of a literal, and how many characters more they take.
A character that is not ASCII depends on the encoding of the source. -/
def readUnit (unicode : Bool) (symbol : Char) (rest : Text) : Option (List Nat × Nat) :=
  if symbol = '\\' then readEscape unicode rest
  else if symbol = '\n' ∨ 128 ≤ symbol.toNat then none
  else some ([symbol.toNat], 0)

/-- What follows the opening quote: the codes, and the number of characters up to the closing
quote included. The first characters are skipped. -/
def readBody (unicode : Bool) (quote : Char) : Nat → Text → Option (List Nat × Nat)
  | _, [] => none
  | skip + 1, _ :: rest => (readBody unicode quote skip rest).map fun (codes, count) =>
      (codes, count + 1)
  | 0, symbol :: rest =>
      if symbol = quote then some ([], 1)
      else do
        let (codes, more) ← readUnit unicode symbol rest
        let (others, count) ← readBody unicode quote more rest
        some (codes ++ others, count + 1)

/-! repr is read back. -/

theorem digitValue_hexChar {digit : Nat} (small : digit < 16) :
    digitValue (hexChar digit) = digit ∧ hexDigit (hexChar digit) = true := by
  interval_cases digit <;> decide

@[simp] theorem length_hexDigits (count number : Nat) :
    (hexDigits count number).length = count := by
  induction count with
  | zero => rfl
  | succ count induction => rw [hexDigits, List.length_cons, induction]

theorem all_hexDigits (count number : Nat) : (hexDigits count number).all hexDigit = true := by
  induction count with
  | zero => rfl
  | succ count induction =>
      rw [hexDigits, List.all_cons, induction, Bool.and_true]
      exact (digitValue_hexChar (Nat.mod_lt _ (by decide))).2

theorem ofDigits_hexDigits (count number : Nat) :
    ofDigits 16 (hexDigits count number) = number % 16 ^ count := by
  suffices fold : ∀ value, (hexDigits count number).foldl
      (fun value digit => value * 16 + digitValue digit) value =
        value * 16 ^ count + number % 16 ^ count by
    simpa [ofDigits] using fold 0
  induction count with
  | zero => intro value; simp [hexDigits, Nat.mod_one]
  | succ count induction =>
      intro value
      rw [hexDigits, List.foldl_cons, induction,
        (digitValue_hexChar (Nat.mod_lt _ (by decide))).1, Nat.mod_pow_succ, pow_succ]
      ring

theorem readHex_hexDigits {count number : Nat} (small : number < 16 ^ count) (rest : Text) :
    readHex count (hexDigits count number ++ rest) = some number := by
  have digits : (hexDigits count number ++ rest).take count = hexDigits count number := by
    rw [List.take_left' (length_hexDigits count number)]
  rw [readHex, digits, if_pos ⟨length_hexDigits .., all_hexDigits ..⟩, ofDigits_hexDigits,
    Nat.mod_eq_of_lt small]

theorem readBody_skip (unicode : Bool) (quote : Char) (front rest : Text) :
    readBody unicode quote front.length (front ++ rest) =
      (readBody unicode quote 0 rest).map fun (codes, count) => (codes, count + front.length) := by
  induction front with
  | nil => simp
  | cons symbol front induction =>
      rw [List.length_cons, List.cons_append, readBody, induction, Option.map_map]
      rfl

theorem readBody_unit {unicode : Bool} {quote symbol : Char} {tail rest : Text} {code : Nat}
    (other : symbol ≠ quote)
    (unit : readUnit unicode symbol (tail ++ rest) = some ([code], tail.length)) :
    readBody unicode quote 0 (symbol :: tail ++ rest) =
      (readBody unicode quote 0 rest).map fun (codes, count) =>
        (code :: codes, count + (symbol :: tail).length) := by
  rw [List.cons_append, readBody, if_neg other, unit]
  simp only [Option.bind_eq_bind, Option.bind_some, readBody_skip]
  cases readBody unicode quote 0 rest with
  | none => rfl
  | some result => rfl

theorem toNat_ofNat {code : Nat} (ascii : code < 127) : (Char.ofNat code).toNat = code := by
  have valid : code.isValidChar := .inl (by omega)
  have made : Char.ofNat code = Char.ofNatAux code valid := dif_pos valid
  rw [made]
  rfl

/-- The escapes that repr writes, without their backslash. -/
theorem readEscape_hex {unicode : Bool} {code : Nat} (valid : code < bound unicode) (rest : Text) :
    (0x10000 ≤ code →
      readEscape unicode ('U' :: hexDigits 8 code ++ rest) = some ([code], 9)) ∧
    (256 ≤ code → code < 0x10000 →
      readEscape unicode ('u' :: hexDigits 4 code ++ rest) = some ([code], 5)) ∧
    (code < 256 → readEscape unicode ('x' :: hexDigits 2 code ++ rest) = some ([code], 3)) := by
  refine ⟨fun large => ?_, fun large small => ?_, fun small => ?_⟩
  · have isUnicode : unicode = true := by
      by_contra notUnicode
      rw [bound, if_neg notUnicode] at valid
      omega
    subst isUnicode
    have small : code < 0x110000 := valid
    have digits : readHex 8 (hexDigits 8 code ++ rest) = some code :=
      readHex_hexDigits (by omega) rest
    rw [List.cons_append, readEscape, if_neg (by decide), if_neg (by decide), if_neg (by decide),
      if_neg (by decide), if_pos (by decide), digits]
    simp [small]
  · have isUnicode : unicode = true := by
      by_contra notUnicode
      rw [bound, if_neg notUnicode] at valid
      omega
    subst isUnicode
    have digits : readHex 4 (hexDigits 4 code ++ rest) = some code :=
      readHex_hexDigits (by omega) rest
    rw [List.cons_append, readEscape, if_neg (by decide), if_neg (by decide), if_neg (by decide),
      if_pos (by decide), digits]
    rfl
  · have digits : readHex 2 (hexDigits 2 code ++ rest) = some code :=
      readHex_hexDigits (by omega) rest
    rw [List.cons_append, readEscape, if_neg (by decide), if_neg (by decide), if_pos rfl, digits]
    rfl

/-- What one escaped code adds to what is read after it. -/
theorem readBody_escape {unicode : Bool} {quote : Char} (either : quote = '\'' ∨ quote = '"')
    {code : Nat} (valid : code < bound unicode) (rest : Text) :
    readBody unicode quote 0 (escape quote code ++ rest) =
      (readBody unicode quote 0 rest).map fun (codes, count) =>
        (code :: codes, count + (escape quote code).length) := by
  have notBackslash : '\\' ≠ quote := by rcases either with rfl | rfl <;> decide
  have escaped (tail : Text) (more : Nat) (length : tail.length = more)
      (unit : readEscape unicode (tail ++ rest) = some ([code], more)) :
      readBody unicode quote 0 ('\\' :: tail ++ rest) =
        (readBody unicode quote 0 rest).map fun (codes, count) =>
          (code :: codes, count + ('\\' :: tail).length) :=
    readBody_unit notBackslash (by rw [readUnit, if_pos rfl, unit, length])
  obtain ⟨long, short, byte⟩ := readEscape_hex valid rest
  unfold escape
  split
  · rename_i marked
    refine escaped [Char.ofNat code] 1 rfl ?_
    rcases marked with same | same
    · rcases either with rfl | rfl <;> subst same <;> cases unicode <;> rfl
    · subst same
      cases unicode <;> rfl
  split
  · exact escaped _ 9 (by simp) (long ‹_›)
  split
  · exact escaped _ 5 (by simp) (short ‹_› (by omega))
  split
  · rename_i tab
    subst tab
    exact escaped ['t'] 1 rfl (by cases unicode <;> rfl)
  split
  · rename_i newline
    subst newline
    exact escaped ['n'] 1 rfl (by cases unicode <;> rfl)
  split
  · rename_i carriage
    subst carriage
    exact escaped ['r'] 1 rfl (by cases unicode <;> rfl)
  split
  · exact escaped _ 3 (by simp) (byte (by omega))
  · rename_i notMarked _ _ _ _ _ printable
    have code_eq : (Char.ofNat code).toNat = code := toNat_ofNat (by omega)
    have distinct {other : Char} (differs : code ≠ other.toNat) : Char.ofNat code ≠ other :=
      fun same => differs (by rw [← same, code_eq])
    refine @readBody_unit unicode quote (Char.ofNat code) [] rest code
      (distinct fun same => notMarked (.inl same)) ?_
    rw [readUnit, if_neg (distinct fun same => notMarked (.inr same)), if_neg, code_eq]
    · rfl
    · rintro (newline | wide)
      · have same := congrArg Char.toNat newline
        rw [code_eq] at same
        have ten : '\n'.toNat = 10 := rfl
        omega
      · omega

theorem readBody_codes {unicode : Bool} {quote : Char} (either : quote = '\'' ∨ quote = '"')
    {codes : List Nat} (valid : ∀ code ∈ codes, code < bound unicode) (rest : Text) :
    readBody unicode quote 0 (codes.flatMap (escape quote) ++ quote :: rest) =
      some (codes, (codes.flatMap (escape quote)).length + 1) := by
  induction codes with
  | nil => simp [readBody]
  | cons code codes induction =>
      rw [List.flatMap_cons, List.append_assoc,
        readBody_escape either (valid code List.mem_cons_self),
        induction fun other member => valid other (List.mem_cons_of_mem _ member)]
      simp only [Option.map_some, List.length_append]
      congr 2
      omega

end Segvault.PythonString
