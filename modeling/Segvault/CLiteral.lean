import Mathlib.Data.List.Basic

namespace Segvault

/-! The value of a string literal of C. -/

namespace CLiteral

def octalDigit (symbol : Char) : Bool := '0' ≤ symbol ∧ symbol ≤ '7'

def hexDigit (symbol : Char) : Bool :=
  '0' ≤ symbol ∧ symbol ≤ '9' ∨ 'a' ≤ symbol ∧ symbol ≤ 'f' ∨ 'A' ≤ symbol ∧ symbol ≤ 'F'

def digitValue (symbol : Char) : Nat :=
  if symbol ≤ '9' then symbol.toNat - '0'.toNat
  else if symbol ≤ 'F' then symbol.toNat - 'A'.toNat + 10
  else symbol.toNat - 'a'.toNat + 10

def ofDigits (base : Nat) (digits : List Char) : Nat :=
  digits.foldl (fun value digit => value * base + digitValue digit) 0

/-- The value of an escape has to be one of `unsigned char`. -/
def byte (value : Nat) : Option UInt8 :=
  if value < 256 then some (UInt8.ofNat value) else none

def simpleEscape : Char → Option UInt8
  | '\'' => some 39
  | '"' => some 34
  | '?' => some 63
  | '\\' => some 92
  | 'a' => some 7
  | 'b' => some 8
  | 'f' => some 12
  | 'n' => some 10
  | 'r' => some 13
  | 't' => some 9
  | 'v' => some 11
  | _ => none

/-- An escape after its backslash, and what follows it: up to three octal digits, or all the
hexadecimal digits there are. -/
def escape : List Char → Option (UInt8 × List Char)
  | [] => none
  | symbol :: rest =>
      if octalDigit symbol then
        let digits := (rest.takeWhile octalDigit).take 2
        (byte (ofDigits 8 (symbol :: digits))).map fun value => (value, rest.drop digits.length)
      else if symbol = 'x' then
        let digits := rest.takeWhile hexDigit
        if digits = [] then none
        else (byte (ofDigits 16 digits)).map fun value => (value, rest.drop digits.length)
      else (simpleEscape symbol).map fun value => (value, rest)

theorem length_escape {text after : List Char} {value : UInt8}
    (escaped : escape text = some (value, after)) : after.length ≤ text.length := by
  cases text with
  | nil => cases escaped
  | cons symbol rest =>
      have shorter (count : Nat) : (rest.drop count).length ≤ rest.length + 1 := by
        rw [List.length_drop]
        omega
      simp only [escape] at escaped
      split at escaped
      · obtain ⟨_, -, same⟩ := Option.map_eq_some_iff.mp escaped
        cases same
        exact shorter _
      · split at escaped
        · split at escaped
          · cases escaped
          · obtain ⟨_, -, same⟩ := Option.map_eq_some_iff.mp escaped
            cases same
            exact shorter _
        · obtain ⟨_, -, same⟩ := Option.map_eq_some_iff.mp escaped
          cases same
          exact Nat.le_succ _

/-- The bytes up to the closing quote, which has to be the end. -/
def body : List Char → Option (List UInt8)
  | [] => none
  | symbol :: rest =>
      if symbol = '"' then if rest = [] then some [] else none
      else if symbol = '\\' then
        match _escaped : escape rest with
        | none => none
        | some (value, after) => (body after).map (value :: ·)
      else if symbol = '\n' ∨ 128 ≤ symbol.toNat then none
      else (body rest).map (UInt8.ofNat symbol.toNat :: ·)
termination_by text => text.length
decreasing_by
  · exact Nat.lt_succ_of_le (length_escape _escaped)
  · exact Nat.lt_succ_self _

def value : List Char → Option (List UInt8)
  | [] => none
  | symbol :: rest => if symbol = '"' then body rest else none

theorem body_quote : body ['"'] = some [] := by
  rw [body]
  rfl

theorem body_escape (rest : List Char) :
    body ('\\' :: rest) =
      (escape rest).bind fun result => (body result.2).map (result.1 :: ·) := by
  rw [body, if_neg (by decide), if_pos rfl]
  split
  · rename_i none_
    rw [none_]
    rfl
  · rename_i some_
    rw [some_]
    rfl

theorem body_plain {symbol : Char} (notQuote : symbol ≠ '"') (notEscape : symbol ≠ '\\')
    (notNewline : symbol ≠ '\n') (ascii : symbol.toNat < 128) (rest : List Char) :
    body (symbol :: rest) = (body rest).map (UInt8.ofNat symbol.toNat :: ·) := by
  rw [body, if_neg notQuote, if_neg notEscape, if_neg]
  rintro (newline | wide)
  · exact notNewline newline
  · exact absurd ascii (Nat.not_lt.mpr wide)

end CLiteral

end Segvault
