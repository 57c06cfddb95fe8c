import Segvault.Autodafe.OutputString

namespace Segvault.Autodafe

/-! `recover_raw_string`: `pdml2ad/recover.c`. A read or write outside of the string and the overflow
of an `int` have no value. -/

namespace RawString

/-- `strtoul(hex_2, NULL, 16)` of two hexadecimal digits. -/
def strtoul (high low : UInt8) : Nat := Lexer.hexValue high * 16 + Lexer.hexValue low

/-- The loop of `convert_asc_string`, which returns 0 at the first character that is not one of a
text. -/
def convertFrom (i : Nat) : List UInt8 → Option (Option (List UInt8))
  | high :: low :: string =>
      let c := strtoul high low
      if c < 7 ∨ 126 < c then some none
      else if i + 2 < 2 ^ 31 then
        (convertFrom (i + 2) string).map (·.map (UInt8.ofNat c :: ·))
      else none
  -- the string must have an even number of digits
  | [_] => none
  | [] => some (some [])

def convertAscString (string : List UInt8) : Option (Option (List UInt8)) :=
  (convertFrom 0 string).map (·.map (· ++ [0]))

def store (buffer : List UInt8) (index : Nat) (byte : UInt8) : Option (List UInt8) :=
  if index < buffer.length then some (buffer.set index byte) else none

def removeRn (string : List UInt8) : Option (Nat × List UInt8) := do
  let size := CString.strlen string
  if 1 < size then
    if (← string[size - 1]?) = 13 then
      some (3, ← store string (size - 1) 0)
    else if (← string[size - 1]?) = 10 then
      let string ← store string (size - 1) 0
      if 2 < size then
        if (← string[size - 2]?) = 13 then some (2, ← store string (size - 2) 0)
        else some (1, string)
      else some (1, string)
    else some (0, string)
  else some (0, string)

/-- A call of `output_tab_string`. -/
structure Call where
  string : List UInt8
  rn : Nat

/-- The loop over the sub strings. -/
def cutLoop (rnValue size i offset : Nat) (string : List UInt8) : Option (List Call) :=
  if i < size then
    if i = size - 1 then do
      let calls ← cutLoop rnValue size (i + 1) offset string
      some (⟨CString.text string offset, rnValue⟩ :: calls)
    else
      match string[i]? with
      | none => none
      | some byte =>
          if byte = 13 then do
            -- `string[i+1] = '\n'` is an assignment, so that the branch for `\r` is not reached
            let string ← store string (i + 1) 10
            let string ← store string i 0
            let calls ← cutLoop rnValue size (i + 1 + 1) (i + 1 + 1) string
            some (⟨CString.text string offset, 2⟩ :: calls)
          else if byte = 10 then do
            -- `string[i] == '\0'` changes nothing
            let calls ← cutLoop rnValue size (i + 1) (i + 1) string
            some (⟨CString.text string offset, 1⟩ :: calls)
          else cutLoop rnValue size (i + 1) offset string
  else some []
termination_by size - i

/-- `string[strlen(string)-1]` -/
def lastCharacter (string : List UInt8) : Option UInt8 :=
  match CString.strlen string with
  | 0 => none
  | size + 1 => string[size]?

end RawString

open RawString in
/-- What is returned, and what is handed to `output_tab_string`. -/
def recoverRawString (value : List UInt8) : Option (Nat × List Call) := do
  match ← convertAscString value with
  | none => some (0, [])
  | some string =>
      if (← lastCharacter string) ≠ 10 then some (1, [])
      else
        let (rnValue, string) ← removeRn string
        let calls ← cutLoop rnValue (CString.strlen string) 0 0 string
        some (100, calls)

/-- A value of an even number of hexadecimal digits. -/
structure HexValue where
  digits : List UInt8
  hex : ∀ digit ∈ digits, Lexer.isH digit = true
  even : Even digits.length

namespace RawString

/-- The bytes that pairs of digits stand for. -/
def decode : List UInt8 → List UInt8
  | high :: low :: digits => UInt8.ofNat (strtoul high low) :: decode digits
  | _ => []

end RawString

def HexValue.bytes (value : HexValue) : List UInt8 := RawString.decode value.digits

namespace RawString

/-! The conversion. -/

def isAsc (byte : UInt8) : Bool := 7 ≤ byte && byte ≤ 126

theorem hexValue_lt (byte : UInt8) : Lexer.hexValue byte < 16 := by
  unfold Lexer.hexValue
  simp only [Bool.and_eq_true, decide_eq_true_eq, UInt8.le_iff_toNat_le, UInt8.reduceToNat]
  split
  · omega
  · split
    · omega
    · split <;> omega

theorem isAsc_strtoul (high low : UInt8) :
    isAsc (UInt8.ofNat (strtoul high low)) = true ↔
      ¬ (strtoul high low < 7 ∨ 126 < strtoul high low) := by
  have small : strtoul high low < 256 := by
    have first := hexValue_lt high
    have second := hexValue_lt low
    unfold strtoul
    omega
  rw [isAsc, Bool.and_eq_true, decide_eq_true_eq, decide_eq_true_eq, UInt8.le_iff_toNat_le,
    UInt8.le_iff_toNat_le, UInt8.toNat_ofNat_of_lt' small]
  change 7 ≤ strtoul high low ∧ strtoul high low ≤ 126 ↔ _
  omega

/-- What is converted: the first character that is none of a text decides, unless `i` overflows
before. -/
theorem convertFrom_eq {digits : List UInt8} (even : Even digits.length) {i : Nat}
    (started : i < 2 ^ 31) :
    convertFrom i digits =
      if i + 2 * ((decode digits).takeWhile isAsc).length < 2 ^ 31 then
        some (if (decode digits).all isAsc then some (decode digits) else none)
      else none := by
  fun_induction convertFrom i digits with
  | case1 i high low digits c other =>
      have notAsc : ¬ isAsc (UInt8.ofNat c) = true := fun asc =>
        (isAsc_strtoul high low).mp asc other
      rw [decode, List.takeWhile_cons_of_neg notAsc, List.all_cons, Bool.eq_false_iff.mpr notAsc]
      exact (if_pos started).symm
  | case2 i high low digits c notOther bound induction =>
      have asc : isAsc (UInt8.ofNat c) = true := (isAsc_strtoul high low).mpr notOther
      have evenRest : Even digits.length := by
        rwa [List.length_cons, List.length_cons, Nat.even_add_one, Nat.even_add_one, not_not] at even
      rw [induction evenRest bound, decode, List.takeWhile_cons_of_pos asc, List.all_cons, asc,
        List.length_cons, Nat.mul_succ, Nat.add_assoc, Nat.add_comm 2, Bool.true_and]
      split
      · rw [Option.map_some]
        split <;> rfl
      · rfl
  | case3 i high low digits c notOther overflow =>
      have asc : isAsc (UInt8.ofNat c) = true := (isAsc_strtoul high low).mpr notOther
      rw [decode, List.takeWhile_cons_of_pos asc, List.length_cons, if_neg (by omega)]
  | case4 i digit => exact absurd even (Nat.not_even_iff_odd.mpr odd_one)
  | case5 i =>
      have whole : decode [] = [] := rfl
      rw [whole]
      exact (if_pos started).symm

/-! The line end. -/

/-- A text without the line end that `remove_rn` takes off it: not all of the text. -/
def withoutLineEnd (bytes : List UInt8) : List UInt8 :=
  if bytes.length ≤ 1 then bytes
  else if 2 < bytes.length ∧ bytes[bytes.length - 2]? = some 13 then bytes.take (bytes.length - 2)
  else bytes.take (bytes.length - 1)

section

variable {buffer before after : List UInt8} {old : UInt8} {index : Nat}

theorem load_eq (same : buffer = before ++ old :: after) (place : index = before.length) :
    buffer[index]? = some old := by
  rw [same, place, List.getElem?_append_right (Nat.le_refl _), Nat.sub_self]
  rfl

theorem store_eq (same : buffer = before ++ old :: after) (place : index = before.length)
    (byte : UInt8) : store buffer index byte = some (before ++ byte :: after) := by
  have inside : before.length < buffer.length := by
    rw [same, List.length_append, List.length_cons]
    omega
  rw [place, store, if_pos inside, same, List.set_append_right _ _ (Nat.le_refl _), Nat.sub_self,
    List.set_cons_zero]

end

theorem long_iff (line : List UInt8) : 2 < line.length + 2 ↔ line ≠ [] := by
  rw [← List.length_pos_iff]
  omega

theorem withoutLineEnd_eq (line : List UInt8) (before : UInt8) :
    withoutLineEnd (line ++ [before, 10]) =
      if line ≠ [] ∧ before = 13 then line else line ++ [before] := by
  have length : (line ++ [before, 10]).length = line.length + 2 := List.length_append
  have previous : (line ++ [before, 10])[line.length]? = some before := load_eq rfl rfl
  have long := long_iff line
  have whole : line ++ [before] ++ [10] = line ++ [before, 10] := List.append_assoc _ _ _
  have butOne : (line ++ [before, 10]).take (line.length + 1) = line ++ [before] :=
    whole ▸ List.take_left' (@List.length_append _ line [before])
  rw [withoutLineEnd, length, if_neg (by omega), Nat.add_sub_cancel, previous, List.take_left]
  exact if_congr (and_congr long Option.some_inj) rfl butOne

theorem removeRn_eq {line : List UInt8} {before : UInt8} (noNul : 0 ∉ line ++ [before, 10]) :
    removeRn (line ++ [before, 10] ++ [0]) =
      if line ≠ [] ∧ before = 13 then some (2, line ++ 0 :: [0, 0])
      else some (1, line ++ [before] ++ 0 :: [0]) := by
  have split_ : line ++ [before, 10] ++ [0] = (line ++ [before]) ++ 10 :: [0] := by
    simp only [List.append_assoc, List.cons_append, List.nil_append]
  have place : line.length + 2 - 1 = (line ++ [before]).length :=
    (@List.length_append _ line [before]).symm
  have last := load_eq split_ place
  have stored := store_eq split_ place 0
  have split_' : line ++ [before] ++ 0 :: [0] = line ++ before :: [0, 0] := by
    rw [List.append_assoc]
    rfl
  have place' : line.length + 2 - 2 = line.length := rfl
  have previous := load_eq split_' place'
  have storedBoth := store_eq split_' place' 0
  have size : CString.strlen (line ++ [before, 10] ++ [0]) = line.length + 2 :=
    (CString.strlen_eq noNul []).trans List.length_append
  have some_ : 1 < line.length + 2 := Nat.lt_add_left _ Nat.one_lt_two
  rw [removeRn, size]
  have notR : ¬ (10 : UInt8) = 13 := by decide
  simp only [if_pos some_, last, stored, previous, storedBoth, Option.bind_eq_bind,
    Option.bind_some, if_neg notR, if_true, long_iff]
  by_cases long : line ≠ []
  · rw [if_pos long, if_congr (and_iff_right long) rfl rfl]
  · rw [if_neg long, if_neg fun both => long both.1]

theorem removeRn_spec {bytes : List UInt8} (noNul : 0 ∉ bytes) (ends : bytes.getLast? = some 10) :
    ∃ rn rest, removeRn (bytes ++ [0]) = some (rn, withoutLineEnd bytes ++ 0 :: rest) ∧
      bytes = withoutLineEnd bytes ++ lineEnd rn ∧ withoutLineEnd bytes ≠ [] ∧
      (rn = 1 ∨ rn = 2 ∨ (withoutLineEnd bytes).length = 1) := by
  obtain ⟨front, rfl⟩ : ∃ front, bytes = front ++ [10] := by
    obtain ⟨front, same⟩ := List.getLast?_eq_some_iff.mp ends
    exact ⟨front, same⟩
  obtain rfl | ⟨line, before, rfl⟩ := List.eq_nil_or_concat front
  · exact ⟨0, [], rfl, rfl, List.cons_ne_nil _ _, .inr (.inr rfl)⟩
  · have whole : line.concat before ++ [10] = line ++ [before, 10] := by
      rw [List.concat_eq_append, List.append_assoc]
      rfl
    rw [whole] at noNul ⊢
    rw [removeRn_eq noNul, withoutLineEnd_eq]
    split
    · rename_i both
      exact ⟨2, [0, 0], rfl, by rw [both.2]; rfl, both.1, .inr (.inl rfl)⟩
    · exact ⟨1, [0], rfl, (List.append_assoc line [before] [10]).symm,
        List.append_ne_nil_of_right_ne_nil _ (List.cons_ne_nil _ _), .inl rfl⟩

/-! The sub strings, each from the text since the last cut and the text that is left. -/

def cuts (rnValue : Nat) (current : List UInt8) : List UInt8 → List Call
  | [] => []
  | [byte] => [⟨current ++ [byte], rnValue⟩]
  | byte :: next :: rest =>
      if byte = 13 then ⟨current, 2⟩ :: cuts rnValue [] rest
      else if byte = 10 then
        ⟨current ++ byte :: next :: rest, 1⟩ :: cuts rnValue [] (next :: rest)
      else cuts rnValue (current ++ [byte]) (next :: rest)

/-- The memory at a cut: what is behind, the text since the cut and the text that is left. -/
structure AtCut (string current rest : List UInt8) (offset i size : Nat) : Prop where
  held : ∃ front tail, front.length = offset ∧ string = front ++ (current ++ (rest ++ 0 :: tail))
  noNul : 0 ∉ current ++ rest
  position : i = offset + current.length
  size : size = i + rest.length

namespace AtCut

variable {string current rest : List UInt8} {offset i size : Nat}

theorem text (cut : AtCut string current rest offset i size) :
    CString.text string offset = current ++ rest := by
  obtain ⟨front, tail, start, held⟩ := cut.held
  refine @CString.text_eq _ _ tail _ ?_ cut.noNul
  rw [held, List.drop_left' start, List.append_assoc]

theorem split {byte : UInt8} (cut : AtCut string current (byte :: rest) offset i size) :
    ∃ before after, i = before.length ∧ string = before ++ byte :: after := by
  obtain ⟨front, tail, start, held⟩ := cut.held
  refine ⟨front ++ current, rest ++ 0 :: tail, ?_, ?_⟩
  · rw [cut.position, List.length_append, start]
  · rw [held, List.append_assoc]
    rfl

/-- The character at `i` goes to the text since the cut. -/
theorem next {byte : UInt8} (cut : AtCut string current (byte :: rest) offset i size) :
    AtCut string (current ++ [byte]) rest offset (i + 1) size := by
  obtain ⟨front, tail, start, held⟩ := cut.held
  refine ⟨⟨front, tail, start, ?_⟩, ?_, ?_, ?_⟩
  · rw [held, List.append_assoc current]
    rfl
  · rw [List.append_assoc]
    exact cut.noNul
  · rw [cut.position, List.length_append, Nat.add_assoc, List.length_singleton]
  · rw [cut.size, List.length_cons]
    omega

/-- A cut after the character at `i`. -/
theorem cutHere {byte : UInt8} (cut : AtCut string current (byte :: rest) offset i size) :
    AtCut string [] rest (i + 1) (i + 1) size := by
  obtain ⟨front, tail, start, held⟩ := cut.next.held
  refine ⟨⟨front ++ (current ++ [byte]), tail, ?_, ?_⟩, ?_, rfl, cut.next.size⟩
  · rw [List.length_append, start, cut.next.position]
  · rw [held, List.append_assoc front]
    rfl
  · exact fun null => cut.next.noNul (List.mem_append_right _ null)

/-- A `\r` and the character after it, of which one becomes NUL and the other `\n`. -/
theorem stores {byte next : UInt8}
    (cut : AtCut string current (byte :: next :: rest) offset i size) :
    ∃ first second, store string (i + 1) 10 = some first ∧ store first i 0 = some second ∧
      CString.text second offset = current ∧ AtCut second [] rest (i + 1 + 1) (i + 1 + 1) size := by
  obtain ⟨front, tail, start, held⟩ := cut.held
  have length : i = (front ++ current).length := by rw [cut.position, List.length_append, start]
  have split_ : front ++ current ++ [byte] ++ 10 :: (rest ++ 0 :: tail) =
      front ++ current ++ byte :: 10 :: (rest ++ 0 :: tail) := List.append_assoc _ _ _
  have first := @store_eq string (front ++ current ++ [byte]) (rest ++ 0 :: tail) next (i + 1)
    (by rw [held]; simp only [List.append_assoc, List.cons_append, List.nil_append])
    (by rw [List.length_append, ← length, List.length_singleton]) 10
  have noNul := cut.noNul
  rw [List.mem_append, not_or] at noNul
  refine ⟨_, _, first, store_eq split_ length 0, ?_, ⟨⟨front ++ current ++ [0, 10], tail, ?_, ?_⟩,
    ?_, rfl, ?_⟩⟩
  · refine @CString.text_eq _ _ (10 :: (rest ++ 0 :: tail)) _ ?_ noNul.1
    rw [List.append_assoc, List.drop_left' start]
  · rw [List.length_append, ← length]
    rfl
  · rw [List.append_assoc (front ++ current)]
    rfl
  · exact fun null => noNul.2 (List.mem_cons_of_mem _ (List.mem_cons_of_mem _ null))
  · rw [cut.size, List.length_cons, List.length_cons]
    omega

end AtCut

theorem cutLoop_eq {rnValue size i offset : Nat} {current rest string : List UInt8}
    (cut : AtCut string current rest offset i size) :
    cutLoop rnValue size i offset string = some (cuts rnValue current rest) := by
  fun_induction cuts rnValue current rest generalizing i offset string with
  | case1 current => rw [cutLoop, if_neg (by rw [cut.size]; exact Nat.lt_irrefl i)]
  | case2 current byte =>
      have length : size = i + 1 := cut.size
      have done : ¬ i + 1 < size := by omega
      rw [cutLoop, if_pos (by omega), if_pos (by omega), cutLoop, if_neg done, cut.text]
      rfl
  | case3 current next rest induction =>
      have length : size = i + (rest.length + 2) := cut.size
      obtain ⟨before, after, place, same⟩ := cut.split
      obtain ⟨first, second, stored, storedBoth, text, cutAfter⟩ := cut.stores
      rw [cutLoop, if_pos (by omega), if_neg (by omega), load_eq same place]
      simp only [stored, storedBoth, text, induction cutAfter, Option.bind_eq_bind,
        Option.bind_some, if_true]
  | case4 current next rest notR induction =>
      have length : size = i + (rest.length + 2) := cut.size
      obtain ⟨before, after, place, same⟩ := cut.split
      rw [cutLoop, if_pos (by omega), if_neg (by omega), load_eq same place]
      simp only [if_neg notR, induction cut.cutHere, cut.text, Option.bind_eq_bind,
        Option.bind_some, if_true]
  | case5 current byte next rest notR notN induction =>
      have length : size = i + (rest.length + 2) := cut.size
      obtain ⟨before, after, place, same⟩ := cut.split
      rw [cutLoop, if_pos (by omega), if_neg (by omega), load_eq same place]
      simp only [if_neg notR, if_neg notN]
      exact induction cut.next

/-! The texts that are cut right. -/

/-- Lines that end with `\r\n`, and after them a character that is not looked at, with a line before
it. -/
inductive Lined : List UInt8 → Prop
  | last (byte : UInt8) : Lined [byte]
  | plain {byte : UInt8} {rest : List UInt8} (notR : byte ≠ 13) (notN : byte ≠ 10)
      (later : Lined rest) : Lined (byte :: rest)
  | lineEnd {rest : List UInt8} (later : Lined rest) : Lined (13 :: 10 :: rest)

def Call.bytes (call : Call) : List UInt8 := call.string ++ lineEnd call.rn

theorem not_lined_nil : ¬ Lined [] := nofun

theorem lined_r {next : UInt8} {rest : List UInt8} :
    Lined (13 :: next :: rest) ↔ next = 10 ∧ Lined rest := by
  constructor
  · intro lined
    cases lined with
    | plain notR => exact absurd rfl notR
    | lineEnd later => exact ⟨rfl, later⟩
  · rintro ⟨rfl, later⟩
    exact .lineEnd later

theorem not_lined_n {next : UInt8} {rest : List UInt8} : ¬ Lined (10 :: next :: rest) := by
  intro lined
  cases lined with
  | plain notR notN => exact notN rfl

theorem lined_plain {byte next : UInt8} {rest : List UInt8} (notR : byte ≠ 13) (notN : byte ≠ 10) :
    Lined (byte :: next :: rest) ↔ Lined (next :: rest) := by
  constructor
  · intro lined
    cases lined with
    | plain _ _ later => exact later
    | lineEnd => exact absurd rfl notR
  · exact .plain notR notN

/-- Something is handed over, with a line end. -/
theorem length_cuts {rnValue : Nat} (known : rnValue = 1 ∨ rnValue = 2) {rest : List UInt8}
    (some_ : rest ≠ []) (current : List UInt8) :
    2 ≤ ((cuts rnValue current rest).flatMap Call.bytes).length := by
  fun_induction cuts rnValue current rest with
  | case1 current => exact absurd rfl some_
  | case2 current byte =>
      have ends : 1 ≤ (lineEnd rnValue).length := by
        obtain rfl | rfl := known <;> decide
      simp only [List.flatMap_singleton, Call.bytes, List.length_append, List.length_singleton]
      omega
  | case3 current next rest induction =>
      simp only [List.flatMap_cons, Call.bytes, List.length_append, lineEnd, List.length_cons]
      omega
  | case4 current next rest notR induction =>
      simp only [List.flatMap_cons, Call.bytes, List.length_append, lineEnd, List.length_cons]
      omega
  | case5 current byte next rest notR notN induction => exact induction (List.cons_ne_nil _ _)

/-- What is handed over is the text, and its line end, exactly if it is cut right. -/
theorem cuts_bytes_iff {rnValue : Nat} {rest : List UInt8}
    (known : rnValue = 1 ∨ rnValue = 2 ∨ rest.length = 1) (current : List UInt8) :
    (cuts rnValue current rest).flatMap Call.bytes = current ++ (rest ++ lineEnd rnValue) ↔
      Lined rest := by
  fun_induction cuts rnValue current rest with
  | case1 current =>
      refine iff_of_false (fun same => ?_) not_lined_nil
      have nothing : lineEnd rnValue = [] :=
        (List.append_eq_nil_iff.mp (List.append_eq_nil_iff.mp same.symm).2).2
      obtain rfl | rfl | empty := known
      · cases nothing
      · cases nothing
      · cases empty
  | case2 current byte =>
      refine iff_of_true ?_ (.last byte)
      rw [List.flatMap_singleton, Call.bytes, List.append_assoc]
  | case3 current next rest induction =>
      have two : rnValue = 1 ∨ rnValue = 2 :=
        known.imp_right fun either => either.resolve_right nofun
      have same := induction (two.imp_right .inl)
      rw [lined_r, ← same, List.flatMap_cons, Call.bytes, List.append_assoc,
        List.append_cancel_left_eq]
      simp only [lineEnd, List.cons_append, List.nil_append, List.cons.injEq, true_and]
      exact and_congr_left' eq_comm
  | case4 current next rest notR induction =>
      have two : rnValue = 1 ∨ rnValue = 2 :=
        known.imp_right fun either => either.resolve_right nofun
      refine iff_of_false (fun same => ?_) not_lined_n
      have more := length_cuts two (List.cons_ne_nil next rest) []
      have lengths := congrArg List.length same
      have ends : (lineEnd rnValue).length ≤ 2 := by
        obtain rfl | rfl := two <;> decide
      simp only [List.flatMap_cons, Call.bytes, List.length_append, List.length_cons,
        show (lineEnd 1).length = 1 from rfl] at lengths
      omega
  | case5 current byte next rest notR notN induction =>
      have same := induction (known.imp_right fun either => .inl (either.resolve_right nofun))
      rw [lined_plain notR notN, ← same, List.append_assoc]
      rfl

theorem convertAscString_eq (value : HexValue) :
    convertAscString value.digits =
      if (value.bytes.takeWhile isAsc).length < 2 ^ 30 then
        some (if value.bytes.all isAsc then some (value.bytes ++ [0]) else none)
      else none := by
  have bound : 0 + 2 * (value.bytes.takeWhile isAsc).length < 2 ^ 31 ↔
      (value.bytes.takeWhile isAsc).length < 2 ^ 30 := by omega
  rw [convertAscString, convertFrom_eq value.even (by decide), ← HexValue.bytes,
    if_congr bound rfl rfl]
  split
  · rw [Option.map_some]
    split <;> rfl
  · rfl

theorem lastCharacter_eq {bytes : List UInt8} (noNul : 0 ∉ bytes) :
    lastCharacter (bytes ++ [0]) = bytes.getLast? := by
  rw [lastCharacter, CString.strlen_eq noNul]
  obtain rfl | ⟨front, last, rfl⟩ := List.eq_nil_or_concat bytes
  · rfl
  · rw [List.concat_eq_append, List.length_append, List.getLast?_concat]
    exact @load_eq _ _ [0] _ _ (List.append_assoc _ _ _) rfl

theorem noNul_of_asc {bytes : List UInt8} (asc : bytes.all isAsc = true) : 0 ∉ bytes :=
  fun null => absurd (List.all_eq_true.mp asc 0 null) (by decide)

/-- What a converted text is cut into. -/
theorem recoverRawString_asc {value : HexValue}
    (short : (value.bytes.takeWhile isAsc).length < 2 ^ 30) (asc : value.bytes.all isAsc = true) :
    recoverRawString value.digits = (do
      if (← value.bytes.getLast?) ≠ 10 then some (1, [])
      else
        let (rnValue, string) ← removeRn (value.bytes ++ [0])
        let calls ← cutLoop rnValue (CString.strlen string) 0 0 string
        some (100, calls)) := by
  have converted := convertAscString_eq value
  rw [if_pos short, if_pos asc] at converted
  rw [recoverRawString, converted, Option.bind_eq_bind, Option.bind_some]
  dsimp only
  rw [lastCharacter_eq (noNul_of_asc asc)]

/-- A text that ends its line is cut. -/
theorem recoverRawString_line {value : HexValue}
    (short : (value.bytes.takeWhile isAsc).length < 2 ^ 30) (asc : value.bytes.all isAsc = true)
    (ends : value.bytes.getLast? = some 10) :
    ∃ rnValue, (rnValue = 1 ∨ rnValue = 2 ∨ (withoutLineEnd value.bytes).length = 1) ∧
      value.bytes = withoutLineEnd value.bytes ++ lineEnd rnValue ∧
      recoverRawString value.digits =
        some (100, cuts rnValue [] (withoutLineEnd value.bytes)) := by
  have noNul := noNul_of_asc asc
  obtain ⟨rnValue, rest, removed, same, -, known⟩ := removeRn_spec noNul ends
  refine ⟨rnValue, known, same, ?_⟩
  have noNulText : 0 ∉ withoutLineEnd value.bytes := fun null =>
    noNul (by rw [same]; exact List.mem_append_left _ null)
  have cut : AtCut (withoutLineEnd value.bytes ++ 0 :: rest) [] (withoutLineEnd value.bytes) 0 0
      (withoutLineEnd value.bytes).length :=
    ⟨⟨[], rest, rfl, rfl⟩, noNulText, rfl, (Nat.zero_add _).symm⟩
  rw [recoverRawString_asc short asc, ends, removed]
  simp only [Option.bind_eq_bind, Option.bind_some, ne_eq, not_true_eq_false, if_false,
    CString.strlen_eq noNulText, cutLoop_eq cut]

end RawString

open RawString in
/-- No byte is lost exactly if the text before its line end is of lines that end with `\r\n`. -/
theorem recoverRawString_keeps_iff (value : HexValue) :
    (∃ code calls, recoverRawString value.digits = some (code, calls) ∧
        (code = 100 → calls.flatMap Call.bytes = value.bytes) ∧ (code ≠ 100 → calls = [])) ↔
      (value.bytes.takeWhile isAsc).length < 2 ^ 30 ∧
        (value.bytes.all isAsc = true → value.bytes ≠ [] ∧
          (value.bytes.getLast? = some 10 → Lined (withoutLineEnd value.bytes))) := by
  have converted := convertAscString_eq value
  by_cases short : (value.bytes.takeWhile isAsc).length < 2 ^ 30
  · by_cases asc : value.bytes.all isAsc = true
    · rw [and_iff_right short, forall_prop_of_true asc]
      by_cases ends : value.bytes.getLast? = some 10
      · obtain ⟨rnValue, known, same, returned⟩ := recoverRawString_line short asc ends
        have some_ : value.bytes ≠ [] := by
          intro nothing
          rw [nothing] at ends
          cases ends
        have kept := cuts_bytes_iff known []
        rw [List.nil_append, ← same] at kept
        rw [and_iff_right some_, forall_prop_of_true ends, ← kept, returned]
        constructor
        · rintro ⟨code, calls, result, keeps, -⟩
          cases result
          exact keeps rfl
        · exact fun keeps => ⟨100, _, rfl, fun _ => keeps, fun other => absurd rfl other⟩
      · rw [recoverRawString_asc short asc]
        cases last : value.bytes.getLast? with
        | none =>
            refine iff_of_false ?_ fun both => both.1 (List.getLast?_eq_none_iff.mp last)
            rintro ⟨code, calls, returned, -⟩
            cases returned
        | some byte =>
            have other : byte ≠ 10 := fun newline => ends (newline ▸ last)
            refine iff_of_true ⟨1, [], if_pos other, nofun, fun _ => rfl⟩ ⟨?_, fun same => ?_⟩
            · rintro nothing
              rw [nothing] at last
              cases last
            · exact absurd (Option.some_inj.mp same) other
    · rw [if_pos short, if_neg asc] at converted
      refine iff_of_true ⟨0, [], ?_, nofun, fun _ => rfl⟩ ⟨short, fun all => absurd all asc⟩
      rw [recoverRawString, converted]
      rfl
  · rw [if_neg short] at converted
    refine iff_of_false ?_ fun both => short both.1
    rintro ⟨code, calls, returned, -⟩
    rw [recoverRawString, converted] at returned
    cases returned

open RawString in
/-- The text `a\nb\n`, of which a part is handed over twice. -/
theorem recoverRawString_twice : ∃ value : HexValue, value.digits = asciiBytes "610a620a" ∧
    ¬ ∃ code calls, recoverRawString value.digits = some (code, calls) ∧
      (code = 100 → calls.flatMap Call.bytes = value.bytes) ∧ (code ≠ 100 → calls = []) := by
  have hex : (asciiBytes "610a620a").all Lexer.isH = true := rfl
  let value : HexValue := ⟨asciiBytes "610a620a", List.all_eq_true.mp hex, ⟨4, rfl⟩⟩
  have bytes : value.bytes = [97, 10, 98, 10] := rfl
  refine ⟨value, rfl, ?_⟩
  rintro ⟨code, calls, returned, keeps, -⟩
  obtain ⟨rnValue, known, same, line⟩ :=
    @recoverRawString_line value (by rw [bytes]; decide) (by rw [bytes]; rfl) (by rw [bytes]; rfl)
  cases line.symm.trans returned
  have lined := (cuts_bytes_iff known []).mp ((keeps rfl).trans same)
  have text : withoutLineEnd value.bytes = [97, 10, 98] := by
    rw [bytes]
    rfl
  rw [text, lined_plain (by decide) (by decide)] at lined
  exact not_lined_n lined

end Segvault.Autodafe
