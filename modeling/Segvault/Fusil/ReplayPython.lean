import Segvault.StringExpression
import Segvault.Occurrence

namespace Segvault.Fusil

open PythonString StringExpression

/-! formatValue and formatPath of replay_python.py. -/

/-- The loop of formatValue: no character differs from the first one. -/
def sameCharacters : Option Nat → List Nat → Bool
  | _, [] => true
  | none, item :: items => sameCharacters (some item) items
  | some first, item :: items => if first ≠ item then false else sameCharacters (some first) items

def formatValue (unicode : Bool) (value : List Nat) : Text :=
  let repeats := if 5 ≤ value.length then sameCharacters none value else false
  if repeats then
    reprString unicode (value.take 1) ++ [' ', '*', ' '] ++ Nat.toDigits 10 value.length
  else reprString unicode value

def cwdName : Text := ['c', 'w', 'd']
def cwdBytesName : Text := ['c', 'w', 'd', '_', 'b', 'y', 't', 'e', 's']

/-- The list `result` of formatPath, for the pattern and the name that stand for the directory. -/
def formatPieces (unicode : Bool) (pattern : List Nat) (replace : Text) (value : List Nat) :
    List Text :=
  let (result, value) :=
    if pattern.isPrefixOf value then ([replace], value.drop pattern.length) else ([], value)
  let (result, value) :=
    match find value pattern with
    | some pos =>
        let before := value.take pos
        let result := if before ≠ [] then result ++ [formatValue unicode before] else result
        (result ++ [replace], value.drop (pos + pattern.length))
    | none => (result, value)
  if pattern.isSuffixOf value then
    result ++ [formatValue unicode (value.take (value.length - pattern.length)), replace]
  else if value ≠ [] then result ++ [formatValue unicode value]
  else result

def formatPath (value : Str) (cwd cwdBytes : List Nat) : Text :=
  let pieces :=
    if value.unicode then formatPieces true cwd cwdName value.codes
    else formatPieces false cwdBytes cwdBytesName value.codes
  [' ', '+', ' '].intercalate pieces

/-- The names of the replay script: `cwd = getcwd()`, and the same directory as bytes. -/
def replayNames (cwd cwdBytes : List Nat) (word : Text) : Option Value :=
  if word = cwdName then some (.string true cwd)
  else if word = cwdBytesName then some (.string false cwdBytes)
  else none

/-! The pieces as terms. -/

theorem sameCharacters_iff (first : Nat) (items : List Nat) :
    sameCharacters (some first) items = true ↔ items = List.replicate items.length first := by
  induction items with
  | nil => simp [sameCharacters]
  | cons item items induction =>
      rw [sameCharacters, List.length_cons, List.replicate_succ, List.cons_eq_cons]
      split
      · rename_i other
        exact iff_of_false (by simp) fun both => other both.1.symm
      · rename_i same
        rw [induction]
        exact ⟨fun rest => ⟨(not_not.mp same).symm, rest⟩, And.right⟩

/-- formatValue is the text of a term for the value. -/
theorem formatValue_term {unicode : Bool} {names : Text → Option Value} {named value : List Nat}
    (valid : ∀ code ∈ value, code < bound unicode) :
    ∃ term : Term, formatValue unicode value = term.text unicode ∧
      term.Readable unicode names named ∧ term.codes named = value := by
  rw [formatValue]
  by_cases repeats : 5 ≤ value.length ∧ sameCharacters none value = true
  · obtain ⟨long, same⟩ := repeats
    cases value with
    | nil => simp at long
    | cons first items =>
        refine ⟨.repeated first (first :: items).length, ?_, ?_, ?_⟩
        · rw [if_pos long, if_pos same]
          rfl
        · exact ⟨valid first List.mem_cons_self, by simp⟩
        · have all := (sameCharacters_iff first items).mp same
          rw [Term.codes, List.length_cons, List.replicate_succ, ← all]
  · refine ⟨.literal value, ?_, valid, rfl⟩
    rw [if_neg, Term.text]
    intro given
    split at given
    · exact repeats ⟨‹_›, given⟩
    · cases given

/-- A text list whose texts are terms with these codes. -/
def Denotes (unicode : Bool) (names : Text → Option Value) (named : List Nat)
    (texts : List Text) (codes : List Nat) : Prop :=
  ∃ terms : List Term, texts = terms.map (Term.text unicode) ∧
    (∀ term ∈ terms, term.Readable unicode names named) ∧
    terms.flatMap (Term.codes named) = codes

section Denotes

variable {unicode : Bool} {names : Text → Option Value} {named : List Nat}
  {texts others : List Text} {codes more : List Nat}

theorem Denotes.append (denotes : Denotes unicode names named texts codes)
    (denotesToo : Denotes unicode names named others more) :
    Denotes unicode names named (texts ++ others) (codes ++ more) := by
  obtain ⟨terms, rfl, readable, rfl⟩ := denotes
  obtain ⟨rest, rfl, readableToo, rfl⟩ := denotesToo
  refine ⟨terms ++ rest, by simp, fun term member => ?_, by simp⟩
  exact (List.mem_append.mp member).elim (readable term) (readableToo term)

theorem denotes_nil : Denotes unicode names named [] [] :=
  ⟨[], rfl, fun _ absent => absurd absent List.not_mem_nil, rfl⟩

theorem denotes_value (valid : ∀ code ∈ codes, code < bound unicode) :
    Denotes unicode names named [formatValue unicode codes] codes := by
  obtain ⟨term, text, readable, same⟩ := formatValue_term valid
  exact ⟨[term], by simp [text], by simpa using readable, by simpa using same⟩

theorem denotes_name {word : Text} (named' : Named names (.string unicode named) word) :
    Denotes unicode names named [word] named :=
  ⟨[.name word], rfl, by simpa [Term.Readable] using named', by simp [Term.codes]⟩

/-- A list of texts for what comes before a rest of the value. -/
def Cut (unicode : Bool) (names : Text → Option Value) (named codes : List Nat)
    (state : List Text × List Nat) : Prop :=
  ∃ done, Denotes unicode names named state.1 done ∧ done ++ state.2 = codes

theorem valid_of_append {front back : List Nat} (valid : ∀ code ∈ codes, code < bound unicode)
    (whole : front ++ back = codes) :
    (∀ code ∈ front, code < bound unicode) ∧ ∀ code ∈ back, code < bound unicode := by
  subst whole
  exact ⟨fun code member => valid code (List.mem_append_left _ member),
    fun code member => valid code (List.mem_append_right _ member)⟩

/-- The pieces of formatPath are the value, however often the directory occurs in it. -/
theorem formatPieces_denotes {replace : Text}
    (directory : Named names (.string unicode named) replace)
    (valid : ∀ code ∈ codes, code < bound unicode) :
    Denotes unicode names named (formatPieces unicode named replace codes) codes := by
  have name := denotes_name directory
  rw [formatPieces]
  have front : Cut unicode names named codes
      (if named.isPrefixOf codes then ([replace], codes.drop named.length) else ([], codes)) := by
    split
    · rename_i leads
      obtain ⟨rest, whole⟩ := List.isPrefixOf_iff_prefix.mp leads
      refine ⟨named, name, ?_⟩
      rw [← whole, List.drop_left]
    · exact ⟨[], denotes_nil, rfl⟩
  generalize (if named.isPrefixOf codes then ([replace], codes.drop named.length)
    else ([], codes)) = first at front ⊢
  obtain ⟨result, value⟩ := first
  have middle : Cut unicode names named codes
      (match find value named with
      | some pos =>
          ((if value.take pos ≠ [] then result ++ [formatValue unicode (value.take pos)]
            else result) ++ [replace], value.drop (pos + named.length))
      | none => (result, value)) := by
    cases found : find value named with
    | none => exact front
    | some pos =>
        obtain ⟨done, denotes, whole⟩ := front
        have occurs := (find_eq_some.mp found).2.1
        have parts : value.take pos ++ (named ++ value.drop (pos + named.length)) = value := by
          rw [← List.drop_drop]
          have here := List.take_append_drop named.length (value.drop pos)
          rw [occurs] at here
          rw [here, List.take_append_drop]
        have before := (valid_of_append (valid_of_append valid whole).2 parts).1
        refine ⟨done ++ value.take pos ++ named, Denotes.append ?_ name, ?_⟩
        · split
          · exact denotes.append (denotes_value before)
          · rename_i empty
            rw [not_not.mp empty, List.append_nil]
            exact denotes
        · rw [List.append_assoc, List.append_assoc, parts]
          exact whole
  simp only
  generalize (match find value named with
    | some pos =>
        ((if value.take pos ≠ [] then result ++ [formatValue unicode (value.take pos)]
          else result) ++ [replace], value.drop (pos + named.length))
    | none => (result, value)) = second at middle ⊢
  obtain ⟨result, value⟩ := second
  obtain ⟨done, denotes, whole⟩ := middle
  have rest := (valid_of_append valid whole).2
  simp only
  split
  · rename_i ends
    obtain ⟨front, parts⟩ := List.isSuffixOf_iff_suffix.mp ends
    have length : value.length - named.length = front.length := by
      rw [← parts, List.length_append]
      omega
    have taken : value.take (value.length - named.length) = front := by
      rw [length, ← parts, List.take_left]
    rw [taken, ← whole, ← parts]
    have last := (denotes_value (valid_of_append rest parts).1).append name
    exact denotes.append last
  split
  · rw [← whole]
    exact denotes.append (denotes_value rest)
  · rename_i empty
    rw [← whole, not_not.mp empty, List.append_nil]
    exact denotes

end Denotes

theorem formatPieces_nil {unicode : Bool} {pattern : List Nat} {replace : Text}
    (nonempty : pattern ≠ []) : formatPieces unicode pattern replace [] = [] := by
  cases pattern with
  | nil => exact absurd rfl nonempty
  | cons code pattern =>
      have missing : find ([] : List Nat) (code :: pattern) = none := by
        refine find_eq_none.mpr fun index _ => ?_
        simp [Occurs]
      simp [formatPieces, missing, List.isPrefixOf, List.isSuffixOf]

theorem cwd_named (cwd cwdBytes : List Nat) :
    Named (replayNames cwd cwdBytes) (.string true cwd) cwdName :=
  ⟨rfl, yields_name (by decide) (by decide) (by decide) (List.all_eq_true.mp rfl)⟩

theorem cwdBytes_named (cwd cwdBytes : List Nat) :
    Named (replayNames cwd cwdBytes) (.string false cwdBytes) cwdBytesName :=
  ⟨rfl, yields_name (by decide) (by decide) (by decide) (List.all_eq_true.mp rfl)⟩

/-- The pieces for either kind of string. -/
theorem formatPath_denotes (value : Str) (cwd cwdBytes : List Nat) :
    ∃ pieces, formatPath value cwd cwdBytes = [' ', '+', ' '].intercalate pieces ∧
      Denotes value.unicode (replayNames cwd cwdBytes)
        (if value.unicode then cwd else cwdBytes) pieces value.codes := by
  have valid := value.valid
  rw [formatPath]
  cases kind : value.unicode with
  | true =>
      rw [kind] at valid
      exact ⟨_, rfl, formatPieces_denotes (cwd_named cwd cwdBytes) valid⟩
  | false =>
      rw [kind] at valid
      exact ⟨_, rfl, formatPieces_denotes (cwdBytes_named cwd cwdBytes) valid⟩

theorem formatPath_empty {value : Str} (empty : value.codes = []) {cwd cwdBytes : List Nat}
    (nonempty : cwd ≠ []) (nonemptyToo : cwdBytes ≠ []) : formatPath value cwd cwdBytes = [] := by
  rw [formatPath, empty, formatPieces_nil nonempty, formatPieces_nil nonemptyToo]
  split <;> rfl

/-- The expression gives back every value but the empty string, for which there is none. -/
theorem formatPath_evaluates_iff (value : Str) (cwd cwdBytes : List Nat) (nonempty : cwd ≠ [])
    (nonemptyToo : cwdBytes ≠ []) :
    evaluate (replayNames cwd cwdBytes) (formatPath value cwd cwdBytes) =
      some (.string value.unicode value.codes) ↔ value.codes ≠ [] := by
  constructor
  · intro given empty
    rw [formatPath_empty empty nonempty nonemptyToo] at given
    cases given
  · intro some
    obtain ⟨pieces, written, terms, rfl, readable, same⟩ := formatPath_denotes value cwd cwdBytes
    have listed : terms ≠ [] := by
      rintro rfl
      exact some same.symm
    rw [written, evaluate_terms listed readable, same]

theorem formatPath_not_evaluates :
    ¬ ∀ (value : Str) (cwd cwdBytes : List Nat), cwd ≠ [] → cwdBytes ≠ [] →
      evaluate (replayNames cwd cwdBytes) (formatPath value cwd cwdBytes) =
        some (.string value.unicode value.codes) := by
  intro all
  have given := all ⟨false, [], by simp⟩ [47] [47] (by decide) (by decide)
  rw [formatPath_empty rfl (by decide) (by decide)] at given
  cases given

/-- The value `b/tmp/tmpaaaaa` of the directory `/tmp`. -/
theorem formatPath_evaluates_iff_tmp :
    evaluate (replayNames [47, 116, 109, 112] [47, 116, 109, 112])
        (formatPath ⟨false, [98, 47, 116, 109, 112, 97, 97, 97, 97, 97], by decide⟩
          [47, 116, 109, 112] [47, 116, 109, 112]) =
      some (.string false [98, 47, 116, 109, 112, 97, 97, 97, 97, 97]) ↔
        [98, 47, 116, 109, 112, 97, 97, 97, 97, 97] ≠ ([] : List Nat) :=
  formatPath_evaluates_iff ⟨false, [98, 47, 116, 109, 112, 97, 97, 97, 97, 97], by decide⟩
    [47, 116, 109, 112] [47, 116, 109, 112] (by decide) (by decide)

end Segvault.Fusil
