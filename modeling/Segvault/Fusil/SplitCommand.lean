import Mathlib.Data.List.Enum
import Segvault.ShellWords

namespace Segvault.Fusil

open ShellWords

/-! splitCommand of tools.py. -/

inductive SplitError
  /-- "splitCommand() doesn't support antislash" -/
  | antislash
  /-- "Quote %r is not closed" -/
  | notClosed (quote : Char)
  deriving DecidableEq, Repr

structure SplitState where
  arguments : List (List Char)
  start : Nat
  inQuote : Option Char

/-- What the regular expression looks for. -/
def separators : List Char := [' ', '\t', '"', '\'']

/-- `re.finditer`: the separators, with the places where they are. -/
def findSeparators (command : List Char) : List (Char × Nat) :=
  command.zipIdx.filter fun found => found.1 ∈ separators

def splitStep (command : List Char) (state : SplitState) (found : Char × Nat) : SplitState :=
  let sep := found.1
  let index := found.2
  let write : SplitState :=
    ⟨state.arguments ++ [(command.take index).drop state.start], index + 1, none⟩
  if state.inQuote = some sep then write
  else if sep = ' ' then
    if state.inQuote = none then write else state
  else if state.inQuote = none then ⟨state.arguments, index + 1, some sep⟩
  else state

def splitCommand (command : List Char) : Except SplitError (List (List Char)) :=
  if '\\' ∈ command then .error .antislash
  else
    let state := (findSeparators command).foldl (splitStep command) ⟨[], 0, none⟩
    match state.inQuote with
    | some quote => .error (.notClosed quote)
    | none =>
        .ok (if state.start < command.length then
          state.arguments ++ [command.drop state.start] else state.arguments)

/-- The quotes of splitCommand: outside of quotes, a tab opens one. -/
def splitQuotes : List Char := ['\t', '"', '\'']

example : splitCommand "python -c 'import sys; print \"sys.version\"'".toList =
    .ok ["python".toList, "-c".toList, "import sys; print \"sys.version\"".toList] := by decide

/-! The same, character by character, with the text since start. -/

structure SplitText where
  arguments : List (List Char)
  text : List Char
  inQuote : Option Char

namespace SplitText

def step (state : SplitText) (char : Char) : SplitText :=
  if state.inQuote = some char then ⟨state.arguments ++ [state.text], [], none⟩
  else if char = ' ' ∧ state.inQuote = none then ⟨state.arguments ++ [state.text], [], none⟩
  else if char ∈ splitQuotes ∧ state.inQuote = none then ⟨state.arguments, [], some char⟩
  else { state with text := state.text ++ [char] }

def finish (state : SplitText) : List (List Char) :=
  if state.text = [] then state.arguments else state.arguments ++ [state.text]

/-- The two states after the characters read so far. -/
structure Mirrors (done : List Char) (state : SplitState) (texts : SplitText) : Prop where
  arguments : state.arguments = texts.arguments
  inQuote : state.inQuote = texts.inQuote
  start_le : state.start ≤ done.length
  text : texts.text = done.drop state.start
  isQuote : ∀ quote ∈ state.inQuote, quote ∈ splitQuotes

theorem Mirrors.step {done rest : List Char} {state : SplitState} {texts : SplitText}
    {char : Char} (mirrors : Mirrors done state texts) :
    Mirrors (done ++ [char])
      (if char ∈ separators then splitStep (done ++ char :: rest) state (char, done.length)
        else state) (texts.step char) := by
  have slice : ((done ++ char :: rest).take done.length).drop state.start = texts.text := by
    rw [List.take_left, mirrors.text]
  have length : (done ++ [char]).length = done.length + 1 := List.length_append
  have within : done.length + 1 ≤ (done ++ [char]).length := Nat.le_of_eq length.symm
  have longer : texts.text ++ [char] = (done ++ [char]).drop state.start := by
    rw [mirrors.text, List.drop_append_of_le_length mirrors.start_le]
  have fresh : [] = (done ++ [char]).drop (done.length + 1) := by
    rw [← length, List.drop_length]
  have goesOn : Mirrors (done ++ [char]) state
      ⟨texts.arguments, texts.text ++ [char], state.inQuote⟩ :=
    ⟨mirrors.arguments, rfl, by have := mirrors.start_le; omega, longer,
      mirrors.isQuote⟩
  by_cases separator : char ∈ separators
  · rw [if_pos separator]
    have written : Mirrors (done ++ [char])
        ⟨state.arguments ++ [((done ++ char :: rest).take done.length).drop state.start],
          done.length + 1, none⟩ ⟨texts.arguments ++ [texts.text], [], none⟩ :=
      ⟨by rw [slice, mirrors.arguments], rfl, within, fresh, fun _ absent => by cases absent⟩
    rw [splitStep, SplitText.step, ← mirrors.inQuote]
    dsimp only
    by_cases closes : state.inQuote = some char
    · rw [if_pos closes, if_pos closes]
      exact written
    rw [if_neg closes, if_neg closes]
    by_cases blank : char = ' '
    · have noQuote : char ∉ splitQuotes := by rw [blank]; decide
      by_cases outside : state.inQuote = none
      · rw [if_pos blank, if_pos outside, if_pos ⟨blank, outside⟩]
        exact written
      · rw [if_pos blank, if_neg outside, if_neg (fun both => outside both.2),
          if_neg (fun both => outside both.2)]
        exact goesOn
    · have quote : char ∈ splitQuotes := by
        simpa [separators, splitQuotes, blank] using separator
      by_cases outside : state.inQuote = none
      · rw [if_neg blank, if_pos outside, if_neg (fun both => blank both.1),
          if_pos ⟨quote, outside⟩]
        refine ⟨mirrors.arguments, rfl, within, fresh, fun opened same => ?_⟩
        rwa [← Option.some.inj same]
      · rw [if_neg blank, if_neg outside, if_neg (fun both => blank both.1),
          if_neg (fun both => outside both.2)]
        exact goesOn
  · have noQuote : char ∉ splitQuotes := fun quote => separator (List.mem_cons_of_mem _ quote)
    have notClosing : state.inQuote ≠ some char := fun closes =>
      noQuote (mirrors.isQuote char closes)
    have noBlank : char ≠ ' ' := fun blank => separator (by rw [blank]; exact List.mem_cons_self)
    rw [if_neg separator, SplitText.step, ← mirrors.inQuote, if_neg notClosing,
      if_neg (not_and_of_not_left _ noBlank), if_neg (not_and_of_not_left _ noQuote)]
    exact goesOn

theorem foldl_mirrors (rest : List Char) : ∀ {done : List Char} {state : SplitState}
    {texts : SplitText}, Mirrors done state texts →
    Mirrors (done ++ rest)
      (((rest.zipIdx done.length).filter fun found => found.1 ∈ separators).foldl
        (splitStep (done ++ rest)) state)
      (rest.foldl SplitText.step texts) := by
  induction rest with
  | nil =>
      intro done state texts mirrors
      rw [List.append_nil]
      exact mirrors
  | cons char rest induction =>
      intro done state texts mirrors
      have next := induction (@Mirrors.step done rest state texts char mirrors)
      rw [List.append_assoc, List.singleton_append, List.length_append, List.length_singleton]
        at next
      rw [List.zipIdx_cons, List.filter_cons, List.foldl_cons]
      by_cases separator : char ∈ separators
      · rw [if_pos separator] at next
        rw [if_pos (decide_eq_true separator), List.foldl_cons]
        exact next
      · rw [if_neg separator] at next
        rw [if_neg (by simpa using separator)]
        exact next

end SplitText

theorem splitCommand_eq {command : List Char} (clean : '\\' ∉ command) :
    splitCommand command =
      let texts := command.foldl SplitText.step ⟨[], [], none⟩
      match texts.inQuote with
      | some quote => .error (.notClosed quote)
      | none => .ok texts.finish := by
  have mirrors : SplitText.Mirrors command
      ((findSeparators command).foldl (splitStep command) ⟨[], 0, none⟩)
      (command.foldl SplitText.step ⟨[], [], none⟩) :=
    @SplitText.foldl_mirrors command [] ⟨[], 0, none⟩ ⟨[], [], none⟩
      ⟨rfl, rfl, Nat.le_refl _, rfl, fun _ absent => by cases absent⟩
  rw [splitCommand, if_neg clean]
  dsimp only
  rw [← mirrors.inQuote]
  cases ((findSeparators command).foldl (splitStep command) ⟨[], 0, none⟩).inQuote with
  | some quote => rfl
  | none =>
      have start := mirrors.start_le
      dsimp only
      rw [SplitText.finish, mirrors.arguments, mirrors.text]
      simp only [List.drop_eq_nil_iff]
      split
      · rw [if_neg (by omega)]
      · rw [if_pos (by omega)]

/-! Where the words are separated the way splitCommand takes them apart. -/

inductive Place
  | gap
  | word
  | quoted (quote : Char)
  | closed
  | tab
  | tabbed
  deriving DecidableEq, Repr

namespace Place

/-- A plain word is followed by one space or the end, or it stands between two tabs; a quoted
text is a word of its own, and a tab or the end follows it. -/
def next : Place → Char → Option Place
  | .gap, char =>
      if char = ' ' then none
      else if char = '\t' then some .tab
      else if char ∈ quotes then some (.quoted char)
      else some .word
  | .word, char =>
      if char = ' ' then some .gap else if char ∈ separators then none else some .word
  | .quoted quote, char => if char = quote then some .closed else some (.quoted quote)
  | .closed, char => if char = '\t' then some .tab else none
  | .tab, char => if char ∈ separators then none else some .tabbed
  | .tabbed, char =>
      if char = '\t' then some .gap else if char ∈ separators then none else some .tabbed

def ends : Place → Bool
  | .gap | .word | .closed => true
  | .quoted _ | .tab | .tabbed => false

def follow (place : Option Place) (char : Char) : Option Place :=
  place.bind fun place => place.next char

end Place

def wellSpaced (command : List Char) : Bool :=
  ((command.foldl Place.follow (some .gap)).map Place.ends).getD false

/-! What the words have in characters. -/

def plains (text : List Char) : Nat :=
  text.countP fun char => char ∉ separators

def specials (text : List Char) : Nat :=
  text.countP fun char => char ∈ separators

def tabs (text : List Char) : Nat :=
  text.count '\t'

section

variable {char : Char} (first second : List Char)

@[simp] theorem plains_append : plains (first ++ second) = plains first + plains second :=
  List.countP_append

@[simp] theorem specials_append :
    specials (first ++ second) = specials first + specials second :=
  List.countP_append

@[simp] theorem tabs_append : tabs (first ++ second) = tabs first + tabs second :=
  List.count_append

@[simp] theorem tallies_nil : plains [] = 0 ∧ specials [] = 0 ∧ tabs [] = 0 :=
  ⟨rfl, rfl, rfl⟩

theorem tallies_plain (plain : char ∉ separators) :
    plains [char] = 1 ∧ specials [char] = 0 ∧ tabs [char] = 0 := by
  have notTab : char ≠ '\t' := fun same => plain (by rw [same]; decide)
  refine ⟨?_, ?_, ?_⟩
  · simp [plains, plain]
  · simp [specials, plain]
  · simp [tabs, notTab]

theorem tallies_special (special : char ∈ separators) :
    plains [char] = 0 ∧ specials [char] = 1 ∧ tabs [char] = if char = '\t' then 1 else 0 := by
  refine ⟨?_, ?_, ?_⟩
  · simp [plains, special]
  · simp [specials, special]
  · by_cases tab : char = '\t' <;> simp [tabs, tab]

theorem plains_add_specials (text : List Char) : plains text + specials text = text.length := by
  induction text with
  | nil => rfl
  | cons char text induction =>
      rw [← List.singleton_append, plains_append, specials_append, List.length_append, ← induction,
        List.length_singleton]
      by_cases special : char ∈ separators
      · obtain ⟨plain, special, -⟩ := tallies_special special
        omega
      · obtain ⟨plain, special, -⟩ := tallies_plain special
        omega

end

/-- What splitCommand has got of a command and what there is to get of it: it drops only plain
characters, and has special ones, or words, too many. -/
structure Ahead (got given : List Char) (gotWords givenWords slack : Nat) : Prop where
  plain : plains got ≤ plains given
  special : specials given + slack ≤ specials got
  tab : tabs got = tabs given
  strict : plains got < plains given ∨
    givenWords + 2 * specials given < gotWords + 2 * specials got

namespace SplitText

variable {arguments : List (List Char)} {text : List Char} {char quote : Char}

theorem step_blank : step ⟨arguments, text, none⟩ ' ' = ⟨arguments ++ [text], [], none⟩ := by
  rw [step]
  exact (if_neg (by simp)).trans (if_pos ⟨rfl, rfl⟩)

theorem step_opens (opens : char ∈ splitQuotes) :
    step ⟨arguments, text, none⟩ char = ⟨arguments, [], some char⟩ := by
  have noBlank : char ≠ ' ' := by
    rintro rfl
    exact absurd opens (by decide)
  rw [step]
  exact (if_neg (by simp)).trans
    ((if_neg (not_and_of_not_left _ noBlank)).trans (if_pos ⟨opens, rfl⟩))

theorem step_plain (plain : char ∉ separators) :
    step ⟨arguments, text, none⟩ char = ⟨arguments, text ++ [char], none⟩ := by
  have noQuote : char ∉ splitQuotes := fun quote => plain (List.mem_cons_of_mem _ quote)
  have noBlank : char ≠ ' ' := fun blank => plain (by rw [blank]; exact List.mem_cons_self)
  rw [step]
  exact (if_neg (by simp)).trans
    ((if_neg (not_and_of_not_left _ noBlank)).trans (if_neg (not_and_of_not_left _ noQuote)))

theorem step_closes :
    step ⟨arguments, text, some quote⟩ quote = ⟨arguments ++ [text], [], none⟩ := by
  rw [step]
  exact if_pos rfl

theorem step_inside (inside : char ≠ quote) :
    step ⟨arguments, text, some quote⟩ char = ⟨arguments, text ++ [char], some quote⟩ := by
  rw [step]
  exact (if_neg fun same => inside (Option.some.inj same).symm).trans
    ((if_neg (by simp)).trans (if_neg (by simp)))

end SplitText

/-- The four kinds of characters. -/
theorem char_cases (char : Char) :
    char = ' ' ∨ char = '\t' ∨
      (char ∈ quotes ∧ char ∈ splitQuotes ∧ char ∈ separators ∧ char ∉ blanks ∧ char ≠ '\t' ∧
        char ≠ ' ') ∨
      (char ∉ separators ∧ char ∉ quotes ∧ char ∉ blanks ∧ char ≠ '\t' ∧ char ≠ ' ') := by
  simp only [quotes, blanks, splitQuotes, separators, List.mem_cons, List.not_mem_nil, or_false]
  tauto

/-- How far the two readings of a command have come apart. -/
inductive Lost : SplitText → State → Prop
  | outside {arguments words : List (List Char)} {text : List Char}
      {current : Option (List Char)}
      (bare : specials text = 0) (between : current = none → text = [])
      (ahead : Ahead (arguments.flatten ++ text) (words ++ current.toList).flatten
        (arguments.length + min 1 text.length) (words ++ current.toList).length 0) :
      Lost ⟨arguments, text, none⟩ ⟨words, current, none⟩
  | quoted {arguments words : List (List Char)} {text word : List Char} {quote : Char}
      (isQuote : quote ∈ quotes)
      (ahead : Ahead (arguments.flatten ++ text) (words.flatten ++ word)
        (arguments.length + 1) (words.length + 1) 0) :
      Lost ⟨arguments, text, some quote⟩ ⟨words, some word, some quote⟩
  | tab {arguments words : List (List Char)} {text : List Char} {current : Option (List Char)}
      (ahead : Ahead (arguments.flatten ++ text) (words ++ current.toList).flatten
        (arguments.length + 1) (words.length + 1) 0) :
      Lost ⟨arguments, text, some '\t'⟩ ⟨words, current, none⟩
  | both {arguments words : List (List Char)} {text word : List Char} {quote : Char}
      (isQuote : quote ∈ quotes)
      (ahead : Ahead (arguments.flatten ++ text) (words.flatten ++ word)
        (arguments.length + 1) (words.length + 1) 1) :
      Lost ⟨arguments, text, some '\t'⟩ ⟨words, some word, some quote⟩
  -- a tab in a word, where the other reading has closed its own
  | torn {texts : SplitText} {state : State} {arguments words : List (List Char)}
      {word longer : List Char}
      (codeStarts : arguments <+: texts.arguments) (wordStarts : word <+: longer)
      (shellStarts : words ++ [longer] <+: state.words ∨
        state.words = words ∧ state.current = some longer)
      (torn : tabs arguments.flatten < tabs (words.flatten ++ word))
      (special : specials words.flatten < specials arguments.flatten) :
      Lost texts state

theorem SplitText.arguments_step (texts : SplitText) (char : Char) :
    texts.arguments <+: (texts.step char).arguments := by
  rw [SplitText.step]
  split
  · exact List.prefix_append _ _
  split
  · exact List.prefix_append _ _
  split
  · exact List.prefix_refl _
  · exact List.prefix_refl _

/-- The words a command line begins with stay, and the word it is at only grows. -/
theorem begins_step {state : State} {words : List (List Char)} {word longer : List Char}
    (wordStarts : word <+: longer)
    (begins : words ++ [longer] <+: state.words ∨
      state.words = words ∧ state.current = some longer) (char : Char) :
    ∃ longer', word <+: longer' ∧ (words ++ [longer'] <+: (state.step char).words ∨
      (state.step char).words = words ∧ (state.step char).current = some longer') := by
  obtain ⟨finished, current, quote⟩ := state
  rcases begins with begins | ⟨rfl, rfl⟩
  · refine ⟨longer, wordStarts, .inl (begins.trans ?_)⟩
    rw [State.step]
    cases quote with
    | some quote =>
        dsimp only
        split <;> exact List.prefix_refl _
    | none =>
        dsimp only
        split
        · exact List.prefix_append _ _
        split <;> exact List.prefix_refl _
  · have grows : word <+: longer ++ [char] := wordStarts.trans (List.prefix_append _ _)
    rw [State.step]
    cases quote with
    | some quote =>
        dsimp only
        split
        · exact ⟨longer, wordStarts, .inr ⟨rfl, rfl⟩⟩
        · exact ⟨_, grows, .inr ⟨rfl, rfl⟩⟩
    | none =>
        dsimp only
        split
        · exact ⟨longer, wordStarts, .inl (List.prefix_refl _)⟩
        split
        · exact ⟨longer, wordStarts, .inr ⟨rfl, rfl⟩⟩
        · exact ⟨_, grows, .inr ⟨rfl, rfl⟩⟩

theorem flatten_current (current : Option (List Char)) :
    current.toList.flatten = current.getD [] := by
  cases current with
  | none => rfl
  | some word => exact List.append_nil word

theorem length_current (current : Option (List Char)) : current.toList.length ≤ 1 := by
  cases current <;> simp

theorem tabs_le_specials (text : List Char) : tabs text ≤ specials text := by
  induction text with
  | nil => exact Nat.le_refl _
  | cons char text induction =>
      rw [← List.singleton_append, tabs_append, specials_append]
      by_cases special : char ∈ separators
      · obtain ⟨-, special, tab⟩ := tallies_special special
        split at tab <;> omega
      · obtain ⟨-, special, tab⟩ := tallies_plain special
        omega

theorem Lost.step {texts : SplitText} {state : State} (lost : Lost texts state) (char : Char) :
    Lost (texts.step char) (state.step char) := by
  cases lost with
  | @outside arguments words text current bare between ahead =>
      obtain ⟨plain, special, tab, strict⟩ := ahead
      have size := plains_add_specials text
      have most := length_current current
      have noTab := tabs_le_specials text
      have between : current.toList.length = 0 → text.length = 0 := by
        cases current with
        | none => intro; rw [between rfl]; rfl
        | some word => intro absurd; cases absurd
      simp only [List.flatten_append, flatten_current, List.length_append, plains_append,
        specials_append, tabs_append] at plain special tab strict
      rcases char_cases char with rfl | rfl | ⟨quote, splitQuote, separator, -, notTab, -⟩ |
        ⟨noSeparator, noQuote, noBlank, -, -⟩
      · rw [SplitText.step_blank, ShellWords.step_blank (by decide)]
        refine .outside rfl (fun _ => rfl) ⟨?_, ?_, ?_, ?_⟩ <;> simp [flatten_current] <;> omega
      · rw [SplitText.step_opens (by decide), ShellWords.step_blank (by decide)]
        refine .tab ⟨?_, ?_, ?_, ?_⟩ <;> simp [flatten_current] <;> omega
      · rw [SplitText.step_opens splitQuote, ShellWords.step_opens quote]
        refine .quoted quote ⟨?_, ?_, ?_, ?_⟩ <;> simp <;> omega
      · rw [SplitText.step_plain noSeparator, ShellWords.step_plain noBlank noQuote]
        obtain ⟨onePlain, oneSpecial, oneTab⟩ := tallies_plain noSeparator
        refine .outside ?_ (fun absurd => by cases absurd) ⟨?_, ?_, ?_, ?_⟩ <;> simp <;> omega
  | @quoted arguments words text word quote isQuote ahead =>
      obtain ⟨plain, special, tab, strict⟩ := ahead
      simp only [plains_append, specials_append, tabs_append] at plain special tab strict
      by_cases closes : char = quote
      · subst closes
        rw [SplitText.step_closes, ShellWords.step_closes]
        refine .outside rfl (fun absurd => by cases absurd) ⟨?_, ?_, ?_, ?_⟩ <;> simp <;> omega
      · rw [SplitText.step_inside closes, ShellWords.step_inside closes]
        refine .quoted isQuote ⟨?_, ?_, ?_, ?_⟩ <;> simp <;> omega
  | @tab arguments words text current ahead =>
      obtain ⟨plain, special, tab, strict⟩ := ahead
      have most := length_current current
      simp only [List.flatten_append, flatten_current, plains_append, specials_append,
        tabs_append] at plain special tab strict
      rcases char_cases char with rfl | rfl | ⟨quote, -, separator, -, notTab, -⟩ |
        ⟨noSeparator, noQuote, noBlank, notTab, -⟩
      · rw [SplitText.step_inside (by decide), ShellWords.step_blank (by decide)]
        obtain ⟨onePlain, oneSpecial, oneTab⟩ := @tallies_special ' ' (by decide)
        rw [if_neg (by decide)] at oneTab
        refine .tab ⟨?_, ?_, ?_, ?_⟩ <;> simp [flatten_current] <;> omega
      · rw [SplitText.step_closes, ShellWords.step_blank (by decide)]
        refine .outside rfl (fun _ => rfl) ⟨?_, ?_, ?_, ?_⟩ <;> simp [flatten_current] <;> omega
      · rw [SplitText.step_inside notTab, ShellWords.step_opens quote]
        obtain ⟨onePlain, oneSpecial, oneTab⟩ := tallies_special separator
        rw [if_neg notTab] at oneTab
        refine .both quote ⟨?_, ?_, ?_, ?_⟩ <;> simp <;> omega
      · rw [SplitText.step_inside notTab, ShellWords.step_plain noBlank noQuote]
        obtain ⟨onePlain, oneSpecial, oneTab⟩ := tallies_plain noSeparator
        refine .tab ⟨?_, ?_, ?_, ?_⟩ <;> simp <;> omega
  | @both arguments words text word quote isQuote ahead =>
      obtain ⟨plain, special, tab, strict⟩ := ahead
      simp only [plains_append, specials_append, tabs_append] at plain special tab strict
      have noTab : quote ≠ '\t' := by
        rintro rfl
        exact absurd isQuote (by decide)
      have separator : quote ∈ separators := List.mem_cons_of_mem _ (List.mem_cons_of_mem _ isQuote)
      by_cases closes : char = quote
      · subst closes
        rw [SplitText.step_inside noTab, ShellWords.step_closes]
        obtain ⟨onePlain, oneSpecial, oneTab⟩ := tallies_special separator
        rw [if_neg noTab] at oneTab
        refine .tab ⟨?_, ?_, ?_, ?_⟩ <;> simp <;> omega
      rw [ShellWords.step_inside closes]
      by_cases isTab : char = '\t'
      · subst isTab
        rw [SplitText.step_closes]
        obtain ⟨-, -, oneTab⟩ := @tallies_special '\t' (by decide)
        rw [if_pos rfl] at oneTab
        refine .torn (List.prefix_refl _) (List.prefix_refl _) (.inr ⟨rfl, rfl⟩) ?_ ?_ <;>
          simp <;> omega
      · rw [SplitText.step_inside isTab]
        by_cases special' : char ∈ separators
        · obtain ⟨onePlain, oneSpecial, oneTab⟩ := tallies_special special'
          rw [if_neg isTab] at oneTab
          refine .both isQuote ⟨?_, ?_, ?_, ?_⟩ <;> simp <;> omega
        · obtain ⟨onePlain, oneSpecial, oneTab⟩ := tallies_plain special'
          refine .both isQuote ⟨?_, ?_, ?_, ?_⟩ <;> simp <;> omega
  | torn codeStarts wordStarts shellStarts torn special =>
      obtain ⟨longer', starts, begins⟩ := begins_step wordStarts shellStarts char
      exact .torn (codeStarts.trans (texts.arguments_step char)) starts begins torn special

/-- Two readings that have come apart do not end with the same words. -/
theorem Lost.differs {texts : SplitText} {state : State} (lost : Lost texts state)
    (codeCloses : texts.inQuote = none) (shellCloses : state.quote = none) :
    texts.finish ≠ state.words ++ state.current.toList := by
  intro same
  cases lost with
  | @outside arguments words text current bare between ahead =>
      obtain ⟨plain, special, tab, strict⟩ := ahead
      rw [← show _ = words ++ current.toList from same] at plain special tab strict
      rw [SplitText.finish] at plain special tab strict
      dsimp only at plain special tab strict
      split at strict
      · rename_i empty
        rw [if_pos empty] at special plain
        subst empty
        rw [List.append_nil, List.length_nil, Nat.min_zero, Nat.add_zero] at strict
        omega
      · rename_i full
        have positive : text.length ≠ 0 := fun empty => full (List.length_eq_zero_iff.mp empty)
        simp only [List.flatten_append, List.flatten_cons, List.flatten_nil, List.append_nil,
          List.length_append, List.length_cons, List.length_nil] at strict
        omega
  | quoted isQuote ahead => cases codeCloses
  | tab ahead => cases codeCloses
  | both isQuote ahead => cases codeCloses
  | @torn _ _ arguments words word longer codeStarts wordStarts shellStarts torn special =>
      have code : arguments <+: texts.finish := by
        rw [SplitText.finish]
        split
        · exact codeStarts
        · exact codeStarts.trans (List.prefix_append _ _)
      have shell : words ++ [longer] <+: texts.finish := by
        rw [same]
        rcases shellStarts with begins | ⟨finished, current⟩
        · exact begins.trans (List.prefix_append _ _)
        · rw [finished, current]
          exact List.prefix_refl _
      have holds : ¬ words ++ [longer] <+: arguments := by
        rintro ⟨more, rfl⟩
        obtain ⟨rest, rfl⟩ := wordStarts
        simp only [List.flatten_append, List.flatten_cons, List.flatten_nil, List.append_nil,
          tabs_append] at torn
        omega
      rcases List.prefix_or_prefix_of_prefix code shell with shorter | shorter
      · rcases List.prefix_concat_iff.mp shorter with rfl | ⟨more, rfl⟩
        · exact holds (List.prefix_refl _)
        · simp only [List.flatten_append, specials_append] at special
          omega
      · exact holds shorter

/-- Where the two readings still agree. -/
inductive Agree : Place → SplitText → State → Prop
  | gap (words : List (List Char)) : Agree .gap ⟨words, [], none⟩ ⟨words, none, none⟩
  | word {words : List (List Char)} {text : List Char}
      (bare : specials text = 0) (nonempty : text ≠ []) :
      Agree .word ⟨words, text, none⟩ ⟨words, some text, none⟩
  | quoted {words : List (List Char)} {text : List Char} {quote : Char}
      (isQuote : quote ∈ quotes) :
      Agree (.quoted quote) ⟨words, text, some quote⟩ ⟨words, some text, some quote⟩
  | closed (words : List (List Char)) (text : List Char) :
      Agree .closed ⟨words ++ [text], [], none⟩ ⟨words, some text, none⟩
  | tab (words : List (List Char)) : Agree .tab ⟨words, [], some '\t'⟩ ⟨words, none, none⟩
  | tabbed {words : List (List Char)} {text : List Char}
      (bare : specials text = 0) (nonempty : text ≠ []) :
      Agree .tabbed ⟨words, text, some '\t'⟩ ⟨words, some text, none⟩

def Reads (place : Option Place) (texts : SplitText) (state : State) : Prop :=
  match place with
  | some place => Agree place texts state
  | none => Lost texts state

theorem Agree.step {place : Place} {texts : SplitText} {state : State}
    (agree : Agree place texts state) (char : Char) :
    Reads (place.next char) (texts.step char) (state.step char) := by
  cases agree with
  | gap words =>
      rcases char_cases char with rfl | rfl | ⟨quote, splitQuote, separator, -, notTab, notBlank⟩ |
        ⟨noSeparator, noQuote, noBlank, notTab, notSpace⟩
      · rw [SplitText.step_blank, ShellWords.step_blank (by decide)]
        refine .outside rfl (fun _ => rfl) ⟨?_, ?_, ?_, ?_⟩ <;> simp
      · rw [SplitText.step_opens (by decide), ShellWords.step_blank (by decide),
          Option.toList_none, List.append_nil]
        exact .tab words
      · rw [SplitText.step_opens splitQuote, ShellWords.step_opens quote, Place.next,
          if_neg notBlank, if_neg notTab, if_pos quote]
        exact .quoted quote
      · obtain ⟨-, bare, -⟩ := tallies_plain noSeparator
        rw [SplitText.step_plain noSeparator, ShellWords.step_plain noBlank noQuote, Place.next,
          if_neg notSpace, if_neg notTab, if_neg noQuote]
        exact .word bare (List.cons_ne_nil _ _)
  | @word words text bare nonempty =>
      have positive : 0 < text.length := List.length_pos_iff.mpr nonempty
      have size := plains_add_specials text
      have noTab := tabs_le_specials text
      rcases char_cases char with rfl | rfl | ⟨quote, splitQuote, separator, -, notTab, notBlank⟩ |
        ⟨noSeparator, noQuote, noBlank, notTab, notSpace⟩
      · rw [SplitText.step_blank, ShellWords.step_blank (by decide)]
        exact .gap _
      · rw [SplitText.step_opens (by decide), ShellWords.step_blank (by decide)]
        refine .tab ⟨?_, ?_, ?_, ?_⟩ <;> simp <;> omega
      · rw [SplitText.step_opens splitQuote, ShellWords.step_opens quote, Place.next,
          if_neg notBlank, if_pos separator]
        refine .quoted quote ⟨?_, ?_, ?_, ?_⟩ <;> simp <;> omega
      · obtain ⟨-, one, -⟩ := tallies_plain noSeparator
        rw [SplitText.step_plain noSeparator, ShellWords.step_plain noBlank noQuote, Place.next,
          if_neg notSpace, if_neg noSeparator]
        exact .word (by simp [bare, one]) (by simp)
  | @quoted words text quote isQuote =>
      rw [Place.next]
      by_cases closes : char = quote
      · subst closes
        rw [SplitText.step_closes, ShellWords.step_closes, if_pos rfl]
        exact .closed words text
      · rw [SplitText.step_inside closes, ShellWords.step_inside closes, if_neg closes]
        exact .quoted isQuote
  | closed words text =>
      rcases char_cases char with rfl | rfl | ⟨quote, splitQuote, separator, -, notTab, notBlank⟩ |
        ⟨noSeparator, noQuote, noBlank, notTab, notSpace⟩
      · rw [SplitText.step_blank, ShellWords.step_blank (by decide)]
        refine .outside rfl (fun _ => rfl) ⟨?_, ?_, ?_, ?_⟩ <;> simp
      · rw [SplitText.step_opens (by decide), ShellWords.step_blank (by decide)]
        exact .tab _
      · rw [SplitText.step_opens splitQuote, ShellWords.step_opens quote, Place.next,
          if_neg notTab]
        refine .quoted quote ⟨?_, ?_, ?_, ?_⟩ <;> simp
      · obtain ⟨onePlain, bare, oneTab⟩ := tallies_plain noSeparator
        rw [SplitText.step_plain noSeparator, ShellWords.step_plain noBlank noQuote, Place.next,
          if_neg notTab]
        refine .outside (by simp [bare]) (fun absurd => by cases absurd) ⟨?_, ?_, ?_, ?_⟩ <;>
          simp
  | tab words =>
      rcases char_cases char with rfl | rfl | ⟨quote, splitQuote, separator, -, notTab, notBlank⟩ |
        ⟨noSeparator, noQuote, noBlank, notTab, notSpace⟩
      · rw [SplitText.step_inside (by decide), ShellWords.step_blank (by decide)]
        refine .tab ⟨?_, ?_, ?_, ?_⟩ <;> simp [plains, specials, tabs, separators]
      · rw [SplitText.step_closes, ShellWords.step_blank (by decide)]
        refine .outside rfl (fun _ => rfl) ⟨?_, ?_, ?_, ?_⟩ <;> simp
      · obtain ⟨onePlain, oneSpecial, oneTab⟩ := tallies_special separator
        rw [if_neg notTab] at oneTab
        rw [SplitText.step_inside notTab, ShellWords.step_opens quote, Place.next,
          if_pos separator]
        refine .both quote ⟨?_, ?_, ?_, ?_⟩ <;> simp <;> omega
      · obtain ⟨-, bare, -⟩ := tallies_plain noSeparator
        rw [SplitText.step_inside notTab, ShellWords.step_plain noBlank noQuote, Place.next,
          if_neg noSeparator]
        exact .tabbed bare (List.cons_ne_nil _ _)
  | @tabbed words text bare nonempty =>
      rcases char_cases char with rfl | rfl | ⟨quote, splitQuote, separator, -, notTab, notBlank⟩ |
        ⟨noSeparator, noQuote, noBlank, notTab, notSpace⟩
      · rw [SplitText.step_inside (by decide), ShellWords.step_blank (by decide)]
        obtain ⟨onePlain, oneSpecial, oneTab⟩ := @tallies_special ' ' (by decide)
        rw [if_neg (by decide)] at oneTab
        refine .tab ⟨?_, ?_, ?_, ?_⟩ <;> simp <;> omega
      · rw [SplitText.step_closes, ShellWords.step_blank (by decide)]
        exact .gap _
      · obtain ⟨onePlain, oneSpecial, oneTab⟩ := tallies_special separator
        rw [if_neg notTab] at oneTab
        rw [SplitText.step_inside notTab, ShellWords.step_opens quote, Place.next,
          if_neg notTab, if_pos separator]
        refine .both quote ⟨?_, ?_, ?_, ?_⟩ <;> simp <;> omega
      · obtain ⟨-, one, -⟩ := tallies_plain noSeparator
        rw [SplitText.step_inside notTab, ShellWords.step_plain noBlank noQuote, Place.next,
          if_neg notTab, if_neg noSeparator]
        exact .tabbed (by simp [bare, one]) (by simp)

theorem Agree.finish {place : Place} {texts : SplitText} {state : State}
    (agree : Agree place texts state) (ends : place.ends = true) :
    texts.inQuote = none ∧ state.quote = none ∧
      texts.finish = state.words ++ state.current.toList := by
  cases agree with
  | gap words => exact ⟨rfl, rfl, (List.append_nil words).symm⟩
  | word bare nonempty => exact ⟨rfl, rfl, if_neg nonempty⟩
  | closed words text => exact ⟨rfl, rfl, rfl⟩
  | quoted isQuote => cases ends
  | tab words => cases ends
  | tabbed bare nonempty => cases ends

theorem Agree.ends {place : Place} {texts : SplitText} {state : State}
    (agree : Agree place texts state) (codeCloses : texts.inQuote = none) :
    place.ends = true := by
  cases agree with
  | gap words => rfl
  | word bare nonempty => rfl
  | closed words text => rfl
  | quoted isQuote => cases codeCloses
  | tab words => cases codeCloses
  | tabbed bare nonempty => cases codeCloses

theorem reads_foldl (command : List Char) {place : Option Place} {texts : SplitText}
    {state : State} (reads : Reads place texts state) :
    Reads (command.foldl Place.follow place) (command.foldl SplitText.step texts)
      (command.foldl State.step state) := by
  induction command generalizing place texts state with
  | nil => exact reads
  | cons char command induction =>
      apply induction
      cases place with
      | none => exact Lost.step reads char
      | some place => exact Agree.step reads char

theorem SplitText.step_inQuote (texts : SplitText) (char : Char) :
    (texts.step char).inQuote = toggle splitQuotes texts.inQuote char := by
  obtain ⟨arguments, text, inQuote⟩ := texts
  cases inQuote with
  | some quote =>
      by_cases closes : char = quote
      · rw [closes, SplitText.step_closes]
        exact (if_pos rfl).symm
      · rw [SplitText.step_inside closes]
        exact (if_neg closes).symm
  | none =>
      rcases char_cases char with rfl | rfl | ⟨-, splitQuote, -⟩ | ⟨plain, -⟩
      · rfl
      · rfl
      · rw [SplitText.step_opens splitQuote]
        exact (if_pos splitQuote).symm
      · rw [SplitText.step_plain plain]
        exact (if_neg fun quote => plain (List.mem_cons_of_mem _ quote)).symm

theorem SplitText.foldl_inQuote (command : List Char) (texts : SplitText) :
    (command.foldl SplitText.step texts).inQuote =
      command.foldl (toggle splitQuotes) texts.inQuote := by
  induction command generalizing texts with
  | nil => rfl
  | cons char command induction =>
      rw [List.foldl_cons, List.foldl_cons, induction, SplitText.step_inQuote]

/-- SyntaxError exactly when a quote is not closed, else the words of the shell. -/
def SplitsLikeShell (command : List Char) : Prop :=
  match ShellWords.words command with
  | none => ∃ quote, splitCommand command = .error (.notClosed quote)
  | some words => splitCommand command = .ok words

theorem splitCommand_splits_iff (command : List Char) (clean : '\\' ∉ command) :
    SplitsLikeShell command ↔ wellSpaced command = true ∨
      ((openAfter quotes command).isSome ∧ (openAfter splitQuotes command).isSome) := by
  have reads : Reads (command.foldl Place.follow (some .gap))
      (command.foldl SplitText.step ⟨[], [], none⟩) (read command) :=
    reads_foldl command (.gap [])
  have shellQuote : (read command).quote = openAfter quotes command := foldl_quote command _
  have codeQuote := SplitText.foldl_inQuote command ⟨[], [], none⟩
  change _ = openAfter splitQuotes command at codeQuote
  rw [SplitsLikeShell, ShellWords.words, splitCommand_eq clean, wellSpaced, ← shellQuote,
    ← codeQuote]
  dsimp only
  generalize command.foldl Place.follow (some .gap) = place at reads ⊢
  generalize command.foldl SplitText.step ⟨[], [], none⟩ = texts at reads ⊢
  generalize read command = state at reads ⊢
  cases code : texts.inQuote with
  | some opened =>
      have notEnds : (place.map Place.ends).getD false ≠ true := by
        intro ends
        cases place with
        | none => cases ends
        | some place =>
            obtain ⟨closed, -⟩ := Agree.finish reads ends
            rw [closed] at code
            cases code
      cases state.quote with
      | some quote => simp
      | none => simpa using notEnds
  | none =>
      cases shell : state.quote with
      | some quote =>
          have notEnds : (place.map Place.ends).getD false ≠ true := by
            intro ends
            cases place with
            | none => cases ends
            | some place =>
                obtain ⟨-, closed, -⟩ := Agree.finish reads ends
                rw [closed] at shell
                cases shell
          simpa using notEnds
      | none =>
          cases place with
          | none => simpa using Lost.differs reads code shell
          | some place =>
              have ends := Agree.ends reads code
              obtain ⟨-, -, same⟩ := Agree.finish reads ends
              simp [ends, same]

/-- A quoted text that ends the command. -/
theorem splitCommand_splits_iff_quoted :
    '\\' ∉ "python -c 'import sys'".toList ∧
    (SplitsLikeShell "python -c 'import sys'".toList ↔
      wellSpaced "python -c 'import sys'".toList = true ∨
        ((openAfter quotes "python -c 'import sys'".toList).isSome ∧
          (openAfter splitQuotes "python -c 'import sys'".toList).isSome)) :=
  ⟨by decide, splitCommand_splits_iff _ (by decide)⟩

/-- Two spaces make an empty word. -/
theorem splitCommand_not_splits :
    ¬ ∀ command : List Char, '\\' ∉ command → SplitsLikeShell command := by
  intro splits
  have wrong := splits "ls  -l".toList (by decide)
  rw [SplitsLikeShell, show ShellWords.words "ls  -l".toList = some ["ls".toList, "-l".toList] from
    by decide] at wrong
  exact absurd wrong (by decide)

end Segvault.Fusil
