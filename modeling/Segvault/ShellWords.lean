import Mathlib.Data.List.Basic

namespace Segvault.ShellWords

/-! The words of a command line: blanks separate them, quotes protect what they enclose, and
pieces with no blank between them belong to one word. -/

def blanks : List Char := [' ', '\t']

def quotes : List Char := ['"', '\'']

structure State where
  words : List (List Char)
  -- none between two words
  current : Option (List Char)
  quote : Option Char

namespace State

def step (state : State) (char : Char) : State :=
  match state.quote with
  | some quote =>
      if char = quote then { state with quote := none }
      else { state with current := some (state.current.getD [] ++ [char]) }
  | none =>
      if char ∈ blanks then ⟨state.words ++ state.current.toList, none, none⟩
      else if char ∈ quotes then ⟨state.words, some (state.current.getD []), some char⟩
      else ⟨state.words, some (state.current.getD [] ++ [char]), none⟩

end State

def read (command : List Char) : State :=
  command.foldl State.step ⟨[], none, none⟩

/-- None when a quote is not closed. -/
def words (command : List Char) : Option (List (List Char)) :=
  match (read command).quote with
  | some _ => none
  | none => some ((read command).words ++ (read command).current.toList)

/-! Which quote is open. -/

def toggle (quotes : List Char) (quote : Option Char) (char : Char) : Option Char :=
  match quote with
  | some opened => if char = opened then none else some opened
  | none => if char ∈ quotes then some char else none

/-- The quote that is open after a text, of the characters that are taken for quotes. -/
def openAfter (quotes command : List Char) : Option Char :=
  command.foldl (toggle quotes) none

theorem blank_not_quote {char : Char} (blank : char ∈ blanks) : char ∉ quotes := by
  simp only [blanks, List.mem_cons, List.not_mem_nil, or_false] at blank
  rcases blank with rfl | rfl <;> decide

theorem step_quote (state : State) (char : Char) :
    (state.step char).quote = toggle quotes state.quote char := by
  obtain ⟨words, current, quote⟩ := state
  cases quote with
  | some quote =>
      change (if char = quote then _ else _ : State).quote =
        if char = quote then none else some quote
      split <;> rfl
  | none =>
      by_cases blank : char ∈ blanks
      · rw [State.step]
        exact (congrArg State.quote (if_pos blank)).trans (if_neg (blank_not_quote blank)).symm
      · change (if char ∈ blanks then _ else if char ∈ quotes then _ else _ : State).quote =
          if char ∈ quotes then some char else none
        rw [if_neg blank]
        split <;> rfl

theorem foldl_quote (command : List Char) (state : State) :
    (command.foldl State.step state).quote = command.foldl (toggle quotes) state.quote := by
  induction command generalizing state with
  | nil => rfl
  | cons char command induction =>
      rw [List.foldl_cons, List.foldl_cons, induction, step_quote]

/-! One character. -/

section

variable {words : List (List Char)} {text : List Char} {current : Option (List Char)}
  {char quote : Char}

theorem step_blank (blank : char ∈ blanks) :
    State.step ⟨words, current, none⟩ char = ⟨words ++ current.toList, none, none⟩ := by
  rw [State.step]
  exact if_pos blank

theorem step_opens (opens : char ∈ quotes) :
    State.step ⟨words, current, none⟩ char = ⟨words, some (current.getD []), some char⟩ := by
  have noBlank : char ∉ blanks := fun blank => blank_not_quote blank opens
  rw [State.step]
  exact (if_neg noBlank).trans (if_pos opens)

theorem step_plain (noBlank : char ∉ blanks) (noQuote : char ∉ quotes) :
    State.step ⟨words, current, none⟩ char =
      ⟨words, some (current.getD [] ++ [char]), none⟩ := by
  rw [State.step]
  exact (if_neg noBlank).trans (if_neg noQuote)

theorem step_closes :
    State.step ⟨words, some text, some quote⟩ quote = ⟨words, some text, none⟩ := by
  rw [State.step]
  exact if_pos rfl

theorem step_inside (inside : char ≠ quote) :
    State.step ⟨words, some text, some quote⟩ char =
      ⟨words, some (text ++ [char]), some quote⟩ := by
  rw [State.step]
  exact if_neg inside

end

end Segvault.ShellWords
