import Segvault.HachoirRegex.Parser
import Segvault.HachoirRegex.Union

namespace Segvault.HachoirRegex

open Logged

/-! Strings read back from their escaped form. -/

/-- The characters that escapeRegex prefixes by an antislash. -/
def escapedCharacters : List UInt8 :=
  [']', '[', '^', '.', '+', '*', '?', '{', '}', '|', '(', ')', '\\', '$'].map Char.toUInt8

def escapeCharacter (char : UInt8) : List UInt8 :=
  if char ∈ escapedCharacters then ['\\'.toUInt8, char] else [char]

def escapeRegex (text : List UInt8) : List UInt8 :=
  text.flatMap escapeCharacter

@[simp] theorem escapeRegex_cons (char : UInt8) (text : List UInt8) :
    escapeRegex (char :: text) = escapeCharacter char ++ escapeRegex text := rfl

/-- escapeRegex escapes what the parser takes for a command, and nothing else. -/
theorem mem_escaped_iff (char : UInt8) :
    char ∈ escapedCharacters ↔ char ∈ regexCommandCharacters := by
  have forth : escapedCharacters ⊆ regexCommandCharacters := by decide
  have back : regexCommandCharacters ⊆ escapedCharacters := by decide
  exact ⟨fun member => forth member, fun member => back member⟩

theorem getElem?_of_drop {α : Type} {text rest : List α} {index : Nat} {char : α}
    (here : text.drop index = char :: rest) : text[index]? = some char := by
  have head := congrArg List.head? here
  rwa [List.head?_drop] at head

theorem drop_succ_of_drop {α : Type} {text rest : List α} {index : Nat} {char : α}
    (here : text.drop index = char :: rest) : text.drop (index + 1) = rest := by
  rw [← List.drop_drop, here]
  rfl

theorem charAt_gives {text : List UInt8} {index : Nat} {char : UInt8}
    (here : text[index]? = some char) (h : Heap) :
    Gives (fun _ => charAt text index) h char h := by
  simp only [charAt, here]
  exact Gives.pure char h

theorem newAtom_gives (leaf : Atom) (h : Heap) :
    Gives (fun _ => newAtom leaf) h h.size (h.new (.atom leaf)).2 :=
  Gives.step (Returns.pure _)

/-- A reference to a string, or to a RegexEmpty for the empty text. -/
def HoldsText (h : Heap) (ref : Ref) (text : List UInt8) : Prop :=
  h.node? ref = some (.atom (Tree.textAtom text))

theorem HoldsText.extends {h h' : Heap} {ref : Ref} {text : List UInt8}
    (holds : HoldsText h ref text) (grown : h.Extends h') : HoldsText h' ref text :=
  grown.node? id holds

theorem textAtom_of_ne {text : List UInt8} (nonempty : text ≠ []) :
    Tree.textAtom text = .regexString text nonempty := by
  unfold Tree.textAtom
  exact dif_pos nonempty

theorem newString_gives (char : UInt8) (h : Heap) :
    ∃ h', Gives (fun _ => newString char) h h.size h' ∧ h.Extends h' ∧
      HoldsText h' h.size [char] :=
  ⟨_, newAtom_gives _ h, h.new_extends _, h.new_node? _⟩

/-- `regex + last` for two strings. -/
theorem addLast_gives {h : Heap} {regex last : Ref} {text : List UInt8} {char : UInt8}
    (here : HoldsText h regex text) (there : HoldsText h last [char]) :
    ∃ ref h', Gives (fun fuel => addLast fuel regex (some last)) h ref h' ∧ h.Extends h' ∧
      HoldsText h' ref (text ++ [char]) := by
  have there : h.node? last = some (.atom (.regexString [char] (List.cons_ne_nil _ _))) := there
  have full : h.isEmpty last = false := by rw [Heap.isEmpty, there]
  have step := fun fuel => Tree.dunderAnd_step fuel regex last h
  simp only [full, Bool.false_eq_true, if_false] at step
  by_cases empty : text = []
  · subst empty
    have here : h.node? regex = some (.atom .regexEmpty) := here
    have under : ∀ fuel, underAnd (fuel + 1) regex last h = some (some last, h) := by
      intro fuel
      rewrite [underAnd, here, there]
      rfl
    exact ⟨last, h, Gives.step (Returns.call step
      (Returns.bind (Returns.call under (Returns.pure _)) (Returns.pure _))),
      Heap.KeepsBut.refl _ h, there⟩
  · rw [HoldsText, textAtom_of_ne empty] at here
    have under : ∀ fuel, underAnd (fuel + 1) regex last h =
        some (some (createString (text ++ [char]) h).1, (createString (text ++ [char]) h).2) := by
      intro fuel
      rewrite [underAnd, here, there]
      rfl
    refine ⟨(createString (text ++ [char]) h).1, (createString (text ++ [char]) h).2,
      Gives.step (Returns.call step
        (Returns.bind (Returns.call under (Returns.pure _)) (Returns.pure _))), ?_, ?_⟩
    · rw [Tree.createString_eq]
      exact h.new_extends _
    · rw [Tree.createString_eq]
      exact h.new_node? _

/-- `regex + last` where `last` holds what was read last. -/
theorem addLast_optional {h : Heap} {regex : Ref} {last : Option Ref} {text : List UInt8}
    {read : Option UInt8} (here : HoldsText h regex text)
    (there : ∀ ref ∈ last, ∃ char ∈ read, HoldsText h ref [char])
    (both : last = none → read = none) :
    ∃ ref h', Gives (fun fuel => addLast fuel regex last) h ref h' ∧ h.Extends h' ∧
      HoldsText h' ref (text ++ read.toList) := by
  cases last with
  | none =>
      rw [both rfl]
      exact ⟨regex, h, Gives.pure regex h, Heap.KeepsBut.refl _ h, by simpa using here⟩
  | some last =>
      obtain ⟨char, same, holds⟩ := there last rfl
      rw [Option.mem_def] at same
      subst same
      exact addLast_gives here holds

theorem backslash_special : '\\'.toUInt8 ∈ regexCommandCharacters := by decide

theorem simpleCommand_backslash (fuel : Nat) (text : List UInt8) (index : Nat)
    (last : Option Ref) :
    simpleCommand fuel text index '\\'.toUInt8 last =
      escaped text index >>= fun (newRegex, index) => pure (newRegex, last, index) := rfl

/-- An escaped command character is a string. -/
theorem escaped_gives {text : List UInt8} {index : Nat} {char : UInt8}
    (here : text[index + 1]? = some char) (special : char ∈ regexCommandCharacters) (h : Heap) :
    ∃ h', Gives (fun _ => escaped text index) h (h.size, index + 2) h' ∧ h.Extends h' ∧
      HoldsText h' h.size [char] := by
  have inside : index + 1 ≠ text.length := by
    obtain ⟨bound, _⟩ := List.getElem?_eq_some_iff.mp here
    omega
  have notWord : char ≠ 'b'.toUInt8 := by
    rintro rfl
    exact absurd special (by decide)
  obtain ⟨h', gives, grown, holds⟩ := newString_gives char h
  refine ⟨h', ?_, grown, holds⟩
  have branch : ∀ fuel : Nat, (fun _ : Nat => escaped text index) fuel =
      charAt text (index + 1) >>= fun char =>
        if char = 'b'.toUInt8 then newAtom .regexWord >>= fun regex => pure (regex, index + 2)
        else if char ∈ regexCommandCharacters ∨ char = ' '.toUInt8 ∨ char = '\''.toUInt8 then
          newString char >>= fun regex => pure (regex, index + 2)
        else Logged.raise ("Operator '\\" ++ printed [char] ++ "' is not supported") :=
    fun _ => if_neg inside
  rw [funext branch]
  refine Gives.bind (charAt_gives here h) ?_
  simp only [notWord, if_false, special, true_or, if_true]
  exact Gives.bind gives (Gives.pure _ _)

/-- The loop of `_parse` over an escaped text: what it has read and what is left of it. -/
theorem parseLoop_gives {text : List UInt8} {rest : List UInt8} {index : Nat} {h : Heap}
    {regex : Ref} {last : Option Ref} {before : List UInt8} {read : Option UInt8}
    (left : text.drop index = escapeRegex rest) (here : HoldsText h regex before)
    (there : ∀ ref ∈ last, ∃ char ∈ read, HoldsText h ref [char])
    (both : last = none → read = none) :
    ∃ regex' last' index' h' before' read',
      Gives (fun fuel => parseLoop fuel text index [] regex last) h (regex', last', index') h' ∧
      HoldsText h' regex' before' ∧ (∀ ref ∈ last', ∃ char ∈ read', HoldsText h' ref [char]) ∧
      (last' = none → read' = none) ∧ text.length ≤ index' ∧
        (index ≤ text.length → index' = text.length) ∧
      before' ++ read'.toList = before ++ read.toList ++ rest := by
  induction rest generalizing index h regex last before read with
  | nil =>
      have past := List.drop_eq_nil_iff.mp left
      refine ⟨regex, last, index, h, before, read, ?_, here, there, both, past,
        fun inside => Nat.le_antisymm inside past, by simp⟩
      exact Gives.call (fun fuel => parseLoop_end fuel regex last
        (List.getElem?_eq_none past)) (Gives.pure _ _)
  | cons char rest induction =>
      by_cases special : char ∈ regexCommandCharacters
      · have both' := (mem_escaped_iff char).mpr special
        rw [escapeRegex_cons, escapeCharacter, if_pos both', List.cons_append, List.cons_append,
          List.nil_append] at left
        have first := getElem?_of_drop left
        have tail := drop_succ_of_drop left
        have second := getElem?_of_drop tail
        have tail := drop_succ_of_drop tail
        obtain ⟨h1, runs, grown1, new⟩ := escaped_gives second special h
        obtain ⟨regex', h2, adds, grown2, joined⟩ := addLast_optional (here.extends grown1)
          (fun ref member => by
            obtain ⟨other, same, holds⟩ := there ref member
            exact ⟨other, same, holds.extends grown1⟩) both
        obtain ⟨regex'', last', index', h', before', read', gives, holds, holdsLast, both', past,
          exact, whole⟩ := @induction (index + 1 + 1) h2 regex' (some h.size)
            (before ++ read.toList) (some char) tail joined
            (fun ref member => ⟨char, rfl, by
              cases member
              exact new.extends grown2⟩) (fun none => by cases none)
        refine ⟨regex'', last', index', h', before', read', ?_, holds, holdsLast, both', past,
          ?_, ?_⟩
        · have commanded : Gives (fun fuel => command fuel text index '\\'.toUInt8 last) h
              (h.size, last, index + 2) h1 := by
            refine Gives.call (fun fuel => command_simple fuel last index (by decide)) ?_
            simp only [simpleCommand_backslash]
            exact Gives.bind runs (Gives.pure _ _)
          exact Gives.call (fun fuel => parseLoop_command fuel regex last first (by simp)
            backslash_special) (Gives.bind commanded
              (Gives.bind adds (Gives.bind (Gives.enter _ _) gives)))
        · intro _
          obtain ⟨bound, _⟩ := List.getElem?_eq_some_iff.mp second
          exact exact bound
        · rw [whole]
          simp
      · have notEscaped := fun member => special ((mem_escaped_iff char).mp member)
        rw [escapeRegex_cons, escapeCharacter, if_neg notEscaped, List.cons_append,
          List.nil_append] at left
        have first := getElem?_of_drop left
        have tail := drop_succ_of_drop left
        obtain ⟨regex', h1, adds, grown1, joined⟩ := addLast_optional here there both
        obtain ⟨h2, makes, grown2, new⟩ := newString_gives char h1
        obtain ⟨regex'', last', index', h', before', read', gives, holds, holdsLast, both', past,
          exact, whole⟩ := @induction (index + 1) h2 regex' (some h1.size)
            (before ++ read.toList) (some char) tail (joined.extends grown2)
            (fun ref member => ⟨char, rfl, by
              cases member
              exact new⟩) (fun none => by cases none)
        refine ⟨regex'', last', index', h', before', read', ?_, holds, holdsLast, both', past,
          ?_, ?_⟩
        · exact Gives.call (fun fuel => parseLoop_character fuel regex last first (by simp) special)
            (Gives.bind adds (Gives.bind makes (Gives.bind (Gives.enter _ _) gives)))
        · intro _
          obtain ⟨bound, _⟩ := List.getElem?_eq_some_iff.mp first
          exact exact bound
        · rw [whole]
          simp

/-- `parse(escapeRegex(t))` is the string `t`. -/
theorem parse_escapeRegex (text : List UInt8) (nonempty : text ≠ []) (h : Heap) :
    ∃ (ref : Ref) (h' : Heap),
      Gives (fun fuel => parse fuel (escapeRegex text)) h ref h' ∧
      h'.node? ref = some (.atom (.regexString text nonempty)) := by
  have long : (escapeRegex text).length ≠ 0 := by
    obtain ⟨char, rest, rfl⟩ := List.exists_cons_of_ne_nil nonempty
    rw [escapeRegex_cons, escapeCharacter]
    split <;> simp
  obtain ⟨regex, last, index, h', before, read, loop, holds, holdsLast, both, past, exact, whole⟩ :=
    @parseLoop_gives (escapeRegex text) text 0 (h.new (.atom .regexEmpty)).2 h.size none [] none rfl
      (h.new_node? _) (fun _ member => by cases member) fun _ => rfl
  obtain ⟨result, h'', adds, _, joined⟩ := addLast_optional holds holdsLast both
  rw [whole, Option.toList_none, List.nil_append, List.nil_append, HoldsText,
    textAtom_of_ne nonempty] at joined
  refine ⟨result, h'', ?_, joined⟩
  have read :
      Gives (fun fuel => underParse fuel (escapeRegex text) 0 []) h (result, index) h'' := by
    refine Gives.call (fun fuel => underParse_step fuel 0) (Gives.bind (newAtom_gives _ h) ?_)
    simp only [long, if_false]
    exact Gives.bind loop (Gives.bind adds (Gives.pure _ _))
  refine Gives.bind read ?_
  simp only [exact (Nat.zero_le _), if_true]
  exact Gives.pure _ _

theorem parse_escapeRegex_dot :
    [97, 46] ≠ ([] : List UInt8) ∧ ∃ (ref : Ref) (h' : Heap),
      Gives (fun fuel => parse fuel [97, 92, 46]) ⟨[], 0⟩ ref h' ∧
      h'.node? ref = some (.atom (.regexString [97, 46] (by decide))) :=
  ⟨by decide, parse_escapeRegex [97, 46] (by decide) ⟨[], 0⟩⟩

end Segvault.HachoirRegex
