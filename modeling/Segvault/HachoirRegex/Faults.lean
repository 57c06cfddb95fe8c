import Segvault.HachoirRegex.Rejections

namespace Segvault.HachoirRegex

open Logged Tree

/-! The commands without a regex inside, and where they raise no rejection. -/

/-- The bounds of the repetition at an index. -/
def boundsAt (text : List UInt8) (index : Nat) : Option (Nat × Option Nat) := do
  let char ← text[index]?
  match charToRepeat char with
  | some bounds => some bounds
  | none =>
      if char = '{'.toUInt8 then do
        let (rmin, rmax, _) ← repetition text (index + 1)
        some (rmin, rmax)
      else none

/-- A faulty range, or a repetition with bounds that RegexRepeat does not take. -/
inductive Refused (text : List UInt8) (h : Heap) (index : Nat) (last : Option Ref) : Prop
  | range (here : text[index]? = some '['.toUInt8) (fault : RangeFault text (index + 1))
  | bounds {rmin : Nat} {rmax : Option Nat} {t : Tree}
      (here : boundsAt text index = some (rmin, rmax)) (same : last = some t.ref) (rep : t.Rep h)
      (refuses : ¬ t.Takes rmin rmax)

/-- A repetition in braces that has no regex before it. -/
def Operandless (text : List UInt8) (index : Nat) (last : Option Ref) : Prop :=
  text[index]? = some '{'.toUInt8 ∧ repetition text (index + 1) ≠ none ∧ last = none

/-- What a command leaves: the new regex beside the others, and an index further on. -/
def Commanded (text : List UInt8) (h0 : Heap) (index : Nat) (regex : Tree)
    (found : Ref × Option Ref × Nat) (h' : Heap) : Prop :=
  index < found.2.2 ∧ found.2.2 ≤ text.length ∧ ∃ (new : Tree) (last : Option Tree),
    found.1 = new.ref ∧ found.2.1 = last.map ref ∧
      Grown h0 [] (regex :: last.toList ++ [new]) h'

section Commands

variable {text : List UInt8} {h0 h : Heap} {index : Nat} {char : UInt8} {regex : Tree}
  {last : Option Tree}

/-- The regex before the command has its operands, and so has the command. -/
def Sure (text : List UInt8) (index : Nat) (last : Option Tree) : Prop :=
  (∀ t ∈ last, t.Constructed) ∧ ¬ Operandless text index (last.map ref)

theorem boundsAt_eq (here : text[index]? = some char) :
    boundsAt text index =
      match charToRepeat char with
      | some bounds => some bounds
      | none =>
          if char = '{'.toUInt8 then (do
            let (rmin, rmax, _) ← repetition text (index + 1)
            some (rmin, rmax))
          else none := by
  rw [boundsAt, here]
  rfl

theorem Refused.of_repeat {r : Option Ref} {bounds : Nat × Option Nat}
    (here : boundsAt text index = some bounds) (refused : Refused text h index r) :
    ∃ t : Tree, r = some t.ref ∧ t.Rep h ∧ ¬ t.Takes bounds.1 bounds.2 := by
  cases refused with
  | range bracket fault =>
      rw [boundsAt_eq bracket] at here
      cases here
  | bounds other same rep refuses =>
      rw [here] at other
      cases other
      exact ⟨_, same, rep, refuses⟩

theorem not_refused {r : Option Ref} (here : text[index]? = some char)
    (other : char ≠ '['.toUInt8) (none : boundsAt text index = none) :
    ¬ Refused text h index r := by
  intro refused
  cases refused with
  | range bracket fault =>
      rw [here] at bracket
      exact other (Option.some.inj bracket)
  | bounds found same rep refuses =>
      rw [none] at found
      cases found

theorem repeat_settles (read : Grown h0 [] (regex :: last.toList) h) {rmin next : Nat}
    {rmax : Option Nat} (here : boundsAt text index = some (rmin, rmax))
    (operand : ¬ Operandless text index (last.map ref) → last ≠ none)
    (forward : index < next) (inside : next ≤ text.length) :
    Settles (fun fuel => newRegexRepeat fuel (last.map ref) rmin rmax >>= fun newRegex =>
        (pure (newRegex, none, next) : Parsing (Ref × Option Ref × Nat))) h
      (fun found h' => Commanded text h0 index regex found h' ∧ (Sure text index last →
        ¬ Refused text h index (last.map ref) ∧ ∀ base, h.RegularFrom base → h'.RegularFrom base))
      fun exception => Sure text index last →
        (Crash exception ∧ Refused text h index (last.map ref)) ∨
          (Rejection exception ∧ ¬ Refused text h index (last.map ref)) := by
  have decides : Sure text index last → ∃ t, last = some t ∧ t.Rep h ∧
      Decides (t.Takes rmin rmax) fun fuel => (regexRepeat fuel (some t.ref) rmin rmax h).run := by
    rintro ⟨constructed, sure⟩
    obtain ⟨t, rfl⟩ := Option.ne_none_iff_exists'.mp (operand sure)
    have rep := read.rep t (by simp)
    exact ⟨t, rfl, rep, regexRepeat_decides rep (constructed t rfl) (read.tidy t (by simp)) _ _⟩
  obtain ⟨new, h', gives, whole, rfl, grown, regular⟩ | ⟨exception, raises, unfit⟩ :=
    newRegexRepeat_settles read rmin rmax
  · refine Settles.gives (gives.bind (Gives.pure _ _))
      ⟨⟨forward, inside, whole, none, rfl, rfl, grown⟩, fun sure => ⟨fun refused => ?_, ?_⟩⟩
    · obtain ⟨t, rfl, rep, decides⟩ := decides sure
      obtain ⟨other, same, repOther, refuses⟩ := refused.of_repeat here
      cases rep.unique repOther (Option.some.inj same)
      obtain ⟨text, raised⟩ := decides.2 refuses
      exact RaisesWith.not_gives (RaisesWith.tryStep raised) gives
    · obtain ⟨t, same, _⟩ := decides sure
      exact regular (by simp [same]) sure.1
  · refine Settles.raises raises.bind fun sure => .inl ⟨.unfit unfit, ?_⟩
    obtain ⟨t, rfl, rep, decides⟩ := decides sure
    refine .bounds here rfl rep fun takes => ?_
    obtain ⟨⟨whole, h'⟩, built⟩ := decides.1 takes
    exact raises.not_gives (Gives.tryStep built)

/-- A new regex beside `regex` and `last`. -/
theorem command_beside (read : Grown h0 [] (regex :: last.toList) h)
    {making : Nat → Parsing (Ref × Nat)}
    {raised : String → Prop} {clean : Prop}
    (makes : Settles making h
      (fun found h' => clean ∧ index < found.2 ∧ found.2 ≤ text.length ∧
        ∃ whole : Tree, found.1 = whole.ref ∧ Grown h [] [whole] h' ∧
          ∀ base, h.RegularFrom base → h'.RegularFrom base) raised) :
    Settles (fun fuel => making fuel >>= fun (newRegex, next) =>
        (pure (newRegex, last.map ref, next) : Parsing (Ref × Option Ref × Nat))) h
      (fun found h' => Commanded text h0 index regex found h' ∧ clean ∧
        ∀ base, h.RegularFrom base → h'.RegularFrom base) raised := by
  refine Settles.bind makes ?_
  rintro ⟨newRegex, next⟩ h' ⟨clean, forward, inside, whole, rfl, grown, regular⟩
  exact Settles.gives (Gives.pure _ _)
    ⟨⟨forward, inside, whole, last, rfl, rfl, read.beside grown⟩, clean, regular⟩

theorem simpleCommand_settles (read : Grown h0 [] (regex :: last.toList) h)
    (here : text[index]? = some char) :
    Settles (fun fuel => simpleCommand fuel text index char (last.map ref)) h
      (fun found h' => Commanded text h0 index regex found h' ∧ (Sure text index last →
        ¬ Refused text h index (last.map ref) ∧ ∀ base, h.RegularFrom base → h'.RegularFrom base))
      fun exception => Sure text index last →
        (Crash exception ∧ Refused text h index (last.map ref)) ∨
          (Rejection exception ∧ ¬ Refused text h index (last.map ref)) := by
  obtain ⟨inside, _⟩ := List.getElem?_eq_some_iff.mp here
  have bounds := boundsAt_eq here
  cases leaf : charToClass char with
  | some leaf' =>
      have special : char = '.'.toUInt8 ∨ char = '^'.toUInt8 ∨ char = '$'.toUInt8 := by
        unfold charToClass at leaf
        split_ifs at leaf <;> simp_all
      have none : boundsAt text index = none ∧ char ≠ '['.toUInt8 := by
        rw [bounds]
        rcases special with rfl | rfl | rfl <;> exact ⟨rfl, by decide⟩
      have regular : Regular (.atom leaf') := by
        unfold charToClass at leaf
        split_ifs at leaf <;> cases leaf <;> trivial
      simp only [simpleCommand, leaf]
      refine Settles.gives (Gives.bind (newAtom_gives leaf' h) (Gives.pure _ _))
        ⟨⟨Nat.lt_succ_self _, inside, _, last, rfl, rfl, read.beside (Grown.atom leaf')⟩,
          fun _ => ⟨not_refused here none.2 none.1, fun base before => before.new regular⟩⟩
  | none =>
  cases repeats : charToRepeat char with
  | some bounds' =>
      obtain ⟨rmin, rmax⟩ := bounds'
      rw [repeats] at bounds
      simp only [simpleCommand, leaf, repeats]
      cases last with
      | none =>
          refine Settles.raises (RaisesWith.raise _ h) fun _ => .inr ⟨.operand _, fun refused => ?_⟩
          obtain ⟨t, wrong, _⟩ := refused.of_repeat bounds
          cases wrong
      | some t =>
          exact repeat_settles read bounds (fun _ wrong => by cases wrong)
            (Nat.lt_succ_self _) inside
  | none =>
  rw [repeats] at bounds
  dsimp only at bounds
  simp only [simpleCommand, leaf, repeats]
  by_cases bracket : char = '['.toUInt8
  · subst bracket
    simp only [if_true]
    have iff : Refused text h index (last.map ref) ↔ RangeFault text (index + 1) := by
      refine ⟨fun refused => ?_, .range here⟩
      cases refused with
      | range _ fault => exact fault
      | bounds found same rep refuses =>
          rw [bounds] at found
          cases found
    refine (command_beside read ((parseRange_settles text (index + 1) h).imp
      (fun found h' here => ⟨here.1, Nat.lt_of_succ_lt here.2.1, here.2.2⟩) fun _ here => here)).imp
        (fun found h' here => ⟨here.1, fun _ => ⟨fun wrong => here.2.1 (iff.mp wrong), here.2.2⟩⟩)
        fun exception here _ => ?_
    rwa [iff]
  simp only [if_neg bracket]
  have other : boundsAt text index = none → ¬ Refused text h index (last.map ref) :=
    not_refused here bracket
  by_cases brace : char = '{'.toUInt8
  · rw [if_pos brace] at bounds
    simp only [if_pos brace, parseRepeat_eq]
    cases repetition' : repetition text (index + 1) with
    | none =>
        rw [repetition'] at bounds
        exact Settles.raises (RaisesWith.bind (RaisesWith.raise _ h)) fun _ =>
          .inr ⟨.repetition _, other bounds⟩
    | some found =>
        obtain ⟨rmin, rmax, next⟩ := found
        rw [repetition'] at bounds
        obtain ⟨forward, inside⟩ := repetition_bounds repetition'
        refine Settles.after (Gives.pure _ _) (repeat_settles read bounds (fun operand none => ?_)
          (Nat.lt_of_succ_lt forward) inside)
        exact operand ⟨brace ▸ here, by simp [repetition'], by rw [none]; rfl⟩
  rw [if_neg brace] at bounds
  simp only [if_neg brace]
  by_cases antislash : char = '\\'.toUInt8
  · simp only [if_pos antislash]
    refine (command_beside read ((escaped_settles inside h).imp
      (fun found h' here => ⟨trivial, here⟩) fun _ here => here)).imp
        (fun found h' here => ⟨here.1, fun _ => ⟨other bounds, here.2.2⟩⟩)
        fun exception rejection _ => .inr ⟨rejection, other bounds⟩
  · simp only [if_neg antislash]
    exact Settles.raises (RaisesWith.raise _ h) fun _ => .inr ⟨.operator _, other bounds⟩

end Commands

end Segvault.HachoirRegex
