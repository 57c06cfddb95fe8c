import Segvault.HachoirRegex.Faults

namespace Segvault.HachoirRegex

open Logged Tree

/-! The places that the parser comes to, and what it has read there. -/

/-- A call of `_parse`, a turn of its loop, a call of parseOr, or a turn of its loop. -/
inductive Place
  | parse (start : Nat) (untilChars : List UInt8)
  | turn (index : Nat) (untilChars : List UInt8) (regex : Ref) (last : Option Ref)
  | group (start : Nat)
  | alternative (index : Nat) (regex : Option Ref)

/-- The characters that end an alternative. -/
abbrev alternativeEnd : List UInt8 :=
  ['|', ')'].map Char.toUInt8

/-- `parse(text)`, called in the heap `h0`, comes to a place in a heap. -/
inductive Reaches (text : List UInt8) (h0 : Heap) : Place → Heap → Prop
  | begin : Reaches text h0 (.parse 0 []) h0
  | loop {h : Heap} {start : Nat} {untilChars : List UInt8}
      (here : Reaches text h0 (.parse start untilChars) h) (more : text.length ≠ start) :
      Reaches text h0 (.turn start untilChars h.size none) (h.new (.atom .regexEmpty)).2
  | command {h h1 h2 : Heap} {index next : Nat} {untilChars : List UInt8} {char : UInt8}
      {regex newRegex total : Ref} {last rest : Option Ref}
      (here : Reaches text h0 (.turn index untilChars regex last) h)
      (found : text[index]? = some char) (goesOn : char ∉ untilChars)
      (special : char ∈ regexCommandCharacters)
      (runs : Gives (fun fuel => command fuel text index char last) h (newRegex, rest, next) h1)
      (adds : Gives (fun fuel => addLast fuel regex rest) h1 total h2) :
      Reaches text h0 (.turn next untilChars total (some newRegex)) h2
  | character {h h1 h2 : Heap} {index : Nat} {untilChars : List UInt8} {char : UInt8}
      {regex newRegex total : Ref} {last : Option Ref}
      (here : Reaches text h0 (.turn index untilChars regex last) h)
      (found : text[index]? = some char) (goesOn : char ∉ untilChars)
      (plain : char ∉ regexCommandCharacters)
      (adds : Gives (fun fuel => addLast fuel regex last) h total h1)
      (makes : Gives (fun _ => newString char) h1 newRegex h2) :
      Reaches text h0 (.turn (index + 1) untilChars total (some newRegex)) h2
  | group {h : Heap} {index : Nat} {untilChars : List UInt8} {regex : Ref} {last : Option Ref}
      (here : Reaches text h0 (.turn index untilChars regex last) h)
      (found : text[index]? = some '('.toUInt8) (goesOn : '('.toUInt8 ∉ untilChars) :
      Reaches text h0 (.group (index + 1)) h
  | alternatives {h : Heap} {start : Nat} {char : UInt8} (here : Reaches text h0 (.group start) h)
      (found : text[groupStart text start]? = some char) (supported : char ≠ '?'.toUInt8) :
      Reaches text h0 (.alternative (groupStart text start) none) h
  | alternative {h : Heap} {index : Nat} {regex : Option Ref}
      (here : Reaches text h0 (.alternative index regex) h) :
      Reaches text h0 (.parse index alternativeEnd) h
  | next {h h1 h2 : Heap} {index next : Nat} {regex : Option Ref} {newRegex total : Ref}
      (here : Reaches text h0 (.alternative index regex) h)
      (reads : Gives (fun fuel => underParse fuel text index alternativeEnd) h (newRegex, next) h1)
      (joins : Gives (fun fuel => orNext fuel regex newRegex) h1 total h2)
      (inside : next < text.length) (goesOn : text[next]? ≠ some ')'.toUInt8) :
      Reaches text h0 (.alternative (next + 1) (some total)) h2

/-- A place where the parser raises no rejection: a faulty range or repetition, or a group
that begins at the end of the text. -/
inductive Faulty (text : List UInt8) : Place → Heap → Prop
  | refused {h : Heap} {index : Nat} {untilChars : List UInt8} {char : UInt8} {regex : Ref}
      {last : Option Ref} (found : text[index]? = some char) (goesOn : char ∉ untilChars)
      (refused : Refused text h index last) : Faulty text (.turn index untilChars regex last) h
  | group {h : Heap} {start : Nat} (past : text[groupStart text start]? = none) :
      Faulty text (.group start) h

/-- The parser comes to no faulty place. -/
def Faultless (text : List UInt8) (h0 : Heap) : Prop :=
  ∀ place h, Reaches text h0 place h → ¬ Faulty text place h

/-- Every repetition in braces that the parser comes to has a regex before it. -/
def HasOperands (text : List UInt8) (h0 : Heap) : Prop :=
  ∀ index untilChars regex last h, Reaches text h0 (.turn index untilChars regex last) h →
    ¬ Operandless text index last

/-- A heap later than `h0`, with regular objects when the repetitions have operands. -/
structure Later (text : List UInt8) (h0 h : Heap) : Prop where
  grows : h0.size ≤ h.size
  regular : HasOperands text h0 → h.RegularFrom h0.size

/-- A regex made of new objects. -/
def NewRegex (text : List UInt8) (h0 h : Heap) (ref : Ref) (h' : Heap) : Prop :=
  Later text h0 h' ∧ ∃ t : Tree, ref = t.ref ∧ Grown h [] [t] h'

/-- What the exceptions are when there is no fault. -/
def Rejects (text : List UInt8) (h0 : Heap) (exception : String) : Prop :=
  HasOperands text h0 → Faultless text h0 → Rejection exception

theorem constructed_of_regular {h : Heap} {t : Tree} {base : Ref} (rep : t.Rep h) (tidy : t.Tidy)
    (regular : h.RegularFrom base) (fresh : ∀ r ∈ t.refs, base ≤ r) : t.Constructed := by
  induction t using child_induct with
  | step t induction =>
  refine everywhere_iff.mpr ⟨?_, fun child inside => induction child inside (rep.child inside)
    (tidy.child inside) fun r member => fresh r ?_⟩
  · have here := regular t.ref t.node (fresh t.ref (by rw [refs_eq]; exact List.mem_cons_self))
      rep.here
    have tidyHere := tidy.here
    cases t with
    | atom ref leaf =>
        intro min max same
        subst same
        exact here
    | regexAnd ref init last => exact tidyHere.1
    | regexOr ref content => exact tidyHere
    | regexRepeat ref regex min max => exact here
  · rw [refs_eq]
    exact List.mem_cons_of_mem _ (mem_refsAll.mpr ⟨child, inside, member⟩)

/-- Regexes of new objects that are all regular. -/
theorem Grown.constructed {h h' : Heap} {wholes : List Tree} {base : Ref}
    (grown : Grown h [] wholes h') (early : base ≤ h.size) (regular : h'.RegularFrom base) :
    ∀ t ∈ wholes, t.Constructed := by
  intro t member
  refine constructed_of_regular (grown.rep t member) (grown.tidy t member) regular
    fun r inside => ?_
  have once := grown.count r
  have listed := List.count_pos_iff.mpr (mem_refsAll.mpr ⟨t, member, inside⟩)
  refine early.trans (Nat.not_lt.mp fun old => ?_)
  have none : between h.size h'.size r = 0 := between_old old
  simp only [refsAll_nil, List.count_nil] at once
  omega

/-! What the functions of the parser do with some fuel. -/

/-- The posts of the functions of the parser, at the places it comes to. -/
structure ParseMeets (text : List UInt8) (h0 : Heap) (fuel : Nat) : Prop where
  underParse : ∀ {h : Heap} {start : Nat} {untilChars : List UInt8},
    Reaches text h0 (.parse start untilChars) h → start ≤ text.length → Later text h0 h →
    Meets (underParse fuel text start untilChars) h
      (fun found h' => found.2 ≤ text.length ∧
        (untilChars = [] → start = 0 → found.2 = text.length) ∧
        NewRegex text h0 h found.1 h') (Rejects text h0)
  parseLoop : ∀ {hs h : Heap} {index : Nat} {untilChars : List UInt8} {regex : Tree}
      {last : Option Tree},
    Reaches text h0 (.turn index untilChars regex.ref (last.map ref)) h → index ≤ text.length →
    h0.size ≤ hs.size → Grown hs [] (regex :: last.toList) h → Later text h0 h →
    Meets (parseLoop fuel text index untilChars regex.ref (last.map ref)) h
      (fun found h' => found.2.2 ≤ text.length ∧ (untilChars = [] → found.2.2 = text.length) ∧
        Later text h0 h' ∧ ∃ (total : Tree) (rest : Option Tree), found.1 = total.ref ∧
          found.2.1 = rest.map ref ∧ Grown hs [] (total :: rest.toList) h') (Rejects text h0)
  command : ∀ {hs h : Heap} {index : Nat} {untilChars : List UInt8} {char : UInt8} {regex : Tree}
      {last : Option Tree},
    Reaches text h0 (.turn index untilChars regex.ref (last.map ref)) h →
    text[index]? = some char → char ∉ untilChars →
    h0.size ≤ hs.size → Grown hs [] (regex :: last.toList) h → Later text h0 h →
    Meets (command fuel text index char (last.map ref)) h
      (fun found h' => found.2.2 ≤ text.length ∧
        Later text h0 h' ∧ ∃ (new : Tree) (rest : Option Tree), found.1 = new.ref ∧
          found.2.1 = rest.map ref ∧ Grown hs [] (regex :: rest.toList ++ [new]) h')
      (Rejects text h0)
  parseOr : ∀ {h : Heap} {start : Nat}, Reaches text h0 (.group start) h → Later text h0 h →
    Meets (parseOr fuel text start) h
      (fun found h' => found.2 ≤ text.length ∧ NewRegex text h0 h found.1 h') (Rejects text h0)
  orLoop : ∀ {hs h : Heap} {index : Nat} {regex : Option Tree},
    Reaches text h0 (.alternative index (regex.map ref)) h → index ≤ text.length →
    h0.size ≤ hs.size → Grown hs [] regex.toList h → Later text h0 h →
    Meets (orLoop fuel text index (regex.map ref)) h
      (fun found h' => found.2 < text.length ∧ Later text h0 h' ∧
        ∃ t : Tree, found.1 = t.ref ∧ Grown hs [] [t] h') (Rejects text h0)

theorem later_refl (text : List UInt8) (h0 : Heap) : Later text h0 h0 := by
  refine ⟨Nat.le_refl _, fun _ r node above here => ?_⟩
  exact absurd (Heap.node?_lt here) (Nat.not_lt.mpr above)

theorem Later.step {text : List UInt8} {h0 h h' : Heap} (later : Later text h0 h)
    (grows : h0.size ≤ h'.size)
    (regular : HasOperands text h0 → ∀ base, h.RegularFrom base → h'.RegularFrom base) :
    Later text h0 h' :=
  ⟨grows, fun operands => regular operands _ (later.regular operands)⟩

section Step

variable {text : List UInt8} {h0 : Heap} {fuel : Nat} (meets : ParseMeets text h0 fuel)
include meets

theorem underParse_meets {h : Heap} {start : Nat} {untilChars : List UInt8}
    (reached : Reaches text h0 (.parse start untilChars) h) (inside : start ≤ text.length)
    (later : Later text h0 h) :
    Meets (underParse (fuel + 1) text start untilChars) h
      (fun found h' => found.2 ≤ text.length ∧
        (untilChars = [] → start = 0 → found.2 = text.length) ∧
        NewRegex text h0 h found.1 h') (Rejects text h0) := by
  rw [underParse_step]
  have grown : Grown h [] ([.atom h.size .regexEmpty] ++ (none : Option Tree).toList)
      (h.new (.atom .regexEmpty)).2 := Grown.atom .regexEmpty
  have laterEmpty : Later text h0 (h.new (.atom .regexEmpty)).2 :=
    later.step (later.grows.trans (h.new_extends _).grows) fun _ base regular =>
      regular.new trivial
  refine (steady_const _).meetsAfter (newAtom_gives .regexEmpty h) ?_ fuel
  by_cases atEnd : text.length = start
  · rw [if_pos atEnd]
    exact Meets.pure ⟨Nat.zero_le _, fun _ zero => (atEnd.trans zero).symm, laterEmpty, _, rfl,
      grown⟩
  rw [if_neg atEnd]
  refine Meets.bind (meets.parseLoop (reached.loop atEnd) inside later.grows grown laterEmpty) ?_
  rintro ⟨regex, rest, index⟩ h1 _ ⟨bound, whole, later1, total, last, rfl, rfl, grown1⟩
  obtain ⟨new, h2, adds, grown2, regular⟩ :=
    @addLast_grows h h1 total last [] (by rwa [List.append_nil])
  refine (addLast_steady _ _).meetsAfter adds ?_ fuel
  exact Meets.pure ⟨bound, fun none _ => whole none,
    later1.step (later.grows.trans grown2.grown.grows) fun _ => regular, new, rfl, grown2⟩

theorem parseLoop_meets {hs h : Heap} {index : Nat} {untilChars : List UInt8} {regex : Tree}
    {last : Option Tree}
    (reached : Reaches text h0 (.turn index untilChars regex.ref (last.map ref)) h)
    (inside : index ≤ text.length) (early : h0.size ≤ hs.size)
    (grown : Grown hs [] (regex :: last.toList) h) (later : Later text h0 h) :
    Meets (parseLoop (fuel + 1) text index untilChars regex.ref (last.map ref)) h
      (fun found h' => found.2.2 ≤ text.length ∧ (untilChars = [] → found.2.2 = text.length) ∧
        Later text h0 h' ∧ ∃ (total : Tree) (rest : Option Tree), found.1 = total.ref ∧
          found.2.1 = rest.map ref ∧ Grown hs [] (total :: rest.toList) h') (Rejects text h0) := by
  cases here : text[index]? with
  | none =>
      have past : index = text.length :=
        Nat.le_antisymm inside (List.getElem?_eq_none_iff.mp here)
      rw [parseLoop_end _ _ _ here]
      exact Meets.pure ⟨inside, fun _ => past, later, regex, last, rfl, rfl, grown⟩
  | some char =>
  obtain ⟨bound, _⟩ := List.getElem?_eq_some_iff.mp here
  by_cases stops : char ∈ untilChars
  · rw [parseLoop_until _ _ _ here stops]
    refine Meets.pure ⟨inside, fun none => ?_, later, regex, last, rfl, rfl, grown⟩
    rw [none] at stops
    cases stops
  by_cases special : char ∈ regexCommandCharacters
  · rw [parseLoop_command _ _ _ here stops special]
    refine Meets.bind (meets.command reached here stops early grown later) ?_
    rintro ⟨newRegex, rest', next⟩ h1 ⟨log, ran⟩ ⟨bound1, later1, new, rest, rfl, rfl, grown1⟩
    obtain ⟨total, h2, adds, grown2, regular⟩ := addLast_grows grown1
    refine (addLast_steady _ _).meetsAfter adds ?_ fuel
    refine (steady_const _).meetsAfter (Gives.enter _ _) ?_ fuel
    have reached2 := reached.command here stops special
      ((command_steady text index char _).gives ran)
      adds
    exact @ParseMeets.parseLoop _ _ _ meets hs _ _ _ total (some new) reached2 bound1 early grown2
      (later1.step (early.trans grown2.grown.grows) fun _ => regular)
  · obtain ⟨total, h1, adds, grown1, regular⟩ :=
      @addLast_grows hs h regex last [] (by rwa [List.append_nil])
    rw [parseLoop_character _ _ _ here stops special]
    refine (addLast_steady _ _).meetsAfter adds ?_ fuel
    have makes := newAtom_gives (.regexString [char] (List.cons_ne_nil _ _)) h1
    refine (steady_const _).meetsAfter makes ?_ fuel
    refine (steady_const _).meetsAfter (Gives.enter _ _) ?_ fuel
    have grown2 := grown1.beside (@Grown.atom h1 (.regexString [char] (List.cons_ne_nil _ _)))
    exact @ParseMeets.parseLoop _ _ _ meets hs _ _ _ total
      (some (.atom h1.size (.regexString [char] (List.cons_ne_nil _ _))))
      (reached.character here stops special adds makes) bound early grown2
      (later.step (early.trans grown2.grown.grows) fun _ base before =>
        (regular base before).new trivial)

theorem command_meets {hs h : Heap} {index : Nat} {untilChars : List UInt8} {char : UInt8}
    {regex : Tree} {last : Option Tree}
    (reached : Reaches text h0 (.turn index untilChars regex.ref (last.map ref)) h)
    (here : text[index]? = some char) (goesOn : char ∉ untilChars)
    (early : h0.size ≤ hs.size) (grown : Grown hs [] (regex :: last.toList) h)
    (later : Later text h0 h) :
    Meets (command (fuel + 1) text index char (last.map ref)) h
      (fun found h' => found.2.2 ≤ text.length ∧
        Later text h0 h' ∧ ∃ (new : Tree) (rest : Option Tree), found.1 = new.ref ∧
          found.2.1 = rest.map ref ∧ Grown hs [] (regex :: rest.toList ++ [new]) h')
      (Rejects text h0) := by
  obtain ⟨bound, _⟩ := List.getElem?_eq_some_iff.mp here
  by_cases group : char = '('.toUInt8
  · subst group
    rw [command_group]
    refine Meets.bind (meets.parseOr (reached.group here goesOn) later) ?_
    rintro ⟨newRegex, next⟩ h1 _ ⟨inside, later1, new, rfl, grown1⟩
    exact Meets.pure ⟨inside, later1, new, last, rfl, rfl, grown.beside grown1⟩
  rw [command_simple _ _ _ group]
  have sure : HasOperands text h0 → Sure text index last := by
    intro operands
    refine ⟨fun t member => ?_, operands _ _ _ _ _ reached⟩
    exact grown.constructed early (later.regular operands) t
      (List.mem_cons_of_mem _ (Option.mem_toList.mpr member))
  have settled := simpleCommand_settles grown here
  refine Meets.impRaised (Meets.imp ((simpleCommand_steady text index char _).meets settled fuel)
    ?_) fun exception raised operands faultless => ?_
  · rintro ⟨newRegex, rest', next⟩ h1 ⟨⟨_, inside, new, rest, rfl, rfl, grown1⟩, clean⟩
    exact ⟨inside, later.step (early.trans grown1.grown.grows) fun operands =>
      (clean (sure operands)).2,
      new, rest, rfl, rfl, grown1⟩
  · obtain ⟨_, refused⟩ | ⟨rejection, _⟩ := raised (sure operands)
    · exact absurd (Faulty.refused here goesOn refused) (faultless _ _ reached)
    · exact rejection

theorem parseOr_meets {h : Heap} {start : Nat} (reached : Reaches text h0 (.group start) h)
    (later : Later text h0 h) :
    Meets (parseOr (fuel + 1) text start) h
      (fun found h' => found.2 ≤ text.length ∧ NewRegex text h0 h found.1 h')
      (Rejects text h0) := by
  rw [parseOr_step]
  cases here : text[groupStart text start]? with
  | none =>
      simp only [charAt, here]
      exact fun _ faultless => absurd (Faulty.group here) (faultless _ _ reached)
  | some char =>
  obtain ⟨bound, _⟩ := List.getElem?_eq_some_iff.mp here
  refine (steady_const _).meetsAfter (charAt_gives here h) ?_ fuel
  by_cases extension : char = '?'.toUInt8
  · rw [if_pos extension]
    exact Meets.raise fun _ _ => .extension
  rw [if_neg extension]
  refine Meets.bind (@ParseMeets.orLoop _ _ _ meets h h _ none (reached.alternatives here extension)
    (Nat.le_of_lt bound) later.grows
      (Grown.refl (fun _ member => by cases member) fun _ member => by cases member)
    later) ?_
  rintro ⟨regex, next⟩ h1 _ ⟨inside, later1, t, rfl, grown1⟩
  exact Meets.pure ⟨inside, later1, t, rfl, grown1⟩

theorem orLoop_meets {hs h : Heap} {index : Nat} {regex : Option Tree}
    (reached : Reaches text h0 (.alternative index (regex.map ref)) h)
    (inside : index ≤ text.length)
    (early : h0.size ≤ hs.size) (grown : Grown hs [] regex.toList h)
    (later : Later text h0 h) :
    Meets (orLoop (fuel + 1) text index (regex.map ref)) h
      (fun found h' => found.2 < text.length ∧ Later text h0 h' ∧
        ∃ t : Tree, found.1 = t.ref ∧ Grown hs [] [t] h') (Rejects text h0) := by
  rw [orLoop_step]
  refine Meets.bind (meets.underParse reached.alternative inside later) ?_
  rintro ⟨newRegex, next⟩ h1 ⟨log, ran⟩ ⟨bound, _, later1, new, rfl, grown1⟩
  obtain ⟨total, h2, joins, grown2, regular⟩ := orNext_grows (grown.beside grown1)
  refine (orNext_steady _ _).meetsAfter joins ?_ fuel
  have later2 : Later text h0 h2 := later1.step (early.trans grown2.grown.grows) fun _ => regular
  by_cases missing : text.length ≤ next
  · rw [if_pos missing]
    exact Meets.raise fun _ _ => .parenthesis
  rw [if_neg missing]
  refine (steady_const _).meetsAfter (Gives.enter _ _) ?_ fuel
  by_cases closes : text[next]? = some ')'.toUInt8
  · rw [if_pos closes]
    exact Meets.pure ⟨Nat.not_le.mp missing, later2, total, rfl, grown2⟩
  · rw [if_neg closes]
    have reads := (underParse_steady text index _).gives ran
    exact @ParseMeets.orLoop _ _ _ meets hs h2 _ (some total)
      (reached.next reads joins (Nat.not_le.mp missing) closes) (Nat.not_le.mp missing) early
        grown2 later2

end Step

theorem parse_meets_all (text : List UInt8) (h0 : Heap) (fuel : Nat) : ParseMeets text h0 fuel := by
  induction fuel with
  | zero =>
      refine ⟨?_, ?_, ?_, ?_, ?_⟩
      · intros
        rw [underParse]
        exact Meets.starve
      · intros
        rw [parseLoop]
        exact Meets.starve
      · intros
        rw [command]
        exact Meets.starve
      · intros
        rw [parseOr]
        exact Meets.starve
      · intros
        rw [orLoop]
        exact Meets.starve
  | succ fuel meets =>
      exact ⟨underParse_meets meets, parseLoop_meets meets, command_meets meets,
        parseOr_meets meets,
        orLoop_meets meets⟩

/-- What `parse(text)` returns, and what it raises when there is no fault. -/
theorem parse_meets (text : List UInt8) (h0 : Heap) (fuel : Nat) :
    Meets (parse fuel text) h0 (NewRegex text h0 h0) (Rejects text h0) := by
  refine Meets.bind ((parse_meets_all text h0 fuel).underParse .begin (Nat.zero_le _)
    (later_refl text h0)) ?_
  rintro ⟨regex, index⟩ h1 _ ⟨_, whole, new⟩
  have whole : index = text.length := whole rfl rfl
  simp only [if_pos whole]
  exact Meets.pure new

end Segvault.HachoirRegex
