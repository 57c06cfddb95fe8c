import Segvault.HachoirRegex.ParseRuns

namespace Segvault.HachoirRegex

open Logged Tree

/-! The parser rejects a text by a SyntaxError or a NotImplementedError, unless it comes to a
faulty place. -/

/-- What the parser has at a place that it comes to. -/
def Standing (text : List UInt8) (h0 : Heap) : Place → Heap → Prop
  | .parse start _, h => start ≤ text.length ∧ Later text h0 h
  | .turn index _ regex last, h => index ≤ text.length ∧ Later text h0 h ∧
      ∃ (hs : Heap) (total : Tree) (rest : Option Tree), regex = total.ref ∧
        last = rest.map ref ∧ h0.size ≤ hs.size ∧ Grown hs [] (total :: rest.toList) h
  | .group _, h => Later text h0 h
  | .alternative index regex, h => index ≤ text.length ∧ Later text h0 h ∧
      ∃ (hs : Heap) (total : Option Tree), regex = total.map ref ∧ h0.size ≤ hs.size ∧
        Grown hs [] total.toList h

section Runs

variable {text : List UInt8} {h0 h : Heap} {place : Place}

theorem Reaches.standing (reached : Reaches text h0 place h) : Standing text h0 place h := by
  induction reached with
  | begin => exact ⟨Nat.zero_le _, later_refl text h0⟩
  | @loop h start untilChars here more induction =>
      obtain ⟨inside, later⟩ := induction
      exact ⟨inside, later.step (later.grows.trans (h.new_extends _).grows)
        fun _ base regular => regular.new trivial, h, .atom h.size .regexEmpty, none, rfl, rfl,
        later.grows, Grown.atom .regexEmpty⟩
  | command here found goesOn special runs adds induction =>
      obtain ⟨inside, later, hs, regex, last, rfl, rfl, early, grown⟩ := induction
      obtain ⟨bound, later1, new, rest, rfl, rfl, grown1⟩ := Meets.ofGives
        (fun fuel => (parse_meets_all text h0 fuel).command here found goesOn early grown later)
          runs
      obtain ⟨total, h2, adds', grown2, regular⟩ := addLast_grows grown1
      obtain ⟨rfl, rfl⟩ := adds.unique adds'
      exact ⟨bound, later1.step (early.trans grown2.grown.grows) fun _ => regular, hs, total,
        some new, rfl, rfl, early, grown2⟩
  | @character h h1 h2 index untilChars char _ newRegex _ _ here found goesOn plain adds makes
      induction =>
      obtain ⟨inside, later, hs, regex, last, rfl, rfl, early, grown⟩ := induction
      obtain ⟨bound, _⟩ := List.getElem?_eq_some_iff.mp found
      obtain ⟨total, h1', adds', grown1, regular⟩ :=
        @addLast_grows hs h regex last [] (by rwa [List.append_nil])
      obtain ⟨rfl, rfl⟩ := adds.unique adds'
      obtain ⟨rfl, rfl⟩ := makes.unique (newAtom_gives
        (.regexString [char] (List.cons_ne_nil _ _)) h1)
      have grown2 := grown1.beside (@Grown.atom h1 (.regexString [char] (List.cons_ne_nil _ _)))
      exact ⟨bound, later.step (early.trans grown2.grown.grows) fun _ base before =>
        (regular base before).new trivial, hs, total, some (.atom h1.size _), rfl, rfl, early,
          grown2⟩
  | group here found goesOn induction =>
      obtain ⟨_, later, _⟩ := induction
      exact later
  | @alternatives h start char here found supported later =>
      obtain ⟨bound, _⟩ := List.getElem?_eq_some_iff.mp found
      exact ⟨Nat.le_of_lt bound, later, h, none, rfl, later.grows,
        Grown.refl (fun _ member => by cases member) fun _ member => by cases member⟩
  | alternative here induction => exact ⟨induction.1, induction.2.1⟩
  | next here reads joins inside goesOn induction =>
      obtain ⟨bound, later, hs, regex, rfl, early, grown⟩ := induction
      obtain ⟨_, _, later1, new, rfl, grown1⟩ := Meets.ofGives
        (fun fuel => (parse_meets_all text h0 fuel).underParse here.alternative bound later) reads
      obtain ⟨total, h2, joins', grown2, regular⟩ := orNext_grows (grown.beside grown1)
      obtain ⟨rfl, rfl⟩ := joins.unique joins'
      exact ⟨inside, later1.step (early.trans grown2.grown.grows) fun _ => regular, hs, some total,
        rfl, early, grown2⟩

/-- The exception of the parser from a place on. -/
def RaisesAt (text : List UInt8) (exception : String) : Place → Heap → Prop
  | .parse start untilChars, h =>
      RaisesWith (fun fuel => underParse fuel text start untilChars) h exception
  | .turn index untilChars regex last, h =>
      RaisesWith (fun fuel => parseLoop fuel text index untilChars regex last) h exception
  | .group start, h => RaisesWith (fun fuel => parseOr fuel text start) h exception
  | .alternative index regex, h => RaisesWith (fun fuel => orLoop fuel text index regex) h exception

theorem command_not_group {index : Nat} {char : UInt8} {last : Option Ref}
    (other : char ≠ '('.toUInt8) {exception : String}
    (raises : RaisesWith (fun fuel => simpleCommand fuel text index char last) h exception) :
    RaisesWith (fun fuel => command fuel text index char last) h exception :=
  raises.call fun fuel => command_simple fuel last index other

/-- An exception at a place that `parse` comes to is the exception of `parse`. -/
theorem Reaches.raises {exception : String} (reached : Reaches text h0 place h)
    (raises : RaisesAt text exception place h) :
    RaisesWith (fun fuel => parse fuel text) h0 exception := by
  induction reached with
  | begin => exact RaisesWith.bind raises
  | loop here more induction =>
      refine induction (RaisesWith.call (fun fuel => underParse_step fuel _)
        (RaisesWith.after (newAtom_gives .regexEmpty _) ?_))
      simp only [if_neg more]
      exact RaisesWith.bind raises
  | command here found goesOn special runs adds induction =>
      exact induction (RaisesWith.call (fun fuel => parseLoop_command fuel _ _ found goesOn special)
        (RaisesWith.after runs (RaisesWith.after adds (RaisesWith.after (Gives.enter _ _) raises))))
  | character here found goesOn plain adds makes induction =>
      exact induction (RaisesWith.call (fun fuel => parseLoop_character fuel _ _ found goesOn plain)
        (RaisesWith.after adds (RaisesWith.after makes
          (RaisesWith.after (Gives.enter _ _) raises))))
  | group here found goesOn induction =>
      refine induction (RaisesWith.call
        (fun fuel => parseLoop_command fuel _ _ found goesOn (by decide)) (RaisesWith.bind ?_))
      exact RaisesWith.call (fun fuel => command_group fuel _ _) (RaisesWith.bind raises)
  | alternatives here found supported induction =>
      refine induction (RaisesWith.call (fun fuel => parseOr_step fuel _)
        (RaisesWith.after (charAt_gives found _) ?_))
      simp only [if_neg supported]
      exact RaisesWith.bind raises
  | alternative here induction =>
      exact induction (RaisesWith.call (fun fuel => orLoop_step fuel _ _) (RaisesWith.bind raises))
  | next here reads joins inside goesOn induction =>
      refine induction (RaisesWith.call (fun fuel => orLoop_step fuel _ _)
        (RaisesWith.after reads (RaisesWith.after joins ?_)))
      simp only [if_neg (Nat.not_le.mpr inside), if_neg goesOn]
      exact RaisesWith.after (Gives.enter _ _) raises

theorem Refused.special {index : Nat} {last : Option Ref} {char : UInt8}
    (here : text[index]? = some char) (refused : Refused text h index last) :
    char ∈ regexCommandCharacters ∧ char ≠ '('.toUInt8 := by
  cases refused with
  | range bracket fault =>
      rw [here] at bracket
      cases bracket
      decide
  | bounds found same rep refuses =>
      rw [boundsAt_eq here] at found
      by_cases repeats : char = '*'.toUInt8 ∨ char = '?'.toUInt8 ∨ char = '+'.toUInt8
      · rcases repeats with rfl | rfl | rfl <;> decide
      · have none : charToRepeat char = none := by
          rw [not_or, not_or] at repeats
          rw [charToRepeat, if_neg repeats.1, if_neg repeats.2.1, if_neg repeats.2.2]
        rw [none] at found
        by_cases brace : char = '{'.toUInt8
        · subst brace
          decide
        · rw [if_neg brace] at found
          cases found

/-- At a faulty place the parser raises another exception than a rejection. -/
theorem Faulty.raises (reached : Reaches text h0 place h) (operands : HasOperands text h0)
    (faulty : Faulty text place h) :
    ∃ exception, RaisesAt text exception place h ∧ Crash exception := by
  cases faulty with
  | group past =>
      exact ⟨_, RaisesWith.call (fun fuel => parseOr_step fuel _)
        (RaisesWith.bind (charAt_raises past h)),
        .index⟩
  | @refused _ index untilChars char regex last found goesOn refused =>
      obtain ⟨special, notGroup⟩ := refused.special found
      obtain ⟨_, later, hs, total, rest, rfl, rfl, early, grown⟩ := reached.standing
      have sure : Sure text index rest := ⟨fun t member => grown.constructed early
        (later.regular operands) t (List.mem_cons_of_mem _ (Option.mem_toList.mpr member)),
        operands _ _ _ _ _ reached⟩
      obtain ⟨_, _, _, _, clean⟩ | ⟨exception, raises, raised⟩ := simpleCommand_settles grown found
      · exact absurd refused (clean sure).1
      · obtain ⟨crash, _⟩ | ⟨_, wrong⟩ := raised sure
        · exact ⟨exception, RaisesWith.call
            (fun fuel => parseLoop_command fuel _ _ found goesOn special)
            (RaisesWith.bind (command_not_group notGroup raises)), crash⟩
        · exact absurd refused wrong

end Runs

/-! The claim of the parser's exceptions. -/

/-- No object of the regex has None in place of a regex. -/
def OnlyRegexes : Tree → Prop :=
  Everywhere fun s => ∀ ref min max, s ≠ .atom ref (.regexRepeatNone min max)

/-- `parse(text)` returns a regex, or raises a SyntaxError or a NotImplementedError. -/
def RejectsCleanly (text : List UInt8) (h0 : Heap) : Prop :=
  (∀ ref h', Gives (fun fuel => parse fuel text) h0 ref h' →
    ∃ t : Tree, ref = t.ref ∧ t.Rep h' ∧ OnlyRegexes t) ∧
  ∀ exception, RaisesWith (fun fuel => parse fuel text) h0 exception → Rejection exception

theorem onlyRegexes_of_constructed {t : Tree} (constructed : t.Constructed) : OnlyRegexes t := by
  intro s member ref min max same
  subst same
  exact constructed _ member min max rfl

theorem singleton_char {char other : UInt8} {index : Nat}
    (here : [char][index]? = some other) : other = char := by
  cases index with
  | zero => exact (Option.some.inj here).symm
  | succ index => cases here

end Segvault.HachoirRegex
