import Mathlib.Algebra.Group.Nat.Even
import Segvault.CString
import Segvault.Occurrence

namespace Segvault.Autodafe

/-! `gdb_look_for`: `adbg/gdb.c`. -/

/-- A name in the output of GDB/MI; those that are looked for are `addr`, `number` and `bkptno`. -/
structure GdbKey where
  name : List UInt8
  noQuote : 34 ∉ name

/-- How a call ends: with a text, at one of the calls of `exit`, or at a place that is not inside of
the line. -/
inductive LookFor
  | found (value : List UInt8)
  | quitting
  | outside
  deriving DecidableEq

namespace GdbLookFor

open CString

theorem strchr_bounds {gdbBuf : List UInt8} {start index : Nat} {c : UInt8}
    (found : strchr gdbBuf start c = some index) : start ≤ index ∧ index < gdbBuf.length :=
  ⟨(firstFrom_eq_some.mp found).1.1, (firstFrom_eq_some.mp found).1.2.1⟩

/-- `while (*(end - 1) == '\\')`, where `end` may be NULL after the first turn. -/
def endLoop (gdbBuf : List UInt8) (end_ : Nat) : Option Nat :=
  if gdbBuf[end_ - 1]? = some 92 then
    match _ : strchr gdbBuf (end_ + 1) 34 with
    | none => none
    | some next => endLoop gdbBuf next
  else some end_
termination_by gdbBuf.length - end_
decreasing_by
  have bounds := strchr_bounds ‹_›
  omega

/-- What is between two quotes. -/
def between (gdbBuf : List UInt8) (begin end_ : Nat) : List UInt8 :=
  (gdbBuf.drop (begin + 1)).take (end_ - begin - 1)

end GdbLookFor

open CString GdbLookFor in
def gdbLookFor (gdbBuf value : List UInt8) : LookFor :=
  match find gdbBuf value with
  | none => .quitting
  | some begin =>
      match strchr gdbBuf begin 34 with
      | none => .quitting
      | some begin =>
          match (strchr gdbBuf (begin + 1) 34).bind (endLoop gdbBuf) with
          | none => .outside
          -- the last check is made of `begin` and not of `end`
          | some end_ => .found (between gdbBuf begin end_)

namespace GdbLookFor

open CString

/-! What is looked for. -/

/-- The first quote after that place which is not escaped. -/
def closingQuote (gdbBuf : List UInt8) (begin : Nat) : Option Nat :=
  firstFrom gdbBuf (begin + 1) fun index =>
    gdbBuf[index]? = some 34 && decide (Even (backslashes (gdbBuf.take index)))

/-- The value of a key after its first occurrence, if it is followed by `="` and the quote is
closed. -/
def lookedFor (gdbBuf value : List UInt8) : LookFor :=
  match find gdbBuf value with
  | none => .quitting
  | some start =>
      if (gdbBuf.drop (start + value.length)).take 2 = [61, 34] then
        match closingQuote gdbBuf (start + value.length + 1) with
        | none => .quitting
        | some end_ => .found (between gdbBuf (start + value.length + 1) end_)
      else .quitting

/-- A quote after that place without a backslash before it. -/
def bare (gdbBuf : List UInt8) (index : Nat) : Bool :=
  gdbBuf[index]? = some 34 && gdbBuf[index - 1]? ≠ some 92

section

variable {gdbBuf : List UInt8} {start index end_ : Nat}

theorem bare_eq_false (noQuote : gdbBuf[index]? = some 34 → gdbBuf[index - 1]? = some 92) :
    bare gdbBuf index = false := by
  rw [bare, Bool.and_eq_false_iff, decide_eq_false_iff_not, decide_eq_false_iff_not, not_not]
  exact or_iff_not_imp_left.mpr fun quote => noQuote (not_not.mp quote)

theorem not_quote_of_strchr {c : UInt8} (found : strchr gdbBuf start c = some end_)
    (after : start ≤ index) (before : index < end_) : gdbBuf[index]? ≠ some c :=
  of_decide_eq_false ((firstFrom_eq_some.mp found).2 index after before)

theorem getElem?_of_strchr {c : UInt8} (found : strchr gdbBuf start c = some end_) :
    gdbBuf[end_]? = some c :=
  of_decide_eq_true (firstFrom_eq_some.mp found).1.2.2

theorem endLoop_eq (after : start ≤ end_) (quote : gdbBuf[end_]? = some 34)
    (skipped : ∀ index, start ≤ index → index < end_ → bare gdbBuf index = false) :
    endLoop gdbBuf end_ = firstFrom gdbBuf start (bare gdbBuf) := by
  fun_induction endLoop gdbBuf end_ with
  | case1 end_ escaped nothing =>
      refine (firstFrom_eq_none.mpr fun index from_ inside => ?_).symm
      obtain before | rfl | behind := Nat.lt_trichotomy index end_
      · exact skipped index from_ before
      · exact bare_eq_false fun _ => escaped
      · have notQuote := of_decide_eq_false (firstFrom_eq_none.mp nothing index behind inside)
        exact bare_eq_false fun quoted => absurd quoted notQuote
  | case2 end_ escaped next found induction =>
      have bounds := strchr_bounds found
      refine induction (by omega) (getElem?_of_strchr found) fun index from_ before => ?_
      obtain earlier | rfl | behind := Nat.lt_trichotomy index end_
      · exact skipped index from_ earlier
      · exact bare_eq_false fun _ => escaped
      · exact bare_eq_false fun quoted =>
          absurd quoted (not_quote_of_strchr found behind before)
  | case3 end_ notEscaped =>
      have inside := (List.getElem?_eq_some_iff.mp quote).1
      have here : bare gdbBuf end_ = true := by
        rw [bare, decide_eq_true quote, decide_eq_true notEscaped]
        rfl
      exact (firstFrom_eq_some.mpr ⟨⟨after, inside, here⟩, skipped⟩).symm

/-- What the loop over the closing quotes ends at. -/
theorem strchr_bind_endLoop (gdbBuf : List UInt8) (start : Nat) :
    (strchr gdbBuf start 34).bind (endLoop gdbBuf) = firstFrom gdbBuf start (bare gdbBuf) := by
  cases found : strchr gdbBuf start 34 with
  | none =>
      refine (firstFrom_eq_none.mpr fun index from_ inside => ?_).symm
      have notQuote := of_decide_eq_false (firstFrom_eq_none.mp found index from_ inside)
      exact bare_eq_false fun quoted => absurd quoted notQuote
  | some end_ =>
      exact endLoop_eq (strchr_bounds found).1 (getElem?_of_strchr found) fun index from_ before =>
        bare_eq_false fun quoted => absurd quoted (not_quote_of_strchr found from_ before)

/-- A quote without a backslash before it is not escaped. -/
theorem even_of_bare (positive : 0 < index) (isBare : bare gdbBuf index = true) :
    Even (backslashes (gdbBuf.take index)) := by
  rw [bare, Bool.and_eq_true, decide_eq_true_iff, decide_eq_true_iff] at isBare
  obtain ⟨before, rfl⟩ := Nat.exists_eq_add_of_le' positive
  have inside := (List.getElem?_eq_some_iff.mp isBare.1).1
  have known : gdbBuf[before]? = some gdbBuf[before] := List.getElem?_eq_getElem (by omega)
  have notBackslash : gdbBuf[before] ≠ 92 := fun backslash => isBare.2 (backslash ▸ known)
  rw [List.take_succ_eq_append_getElem (by omega), backslashes_concat, if_neg notBackslash]
  exact Even.zero

end

/-! After the key. -/

section

variable {gdbBuf : List UInt8} {start begin : Nat} {key : GdbKey}

theorem gdbLookFor_eq (occurs : find gdbBuf key.name = some start) :
    gdbLookFor gdbBuf key.name =
      match strchr gdbBuf start 34 with
      | none => .quitting
      | some begin =>
          match firstFrom gdbBuf (begin + 1) (bare gdbBuf) with
          | none => .outside
          | some end_ => .found (between gdbBuf begin end_) := by
  rw [gdbLookFor, occurs]
  dsimp only
  simp only [strchr_bind_endLoop]

/-- The quote after `key=` is the first after the key. -/
theorem strchr_key (occurs : find gdbBuf key.name = some start)
    (followed : (gdbBuf.drop (start + key.name.length)).take 2 = [61, 34]) :
    strchr gdbBuf start 34 = some (start + key.name.length + 1) := by
  have at_ (offset : Nat) (less : offset < 2) :
      gdbBuf[start + key.name.length + offset]? = [61, 34][offset]? := by
    rw [← followed, List.getElem?_take_of_lt less, List.getElem?_drop]
  have quote := at_ 1 (by decide)
  have inside := (List.getElem?_eq_some_iff.mp quote).1
  refine firstFrom_eq_some.mpr
    ⟨⟨by omega, inside, decide_eq_true quote⟩, fun index from_ before => ?_⟩
  refine decide_eq_false fun quoted => ?_
  obtain last | inName := Nat.eq_or_lt_of_le (Nat.le_of_lt_succ before)
  · rw [last] at quoted
    cases (at_ 0 (by decide)).symm.trans quoted
  · have name : (gdbBuf.drop start).take key.name.length = key.name := (find_eq_some.mp occurs).2.1
    have same : key.name[index - start]? = gdbBuf[index]? := by
      rw [← name, List.getElem?_take_of_lt (by omega), List.getElem?_drop,
        Nat.add_sub_cancel' from_]
    exact key.noQuote (List.mem_of_getElem? (same.trans quoted))

theorem between_injective {first second : Nat} (above : begin < first)
    (aboveSecond : begin < second) (inside : first ≤ gdbBuf.length)
    (insideSecond : second ≤ gdbBuf.length)
    (same : between gdbBuf begin first = between gdbBuf begin second) : first = second := by
  have lengths := congrArg List.length same
  rw [between, between, List.length_take, List.length_take, List.length_drop] at lengths
  omega

/-- The loop finds the closing quote exactly if no backslash stands before it. -/
theorem found_iff :
    (match firstFrom gdbBuf (begin + 1) (bare gdbBuf) with
      | none => LookFor.outside
      | some end_ => .found (between gdbBuf begin end_)) =
        (match closingQuote gdbBuf begin with
          | none => .quitting
          | some end_ => .found (between gdbBuf begin end_)) ↔
      ∃ end_, closingQuote gdbBuf begin = some end_ ∧ gdbBuf[end_ - 1]? ≠ some 92 := by
  constructor
  · intro same
    cases code : firstFrom gdbBuf (begin + 1) (bare gdbBuf) with
    | none =>
        cases closing : closingQuote gdbBuf begin with
        | none => simp only [code, closing, reduceCtorEq] at same
        | some second => simp only [code, closing, reduceCtorEq] at same
    | some first =>
        cases closing : closingQuote gdbBuf begin with
        | none => simp only [code, closing, reduceCtorEq] at same
        | some second =>
            simp only [code, closing, LookFor.found.injEq] at same
            obtain ⟨⟨after, inside, isBare⟩, -⟩ := firstFrom_eq_some.mp code
            obtain ⟨⟨afterSecond, insideSecond, -⟩, -⟩ := firstFrom_eq_some.mp closing
            obtain rfl := between_injective after afterSecond (Nat.le_of_lt inside)
              (Nat.le_of_lt insideSecond) same
            rw [bare, Bool.and_eq_true, decide_eq_true_iff, decide_eq_true_iff] at isBare
            exact ⟨first, rfl, isBare.2⟩
  · rintro ⟨end_, closing, notBackslash⟩
    obtain ⟨⟨after, inside, unescaped⟩, first⟩ := firstFrom_eq_some.mp closing
    rw [Bool.and_eq_true] at unescaped
    have isBare : bare gdbBuf end_ = true := by
      rw [bare, unescaped.1, decide_eq_true notBackslash]
      rfl
    have code : firstFrom gdbBuf (begin + 1) (bare gdbBuf) = some end_ := by
      refine firstFrom_eq_some.mpr ⟨⟨after, inside, isBare⟩, fun earlier from_ before => ?_⟩
      refine Bool.eq_false_iff.mpr fun bareEarlier => ?_
      have even := even_of_bare (Nat.zero_lt_of_lt from_) bareEarlier
      have escaped := first earlier from_ before
      rw [bare, Bool.and_eq_true] at bareEarlier
      rw [bareEarlier.1, Bool.true_and, decide_eq_false_iff_not] at escaped
      exact escaped even
    rw [code, closing]

theorem mem_of_strchr (found : strchr gdbBuf start 34 = some begin) : 34 ∈ gdbBuf.drop start := by
  have here : (gdbBuf.drop start)[begin - start]? = some 34 := by
    rw [List.getElem?_drop, Nat.add_sub_cancel' (strchr_bounds found).1]
    exact getElem?_of_strchr found
  exact List.mem_of_getElem? here

theorem not_mem_of_strchr (nothing : strchr gdbBuf start 34 = none) : 34 ∉ gdbBuf.drop start := by
  intro member
  obtain ⟨offset, inside, same⟩ := List.getElem_of_mem member
  rw [List.length_drop] at inside
  rw [List.getElem_drop] at same
  have notQuote := of_decide_eq_false <|
    firstFrom_eq_none.mp nothing (start + offset) (Nat.le_add_right _ _) (by omega)
  exact notQuote (same ▸ List.getElem?_eq_getElem _)

theorem lookedFor_iff (occurs : find gdbBuf key.name = some start) :
    gdbLookFor gdbBuf key.name = lookedFor gdbBuf key.name ↔
      34 ∉ gdbBuf.drop start ∨ (gdbBuf.drop (start + key.name.length)).take 2 = [61, 34] ∧
        ∃ end_, closingQuote gdbBuf (start + key.name.length + 1) = some end_ ∧
          gdbBuf[end_ - 1]? ≠ some 92 := by
  rw [gdbLookFor_eq occurs, lookedFor, occurs]
  dsimp only
  by_cases followed : (gdbBuf.drop (start + key.name.length)).take 2 = [61, 34]
  · have quote := strchr_key occurs followed
    rw [quote, if_pos followed, and_iff_right followed]
    exact found_iff.trans (or_iff_right (not_not_intro (mem_of_strchr quote))).symm
  · rw [if_neg followed]
    cases quote : strchr gdbBuf start 34 with
    | none => exact iff_of_true rfl (.inl (not_mem_of_strchr quote))
    | some begin =>
        refine iff_of_false ?_ ?_
        · dsimp only
          split <;> exact nofun
        · rintro (noQuote | ⟨follows, -⟩)
          · exact noQuote (mem_of_strchr quote)
          · exact followed follows

theorem outside_iff (occurs : find gdbBuf key.name = some start) :
    gdbLookFor gdbBuf key.name ≠ .outside ↔
      ∀ begin, strchr gdbBuf start 34 = some begin →
        ∃ end_, begin < end_ ∧ gdbBuf[end_]? = some 34 ∧ gdbBuf[end_ - 1]? ≠ some 92 := by
  rw [gdbLookFor_eq occurs]
  cases quote : strchr gdbBuf start 34 with
  | none => exact iff_of_true nofun nofun
  | some begin =>
      dsimp only
      cases code : firstFrom gdbBuf (begin + 1) (bare gdbBuf) with
      | none =>
          refine iff_of_false (fun safe => safe rfl) fun all => ?_
          obtain ⟨end_, after, quoted, notBackslash⟩ := all begin rfl
          have inside := (List.getElem?_eq_some_iff.mp quoted).1
          have notBare := firstFrom_eq_none.mp code end_ after inside
          rw [bare, decide_eq_true quoted, decide_eq_true notBackslash] at notBare
          cases notBare
      | some end_ =>
          refine iff_of_true nofun fun _ same => ?_
          cases same
          obtain ⟨⟨after, inside, isBare⟩, -⟩ := firstFrom_eq_some.mp code
          rw [bare, Bool.and_eq_true, decide_eq_true_iff, decide_eq_true_iff] at isBare
          exact ⟨end_, after, isBare⟩

end

end GdbLookFor

open CString GdbLookFor in
/-- The value of a key is found exactly if its closing quote has no backslash before it; and nothing
outside of the line is read exactly if some quote after the opening one has none. -/
theorem gdbLookFor_iff (gdbBuf : List UInt8) (key : GdbKey) :
    (gdbLookFor gdbBuf key.name = lookedFor gdbBuf key.name ↔
      ∀ start, find gdbBuf key.name = some start → 34 ∉ gdbBuf.drop start ∨
        (gdbBuf.drop (start + key.name.length)).take 2 = [61, 34] ∧
          ∃ end_, closingQuote gdbBuf (start + key.name.length + 1) = some end_ ∧
            gdbBuf[end_ - 1]? ≠ some 92) ∧
    (gdbLookFor gdbBuf key.name ≠ .outside ↔
      ∀ start begin, find gdbBuf key.name = some start → strchr gdbBuf start 34 = some begin →
        ∃ end_, begin < end_ ∧ gdbBuf[end_]? = some 34 ∧ gdbBuf[end_ - 1]? ≠ some 92) := by
  cases occurs : find gdbBuf key.name with
  | none =>
      have quits : gdbLookFor gdbBuf key.name = .quitting := by rw [gdbLookFor, occurs]
      refine ⟨iff_of_true ?_ nofun, iff_of_true ?_ nofun⟩
      · rw [quits, lookedFor, occurs]
      · rw [quits]
        exact nofun
  | some start =>
      refine ⟨(lookedFor_iff occurs).trans ?_, (outside_iff occurs).trans ?_⟩
      · exact ⟨fun holds _ same => Option.some_inj.mp same ▸ holds, fun all => all start rfl⟩
      · exact ⟨fun holds _ begin same => Option.some_inj.mp same ▸ holds begin,
          fun all begin => all start begin rfl⟩

open GdbLookFor in
/-- The closing quote of `a="` is missing, and is looked for behind NULL. -/
theorem gdbLookFor_outside : ∃ key : GdbKey, key.name = [97] ∧
    gdbLookFor [97, 61, 34] key.name = .outside ∧ lookedFor [97, 61, 34] key.name = .quitting :=
  ⟨⟨[97], by decide⟩, rfl, by decide, by decide⟩

end Segvault.Autodafe
