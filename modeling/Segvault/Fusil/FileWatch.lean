import Mathlib.Data.List.DropRight

namespace Segvault.Fusil

/-! Lines of bytes, as `str` has them. -/

def newline : UInt8 := 10
def carriageReturn : UInt8 := 13

def isSpace (byte : UInt8) : Bool :=
  decide (byte = 32 ∨ 9 ≤ byte ∧ byte ≤ 13)

def rstrip (line : List UInt8) : List UInt8 := line.rdropWhile isSpace

/-- `str.splitlines(1)`, where `line` is what has been read of the current line. -/
def splitlinesFrom (line : List UInt8) : List UInt8 → List (List UInt8)
  | [] => if line = [] then [] else [line]
  | [byte] => [line ++ [byte]]
  | byte :: next :: text =>
      if byte = carriageReturn ∧ next = newline then
        (line ++ [byte, next]) :: splitlinesFrom [] text
      else if byte = carriageReturn ∨ byte = newline then
        (line ++ [byte]) :: splitlinesFrom [] (next :: text)
      else splitlinesFrom (line ++ [byte]) (next :: text)

/-- `line[-1] in '\n\r'` -/
def terminated (line : List UInt8) : Bool :=
  line.getLast? = some newline || line.getLast? = some carriageReturn

/-! `FileWatch`. -/

structure FileWatch where
  buffer : List (List UInt8) := []
  fileSeed : Nat := 0
  readSize : Nat := 4096
  deriving DecidableEq, Repr

namespace FileWatch

/-- The line that is yielded, and the buffer after it. -/
def joined (index : Nat) (buffer : List (List UInt8)) (line : List UInt8) :
    List UInt8 × List (List UInt8) :=
  if index = 0 ∧ buffer ≠ [] then ((buffer ++ [line]).flatten, []) else (line, buffer)

/-- The loop of `splitlines`: the lines that it yields, and the buffer that it leaves. -/
def yieldLines (index : Nat) (buffer : List (List UInt8)) :
    List (List UInt8) → List (List UInt8) × List (List UInt8)
  | [] => ([], buffer)
  | [line] =>
      if terminated line then
        let (line, buffer) := joined index buffer line
        ([rstrip line], buffer)
      else ([], buffer ++ [line])
  | line :: next :: lines =>
      let (line, buffer) := joined index buffer line
      let (lines, buffer) := yieldLines (index + 1) buffer (next :: lines)
      (rstrip line :: lines, buffer)

def splitlines (self : FileWatch) (data : List UInt8) : List (List UInt8) × FileWatch :=
  let (lines, buffer) := yieldLines 0 self.buffer (splitlinesFrom [] data)
  (lines, { self with buffer := buffer })

/-- `splitlines` on what successive reads give. -/
def splitReads (self : FileWatch) : List (List UInt8) → List (List UInt8) × FileWatch
  | [] => ([], self)
  | data :: reads =>
      let (lines, self) := self.splitlines data
      let (more, self) := self.splitReads reads
      (lines ++ more, self)

/-- `file_obj.read(read_size)` at `file_seed`. -/
def read (self : FileWatch) (content : List UInt8) : List UInt8 :=
  (content.drop self.fileSeed).take self.readSize

/-- The loop of `readlines`; the turns end when the time is up. -/
def readlines (content : List UInt8) : Nat → FileWatch → List (List UInt8) × FileWatch
  | 0, self => ([], self)
  | turns + 1, self =>
      let data := self.read content
      if data = [] then ([], self)
      else
        let (lines, self) :=
          { self with fileSeed := self.fileSeed + data.length }.splitlines data
        let (more, self) := readlines content turns self
        (lines ++ more, self)

end FileWatch

/-! What the lines of a text are, byte by byte. -/

/-- The lines that end in a text, stripped, and what is left of it; `return` says that the byte
before was a carriage return, which a newline then goes with. -/
def scan (afterReturn : Bool) (line : List UInt8) : List UInt8 → List (List UInt8) × List UInt8
  | [] => ([], line)
  | byte :: text =>
      if byte = newline ∧ afterReturn then scan false line text
      else if byte = carriageReturn ∨ byte = newline then
        (rstrip line :: (scan (byte = carriageReturn) [] text).1,
          (scan (byte = carriageReturn) [] text).2)
      else scan false (line ++ [byte]) text

theorem rstrip_concat {line : List UInt8} {byte : UInt8} (space : isSpace byte = true) :
    rstrip (line ++ [byte]) = rstrip line :=
  List.rdropWhile_concat_pos _ _ _ space

theorem terminated_concat (line : List UInt8) (byte : UInt8) :
    terminated (line ++ [byte]) = decide (byte = carriageReturn ∨ byte = newline) := by
  simp [terminated, Bool.or_comm]

theorem scan_ends {byte : UInt8} {afterReturn : Bool}
    (alone : ¬ (byte = newline ∧ afterReturn = true))
    (ends : byte = carriageReturn ∨ byte = newline) (line text : List UInt8) :
    scan afterReturn line (byte :: text) =
      (rstrip line :: (scan (byte = carriageReturn) [] text).1,
        (scan (byte = carriageReturn) [] text).2) := by
  rw [scan, if_neg alone, if_pos ends]

theorem scan_other {text : List UInt8} (other : text.head? ≠ some newline) (afterReturn : Bool)
    (line : List UInt8) : scan afterReturn line text = scan false line text := by
  cases text with
  | nil => rfl
  | cons byte text =>
      have differs : byte ≠ newline := fun same => other (congrArg some same)
      simp [scan, differs]

/-- A terminator that a newline does not go with. -/
theorem scan_alone {byte next : UInt8} {text : List UInt8}
    (other : ¬ (byte = carriageReturn ∧ next = newline))
    (ends : byte = carriageReturn ∨ byte = newline) (line : List UInt8) :
    scan false line (byte :: next :: text) =
      (rstrip line :: (scan false [] (next :: text)).1, (scan false [] (next :: text)).2) := by
  have same : scan (byte = carriageReturn) [] (next :: text) = scan false [] (next :: text) := by
    by_cases returns : byte = carriageReturn
    · refine scan_other (fun here => other ⟨returns, ?_⟩) _ _
      exact Option.some.inj here
    · simp [returns]
  rw [scan_ends (by simp) ends, same]

theorem scan_pair (line text : List UInt8) :
    scan false line (carriageReturn :: newline :: text) =
      (rstrip line :: (scan false [] text).1, (scan false [] text).2) := by
  simp [scan, show carriageReturn ≠ newline by decide]

theorem terminated_pair (line : List UInt8) :
    terminated (line ++ [carriageReturn, newline]) = true ∧
      rstrip (line ++ [carriageReturn, newline]) = rstrip line := by
  rw [show line ++ [carriageReturn, newline] = (line ++ [carriageReturn]) ++ [newline] by simp]
  exact ⟨terminated_concat _ _, (rstrip_concat (by decide)).trans (rstrip_concat (by decide))⟩

theorem isSpace_terminator {byte : UInt8} (ends : byte = carriageReturn ∨ byte = newline) :
    isSpace byte = true := by
  rcases ends with rfl | rfl <;> decide

namespace FileWatch

theorem joined_flatten {index : Nat} {buffer : List (List UInt8)} (line : List UInt8)
    (later : index ≠ 0 → buffer = []) :
    (joined index buffer line).1 = buffer.flatten ++ line ∧ (joined index buffer line).2 = [] := by
  unfold joined
  split
  · exact ⟨by simp, rfl⟩
  · next alone =>
      have empty : buffer = [] := by
        by_contra some
        exact alone ⟨by_contra fun later' => some (later later'), some⟩
      simp [empty]

theorem yieldLines_terminated {index : Nat} {buffer lines : List (List UInt8)}
    {line : List UInt8} (later : index ≠ 0 → buffer = []) (ends : terminated line = true) :
    yieldLines index buffer (line :: lines) =
      (rstrip (buffer.flatten ++ line) :: (yieldLines (index + 1) [] lines).1,
        (yieldLines (index + 1) [] lines).2) := by
  obtain ⟨whole, cleared⟩ := joined_flatten line later
  cases lines with
  | nil => simp only [yieldLines, ends, if_true, whole, cleared]
  | cons next lines => simp only [yieldLines, whole, cleared]

theorem yieldLines_scan (line text : List UInt8) (unended : terminated line = false)
    {index : Nat} {buffer : List (List UInt8)} (later : index ≠ 0 → buffer = []) :
    (yieldLines index buffer (splitlinesFrom line text)).1 =
        (scan false (buffer.flatten ++ line) text).1 ∧
      (yieldLines index buffer (splitlinesFrom line text)).2.flatten =
        (scan false (buffer.flatten ++ line) text).2 := by
  induction line, text using splitlinesFrom.induct generalizing index buffer with
  | case1 => simp [splitlinesFrom, yieldLines, scan]
  | case2 line nonempty => simp [splitlinesFrom, nonempty, yieldLines, unended, scan]
  | case3 line byte =>
      by_cases ends : byte = carriageReturn ∨ byte = newline
      · have stops := (terminated_concat line byte).trans (decide_eq_true ends)
        rw [splitlinesFrom, yieldLines_terminated later stops, ← List.append_assoc,
          rstrip_concat (isSpace_terminator ends)]
        simp [scan, ends, yieldLines]
      · have goesOn := (terminated_concat line byte).trans (decide_eq_false ends)
        simp [splitlinesFrom, yieldLines, goesOn, scan, ends]
  | case4 line byte next text crlf induction =>
      obtain ⟨rfl, rfl⟩ := crlf
      obtain ⟨stops, -⟩ := terminated_pair line
      obtain ⟨lines, kept⟩ := @induction rfl (index + 1) [] fun _ => rfl
      rw [splitlinesFrom, if_pos ⟨rfl, rfl⟩, yieldLines_terminated later stops, ← List.append_assoc,
        (terminated_pair _).2, lines, kept, scan_pair]
      exact ⟨rfl, rfl⟩
  | case5 line byte next text other ends induction =>
      have stops := (terminated_concat line byte).trans (decide_eq_true ends)
      obtain ⟨lines, kept⟩ := @induction rfl (index + 1) [] fun _ => rfl
      rw [splitlinesFrom, if_neg other, if_pos ends, yieldLines_terminated later stops,
        ← List.append_assoc, rstrip_concat (isSpace_terminator ends)]
      rw [lines, kept, scan_alone other ends]
      exact ⟨rfl, rfl⟩
  | case6 line byte next text other goesOn induction =>
      have unended := (terminated_concat line byte).trans (decide_eq_false goesOn)
      have rest := induction unended later
      rw [splitlinesFrom, if_neg other, if_neg goesOn, scan, if_neg (by simp), if_neg goesOn,
        List.append_assoc]
      exact rest

theorem splitlines_scan (self : FileWatch) (data : List UInt8) :
    (self.splitlines data).1 = (scan false self.buffer.flatten data).1 ∧
      (self.splitlines data).2.buffer.flatten = (scan false self.buffer.flatten data).2 := by
  have spec := @yieldLines_scan [] data rfl 0 self.buffer (absurd rfl)
  rwa [List.append_nil] at spec

end FileWatch

/-! A text in parts. -/

def endsReturn (afterReturn : Bool) (text : List UInt8) : Bool :=
  match text.getLast? with
  | none => afterReturn
  | some byte => byte = carriageReturn

theorem endsReturn_cons (afterReturn : Bool) (byte : UInt8) (text : List UInt8) :
    endsReturn afterReturn (byte :: text) = endsReturn (byte = carriageReturn) text := by
  cases text with
  | nil => rfl
  | cons next text => simp [endsReturn, List.getLast?_cons]

theorem scan_append (afterReturn : Bool) (line first second : List UInt8) :
    scan afterReturn line (first ++ second) =
      ((scan afterReturn line first).1 ++
          (scan (endsReturn afterReturn first) (scan afterReturn line first).2 second).1,
        (scan (endsReturn afterReturn first) (scan afterReturn line first).2 second).2) := by
  induction first generalizing afterReturn line with
  | nil => rfl
  | cons byte first induction =>
      rw [List.cons_append, endsReturn_cons, scan, scan]
      by_cases paired : byte = newline ∧ afterReturn = true
      · have notReturn : byte ≠ carriageReturn := paired.1 ▸ by decide
        simp only [if_pos paired, induction, notReturn, decide_false]
      · by_cases ends : byte = carriageReturn ∨ byte = newline
        · simp only [if_neg paired, if_pos ends, induction, List.cons_append]
        · have notReturn : byte ≠ carriageReturn := fun same => ends (.inl same)
          simp only [if_neg paired, if_neg ends, induction, decide_eq_false notReturn]

/-- After a carriage return a line begins. -/
theorem scan_clean {afterReturn : Bool} {line : List UInt8}
    (clean : afterReturn = true → line = []) (text : List UInt8)
    (returns : endsReturn afterReturn text = true) : (scan afterReturn line text).2 = [] := by
  induction text generalizing afterReturn line with
  | nil => exact clean returns
  | cons byte text induction =>
      rw [endsReturn_cons] at returns
      rw [scan]
      split
      · next paired =>
          have notReturn : byte ≠ carriageReturn := paired.1 ▸ by decide
          simp only [notReturn, decide_false] at returns
          exact induction nofun returns
      · split
        · exact induction (fun _ => rfl) returns
        · next ends =>
            have notReturn : byte ≠ carriageReturn := fun same => ends (.inl same)
            simp only [notReturn, decide_false] at returns
            exact induction nofun returns

/-- How many of the reads begin with the newline of a carriage return that was read before. -/
def cuts (afterReturn : Bool) : List (List UInt8) → Nat
  | [] => 0
  | data :: reads =>
      (if afterReturn ∧ data.head? = some newline then 1 else 0) +
        cuts (endsReturn afterReturn data) reads

/-- A read that begins so yields an empty line more. -/
theorem scan_cut {afterReturn : Bool} {line : List UInt8}
    (clean : afterReturn = true → line = []) (data : List UInt8) :
    (scan false line data).2 = (scan afterReturn line data).2 ∧
      (scan false line data).1 =
        (if afterReturn = true ∧ data.head? = some newline then [[]] else []) ++
          (scan afterReturn line data).1 := by
  by_cases cut : afterReturn = true ∧ data.head? = some newline
  · obtain ⟨text, rfl⟩ : ∃ text, data = newline :: text := by
      cases data with
      | nil => cases cut.2
      | cons byte text => exact ⟨text, by rw [Option.some.inj cut.2]⟩
    rw [if_pos cut, clean cut.1, cut.1]
    exact ⟨rfl, rfl⟩
  · rw [if_neg cut]
    cases afterReturn with
    | false => exact ⟨rfl, rfl⟩
    | true =>
        rw [scan_other (fun here => cut ⟨rfl, here⟩) true]
        exact ⟨rfl, rfl⟩

namespace FileWatch

theorem splitReads_scan (self : FileWatch) (reads : List (List UInt8)) {afterReturn : Bool}
    (clean : afterReturn = true → self.buffer.flatten = []) :
    (self.splitReads reads).2.buffer.flatten =
        (scan afterReturn self.buffer.flatten reads.flatten).2 ∧
      (self.splitReads reads).1.length =
        cuts afterReturn reads + (scan afterReturn self.buffer.flatten reads.flatten).1.length ∧
      (cuts afterReturn reads = 0 → (self.splitReads reads).1 =
        (scan afterReturn self.buffer.flatten reads.flatten).1) := by
  induction reads generalizing self afterReturn with
  | nil => exact ⟨rfl, rfl, fun _ => rfl⟩
  | cons data reads induction =>
      obtain ⟨lines, kept⟩ := self.splitlines_scan data
      obtain ⟨same, more⟩ := scan_cut clean data
      rw [same] at kept
      obtain ⟨keptAfter, length, equal⟩ :=
        induction (self.splitlines data).2 fun returns => kept.trans (scan_clean clean data returns)
      rw [kept] at keptAfter length equal
      rw [List.flatten_cons, scan_append, splitReads]
      refine ⟨keptAfter, ?_, fun none => ?_⟩
      · simp only [List.length_append, lines, more, length, cuts]
        split <;> simp only [List.length_cons, List.length_nil] <;> omega
      · simp only [cuts, Nat.add_eq_zero_iff] at none
        have uncut : ¬ (afterReturn = true ∧ data.head? = some newline) := fun cut => by
          rw [if_pos cut] at none
          exact absurd none.1 (by decide)
        simp only [lines, more, if_neg uncut, List.nil_append, equal none.2]

end FileWatch

/-! The lines of a whole text, and reads that cut a line end in two. -/

def completeLines (content : List UInt8) : List (List UInt8) :=
  ((splitlinesFrom [] content).filter terminated).map rstrip

def unterminatedPart (content : List UInt8) : List UInt8 :=
  ((splitlinesFrom [] content).filter fun line => !terminated line).flatten

/-- A read ends between a carriage return and its newline. -/
def CutsLineEnd (reads : List (List UInt8)) : Prop :=
  ∃ before after, reads = before ++ after ∧
    before.flatten.getLast? = some carriageReturn ∧ after.flatten.head? = some newline

theorem splitlinesFrom_scan (line text : List UInt8) (unended : terminated line = false) :
    ((splitlinesFrom line text).filter terminated).map rstrip = (scan false line text).1 ∧
      ((splitlinesFrom line text).filter fun line => !terminated line).flatten =
        (scan false line text).2 := by
  induction line, text using splitlinesFrom.induct with
  | case1 => simp [splitlinesFrom, scan]
  | case2 line nonempty => simp [splitlinesFrom, nonempty, unended, scan]
  | case3 line byte =>
      by_cases ends : byte = carriageReturn ∨ byte = newline
      · have stops := (terminated_concat line byte).trans (decide_eq_true ends)
        simp [splitlinesFrom, stops, scan, ends, rstrip_concat (isSpace_terminator ends)]
      · have goesOn := (terminated_concat line byte).trans (decide_eq_false ends)
        simp [splitlinesFrom, goesOn, scan, ends]
  | case4 line byte next text crlf induction =>
      obtain ⟨rfl, rfl⟩ := crlf
      obtain ⟨lines, rest⟩ := induction rfl
      obtain ⟨stops, stripped⟩ := terminated_pair line
      rw [splitlinesFrom, if_pos ⟨rfl, rfl⟩, List.filter_cons, if_pos stops, List.map_cons, lines,
        stripped, List.filter_cons, if_neg (by simp [stops]), rest, scan_pair]
      exact ⟨rfl, rfl⟩
  | case5 line byte next text other ends induction =>
      have stops := (terminated_concat line byte).trans (decide_eq_true ends)
      obtain ⟨lines, rest⟩ := induction rfl
      rw [splitlinesFrom, if_neg other, if_pos ends, List.filter_cons, if_pos stops, List.map_cons,
        lines, rstrip_concat (isSpace_terminator ends), List.filter_cons,
        if_neg (by simp [stops]), rest, scan_alone other ends]
      exact ⟨rfl, rfl⟩
  | case6 line byte next text other goesOn induction =>
      have unended := (terminated_concat line byte).trans (decide_eq_false goesOn)
      rw [splitlinesFrom, if_neg other, if_neg goesOn, scan, if_neg (by simp), if_neg goesOn]
      exact induction unended

theorem cutsLineEnd_cons (data : List UInt8) (reads : List (List UInt8)) :
    CutsLineEnd (data :: reads) ↔
      data.getLast? = some carriageReturn ∧ reads.flatten.head? = some newline ∨
        CutsLineEnd reads := by
  constructor
  · rintro ⟨before, after, same, returns, goesOn⟩
    cases before with
    | nil => cases returns
    | cons first before =>
        obtain ⟨rfl, parts⟩ := List.cons.inj same
        replace parts : reads = before ++ after := parts
        subst parts
        rw [List.flatten_cons, List.getLast?_append] at returns
        cases last : before.flatten.getLast? with
        | none =>
            rw [last, Option.none_or] at returns
            rw [List.flatten_append, List.getLast?_eq_none_iff.mp last]
            exact .inl ⟨returns, goesOn⟩
        | some byte =>
            rw [last] at returns
            exact .inr ⟨before, after, rfl, last.trans returns, goesOn⟩
  · rintro (⟨returns, goesOn⟩ | ⟨before, after, rfl, returns, goesOn⟩)
    · exact ⟨[data], reads, rfl, by simpa using returns, goesOn⟩
    · refine ⟨data :: before, after, rfl, ?_, goesOn⟩
      rw [List.flatten_cons, List.getLast?_append, returns]
      rfl

theorem cuts_eq_zero (afterReturn : Bool) (reads : List (List UInt8)) :
    cuts afterReturn reads = 0 ↔
      ¬ (afterReturn = true ∧ reads.flatten.head? = some newline) ∧ ¬ CutsLineEnd reads := by
  induction reads generalizing afterReturn with
  | nil =>
      refine iff_of_true rfl ⟨by simp, ?_⟩
      rintro ⟨before, after, same, returns, -⟩
      rw [(List.append_eq_nil_iff.mp same.symm).1] at returns
      cases returns
  | cons data reads induction =>
      rw [cuts, Nat.add_eq_zero_iff, induction, cutsLineEnd_cons, List.flatten_cons,
        List.head?_append]
      cases data with
      | nil => simp [endsReturn]
      | cons byte data =>
          have last : endsReturn afterReturn (byte :: data) = true ↔
              (byte :: data).getLast? = some carriageReturn := by
            simp [endsReturn, List.getLast?_cons]
          rw [last]
          simp

namespace FileWatch

/-- Main result: successive reads give the lines of the whole content, and keep its unterminated
part, exactly when none of them ends between a carriage return and its newline. -/
theorem splitReads_iff (reads : List (List UInt8)) :
    ((({} : FileWatch).splitReads reads).1 = completeLines reads.flatten ∧
        (({} : FileWatch).splitReads reads).2.buffer.flatten = unterminatedPart reads.flatten) ↔
      ¬ CutsLineEnd reads := by
  obtain ⟨lines, rest⟩ := splitlinesFrom_scan [] reads.flatten rfl
  obtain ⟨kept, length, equal⟩ := @splitReads_scan {} reads false nofun
  have zero : cuts false reads = 0 ↔ ¬ CutsLineEnd reads := by
    rw [cuts_eq_zero]
    exact and_iff_right nofun
  rw [completeLines, unterminatedPart, lines, rest, ← zero]
  refine ⟨fun ⟨same, _⟩ => ?_, fun uncut => ⟨equal uncut, kept⟩⟩
  have lengths := congrArg List.length same
  exact Nat.add_eq_right.mp (length.symm.trans lengths)

theorem splitReads_seed (reads : List (List UInt8)) (self : FileWatch) (seed : Nat) :
    ({ self with fileSeed := seed }.splitReads reads).1 = (self.splitReads reads).1 ∧
      ({ self with fileSeed := seed }.splitReads reads).2.buffer =
        (self.splitReads reads).2.buffer := by
  induction reads generalizing self with
  | nil => exact ⟨rfl, rfl⟩
  | cons data reads induction =>
      obtain ⟨lines, buffer⟩ := induction (self.splitlines data).2
      exact ⟨congrArg ((self.splitlines data).1 ++ ·) lines, buffer⟩

/-- `a\r\nb\n` in one read, and in two that part the first line end. -/
theorem splitReads_cut :
    (({} : FileWatch).splitReads [[97, 13, 10, 98, 10]]).1 = [[97], [98]] ∧
      (({} : FileWatch).splitReads [[97, 13], [10, 98, 10]]).1 = [[97], [], [98]] := by
  decide +kernel

end FileWatch

end Segvault.Fusil
