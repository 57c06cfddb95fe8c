import Mathlib.Algebra.Ring.Nat
import Mathlib.Algebra.Ring.Int.Defs
import Mathlib.Data.List.Basic
import Mathlib.Data.List.Induction
import Segvault.CString

namespace Segvault.Autodafe

/-! Index sources: `check_index_source`, `check_fuzz_source` and `fill_source` of
`autodafe/file.c`. -/

namespace IndexSource

def isBlank (byte : UInt8) : Bool := byte = 32 || byte = 9

/-- `sizeof(temp)`, which is `FILENAME_MAX`. -/
def tempSize : Nat := 4096

/-- What `fgets` reads with that much room, and what is left. -/
def fgets : Nat → List UInt8 → List UInt8 × List UInt8
  | 0, content => ([], content)
  | _ + 1, [] => ([], [])
  | room + 1, byte :: content =>
      if byte = 10 then ([10], content)
      else
        let (read, rest) := fgets room content
        (byte :: read, rest)

theorem length_fgets (room : Nat) (content : List UInt8) :
    (fgets room content).2.length ≤ content.length := by
  fun_induction fgets room content with
  | case1 content => exact Nat.le_refl _
  | case2 room => exact Nat.le_refl _
  | case3 room content => exact Nat.le_succ _
  | case4 room byte content notNewline read rest result induction =>
      rw [result] at induction
      exact Nat.le_succ_of_le induction

/-- What the calls of `fgets` read one after the other. -/
def reads : List UInt8 → List (List UInt8)
  | [] => []
  | byte :: content =>
      (fgets (tempSize - 1) (byte :: content)).1 ::
        reads (fgets (tempSize - 1) (byte :: content)).2
termination_by content => content.length
decreasing_by
  have shorter := length_fgets (tempSize - 2) content
  rw [tempSize, fgets]
  split
  · exact Nat.lt_succ_self _
  · exact Nat.lt_succ_of_le shorter

/-- The loop over `j`, which removes the blanks before a comment. -/
def removeBlanks (temp : List UInt8) : Nat → List UInt8
  | 0 => temp
  | j + 1 =>
      match temp[j + 1]? with
      | none => temp
      | some byte => if isBlank byte then removeBlanks (temp.take (j + 1)) j else temp

def removeComment (temp : List UInt8) : List UInt8 :=
  match temp.findIdx? (· = 35) with
  | none => temp
  | some i => removeBlanks (temp.take i) (i - 1)

/-- What is returned, and what is left of the line. -/
def checkIndexSource (temp : List UInt8) : Int × List UInt8 :=
  if temp.length = tempSize - 1 then (-1, temp)
  else
    match temp.dropWhile isBlank with
    | [] => (1, temp)
    | byte :: _ =>
        if byte = 35 then (1, temp)
        else if byte ≠ 47 then (1, temp)
        else (0, removeComment temp)

/-- What is known of a file: its mode and size, and how `fopen` and `fclose` end. -/
structure FileStatus where
  regular : Bool
  size : Nat
  opens : Bool
  closes : Bool

/-- The size is returned as an `int`. -/
def checkFuzzSource (stat : List UInt8 → Option FileStatus) (temp : List UInt8) : Int :=
  match stat temp with
  | none => 0
  | some file =>
      if !file.regular then 0
      else if file.size = 0 then 0
      else if !file.opens then 0
      else if !file.closes then -1
      else (file.size : Int).bmod (2 ^ 32)

structure Source where
  filename : List UInt8
  id : Nat
  size : Int

/-- What has been handed to `check_fuzz_source`, the list of sources, and what is returned. -/
structure Filled where
  passed : List (List UInt8) := []
  sources : List Source := []
  result : Int

def dropNewline (temp : List UInt8) : List UInt8 :=
  if temp.getLast? = some 10 then temp.dropLast else temp

/-- A turn of the loop from `check_fuzz_source` on; there is no value where the `int` of the ids
overflows. -/
def addSource (stat : List UInt8 → Option FileStatus) (temp : List UInt8) (id : Nat)
    (others : Nat → Option Filled) : Option Filled :=
  let result := checkFuzzSource stat temp
  if result = -1 then some { passed := [temp], result := -1 }
  else if result = 0 then
    (others id).map fun filled => { filled with passed := temp :: filled.passed }
  else if id + 1 < 2 ^ 31 then
    (others (id + 1)).map fun filled =>
      { filled with
        passed := temp :: filled.passed
        sources := ⟨temp, id, result⟩ :: filled.sources }
  else none

/-- The loop over the lines. -/
def fillLoop (stat : List UInt8 → Option FileStatus) (closes : Bool) :
    List (List UInt8) → Nat → Option Filled
  | [], id => some { result := if closes then id else -1 }
  | read :: reads, id =>
      let (result, temp) := checkIndexSource (CString.text read 0)
      if result = -1 then some { result := -1 }
      else if result = 1 then fillLoop stat closes reads id
      else addSource stat (dropNewline temp) id (fillLoop stat closes reads)

end IndexSource

open IndexSource in
/-- `closes` tells whether the index file can be closed. -/
def fillSource (stat : List UInt8 → Option FileStatus) (closes : Bool) (content : List UInt8) :
    Option Filled :=
  fillLoop stat closes (reads content) 0

/-! The lines of an index file. -/

namespace IndexSource

def Blanks (blanks : List UInt8) : Prop := ∀ byte ∈ blanks, isBlank byte = true

/-- An absolute path without blanks and `#`. -/
structure IsPath (path : List UInt8) : Prop where
  absolute : path.head? = some 47
  noBlank : ∀ byte ∈ path, isBlank byte = false
  noComment : 35 ∉ path
  noNewline : 10 ∉ path
  noNul : 0 ∉ path

end IndexSource

open IndexSource

inductive IndexLine
  | blank (blanks : List UInt8)
  | remark (blanks text : List UInt8)
  | entry (before path after : List UInt8) (comment : Option (List UInt8))

namespace IndexLine

/-- The line without its newline. -/
def bytes : IndexLine → List UInt8
  | .blank blanks => blanks
  | .remark blanks text => blanks ++ 35 :: text
  | .entry before path after none => before ++ path ++ after
  | .entry before path after (some text) => before ++ path ++ after ++ 35 :: text

def WellFormed : IndexLine → Prop
  | .blank blanks => Blanks blanks
  | .remark blanks text => Blanks blanks ∧ 10 ∉ text
  | .entry before path after comment =>
      Blanks before ∧ IsPath path ∧ Blanks after ∧ ∀ text ∈ comment, 10 ∉ text

def path? : IndexLine → Option (List UInt8)
  | .entry _ path _ _ => some path
  | _ => none

/-- There are no blanks before the path, and after it only before a comment. -/
def Tight : IndexLine → Prop
  | .entry before _ after comment => before = [] ∧ (comment = none → after = [])
  | _ => True

/-- What is handed over of a line. -/
def handed : IndexLine → Option (List UInt8)
  | .entry before path after none => some (before ++ path ++ after)
  | .entry before path _ (some _) => some (before ++ path)
  | _ => none

theorem handed_isSome (line : IndexLine) : line.handed.isSome = line.path?.isSome := by
  cases line with
  | blank blanks => rfl
  | remark blanks text => rfl
  | entry before path after comment => cases comment <;> rfl

theorem handed_eq_path_iff (line : IndexLine) : line.handed = line.path? ↔ line.Tight := by
  cases line with
  | blank blanks => exact iff_of_true rfl trivial
  | remark blanks text => exact iff_of_true rfl trivial
  | entry before path after comment =>
      cases comment with
      | none =>
          refine ⟨fun same => ?_, fun tight => ?_⟩
          · have lengths := congrArg List.length (Option.some_inj.mp same)
            rw [List.length_append, List.length_append] at lengths
            exact ⟨List.length_eq_zero_iff.mp (by omega),
              fun _ => List.length_eq_zero_iff.mp (by omega)⟩
          · rw [handed, tight.1, tight.2 rfl, List.append_nil]
            rfl
      | some text =>
          refine ⟨fun same => ⟨?_, nofun⟩, fun tight => ?_⟩
          · exact List.append_left_eq_self.mp (Option.some_inj.mp same)
          · rw [handed, tight.1]
            rfl

end IndexLine

namespace IndexSource

/-! What `check_index_source` makes of a line. -/

section

variable {blanks rest front path after : List UInt8}

theorem Blanks.dropWhile_append (blank : Blanks blanks) (rest : List UInt8) :
    (blanks ++ rest).dropWhile isBlank = rest.dropWhile isBlank :=
  List.dropWhile_append_of_pos blank

theorem Blanks.noNul (blank : Blanks blanks) : 0 ∉ blanks := fun null =>
  absurd (blank 0 null) (by decide)

theorem Blanks.noComment (blank : Blanks blanks) : 35 ∉ blanks := fun comment =>
  absurd (blank 35 comment) (by decide)

theorem Blanks.noNewline (blank : Blanks blanks) : 10 ∉ blanks := fun newline =>
  absurd (blank 10 newline) (by decide)

theorem checkIndexSource_skip {temp : List UInt8} (short : temp.length ≠ tempSize - 1)
    (skipped : ∀ byte others, temp.dropWhile isBlank = byte :: others → byte ≠ 47) :
    (checkIndexSource temp).1 = 1 := by
  rw [checkIndexSource, if_neg short]
  split
  · rfl
  · rename_i byte others shape
    split
    · rfl
    · rw [if_pos (skipped byte others shape)]

theorem checkIndexSource_path {temp others : List UInt8} (short : temp.length ≠ tempSize - 1)
    (shape : temp.dropWhile isBlank = 47 :: others) :
    checkIndexSource temp = (0, removeComment temp) := by
  rw [checkIndexSource, if_neg short, shape]
  rfl

/-- The blanks at the end go, up to the path. -/
theorem removeBlanks_eq (last : ∃ byte, front.getLast? = some byte ∧ isBlank byte = false)
    (blank : Blanks after) {n : Nat} (length : n + 1 = (front ++ after).length) :
    removeBlanks (front ++ after) n = front := by
  induction after using List.reverseRecOn generalizing n with
  | nil =>
      rw [List.append_nil] at length ⊢
      obtain ⟨byte, ends, notBlank⟩ := last
      cases n with
      | zero => rfl
      | succ j =>
          have here : front[j + 1]? = some byte := by
            rw [← ends, List.getLast?_eq_getElem?, ← length]
            rfl
          rw [removeBlanks, here]
          exact if_neg (by rw [notBlank]; exact Bool.false_ne_true)
  | append_singleton after byte induction =>
      rw [← List.append_assoc] at length ⊢
      rw [List.length_append, List.length_singleton] at length
      have blankBefore : Blanks after := fun other member =>
        blank other (List.mem_append_left _ member)
      have blankHere := blank byte (List.mem_append_right _ List.mem_cons_self)
      cases n with
      | zero =>
          obtain ⟨first, ends, -⟩ := last
          have some_ : front ≠ [] := by
            rintro rfl
            cases ends
          have positive := List.length_pos_iff.mpr some_
          rw [List.length_append] at length
          omega
      | succ j =>
          have index : j + 1 = (front ++ after).length := Nat.succ.inj length
          have here : (front ++ after ++ [byte])[j + 1]? = some byte := by
            rw [index]
            exact List.getElem?_concat_length
          have cut : (front ++ after ++ [byte]).take (j + 1) = front ++ after :=
            List.take_left' index.symm
          rw [removeBlanks, here]
          dsimp only
          rw [if_pos blankHere, cut, induction blankBefore index]

theorem IsPath.last (isPath : IsPath path) (front : List UInt8) :
    ∃ byte, (front ++ path).getLast? = some byte ∧ isBlank byte = false := by
  have some_ : path ≠ [] := by
    rintro rfl
    cases isPath.absolute
  refine ⟨path.getLast some_, ?_, isPath.noBlank _ (List.getLast_mem some_)⟩
  rw [List.getLast?_append_of_ne_nil _ some_, List.getLast?_eq_getLast_of_ne_nil some_]

theorem removeComment_eq (noComment : 35 ∉ front ++ after)
    (last : ∃ byte, front.getLast? = some byte ∧ isBlank byte = false) (blank : Blanks after)
    (text : List UInt8) : removeComment (front ++ after ++ 35 :: text) = front := by
  have some_ : front ≠ [] := by
    rintro rfl
    obtain ⟨byte, ends, -⟩ := last
    cases ends
  have nothing : (front ++ after).findIdx? (· = 35) = none :=
    List.findIdx?_eq_none_iff.mpr fun byte member =>
      decide_eq_false fun comment => noComment (comment ▸ member)
  have found : (front ++ after ++ 35 :: text).findIdx? (· = 35) = some (front ++ after).length := by
    rw [List.findIdx?_append, nothing, List.findIdx?_cons]
    exact congrArg some (Nat.zero_add _)
  have positive : 0 < (front ++ after).length := by
    rw [List.length_append]
    exact Nat.add_pos_left (List.length_pos_iff.mpr some_) _
  rw [removeComment, found]
  dsimp only
  rw [List.take_left]
  exact removeBlanks_eq last blank (Nat.sub_add_cancel positive)

theorem removeComment_none {temp : List UInt8} (noComment : 35 ∉ temp) :
    removeComment temp = temp := by
  have nothing : temp.findIdx? (· = 35) = none := List.findIdx?_eq_none_iff.mpr fun byte member =>
    decide_eq_false fun comment => noComment (comment ▸ member)
  rw [removeComment, nothing]

theorem dropNewline_of_not_mem {temp : List UInt8} (noNewline : 10 ∉ temp) :
    dropNewline temp = temp :=
  if_neg fun ends => noNewline (List.mem_of_getLast? ends)

theorem dropNewline_concat (temp : List UInt8) : dropNewline (temp ++ [10]) = temp := by
  rw [dropNewline, List.getLast?_concat, if_pos rfl, List.dropLast_concat]

/-- Blanks and a path. -/
structure IsFront (front : List UInt8) : Prop where
  slash : ∀ rest, ∃ others, (front ++ rest).dropWhile isBlank = 47 :: others
  last : ∃ byte, front.getLast? = some byte ∧ isBlank byte = false
  noNul : 0 ∉ front
  noComment : 35 ∉ front
  noNewline : 10 ∉ front

theorem IsPath.isFront {before : List UInt8} (isPath : IsPath path) (blank : Blanks before) :
    IsFront (before ++ path) where
  slash rest := by
    obtain ⟨others, rfl⟩ := List.head?_eq_some_iff.mp isPath.absolute
    rw [List.append_assoc, blank.dropWhile_append]
    exact ⟨others ++ rest, rfl⟩
  last := isPath.last before
  noNul null := (List.mem_append.mp null).elim blank.noNul isPath.noNul
  noComment comment := (List.mem_append.mp comment).elim blank.noComment isPath.noComment
  noNewline newline := (List.mem_append.mp newline).elim blank.noNewline isPath.noNewline

theorem noNewline_bytes {line : IndexLine} (wellFormed : line.WellFormed) :
    10 ∉ line.bytes := by
  cases line with
  | blank blanks => exact wellFormed.noNewline
  | remark blanks text =>
      rw [IndexLine.bytes, List.mem_append, List.mem_cons, not_or, not_or]
      exact ⟨wellFormed.1.noNewline, by decide, wellFormed.2⟩
  | entry before path after comment =>
      obtain ⟨blankBefore, isPath, blankAfter, plain⟩ := wellFormed
      have noNewline : 10 ∉ before ++ path ++ after := fun newline =>
        (List.mem_append.mp newline).elim (isPath.isFront blankBefore).noNewline
          blankAfter.noNewline
      cases comment with
      | none => exact noNewline
      | some text =>
          rw [IndexLine.bytes, List.mem_append, List.mem_cons, not_or, not_or]
          exact ⟨noNewline, by decide, plain text rfl⟩

/-- The end of a line, with or without a newline. -/
inductive LineEnd : List UInt8 → Prop
  | newline : LineEnd [10]
  | file : LineEnd []

theorem LineEnd.noNul {ending : List UInt8} (isEnd : LineEnd ending) : 0 ∉ ending := by
  cases isEnd <;> decide

/-- Without a comment, only the newline goes. -/
theorem check_front (isFront : IsFront front) (blank : Blanks after) {ending : List UInt8}
    (isEnd : LineEnd ending)
    (short : (CString.text (front ++ after ++ ending) 0).length ≠ tempSize - 1) :
    ∃ left, checkIndexSource (CString.text (front ++ after ++ ending) 0) = (0, left) ∧
      dropNewline left = front ++ after := by
  have noNul : 0 ∉ front ++ after ++ ending := fun null =>
    (List.mem_append.mp null).elim
      (fun inside => (List.mem_append.mp inside).elim isFront.noNul blank.noNul) isEnd.noNul
  have noComment : 35 ∉ front ++ after := fun comment =>
    (List.mem_append.mp comment).elim isFront.noComment blank.noComment
  obtain ⟨others, shape⟩ := isFront.slash (after ++ ending)
  rw [← List.append_assoc] at shape
  rw [CString.text_of_noNul noNul] at short ⊢
  refine ⟨_, checkIndexSource_path short shape, ?_⟩
  cases isEnd with
  | newline =>
      rw [removeComment_none, dropNewline_concat]
      exact fun comment => (List.mem_append.mp comment).elim noComment (by decide)
  | file =>
      rw [List.append_nil, removeComment_none noComment, dropNewline_of_not_mem]
      exact fun newline => (List.mem_append.mp newline).elim isFront.noNewline blank.noNewline

/-- With a comment, the blanks before it go with it. -/
theorem check_comment (isFront : IsFront front) (blank : Blanks after) (text : List UInt8)
    (short : (CString.text (front ++ after ++ 35 :: text) 0).length ≠ tempSize - 1) :
    ∃ left, checkIndexSource (CString.text (front ++ after ++ 35 :: text) 0) = (0, left) ∧
      dropNewline left = front := by
  have noNul : 0 ∉ front ++ after := fun null =>
    (List.mem_append.mp null).elim isFront.noNul blank.noNul
  have noComment : 35 ∉ front ++ after := fun comment =>
    (List.mem_append.mp comment).elim isFront.noComment blank.noComment
  have seen : CString.text (front ++ after ++ 35 :: text) 0 =
      front ++ after ++ 35 :: CString.text text 0 := CString.text_append noNul _
  obtain ⟨others, shape⟩ := isFront.slash (after ++ 35 :: CString.text text 0)
  rw [← List.append_assoc] at shape
  rw [seen] at short ⊢
  refine ⟨_, checkIndexSource_path short shape, ?_⟩
  rw [removeComment_eq noComment isFront.last blank, dropNewline_of_not_mem isFront.noNewline]

/-- What is left of a line if it is not too long. -/
theorem check_line {line : IndexLine} (wellFormed : line.WellFormed) {ending : List UInt8}
    (isEnd : LineEnd ending)
    (short : (CString.text (line.bytes ++ ending) 0).length ≠ tempSize - 1) :
    match line.handed with
    | none => (checkIndexSource (CString.text (line.bytes ++ ending) 0)).1 = 1
    | some handed => ∃ left, checkIndexSource (CString.text (line.bytes ++ ending) 0) = (0, left) ∧
        dropNewline left = handed := by
  cases line with
  | blank blanks =>
      refine checkIndexSource_skip short fun byte others shape => ?_
      have noNul : 0 ∉ blanks ++ ending := fun null =>
        (List.mem_append.mp null).elim wellFormed.noNul isEnd.noNul
      rw [IndexLine.bytes, CString.text_of_noNul noNul, wellFormed.dropWhile_append] at shape
      cases isEnd with
      | newline =>
          cases shape
          decide
      | file => cases shape
  | remark blanks text =>
      refine checkIndexSource_skip short fun byte others shape => ?_
      rw [IndexLine.bytes, List.append_assoc, CString.text_append wellFormed.1.noNul,
        wellFormed.1.dropWhile_append] at shape
      cases shape
      decide
  | entry before path after comment =>
      have isFront := wellFormed.2.1.isFront wellFormed.1
      have blank := wellFormed.2.2.1
      cases comment with
      | none => exact check_front isFront blank isEnd short
      | some text =>
          rw [IndexLine.bytes, List.append_assoc] at short ⊢
          exact check_comment isFront blank (text ++ ending) short

end

/-! The lines as `fgets` reads them. -/

section

variable {bytes rest : List UInt8} {room : Nat}

theorem fgets_line (noNewline : 10 ∉ bytes) (fits : bytes.length < room) (rest : List UInt8) :
    fgets room (bytes ++ 10 :: rest) = (bytes ++ [10], rest) := by
  induction bytes generalizing room with
  | nil =>
      obtain ⟨room, rfl⟩ := Nat.exists_eq_add_of_le' (Nat.zero_lt_of_lt fits)
      rfl
  | cons byte bytes induction =>
      obtain ⟨room, rfl⟩ := Nat.exists_eq_add_of_le' (Nat.zero_lt_of_lt fits)
      rw [List.mem_cons, not_or] at noNewline
      rw [List.cons_append, fgets, if_neg (Ne.symm noNewline.1),
        induction noNewline.2 (Nat.lt_of_succ_lt_succ fits)]
      rfl

theorem fgets_part (noNewline : 10 ∉ bytes) (fits : bytes.length ≤ room)
    (ends : bytes.length = room ∨ rest = []) : fgets room (bytes ++ rest) = (bytes, rest) := by
  induction bytes generalizing room with
  | nil =>
      cases room with
      | zero => rfl
      | succ room =>
          obtain full | rfl := ends
          · cases full
          · rfl
  | cons byte bytes induction =>
      obtain ⟨room, rfl⟩ := Nat.exists_eq_add_of_le' (Nat.zero_lt_of_lt fits)
      rw [List.mem_cons, not_or] at noNewline
      rw [List.cons_append, fgets, if_neg (Ne.symm noNewline.1),
        induction noNewline.2 (Nat.le_of_succ_le_succ fits) (ends.imp_left Nat.succ.inj)]

theorem reads_eq {content : List UInt8} (some_ : content ≠ []) :
    reads content =
      (fgets (tempSize - 1) content).1 :: reads (fgets (tempSize - 1) content).2 := by
  obtain ⟨byte, others, rfl⟩ := List.exists_cons_of_ne_nil some_
  rw [reads]

theorem reads_line (noNewline : 10 ∉ bytes) (short : bytes.length < tempSize)
    (rest : List UInt8) :
    reads (bytes ++ 10 :: rest) =
      if bytes.length < tempSize - 1 then (bytes ++ [10]) :: reads rest
      else bytes :: [10] :: reads rest := by
  have some_ : bytes ++ 10 :: rest ≠ [] := List.append_ne_nil_of_right_ne_nil _ (List.cons_ne_nil _ _)
  rw [reads_eq some_]
  split
  · rename_i fits
    rw [fgets_line noNewline fits]
  · rename_i full
    have length : bytes.length = tempSize - 1 := by omega
    rw [fgets_part noNewline (Nat.le_of_eq length) (.inl length), reads_eq (List.cons_ne_nil _ _)]
    rfl

theorem reads_last (noNewline : 10 ∉ bytes) (short : bytes.length < tempSize) :
    reads bytes = if bytes = [] then [] else [bytes] := by
  split
  · rename_i nothing
    rw [nothing, reads]
  · rename_i some_
    have read : fgets (tempSize - 1) bytes = (bytes, []) := by
      have all := @fgets_part bytes [] _ noNewline (Nat.le_sub_one_of_lt short) (.inr rfl)
      rwa [List.append_nil] at all
    rw [reads_eq some_, read, reads]

end

/-! The loop, one line after the other. -/

section

variable {stat : List UInt8 → Option FileStatus} {closes : Bool}

/-- A turn for a line with its end. -/
def turn (stat : List UInt8 → Option FileStatus) (line : IndexLine) (ending : List UInt8)
    (others : Nat → Option Filled) (id : Nat) : Option Filled :=
  if (CString.text (line.bytes ++ ending) 0).length < tempSize - 1 then
    match line.handed with
    | none => others id
    | some temp => addSource stat temp id others
  else some { result := -1 }

theorem fillLoop_turn {line : IndexLine} (wellFormed : line.WellFormed) {ending : List UInt8}
    (isEnd : LineEnd ending) (fits : (line.bytes ++ ending).length < tempSize)
    (more : List (List UInt8)) :
    fillLoop stat closes ((line.bytes ++ ending) :: more) =
      turn stat line ending (fillLoop stat closes more) := by
  have bound := (List.takeWhile_sublist (l := line.bytes ++ ending) (· ≠ 0)).length_le
  funext id
  rw [fillLoop, turn]
  by_cases short : (CString.text (line.bytes ++ ending) 0).length < tempSize - 1
  · have left := check_line wellFormed isEnd (Nat.ne_of_lt short)
    rw [if_pos short]
    cases handed : line.handed with
    | none =>
        rw [handed] at left
        dsimp only at left ⊢
        rw [left]
        rfl
    | some temp =>
        rw [handed] at left
        obtain ⟨text, checked, same⟩ := left
        rw [checked]
        dsimp only
        rw [same]
        rfl
  · have full : (CString.text (line.bytes ++ ending) 0).length = tempSize - 1 := by
      rw [CString.text] at short ⊢
      rw [List.drop_zero] at short ⊢
      omega
    rw [checkIndexSource, if_pos full, if_neg short]
    rfl

theorem fillLoop_newline (more : List (List UInt8)) :
    fillLoop stat closes ([10] :: more) = fillLoop stat closes more := rfl

/-- Where only the newline does not fit, it makes no difference. -/
theorem turn_newline {line : IndexLine} (full : line.bytes.length = tempSize - 1)
    (others : Nat → Option Filled) : turn stat line [] others = turn stat line [10] others := by
  have same : (CString.text (line.bytes ++ []) 0).length < tempSize - 1 ↔
      (CString.text (line.bytes ++ [10]) 0).length < tempSize - 1 := by
    rw [List.append_nil]
    by_cases noNul : 0 ∉ line.bytes
    · rw [CString.text_append noNul, CString.text_of_noNul noNul, List.length_append]
      omega
    · obtain ⟨front, back, whole, noNulFront⟩ :=
        List.eq_append_cons_of_mem (Classical.not_not.mp noNul)
      rw [whole, List.append_assoc, @CString.text_eq _ _ back _ rfl noNulFront,
        @CString.text_eq _ _ (back ++ [10]) _ rfl noNulFront]
  funext id
  exact if_congr same rfl rfl

theorem fillLoop_line {line : IndexLine} (wellFormed : line.WellFormed)
    (short : line.bytes.length < tempSize) (rest : List UInt8) :
    fillLoop stat closes (reads (line.bytes ++ 10 :: rest)) =
      turn stat line [10] (fillLoop stat closes (reads rest)) := by
  rw [reads_line (noNewline_bytes wellFormed) short]
  split
  · rename_i fits
    refine fillLoop_turn wellFormed .newline ?_ _
    rw [List.length_append, List.length_singleton]
    omega
  · rename_i full
    have whole := @fillLoop_turn stat closes _ wellFormed _ .file
      (by rwa [List.append_nil]) ([10] :: reads rest)
    rw [List.append_nil] at whole
    rw [whole, fillLoop_newline, turn_newline (by omega)]

theorem fillLoop_last {line : IndexLine} (wellFormed : line.WellFormed)
    (short : line.bytes.length < tempSize) :
    fillLoop stat closes (reads line.bytes) = turn stat line [] (fillLoop stat closes []) := by
  rw [reads_last (noNewline_bytes wellFormed) short]
  split
  · rename_i nothing
    have empty : line.handed = none := by
      cases line with
      | blank blanks => rfl
      | remark blanks text => exact absurd nothing (List.append_ne_nil_of_right_ne_nil _ nofun)
      | entry before path after comment =>
          obtain ⟨byte, ends, -⟩ := wellFormed.2.1.last before
          have noPath : before ++ path = [] := by
            cases comment with
            | none => exact (List.append_eq_nil_iff.mp nothing).1
            | some text => exact (List.append_eq_nil_iff.mp (List.append_eq_nil_iff.mp nothing).1).1
          rw [noPath] at ends
          cases ends
    funext id
    rw [turn, nothing, empty]
    rfl
  · have whole := @fillLoop_turn stat closes _ wellFormed _ .file
      (by rwa [List.append_nil]) []
    rwa [List.append_nil] at whole

/-! What a file of lines gives. -/

/-- The turns for the lines of a file, each with its end. -/
def turns (stat : List UInt8 → Option FileStatus) (closes : Bool) :
    List (IndexLine × List UInt8) → Nat → Option Filled
  | [] => fillLoop stat closes []
  | (line, ending) :: lines => turn stat line ending (turns stat closes lines)

def paths (lines : List (IndexLine × List UInt8)) : List (List UInt8) :=
  lines.filterMap fun line => line.1.path?

/-- All paths have been handed over, and the sources have been numbered from there on. -/
def Numbered (paths : List (List UInt8)) (id : Nat) (filled : Filled) : Prop :=
  filled.passed = paths ∧
    filled.sources.map Source.id = List.range' id filled.sources.length ∧
    filled.result = (id + filled.sources.length : Nat)

/-- A line that is read right. -/
def Right (line : IndexLine × List UInt8) : Prop :=
  (CString.text (line.1.bytes ++ line.2) 0).length < tempSize - 1 ∧ line.1.Tight

theorem numbered_skip {temp path : List UInt8} {others : List (List UInt8)} {id : Nat}
    {filled : Filled} :
    Numbered (path :: others) id { filled with passed := temp :: filled.passed } ↔
      temp = path ∧ Numbered others id filled := by
  rw [Numbered, Numbered, List.cons.injEq, and_assoc]

theorem numbered_add {temp path : List UInt8} {others : List (List UInt8)} {id : Nat} {size : Int}
    {filled : Filled} :
    Numbered (path :: others) id
        { filled with
          passed := temp :: filled.passed
          sources := ⟨temp, id, size⟩ :: filled.sources } ↔
      temp = path ∧ Numbered others (id + 1) filled := by
  simp only [Numbered, List.cons.injEq, List.map_cons, List.length_cons, List.range'_succ, true_and,
    and_assoc]
  rw [Nat.add_right_comm id 1, Nat.add_assoc]

theorem not_numbered_quit {paths passed : List (List UInt8)} {id : Nat} :
    ¬ Numbered paths id { passed, result := -1 } := by
  intro numbered
  have result : (-1 : Int) = (id + ([] : List Source).length : Nat) := numbered.2.2
  omega

/-- One path is handed over. -/
theorem addSource_iff {temp path : List UInt8} {later : List (List UInt8)} {id : Nat}
    {others : Nat → Option Filled} :
    (∃ filled, addSource stat temp id others = some filled ∧
        Numbered (path :: later) id filled) ↔
      temp = path ∧ checkFuzzSource stat path ≠ -1 ∧
        if checkFuzzSource stat path = 0 then
          ∃ filled, others id = some filled ∧ Numbered later id filled
        else id + 1 < 2 ^ 31 ∧
          ∃ filled, others (id + 1) = some filled ∧ Numbered later (id + 1) filled := by
  rw [addSource]
  by_cases quits : checkFuzzSource stat temp = -1
  · rw [if_pos quits]
    refine iff_of_false ?_ ?_
    · rintro ⟨filled, same, numbered⟩
      cases same
      exact not_numbered_quit numbered
    · rintro ⟨rfl, goesOn, -⟩
      exact goesOn quits
  · rw [if_neg quits]
    by_cases skipped : checkFuzzSource stat temp = 0
    · rw [if_pos skipped]
      constructor
      · rintro ⟨filled, same, numbered⟩
        obtain ⟨filled, rest, rfl⟩ := Option.map_eq_some_iff.mp same
        obtain ⟨rfl, numberedRest⟩ := numbered_skip.mp numbered
        exact ⟨rfl, quits, by rw [if_pos skipped]; exact ⟨filled, rest, numberedRest⟩⟩
      · rintro ⟨rfl, -, rest⟩
        rw [if_pos skipped] at rest
        obtain ⟨filled, rest, numbered⟩ := rest
        exact ⟨_, by rw [rest]; rfl, numbered_skip.mpr ⟨rfl, numbered⟩⟩
    · rw [if_neg skipped]
      by_cases bound : id + 1 < 2 ^ 31
      · rw [if_pos bound]
        constructor
        · rintro ⟨filled, same, numbered⟩
          obtain ⟨filled, rest, rfl⟩ := Option.map_eq_some_iff.mp same
          obtain ⟨rfl, numberedRest⟩ := numbered_add.mp numbered
          exact ⟨rfl, quits, by rw [if_neg skipped]; exact ⟨bound, filled, rest, numberedRest⟩⟩
        · rintro ⟨rfl, -, rest⟩
          rw [if_neg skipped] at rest
          obtain ⟨-, filled, rest, numbered⟩ := rest
          exact ⟨_, by rw [rest]; rfl, numbered_add.mpr ⟨rfl, numbered⟩⟩
      · rw [if_neg bound]
        refine iff_of_false ?_ ?_
        · rintro ⟨filled, same, -⟩
          cases same
        · rintro ⟨rfl, -, rest⟩
          rw [if_neg skipped] at rest
          exact bound rest.1

/-- One line. -/
theorem turn_iff {line : IndexLine} {ending : List UInt8} {later : List (List UInt8)} {id : Nat}
    {others : Nat → Option Filled} :
    (∃ filled, turn stat line ending others id = some filled ∧
        Numbered (line.path?.toList ++ later) id filled) ↔
      Right (line, ending) ∧
        match line.path? with
        | none => ∃ filled, others id = some filled ∧ Numbered later id filled
        | some path => checkFuzzSource stat path ≠ -1 ∧
            if checkFuzzSource stat path = 0 then
              ∃ filled, others id = some filled ∧ Numbered later id filled
            else id + 1 < 2 ^ 31 ∧
              ∃ filled, others (id + 1) = some filled ∧ Numbered later (id + 1) filled := by
  rw [turn]
  by_cases short : (CString.text (line.bytes ++ ending) 0).length < tempSize - 1
  · have right : Right (line, ending) ↔ line.handed = line.path? :=
      (and_iff_right short).trans line.handed_eq_path_iff.symm
    have same := line.handed_isSome
    rw [if_pos short, right]
    cases path : line.path? with
    | none =>
        rw [path, Option.isSome_none, Option.isSome_eq_false_iff, Option.isNone_iff_eq_none] at same
        rw [same]
        exact (and_iff_right rfl).symm
    | some path_ =>
        rw [path, Option.isSome_some] at same
        obtain ⟨temp, handed⟩ := Option.isSome_iff_exists.mp same
        rw [handed, Option.some_inj]
        exact addSource_iff
  · rw [if_neg short]
    refine iff_of_false ?_ fun all => short all.1.1
    rintro ⟨filled, same, numbered⟩
    cases same
    exact not_numbered_quit numbered

theorem turns_iff (lines : List (IndexLine × List UInt8)) {id : Nat} (small : id < 2 ^ 31) :
    (∃ filled, turns stat closes lines id = some filled ∧ Numbered (paths lines) id filled) ↔
      (∀ line ∈ lines, Right line) ∧
        (∀ path ∈ paths lines, checkFuzzSource stat path ≠ -1) ∧ closes = true ∧
        id + ((paths lines).filter fun path => checkFuzzSource stat path ≠ 0).length < 2 ^ 31 := by
  induction lines generalizing id with
  | nil =>
      have result : turns stat closes [] id =
          some { result := if closes then (id : Int) else -1 } := rfl
      rw [result]
      constructor
      · rintro ⟨filled, same, numbered⟩
        cases same
        refine ⟨nofun, nofun, ?_, small⟩
        by_contra fails
        rw [if_neg fails] at numbered
        exact not_numbered_quit numbered
      · rintro ⟨-, -, closed, -⟩
        exact ⟨_, rfl, rfl, rfl, if_pos closed⟩
  | cons line lines induction =>
      obtain ⟨line, ending⟩ := line
      have all : paths ((line, ending) :: lines) = line.path?.toList ++ paths lines := by
        rw [paths, List.filterMap_cons]
        cases line.path? <;> rfl
      rw [turns, all, turn_iff, List.forall_mem_cons]
      cases path : line.path? with
      | none =>
          dsimp only
          rw [induction small, Option.toList_none, List.nil_append, and_assoc]
      | some path_ =>
          dsimp only
          rw [Option.toList_some, List.singleton_append, List.forall_mem_cons, List.filter_cons]
          by_cases skipped : checkFuzzSource stat path_ = 0
          · rw [if_pos skipped, induction small, if_neg (by rw [skipped]; decide)]
            tauto
          · rw [if_neg skipped, if_pos (decide_eq_true skipped), List.length_cons,
              ← Nat.add_assoc, Nat.add_right_comm]
            by_cases bound : id + 1 < 2 ^ 31
            · rw [induction bound, and_iff_right bound]
              tauto
            · refine iff_of_false (fun all => bound all.2.2.1) fun all => ?_
              exact bound (Nat.lt_of_le_of_lt (Nat.le_add_right _ _) all.2.2.2)

end

end IndexSource

/-- An index file: the lines that end with a newline, and one that may follow them. -/
structure IndexFile where
  lines : List IndexLine
  last : Option IndexLine
  wellFormed : ∀ line ∈ lines ++ last.toList, line.WellFormed
  short : ∀ line ∈ lines ++ last.toList, line.bytes.length < tempSize

namespace IndexFile

def content (file : IndexFile) : List UInt8 :=
  (file.lines.flatMap fun line => line.bytes ++ [10]) ++ file.last.elim [] IndexLine.bytes

def paths (file : IndexFile) : List (List UInt8) :=
  (file.lines ++ file.last.toList).filterMap IndexLine.path?

/-- The lines, each with its end. -/
def ended (file : IndexFile) : List (IndexLine × List UInt8) :=
  file.lines.map (·, [10]) ++ file.last.toList.map (·, [])

end IndexFile

namespace IndexSource

variable {stat : List UInt8 → Option FileStatus} {closes : Bool}

theorem fillLoop_lines {lines : List IndexLine} {last : Option IndexLine}
    (wellFormed : ∀ line ∈ lines ++ last.toList, line.WellFormed)
    (short : ∀ line ∈ lines ++ last.toList, line.bytes.length < tempSize) :
    fillLoop stat closes (reads ((lines.flatMap fun line => line.bytes ++ [10]) ++
        last.elim [] IndexLine.bytes)) =
      turns stat closes (lines.map (·, [10]) ++ last.toList.map (·, [])) := by
  induction lines with
  | nil =>
      cases last with
      | none =>
          rw [List.flatMap_nil, List.nil_append, Option.elim, reads]
          rfl
      | some line =>
          exact fillLoop_last (wellFormed line List.mem_cons_self) (short line List.mem_cons_self)
  | cons line lines induction =>
      rw [List.cons_append, List.forall_mem_cons] at wellFormed short
      rw [List.flatMap_cons, List.append_assoc, List.append_assoc, List.singleton_append,
        fillLoop_line wellFormed.1 short.1, induction wellFormed.2 short.2]
      rfl

theorem fillSource_eq (stat : List UInt8 → Option FileStatus) (closes : Bool) (file : IndexFile) :
    fillSource stat closes file.content = turns stat closes file.ended 0 :=
  congrFun (fillLoop_lines file.wellFormed file.short) 0

theorem paths_ended (file : IndexFile) : paths file.ended = file.paths := by
  rw [paths, IndexFile.ended, List.filterMap_append, List.filterMap_map, List.filterMap_map]
  exact (List.filterMap_append).symm

end IndexSource

open IndexSource

/-- An index file is read as it is documented exactly if each line fits the buffer with its newline
and a NUL to spare, has no blanks before its path, and after it only before a comment; and if no
file, nor the index file itself, fails to be closed, and the ids stay below the largest `int`. -/
theorem fillSource_documented_iff (stat : List UInt8 → Option FileStatus) (closes : Bool)
    (file : IndexFile) :
    (∃ filled, fillSource stat closes file.content = some filled ∧
        filled.passed = file.paths ∧
        filled.sources.map Source.id = List.range filled.sources.length ∧
        filled.result = filled.sources.length) ↔
      (∀ line ∈ file.ended,
        (CString.text (line.1.bytes ++ line.2) 0).length < tempSize - 1 ∧ line.1.Tight) ∧
        (∀ path ∈ file.paths, checkFuzzSource stat path ≠ -1) ∧ closes = true ∧
        (file.paths.filter fun path => checkFuzzSource stat path ≠ 0).length < 2 ^ 31 := by
  have all := @turns_iff stat closes file.ended 0 (by decide)
  rw [paths_ended, Nat.zero_add] at all
  refine Iff.trans (exists_congr fun filled => ?_) all
  rw [fillSource_eq, Numbered, List.range_eq_range', Nat.zero_add]

/-- The lines ` /a` and `/b `. -/
def spaced : IndexFile where
  lines := [.entry [32] [47, 97] [] none, .entry [] [47, 98] [32] none]
  last := none
  wellFormed := by
    have slashed (byte : UInt8) (letter : byte = 97 ∨ byte = 98) : IsPath [47, byte] := by
      have noBlank : ∀ other ∈ [47, byte], isBlank other = false := by
        obtain rfl | rfl := letter <;> rintro other (_ | ⟨_, _ | ⟨_, ⟨⟩⟩⟩) <;> rfl
      obtain rfl | rfl := letter <;> exact ⟨rfl, noBlank, by decide, by decide, by decide⟩
    have blank : Blanks [32] := fun byte member => by
      rw [List.mem_singleton.mp member]
      rfl
    rintro line (_ | ⟨_, _ | ⟨_, member⟩⟩)
    · exact ⟨blank, slashed 97 (.inl rfl), nofun, nofun⟩
    · exact ⟨nofun, slashed 98 (.inr rfl), blank, nofun⟩
    · cases member
  short := by decide

/-- The blanks are handed over with the paths. -/
theorem fillSource_spaced :
    (fillSource (fun _ => none) true spaced.content).map Filled.passed =
        some [[32, 47, 97], [47, 98, 32]] ∧
      spaced.paths = [[47, 97], [47, 98]] := by
  rw [fillSource_eq]
  exact ⟨rfl, rfl⟩

end Segvault.Autodafe
