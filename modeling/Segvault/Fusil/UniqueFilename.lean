import Mathlib.Data.List.TakeWhile
import Mathlib.Data.Set.Finite.Lattice
import Segvault.PercentFormat

namespace Segvault.Fusil

open PercentFormat

/-! `Directory.uniqueFilename`: `fusil/directory.py`. -/

abbrev Path := List Char

def decimal : Int → Text
  | .ofNat number => Nat.toDigits 10 number
  | .negSucc number => '-' :: Nat.toDigits 10 (number + 1)

/-- Python's conversions of an integer, of which only a bare `%d` matters here. -/
structure IntConversions extends Conversions Int where
  bare : ∀ count, convert { conversion := 'd' } count = some (decimal count)

/-- `os.path.basename` -/
def basename (name : Path) : Text := (name.reverse.takeWhile (· ≠ '/')).reverse

/-- `os.path.join` -/
def pathJoin (directory : Path) (name : Text) : Path :=
  if name.head? = some '/' then name
  else if directory = [] ∨ directory.getLast? = some '/' then directory ++ name
  else directory ++ '/' :: name

/-- `os.path.exists` raises where a name holds a zero byte. -/
def pathExists (world : Finset Path) (path : Path) : Option Bool :=
  if '\x00' ∈ path then none else some (decide (path ∈ world))

structure Directory where
  directory : Path
  files : Finset Text := ∅
  deriving DecidableEq

namespace Directory

/-- What a call comes to. A loop that needs more turns is still searching. -/
inductive Answer
  | path (path : Path) (self : Directory)
  | raised
  | searching
  deriving DecidableEq

def contains (world : Finset Path) (self : Directory) (name : Text) : Option Bool :=
  if name ∈ self.files then some true
  else pathExists world (pathJoin self.directory name)

def give (self : Directory) (name : Text) (save : Bool) : Answer :=
  .path (pathJoin self.directory name)
    (if save then { self with files := insert name self.files } else self)

/-- `archive.tar.gz` becomes `archive-%04u.tar.gz`. -/
def namePattern (name countFormat : Text) : Text :=
  match name.dropWhile (· ≠ '.') with
  | [] => name.takeWhile (· ≠ '.') ++ '-' :: countFormat
  | _ :: extension => name.takeWhile (· ≠ '.') ++ ('-' :: countFormat) ++ '.' :: extension

variable (conversions : IntConversions)

def tryNames (world : Finset Path) (self : Directory) (pattern : Text) (save : Bool) :
    Nat → Int → Answer
  | 0, _ => .searching
  | turns + 1, count =>
      match format conversions.toConversions pattern [count] with
      | none => .raised
      | some name =>
          match self.contains world name with
          | none => .raised
          | some false => self.give name save
          | some true => tryNames world self pattern save turns (count + 1)

def uniqueFilename (world : Finset Path) (turns : Nat) (self : Directory) (name : Path)
    (count : Option Int) (countFormat : Text) (save : Bool) : Answer :=
  let name := basename name
  if name = [] then .raised
  else
    match count with
    | some count => tryNames conversions world self (namePattern name countFormat) save turns count
    | none =>
        match self.contains world name with
        | none => .raised
        | some false => self.give name save
        | some true => tryNames conversions world self (namePattern name countFormat) save turns 2

end Directory

/-! Numbers in a name. -/

theorem mem_decimal {count : Int} {symbol : Char} (member : symbol ∈ decimal count) :
    symbol.isDigit = true ∨ symbol = '-' := by
  cases count with
  | ofNat number => exact .inl (Nat.isDigit_of_mem_toDigits (by decide) (by decide) member)
  | negSucc number =>
      obtain rfl | digits := List.mem_cons.mp member
      · exact .inr rfl
      · exact .inl (Nat.isDigit_of_mem_toDigits (by decide) (by decide) digits)

theorem toDigits_injective : Function.Injective (Nat.toDigits 10) := by
  intro first second same
  rw [← Nat.ofDigitChars_ten_toDigits (n := first), ← Nat.ofDigitChars_ten_toDigits (n := second),
    same]

theorem dash_ne_toDigits (number : Nat) (rest : Text) : '-' :: rest ≠ Nat.toDigits 10 number := by
  intro same
  have digit := Nat.isDigit_of_mem_toDigits (b := 10) (n := number) (by decide) (by decide)
    (same ▸ List.mem_cons_self)
  exact absurd digit (by decide)

theorem decimal_injective : Function.Injective decimal := by
  rintro (first | first) (second | second) same
  · exact congrArg Int.ofNat (toDigits_injective same)
  · exact absurd same.symm (dash_ne_toDigits _ _)
  · exact absurd same (dash_ne_toDigits _ _)
  · have digits := toDigits_injective (List.cons.inj same).2
    exact congrArg Int.negSucc (Nat.succ.inj digits)

/-! Names within a directory. -/

/-- A name that is one component of a path. -/
def Component (name : Text) : Prop := '/' ∉ name ∧ '\x00' ∉ name

theorem pathJoin_injective (directory : Path) {first second : Text} (one : '/' ∉ first)
    (other : '/' ∉ second) (same : pathJoin directory first = pathJoin directory second) :
    first = second := by
  have relative {name : Text} (component : '/' ∉ name) : ¬ name.head? = some '/' :=
    fun rooted => component (List.mem_of_head? rooted)
  rw [pathJoin, pathJoin, if_neg (relative one), if_neg (relative other)] at same
  split at same
  · exact List.append_cancel_left same
  · exact (List.cons.inj (List.append_cancel_left same)).2

theorem mem_pathJoin {directory : Path} {name : Text} {symbol : Char}
    (member : symbol ∈ pathJoin directory name) :
    symbol ∈ directory ∨ symbol ∈ name ∨ symbol = '/' := by
  rw [pathJoin] at member
  split at member
  · exact .inr (.inl member)
  · split at member
    · exact (List.mem_append.mp member).imp_right .inl
    · obtain before | after := List.mem_append.mp member
      · exact .inl before
      · obtain rfl | after := List.mem_cons.mp after
        · exact .inr (.inr rfl)
        · exact .inr (.inl after)

theorem slash_not_basename (name : Path) : '/' ∉ basename name := by
  intro member
  have kept := List.mem_takeWhile_imp (List.mem_reverse.mp member)
  exact absurd kept (by decide)

/-! What the pattern gives for each number. -/

namespace Directory

/-- The name before its first dot, and after it. -/
def stem (name : Text) : Text := name.takeWhile (· ≠ '.')

def extension (name : Text) : Text := (name.dropWhile (· ≠ '.')).tail

variable {conversions : IntConversions}

/-- A text in which every percent sign belongs to a literal one, such as `%%`. -/
def Literal (conversions : IntConversions) (text : Text) : Prop :=
  (format conversions.toConversions text []).isSome

instance (conversions : IntConversions) : DecidablePred (Literal conversions) :=
  fun _ => inferInstanceAs (Decidable (_ = true))

theorem run_count (output : Text) (count : Int) :
    run conversions.toConversions { output, arguments := [count] } ['-', '%', 'd'] =
      some { output := output ++ '-' :: decimal count } := by
  have dash : step conversions.toConversions { output, arguments := [count] } '-' =
      some { output := output ++ ['-'], arguments := [count] } := rfl
  have directive := @run_directive _ conversions.toConversions 'd' (by decide) (output ++ ['-'])
    count []
  rw [conversions.bare] at directive
  rw [run, List.foldlM_cons, dash]
  refine directive.trans ?_
  rw [Option.map_some, List.append_assoc]
  rfl

theorem mem_of_literal {text rendered : Text}
    (literal : format conversions.toConversions text [] = some rendered) {symbol : Char}
    (other : symbol ≠ '%' ∧ symbol ≠ ' ') (absent : symbol ∉ text) : symbol ∉ rendered := by
  intro member
  obtain own | percent | blank := mem_literal literal member
  · exact absent own
  · exact other.1 percent
  · exact other.2 blank

/-- The names that a basename with literal parts gives rise to. -/
structure Counted (conversions : IntConversions) (pattern : Text) (names : Int → Text) : Prop where
  formats : ∀ count, format conversions.toConversions pattern [count] = some (names count)
  injective : Function.Injective names
  component : ∀ count, Component (names count)

theorem format_counted {before after head suffix : Text}
    (headLiteral : format conversions.toConversions before [] = some head)
    (suffixLiteral : format conversions.toConversions after [] = some suffix) (count : Int) :
    format conversions.toConversions (before ++ ['-', '%', 'd'] ++ after) [count] =
      some (head ++ '-' :: decimal count ++ suffix) := by
  have whole : run conversions.toConversions { arguments := [count] }
      (before ++ ['-', '%', 'd'] ++ after) =
        some { output := head ++ '-' :: decimal count ++ suffix } := by
    rw [run_append, run_append, run_literal headLiteral, Option.bind_some, run_count,
      Option.bind_some, run_literal suffixLiteral]
    rfl
  rw [format, whole]
  rfl

theorem counted_of_literal {before after head suffix : Text}
    (headLiteral : format conversions.toConversions before [] = some head)
    (suffixLiteral : format conversions.toConversions after [] = some suffix)
    (component : Component (before ++ after)) :
    Counted conversions (before ++ ['-', '%', 'd'] ++ after)
      fun count => head ++ '-' :: decimal count ++ suffix := by
  refine ⟨format_counted headLiteral suffixLiteral, fun first second same => ?_, fun count => ?_⟩
  · have middle := List.append_cancel_left (List.append_cancel_right same)
    exact decimal_injective (List.cons.inj middle).2
  · have excluded {symbol : Char} (other : symbol ≠ '%' ∧ symbol ≠ ' ')
        (notDecimal : symbol.isDigit = false ∧ symbol ≠ '-') (absent : symbol ∉ before ++ after) :
        symbol ∉ head ++ '-' :: decimal count ++ suffix := by
      rw [List.mem_append, not_or] at absent
      intro member
      obtain earlier | later := List.mem_append.mp member
      · obtain inHead | inCount := List.mem_append.mp earlier
        · exact mem_of_literal headLiteral other absent.1 inHead
        · obtain dash | digits := List.mem_cons.mp inCount
          · exact notDecimal.2 dash
          · obtain digit | dash := mem_decimal digits
            · exact Bool.false_ne_true (notDecimal.1.symm.trans digit)
            · exact notDecimal.2 dash
      · exact mem_of_literal suffixLiteral other absent.2 later
    exact ⟨excluded (by decide) (by decide) component.1,
      excluded (by decide) (by decide) component.2⟩

theorem format_dot {text rendered : Text}
    (literal : format conversions.toConversions text [] = some rendered) :
    format conversions.toConversions ('.' :: text) [] = some ('.' :: rendered) := by
  have dot : step conversions.toConversions {} '.' = some { output := ['.'] } := rfl
  refine format_nil_iff.mpr ?_
  rw [run, List.foldlM_cons, dot]
  exact run_literal literal ['.'] []

/-- A basename whose parts are literal gives a name of its own for each number. -/
theorem counted_namePattern {name : Text} (component : Component name)
    (stemLiteral : Literal conversions (stem name))
    (extensionLiteral : Literal conversions (extension name)) :
    ∃ names, Counted conversions (namePattern name ['%', 'd']) names := by
  obtain ⟨head, headLiteral⟩ := Option.isSome_iff_exists.mp stemLiteral
  obtain ⟨tail, tailLiteral⟩ := Option.isSome_iff_exists.mp extensionLiteral
  have parts : stem name ++ name.dropWhile (· ≠ '.') = name := List.takeWhile_append_dropWhile
  cases dot : name.dropWhile (· ≠ '.') with
  | nil =>
      have whole : namePattern name ['%', 'd'] = stem name ++ ['-', '%', 'd'] ++ [] := by
        rw [namePattern, dot, List.append_nil]
        rfl
      rw [whole]
      refine ⟨_, counted_of_literal headLiteral (format_plain List.not_mem_nil) ?_⟩
      rw [← dot, parts]
      exact component
  | cons symbol rest =>
      have isDot : symbol = '.' := by
        have stops := List.head?_dropWhile_not (· ≠ '.') name
        rw [dot] at stops
        simpa using stops
      subst isDot
      rw [extension, dot, List.tail_cons] at tailLiteral
      have whole : namePattern name ['%', 'd'] = stem name ++ ['-', '%', 'd'] ++ '.' :: rest := by
        rw [namePattern, dot]
        rfl
      rw [whole]
      refine ⟨_, counted_of_literal headLiteral (format_dot tailLiteral) ?_⟩
      rw [← dot, parts]
      exact component

/-! The search. -/

variable {world : Finset Path} {self : Directory}

/-- Whether a name is taken, for names without a zero byte. -/
def Taken (world : Finset Path) (self : Directory) (name : Text) : Prop :=
  name ∈ self.files ∨ pathJoin self.directory name ∈ world

instance (world : Finset Path) (self : Directory) : DecidablePred (Taken world self) :=
  fun name => inferInstanceAs (Decidable (name ∈ self.files ∨ _))

theorem contains_eq (path : '\x00' ∉ self.directory) {name : Text} (component : Component name) :
    self.contains world name = some (decide (Taken world self name)) := by
  rw [contains]
  split
  · rename_i saved
    have taken : Taken world self name := .inl saved
    rw [decide_eq_true taken]
  · rename_i unsaved
    have zero : '\x00' ∉ pathJoin self.directory name := fun member =>
      (mem_pathJoin member).elim path fun rest => rest.elim component.2 (by decide)
    rw [pathExists, if_neg zero, Option.some_inj, decide_eq_decide]
    exact (or_iff_right unsaved).symm

/-- Finitely many files leave a name free. -/
theorem exists_free {pattern : Text} {names : Int → Text}
    (counted : Counted conversions pattern names) (world : Finset Path) (self : Directory)
    (count : Int) : ∃ turns : Nat, ¬ Taken world self (names (count + turns)) := by
  by_contra allTaken
  have taken : ∀ turns : Nat, Taken world self (names (count + turns)) := fun turns =>
    not_not.mp fun free => allTaken ⟨turns, free⟩
  have injective : Function.Injective fun turns : Nat =>
      pathJoin self.directory (names (count + turns)) := by
    intro first second same
    have names := counted.injective (pathJoin_injective _ (counted.component _).1
      (counted.component _).1 same)
    omega
  refine Set.infinite_range_of_injective injective
    ((self.files.image (pathJoin self.directory) ∪ world).finite_toSet.subset ?_)
  rintro _ ⟨turns, rfl⟩
  rw [Finset.mem_coe, Finset.mem_union, Finset.mem_image]
  exact (taken turns).imp_left fun saved => ⟨_, saved, rfl⟩

/-- The first free name is found, and the turns left over do not matter. -/
theorem tryNames_finds {pattern : Text} {names : Int → Text}
    (counted : Counted conversions pattern names) (path : '\x00' ∉ self.directory) (save : Bool)
    {turns : Nat} {count : Int} (free : ¬ Taken world self (names (count + turns))) :
    ∃ number, ¬ Taken world self (names number) ∧ ∀ more,
      tryNames conversions world self pattern save (turns + 1 + more) count =
        self.give (names number) save := by
  induction turns generalizing count with
  | zero =>
      rw [Int.natCast_zero, Int.add_zero] at free
      refine ⟨count, free, fun more => ?_⟩
      rw [Nat.add_right_comm, tryNames, counted.formats]
      simp only [contains_eq path (counted.component count), free, decide_false]
  | succ turns induction =>
      by_cases here : Taken world self (names count)
      · have later : ¬ Taken world self (names (count + 1 + turns)) := by
          have place : count + 1 + (turns : Int) = count + ((turns + 1 : Nat) : Int) := by omega
          rwa [place]
        obtain ⟨number, isFree, found⟩ := induction later
        refine ⟨number, isFree, fun more => ?_⟩
        rw [Nat.add_right_comm, tryNames, counted.formats]
        simp only [contains_eq path (counted.component count), here, decide_true]
        exact found more
      · refine ⟨count, here, fun more => ?_⟩
        rw [Nat.add_right_comm, tryNames, counted.formats]
        simp only [contains_eq path (counted.component count), here, decide_false]

/-! Calls one after the other, each among the files that exist by then. -/

structure Request where
  name : Path
  count : Option Int := none
  world : Finset Path

/-- With the default format of the number, and the name saved. -/
def answer (conversions : IntConversions) (turns : Nat) (self : Directory) (request : Request) :
    Answer :=
  uniqueFilename conversions request.world turns self request.name request.count ['%', 'd'] true

/-- The name itself is free and asked for, or its parts are literal. -/
def Admissible (conversions : IntConversions) (self : Directory) (request : Request) : Prop :=
  request.count = none ∧ self.contains request.world (basename request.name) = some false ∨
    ('\x00' ∉ self.directory ∧ '\x00' ∉ basename request.name) ∧
      Literal conversions (stem (basename request.name)) ∧
      Literal conversions (extension (basename request.name))

def AllAdmissible (conversions : IntConversions) : Directory → List Request → Prop
  | _, [] => True
  | self, request :: requests =>
      Admissible conversions self request ∧ ∀ turns path after,
        answer conversions turns self request = .path path after →
          AllAdmissible conversions after requests

/-- Each call returns, whatever turns are left over, a path that neither exists nor was given. -/
def AllFresh (conversions : IntConversions) : Directory → List Path → List Request → Prop
  | _, _, [] => True
  | self, given, request :: requests => ∃ turns path after,
      (∀ more, answer conversions (turns + more) self request = .path path after) ∧
        path ∉ request.world ∧ path ∉ given ∧
        AllFresh conversions after (path :: given) requests

theorem not_taken_of_contains {name : Text} (free : self.contains world name = some false) :
    ¬ Taken world self name := by
  rw [contains] at free
  split at free
  · cases free
  · rename_i unsaved
    rw [pathExists] at free
    split at free
    · cases free
    · exact not_or.mpr ⟨unsaved, of_decide_eq_false (Option.some.inj free)⟩

theorem answer_gives {request : Request} (named : basename request.name ≠ [])
    (admissible : Admissible conversions self request) :
    ∃ turns name, '/' ∉ name ∧ ¬ Taken request.world self name ∧
      ∀ more, answer conversions (turns + more) self request = self.give name true := by
  have noSlash := slash_not_basename request.name
  obtain ⟨plain, free⟩ | ⟨⟨path, noZero⟩, stemLiteral, extensionLiteral⟩ := admissible
  · refine ⟨0, basename request.name, noSlash, not_taken_of_contains free, fun more => ?_⟩
    simp only [answer, uniqueFilename, if_neg named, plain, free]
  · obtain ⟨names, counted⟩ :=
      counted_namePattern ⟨noSlash, noZero⟩ stemLiteral extensionLiteral
    have search (count : Int) : ∃ turns name, '/' ∉ name ∧ ¬ Taken request.world self name ∧
        ∀ more, tryNames conversions request.world self
          (namePattern (basename request.name) ['%', 'd']) true (turns + more) count =
            self.give name true := by
      obtain ⟨turns, free⟩ := exists_free counted request.world self count
      obtain ⟨number, isFree, found⟩ := tryNames_finds counted path true free
      exact ⟨turns + 1, names number, (counted.component number).1, isFree, found⟩
    cases asked : request.count with
    | some count =>
        obtain ⟨turns, name, component, free, found⟩ := search count
        refine ⟨turns, name, component, free, fun more => ?_⟩
        simp only [answer, uniqueFilename, if_neg named, asked]
        exact found more
    | none =>
        have known := @contains_eq request.world self path (basename request.name)
          ⟨noSlash, noZero⟩
        by_cases taken : Taken request.world self (basename request.name)
        · obtain ⟨turns, name, component, free, found⟩ := search 2
          refine ⟨turns, name, component, free, fun more => ?_⟩
          rw [decide_eq_true taken] at known
          simp only [answer, uniqueFilename, if_neg named, known, asked]
          exact found more
        · refine ⟨0, basename request.name, noSlash, taken, fun more => ?_⟩
          rw [decide_eq_false taken] at known
          simp only [answer, uniqueFilename, if_neg named, known, asked]

/-- Every path given so far is that of a saved name. -/
def Saved (self : Directory) (given : List Path) : Prop :=
  ∀ path ∈ given, ∃ name ∈ self.files, '/' ∉ name ∧ path = pathJoin self.directory name

theorem Saved.fresh {given : List Path} (saved : Saved self given) {name : Text}
    (component : '/' ∉ name) (free : ¬ Taken world self name) :
    pathJoin self.directory name ∉ given := by
  intro member
  obtain ⟨other, known, otherComponent, same⟩ := saved _ member
  exact free (.inl (pathJoin_injective _ component otherComponent same ▸ known))

theorem Saved.give {given : List Path} (saved : Saved self given) {name : Text}
    (component : '/' ∉ name) :
    Saved { self with files := insert name self.files }
      (pathJoin self.directory name :: given) := by
  intro path member
  obtain rfl | earlier := List.mem_cons.mp member
  · exact ⟨name, Finset.mem_insert_self .., component, rfl⟩
  · obtain ⟨other, known, otherComponent, same⟩ := saved path earlier
    exact ⟨other, Finset.mem_insert_of_mem known, otherComponent, same⟩

theorem allFresh_of_saved {requests : List Request} {given : List Path}
    (saved : Saved self given) (named : ∀ request ∈ requests, basename request.name ≠ [])
    (admissible : AllAdmissible conversions self requests) :
    AllFresh conversions self given requests := by
  induction requests generalizing self given with
  | nil => trivial
  | cons request requests induction =>
      obtain ⟨now, later⟩ := admissible
      obtain ⟨namedNow, namedLater⟩ := List.forall_mem_cons.mp named
      obtain ⟨turns, name, component, free, gives⟩ := answer_gives namedNow now
      refine ⟨turns, _, _, gives, fun exists_ => free (.inr exists_),
        saved.fresh component free, ?_⟩
      exact induction (saved.give component) namedLater (later turns _ _ (gives 0))

/-- Main result: every call of a history returns, and a path that is new to it. -/
theorem uniqueFilename_fresh (conversions : IntConversions) (directory : Path)
    {requests : List Request} (named : ∀ request ∈ requests, basename request.name ≠ [])
    (admissible : AllAdmissible conversions { directory } requests) :
    AllFresh conversions { directory } [] requests :=
  allFresh_of_saved (fun _ member => absurd member List.not_mem_nil) named admissible

/-! Histories in which the names alone decide. -/

theorem directory_tryNames {pattern : Text} {save : Bool} {turns : Nat} {count : Int} {path : Path}
    {after : Directory}
    (found : tryNames conversions world self pattern save turns count = .path path after) :
    after.directory = self.directory := by
  induction turns generalizing count with
  | zero => cases found
  | succ turns induction =>
      rw [tryNames] at found
      split at found
      · cases found
      · split at found
        · cases found
        · cases save <;> cases found <;> rfl
        · exact induction found

theorem directory_answer {turns : Nat} {request : Request} {path : Path} {after : Directory}
    (answered : answer conversions turns self request = .path path after) :
    after.directory = self.directory := by
  simp only [answer, uniqueFilename] at answered
  split at answered
  · cases answered
  · split at answered
    · exact directory_tryNames answered
    · split at answered
      · cases answered
      · cases answered
        rfl
      · exact directory_tryNames answered

theorem allAdmissible_of_literal {requests : List Request} (path : '\x00' ∉ self.directory)
    (literal : ∀ request ∈ requests, '\x00' ∉ basename request.name ∧
      Literal conversions (stem (basename request.name)) ∧
      Literal conversions (extension (basename request.name))) :
    AllAdmissible conversions self requests := by
  induction requests generalizing self with
  | nil => trivial
  | cons request requests induction =>
      obtain ⟨⟨noZero, parts⟩, others⟩ := List.forall_mem_cons.mp literal
      refine ⟨.inr ⟨⟨path, noZero⟩, parts⟩, fun turns given after answered => ?_⟩
      exact induction (directory_answer answered ▸ path) others

/-- Only a bare `%d`. -/
def bareConversions : IntConversions where
  convert directive count :=
    if directive = { conversion := 'd' } then some (decimal count) else none
  number := some
  bare _ := if_pos rfl

/-- Twice the same name, which exists. -/
theorem uniqueFilename_fresh_twice :
    let request : Request := { name := ['a', '.', 'b'], world := {['d', '/', 'a', '.', 'b']} }
    AllFresh bareConversions { directory := ['d'] } [] [request, request] :=
  uniqueFilename_fresh bareConversions ['d'] (by decide)
    (allAdmissible_of_literal (by decide) (by decide))

/-- In `a%-%d` the added directive is taken apart: `%-%` is a percent sign, and no argument
is taken. -/
theorem uniqueFilename_raises :
    answer bareConversions 1 { directory := ['d'] }
      { name := ['a', '%'], world := {['d', '/', 'a', '%']} } = .raised := by
  decide +kernel

end Directory

end Segvault.Fusil
