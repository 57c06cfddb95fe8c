import Segvault.HachoirRegex.ParseSteps

namespace Segvault.HachoirRegex

open Logged Tree Relation

/-! The exceptions of the parser, by their texts. -/

/-- A SyntaxError or a NotImplementedError. -/
inductive Rejection : String → Prop
  | range (text : String) : Rejection ("Invalid range: " ++ text)
  | extension : Rejection "Doesn't support Python extension (?...)"
  | parenthesis : Rejection "Missing closing parenthesis"
  | repetition (text : String) : Rejection ("Unable to parse repetition " ++ text)
  | operand (text : String) :
      Rejection ("Repetition character (" ++ text ++ ") without previous expression")
  | antislash : Rejection "Antislash (\\) without escaped character"
  | operator (text : String) : Rejection ("Operator '" ++ text ++ "' is not supported")
  | escape (text : String) : Rejection ("Operator '\\" ++ text ++ "' is not supported")

/-- An IndexError, a ValueError or a TypeError. -/
inductive Crash : String → Prop
  | index : Crash "string index out of range"
  | interval (cmin cmax : Nat) : Crash ("RegexRangeItem: minimum (" ++ toString cmin ++
      ") is bigger than maximum (" ++ toString cmax ++ ")")
  | unfit {text : String} (here : Unfit text) : Crash text

/-- The first characters of a text tell the exceptions apart. -/
def opening (text : String) : List Char :=
  text.toList.take 3

theorem Rejection.opening {text : String} (rejection : Rejection text) :
    opening text ∈ ["Inv", "Doe", "Mis", "Una", "Rep", "Ant", "Ope"].map String.toList := by
  cases rejection <;> simp [HachoirRegex.opening]

theorem Crash.opening {text : String} (crash : Crash text) :
    opening text ∈ ["str", "Reg", "uns", "'No"].map String.toList := by
  cases crash with
  | unfit here => cases here <;> simp [HachoirRegex.opening]
  | _ => simp [HachoirRegex.opening]

theorem Crash.not_rejection {text : String} (crash : Crash text) : ¬ Rejection text := by
  intro rejection
  have apart : List.Disjoint (["Inv", "Doe", "Mis", "Una", "Rep", "Ant", "Ope"].map String.toList)
      (["str", "Reg", "uns", "'No"].map String.toList) := by
    simp [List.Disjoint]
  exact apart rejection.opening crash.opening

theorem charAt_raises {text : List UInt8} {index : Nat} (past : text[index]? = none) (h : Heap) :
    RaisesWith (fun _ => charAt text index) h "string index out of range" := by
  simp only [charAt, past]
  exact RaisesWith.raise _ h

/-! parseRange -/

/-- Where the loop goes on after its turn at `index`; None where it stops. -/
def rangeNext (text : List UInt8) (index : Nat) : Option Nat :=
  if index < text.length ∧ text[index]? ≠ some ']'.toUInt8 then
    if index + 1 < text.length ∧ text[index]? = some '\\'.toUInt8 then some (index + 2)
    else if index + 1 < text.length ∧ text[index]? = some '-'.toUInt8 ∧
        text[index + 1]? = some ']'.toUInt8 then
      none
    else if index + 3 < text.length ∧ text[index + 1]? = some '-'.toUInt8 ∧
        text[index + 2]? ≠ some ']'.toUInt8 then
      some (index + 3)
    else some (index + 1)
  else none

/-- An interval `y-x` whose end is below its start. -/
def Reversed (text : List UInt8) (index : Nat) : Prop :=
  rangeNext text index = some (index + 3) ∧
    ∃ cmin ∈ text[index]?, ∃ cmax ∈ text[index + 2]?, cmax.toNat < cmin.toNat

/-- The loop comes from its turn at `index` to an interval that is reversed. -/
def MeetsReversed (text : List UInt8) (index : Nat) : Prop :=
  ∃ place, ReflTransGen (fun before after => rangeNext text before = some after) index place ∧
    Reversed text place

theorem meetsReversed_next {text : List UInt8} {index next : Nat}
    (turn : rangeNext text index = some next) (ordered : ¬ Reversed text index) :
    MeetsReversed text index ↔ MeetsReversed text next := by
  constructor
  · rintro ⟨place, path, reversed⟩
    obtain rfl | ⟨other, first, rest⟩ := path.cases_head
    · exact absurd reversed ordered
    · rw [turn] at first
      cases first
      exact ⟨place, rest, reversed⟩
  · rintro ⟨place, path, reversed⟩
    exact ⟨place, path.head turn, reversed⟩

theorem rangeCharacter_gives (char : UInt8) (h : Heap) :
    ∃ item h', Gives (fun _ => rangeCharacter char) h item h' ∧ h'.objects = h.objects :=
  ⟨_, _, Gives.step (Returns.pure _), rfl⟩

theorem rangeItem_settles (cmin cmax : UInt8) (h : Heap) :
    Settles (fun _ => rangeItem cmin cmax) h
      (fun _ h' => h'.objects = h.objects ∧ cmin.toNat ≤ cmax.toNat)
      fun exception => Crash exception ∧ cmax.toNat < cmin.toNat := by
  by_cases ordered : cmin.toNat ≤ cmax.toNat
  · have made : newItem h.items cmin.toNat cmax.toNat =
        some (⟨h.items, cmin.toNat, cmax.toNat, ordered⟩, h.items + 1) := dif_pos ordered
    have gives : Gives (fun _ => rangeItem cmin cmax) h
        ⟨h.items, cmin.toNat, cmax.toNat, ordered⟩ { h with items := h.items + 1 } := by
      refine Gives.tryStep ⟨0, fun _ _ => ?_⟩
      rw [made]
    exact Settles.gives gives ⟨rfl, ordered⟩
  · have failed : newItem h.items cmin.toNat cmax.toNat = none := dif_neg ordered
    refine Settles.raises (RaisesWith.tryStep ⟨0, fun _ _ => ?_⟩)
      ⟨Crash.interval cmin.toNat cmax.toNat, Nat.not_le.mp ordered⟩
    rw [failed]

theorem getElem?_of_lt {text : List UInt8} {index : Nat} (inside : index < text.length) :
    ∃ char, text[index]? = some char :=
  ⟨text[index], List.getElem?_eq_getElem inside⟩

/-- A turn of the loop that makes an item, and the turns after it. -/
theorem rangeTurn_settles {text : List UInt8} {index after : Nat} {h : Heap}
    {making : Parsing RegexRangeItem}
    {next : Nat → RegexRangeItem → Parsing (List RegexRangeItem × Nat)}
    (turn : rangeNext text index = some after) (forward : index < after)
    (made : Settles (fun _ => making) h
      (fun _ h' => h'.objects = h.objects ∧ ¬ Reversed text index)
      fun exception => Crash exception ∧ Reversed text index)
    (later : ∀ item h', Settles (fun fuel => next fuel item) h'
      (fun found h'' => after ≤ found.2 ∧ h''.objects = h'.objects ∧ ¬ MeetsReversed text after)
      fun exception => Crash exception ∧ MeetsReversed text after) :
    Settles (fun fuel => making >>= fun item =>
        Logged.enter ⟨.parseRange, index, after⟩ >>= fun _ => next fuel item) h
      (fun found h' => index ≤ found.2 ∧ h'.objects = h.objects ∧ ¬ MeetsReversed text index)
      fun exception => Crash exception ∧ MeetsReversed text index := by
  refine Settles.bind (made.imp (fun _ _ here => here)
    fun exception here => ⟨here.1, index, .refl, here.2⟩) fun item h1 here => ?_
  obtain ⟨same, ordered⟩ := here
  have iff := meetsReversed_next turn ordered
  refine Settles.after (Gives.enter _ _) ((later item h1).imp (fun found h' here => ?_)
    fun exception here => ⟨here.1, iff.mpr here.2⟩)
  exact ⟨Nat.le_trans (Nat.le_of_lt forward) here.1, here.2.1.trans same,
    fun wrong => here.2.2 (iff.mp wrong)⟩

theorem not_reversed_of_next {text : List UInt8} {index after : Nat}
    (turn : rangeNext text index = some after) (other : after ≠ index + 3) :
    ¬ Reversed text index := by
  rintro ⟨three, _⟩
  rw [turn] at three
  exact other (Option.some.inj three)

theorem not_meetsReversed {text : List UInt8} {index : Nat} (stops : rangeNext text index = none) :
    ¬ MeetsReversed text index := by
  rintro ⟨place, path, reversed⟩
  obtain rfl | ⟨other, first, _⟩ := path.cases_head
  · rw [reversed.1] at stops
    cases stops
  · rw [first] at stops
    cases stops

/-- A single character is no interval. -/
theorem character_settles {text : List UInt8} {index after : Nat}
    (turn : rangeNext text index = some after) (other : after ≠ index + 3) (char : UInt8)
    (h : Heap) :
    Settles (fun _ => rangeCharacter char) h
      (fun _ h' => h'.objects = h.objects ∧ ¬ Reversed text index)
      fun exception => Crash exception ∧ Reversed text index := by
  obtain ⟨item, h', gives, same⟩ := rangeCharacter_gives char h
  exact Settles.gives gives ⟨same, not_reversed_of_next turn other⟩

theorem interval_settles {text : List UInt8} {index : Nat} {cmin cmax : UInt8}
    (turn : rangeNext text index = some (index + 3)) (first : text[index]? = some cmin)
    (last : text[index + 2]? = some cmax) (h : Heap) :
    Settles (fun _ => rangeItem cmin cmax) h
      (fun _ h' => h'.objects = h.objects ∧ ¬ Reversed text index)
      fun exception => Crash exception ∧ Reversed text index := by
  refine (rangeItem_settles cmin cmax h).imp (fun _ _ here => ⟨here.1, ?_⟩)
    fun exception here => ⟨here.1, turn, cmin, first, cmax, last, here.2⟩
  rintro ⟨_, other, firstOther, otherLast, lastOther, below⟩
  rw [first] at firstOther
  rw [last] at lastOther
  cases firstOther
  cases lastOther
  omega

theorem rangeLoop_settles {text : List UInt8} (turns : Nat) {index : Nat}
    (near : text.length ≤ index + turns) (charRange : List RegexRangeItem) (h : Heap) :
    Settles (fun fuel => rangeLoop fuel text index charRange) h
      (fun found h' => index ≤ found.2 ∧ h'.objects = h.objects ∧ ¬ MeetsReversed text index)
      fun exception => Crash exception ∧ MeetsReversed text index := by
  induction turns generalizing index charRange h with
  | zero =>
      have past : ¬ (index < text.length ∧ text[index]? ≠ some ']'.toUInt8) :=
        fun inside => by omega
      exact Settles.call (fun fuel => if_neg past) (Settles.gives (Gives.pure _ _)
        ⟨Nat.le_refl _, rfl, not_meetsReversed (if_neg past)⟩)
  | succ turns induction =>
      have later : ∀ {after : Nat}, index < after → ∀ item h',
          Settles (fun fuel => rangeLoop fuel text after (charRange ++ [item])) h'
            (fun found h'' => after ≤ found.2 ∧ h''.objects = h'.objects ∧
              ¬ MeetsReversed text after)
            fun exception => Crash exception ∧ MeetsReversed text after :=
        fun forward item h' => induction (by omega) (charRange ++ [item]) h'
      have stop : rangeNext text index = none →
          Settles (fun _ => (pure (charRange, index) : Parsing (List RegexRangeItem × Nat))) h
            (fun found h' => index ≤ found.2 ∧ h'.objects = h.objects ∧ ¬ MeetsReversed text index)
            fun exception => Crash exception ∧ MeetsReversed text index :=
        fun stops => Settles.gives (Gives.pure _ _) ⟨Nat.le_refl _, rfl, not_meetsReversed stops⟩
      by_cases inside : index < text.length ∧ text[index]? ≠ some ']'.toUInt8
      swap
      · exact Settles.call (fun fuel => if_neg inside) (stop (if_neg inside))
      obtain ⟨char, here⟩ := getElem?_of_lt inside.1
      by_cases escape : index + 1 < text.length ∧ text[index]? = some '\\'.toUInt8
      · have turn : rangeNext text index = some (index + 2) :=
          (if_pos inside).trans (if_pos escape)
        obtain ⟨next, there⟩ := getElem?_of_lt escape.1
        refine Settles.call (fun fuel => (if_pos inside).trans (if_pos escape))
          (Settles.after (charAt_gives there h) ?_)
        exact rangeTurn_settles turn (by omega) (character_settles turn (by omega) next h)
          (later (by omega))
      by_cases dash : index + 1 < text.length ∧ text[index]? = some '-'.toUInt8 ∧
          text[index + 1]? = some ']'.toUInt8
      · exact Settles.call (fun fuel => (if_pos inside).trans ((if_neg escape).trans (if_pos dash)))
          (stop ((if_pos inside).trans ((if_neg escape).trans (if_pos dash))))
      by_cases interval : index + 3 < text.length ∧ text[index + 1]? = some '-'.toUInt8 ∧
          text[index + 2]? ≠ some ']'.toUInt8
      · have turn : rangeNext text index = some (index + 3) :=
          (if_pos inside).trans ((if_neg escape).trans ((if_neg dash).trans (if_pos interval)))
        obtain ⟨last, there⟩ := @getElem?_of_lt text (index + 2) (by omega)
        refine Settles.call (fun fuel => (if_pos inside).trans ((if_neg escape).trans
          ((if_neg dash).trans (if_pos interval))))
          (Settles.after (charAt_gives here h) (Settles.after (charAt_gives there h) ?_))
        exact rangeTurn_settles turn (by omega) (interval_settles turn here there h)
          (later (by omega))
      · have turn : rangeNext text index = some (index + 1) :=
          (if_pos inside).trans ((if_neg escape).trans ((if_neg dash).trans (if_neg interval)))
        refine Settles.call (fun fuel => (if_pos inside).trans ((if_neg escape).trans
          ((if_neg dash).trans (if_neg interval)))) (Settles.after (charAt_gives here h) ?_)
        exact rangeTurn_settles turn (by omega) (character_settles turn (by omega) char h)
          (later (by omega))

/-- Where the loop begins; None where the text ends before. -/
def rangeStart (text : List UInt8) (start : Nat) : Option Nat := do
  let first ← text[start]?
  let index := if first = '^'.toUInt8 then start + 1 else start
  let char ← text[index]?
  some (if char = ']'.toUInt8 then index + 1 else index)

/-- The bracket is the end of the text, or its range has a reversed interval. -/
def RangeFault (text : List UInt8) (start : Nat) : Prop :=
  rangeStart text start = none ∨ ∃ index ∈ rangeStart text start, MeetsReversed text index

theorem leadingBracket_gives {text : List UInt8} {index : Nat} {char : UInt8}
    (here : text[index]? = some char) (h : Heap) :
    ∃ items h', Gives (fun _ => leadingBracket text index) h
      (items, if char = ']'.toUInt8 then index + 1 else index) h' ∧ h'.objects = h.objects := by
  by_cases bracket : char = ']'.toUInt8
  · obtain ⟨item, h', gives, same⟩ := rangeCharacter_gives ']'.toUInt8 h
    refine ⟨[item], h', Gives.bind (charAt_gives here h) ?_, same⟩
    simp only [if_pos bracket]
    exact Gives.bind gives (Gives.pure _ _)
  · refine ⟨[], h, Gives.bind (charAt_gives here h) ?_, rfl⟩
    simp only [if_neg bracket]
    exact Gives.pure _ _

theorem trailingDash_gives (text : List UInt8) (index : Nat) (charRange : List RegexRangeItem)
    (h : Heap) :
    ∃ items next h', Gives (fun _ => trailingDash text index charRange) h (items, next) h' ∧
      index ≤ next ∧ h'.objects = h.objects := by
  by_cases dash : text[index]? = some '-'.toUInt8
  · obtain ⟨item, h', gives, same⟩ := rangeCharacter_gives '-'.toUInt8 h
    refine ⟨charRange ++ [item], index + 1, h', ?_, Nat.le_add_right _ _, same⟩
    simp only [trailingDash, if_pos dash]
    exact Gives.bind gives (Gives.pure _ _)
  · refine ⟨charRange, index, h, ?_, Nat.le_refl _, rfl⟩
    simp only [trailingDash, if_neg dash]
    exact Gives.pure _ _

theorem Grown.sameObjects {h h' h'' : Heap} {parts wholes : List Tree}
    (same : h'.objects = h.objects) (grown : Grown h' parts wholes h'') :
    Grown h parts wholes h'' := by
  have size : h'.size = h.size := congrArg List.length same
  refine ⟨⟨size ▸ grown.grown.grows, fun r bound unchanged => ?_⟩, grown.rep, grown.tidy, ?_⟩
  · rw [grown.grown.same r (size ▸ bound) unchanged, same]
  · rw [← size]
    exact grown.count

theorem Heap.RegularFrom.sameObjects {h h' : Heap} {base : Ref} (same : h'.objects = h.objects)
    (regular : h.RegularFrom base) : h'.RegularFrom base := by
  intro r node above here
  rw [Heap.node?, same] at here
  exact regular r node above here

/-- `RegexRange(char_range, exclude)` -/
theorem regexRange_gives (charRange : List RegexRangeItem) (exclude : Bool) (h : Heap) :
    ∃ (whole : Tree) (h' : Heap),
      Gives (fun _ => (Logged.step (regexRange charRange exclude) : Parsing Ref)) h whole.ref h' ∧
      Grown h [] [whole] h' ∧ ∀ base, h.RegularFrom base → h'.RegularFrom base := by
  obtain ⟨h', sorted, made, grown, size, here, _⟩ := regexRange_returns charRange exclude h
  refine ⟨.atom h.size (.regexRange .list sorted exclude), h', Gives.step ⟨0, fun _ _ => made⟩,
    ⟨grown, fun _ member => List.mem_singleton.mp member ▸ here,
      fun _ member => List.mem_singleton.mp member ▸ everywhere_atom trivial, fun r => ?_⟩,
    fun base regular r node above found => ?_⟩
  · rw [size]
    have one := count_next h.size r
    simp only [refsAll_cons, refsAll_nil, List.append_nil, List.count_nil, Nat.zero_add]
    exact one
  · by_cases old : r < h.size
    · rw [Heap.node?, grown.same r old id] at found
      exact regular r node above found
    · have bound := Heap.node?_lt found
      obtain rfl : r = h.size := by
        have bound : r < h.size + 1 := size ▸ bound
        exact Nat.le_antisymm (Nat.le_of_lt_succ bound) (Nat.not_lt.mp old)
      rw [here] at found
      cases found
      trivial

/-- The range from its loop on. -/
theorem rangeBody_settles {text : List UInt8} {start index : Nat}
    (begins : rangeStart text start = some index) (after : start ≤ index)
    (charRange : List RegexRangeItem) (exclude : Bool) (h : Heap) :
    Settles (fun fuel => rangeLoop fuel text index charRange >>= fun (charRange, index) =>
        trailingDash text index charRange >>= fun (charRange, index) =>
          if text[index]? ≠ some ']'.toUInt8 then
            Logged.raise ("Invalid range: " ++
              printed ((text.drop (start - 1)).take (index - (start - 1))))
          else Logged.step (regexRange charRange exclude) >>= fun regex =>
            pure (regex, index + 1)) h
      (fun found h' => ¬ RangeFault text start ∧ start < found.2 ∧ found.2 ≤ text.length ∧
        ∃ whole : Tree, found.1 = whole.ref ∧ Grown h [] [whole] h' ∧
          ∀ base, h.RegularFrom base → h'.RegularFrom base)
      fun exception => (Crash exception ∧ RangeFault text start) ∨
        (Rejection exception ∧ ¬ RangeFault text start) := by
  have fault : RangeFault text start ↔ MeetsReversed text index := by
    simp [RangeFault, begins]
  refine Settles.bind ((rangeLoop_settles text.length (Nat.le_add_left _ _) charRange h).imp
    (fun _ _ here => here) fun exception here => .inl ⟨here.1, fault.mpr here.2⟩) ?_
  rintro ⟨charRange, next⟩ h1 ⟨later, same, ordered⟩
  obtain ⟨charRange, last, h2, gives, later', same'⟩ := trailingDash_gives text next charRange h1
  refine Settles.after gives ?_
  have same := same'.trans same
  have later : index ≤ last := Nat.le_trans later later'
  by_cases closes : text[last]? = some ']'.toUInt8
  · obtain ⟨bound, _⟩ := List.getElem?_eq_some_iff.mp closes
    obtain ⟨whole, h3, makes, grown, regular⟩ := regexRange_gives charRange exclude h2
    simp only [closes, ne_eq, not_true_eq_false, if_false]
    refine Settles.after makes (Settles.gives (Gives.pure _ _)
      ⟨fun wrong => ordered (fault.mp wrong),
      Nat.lt_succ_of_le (Nat.le_trans after later), bound, whole, rfl, grown.sameObjects same, ?_⟩)
    exact fun base before => regular base (before.sameObjects same)
  · simp only [closes, ne_eq, not_false_eq_true, if_true]
    exact Settles.raises (RaisesWith.raise _ _)
      (.inr ⟨.range _, fun wrong => ordered (fault.mp wrong)⟩)

theorem parseRange_settles (text : List UInt8) (start : Nat) (h : Heap) :
    Settles (fun fuel => parseRange fuel text start) h
      (fun found h' => ¬ RangeFault text start ∧ start < found.2 ∧ found.2 ≤ text.length ∧
        ∃ whole : Tree, found.1 = whole.ref ∧ Grown h [] [whole] h' ∧
          ∀ base, h.RegularFrom base → h'.RegularFrom base)
      fun exception => (Crash exception ∧ RangeFault text start) ∨
        (Rejection exception ∧ ¬ RangeFault text start) := by
  cases atStart : text[start]? with
  | none =>
      have past : rangeStart text start = none := by rw [rangeStart, atStart]; rfl
      exact Settles.raises (RaisesWith.bind (charAt_raises atStart h)) (.inl ⟨.index, .inl past⟩)
  | some first =>
  refine Settles.after (charAt_gives atStart h) ?_
  have exclude : (if decide (first = '^'.toUInt8) = true then start + 1 else start) =
      if first = '^'.toUInt8 then start + 1 else start := by simp
  dsimp only
  rw [exclude]
  generalize opened : (if first = '^'.toUInt8 then start + 1 else start) = index
  have after : start ≤ index := by
    rw [← opened]
    split <;> omega
  have begins : rangeStart text start = text[index]? >>= fun char =>
      some (if char = ']'.toUInt8 then index + 1 else index) := by
    rw [rangeStart, atStart, ← opened]
    rfl
  cases here : text[index]? with
  | none =>
      rw [here] at begins
      exact Settles.raises (RaisesWith.bind (RaisesWith.bind (charAt_raises here h)))
        (.inl ⟨.index, .inl begins⟩)
  | some char =>
      rw [here] at begins
      obtain ⟨items, h1, gives, same⟩ := leadingBracket_gives here h
      refine Settles.after gives ?_
      have later : start ≤ if char = ']'.toUInt8 then index + 1 else index := by
        split <;> omega
      refine (rangeBody_settles begins later items _ h1).imp (fun found h' here => ?_)
        fun _ here => here
      obtain ⟨clean, above, below, whole, same', grown, regular⟩ := here
      exact ⟨clean, above, below, whole, same', grown.sameObjects same,
        fun base before => regular base (before.sameObjects same)⟩

/-! parseRepeat and the branch of an antislash -/

/-- The bounds of a repetition and the index after it. -/
def repetition (text : List UInt8) (start : Nat) : Option (Nat × Option Nat × Nat) :=
  let digits := (text.drop start).takeWhile isDigit
  let index := start + digits.length
  let more := (text.drop (index + 1)).takeWhile isDigit
  let past := index + 1 + more.length
  if digits ≠ [] ∧ text[index]? = some '}'.toUInt8 then
    some (int digits, some (int digits), index + 1)
  else if digits ≠ [] ∧ text[index]? = some ','.toUInt8 ∧ text[past]? = some '}'.toUInt8 then
    some (int digits, if more = [] then none else some (int more), past + 1)
  else none

theorem parseRepeat_eq (text : List UInt8) (start : Nat) :
    parseRepeat text start =
      match repetition text start with
      | some found => pure found
      | none => Logged.raise ("Unable to parse repetition " ++ printed (text.drop start)) := by
  unfold parseRepeat repetition
  dsimp only
  split_ifs <;> rfl

theorem repetition_bounds {text : List UInt8} {start : Nat} {rmin next : Nat} {rmax : Option Nat}
    (found : repetition text start = some (rmin, rmax, next)) :
    start < next ∧ next ≤ text.length := by
  unfold repetition at found
  dsimp only at found
  split_ifs at found with exact range
  · cases found
    obtain ⟨bound, _⟩ := List.getElem?_eq_some_iff.mp exact.2
    omega
  all_goals
    cases found
    obtain ⟨bound, _⟩ := List.getElem?_eq_some_iff.mp range.2.2
    omega

theorem escaped_settles {text : List UInt8} {index : Nat} (inside : index < text.length)
    (h : Heap) :
    Settles (fun _ => escaped text index) h
      (fun found h' => index < found.2 ∧ found.2 ≤ text.length ∧
        ∃ whole : Tree, found.1 = whole.ref ∧ Grown h [] [whole] h' ∧
          ∀ base, h.RegularFrom base → h'.RegularFrom base) Rejection := by
  by_cases atEnd : index + 1 = text.length
  · have branch : escaped text index = Logged.raise "Antislash (\\) without escaped character" :=
      if_pos atEnd
    rw [branch]
    exact Settles.raises (RaisesWith.raise _ h) .antislash
  obtain ⟨char, here⟩ := @getElem?_of_lt text (index + 1) (by omega)
  have made : ∀ leaf : Atom, Regular (.atom leaf) → Settles
      (fun _ => newAtom leaf >>= fun newRegex => pure (newRegex, index + 2)) h
      (fun found h' => index < found.2 ∧ found.2 ≤ text.length ∧
        ∃ whole : Tree, found.1 = whole.ref ∧ Grown h [] [whole] h' ∧
          ∀ base, h.RegularFrom base → h'.RegularFrom base) Rejection :=
    fun leaf regular => Settles.gives (Gives.bind (newAtom_gives leaf h) (Gives.pure _ _))
      ⟨by omega, by omega, _, rfl, Grown.atom leaf, fun base before => before.new regular⟩
  have branch : escaped text index = _ := if_neg atEnd
  rw [branch]
  refine Settles.after (charAt_gives here h) ?_
  by_cases word : char = 'b'.toUInt8
  · simp only [if_pos word]
    exact made .regexWord trivial
  by_cases plain : char ∈ regexCommandCharacters ∨ char = ' '.toUInt8 ∨ char = '\''.toUInt8
  · simp only [if_neg word, if_pos plain]
    exact made (.regexString [char] _) trivial
  · simp only [if_neg word, if_neg plain]
    exact Settles.raises (RaisesWith.raise _ h) (.escape _)

end Segvault.HachoirRegex
