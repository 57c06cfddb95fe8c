import Segvault.HachoirRegex.Rendering
import Segvault.HachoirRegex.Ranges

namespace Segvault.HachoirRegex

open Logged

/-! The string form of a RegexRange, and what the parser reads of it. -/

namespace RegexRangeItem

variable (item : RegexRangeItem)

def first : UInt8 := UInt8.ofNat item.cmin

def last : UInt8 := UInt8.ofNat item.cmax

/-- The characters of the string form. -/
def bytes : List UInt8 :=
  if item.cmin ≠ item.cmax then
    if item.cmin + 1 = item.cmax then [item.first, item.last]
    else [item.first, '-'.toUInt8, item.last]
  else [item.first]

theorem str_eq (small : item.cmax < 256) : item.str = some item.bytes := by
  have ordered := item.ordered
  have cmin : chr item.cmin = some item.first := if_pos (by omega)
  have cmax : chr item.cmax = some item.last := if_pos small
  rw [str, bytes, cmin, cmax]
  split
  · split <;> rfl
  · rfl

end RegexRangeItem

def without (text : List UInt8) (ranges : List RegexRangeItem) : List RegexRangeItem :=
  ranges.eraseP fun item => item.bytes == text

def lists (text : List UInt8) (ranges : List RegexRangeItem) : Bool :=
  ranges.any fun item => item.bytes == text

/-- The items that stand between the bracket and the hyphen. -/
def middle (ranges : List RegexRangeItem) : List RegexRangeItem :=
  without (characters "]") (without (characters "-") ranges)

def bracketText (ranges : List RegexRangeItem) : List UInt8 :=
  if lists (characters "]") (without (characters "-") ranges) then characters "]" else []

def hyphenText (ranges : List RegexRangeItem) : List UInt8 :=
  if lists (characters "-") ranges then characters "-" else []

theorem erase_bytes (text : List UInt8) (ranges : List RegexRangeItem) :
    (ranges.map RegexRangeItem.bytes).erase text =
      (without text ranges).map RegexRangeItem.bytes := by
  rw [without, List.erase_eq_eraseP', List.eraseP_map]
  rfl

theorem mem_bytes_iff (text : List UInt8) (ranges : List RegexRangeItem) :
    text ∈ ranges.map RegexRangeItem.bytes ↔ lists text ranges = true := by
  simp [lists, List.mem_map]

theorem without_of_not {text : List UInt8} {ranges : List RegexRangeItem}
    (absent : lists text ranges = false) : without text ranges = ranges := by
  refine List.eraseP_of_forall_not fun item member => ?_
  exact List.any_eq_false.mp absent item member

theorem rangeStr_eq {ranges : List RegexRangeItem} (small : ∀ item ∈ ranges, item.cmax < 256)
    (exclude : Bool) :
    rangeStr ranges exclude = some (characters (if exclude then "[^" else "[") ++
      (bracketText ranges ++ (((middle ranges).map RegexRangeItem.bytes).flatten ++
        (hyphenText ranges ++ characters "]")))) := by
  have content : ranges.mapM RegexRangeItem.str = some (ranges.map RegexRangeItem.bytes) := by
    induction ranges with
    | nil => rfl
    | cons item ranges induction =>
        rw [List.mapM_cons, item.str_eq (small item List.mem_cons_self),
          induction fun other member => small other (List.mem_cons_of_mem _ member)]
        rfl
  have hyphen : (if characters "-" ∈ ranges.map RegexRangeItem.bytes then
        ((ranges.map RegexRangeItem.bytes).erase (characters "-"), characters "-")
      else (ranges.map RegexRangeItem.bytes, [])) =
      ((without (characters "-") ranges).map RegexRangeItem.bytes, hyphenText ranges) := by
    simp only [mem_bytes_iff, hyphenText]
    split
    · rw [erase_bytes]
    · rename_i absent
      rw [without_of_not (Bool.eq_false_iff.mpr absent)]
  have bracket : (if characters "]" ∈ (without (characters "-") ranges).map RegexRangeItem.bytes
        then (((without (characters "-") ranges).map RegexRangeItem.bytes).erase
          (characters "]"), characters "]")
      else ((without (characters "-") ranges).map RegexRangeItem.bytes, [])) =
      ((middle ranges).map RegexRangeItem.bytes, bracketText ranges) := by
    simp only [mem_bytes_iff, bracketText]
    split
    · rw [erase_bytes]
      rfl
    · rename_i absent
      rw [middle, without_of_not (Bool.eq_false_iff.mpr absent)]
  rw [rangeStr, content]
  simp only [Option.bind_eq_bind, Option.bind_some, hyphen, bracket]
  cases exclude <;> simp

theorem admits_single {item : RegexRangeItem} {code : UInt8} (cmin : item.cmin = code.toNat)
    (cmax : item.cmax = code.toNat) (char : UInt8) : item.admits char ↔ char = code := by
  rw [RegexRangeItem.admits, cmin, cmax]
  constructor
  · rintro ⟨low, high⟩
    exact UInt8.toNat_inj.mp (Nat.le_antisymm high low)
  · rintro rfl
    exact ⟨Nat.le_refl _, Nat.le_refl _⟩

/-- The items are those in the middle, the bracket and the hyphen. -/
theorem admits_without {text : List UInt8} {ranges : List RegexRangeItem} (char : UInt8)
    (is : ∀ item ∈ ranges, item.bytes = text → (item.admits char ↔ text = [char])) :
    rangesAdmit ranges char ↔ rangesAdmit (without text ranges) char ∨
      (lists text ranges = true ∧ text = [char]) := by
  induction ranges with
  | nil => simp [lists, without]
  | cons item ranges induction =>
      have later := induction fun other member => is other (List.mem_cons_of_mem _ member)
      rw [rangesAdmit_cons]
      by_cases here : item.bytes = text
      · have found : without text (item :: ranges) = ranges := by
          exact List.eraseP_cons_of_pos (by simpa using here)
        have listed : lists text (item :: ranges) = true := by simp [lists, here]
        rw [found, listed, is item List.mem_cons_self here]
        simp [or_comm]
      · have found : without text (item :: ranges) = item :: without text ranges := by
          exact List.eraseP_cons_of_neg (by simpa using here)
        have listed : lists text (item :: ranges) = lists text ranges := by simp [lists, here]
        rw [found, listed, rangesAdmit_cons, later, or_assoc]

theorem single_admits {item : RegexRangeItem} {code : UInt8} (small : item.cmax < 256)
    (same : item.bytes = [code]) (char : UInt8) : item.admits char ↔ [code] = [char] := by
  have ordered := item.ordered
  rw [RegexRangeItem.bytes] at same
  split at same
  · split at same <;> simp at same
  · rename_i equal
    have value : item.cmin = code.toNat := by
      have first := (List.cons.inj same).1
      have fits : item.cmin < 256 := by omega
      rw [← first, RegexRangeItem.first, UInt8.toNat_ofNat_of_lt' fits]
    rw [admits_single value ((not_not.mp equal).symm.trans value)]
    simp [eq_comm]

theorem mem_without {text : List UInt8} {ranges : List RegexRangeItem} {item : RegexRangeItem}
    (member : item ∈ without text ranges) : item ∈ ranges :=
  List.mem_of_mem_eraseP member

theorem admits_middle {ranges : List RegexRangeItem}
    (small : ∀ item ∈ ranges, item.cmax < 256) (char : UInt8) :
    rangesAdmit ranges char ↔ rangesAdmit (middle ranges) char ∨
      char ∈ bracketText ranges ∨ char ∈ hyphenText ranges := by
  have hyphen := @admits_without (characters "-") ranges char fun item member same =>
    single_admits (small item member) same char
  have bracket := @admits_without (characters "]") (without (characters "-") ranges) char
    fun item member same => single_admits (small item (mem_without member)) same char
  rw [hyphen, bracket, middle, bracketText, hyphenText, or_assoc]
  have single : ∀ (listed : Bool) (code : UInt8), (listed = true ∧ [code] = [char]) ↔
      char ∈ (if listed then [code] else []) := by
    intro listed code
    cases listed <;> simp [eq_comm]
  exact or_congr Iff.rfl (or_congr (single _ _) (single _ _))

/-! What the loop of parseRange reads. -/

/-- A character stands for itself: it is no bracket and no antislash, it is no last hyphen, and
the hyphen of an interval does not follow. -/
def ReadsAlone (char : UInt8) (rest : List UInt8) : Prop :=
  char ≠ ']'.toUInt8 ∧ char ≠ '\\'.toUInt8 ∧
    ¬ (char = '-'.toUInt8 ∧ rest[0]? = some ']'.toUInt8) ∧
    ¬ (3 ≤ rest.length ∧ rest[0]? = some '-'.toUInt8 ∧ rest[1]? ≠ some ']'.toUInt8)

instance (char : UInt8) (rest : List UInt8) : Decidable (ReadsAlone char rest) :=
  inferInstanceAs (Decidable (_ ∧ _))

/-- Every item is read as it is written, with the text that comes after the items. -/
def ReadsEach : List RegexRangeItem → List UInt8 → Prop
  | [], _ => True
  | item :: items, ending =>
      let rest := (items.map RegexRangeItem.bytes).flatten ++ ending
      (if item.cmin = item.cmax then ReadsAlone item.first rest
      else if item.cmin + 1 = item.cmax then
        ReadsAlone item.first (item.last :: rest) ∧ ReadsAlone item.last rest
      else item.first ≠ ']'.toUInt8 ∧ item.first ≠ '\\'.toUInt8 ∧ item.last ≠ ']'.toUInt8) ∧
      ReadsEach items ending

section

variable {text rest : List UInt8} {index : Nat} {char : UInt8}

theorem length_of_drop (left : text.drop index = char :: rest) :
    text.length = index + 1 + rest.length := by
  have length := congrArg List.length left
  rw [List.length_drop, List.length_cons] at length
  omega

theorem getElem?_after (left : text.drop index = char :: rest) (more : Nat) :
    text[index + (1 + more)]? = rest[more]? := by
  have moved := congrArg (fun list : List UInt8 => list[1 + more]?) left
  simp only [List.getElem?_drop] at moved
  rw [moved, Nat.add_comm 1 more, List.getElem?_cons_succ]

theorem rangeLoop_alone (left : text.drop index = char :: rest) (alone : ReadsAlone char rest)
    (fuel : Nat) (charRange : List RegexRangeItem) :
    rangeLoop (fuel + 1) text index charRange =
      charAt text index >>= fun char => rangeCharacter char >>= fun item =>
        Logged.enter ⟨.parseRange, index, index + 1⟩ >>= fun _ =>
          rangeLoop fuel text (index + 1) (charRange ++ [item]) := by
  obtain ⟨noBracket, noAntislash, notLast, noInterval⟩ := alone
  have here := getElem?_of_drop left
  have length := length_of_drop left
  have next : text[index + 1]? = rest[0]? := getElem?_after left 0
  have afterNext : text[index + 2]? = rest[1]? := getElem?_after left 1
  rewrite [rangeLoop, here, next, afterNext,
    if_pos ⟨by omega, fun same => noBracket (Option.some.inj same)⟩,
    if_neg (fun both => noAntislash (Option.some.inj both.2)),
    if_neg (fun both => notLast ⟨Option.some.inj both.2.1, both.2.2⟩),
    if_neg (fun both => noInterval ⟨by omega, both.2⟩)]
  rfl

theorem rangeLoop_interval {cmax : UInt8}
    (left : text.drop index = char :: '-'.toUInt8 :: cmax :: rest) (more : rest ≠ [])
    (noBracket : char ≠ ']'.toUInt8) (noAntislash : char ≠ '\\'.toUInt8)
    (noEnd : cmax ≠ ']'.toUInt8) (fuel : Nat) (charRange : List RegexRangeItem) :
    rangeLoop (fuel + 1) text index charRange =
      charAt text index >>= fun cmin => charAt text (index + 2) >>= fun cmax =>
        rangeItem cmin cmax >>= fun item =>
          Logged.enter ⟨.parseRange, index, index + 3⟩ >>= fun _ =>
            rangeLoop fuel text (index + 3) (charRange ++ [item]) := by
  have here := getElem?_of_drop left
  have length := length_of_drop left
  have positive := List.length_pos_iff.mpr more
  simp only [List.length_cons] at length
  have next : text[index + 1]? = some '-'.toUInt8 := getElem?_after left 0
  have afterNext : text[index + 2]? = some cmax := getElem?_after left 1
  have notLast : '-'.toUInt8 ≠ ']'.toUInt8 := by decide
  rewrite [rangeLoop, here, next, afterNext,
    if_pos ⟨by omega, fun same => noBracket (Option.some.inj same)⟩,
    if_neg (fun both => noAntislash (Option.some.inj both.2)),
    if_neg (fun both => notLast (Option.some.inj both.2.2)),
    if_pos ⟨by omega, rfl, fun same => noEnd (Option.some.inj same)⟩]
  rfl

theorem rangeLoop_bracket (left : text.drop index = characters "]") (fuel : Nat)
    (charRange : List RegexRangeItem) :
    rangeLoop (fuel + 1) text index charRange = pure (charRange, index) := by
  have here : text[index]? = some ']'.toUInt8 := getElem?_of_drop left
  rewrite [rangeLoop, here]
  exact if_neg fun both => both.2 rfl

theorem rangeLoop_hyphen (left : text.drop index = characters "-" ++ characters "]") (fuel : Nat)
    (charRange : List RegexRangeItem) :
    rangeLoop (fuel + 1) text index charRange = pure (charRange, index) := by
  have left : text.drop index = '-'.toUInt8 :: characters "]" := left
  have here := getElem?_of_drop left
  have length := length_of_drop left
  have next : text[index + 1]? = some ']'.toUInt8 := getElem?_after left 0
  have one : (characters "]").length = 1 := rfl
  have notBracket : '-'.toUInt8 ≠ ']'.toUInt8 := by decide
  have notAntislash : '-'.toUInt8 ≠ '\\'.toUInt8 := by decide
  rewrite [rangeLoop, here, next,
    if_pos ⟨by omega, fun same => notBracket (Option.some.inj same)⟩,
    if_neg (fun both => notAntislash (Option.some.inj both.2)),
    if_pos ⟨by omega, rfl, rfl⟩]
  rfl

end

theorem rangeCharacter_makes (char : UInt8) (h : Heap) :
    ∃ item h', Gives (fun _ => rangeCharacter char) h item h' ∧ h'.objects = h.objects ∧
      item.cmin = char.toNat ∧ item.cmax = char.toNat :=
  ⟨_, _, ⟨[], 0, fun _ _ => rfl⟩, rfl, rfl, rfl⟩

theorem rangeItem_makes {cmin cmax : UInt8} (ordered : cmin.toNat ≤ cmax.toNat) (h : Heap) :
    ∃ item h', Gives (fun _ => rangeItem cmin cmax) h item h' ∧ h'.objects = h.objects ∧
      item.cmin = cmin.toNat ∧ item.cmax = cmax.toNat := by
  refine ⟨⟨h.items, cmin.toNat, cmax.toNat, ordered⟩, { h with items := h.items + 1 },
    ⟨[], 0, fun _ _ => Logged.tryStep_ok ?_⟩, rfl, rfl, rfl⟩
  rw [newItem, dif_pos ordered]

/-- An item with the characters between two of them. -/
theorem admits_of_ends {item other : RegexRangeItem} (cmin : other.cmin = item.cmin)
    (cmax : other.cmax = item.cmax) (char : UInt8) : other.admits char ↔ item.admits char := by
  rw [RegexRangeItem.admits, RegexRangeItem.admits, cmin, cmax]

theorem rangeLoop_aloneGives {text rest : List UInt8} {index : Nat} {char : UInt8} {h : Heap}
    (left : text.drop index = char :: rest) (alone : ReadsAlone char rest)
    (charRange : List RegexRangeItem) :
    ∃ item h', item.cmin = char.toNat ∧ item.cmax = char.toNat ∧ h'.objects = h.objects ∧
      ∀ found h'', Gives (fun fuel => rangeLoop fuel text (index + 1) (charRange ++ [item])) h'
        found h'' → Gives (fun fuel => rangeLoop fuel text index charRange) h found h'' := by
  obtain ⟨item, h', gives, objects, cmin, cmax⟩ := rangeCharacter_makes char h
  refine ⟨item, h', cmin, cmax, objects, fun found h'' later => ?_⟩
  exact Gives.call (fun fuel => rangeLoop_alone left alone fuel charRange)
    (Gives.bind (charAt_gives (getElem?_of_drop left) h)
      (Gives.bind gives (Gives.bind (Gives.enter _ _) later)))

/-- The loop over items that are read as they are written. -/
theorem rangeLoop_gives {text ending : List UInt8}
    (ends : ending = characters "]" ∨ ending = characters "-" ++ characters "]")
    (items : List RegexRangeItem) :
    ∀ {index : Nat} {h : Heap} {charRange : List RegexRangeItem},
      (∀ item ∈ items, item.cmax < 256) →
      text.drop index = (items.map RegexRangeItem.bytes).flatten ++ ending →
      ReadsEach items ending →
      ∃ found index' h', Gives (fun fuel => rangeLoop fuel text index charRange) h
        (found, index') h' ∧ h'.objects = h.objects ∧ text.drop index' = ending ∧
        ∀ char, rangesAdmit found char ↔ rangesAdmit charRange char ∨ rangesAdmit items char := by
  induction items with
  | nil =>
      intro index h charRange _ left _
      have left : text.drop index = ending := left
      refine ⟨charRange, index, h, ?_, rfl, left, fun char => by simp⟩
      rcases ends with rfl | rfl
      · exact Gives.call (fun fuel => rangeLoop_bracket left fuel charRange) (Gives.pure _ _)
      · exact Gives.call (fun fuel => rangeLoop_hyphen left fuel charRange) (Gives.pure _ _)
  | cons item items induction =>
      intro index h charRange small left reads
      have fits := small item List.mem_cons_self
      have ordered := item.ordered
      have first : item.first.toNat = item.cmin :=
        UInt8.toNat_ofNat_of_lt' (show item.cmin < 256 by omega)
      have last : item.last.toNat = item.cmax := UInt8.toNat_ofNat_of_lt' fits
      have smaller : ∀ other ∈ items, other.cmax < 256 := fun other member =>
        small other (List.mem_cons_of_mem _ member)
      obtain ⟨here, later⟩ := reads
      rw [List.map_cons, List.flatten_cons, List.append_assoc, RegexRangeItem.bytes] at left
      by_cases single : item.cmin = item.cmax
      · rw [if_pos single] at here
        rw [if_neg (not_not.mpr single)] at left
        obtain ⟨read, h1, cmin, cmax, objects, runs⟩ :=
          @rangeLoop_aloneGives _ _ _ _ h left here charRange
        obtain ⟨found, index', h', gives, objects', rest, same⟩ :=
          @induction (index + 1) h1 (charRange ++ [read]) smaller (drop_succ_of_drop left) later
        refine ⟨found, index', h', runs _ _ gives, objects'.trans objects, rest, fun char => ?_⟩
        rw [same, rangesAdmit_concat, rangesAdmit_cons, or_assoc,
          admits_of_ends (cmin.trans first) (cmax.trans (first.trans single))]
      rw [if_neg single] at here
      rw [if_pos single] at left
      by_cases pair : item.cmin + 1 = item.cmax
      · rw [if_pos pair] at here
        rw [if_pos pair] at left
        have left : text.drop index = item.first :: item.last ::
            ((items.map RegexRangeItem.bytes).flatten ++ ending) := left
        obtain ⟨read, h1, cmin, cmax, objects, runs⟩ :=
          @rangeLoop_aloneGives _ _ _ _ h left here.1 charRange
        have left := drop_succ_of_drop left
        obtain ⟨read', h2, cmin', cmax', objects', runs'⟩ :=
          @rangeLoop_aloneGives _ _ _ _ h1 left here.2 (charRange ++ [read])
        obtain ⟨found, index', h', gives, objects'', rest, same⟩ :=
          @induction (index + 1 + 1) h2 (charRange ++ [read] ++ [read']) smaller
            (drop_succ_of_drop left) later
        refine ⟨found, index', h', runs _ _ (runs' _ _ gives),
          objects''.trans (objects'.trans objects), rest, fun char => ?_⟩
        have both : read.admits char ∨ read'.admits char ↔ item.admits char := by
          simp only [RegexRangeItem.admits, cmin, cmax, cmin', cmax', first, last]
          omega
        rw [same, rangesAdmit_concat, rangesAdmit_concat, rangesAdmit_cons, ← both]
        tauto
      · rw [if_neg pair] at here
        rw [if_neg pair] at left
        obtain ⟨noBracket, noAntislash, noEnd⟩ := here
        have left : text.drop index = item.first :: '-'.toUInt8 :: item.last ::
            ((items.map RegexRangeItem.bytes).flatten ++ ending) := left
        have more : (items.map RegexRangeItem.bytes).flatten ++ ending ≠ [] := by
          rcases ends with rfl | rfl <;> simp [characters]
        obtain ⟨read, h1, made, objects, cmin, cmax⟩ :=
          rangeItem_makes (first.trans_le (ordered.trans last.ge)) h
        have tail := drop_succ_of_drop (drop_succ_of_drop (drop_succ_of_drop left))
        obtain ⟨found, index', h', gives, objects', rest, same⟩ :=
          @induction (index + 1 + 1 + 1) h1 (charRange ++ [read]) smaller tail later
        refine ⟨found, index', h', ?_, objects'.trans objects, rest, fun char => ?_⟩
        · have second : text[index + 2]? = some item.last :=
            getElem?_of_drop (drop_succ_of_drop (drop_succ_of_drop left))
          exact Gives.call (fun fuel => rangeLoop_interval left more noBracket noAntislash noEnd
            fuel charRange) (Gives.bind (charAt_gives (getElem?_of_drop left) h)
              (Gives.bind (charAt_gives second h)
                (Gives.bind made (Gives.bind (Gives.enter _ _) gives))))
        · rw [same, rangesAdmit_concat, rangesAdmit_cons, or_assoc,
            admits_of_ends (cmin.trans first) (cmax.trans last)]

theorem bytes_cons (item : RegexRangeItem) : ∃ rest, item.bytes = item.first :: rest := by
  rw [RegexRangeItem.bytes]
  split
  · split <;> exact ⟨_, rfl⟩
  · exact ⟨_, rfl⟩

theorem first_ne_bracket {item : RegexRangeItem} {items : List RegexRangeItem}
    {ending : List UInt8} (reads : ReadsEach (item :: items) ending) :
    item.first ≠ ']'.toUInt8 := by
  obtain ⟨here, -⟩ := reads
  split at here
  · exact here.1
  split at here
  · exact here.1.1
  · exact here.1

/-- The text between the brackets, without the circumflex. -/
def rangeText (ranges : List RegexRangeItem) : List UInt8 :=
  bracketText ranges ++ (((middle ranges).map RegexRangeItem.bytes).flatten ++ hyphenText ranges)

theorem listed_cases (listed : Bool) (code : List UInt8) :
    (if listed then code else []) = [] ∧ listed = false ∨
      (if listed then code else []) = code ∧ listed = true := by
  cases listed
  · exact .inl ⟨rfl, rfl⟩
  · exact .inr ⟨rfl, rfl⟩

theorem bracketText_cases (ranges : List RegexRangeItem) :
    bracketText ranges = [] ∧ lists (characters "]") (without (characters "-") ranges) = false ∨
      bracketText ranges = characters "]" ∧
        lists (characters "]") (without (characters "-") ranges) = true :=
  listed_cases _ _

theorem hyphenText_cases (ranges : List RegexRangeItem) :
    hyphenText ranges = [] ∧ lists (characters "-") ranges = false ∨
      hyphenText ranges = characters "-" ∧ lists (characters "-") ranges = true :=
  listed_cases _ _

theorem leadingBracket_reads {text : List UInt8} {index : Nat} {ranges : List RegexRangeItem}
    (nonempty : ranges ≠ [])
    (left : text.drop index = bracketText ranges ++
      (((middle ranges).map RegexRangeItem.bytes).flatten ++
        (hyphenText ranges ++ characters "]")))
    (reads : ReadsEach (middle ranges) (hyphenText ranges ++ characters "]")) (h : Heap) :
    ∃ charRange index' h', Gives (fun _ => leadingBracket text index) h (charRange, index') h' ∧
      h'.objects = h.objects ∧
      text.drop index' = ((middle ranges).map RegexRangeItem.bytes).flatten ++
        (hyphenText ranges ++ characters "]") ∧
      ∀ char, rangesAdmit charRange char ↔ char ∈ bracketText ranges := by
  rcases bracketText_cases ranges with ⟨start, absent⟩ | ⟨start, -⟩
  · rw [start, List.nil_append] at left
    obtain ⟨char, rest, whole, noBracket⟩ : ∃ char rest,
        ((middle ranges).map RegexRangeItem.bytes).flatten ++
          (hyphenText ranges ++ characters "]") = char :: rest ∧ char ≠ ']'.toUInt8 := by
      cases items : middle ranges with
      | cons item others =>
          rw [items] at reads
          obtain ⟨rest, bytes⟩ := bytes_cons item
          refine ⟨item.first, rest ++ ((others.map RegexRangeItem.bytes).flatten ++
            (hyphenText ranges ++ characters "]")), ?_, first_ne_bracket reads⟩
          rw [List.map_cons, List.flatten_cons, bytes, List.append_assoc]
          rfl
      | nil =>
          rcases hyphenText_cases ranges with ⟨-, missing⟩ | ⟨ending, -⟩
          · rw [middle, without_of_not absent, without_of_not missing] at items
            exact absurd items nonempty
          · rw [ending]
            exact ⟨'-'.toUInt8, characters "]", rfl, by decide⟩
    refine ⟨[], index, h, ?_, rfl, left, fun char => by rw [start]; simp⟩
    rw [whole] at left
    refine Gives.bind (charAt_gives (getElem?_of_drop left) h) ?_
    simp only [noBracket, if_false]
    exact Gives.pure _ _
  · rw [start] at left
    have left : text.drop index = ']'.toUInt8 :: (((middle ranges).map
      RegexRangeItem.bytes).flatten ++ (hyphenText ranges ++ characters "]")) := left
    obtain ⟨item, h', gives, objects, cmin, cmax⟩ := rangeCharacter_makes ']'.toUInt8 h
    refine ⟨[item], index + 1, h', ?_, objects, drop_succ_of_drop left, fun char => ?_⟩
    · refine Gives.bind (charAt_gives (getElem?_of_drop left) h) ?_
      simp only [if_true]
      exact Gives.bind gives (Gives.pure _ _)
    · rw [start, rangesAdmit_cons, admits_single cmin cmax]
      simp [characters]

theorem trailingDash_reads {text : List UInt8} {index : Nat} {ranges : List RegexRangeItem}
    (left : text.drop index = hyphenText ranges ++ characters "]")
    (charRange : List RegexRangeItem) (h : Heap) :
    ∃ found index' h', Gives (fun _ => trailingDash text index charRange) h (found, index') h' ∧
      h'.objects = h.objects ∧ text.drop index' = characters "]" ∧
      ∀ char, rangesAdmit found char ↔
        rangesAdmit charRange char ∨ char ∈ hyphenText ranges := by
  rcases hyphenText_cases ranges with ⟨ending, -⟩ | ⟨ending, -⟩
  · rw [ending, List.nil_append] at left
    have here : text[index]? = some ']'.toUInt8 := getElem?_of_drop left
    have noHyphen : text[index]? ≠ some '-'.toUInt8 := by
      rw [here]
      decide
    refine ⟨charRange, index, h, ?_, rfl, left, fun char => by rw [ending]; simp⟩
    simp only [trailingDash, noHyphen, if_false]
    exact Gives.pure _ _
  · rw [ending] at left
    have left : text.drop index = '-'.toUInt8 :: characters "]" := left
    have here := getElem?_of_drop left
    obtain ⟨item, h', gives, objects, cmin, cmax⟩ := rangeCharacter_makes '-'.toUInt8 h
    refine ⟨charRange ++ [item], index + 1, h', ?_, objects, drop_succ_of_drop left,
      fun char => ?_⟩
    · simp only [trailingDash, here, if_true]
      exact Gives.bind gives (Gives.pure _ _)
    · rw [rangesAdmit_concat, admits_single cmin cmax, ending]
      simp [characters]

/-- When the string form of a range reads back. -/
structure ReadsBack (ranges : List RegexRangeItem) (exclude : Bool) : Prop where
  nonempty : ranges ≠ []
  small : ∀ item ∈ ranges, item.cmax < 256
  -- the circumflex of an excluded range
  head : exclude = false → (rangeText ranges).head? ≠ some '^'.toUInt8
  each : ReadsEach (middle ranges) (hyphenText ranges ++ characters "]")

theorem extends_of_objects {h h' : Heap} (same : h'.objects = h.objects) : h.Extends h' :=
  ⟨Nat.le_of_eq (congrArg List.length same).symm, fun _ _ _ => by rw [same]⟩

/-- Where the items begin in the string form. -/
theorem rangeStr_starts {ranges : List RegexRangeItem} {exclude : Bool} {text : List UInt8}
    (reads : ReadsBack ranges exclude) (rendered : rangeStr ranges exclude = some text) :
    ∃ char rest, text = '['.toUInt8 :: char :: rest ∧
      decide (char = '^'.toUInt8) = exclude ∧
      text.drop (if exclude then 2 else 1) = bracketText ranges ++
        (((middle ranges).map RegexRangeItem.bytes).flatten ++
          (hyphenText ranges ++ characters "]")) := by
  rw [rangeStr_eq reads.small exclude] at rendered
  have whole := (Option.some.inj rendered).symm
  cases exclude with
  | true => exact ⟨'^'.toUInt8, _, whole, by decide, by rw [whole]; rfl⟩
  | false =>
      have body : bracketText ranges ++ (((middle ranges).map RegexRangeItem.bytes).flatten ++
          (hyphenText ranges ++ characters "]")) = rangeText ranges ++ characters "]" := by
        simp [rangeText]
      have head := reads.head rfl
      cases inside : rangeText ranges with
      | nil =>
          rw [body, inside] at whole
          exact ⟨']'.toUInt8, [], whole, by decide, by rw [body, inside, whole]; rfl⟩
      | cons char rest =>
          rw [inside] at head
          rw [body, inside] at whole
          exact ⟨char, rest ++ characters "]", whole,
            decide_eq_false fun same => head (congrArg some same),
            by rw [body, inside, whole]; rfl⟩

theorem parseRange_gives {ranges : List RegexRangeItem} {exclude : Bool} {text : List UInt8}
    (reads : ReadsBack ranges exclude) (rendered : rangeStr ranges exclude = some text)
    (h : Heap) :
    ∃ ref h' read, Gives (fun fuel => parseRange fuel text 1) h (ref, text.length) h' ∧
      h.Extends h' ∧ h'.node? ref = some (.atom (.regexRange .list read exclude)) ∧
      ∀ char, rangesAdmit read char ↔ rangesAdmit ranges char := by
  obtain ⟨char, rest, whole, isExclude, left⟩ := rangeStr_starts reads rendered
  have second : text[1]? = some char := by rw [whole]; rfl
  obtain ⟨charRange, index, h1, leads, objects, left, start⟩ :=
    leadingBracket_reads reads.nonempty left reads.each h
  have ends : hyphenText ranges ++ characters "]" = characters "]" ∨
      hyphenText ranges ++ characters "]" = characters "-" ++ characters "]" := by
    rcases hyphenText_cases ranges with ⟨ending, -⟩ | ⟨ending, -⟩
    · exact .inl (congrArg (· ++ characters "]") ending)
    · exact .inr (congrArg (· ++ characters "]") ending)
  have smaller : ∀ item ∈ middle ranges, item.cmax < 256 := fun item member =>
    reads.small item (mem_without (mem_without member))
  obtain ⟨found, index', h2, loops, objects', left', inside⟩ :=
    rangeLoop_gives ends (middle ranges) smaller left reads.each
  obtain ⟨all, index'', h3, trails, objects'', left'', ending⟩ :=
    trailingDash_reads left' found h2
  obtain ⟨h4, sorted, returned, grown, -, node, same⟩ := Tree.regexRange_returns all exclude h3
  have closes : text[index'']? = some ']'.toUInt8 := getElem?_of_drop left''
  have length : index'' + 1 = text.length := by
    have counted := @length_of_drop text [] index'' _ left''
    simpa using counted.symm
  refine ⟨h3.size, h4, sorted, ?_, ?_, node, fun code => ?_⟩
  · refine Gives.bind (charAt_gives second h) ?_
    rw [isExclude]
    refine Gives.bind leads (Gives.bind loops (Gives.bind trails ?_))
    simp only [closes, ne_eq, not_true_eq_false, if_false]
    rw [← length]
    exact Gives.bind (Gives.step ⟨0, fun _ _ => returned⟩) (Gives.pure _ _)
  · exact (extends_of_objects (objects''.trans (objects'.trans objects))).trans grown
  · rw [same, ending, inside, start, admits_middle reads.small]
    tauto

/-- `regex + last` for an empty regex and a range. -/
theorem addLast_range {h : Heap} {regex last : Ref} {ranges : List RegexRangeItem}
    {exclude : Bool} (here : h.node? regex = some (.atom .regexEmpty))
    (there : h.node? last = some (.atom (.regexRange .list ranges exclude))) :
    Gives (fun fuel => addLast fuel regex (some last)) h last h := by
  have full : h.isEmpty last = false := by rw [Heap.isEmpty, there]
  have step := fun fuel => Tree.dunderAnd_step fuel regex last h
  simp only [full, Bool.false_eq_true, if_false] at step
  have under : ∀ fuel, underAnd (fuel + 1) regex last h = some (some last, h) := by
    intro fuel
    rewrite [underAnd, here, there]
    rfl
  exact Gives.step (Returns.call step
    (Returns.bind (Returns.call under (Returns.pure _)) (Returns.pure _)))

theorem simpleCommand_range (fuel : Nat) (text : List UInt8) (index : Nat) (last : Option Ref) :
    simpleCommand fuel text index '['.toUInt8 last =
      parseRange fuel text (index + 1) >>= fun (newRegex, index) =>
        pure (newRegex, last, index) := rfl

/-- Parsing the string form gives a range with the same characters. -/
def RoundTrips (ranges : List RegexRangeItem) (exclude : Bool) : Prop :=
  ∃ text, rangeStr ranges exclude = some text ∧ ∀ h : Heap, ∃ ref h' read,
    Gives (fun fuel => parse fuel text) h ref h' ∧
    h'.node? ref = some (.atom (.regexRange .list read exclude)) ∧
    ∀ char, rangesAdmit read char ↔ rangesAdmit ranges char

instance : ∀ (items : List RegexRangeItem) (ending : List UInt8),
    Decidable (ReadsEach items ending)
  | [], _ => isTrue trivial
  | item :: items, ending =>
      have : Decidable (ReadsEach items ending) := instDecidableReadsEach items ending
      inferInstanceAs (Decidable ((if item.cmin = item.cmax then _ else
        if item.cmin + 1 = item.cmax then _ else _) ∧ ReadsEach items ending))

end Segvault.HachoirRegex
