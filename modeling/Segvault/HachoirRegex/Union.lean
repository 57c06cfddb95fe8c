import Segvault.HachoirRegex.Or
import Segvault.HachoirRegex.Join

namespace Segvault.HachoirRegex

open Relation Spans

namespace Tree

/-! What `|` makes of two regexes. -/

def isOr : Tree → Bool
  | regexOr _ _ => true
  | _ => false

/-- `.` stands for any character. -/
def anyChar (_ : UInt8) : Prop := True

/-- `whole` matches what `a` or `b` does; a regex of one string only comes from two
regexes that match the same. -/
structure Sound (a b whole : Tree) : Prop where
  positive : whole.Positive
  exact : ∀ text, whole.denote anyChar text = a.denote anyChar text ⊔ b.denote anyChar text
  single : whole.single = true → ∀ text, a.denote anyChar text = b.denote anyChar text

structure Unites (h : Heap) (a b whole : Tree) (h' : Heap) : Prop where
  rep : whole.Rep h'
  grown : h.Extends h'
  tidy : whole.Tidy
  count : ∀ r, whole.refs.count r ≤
    a.refs.count r + b.refs.count r + between h.size h'.size r
  sound : a.Positive → b.Positive → Sound a b whole

theorem Sound.symm {a b whole : Tree} (sound : Sound a b whole) : Sound b a whole where
  positive := sound.positive
  exact text := (sound.exact text).trans (sup_comm _ _)
  single alone text := (sound.single alone text).symm

theorem Unites.symm {h h' : Heap} {a b whole : Tree} (unites : Unites h a b whole h') :
    Unites h b a whole h' where
  rep := unites.rep
  grown := unites.grown
  tidy := unites.tidy
  count r := by
    have less := unites.count r
    omega
  sound positiveB positiveA := (unites.sound positiveA positiveB).symm

/-- An operand that matches what the other one does. -/
theorem unites_first {h : Heap} {a b : Tree} (repa : a.Rep h) (tidya : a.Tidy)
    (sound : a.Positive → b.Positive → Sound a b a) : Unites h a b a h where
  rep := repa
  grown := Heap.KeepsBut.refl _ h
  tidy := tidya
  count r := by omega
  sound := sound

/-- A run of `_or_` or `or_` that may return None. -/
def Tried (h : Heap) (a b : Tree) (run : Nat → Option (Option Ref × Heap)) : Prop :=
  (∃ h' whole, Returns run (some whole.ref, h') ∧ Unites h a b whole h' ∧
    whole.weight ≤ a.weight + b.weight ∧ (a.isOr = true → whole.isOr = true)) ∨
  (∃ h', Returns run (none, h') ∧ h.Extends h' ∧ a.isOr = false)

theorem Tried.call {h : Heap} {a b : Tree} {run body : Nat → Option (Option Ref × Heap)}
    (unfolds : ∀ fuel, run (fuel + 1) = body fuel) (tried : Tried h a b body) :
    Tried h a b run := by
  obtain ⟨h', whole, returns, rest⟩ | ⟨h', returns, rest⟩ := tried
  · exact .inl ⟨h', whole, Returns.call unfolds returns, rest⟩
  · exact .inr ⟨h', Returns.call unfolds returns, rest⟩

/-- `or_` returns for all smaller operands. -/
def Uniting (n : Nat) : Prop :=
  ∀ (h : Heap) (a b : Tree), a.weight + b.weight < n → a.Tidy → b.Tidy → a.Rep h → b.Rep h →
    Tried h a b fun fuel => or_ fuel a.ref b.ref h

theorem sound_pair {a b : Tree} (next : Ref) (positiveA : a.Positive) (positiveB : b.Positive) :
    Sound a b (regexOr next [a, b]) where
  positive := by
    refine everywhere_iff.mpr ⟨trivial, fun item member => ?_⟩
    obtain rfl | isB := List.mem_cons.mp member
    · exact positiveA
    · exact List.mem_singleton.mp isB ▸ positiveB
  exact text := by
    rw [denote_regexOr]
    simp
  single wrong := by cases wrong

theorem tidy_pair {a b : Tree} (next : Ref) (tidya : a.Tidy) (tidyb : b.Tidy) :
    (regexOr next [a, b]).Tidy := by
  refine everywhere_iff.mpr ⟨Nat.le_refl 2, fun item member => ?_⟩
  obtain rfl | isB := List.mem_cons.mp member
  · exact tidya
  · exact List.mem_singleton.mp isB ▸ tidyb

theorem bare_of_or_none {h : Heap} {a b : Tree} (repa : a.Rep h) (repb : b.Rep h) {h' : Heap}
    (returns : Returns (fun fuel => or_ fuel a.ref b.ref h) (none, h')) : a.bare ≠ b.bare := by
  intro same
  cases Returns.unique (or_of_same repa repb same) returns

/-- `|` when `or_` returns. -/
theorem Tried.dunderOr {h : Heap} {a b : Tree} (repa : a.Rep h) (repb : b.Rep h)
    (tidya : a.Tidy) (tidyb : b.Tidy)
    (tried : Tried h a b fun fuel => or_ fuel a.ref b.ref h) :
    ∃ h' whole, Returns (fun fuel => dunderOr fuel a.ref b.ref h) (whole.ref, h') ∧
      Unites h a b whole h' ∧ whole.weight ≤ a.weight + b.weight + 1 ∧
      (a.bare = b.bare → whole.weight ≤ a.weight + b.weight) ∧
      (a.isOr = true → whole.isOr = true ∧ whole.weight ≤ a.weight + b.weight) := by
  obtain ⟨h', whole, runs, unites, weight, isOr⟩ | ⟨h', runs, grown, notOr⟩ := tried
  · exact ⟨h', whole, dunderOr_some runs, unites, Nat.le_succ_of_le weight, fun _ => weight,
      fun isOrA => ⟨isOr isOrA, weight⟩⟩
  · have repa' := repa.extends grown
    have repb' := repb.extends grown
    have differ := bare_of_or_none repa repb runs
    have grows := h'.new_extends (.regexOr [a.ref, b.ref])
    refine ⟨(h'.new (.regexOr [a.ref, b.ref])).2, regexOr h'.size [a, b],
      dunderOr_none repa' repb' differ runs, ?_, ?_, fun same => absurd same differ,
      fun wrong => absurd wrong (by simp [notOr])⟩
    · exact {
        rep := pair_rep repa' repb'
        grown := grown.trans grows
        tidy := tidy_pair _ tidya tidyb
        count := fun r => by
          have one := count_cons_next h'.size r (a.refs ++ b.refs)
          have parts := between_add grown.grows (Nat.le_add_right h'.size 1) r
          rw [Heap.new_size]
          simp only [refs, refsAll_cons, refsAll_nil, List.append_nil, List.count_append] at one ⊢
          omega
        sound := sound_pair _ }
    · simp only [weight_regexOr, weightAll_cons, weightAll_nil]
      omega

/-! Ranges. -/

theorem single_range {ref : Ref} {container : Container} {ranges : List RegexRangeItem}
    {exclude : Bool} (alone : (atom ref (.regexRange container ranges exclude)).single = true)
    {first second : UInt8} (inFirst : rangesAdmit ranges first)
    (inSecond : rangesAdmit ranges second) : first = second := by
  rcases ranges with _ | ⟨item, _ | ⟨other, ranges⟩⟩
  · cases alone
  · have one : item.cmax - item.cmin + 1 = 1 := of_decide_eq_true alone
    have ordered := item.ordered
    simp only [rangesAdmit_cons, rangesAdmit_nil, or_false, RegexRangeItem.admits]
      at inFirst inSecond
    apply UInt8.toNat_inj.mp
    omega
  · cases alone

/-- One range for two regexes that match a character each. -/
theorem sound_range {a b : Tree} {ref : Ref} {container : Container}
    {ranges : List RegexRangeItem} {inA inB : UInt8 → Prop}
    (denoteA : ∀ text, a.denote anyChar text = symbol inA)
    (denoteB : ∀ text, b.denote anyChar text = symbol inB)
    (someA : ∃ char, inA char) (someB : ∃ char, inB char)
    (same : ∀ char, rangesAdmit ranges char ↔ inA char ∨ inB char) :
    Sound a b (atom ref (.regexRange container ranges false)) where
  positive := by
    obtain ⟨char, inside⟩ := someA
    exact everywhere_atom ⟨rfl, char, (same char).mpr (.inl inside)⟩
  exact text := by
    rw [denoteA, denoteB, symbol_sup]
    exact symbol_congr same
  single alone text := by
    obtain ⟨chara, insideA⟩ := someA
    obtain ⟨charb, insideB⟩ := someB
    have only : ∀ {first second}, (inA first ∨ inB first) → (inA second ∨ inB second) →
        first = second := fun first second =>
      single_range alone ((same _).mpr first) ((same _).mpr second)
    rw [denoteA, denoteB]
    refine symbol_congr fun char => ⟨fun inside => ?_, fun inside => ?_⟩
    · exact only (.inr insideB) (.inl inside) ▸ insideB
    · exact only (.inl insideA) (.inr inside) ▸ insideA

theorem denote_string_one (ref : Ref) (char : UInt8) (nonempty : [char] ≠ []) (text : List UInt8) :
    (atom ref (.regexString [char] nonempty)).denote anyChar text =
      symbol fun other => other = char :=
  word_singleton char

/-! findPrefix -/

def textAtom (text : List UInt8) : Atom :=
  if nonempty : text ≠ [] then .regexString text nonempty else .regexEmpty

theorem createString_eq (text : List UInt8) (h : Heap) :
    createString text h = h.new (.atom (textAtom text)) := by
  unfold createString textAtom
  split <;> rfl

/-- The weight of a string, zero for the empty one. -/
def part (t : Tree) : Nat :=
  if t.isEmpty then 0 else t.weight

theorem weight_le_part (ref : Ref) (text : List UInt8) :
    (atom ref (textAtom text)).weight ≤ (atom ref (textAtom text)).part + 2 ∧
      (atom ref (textAtom text)).part = 5 * text.length ∧
      (text ≠ [] → (atom ref (textAtom text)).weight = 5 * text.length) := by
  unfold textAtom
  split
  · exact ⟨by simp [part, isEmpty], rfl, fun _ => rfl⟩
  · rename_i empty
    rw [not_not] at empty
    subst empty
    exact ⟨Nat.le_refl 2, rfl, fun wrong => absurd rfl wrong⟩

theorem denote_textAtom (ref : Ref) (text : List UInt8) (dot : UInt8 → Prop)
    (whole : List UInt8) : (atom ref (textAtom text)).denote dot whole = word text := by
  unfold textAtom
  split
  · rfl
  · rename_i empty
    rw [not_not] at empty
    subst empty
    exact word_nil.symm

theorem textAtom_holds {holds : Tree → Prop} (kept : Kept holds)
    (empty : ∀ ref, holds (atom ref .regexEmpty)) (ref : Ref) (text : List UInt8) :
    Everywhere holds (atom ref (textAtom text)) := by
  refine everywhere_atom ?_
  unfold textAtom
  split
  · exact kept.string _ _ _
  · exact empty _

theorem commonPrefix_spec {texta textb : List UInt8} {lengths : List Nat} {common : Nat}
    (bounded : ∀ length ∈ lengths, length ≤ texta.length)
    (within : common ≤ texta.length) (shared : texta.take common <+: textb) :
    commonPrefix texta textb lengths common ≤ texta.length ∧
      texta.take (commonPrefix texta textb lengths common) <+: textb := by
  induction lengths generalizing common with
  | nil => exact ⟨within, shared⟩
  | cons length lengths induction =>
      rw [commonPrefix]
      split
      · exact induction (fun other member => bounded other (List.mem_cons_of_mem _ member))
          (bounded length (by simp)) ‹_›
      · exact ⟨within, shared⟩

/-- The parts that findPrefix gives for two strings. -/
structure Prefixed (h : Heap) (a b shared resta restb : Tree) (h' : Heap) : Prop where
  grown : h.Extends h'
  repShared : shared.Rep h'
  repA : resta.Rep h'
  repB : restb.Rep h'
  count : ∀ r, shared.refs.count r + resta.refs.count r + restb.refs.count r ≤
    between h.size h'.size r
  notAnd : shared.isAnd = false
  restTexts : ∃ refa refb texta textb, resta = atom refa (textAtom texta) ∧
    restb = atom refb (textAtom textb)
  tidy : shared.Tidy
  positive : shared.Positive
  weight : ∃ common, 1 ≤ common ∧ shared.weight ≤ 5 * common ∧
    resta.part + 5 * common = a.weight ∧ restb.part + 5 * common = b.weight
  denote : (∀ text,
      a.denote anyChar text = Comp (shared.denote anyChar text) (resta.denote anyChar text) ∧
      b.denote anyChar text = Comp (shared.denote anyChar text) (restb.denote anyChar text)) ∨
    (shared.single = false ∧ resta.isEmpty = true ∧ restb.isEmpty = true ∧ ∀ text,
      shared.denote anyChar text = a.denote anyChar text ⊔ b.denote anyChar text)

theorem rangesAdmit_sorted (ranges : List RegexRangeItem) (char : UInt8) :
    rangesAdmit (ranges.insertionSort fun first second => first.cmin ≤ second.cmin) char ↔
      rangesAdmit ranges char := by
  simp only [rangesAdmit, List.mem_insertionSort]

theorem admits_character (char : UInt8) (items : Nat) (other : UInt8) :
    (regexRangeCharacter char items).1.admits other ↔ other = char := by
  simp only [RegexRangeItem.admits, regexRangeCharacter]
  constructor
  · intro both
    exact UInt8.toNat_inj.mp (Nat.le_antisymm both.2 both.1)
  · rintro rfl
    exact ⟨Nat.le_refl _, Nat.le_refl _⟩

theorem regexRange_returns (ranges : List RegexRangeItem) (exclude : Bool) (h : Heap) :
    ∃ (h' : Heap) (sorted : List RegexRangeItem),
      regexRange ranges exclude h = some (h.size, h') ∧ h.Extends h' ∧
      h'.size = h.size + 1 ∧ h'.node? h.size = some (.atom (.regexRange .list sorted exclude)) ∧
      ∀ char, rangesAdmit sorted char ↔ rangesAdmit ranges char := by
  obtain ⟨added, items, returned, _, same⟩ := rangeAddAll_returns [] ranges h.items
  let counted : Heap := { h with items := items }
  let sorted := added.insertionSort fun first second => first.cmin ≤ second.cmin
  let node : Node := .atom (.regexRange .list sorted exclude)
  refine ⟨(counted.new node).2, sorted, ?_, ?_, counted.new_size node, counted.new_node? node,
    fun char => ?_⟩
  · rw [regexRange, returned]
    rfl
  · exact (h.items_extends items).trans (counted.new_extends node)
  · rw [rangesAdmit_sorted, same]
    simp

theorem createRange_returns (first second : UInt8) (h : Heap) :
    ∃ (h' : Heap) (sorted : List RegexRangeItem),
      createRange first second h = some (h.size, h') ∧ h.Extends h' ∧ h'.size = h.size + 1 ∧
      h'.node? h.size = some (.atom (.regexRange .list sorted false)) ∧
      ∀ char, rangesAdmit sorted char ↔ char = first ∨ char = second := by
  obtain ⟨h', sorted, returned, grown, size, here, same⟩ := regexRange_returns
    [(regexRangeCharacter first h.items).1, (regexRangeCharacter second (h.items + 1)).1] false
    { h with items := h.items + 2 }
  refine ⟨h', sorted, returned, (h.items_extends _).trans grown, size, here, fun char => ?_⟩
  rw [same, rangesAdmit_cons, rangesAdmit_cons, admits_character, admits_character]
  simp

/-- findPrefix past the test for two characters. -/
def textPrefix (texta textb : List UInt8) (h : Heap) :
    Option (Option (Ref × Ref × Ref) × Heap) :=
  let lengths := List.range' 1 (min texta.length textb.length)
  let common := commonPrefix texta textb lengths 0
  if common = 0 then some (none, h)
  else
    let (shared, h) := createString (texta.take common) h
    let (resta, h) := createString (texta.drop common) h
    let (restb, h) := createString (textb.drop common) h
    some (some (shared, resta, restb), h)

theorem findPrefix_strings {h : Heap} {refa refb : Ref} {texta textb : List UInt8}
    {nonemptyA : texta ≠ []} {nonemptyB : textb ≠ []}
    (repa : (atom refa (.regexString texta nonemptyA)).Rep h)
    (repb : (atom refb (.regexString textb nonemptyB)).Rep h)
    (several : ¬ (texta.length = 1 ∧ textb.length = 1)) :
    findPrefix refa refb h = textPrefix texta textb h := by
  have hereA : h.node? refa = _ := repa.here
  have hereB : h.node? refb = _ := repb.here
  unfold findPrefix
  rw [hereA, hereB]
  rcases texta with _ | ⟨chara, _ | ⟨nexta, texta⟩⟩
  · exact absurd rfl nonemptyA
  · rcases textb with _ | ⟨charb, _ | ⟨nextb, textb⟩⟩
    · exact absurd rfl nonemptyB
    · exact absurd ⟨rfl, rfl⟩ several
    · rfl
  · rfl

theorem findPrefix_characters {h : Heap} {refa refb : Ref} {chara charb : UInt8}
    {nonemptyA : [chara] ≠ []} {nonemptyB : [charb] ≠ []}
    (repa : (atom refa (.regexString [chara] nonemptyA)).Rep h)
    (repb : (atom refb (.regexString [charb] nonemptyB)).Rep h) :
    ∃ h' shared resta restb,
      findPrefix refa refb h = some (some (shared.ref, resta.ref, restb.ref), h') ∧
      Prefixed h (atom refa (.regexString [chara] nonemptyA))
        (atom refb (.regexString [charb] nonemptyB)) shared resta restb h' := by
  have hereA : h.node? refa = _ := repa.here
  have hereB : h.node? refb = _ := repb.here
  obtain ⟨h1, sorted, returned, grown, size, here, same⟩ := createRange_returns chara charb h
  let empty : Node := .atom .regexEmpty
  let h2 := (h1.new empty).2
  let h3 := (h2.new empty).2
  have grown2 := h1.new_extends empty
  have grown3 := h2.new_extends empty
  have size2 : h2.size = h.size + 2 := by rw [Heap.new_size, size]
  have size3 : h3.size = h.size + 3 := by rw [Heap.new_size, size2]
  refine ⟨h3, atom h.size (.regexRange .list sorted false), atom h1.size .regexEmpty,
    atom h2.size .regexEmpty, ?_, ?_⟩
  · unfold findPrefix
    rw [hereA, hereB]
    change (createRange chara charb h >>= _) = _
    rw [returned]
    rfl
  · exact {
      grown := (grown.trans grown2).trans grown3
      repShared := grown3.node? id (grown2.node? id here)
      repA := grown3.node? id (h1.new_node? empty)
      repB := h2.new_node? empty
      count := fun r => by
        have one : [h.size].count r ≤ between h.size (h.size + 1) r := count_next _ r
        have two : [h.size + 1].count r ≤ between (h.size + 1) (h.size + 2) r := count_next _ r
        have three : [h.size + 2].count r ≤ between (h.size + 2) (h.size + 3) r := count_next _ r
        have all := between_three h.size r
        rw [size3]
        simp only [refs, size, size2]
        omega
      notAnd := rfl
      restTexts := ⟨_, _, [], [], rfl, rfl⟩
      tidy := everywhere_atom trivial
      positive := everywhere_atom ⟨rfl, chara, (same chara).mpr (.inl rfl)⟩
      weight := ⟨1, Nat.le_refl 1, by simp [weight], by simp [part, isEmpty, weight],
        by simp [part, isEmpty, weight]⟩
      denote := by
        have whole : ∀ text, (atom h.size (.regexRange .list sorted false)).denote anyChar text =
            symbol fun char => char = chara ∨ char = charb := fun text => symbol_congr same
        by_cases equal : chara = charb
        · subst equal
          refine .inl fun text => ?_
          simp only [or_self] at whole
          rw [whole, denote_string_one, denote_string_one]
          exact ⟨comp_eq.symm, comp_eq.symm⟩
        · refine .inr ⟨?_, rfl, rfl, fun text => ?_⟩
          · by_contra alone
            exact equal (single_range (Bool.not_eq_false _ ▸ alone)
              ((same chara).mpr (.inl rfl)) ((same charb).mpr (.inr rfl)))
          · rw [whole, denote_string_one, denote_string_one, symbol_sup] }

theorem textPrefix_returns {h : Heap} {refa refb : Ref} {texta textb : List UInt8}
    {nonemptyA : texta ≠ []} {nonemptyB : textb ≠ []} :
    textPrefix texta textb h = some (none, h) ∨ ∃ h' shared resta restb,
      textPrefix texta textb h = some (some (shared.ref, resta.ref, restb.ref), h') ∧
      Prefixed h (atom refa (.regexString texta nonemptyA))
        (atom refb (.regexString textb nonemptyB)) shared resta restb h' := by
  have spec := @commonPrefix_spec texta textb
    (List.range' 1 (min texta.length textb.length)) 0 (fun length member => by
      rw [List.mem_range'_1] at member
      omega) (Nat.zero_le _) (List.nil_prefix)
  unfold textPrefix
  simp only [createString_eq]
  generalize commonPrefix texta textb (List.range' 1 (min texta.length textb.length)) 0 = common
    at spec ⊢
  obtain ⟨within, shared⟩ := spec
  by_cases nothing : common = 0
  · exact .inl (by simp [nothing])
  · refine .inr ?_
    simp only [nothing, if_false]
    have takenLength : (texta.take common).length = common := by
      rw [List.length_take]
      omega
    have restB : textb = texta.take common ++ textb.drop common := by
      obtain ⟨rest, same⟩ := shared
      rw [← same, List.drop_append, List.drop_of_length_le (Nat.le_of_eq takenLength),
        takenLength]
      simp
    have lengthB : textb.length = common + (textb.drop common).length := by
      conv_lhs => rw [restB]
      rw [List.length_append, takenLength]
    let h1 := (h.new (.atom (textAtom (texta.take common)))).2
    let h2 := (h1.new (.atom (textAtom (texta.drop common)))).2
    let h3 := (h2.new (.atom (textAtom (textb.drop common)))).2
    have grown1 : h.Extends h1 := h.new_extends _
    have grown2 : h1.Extends h2 := h1.new_extends _
    have grown3 : h2.Extends h3 := h2.new_extends _
    have size1 : h1.size = h.size + 1 := h.new_size _
    have size2 : h2.size = h.size + 2 := by rw [Heap.new_size, size1]
    have size3 : h3.size = h.size + 3 := by rw [Heap.new_size, size2]
    refine ⟨h3, atom h.size (textAtom (texta.take common)),
      atom h1.size (textAtom (texta.drop common)), atom h2.size (textAtom (textb.drop common)),
      rfl, ?_⟩
    exact {
      grown := (grown1.trans grown2).trans grown3
      repShared := grown3.node? id (grown2.node? id (h.new_node? _))
      repA := grown3.node? id (h1.new_node? _)
      repB := h2.new_node? _
      count := fun r => by
        have one : [h.size].count r ≤ between h.size (h.size + 1) r := count_next _ r
        have two : [h.size + 1].count r ≤ between (h.size + 1) (h.size + 2) r := count_next _ r
        have three : [h.size + 2].count r ≤ between (h.size + 2) (h.size + 3) r := count_next _ r
        have all := between_three h.size r
        rw [size3]
        simp only [refs, size1, size2]
        omega
      notAnd := rfl
      restTexts := ⟨_, _, _, _, rfl, rfl⟩
      tidy := textAtom_holds kept_tidy (fun _ => trivial) _ _
      positive := textAtom_holds kept_positive (fun _ => trivial) _ _
      weight := by
        refine ⟨common, Nat.one_le_iff_ne_zero.mpr nothing, ?_, ?_, ?_⟩
        · rw [(weight_le_part _ _).2.2 (List.ne_nil_of_length_pos (by omega)), takenLength]
        · rw [(weight_le_part _ _).2.1, List.length_drop]
          simp only [weight]
          omega
        · rw [(weight_le_part _ _).2.1]
          simp only [weight]
          omega
      denote := by
        refine .inl fun text => ?_
        rw [denote_textAtom, denote_textAtom, denote_textAtom, word_append, word_append,
          List.take_append_drop, ← restB]
        exact ⟨rfl, rfl⟩ }

theorem findPrefix_returns {h : Heap} {a b : Tree} (repa : a.Rep h) (repb : b.Rep h) :
    findPrefix a.ref b.ref h = some (none, h) ∨ ∃ h' shared resta restb,
      findPrefix a.ref b.ref h = some (some (shared.ref, resta.ref, restb.ref), h') ∧
      Prefixed h a b shared resta restb h' := by
  have hereA := repa.here
  have hereB := repb.here
  cases a with
  | atom refa leafA =>
      cases leafA with
      | regexString texta nonemptyA =>
          cases b with
          | atom refb leafB =>
              cases leafB with
              | regexString textb nonemptyB =>
                  by_cases characters : texta.length = 1 ∧ textb.length = 1
                  · obtain ⟨chara, rfl⟩ := List.length_eq_one_iff.mp characters.1
                    obtain ⟨charb, rfl⟩ := List.length_eq_one_iff.mp characters.2
                    exact .inr (findPrefix_characters repa repb)
                  · change findPrefix refa refb h = _ ∨ ∃ h' shared resta restb,
                      findPrefix refa refb h = _ ∧ _
                    rw [findPrefix_strings repa repb characters]
                    exact textPrefix_returns
              | _ =>
                  refine .inl ?_
                  unfold findPrefix
                  rw [hereA, hereB]
                  rcases texta with _ | ⟨chara, _ | ⟨nexta, texta⟩⟩ <;> rfl
          | _ =>
              refine .inl ?_
              unfold findPrefix
              rw [hereA, hereB]
              rcases texta with _ | ⟨chara, _ | ⟨nexta, texta⟩⟩ <;> rfl
      | _ =>
          refine .inl ?_
          unfold findPrefix
          rw [hereA, hereB]
          rfl
  | _ =>
      refine .inl ?_
      unfold findPrefix
      rw [hereA, hereB]
      rfl

/-! Two strings. -/

theorem underOr_strings {h : Heap} {a b : Tree} {refa refb : Ref} {texta textb : List UInt8}
    {nonemptyA : texta ≠ []} {nonemptyB : textb ≠ []}
    (shapeA : a = atom refa (.regexString texta nonemptyA))
    (shapeB : b = atom refb (.regexString textb nonemptyB)) (repa : a.Rep h) (repb : b.Rep h)
    (fuel : Nat) :
    underOr (fuel + 1) a.ref b.ref false h =
      findPrefix a.ref b.ref h >>= fun (common, h) =>
        match common with
        | none => some (none, h)
        | some (shared, resta, restb) =>
            dunderOr fuel resta restb h >>= fun (regex, h) =>
              dunderAnd fuel shared regex h >>= fun (regex, h) => some (some regex, h) := by
  have hereA := repa.here
  have hereB := repb.here
  subst shapeA shapeB
  rewrite [underOr, hereA, hereB]
  rfl

/-- `common[0] + regex`, where no object is written. -/
theorem prepend_returns {h0 h : Heap} {shared regex : Tree} (grown : h0.Extends h)
    (repShared : shared.Rep h) (repRegex : regex.Rep h) (notAnd : shared.isAnd = false) :
    ∃ h', Returns (fun fuel => dunderAnd fuel shared.ref regex.ref h)
        ((concat h.size shared regex).1.ref, h') ∧
      (concat h.size shared regex).1.Rep h' ∧ h'.size = (concat h.size shared regex).2 ∧
      h0.Extends h' :=
  dunderAnd_fresh grown repShared repRegex fun r member => by
    rw [spine_of_not_and notAnd] at member
    cases member

theorem Prefixed.tidyRest {h h' : Heap} {a b shared resta restb : Tree}
    (prefixed : Prefixed h a b shared resta restb h') : resta.Tidy ∧ restb.Tidy := by
  obtain ⟨refa, refb, texta, textb, rfl, rfl⟩ := prefixed.restTexts
  exact ⟨textAtom_holds kept_tidy (fun _ => trivial) _ _,
    textAtom_holds kept_tidy (fun _ => trivial) _ _⟩

theorem Prefixed.positiveRest {h h' : Heap} {a b shared resta restb : Tree}
    (prefixed : Prefixed h a b shared resta restb h') : resta.Positive ∧ restb.Positive := by
  obtain ⟨refa, refb, texta, textb, rfl, rfl⟩ := prefixed.restTexts
  exact ⟨textAtom_holds kept_positive (fun _ => trivial) _ _,
    textAtom_holds kept_positive (fun _ => trivial) _ _⟩

/-- The weights of the parts of two different strings. -/
theorem Prefixed.restWeight {h h' : Heap} {a b shared resta restb : Tree}
    (prefixed : Prefixed h a b shared resta restb h') {regex : Tree}
    (weight : regex.weight ≤ resta.weight + restb.weight + 1)
    (same : resta.bare = restb.bare → regex.weight ≤ resta.weight + restb.weight) :
    shared.weight + regex.weight + 1 ≤ a.weight + b.weight ∧
      resta.weight + restb.weight < a.weight + b.weight := by
  obtain ⟨refa, refb, texta, textb, rfl, rfl⟩ := prefixed.restTexts
  obtain ⟨common, some, light, wholeA, wholeB⟩ := prefixed.weight
  have boundA := weight_le_part refa texta
  have boundB := weight_le_part refb textb
  by_cases emptyA : texta = []
  · by_cases emptyB : textb = []
    · have less := same (by rw [emptyA, emptyB]; rfl)
      omega
    · have exactB := boundB.2.2 emptyB
      omega
  · have exactA := boundA.2.2 emptyA
    omega

theorem tried_strings {n : Nat} (uniting : Uniting n) {h : Heap} {a b : Tree} {refa refb : Ref}
    {texta textb : List UInt8} {nonemptyA : texta ≠ []} {nonemptyB : textb ≠ []}
    (shapeA : a = atom refa (.regexString texta nonemptyA))
    (shapeB : b = atom refb (.regexString textb nonemptyB)) (repa : a.Rep h) (repb : b.Rep h)
    (below : a.weight + b.weight ≤ n) :
    Tried h a b fun fuel => underOr fuel a.ref b.ref false h := by
  have notOr : a.isOr = false := by rw [shapeA]; rfl
  have step := underOr_strings shapeA shapeB repa repb
  obtain nothing | ⟨h1, shared, resta, restb, found, prefixed⟩ := findPrefix_returns repa repb
  · rw [nothing] at step
    exact .inr ⟨h, Returns.call step (Returns.pure _), Heap.KeepsBut.refl _ h, notOr⟩
  rw [found] at step
  obtain ⟨tidyA, tidyB⟩ := prefixed.tidyRest
  obtain ⟨positiveA, positiveB⟩ := prefixed.positiveRest
  have smaller := (@Prefixed.restWeight _ _ _ _ _ _ _ prefixed resta (by omega)
    fun _ => by omega).2
  obtain ⟨h2, regex, runsOr, unites, weight, same, _⟩ := Tried.dunderOr prefixed.repA prefixed.repB
    tidyA tidyB (uniting h1 resta restb (by omega) tidyA tidyB prefixed.repA prefixed.repB)
  obtain ⟨h3, runsAnd, rep, size, grown⟩ := prepend_returns (prefixed.grown.trans unites.grown)
    (prefixed.repShared.extends unites.grown) unites.rep prefixed.notAnd
  have runs : Returns (fun fuel => underOr fuel a.ref b.ref false h)
      (some (concat h2.size shared regex).1.ref, h3) :=
    Returns.call step (Returns.bind (Returns.pure _)
      (Returns.bind runsOr (Returns.bind runsAnd (Returns.pure _))))
  refine .inl ⟨h3, (concat h2.size shared regex).1, runs, ?_, ?_,
    fun wrong => absurd wrong (by simp [notOr])⟩
  · exact {
      rep := rep
      grown := grown
      tidy := everywhere_concat kept_tidy _ prefixed.tidy unites.tidy
      count := fun r => by
        have one := prefixed.count r
        have two := unites.count r
        have three := concat_between h2.size shared regex r
        rw [← size] at three
        have later : h2.size ≤ h3.size := size ▸ concat_next _ _ _
        have firstTwo := between_add prefixed.grown.grows unites.grown.grows r
        have all := between_add (prefixed.grown.trans unites.grown).grows later r
        omega
      sound := fun _ _ => by
        have sound := unites.sound positiveA positiveB
        refine ⟨everywhere_concat kept_positive _ prefixed.positive sound.positive,
          fun text => ?_, fun alone text => ?_⟩
        · rw [denote_concat, sound.exact, comp_sup]
          obtain both | ⟨_, emptyA, emptyB, both⟩ := prefixed.denote
          · rw [(both text).1, (both text).2]
          · rw [denote_of_isEmpty _ _ emptyA, denote_of_isEmpty _ _ emptyB, comp_eq, sup_idem,
              both]
        · rw [single_concat, Bool.and_eq_true] at alone
          obtain both | ⟨several, _⟩ := prefixed.denote
          · rw [(both text).1, (both text).2, sound.single alone.2]
          · rw [several] at alone
            cases alone.1 }
  · have light := (weight_concat h2.size shared regex).1
    have bound := (prefixed.restWeight weight same).1
    omega

/-! A range, and a range or a character. -/

/-- The range that `_or_` makes of two operands. -/
theorem unites_range {h h' : Heap} {a b : Tree} {added : List RegexRangeItem} {exclude : Bool}
    (grown : h.Extends h') (size : h'.size = h.size + 1)
    (here : h'.node? h.size = some (.atom (.regexRange .tuple added exclude)))
    (sound : a.Positive → b.Positive →
      Sound a b (atom h.size (.regexRange .tuple added exclude))) :
    Unites h a b (atom h.size (.regexRange .tuple added exclude)) h' where
  rep := here
  grown := grown
  tidy := everywhere_atom trivial
  count r := by
    have one := count_next h.size r
    rw [size]
    simp only [refs]
    omega
  sound := sound

theorem underOr_rangeString {h : Heap} {a b : Tree} {refa refb : Ref} {container : Container}
    {ranges : List RegexRangeItem} {char : UInt8} {nonempty : [char] ≠ []}
    (shapeA : a = atom refa (.regexRange container ranges false))
    (shapeB : b = atom refb (.regexString [char] nonempty)) (repa : a.Rep h) (repb : b.Rep h)
    (reverse : Bool) (fuel : Nat) :
    underOr (fuel + 1) a.ref b.ref reverse h =
      rangeOr ranges [(regexRangeCharacter char h.items).1] false
        { h with items := h.items + 1 } >>= fun (regex, h) => some (some regex, h) := by
  have hereA := repa.here
  have hereB := repb.here
  subst shapeA shapeB
  rewrite [underOr, hereA, hereB]
  rfl

theorem tried_rangeString {h : Heap} {a b : Tree} {refa refb : Ref} {container : Container}
    {ranges : List RegexRangeItem} {char : UInt8} {nonempty : [char] ≠ []}
    (shapeA : a = atom refa (.regexRange container ranges false))
    (shapeB : b = atom refb (.regexString [char] nonempty)) (repa : a.Rep h) (repb : b.Rep h)
    (reverse : Bool) : Tried h a b fun fuel => underOr fuel a.ref b.ref reverse h := by
  have step := underOr_rangeString shapeA shapeB repa repb reverse
  obtain ⟨h', added, returned, grown, size, here, _, same⟩ := rangeOr_returns ranges
    [(regexRangeCharacter char h.items).1] false { h with items := h.items + 1 }
  rw [returned] at step
  subst shapeA shapeB
  refine .inl ⟨h', atom h.size (.regexRange .tuple added false),
    Returns.call step (Returns.pure _),
    unites_range ((h.items_extends _).trans grown) size here fun positiveA _ => ?_, ?_,
    fun wrong => by cases wrong⟩
  · refine @sound_range _ _ _ _ _ (rangesAdmit ranges) (fun other => other = char)
      (fun text => rfl) (fun text => denote_string_one refb char nonempty text)
      positiveA.here.2 ⟨char, rfl⟩ fun other => ?_
    rw [same, rangesAdmit_cons, admits_character]
    simp
  · simp only [weight]
    omega

theorem tried_ranges {h : Heap} {a b : Tree} {refa refb : Ref}
    {container bcontainer : Container} {ranges branges : List RegexRangeItem} {exclude : Bool}
    (shapeA : a = atom refa (.regexRange container ranges exclude))
    (shapeB : b = atom refb (.regexRange bcontainer branges exclude))
    (repa : a.Rep h) (repb : b.Rep h) :
    Tried h a b fun fuel => underOr fuel a.ref b.ref false h := by
  have step := underOr_ranges shapeA shapeB repa repb
  simp only [if_true] at step
  obtain ⟨h', added, returned, grown, size, here, _, same⟩ :=
    rangeOr_returns ranges branges exclude h
  rw [returned] at step
  subst shapeA shapeB
  refine .inl ⟨h', atom h.size (.regexRange .tuple added exclude),
    Returns.call step (Returns.pure _),
    unites_range grown size here fun positiveA positiveB => ?_, ?_,
    fun wrong => by cases wrong⟩
  · obtain ⟨rfl, someA⟩ := positiveA.here
    exact sound_range (fun text => rfl) (fun text => rfl) someA positiveB.here.2 same
  · simp only [weight]
    omega

/-! Operands that match what the other one does. -/

theorem sound_same {a b : Tree} (same : a.bare = b.bare) (positive : a.Positive) :
    Sound a b a where
  positive := positive
  exact text := by
    rw [denote_of_bare same]
    exact (sup_idem _).symm
  single _ text := denote_of_bare same _ text

theorem sound_covers {a b : Tree} (covered : covers a b = true) (positiveA : a.Positive)
    (positiveB : b.Positive) : Sound a b a := by
  have dotted : ∀ ref, a = atom ref .regexDot → (∃ accepted : UInt8 → Prop,
      ∀ text, b.denote anyChar text = symbol accepted) → Sound a b a := by
    rintro ref rfl ⟨accepted, denoteB⟩
    refine ⟨positiveA, fun text => ?_, fun wrong => by cases wrong⟩
    rw [denoteB]
    change symbol anyChar = symbol anyChar ⊔ _
    rw [symbol_sup]
    exact symbol_congr fun char => ⟨.inl, fun _ => trivial⟩
  cases a with
  | atom refa leafA =>
      cases b with
      | atom refb leafB =>
          cases leafA with
          | regexDot =>
              cases leafB with
              | regexRange bcontainer branges bexclude =>
                  obtain ⟨rfl, _⟩ := positiveB.here
                  exact dotted refa rfl ⟨_, fun text => rfl⟩
              | regexString text nonempty =>
                  obtain ⟨char, rfl⟩ := List.length_eq_one_iff.mp (of_decide_eq_true covered)
                  exact dotted refa rfl ⟨_, fun text => word_singleton char⟩
              | _ => cases covered
          | regexRange container ranges exclude =>
              obtain ⟨rfl, someA⟩ := positiveA.here
              cases leafB with
              | regexRange bcontainer branges bexclude =>
                  obtain ⟨rfl, someB⟩ := positiveB.here
                  obtain ⟨_, same⟩ := covers_ranges covered
                  exact sound_range (fun text => rfl) (fun text => rfl) someA someB same
              | regexString text nonempty =>
                  rcases text with _ | ⟨char, _ | ⟨next, text⟩⟩
                  · cases covered
                  · have inside : rangesAdmit ranges char := by
                      obtain ⟨item, listed, within⟩ := List.any_eq_true.mp covered
                      exact ⟨item, listed,
                        admits_of_within within ((admits_character char 0 char).mpr rfl)⟩
                    refine sound_range (fun text => rfl)
                      (fun text => denote_string_one refb char nonempty text) someA ⟨char, rfl⟩
                      fun other => ⟨.inl, fun either => either.elim id fun same => ?_⟩
                    exact same ▸ inside
                  · cases covered
              | _ => cases covered
          | _ => cases covered
      | _ =>
          cases leafA with
          | regexRange container ranges exclude => cases exclude <;> cases covered
          | _ => cases covered
  | _ => cases covered

end Tree

end Segvault.HachoirRegex
