import Segvault.HachoirRegex.Ranges
import Segvault.Transition
import Mathlib.Data.List.Pairwise
import Mathlib.Data.List.Perm.Basic

namespace Segvault.HachoirRegex

open Transition

/-! The normal form of a list of range items: disjoint and not adjacent. -/

namespace RegexRangeItem

def covers (item : RegexRangeItem) (code : Nat) : Prop :=
  item.cmin ≤ code ∧ code ≤ item.cmax

def Apart (itema itemb : RegexRangeItem) : Prop :=
  itema.cmax + 1 < itemb.cmin ∨ itemb.cmax + 1 < itema.cmin

instance : DecidableRel Apart :=
  fun _ _ => inferInstanceAs (Decidable (_ ∨ _))

/-- The items overlap and none of them contains the other. -/
def Crosses (itema itemb : RegexRangeItem) : Prop :=
  itema.cmin < itemb.cmin ∧ itemb.cmin ≤ itema.cmax ∧ itema.cmax < itemb.cmax ∨
    itemb.cmin < itema.cmin ∧ itema.cmin ≤ itemb.cmax ∧ itemb.cmax < itema.cmax

instance : DecidableRel Crosses :=
  fun _ _ => inferInstanceAs (Decidable (_ ∨ _))

theorem Apart.symm {itema itemb : RegexRangeItem} (apart : itema.Apart itemb) :
    itemb.Apart itema :=
  Or.symm apart

instance : Std.Symm Apart :=
  ⟨fun _ _ => Apart.symm⟩

end RegexRangeItem

def Normal (ranges : List RegexRangeItem) : Prop :=
  ranges.Pairwise RegexRangeItem.Apart

instance : DecidablePred Normal :=
  fun ranges => inferInstanceAs (Decidable (ranges.Pairwise RegexRangeItem.Apart))

def Covered (ranges : List RegexRangeItem) (code : Nat) : Prop :=
  ∃ item ∈ ranges, item.covers code

section

variable {ranges others : List RegexRangeItem} {itema itemb : RegexRangeItem} {code : Nat}

theorem covered_cons (item : RegexRangeItem) (ranges : List RegexRangeItem) (code : Nat) :
    Covered (item :: ranges) code ↔ item.covers code ∨ Covered ranges code := by
  simp [Covered]

theorem covered_concat (ranges : List RegexRangeItem) (item : RegexRangeItem) (code : Nat) :
    Covered (ranges ++ [item]) code ↔ Covered ranges code ∨ item.covers code := by
  simp [Covered, or_and_right, exists_or]

theorem covered_perm (same : ranges.Perm others) (code : Nat) :
    Covered ranges code ↔ Covered others code := by
  simp only [Covered, same.mem_iff]

theorem normal_perm (same : ranges.Perm others) : Normal ranges ↔ Normal others :=
  same.pairwise_iff RegexRangeItem.Apart.symm

theorem normal_concat :
    Normal (ranges ++ [itemb]) ↔ Normal ranges ∧ ∀ item ∈ ranges, item.Apart itemb := by
  simp [Normal, List.pairwise_append]

theorem perm_eraseIdx {index : Nat} (here : ranges[index]? = some itema) :
    ranges.Perm (itema :: ranges.eraseIdx index) := by
  obtain ⟨bound, rfl⟩ := List.getElem?_eq_some_iff.mp here
  exact (List.getElem_cons_eraseIdx_perm bound).symm

end

/-! What the loop of rangeAdd finds. -/

/-- The new item takes the place of a listed one that it contains or touches. -/
inductive Replaces (itemb itema : RegexRangeItem) (cmin cmax : Nat) : Prop
  | absorbed (within : itema.within itemb = true) (low : cmin = itemb.cmin)
      (high : cmax = itemb.cmax)
  | below (touches : itemb.cmax + 1 = itema.cmin) (low : cmin = itemb.cmin)
      (high : cmax = itema.cmax)
  | above (touches : itema.cmax + 1 = itemb.cmin) (low : cmin = itema.cmin)
      (high : cmax = itemb.cmax)

inductive Scanned (itemb : RegexRangeItem) (ranges : List RegexRangeItem) :
    Option RangeStep → Prop
  | absorbs (index : Nat) (itema : RegexRangeItem) (here : ranges[index]? = some itema)
      (replaces : Replaces itemb itema itemb.cmin itemb.cmax) :
      Scanned itemb ranges (some (.absorbs index))
  | known (itema : RegexRangeItem) (listed : itema ∈ ranges)
      (within : itemb.within itema = true) : Scanned itemb ranges (some .known)
  | joins (index : Nat) (itema : RegexRangeItem) (cmin cmax : Nat)
      (here : ranges[index]? = some itema) (replaces : Replaces itemb itema cmin cmax) :
      Scanned itemb ranges (some (.joins index cmin cmax))
  | none (free : ∀ itema ∈ ranges, itema.Apart itemb ∨ itema.Crosses itemb) :
      Scanned itemb ranges none

theorem rangeScan_scanned (itemb : RegexRangeItem) {before : List RegexRangeItem}
    (free : ∀ itema ∈ before, itema.Apart itemb ∨ itema.Crosses itemb)
    (ranges : List RegexRangeItem) :
    Scanned itemb (before ++ ranges) (rangeScan itemb before.length ranges) := by
  induction ranges generalizing before with
  | nil =>
      rw [rangeScan, List.append_nil]
      exact .none free
  | cons itema ranges induction =>
      have here : (before ++ itema :: ranges)[before.length]? = some itema := by simp
      have listed : itema ∈ before ++ itema :: ranges := by simp
      rw [rangeScan]
      split
      · exact .absorbs _ itema here (.absorbed ‹_› rfl rfl)
      split
      · exact .known itema listed ‹_›
      split
      · exact .joins _ itema _ _ here (.below ‹_› rfl rfl)
      split
      · exact .joins _ itema _ _ here (.above ‹_› rfl rfl)
      · rename_i outside inside beneath beyond
        have next : itema.Apart itemb ∨ itema.Crosses itemb := by
          have orderedA := itema.ordered
          have orderedB := itemb.ordered
          simp only [RegexRangeItem.within, Bool.and_eq_true, decide_eq_true_eq] at outside inside
          simp only [RegexRangeItem.Apart, RegexRangeItem.Crosses]
          omega
        have later := @induction (before ++ [itema]) fun item member =>
          (List.mem_append.mp member).elim (free item) fun last =>
            List.mem_singleton.mp last ▸ next
        simpa using later

theorem Replaces.ordered {itema itemb : RegexRangeItem} {cmin cmax : Nat}
    (replaces : Replaces itemb itema cmin cmax) : cmin ≤ cmax := by
  have orderedA := itema.ordered
  have orderedB := itemb.ordered
  cases replaces <;> omega

namespace Replaces

variable {itema itemb new : RegexRangeItem} (replaces : Replaces itemb itema new.cmin new.cmax)

include replaces

theorem covers (code : Nat) :
    new.covers code ↔ itema.covers code ∨ itemb.covers code := by
  have orderedA := itema.ordered
  have orderedB := itemb.ordered
  simp only [RegexRangeItem.covers]
  cases replaces with
  | absorbed within low high =>
      simp only [RegexRangeItem.within, Bool.and_eq_true, decide_eq_true_eq] at within
      omega
  | below touches low high => omega
  | above touches low high => omega

/-- An item apart from the one replaced crosses the new item if it crosses the inserted one. -/
theorem crosses {other : RegexRangeItem} (apart : itema.Apart other) :
    other.Crosses new ↔ other.Crosses itemb := by
  have orderedA := itema.ordered
  have orderedB := itemb.ordered
  have orderedOther := other.ordered
  simp only [RegexRangeItem.Crosses, RegexRangeItem.Apart] at apart ⊢
  cases replaces with
  | absorbed within low high => omega
  | below touches low high => omega
  | above touches low high => omega

theorem not_crosses : ¬ itema.Crosses itemb := by
  have orderedA := itema.ordered
  have orderedB := itemb.ordered
  simp only [RegexRangeItem.Crosses]
  cases replaces with
  | absorbed within low high =>
      simp only [RegexRangeItem.within, Bool.and_eq_true, decide_eq_true_eq] at within
      omega
  | below touches low high => omega
  | above touches low high => omega

end Replaces

/-! What rangeAdd makes of a list. -/

theorem rangeAddLoop_spec {fuel : Nat} {ranges : List RegexRangeItem}
    (enough : ranges.length ≤ fuel) (itemb : RegexRangeItem) (items : Nat) :
    ∃ added items', rangeAddLoop fuel ranges itemb items = some (added, items') ∧
      (∀ code, Covered added code ↔ Covered ranges code ∨ itemb.covers code) ∧
      (Normal ranges → (Normal added ↔ ∀ itema ∈ ranges, ¬ itema.Crosses itemb)) := by
  induction fuel generalizing ranges itemb items with
  | zero =>
      obtain rfl := List.length_eq_zero_iff.mp (Nat.le_zero.mp enough)
      refine ⟨_, items, rfl, covered_concat [] itemb, fun _ => ?_⟩
      simp [Normal]
  | succ fuel induction =>
      rw [rangeAddLoop]
      have scanned : Scanned itemb ranges (rangeScan itemb 0 ranges) :=
        @rangeScan_scanned itemb [] (fun _ absent => absurd absent List.not_mem_nil) ranges
      -- the two branches that put a new item in the place of a listed one
      have replaced : ∀ {index : Nat} {itema new : RegexRangeItem} (items : Nat),
          ranges[index]? = some itema → Replaces itemb itema new.cmin new.cmax →
          ∃ added items', rangeAddLoop fuel (ranges.eraseIdx index) new items =
            some (added, items') ∧
            (∀ code, Covered added code ↔ Covered ranges code ∨ itemb.covers code) ∧
            (Normal ranges → (Normal added ↔ ∀ itema ∈ ranges, ¬ itema.Crosses itemb)) := by
        intro index itema new items here replaces
        have same := perm_eraseIdx here
        have fewer : (ranges.eraseIdx index).length ≤ fuel := by
          have length := same.length_eq
          rw [List.length_cons] at length
          omega
        obtain ⟨added, items', returned, union, normal⟩ := induction fewer new items
        refine ⟨added, items', returned, fun code => ?_, fun before => ?_⟩
        · rw [union, covered_perm same, covered_cons, replaces.covers]
          tauto
        · have apart := List.pairwise_cons.mp ((normal_perm same).mp before)
          rw [normal apart.2]
          simp only [same.mem_iff, List.forall_mem_cons]
          refine ⟨fun free => ⟨replaces.not_crosses, fun other member => ?_⟩,
            fun free other member => ?_⟩
          · exact mt (replaces.crosses (apart.1 other member)).mpr (free other member)
          · exact mt (replaces.crosses (apart.1 other member)).mp (free.2 other member)
      generalize rangeScan itemb 0 ranges = step at scanned ⊢
      cases scanned with
      | absorbs index itema here replaces => exact replaced items here replaces
      | joins index itema cmin cmax here replaces =>
          have ordered := replaces.ordered
          simp only [newItem, ordered, dif_pos]
          exact @replaced index itema ⟨items, cmin, cmax, ordered⟩ (items + 1) here replaces
      | known itema listed within =>
          simp only [RegexRangeItem.within, Bool.and_eq_true, decide_eq_true_eq] at within
          refine ⟨ranges, items, rfl, fun code => ?_, fun before => ?_⟩
          · refine ⟨.inl, fun either => either.elim id fun inside => ?_⟩
            exact ⟨itema, listed, Nat.le_trans within.1 inside.1,
              Nat.le_trans inside.2 within.2⟩
          · refine iff_of_true before fun other member => ?_
            by_cases same : other = itema
            · subst same
              simp only [RegexRangeItem.Crosses]
              omega
            · have apart := List.Pairwise.forall before member listed same
              have ordered := itemb.ordered
              simp only [RegexRangeItem.Apart, RegexRangeItem.Crosses] at apart ⊢
              omega
      | none free =>
          refine ⟨_, items, rfl, covered_concat ranges itemb, fun before => ?_⟩
          rw [normal_concat]
          refine ⟨fun after itema member => ?_, fun uncrossed => ⟨before, fun itema member => ?_⟩⟩
          · have apart := after.2 itema member
            have orderedA := itema.ordered
            have orderedB := itemb.ordered
            simp only [RegexRangeItem.Apart, RegexRangeItem.Crosses] at apart ⊢
            omega
          · exact (free itema member).resolve_right (uncrossed itema member)

theorem rangeAdd_spec (ranges : List RegexRangeItem) (itemb : RegexRangeItem) (items : Nat) :
    ∃ added items', rangeAdd ranges itemb items = some (added, items') ∧
      (∀ code, Covered added code ↔ Covered ranges code ∨ itemb.covers code) ∧
      (Normal ranges → (Normal added ↔ ∀ itema ∈ ranges, ¬ itema.Crosses itemb)) :=
  rangeAddLoop_spec (Nat.le_refl _) itemb items

/-! Sequences of insertions, from the empty list. -/

abbrev Inserting := List RegexRangeItem × Nat

/-- One insertion; rangeAdd always returns. -/
def insertItem (state : Inserting) (itemb : RegexRangeItem) : Inserting :=
  (rangeAdd state.1 itemb state.2).getD state

/-- Every listed item contains the inserted one, is contained in it or has no character of it. -/
def Uncrossed (state : Inserting) (itemb : RegexRangeItem) : Prop :=
  ∀ itema ∈ state.1, ¬ itema.Crosses itemb

instance (state : Inserting) : DecidablePred (Uncrossed state) :=
  fun _ => inferInstanceAs (Decidable (∀ _ ∈ _, _))

theorem insertItem_eq (state : Inserting) (itemb : RegexRangeItem) :
    rangeAdd state.1 itemb state.2 = some (insertItem state itemb) := by
  obtain ⟨added, items, returned, -⟩ := rangeAdd_spec state.1 itemb state.2
  rw [insertItem, returned]
  rfl

theorem insertItem_covered (state : Inserting) (itemb : RegexRangeItem) (code : Nat) :
    Covered (insertItem state itemb).1 code ↔ Covered state.1 code ∨ itemb.covers code := by
  obtain ⟨added, items, returned, union, -⟩ := rangeAdd_spec state.1 itemb state.2
  rw [insertItem, returned]
  exact union code

theorem insertItem_normal {state : Inserting} (normal : Normal state.1)
    (itemb : RegexRangeItem) :
    Normal (insertItem state itemb).1 ↔ Uncrossed state itemb := by
  obtain ⟨added, items, returned, -, kept⟩ := rangeAdd_spec state.1 itemb state.2
  rw [insertItem, returned]
  exact kept normal

theorem rangeAddAll_eq (inserted ranges : List RegexRangeItem) (items : Nat) :
    rangeAddAll ranges inserted items = some (run insertItem (ranges, items) inserted) := by
  induction inserted generalizing ranges items with
  | nil => rfl
  | cons item inserted induction =>
      rw [rangeAddAll, insertItem_eq (ranges, items) item]
      exact induction _ _

theorem run_covered (inserted : List RegexRangeItem) (state : Inserting) (code : Nat) :
    Covered (run insertItem state inserted).1 code ↔
      Covered state.1 code ∨ Covered inserted code := by
  induction inserted generalizing state with
  | nil => simp [Covered]
  | cons item inserted induction =>
      rw [run_cons, induction, insertItem_covered, covered_cons, or_assoc]

/-- The list rangeAdd keeps is in normal form and covers what was inserted. -/
def KeepsNormalForm (inserted : List RegexRangeItem) (items : Nat) : Prop :=
  ∃ ranges items', rangeAddAll [] inserted items = some (ranges, items') ∧ Normal ranges ∧
    ∀ code, Covered ranges code ↔ Covered inserted code

theorem keepsNormalForm_iff (inserted : List RegexRangeItem) (items : Nat) :
    KeepsNormalForm inserted items ↔ Normal (run insertItem ([], items) inserted).1 := by
  refine ⟨fun ⟨ranges, items', returned, normal, union⟩ => ?_, fun normal => ?_⟩
  · have same := (rangeAddAll_eq inserted [] items).symm.trans returned
    rw [Option.some.inj same]
    exact normal
  · refine ⟨_, _, rangeAddAll_eq inserted [] items, normal, fun code => ?_⟩
    exact (run_covered inserted ([], items) code).trans (by simp [Covered])

/-- The normal form is kept all along a sequence of insertions exactly if no inserted item
crosses one that is listed when it is inserted. -/
theorem rangeAdd_keepsNormalForm_iff (inserted : List RegexRangeItem) (items : Nat) :
    (∀ before, before <+: inserted → KeepsNormalForm before items) ↔
      Guarded insertItem Uncrossed ([], items) inserted := by
  have start : Normal (([], items) : Inserting).1 := List.Pairwise.nil
  simp only [keepsNormalForm_iff]
  refine guarded_iff_throughout (fun state : Inserting => Normal state.1)
    (fun state : Inserting => Normal state.1) (fun _ => id)
    (fun state item normal uncrossed => ?_) (fun state item normal crossed => ?_)
    start inserted
  · exact (insertItem_normal normal item).mpr uncrossed
  · exact mt (insertItem_normal normal item).mp crossed

/-- `[a-c]` and then `[b-d]` are both kept. -/
theorem rangeAdd_not_keepsNormalForm :
    ¬ ∀ inserted items, KeepsNormalForm inserted items := by
  intro keeps
  have normal := (keepsNormalForm_iff _ 2).mp
    (keeps [⟨0, 97, 99, by decide⟩, ⟨1, 98, 100, by decide⟩] 2)
  revert normal
  decide

end Segvault.HachoirRegex
