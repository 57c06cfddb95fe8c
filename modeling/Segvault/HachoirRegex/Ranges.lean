import Segvault.HachoirRegex.Equal

namespace Segvault.HachoirRegex

open Relation Spans

/-! The characters of a list of range items, and rangeAdd. -/

@[simp] theorem rangesAdmit_nil (char : UInt8) : ¬ rangesAdmit [] char :=
  fun ⟨_, member, _⟩ => List.not_mem_nil member

theorem rangesAdmit_cons (item : RegexRangeItem) (ranges : List RegexRangeItem) (char : UInt8) :
    rangesAdmit (item :: ranges) char ↔ item.admits char ∨ rangesAdmit ranges char := by
  constructor
  · rintro ⟨other, member, inside⟩
    rcases List.mem_cons.mp member with rfl | later
    · exact .inl inside
    · exact .inr ⟨other, later, inside⟩
  · rintro (inside | ⟨other, later, inside⟩)
    · exact ⟨item, List.mem_cons_self, inside⟩
    · exact ⟨other, List.mem_cons_of_mem _ later, inside⟩

theorem rangesAdmit_append (first second : List RegexRangeItem) (char : UInt8) :
    rangesAdmit (first ++ second) char ↔ rangesAdmit first char ∨ rangesAdmit second char := by
  induction first with
  | nil => simp
  | cons item first induction =>
      rw [List.cons_append, rangesAdmit_cons, rangesAdmit_cons, induction, or_assoc]

theorem admits_of_within {itema itemb : RegexRangeItem} (within : itema.within itemb = true)
    {char : UInt8} (inside : itema.admits char) : itemb.admits char := by
  simp only [RegexRangeItem.within, Bool.and_eq_true, decide_eq_true_eq] at within
  exact ⟨Nat.le_trans within.1 inside.1, Nat.le_trans inside.2 within.2⟩

/-- The characters are those of the item at the index and those of the others. -/
theorem rangesAdmit_eraseIdx {ranges : List RegexRangeItem} {index : Nat} {item : RegexRangeItem}
    (here : ranges[index]? = some item) (char : UInt8) :
    rangesAdmit ranges char ↔ rangesAdmit (ranges.eraseIdx index) char ∨ item.admits char := by
  induction ranges generalizing index with
  | nil => cases here
  | cons head ranges induction =>
      cases index with
      | zero =>
          cases here
          rw [List.eraseIdx_cons_zero, rangesAdmit_cons, or_comm]
      | succ index =>
          rw [List.eraseIdx_cons_succ, rangesAdmit_cons, rangesAdmit_cons,
            induction (by simpa using here), or_assoc]

/-- What a step of rangeAdd says of the list. -/
inductive RangeStep.Holds (itemb : RegexRangeItem) (ranges : List RegexRangeItem) :
    RangeStep → Prop
  | absorbs (index : Nat) (itema : RegexRangeItem) (here : ranges[index]? = some itema)
      (within : itema.within itemb = true) : Holds itemb ranges (.absorbs index)
  | known (itema : RegexRangeItem) (listed : itema ∈ ranges)
      (within : itemb.within itema = true) : Holds itemb ranges .known
  | joins (index : Nat) (itema : RegexRangeItem) (cmin cmax : Nat)
      (here : ranges[index]? = some itema) (ordered : cmin ≤ cmax)
      (whole : ∀ char : UInt8, cmin ≤ char.toNat ∧ char.toNat ≤ cmax ↔
        itema.admits char ∨ itemb.admits char) : Holds itemb ranges (.joins index cmin cmax)

theorem rangeScan_holds {itemb : RegexRangeItem} {before ranges : List RegexRangeItem}
    {step : RangeStep} (scanned : rangeScan itemb before.length ranges = some step) :
    step.Holds itemb (before ++ ranges) := by
  induction ranges generalizing before with
  | nil => cases scanned
  | cons itema ranges induction =>
      have here : (before ++ itema :: ranges)[before.length]? = some itema := by simp
      have listed : itema ∈ before ++ itema :: ranges := by simp
      have orderedA := itema.ordered
      have orderedB := itemb.ordered
      rw [rangeScan] at scanned
      split at scanned
      · cases scanned
        exact .absorbs _ itema here ‹_›
      split at scanned
      · cases scanned
        exact .known itema listed ‹_›
      split at scanned
      · rename_i touches
        cases scanned
        refine .joins _ itema _ _ here (by omega) fun char => ?_
        simp only [RegexRangeItem.admits]
        omega
      split at scanned
      · rename_i touches
        cases scanned
        refine .joins _ itema _ _ here (by omega) fun char => ?_
        simp only [RegexRangeItem.admits]
        omega
      · have later := @induction (before ++ [itema]) (by simpa using scanned)
        simpa using later

theorem rangesAdmit_concat (ranges : List RegexRangeItem) (item : RegexRangeItem)
    (char : UInt8) :
    rangesAdmit (ranges ++ [item]) char ↔ rangesAdmit ranges char ∨ item.admits char := by
  rw [rangesAdmit_append, rangesAdmit_cons]
  simp

theorem rangeAddLoop_returns (fuel : Nat) (ranges : List RegexRangeItem)
    (itemb : RegexRangeItem) (items : Nat) :
    ∃ added items', rangeAddLoop fuel ranges itemb items = some (added, items') ∧
      added ≠ [] ∧
      ∀ char, rangesAdmit added char ↔ rangesAdmit ranges char ∨ itemb.admits char := by
  induction fuel generalizing ranges itemb items with
  | zero => exact ⟨_, items, rfl, by simp, rangesAdmit_concat ranges itemb⟩
  | succ fuel induction =>
      cases scanned : rangeScan itemb 0 ranges with
      | none => exact ⟨_, items, by rw [rangeAddLoop, scanned], by simp,
          rangesAdmit_concat ranges itemb⟩
      | some step =>
          have holds : step.Holds itemb ranges := @rangeScan_holds itemb [] ranges step scanned
          cases holds with
          | known itema listed within =>
              refine ⟨ranges, items, by rw [rangeAddLoop, scanned],
                List.ne_nil_of_mem listed, fun char => ?_⟩
              exact ⟨.inl, fun either => either.elim id fun inside =>
                ⟨itema, listed, admits_of_within within inside⟩⟩
          | absorbs index itema here within =>
              obtain ⟨added, items', returned, some, same⟩ :=
                induction (ranges.eraseIdx index) itemb items
              refine ⟨added, items', by rw [rangeAddLoop, scanned]; exact returned, some,
                fun char => ?_⟩
              rw [same, rangesAdmit_eraseIdx here, or_assoc]
              exact or_congr_right ⟨.inr, fun either =>
                either.elim (admits_of_within within) id⟩
          | joins index itema cmin cmax here ordered whole =>
              obtain ⟨added, items', returned, some, same⟩ :=
                induction (ranges.eraseIdx index) ⟨items, cmin, cmax, ordered⟩ (items + 1)
              refine ⟨added, items', ?_, some, fun char => ?_⟩
              · rw [rangeAddLoop, scanned]
                simp only [newItem, ordered, dif_pos]
                exact returned
              · rw [same, rangesAdmit_eraseIdx here, or_assoc]
                exact or_congr_right (whole char)

theorem rangeAdd_returns (ranges : List RegexRangeItem) (itemb : RegexRangeItem) (items : Nat) :
    ∃ added items', rangeAdd ranges itemb items = some (added, items') ∧ added ≠ [] ∧
      ∀ char, rangesAdmit added char ↔ rangesAdmit ranges char ∨ itemb.admits char :=
  rangeAddLoop_returns _ _ _ _

theorem rangeAddAll_returns (ranges branges : List RegexRangeItem) (items : Nat) :
    ∃ added items', rangeAddAll ranges branges items = some (added, items') ∧
      (ranges ≠ [] ∨ branges ≠ [] → added ≠ []) ∧
      ∀ char, rangesAdmit added char ↔ rangesAdmit ranges char ∨ rangesAdmit branges char := by
  induction branges generalizing ranges items with
  | nil =>
      refine ⟨ranges, items, rfl, fun nonempty => nonempty.resolve_right (by simp), fun char => ?_⟩
      simp
  | cons item branges induction =>
      obtain ⟨once, items', returned, some, same⟩ := rangeAdd_returns ranges item items
      obtain ⟨added, items'', returnedRest, someRest, sameRest⟩ := induction once items'
      refine ⟨added, items'', ?_, fun _ => someRest (.inl some), fun char => ?_⟩
      · rw [rangeAddAll, returned]
        exact returnedRest
      · rw [sameRest, same, rangesAdmit_cons, or_assoc]

theorem rangesAdmit_of_all_within {ranges branges : List RegexRangeItem}
    (within : (branges.all fun itemb => ranges.any itemb.within) = true) {char : UInt8}
    (inside : rangesAdmit branges char) : rangesAdmit ranges char := by
  obtain ⟨itemb, listed, admits⟩ := inside
  obtain ⟨itema, member, absorbs⟩ := List.any_eq_true.mp (List.all_eq_true.mp within itemb listed)
  exact ⟨itema, member, admits_of_within absorbs admits⟩

end Segvault.HachoirRegex
