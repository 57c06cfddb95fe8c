import Segvault.Spans
import Mathlib.Tactic.NormNum

namespace Segvault.Spans

open Relation

universe u

variable {α : Type u}

/-! A repetition of a repetition. -/

def Within (least : Nat) (most : Option Nat) (count : Nat) : Prop :=
  least ≤ count ∧ ∀ bound ∈ most, count ≤ bound

/-- `total` is the sum of so many `parts`, each within the bounds. -/
def Splits (least : Nat) (most : Option Nat) (parts total : Nat) : Prop :=
  least * parts ≤ total ∧
    match most with
    | some bound => total ≤ bound * parts
    | none => parts = 0 → total = 0

theorem splits_zero {least : Nat} {most : Option Nat} {total : Nat} :
    Splits least most 0 total ↔ total = 0 := by
  cases most <;> simp [Splits]

theorem splits_succ {least : Nat} {most : Option Nat} (ordered : ∀ bound ∈ most, least ≤ bound)
    {parts total : Nat} :
    Splits least most (parts + 1) total ↔
      ∃ first rest, first + rest = total ∧ Within least most first ∧
        Splits least most parts rest := by
  cases most with
  | none =>
      simp only [Splits, Within, Option.not_mem_none, false_imp_iff, implies_true, and_true,
        Nat.add_eq_zero_iff, one_ne_zero, and_false, Nat.mul_succ]
      constructor
      · intro enough
        exact ⟨total - least * parts, least * parts, by omega, by omega, Nat.le_refl _,
          fun none => by simp [none]⟩
      · rintro ⟨first, rest, rfl, atLeast, restLeast, _⟩
        omega
  | some bound =>
      have inside := ordered bound rfl
      have grows := Nat.mul_le_mul_right parts inside
      simp only [Splits, Within, Option.mem_def, Option.some.injEq, forall_eq', Nat.mul_succ]
      constructor
      · rintro ⟨enough, notMore⟩
        refine ⟨max least (total - bound * parts), total - max least (total - bound * parts),
          ?_, ?_, ?_⟩ <;> omega
      · rintro ⟨first, rest, rfl, firstWithin, restWithin⟩
        omega

theorem times_add (r : α → α → Prop) (first second : Nat) :
    times r (first + second) = Comp (times r first) (times r second) := by
  induction first with
  | zero => rw [Nat.zero_add, times, eq_comp]
  | succ first induction => rw [Nat.succ_add, times, times, induction, comp_assoc]

theorem times_repeated (r : α → α → Prop) {least : Nat} {most : Option Nat}
    (ordered : ∀ bound ∈ most, least ≤ bound) (parts : Nat) (i k : α) :
    times (repeated r least most) parts i k ↔
      ∃ total, Splits least most parts total ∧ times r total i k := by
  induction parts generalizing i with
  | zero =>
      simp only [splits_zero]
      exact ⟨fun same => ⟨0, rfl, same⟩, fun ⟨_, zero, same⟩ => by rw [zero] at same; exact same⟩
  | succ parts induction =>
      rw [times]
      constructor
      · rintro ⟨j, ⟨first, atLeast, atMost, before⟩, after⟩
        obtain ⟨rest, splits, after⟩ := (induction j).mp after
        refine ⟨first + rest,
          (splits_succ ordered).mpr ⟨first, rest, rfl, ⟨atLeast, atMost⟩, splits⟩, ?_⟩
        rw [times_add]
        exact ⟨j, before, after⟩
      · rintro ⟨total, splits, whole⟩
        obtain ⟨first, rest, rfl, ⟨atLeast, atMost⟩, splits⟩ := (splits_succ ordered).mp splits
        rw [times_add] at whole
        obtain ⟨j, before, after⟩ := whole
        exact ⟨j, ⟨first, atLeast, atMost, before⟩, (induction j).mpr ⟨rest, splits, after⟩⟩

/-- How often `r` is repeated in `(r{least,most}){low,high}`. -/
def Nested (least : Nat) (most : Option Nat) (low : Nat) (high : Option Nat)
    (total : Nat) : Prop :=
  ∃ parts, Within low high parts ∧ Splits least most parts total

theorem repeated_repeated (r : α → α → Prop) {least : Nat} {most : Option Nat}
    (ordered : ∀ bound ∈ most, least ≤ bound) (low : Nat) (high : Option Nat) (i k : α) :
    repeated (repeated r least most) low high i k ↔
      ∃ total, Nested least most low high total ∧ times r total i k := by
  constructor
  · rintro ⟨parts, atLeast, atMost, whole⟩
    obtain ⟨total, splits, whole⟩ := (times_repeated r ordered parts i k).mp whole
    exact ⟨total, ⟨parts, ⟨atLeast, atMost⟩, splits⟩, whole⟩
  · rintro ⟨total, ⟨parts, ⟨atLeast, atMost⟩, splits⟩, whole⟩
    exact ⟨parts, atLeast, atMost, (times_repeated r ordered parts i k).mpr ⟨total, splits, whole⟩⟩

/-! The products of the bounds as bounds of one repetition. -/

def product (most high : Option Nat) : Option Nat :=
  match most, high with
  | some most, some high => some (most * high)
  | _, _ => none

theorem Nested.within {least : Nat} {most : Option Nat} {low : Nat} {high : Option Nat}
    {total : Nat} (nested : Nested least most low high total) :
    Within (least * low) (product most high) total := by
  obtain ⟨parts, ⟨atLeast, atMost⟩, enough, notMore⟩ := nested
  refine ⟨(Nat.mul_le_mul_left least atLeast).trans enough, ?_⟩
  cases most with
  | none => simp [product]
  | some most =>
      cases high with
      | none => simp [product]
      | some high =>
          simp only [product, Option.mem_def, Option.some.injEq, forall_eq']
          exact notMore.trans (Nat.mul_le_mul_left most (atMost high rfl))

/-- A count within the products that no nested repetition has. -/
def Missing (least : Nat) (most : Option Nat) (low : Nat) (high : Option Nat)
    (total : Nat) : Prop :=
  Within (least * low) (product most high) total ∧ ¬ Nested least most low high total

/-- The intervals from `least * parts` to `most * parts` leave no gap. -/
def Gapless (least : Nat) (most : Option Nat) (low : Nat) (high : Option Nat) : Prop :=
  high = some low ∨
    match most with
    | some most => least * (low + 1) ≤ most * low + 1
    | none => low ≠ 0 ∨ least ≤ 1

instance (least : Nat) (most : Option Nat) (low : Nat) (high : Option Nat) :
    Decidable (Gapless least most low high) := by
  unfold Gapless
  cases most <;> exact inferInstance

/-- The bounds that a repetition can have: not `{..,0}`. -/
structure Bounds (least : Nat) (most : Option Nat) : Prop where
  ordered : ∀ bound ∈ most, least ≤ bound
  positive : ∀ bound ∈ most, bound ≠ 0

section Gaps

variable {least : Nat} {most : Option Nat} {low : Nat} {high : Option Nat}

/-- Consecutive intervals touch from the first on when the first two do. -/
theorem touches_later {most parts : Nat} (ordered : least ≤ most)
    (touch : least * (low + 1) ≤ most * low + 1) (later : low ≤ parts) :
    least * (parts + 1) ≤ most * parts + 1 := by
  obtain ⟨more, rfl⟩ := Nat.exists_eq_add_of_le later
  have grows := Nat.mul_le_mul_right more ordered
  simp only [Nat.mul_add, Nat.mul_one] at touch ⊢
  omega

/-- The first interval that ends at `total` or later also begins before it. -/
theorem nested_of_touch {most : Nat} (ordered : least ≤ most) (positive : most ≠ 0)
    (touch : least * (low + 1) ≤ most * low + 1) {total : Nat}
    (within : Within (least * low) (product (some most) high) total)
    (nonempty : ∀ bound ∈ high, low ≤ bound) : Nested least (some most) low high total := by
  have ends : ∃ parts, low ≤ parts ∧ total ≤ most * parts :=
    ⟨low + total, Nat.le_add_right _ _,
      (Nat.le_mul_of_pos_left total (Nat.pos_of_ne_zero positive)).trans
        (Nat.mul_le_mul_left most (Nat.le_add_left _ _))⟩
  obtain ⟨first, reaches⟩ := Nat.find_spec ends
  have least' := fun parts => Nat.find_min ends (m := parts)
  generalize Nat.find ends = parts at first reaches least'
  refine ⟨parts, ⟨first, fun bound below => ?_⟩, ?_, reaches⟩
  · cases below
    have reached : total ≤ most * bound := within.2 _ rfl
    by_contra past
    exact least' bound (by omega) ⟨nonempty bound rfl, reached⟩
  · obtain rfl | later := Nat.eq_or_lt_of_le first
    · exact within.1
    · obtain ⟨before, rfl⟩ : ∃ before, parts = before + 1 := ⟨parts - 1, by omega⟩
      have short : ¬ total ≤ most * before := fun reached =>
        least' before (Nat.lt_succ_self _) ⟨Nat.le_of_lt_succ later, reached⟩
      have step := touches_later ordered touch (Nat.le_of_lt_succ later)
      omega

theorem nested_of_gapless (inner : Bounds least most) (outer : Bounds low high)
    (gapless : Gapless least most low high) {total : Nat}
    (within : Within (least * low) (product most high) total) :
    Nested least most low high total := by
  have exactly : Within low high low :=
    ⟨Nat.le_refl _, outer.ordered⟩
  cases most with
  | none =>
      by_cases some : low = 0
      · subst some
        cases gapless with
        | inl single => exact absurd rfl (outer.positive 0 single)
        | inr either =>
            have small := either.resolve_left (by simp)
            by_cases empty : total = 0
            · exact ⟨0, exactly, by simp [Splits, empty]⟩
            · refine ⟨1, ⟨Nat.zero_le _, fun bound below => ?_⟩, by omega, by simp⟩
              exact Nat.one_le_iff_ne_zero.mpr (outer.positive bound below)
      · exact ⟨low, exactly, within.1, fun none => absurd none some⟩
  | some most =>
      cases gapless with
      | inr touch =>
          exact nested_of_touch (inner.ordered most rfl) (inner.positive most rfl) touch within
            outer.ordered
      | inl single =>
          subst single
          exact ⟨low, exactly, within.1, within.2 _ rfl⟩

/-- The first number after the first interval is missing when the second one begins
later. -/
theorem missing_after_first {most : Nat} (positive : most ≠ 0) (ordered : least ≤ most)
    (gap : most * low + 1 < least * (low + 1)) (more : ∀ bound ∈ high, low + 1 ≤ bound) :
    Missing least (some most) low high (most * low + 1) := by
  refine ⟨⟨(Nat.mul_le_mul_right low ordered).trans (Nat.le_succ _), ?_⟩, ?_⟩
  · cases high with
    | none => simp [product]
    | some high =>
        simp only [product, Option.mem_def, Option.some.injEq, forall_eq']
        have grows := Nat.mul_le_mul_left most (more high rfl)
        rw [Nat.mul_succ] at grows
        omega
  · rintro ⟨parts, ⟨atLeast, _⟩, enough, notMore⟩
    obtain rfl | later := Nat.eq_or_lt_of_le atLeast
    · exact Nat.lt_irrefl _ notMore
    · have grows := Nat.mul_le_mul_left least (Nat.succ_le_of_lt later)
      rw [Nat.succ_eq_add_one] at grows
      omega

/-- One is missing from no or at least two repetitions. -/
theorem missing_one (several : 1 < least) (high : Option Nat) :
    Missing least none 0 high 1 := by
  refine ⟨⟨by simp, by simp [product]⟩, ?_⟩
  rintro ⟨parts, _, enough, nothing⟩
  obtain rfl | some := Nat.eq_zero_or_pos parts
  · exact absurd (nothing rfl) (by simp)
  · have grows := Nat.mul_le_mul_left least (Nat.succ_le_of_lt some)
    rw [Nat.succ_eq_add_one, Nat.zero_add, Nat.mul_one] at grows
    omega

theorem gapless_iff (inner : Bounds least most) (outer : Bounds low high) :
    Gapless least most low high ↔ ∀ total, ¬ Missing least most low high total := by
  constructor
  · intro gapless total missing
    exact missing.2 (nested_of_gapless inner outer gapless missing.1)
  · intro none
    by_contra gaps
    obtain ⟨several, gap⟩ := not_or.mp gaps
    have more : ∀ bound ∈ high, low + 1 ≤ bound := by
      intro bound below
      refine Nat.lt_of_le_of_ne (outer.ordered bound below) fun same => several ?_
      rw [Option.mem_def.mp below, same]
    cases most with
    | none =>
        simp only [not_or, not_not, not_le] at gap
        obtain ⟨rfl, gap⟩ := gap
        exact none 1 (missing_one gap high)
    | some most =>
        simp only [not_le] at gap
        exact none _ (missing_after_first (inner.positive most rfl) (inner.ordered most rfl) gap
          more)

/-- One repetition with the products of the bounds matches what the two repetitions
do when `r` repeated a missing number of times matches nothing more. -/
theorem repeated_product_iff (r : α → α → Prop) (inner : Bounds least most) :
    repeated r (least * low) (product most high) =
        repeated (repeated r least most) low high ↔
      ∀ total, Missing least most low high total →
        times r total ≤ repeated (repeated r least most) low high := by
  constructor
  · intro same total missing i k whole
    rw [← same]
    exact ⟨total, missing.1.1, missing.1.2, whole⟩
  · intro filled
    funext i k
    apply propext
    constructor
    · rintro ⟨total, atLeast, atMost, whole⟩
      by_cases nested : Nested least most low high total
      · exact (repeated_repeated r inner.ordered low high i k).mpr ⟨total, nested, whole⟩
      · exact filled total ⟨⟨atLeast, atMost⟩, nested⟩ i k whole
    · intro whole
      obtain ⟨total, nested, whole⟩ := (repeated_repeated r inner.ordered low high i k).mp whole
      exact ⟨total, nested.within.1, nested.within.2, whole⟩

end Gaps

/-! A repetition of a choice. -/

theorem choice_iff {rs : List (α → α → Prop)} {i j : α} :
    choice rs i j ↔ ∃ r ∈ rs, r i j := by
  induction rs with
  | nil =>
      refine ⟨fun here => here.elim, ?_⟩
      rintro ⟨r, member, _⟩
      cases member
  | cons r rs induction =>
      rw [choice_cons]
      constructor
      · rintro (here | later)
        · exact ⟨r, List.mem_cons_self, here⟩
        · obtain ⟨other, member, here⟩ := induction.mp later
          exact ⟨other, List.mem_cons_of_mem _ member, here⟩
      · rintro ⟨other, member, here⟩
        obtain rfl | member := List.mem_cons.mp member
        · exact .inl here
        · exact .inr (induction.mpr ⟨other, member, here⟩)

theorem times_one (r : α → α → Prop) : times r 1 = r := comp_eq

theorem comp_mono {r p r' p' : α → α → Prop} (first : r ≤ r') (second : p ≤ p') :
    Comp r p ≤ Comp r' p' :=
  fun _ _ ⟨j, before, after⟩ => ⟨j, first _ _ before, second _ _ after⟩

theorem times_mono {r p : α → α → Prop} (less : r ≤ p) (count : Nat) :
    times r count ≤ times p count := by
  induction count with
  | zero => exact le_refl _
  | succ count induction => exact comp_mono less induction

theorem repeated_mono {r p : α → α → Prop} (less : r ≤ p) (least : Nat) (most : Option Nat) :
    repeated r least most ≤ repeated p least most :=
  fun i j ⟨count, atLeast, atMost, here⟩ =>
    ⟨count, atLeast, atMost, times_mono less count i j here⟩

theorem times_le_repeated {r : α → α → Prop} {least count : Nat} (enough : least ≤ count) :
    times r count ≤ repeated r least none :=
  fun _ _ here => ⟨count, enough, by simp, here⟩

theorem le_repeated {r : α → α → Prop} {least : Nat} (enough : least ≤ 1) :
    r ≤ repeated r least none :=
  fun i j here => times_le_repeated enough i j (by rwa [times_one])

theorem comp_repeated_le (r : α → α → Prop) (least more : Nat) :
    Comp (repeated r least none) (repeated r more none) ≤ repeated r (least + more) none := by
  rintro i k ⟨j, ⟨first, atLeast, _, before⟩, second, atLeast', _, after⟩
  refine times_le_repeated (Nat.add_le_add atLeast atLeast') i k ?_
  rw [times_add]
  exact ⟨j, before, after⟩

theorem repeated_weaken {r : α → α → Prop} {least fewer : Nat} (less : fewer ≤ least)
    (most : Option Nat) : repeated r least most ≤ repeated r fewer most :=
  fun _ _ ⟨count, atLeast, rest⟩ => ⟨count, less.trans atLeast, rest⟩

/-! Repetitions that may match nothing. -/

theorem times_le_of_nullable {r : α → α → Prop} (nullable : Eq ≤ r) {count more : Nat}
    (less : count ≤ more) : times r count ≤ times r more := by
  induction less with
  | refl => exact le_refl _
  | step less induction =>
      exact induction.trans fun i j here => ⟨i, nullable i i rfl, here⟩

theorem repeated_of_nullable {r : α → α → Prop} (nullable : Eq ≤ r) {least : Nat}
    {most : Option Nat} (ordered : ∀ bound ∈ most, least ≤ bound) :
    repeated r least most = repeated r 0 most := by
  refine le_antisymm (repeated_weaken (Nat.zero_le _) most) ?_
  rintro i j ⟨count, _, atMost, here⟩
  refine ⟨max least count, Nat.le_max_left _ _,
    fun bound below => Nat.max_le.mpr ⟨ordered bound below, atMost bound below⟩, ?_⟩
  exact times_le_of_nullable nullable (Nat.le_max_right _ _) i j here

theorem times_of_sup_eq {r : α → α → Prop} {count : Nat} {i j : α}
    (here : times (r ⊔ Eq) count i j) : ∃ fewer ≤ count, times r fewer i j := by
  induction count generalizing i with
  | zero => exact ⟨0, Nat.le_refl _, here⟩
  | succ count induction =>
      obtain ⟨k, first | rfl, rest⟩ := here
      · obtain ⟨fewer, less, rest⟩ := induction rest
        exact ⟨fewer + 1, Nat.succ_le_succ less, k, first, rest⟩
      · obtain ⟨fewer, less, rest⟩ := induction rest
        exact ⟨fewer, less.trans (Nat.le_succ _), rest⟩

theorem repeated_sup_eq (r : α → α → Prop) (most : Option Nat) :
    repeated (r ⊔ Eq) 0 most = repeated r 0 most := by
  refine le_antisymm ?_ (repeated_mono le_sup_left 0 most)
  rintro i j ⟨count, _, atMost, here⟩
  obtain ⟨fewer, less, here⟩ := times_of_sup_eq here
  exact ⟨fewer, Nat.zero_le _, fun bound below => less.trans (atMost bound below), here⟩

/-! Repetitions without bound, of which some choices are replaced. -/

/-- `count` matches of a choice are matches of the good ones, or a bad one is among them. -/
theorem times_sup {good bad : α → α → Prop} {count : Nat} {i k : α}
    (here : times (good ⊔ bad) count i k) :
    times good count i k ∨ ∃ before after, before + after + 1 = count ∧
      Comp (times (good ⊔ bad) before) (Comp bad (times (good ⊔ bad) after)) i k := by
  induction count generalizing i with
  | zero => exact .inl here
  | succ count induction =>
      obtain ⟨j, first | first, rest⟩ := here
      · obtain all | ⟨before, after, split, l, ahead, behind⟩ := induction rest
        · exact .inl ⟨j, first, all⟩
        · exact .inr ⟨before + 1, after, by omega, l, ⟨j, .inl first, ahead⟩, behind⟩
      · exact .inr ⟨0, count, by omega, i, rfl, j, first, rest⟩

section Replaced

variable {good bad new : α → α → Prop} {least : Nat}
  (goodIn : good ≤ repeated new (min least 1) none) (newIn : new ≤ good ⊔ bad)

/-- Every run of the least length that holds a bad match is a run of the new ones. -/
def Recovered (good bad new : α → α → Prop) (least : Nat) : Prop :=
  ∀ before after, before + after + 1 = max least 1 →
    Comp (times (good ⊔ bad) before) (Comp bad (times (good ⊔ bad) after)) ≤
      repeated new least none

include goodIn in
theorem times_good_le : times good (max least 1) ≤ repeated new least none := by
  intro i j here
  obtain ⟨total, splits, whole⟩ := (times_repeated new (by simp) (max least 1) i j).mp
    (times_mono goodIn _ i j here)
  refine times_le_repeated ?_ i j whole
  have enough := splits.1
  obtain zero | positive := Nat.eq_zero_or_pos least
  · omega
  · rw [Nat.min_eq_right positive, Nat.one_mul] at enough
    exact (Nat.le_max_left _ _).trans enough

include goodIn newIn in
/-- One more match of the choice after matches of the new ones. -/
theorem comp_choice_le (recovered : Recovered good bad new least) :
    Comp (repeated new least none) (good ⊔ bad) ≤ repeated new least none := by
  rw [comp_sup]
  refine sup_le ((comp_mono (le_refl _) goodIn).trans ((comp_repeated_le _ _ _).trans
    (repeated_weaken (Nat.le_add_right _ _) _))) ?_
  rintro i k ⟨j, ⟨count, atLeast, _, before⟩, after⟩
  obtain ⟨ahead, split⟩ : ∃ ahead, count = ahead + (max least 1 - 1) :=
    ⟨count - (max least 1 - 1), by omega⟩
  rw [split, times_add] at before
  obtain ⟨l, first, window⟩ := before
  have here := recovered (max least 1 - 1) 0 (by omega) l k
    ⟨j, times_mono newIn _ l j window, k, after, rfl⟩
  have together : Comp (repeated new ahead none) (repeated new least none) i k :=
    ⟨l, times_le_repeated (Nat.le_refl _) i l first, here⟩
  exact repeated_weaken (Nat.le_add_left _ _) none i k (comp_repeated_le _ _ _ i k together)

include goodIn newIn in
theorem times_choice_le (recovered : Recovered good bad new least) (more : Nat) :
    times (good ⊔ bad) (max least 1 + more) ≤ repeated new least none := by
  induction more with
  | zero =>
      intro i k here
      obtain all | ⟨before, after, split, here⟩ := times_sup here
      · exact times_good_le goodIn i k all
      · exact recovered before after split i k here
  | succ more induction =>
      rw [← Nat.add_assoc, times_add, times_one]
      exact (comp_mono induction (le_refl _)).trans (comp_choice_le goodIn newIn recovered)

include goodIn newIn in
/-- An endless repetition of a choice in which the bad ones are replaced. -/
theorem repeated_replaced_iff :
    repeated new least none = repeated (good ⊔ bad) least none ↔
      Recovered good bad new least := by
  constructor
  · intro same before after split i k here
    rw [same]
    refine times_le_repeated (Nat.le_max_left least 1) i k ?_
    rw [← split, Nat.add_right_comm, Nat.add_assoc, times_add, times_add, times_one]
    exact comp_mono (le_refl _) (comp_mono le_sup_right (le_refl _)) i k here
  · intro recovered
    refine le_antisymm (repeated_mono newIn _ _) ?_
    rintro i k ⟨count, atLeast, _, here⟩
    by_cases enough : max least 1 ≤ count
    · obtain ⟨more, rfl⟩ := Nat.exists_eq_add_of_le enough
      exact times_choice_le goodIn newIn recovered more i k here
    · obtain ⟨rfl, rfl⟩ : least = 0 ∧ count = 0 := by omega
      exact ⟨0, Nat.le_refl _, by simp, here⟩

end Replaced

/-! Repetitions of a word. -/

theorem times_word {text : List α} (symbols : List α) (count : Nat) :
    times (@word _ text symbols) count = word (List.replicate count symbols).flatten := by
  induction count with
  | zero => exact word_nil.symm
  | succ count induction =>
      rw [times, induction, word_append, List.replicate_succ, List.flatten_cons]

theorem length_flatten_replicate (symbols : List α) (count : Nat) :
    (List.replicate count symbols).flatten.length = count * symbols.length := by
  induction count with
  | zero => simp
  | succ count induction =>
      rw [List.replicate_succ, List.flatten_cons, List.length_append, induction,
        Nat.succ_mul, Nat.add_comm]

end Segvault.Spans
