import Mathlib.Algebra.BigOperators.Group.List.Basic
import Mathlib.Algebra.Ring.Nat

namespace Segvault.Odometer

/-! Numbers as digits with a radix each, the first digit most significant. -/

def Valid (radices digits : List Nat) : Prop :=
  List.Forall₂ (fun radix digit => digit < radix) radices digits

def digits : List Nat → Nat → List Nat
  | [], _ => []
  | _ :: radices, number =>
      number / radices.prod :: digits radices (number % radices.prod)

variable {radix quotient rest number other : Nat} {radices : List Nat}

theorem digits_cons (small : rest < radices.prod) :
    digits (radix :: radices) (radices.prod * quotient + rest) =
      quotient :: digits radices rest := by
  have positive : 0 < radices.prod := Nat.zero_lt_of_lt small
  rw [digits, Nat.mul_add_div positive, Nat.div_eq_of_lt small, Nat.add_zero,
    Nat.mul_add_mod, Nat.mod_eq_of_lt small]

/-- A number below the product, as a first digit and what remains. -/
theorem exists_first (small : number < (radix :: radices).prod) :
    ∃ quotient < radix, ∃ rest < radices.prod, number = radices.prod * quotient + rest := by
  rw [List.prod_cons] at small
  have positive : 0 < radices.prod :=
    Nat.pos_of_ne_zero fun none => by simp [none] at small
  refine ⟨number / radices.prod, (Nat.div_lt_iff_lt_mul positive).mpr small,
    number % radices.prod, Nat.mod_lt _ positive, ?_⟩
  exact (Nat.div_add_mod number radices.prod).symm

theorem number_lt (first : quotient < radix) (small : rest < radices.prod) :
    radices.prod * quotient + rest < (radix :: radices).prod := by
  rw [List.prod_cons]
  calc radices.prod * quotient + rest < radices.prod * (quotient + 1) := by
        rw [Nat.mul_succ]
        exact Nat.add_lt_add_left small _
    _ ≤ radix * radices.prod := by
        rw [Nat.mul_comm]
        exact Nat.mul_le_mul_right _ first

theorem digits_valid (small : number < radices.prod) : Valid radices (digits radices number) := by
  induction radices generalizing number with
  | nil => exact .nil
  | cons radix radices induction =>
      obtain ⟨quotient, first, rest, below, rfl⟩ := exists_first small
      rw [digits_cons below]
      exact .cons first (induction below)

theorem exists_digits {ds : List Nat} (valid : Valid radices ds) :
    ∃ number < radices.prod, digits radices number = ds := by
  induction valid with
  | nil => exact ⟨0, Nat.zero_lt_one, rfl⟩
  | cons first _ induction =>
      obtain ⟨rest, below, rfl⟩ := induction
      exact ⟨_, number_lt first below, digits_cons below⟩

theorem digits_lt (small : number < radices.prod) (later : other < number) :
    digits radices other < digits radices number := by
  induction radices generalizing number other with
  | nil =>
      rw [List.prod_nil] at small
      omega
  | cons radix radices induction =>
      obtain ⟨quotient', _, rest', below', rfl⟩ := exists_first (Nat.lt_trans later small)
      obtain ⟨quotient, _, rest, below, rfl⟩ := exists_first small
      rw [digits_cons below, digits_cons below', List.cons_lt_cons_iff]
      rcases Nat.lt_trichotomy quotient' quotient with less | same | more
      · exact .inl less
      · subst same
        exact .inr ⟨rfl, induction below (by omega)⟩
      · have scaled := Nat.mul_le_mul_left radices.prod more
        rw [Nat.mul_succ] at scaled
        omega

/-! A counter shows each digit from one on. -/

def shown (ds : List Nat) : List Nat := ds.map (· + 1)

/-- One step of the counter: the carry out of the first position, and the positions. -/
def advance : List Nat → List Nat → Bool × List Nat
  | radix :: radices, count :: counts =>
      let (carry, counts) := advance radices counts
      if carry then
        if radix < count + 1 then (true, 1 :: counts) else (false, (count + 1) :: counts)
      else (false, count :: counts)
  | _, _ => (true, [])

theorem advance_shown (small : number < radices.prod) :
    advance radices (shown (digits radices number)) =
      (decide (number + 1 = radices.prod),
        shown (digits radices ((number + 1) % radices.prod))) := by
  induction radices generalizing number with
  | nil =>
      obtain rfl : number = 0 := by simpa using small
      rfl
  | cons radix radices induction =>
      obtain ⟨quotient, first, rest, below, rfl⟩ := exists_first small
      have whole : (radix :: radices).prod = radix * radices.prod := List.prod_cons
      rw [digits_cons below, shown, List.map_cons, ← shown, advance, induction below]
      by_cases last : rest + 1 = radices.prod
      · rw [decide_eq_true last, last, Nat.mod_self,
          Nat.add_assoc (radices.prod * quotient) rest 1, last, ← Nat.mul_succ]
        by_cases top : quotient + 1 = radix
        · have full : radices.prod * (quotient + 1) = (radix :: radices).prod := by
            rw [top, whole, Nat.mul_comm]
          have start := @digits_cons radix 0 0 radices (Nat.zero_lt_of_lt below)
          rw [full, Nat.mod_self, decide_eq_true rfl]
          simp only [if_true, if_pos (show radix < quotient + 1 + 1 by omega)]
          rw [Nat.mul_zero, Nat.zero_add] at start
          rw [start]
          rfl
        · have next : radices.prod * (quotient + 1) < (radix :: radices).prod :=
            @number_lt radix _ 0 radices (by omega) (Nat.zero_lt_of_lt below)
          rw [Nat.mod_eq_of_lt next, decide_eq_false next.ne]
          simp only [if_true, if_neg (show ¬ radix < quotient + 1 + 1 by omega)]
          rw [← Nat.add_zero (radices.prod * (quotient + 1)),
            digits_cons (Nat.zero_lt_of_lt below)]
          rfl
      · have further : rest + 1 < radices.prod := by omega
        have next := number_lt first further
        rw [decide_eq_false last, Nat.add_assoc (radices.prod * quotient) rest 1,
          Nat.mod_eq_of_lt next, Nat.mod_eq_of_lt further, decide_eq_false next.ne,
          digits_cons further]
        rfl

theorem digits_zero (radices : List Nat) :
    digits radices 0 = List.replicate radices.length 0 := by
  induction radices with
  | nil => rfl
  | cons radix radices induction =>
      rw [digits, Nat.zero_div, Nat.zero_mod, induction, List.length_cons, List.replicate_succ]

/-- The counter that starts one below its first value. -/
theorem advance_below (nonempty : radices ≠ []) (positive : ∀ radix ∈ radices, 0 < radix) :
    advance radices (List.replicate (radices.length - 1) 1 ++ [0]) =
      (false, shown (digits radices 0)) := by
  rw [digits_zero, shown, List.map_replicate]
  induction radices with
  | nil => exact absurd rfl nonempty
  | cons radix radices induction =>
      cases radices with
      | nil =>
          have first := positive radix List.mem_cons_self
          simp only [List.length_singleton, Nat.sub_self, List.replicate_zero, List.nil_append,
            advance, if_true, if_neg (show ¬ radix < 0 + 1 by omega)]
          rfl
      | cons second radices =>
          have later := induction (by simp) fun radix member =>
            positive radix (List.mem_cons_of_mem _ member)
          rw [List.length_cons, Nat.add_sub_cancel] at later ⊢
          rw [List.length_cons, List.replicate_succ, List.cons_append, advance, later]
          rfl

/-- The counter is full at the last number. -/
theorem shown_eq_radices (small : number < radices.prod) :
    shown (digits radices number) = radices ↔ number + 1 = radices.prod := by
  induction radices generalizing number with
  | nil => simpa [shown, digits] using small
  | cons radix radices induction =>
      obtain ⟨quotient, first, rest, below, rfl⟩ := exists_first small
      rw [digits_cons below, shown, List.map_cons, ← shown, List.cons_eq_cons, induction below,
        List.prod_cons]
      constructor
      · rintro ⟨rfl, last⟩
        rw [Nat.add_assoc, last, Nat.succ_mul, Nat.mul_comm]
      · intro full
        have bound : radices.prod * (quotient + 1) ≤ radix * radices.prod := by
          rw [Nat.mul_comm]
          exact Nat.mul_le_mul_right _ first
        rw [← full, Nat.mul_succ] at bound
        have last : rest + 1 = radices.prod := by omega
        refine ⟨?_, last⟩
        rw [Nat.add_assoc, last, ← Nat.mul_succ, Nat.mul_comm] at full
        exact Nat.eq_of_mul_eq_mul_right (Nat.zero_lt_of_lt below) full

end Segvault.Odometer
