import Mathlib.Data.Nat.Size
import Mathlib.Tactic.Ring
import Segvault.Returns

namespace Segvault.Hachoir

/-! `countBits`; None is a lack of fuel. -/

/-- The first loop: the count, the value and the step after it. -/
def widen (fuel count value bits : Nat) : Option (Nat × Nat × Nat) :=
  match fuel with
  | 0 => none
  | fuel + 1 =>
      if 1 <<< bits ≤ value then widen fuel (count + bits) (value >>> bits) (bits <<< 1)
      else some (count, value, bits)

/-- The inner loop. -/
def drain (fuel count value bits : Nat) : Option (Nat × Nat) :=
  match fuel with
  | 0 => none
  | fuel + 1 =>
      if 1 <<< bits ≤ value then drain fuel (count + bits) (value >>> bits) bits
      else some (count, value)

/-- The second loop. -/
def narrow (fuel count value bits : Nat) : Option Nat :=
  match fuel with
  | 0 => none
  | fuel + 1 =>
      if 2 ≤ value then do
        let bits := if bits ≠ 1 then bits >>> 1 else bits - 1
        let (count, value) ← drain fuel count value bits
        narrow fuel count value bits
      else some count

def countBits (fuel value : Nat) : Option Nat := do
  let (count, value, bits) ← widen fuel 1 value 1
  narrow fuel count value bits

/-! The bits that are counted and those that are left. -/

/-- `count` bits are counted, apart from those of `value`. -/
structure Counted (whole count value : Nat) : Prop where
  positive : 0 < value
  total : count + value.size = whole + 1

theorem shiftRight_size {bits value : Nat} (long : 1 <<< bits ≤ value) :
    0 < value >>> bits ∧ bits + (value >>> bits).size = value.size := by
  rw [Nat.one_shiftLeft] at long
  have positive : 0 < value >>> bits := by
    rw [Nat.shiftRight_eq_div_pow]
    exact Nat.div_pos long (Nat.two_pow_pos bits)
  refine ⟨positive, ?_⟩
  have low : bits < value.size := Nat.lt_size.mpr long
  refine Nat.le_antisymm ?_ ?_
  · have high : 2 ^ ((value >>> bits).size - 1) ≤ value >>> bits :=
      Nat.lt_size.mp (Nat.sub_lt (Nat.size_pos.mpr positive) Nat.one_pos)
    rw [Nat.shiftRight_eq_div_pow, Nat.le_div_iff_mul_le (Nat.two_pow_pos bits), ← pow_add] at high
    have inside := Nat.lt_size.mpr high
    have some := Nat.size_pos.mpr positive
    rw [Nat.shiftRight_eq_div_pow] at some ⊢
    omega
  · have high : value < 2 ^ (bits + (value >>> bits).size) := by
      rw [pow_add, Nat.mul_comm, ← Nat.div_lt_iff_lt_mul (Nat.two_pow_pos bits),
        ← Nat.shiftRight_eq_div_pow]
      exact Nat.lt_size_self _
    exact Nat.size_le.mpr high

theorem Counted.step {whole count value bits : Nat} (counted : Counted whole count value)
    (long : 1 <<< bits ≤ value) : Counted whole (count + bits) (value >>> bits) := by
  obtain ⟨positive, size⟩ := shiftRight_size long
  have total := counted.total
  exact ⟨positive, by omega⟩

theorem shiftRight_lt {bits value : Nat} (positive : 0 < bits) (long : 1 <<< bits ≤ value) :
    value >>> bits < value := by
  have some : 0 < value := Nat.lt_of_lt_of_le (by simp [Nat.one_shiftLeft]) long
  rw [Nat.shiftRight_eq_div_pow]
  exact Nat.div_lt_self some (Nat.one_lt_two_pow (Nat.pos_iff_ne_zero.mp positive))

/-- By the value, which a turn makes smaller: a step is a power of two. -/
theorem widen_returns {whole count value : Nat} (counted : Counted whole count value)
    (power : Nat) :
    ∃ count' value' power', value' < 2 ^ 2 ^ power' ∧ Counted whole count' value' ∧
      Returns (fun fuel => widen fuel count value (2 ^ power)) (count', value', 2 ^ power') := by
  induction value using Nat.strong_induction_on generalizing count power with
  | _ value induction =>
      by_cases long : 1 <<< 2 ^ power ≤ value
      · obtain ⟨count', value', power', small, counted', returns⟩ :=
          induction _ (shiftRight_lt (Nat.two_pow_pos power) long) (counted.step long) (power + 1)
        refine ⟨count', value', power', small, counted', Returns.call (fun fuel => ?_) returns⟩
        rw [widen, if_pos long, Nat.shiftLeft_eq, pow_one, ← pow_succ]
      · refine ⟨count, value, power, ?_, counted, Returns.call (fun fuel => ?_) (Returns.pure _)⟩
        · rw [Nat.one_shiftLeft] at long
          exact Nat.not_le.mp long
        · rw [widen, if_neg long]

/-- A value of less than two steps is drained in one turn at most. -/
theorem drain_returns {whole count value bits : Nat} (counted : Counted whole count value)
    (small : value < 2 ^ (bits + bits)) :
    ∃ count' value', value' < 2 ^ bits ∧ Counted whole count' value' ∧
      Returns (fun fuel => drain fuel count value bits) (count', value') := by
  have stop : ∀ {count value : Nat}, value < 2 ^ bits →
      Returns (fun fuel => drain fuel count value bits) (count, value) := by
    intro count value small
    refine Returns.call (fun fuel => ?_) (Returns.pure _)
    rw [drain, if_neg (by rw [Nat.one_shiftLeft]; omega)]
  by_cases long : 1 <<< bits ≤ value
  · have less : value >>> bits < 2 ^ bits := by
      rw [Nat.shiftRight_eq_div_pow]
      exact Nat.div_lt_of_lt_mul (by rwa [← pow_add])
    refine ⟨count + bits, value >>> bits, less, counted.step long, Returns.call (fun fuel => ?_)
      (stop less)⟩
    rw [drain, if_pos long]
  · rw [Nat.one_shiftLeft] at long
    exact ⟨count, value, Nat.not_le.mp long, counted, stop (Nat.not_le.mp long)⟩

/-- By the power: when the step is one, the value is one. -/
theorem narrow_returns {whole count value power : Nat} (counted : Counted whole count value)
    (small : value < 2 ^ 2 ^ power) :
    Returns (fun fuel => narrow fuel count value (2 ^ power)) whole := by
  induction power generalizing count value with
  | zero =>
      have positive := counted.positive
      obtain rfl : value = 1 := by
        rw [pow_zero, pow_one] at small
        omega
      have total := counted.total
      rw [Nat.size_one] at total
      obtain rfl : count = whole := by omega
      refine Returns.call (fun fuel => ?_) (Returns.pure _)
      rw [narrow, if_neg (by decide)]
  | succ power induction =>
      by_cases long : 2 ≤ value
      · have half : (if 2 ^ (power + 1) ≠ 1 then 2 ^ (power + 1) >>> 1 else 2 ^ (power + 1) - 1) =
            2 ^ power := by
          rw [if_pos (by rw [ne_eq, Nat.pow_eq_one]; omega), Nat.shiftRight_one, pow_succ,
            Nat.mul_div_cancel _ Nat.two_pos]
        obtain ⟨count', value', less, counted', returns⟩ := drain_returns counted
          (by rwa [← Nat.two_mul, ← pow_succ'])
        refine Returns.call (fun fuel => ?_) (@Returns.bind _ _ _ _
          (fun fuel found => narrow fuel found.1 found.2 (2 ^ power)) _ returns
          (induction counted' less))
        rw [narrow, if_pos long, half]
      · have positive := counted.positive
        obtain rfl : value = 1 := by omega
        have total := counted.total
        rw [Nat.size_one] at total
        obtain rfl : count = whole := by omega
        refine Returns.call (fun fuel => ?_) (Returns.pure _)
        rw [narrow, if_neg (by decide)]

/-- `countBits` ends, and counts the bits of a number; zero has one. -/
theorem countBits_returns (value : Nat) :
    Returns (fun fuel => countBits fuel value) (max 1 value.size) := by
  rcases Nat.eq_zero_or_pos value with rfl | positive
  · have first : Returns (fun fuel => widen fuel 1 0 1) (1, 0, 1) :=
      Returns.call (fun fuel => rfl) (Returns.pure _)
    exact Returns.bind first (Returns.call (fun fuel => rfl) (Returns.pure _))
  · have counted : Counted value.size 1 value := ⟨positive, Nat.add_comm 1 _⟩
    obtain ⟨count, left, power, small, counted, returns⟩ := widen_returns counted 0
    have some : 1 ≤ value.size := Nat.size_pos.mpr positive
    rw [Nat.max_eq_right some]
    exact Returns.bind returns (narrow_returns counted small)

example : countBits 9 44100 = some 16 := by decide

end Segvault.Hachoir
