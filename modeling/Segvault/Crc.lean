import Mathlib.Data.BitVec

namespace Segvault.Crc

/-! Reflected cyclic redundancy checks, bit by bit. -/

variable {w : Nat}

def bitStep (polynomial state : BitVec w) : BitVec w :=
  if state.getLsbD 0 then (state >>> 1) ^^^ polynomial else state >>> 1

def bitSteps (polynomial : BitVec w) (count : Nat) (state : BitVec w) :
    BitVec w :=
  (bitStep polynomial)^[count] state

def byteStep (polynomial state : BitVec w) (byte : UInt8) : BitVec w :=
  bitSteps polynomial 8 (state ^^^ byte.toBitVec.setWidth w)

def reflected (polynomial initial final : BitVec w) (bytes : List UInt8) :
    BitVec w :=
  bytes.foldl (byteStep polynomial) initial ^^^ final

theorem bitStep_xor (polynomial first second : BitVec w) :
    bitStep polynomial (first ^^^ second) =
      bitStep polynomial first ^^^ bitStep polynomial second := by
  unfold bitStep
  rw [BitVec.getLsbD_xor, BitVec.ushiftRight_xor_distrib]
  cases first.getLsbD 0 <;> cases second.getLsbD 0
  · rfl
  · simp [BitVec.xor_assoc]
  · simp only [Bool.bne_false, if_true, Bool.false_eq_true, if_false]
    rw [BitVec.xor_assoc, BitVec.xor_comm (second >>> 1), ← BitVec.xor_assoc]
  · simp only [bne_self_eq_false, Bool.false_eq_true, if_false, if_true]
    rw [BitVec.xor_assoc, BitVec.xor_comm (second >>> 1), ← BitVec.xor_assoc polynomial,
      BitVec.xor_self, BitVec.zero_xor]

theorem bitSteps_xor (polynomial : BitVec w) (count : Nat)
    (first second : BitVec w) :
    bitSteps polynomial count (first ^^^ second) =
      bitSteps polynomial count first ^^^ bitSteps polynomial count second := by
  induction count generalizing first second with
  | zero => rfl
  | succ count induction =>
      simp only [bitSteps, Function.iterate_succ_apply] at induction ⊢
      rw [bitStep_xor, induction]

/-! Zero bits at the low end are only shifted out. -/

theorem bitStep_shiftLeft (polynomial state : BitVec w) (count : Nat)
    (room : ∀ index, w ≤ index + (count + 1) → state.getLsbD index = false) :
    bitStep polynomial (state <<< (count + 1)) = state <<< count := by
  have low : (state <<< (count + 1)).getLsbD 0 = false := by simp
  rw [bitStep, low]
  apply BitVec.eq_of_getLsbD_eq
  intro index bound
  simp only [Bool.false_eq_true, if_false, BitVec.getLsbD_ushiftRight,
    BitVec.getLsbD_shiftLeft]
  by_cases inside : 1 + index < w
  · have shifted : 1 + index - (count + 1) = index - count := by omega
    have order : (1 + index < count + 1) ↔ (index < count) := by omega
    simp [inside, bound, shifted, order]
  · have top : state.getLsbD (index - count) = false := by
      by_cases small : index < count
      · exact room _ (by omega)
      · exact room _ (by omega)
    simp [inside, top]

theorem bitSteps_shiftLeft (polynomial state : BitVec w) (count : Nat)
    (room : ∀ index, w ≤ index + count → state.getLsbD index = false) :
    bitSteps polynomial count (state <<< count) = state := by
  induction count with
  | zero => simp [bitSteps]
  | succ count induction =>
      rw [bitSteps, Function.iterate_succ_apply,
        bitStep_shiftLeft polynomial state count room]
      exact induction fun index past => room index (by omega)

/-! Hence a table of the low bits computes several steps at once. -/

theorem bitSteps_split (polynomial state : BitVec w) (count : Nat) :
    bitSteps polynomial count state =
      bitSteps polynomial count (state ^^^ ((state >>> count) <<< count)) ^^^
        (state >>> count) := by
  have high : bitSteps polynomial count ((state >>> count) <<< count) =
      state >>> count := by
    apply bitSteps_shiftLeft
    intro index past
    rw [BitVec.getLsbD_ushiftRight]
    exact BitVec.getLsbD_of_ge _ _ (by omega)
  rw [bitSteps_xor, high, BitVec.xor_assoc, BitVec.xor_self, BitVec.xor_zero]

/-! The same checks, one bit of the message after the other. -/

def serialStep (polynomial state : BitVec w) (bit : Bool) : BitVec w :=
  if state.getLsbD 0 != bit then (state >>> 1) ^^^ polynomial else state >>> 1

def serial (polynomial initial final : BitVec w) (bits : List Bool) : BitVec w :=
  bits.foldl (serialStep polynomial) initial ^^^ final

/-- The bits of a byte, the lowest first. -/
def lowFirst (byte : UInt8) : List Bool := (List.range 8).map byte.toBitVec.getLsbD

theorem bitStep_serialStep (polynomial state message : BitVec w) :
    bitStep polynomial (state ^^^ message) =
      serialStep polynomial state (message.getLsbD 0) ^^^ (message >>> 1) := by
  rw [bitStep, serialStep, BitVec.getLsbD_xor, BitVec.ushiftRight_xor_distrib]
  split
  · rw [BitVec.xor_assoc, BitVec.xor_assoc, BitVec.xor_comm polynomial]
  · rfl

theorem bitSteps_serialStep (polynomial : BitVec w) (count : Nat) (state message : BitVec w) :
    bitSteps polynomial count (state ^^^ message) =
      ((List.range count).map message.getLsbD).foldl (serialStep polynomial) state ^^^
        (message >>> count) := by
  induction count generalizing state message with
  | zero => rw [BitVec.ushiftRight_zero]; rfl
  | succ count induction =>
      have later : (List.range (count + 1)).map message.getLsbD =
          message.getLsbD 0 :: (List.range count).map (message >>> 1).getLsbD := by
        rw [List.range_succ_eq_map, List.map_cons, List.map_map]
        refine congrArg _ (List.map_congr_left fun index _ => ?_)
        rw [BitVec.getLsbD_ushiftRight, Nat.add_comm]
        rfl
      rw [bitSteps, Function.iterate_succ_apply, bitStep_serialStep, later, List.foldl_cons]
      refine (induction _ _).trans ?_
      rw [← BitVec.shiftRight_add, Nat.add_comm 1]

theorem byteStep_serialStep (wide : 8 ≤ w) (polynomial state : BitVec w) (byte : UInt8) :
    byteStep polynomial state byte = (lowFirst byte).foldl (serialStep polynomial) state := by
  have bits : (List.range 8).map (byte.toBitVec.setWidth w).getLsbD = lowFirst byte := by
    refine List.map_congr_left fun index inside => ?_
    have low : index < w := Nat.lt_of_lt_of_le (List.mem_range.mp inside) wide
    rw [BitVec.getLsbD_setWidth, decide_eq_true low, Bool.true_and]
  have left : byte.toBitVec.setWidth w >>> 8 = 0 := by
    refine BitVec.eq_of_getLsbD_eq fun index _ => ?_
    rw [BitVec.getLsbD_ushiftRight, BitVec.getLsbD_setWidth, BitVec.getLsbD_of_ge _ _ (by omega),
      Bool.and_false, BitVec.ofNat_eq_ofNat, BitVec.getLsbD_zero]
  rw [byteStep, bitSteps_serialStep, bits, left, BitVec.ofNat_eq_ofNat, BitVec.xor_zero]

theorem reflected_serial (wide : 8 ≤ w) (polynomial initial final : BitVec w)
    (bytes : List UInt8) :
    reflected polynomial initial final bytes =
      serial polynomial initial final (bytes.flatMap lowFirst) := by
  rw [reflected, serial, List.foldl_flatMap]
  refine congrArg (· ^^^ final) (congrArg (fun step => bytes.foldl step initial) ?_)
  funext state byte
  exact byteStep_serialStep wide polynomial state byte

end Segvault.Crc
