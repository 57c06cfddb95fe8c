import Segvault.Hachoir.OutputStream

namespace Segvault.Hachoir

open BitString

/-! `OutputStream.writeBit`. -/

def OutputStream.writeBit (out : OutputStream) (state : Bool) (endian : Endian) :
    Except Failure OutputStream :=
  if endian = .middleEndian then .error .assertionError
  else if out.bitPos = 7 then do
    let byte :=
      if state then if endian = .bigEndian then out.byte ||| 1 else out.byte ||| 128
      else out.byte
    let written ← chr byte
    .ok { output := out.output ++ [written], bitPos := 0, byte := 0 }
  else
    let byte :=
      if state then
        if endian = .bigEndian then out.byte ||| 1 <<< out.bitPos
        else out.byte ||| 1 <<< (7 - out.bitPos)
      else out.byte
    .ok { out with byte := byte, bitPos := out.bitPos + 1 }

/-- The bit of the byte being filled that writeBit sets, and the one writeBits sets: they
count from opposite ends. -/
def writeBitPlace (endian : Endian) (bitPos : Nat) : Nat :=
  if endian = .bigEndian then bitPos else 7 - bitPos

def writeBitsPlace (endian : Endian) (bitPos : Nat) : Nat :=
  if endian = .bigEndian then 7 - bitPos else bitPos

section

variable {endian : Endian} {out : OutputStream} {bit : Bool}

theorem writeBit_inside (standard : endian ≠ .middleEndian) (early : out.bitPos < 7) :
    out.writeBit bit endian =
      .ok { out with
        byte := out.byte ||| bit.toNat <<< writeBitPlace endian out.bitPos
        bitPos := out.bitPos + 1 } := by
  rw [OutputStream.writeBit, if_neg standard, if_neg (by omega), writeBitPlace]
  cases bit with
  | false => simp
  | true => cases endian <;> rfl

theorem writeBits_one_start (standard : endian ≠ .middleEndian) (start : out.bitPos = 0) :
    out.writeBits 1 bit.toNat endian =
      .ok { out with
        byte := bit.toNat <<< writeBitsPlace endian 0
        bitPos := 1 } := by
  obtain ⟨output, bitPos, byte⟩ := out
  cases start
  cases bit <;> cases endian <;> first | rfl | exact absurd rfl standard

theorem writeBits_one_inside (standard : endian ≠ .middleEndian) (late : 0 < out.bitPos)
    (early : out.bitPos < 7) :
    out.writeBits 1 bit.toNat endian =
      .ok { out with
        byte := out.byte ||| bit.toNat <<< writeBitsPlace endian out.bitPos
        bitPos := out.bitPos + 1 } := by
  have bound : bit.toNat < 2 ^ 1 := Bool.toNat_lt bit
  have room : 8 - out.bitPos - 1 = 7 - out.bitPos := by omega
  rw [OutputStream.writeBits, if_neg standard, if_pos bound, if_pos (by omega)]
  simp only [if_neg (by omega : ¬ 8 - out.bitPos ≤ 1), writeBitsPlace, room]
  cases endian with
  | middleEndian => exact absurd rfl standard
  | bigEndian => rfl
  | littleEndian => rfl

/-- Nothing is left to write once the byte is full. -/
theorem writeAligned_none (endian : Endian) (output : List UInt8) :
    writeAligned endian 0 0 output = .ok { output := output, bitPos := 0, byte := 0 } := rfl

theorem writeBit_last (standard : endian ≠ .middleEndian) (last : out.bitPos = 7) :
    out.writeBit bit endian = out.writeBits 1 bit.toNat endian := by
  have bound : bit.toNat < 2 ^ 1 := Bool.toNat_lt bit
  rw [OutputStream.writeBit, OutputStream.writeBits, if_neg standard, if_pos last,
    if_neg standard, if_pos bound, if_pos (by omega : out.bitPos ≠ 0)]
  cases endian with
  | middleEndian => exact absurd rfl standard
  | bigEndian => cases bit <;> simp [last, writeAligned_none]
  | littleEndian => cases bit <;> simp [last, writeAligned_none]

theorem testBit_one_shiftLeft (place other : Nat) :
    (1 <<< place).testBit other = decide (place = other) := by
  rw [Nat.one_shiftLeft, Nat.testBit_two_pow]

theorem or_bit_eq_iff {byte first second : Nat} (apart : first ≠ second) :
    byte ||| 1 <<< first = byte ||| 1 <<< second ↔
      byte.testBit first ∧ byte.testBit second := by
  constructor
  · intro same
    have low := congrArg (Nat.testBit · first) same
    have high := congrArg (Nat.testBit · second) same
    simp only [Nat.testBit_or, testBit_one_shiftLeft] at low high
    simp only [apart, apart.symm, decide_true, decide_false, Bool.or_true, Bool.or_false]
      at low high
    exact ⟨low.symm, high⟩
  · rintro ⟨low, high⟩
    apply Nat.eq_of_testBit_eq
    intro place
    simp only [Nat.testBit_or, testBit_one_shiftLeft]
    by_cases here : first = place
    · subst here
      simp [low]
    · by_cases there : second = place
      · subst there
        simp [high]
      · simp [here, there]

theorem bitPlaces_ne (endian : Endian) {bitPos : Nat} (early : bitPos < 7) :
    writeBitPlace endian bitPos ≠ writeBitsPlace endian bitPos := by
  rw [writeBitPlace, writeBitsPlace]
  split <;> omega

theorem testBit_both (endian : Endian) (byte bitPos : Nat) :
    (byte.testBit (writeBitPlace endian bitPos) ∧ byte.testBit (writeBitsPlace endian bitPos)) ↔
      byte.testBit bitPos ∧ byte.testBit (7 - bitPos) := by
  rw [writeBitPlace, writeBitsPlace]
  split
  · rfl
  · exact and_comm

/-- writeBit is writeBits of one bit at the last place of a byte, for a bit that is not set,
and where the byte already has both of the bits they set. -/
theorem writeBit_eq_writeBits_iff (standard : endian ≠ .middleEndian)
    (within : out.bitPos ≤ 7) :
    out.writeBit bit endian = out.writeBits 1 bit.toNat endian ↔
      out.bitPos = 7 ∨
        (bit = false ∧ (out.bitPos = 0 → out.byte = 0)) ∨
        (out.bitPos ≠ 0 ∧ out.byte.testBit out.bitPos ∧ out.byte.testBit (7 - out.bitPos)) := by
  by_cases last : out.bitPos = 7
  · exact ⟨fun _ => .inl last, fun _ => writeBit_last standard last⟩
  have early : out.bitPos < 7 := by omega
  rw [writeBit_inside standard early]
  by_cases start : out.bitPos = 0
  · have low :
        out.byte ||| 1 <<< writeBitPlace endian out.bitPos ≠ 1 <<< writeBitsPlace endian 0 := by
      intro same
      have place := congrArg (Nat.testBit · (writeBitPlace endian out.bitPos)) same
      simp only [Nat.testBit_or, testBit_one_shiftLeft, decide_true, Bool.or_true] at place
      rw [start] at place
      exact bitPlaces_ne endian (by decide) (of_decide_eq_true place.symm).symm
    rw [writeBits_one_start standard start]
    cases bit with
    | false => simp [start]
    | true => simpa [start] using low
  · rw [writeBits_one_inside standard (by omega) early, ← testBit_both endian,
      ← or_bit_eq_iff (bitPlaces_ne endian early)]
    cases bit with
    | false => simp [start]
    | true => simp [start, last]

end

theorem writeBit_eq_writeBits_iff_empty :
    OutputStream.empty.writeBit true .bigEndian =
        OutputStream.empty.writeBits 1 true.toNat .bigEndian ↔
      OutputStream.empty.bitPos = 7 ∨
        (true = false ∧ (OutputStream.empty.bitPos = 0 → OutputStream.empty.byte = 0)) ∨
        (OutputStream.empty.bitPos ≠ 0 ∧
          OutputStream.empty.byte.testBit OutputStream.empty.bitPos ∧
          OutputStream.empty.byte.testBit (7 - OutputStream.empty.bitPos)) :=
  writeBit_eq_writeBits_iff (by decide) (by decide)

theorem writeBit_fails_empty :
    OutputStream.empty.writeBit true .bigEndian ≠
      OutputStream.empty.writeBits 1 true.toNat .bigEndian := by
  decide

end Segvault.Hachoir
