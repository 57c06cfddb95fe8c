import Segvault.Hachoir.Stream

namespace Segvault.Hachoir

open BitString

structure OutputStream where
  output : List UInt8
  bitPos : Nat
  byte : Nat
  deriving DecidableEq, Repr

def OutputStream.empty : OutputStream := ⟨[], 0, 0⟩

def chr (value : Nat) : Except Failure UInt8 :=
  if value < 256 then .ok (UInt8.ofNat value) else .error .valueError

/-! `OutputStream.writeBits`. -/

-- The loop `while 8 <= count`, with the count and value it leaves.
def writeBytePerByte (endian : Endian) :
    Nat → Nat → List UInt8 → Except Failure (Nat × Nat × List UInt8)
  | count + 8, value, output =>
      if endian = .bigEndian then do
        let byte ← chr (value >>> count)
        writeBytePerByte endian count (value &&& ((1 <<< count) - 1)) (output ++ [byte])
      else do
        let byte ← chr (value &&& 0xFF)
        writeBytePerByte endian count (value >>> 8) (output ++ [byte])
  | count, value, output => .ok (count, value, output)

def keepLastBits (endian : Endian) (count value : Nat) (output : List UInt8) :
    Except Failure OutputStream :=
  if 0 < count then
    if value < 2 ^ count then
      if endian = .bigEndian then
        .ok { output := output, bitPos := count, byte := value <<< (8 - count) }
      else .ok { output := output, bitPos := count, byte := value }
    else .error .assertionError
  else if value = 0 then .ok { output := output, bitPos := count, byte := 0 }
  else .error .assertionError

def writeAligned (endian : Endian) (count value : Nat) (output : List UInt8) :
    Except Failure OutputStream := do
  let (count, value, output) ← writeBytePerByte endian count value output
  keepLastBits endian count value output

def OutputStream.writeBits (out : OutputStream) (count value : Nat)
    (endian : Endian) : Except Failure OutputStream :=
  if endian = .middleEndian then .error .assertionError
  else if value < 2 ^ count then
    if out.bitPos ≠ 0 then
      let n := 8 - out.bitPos
      if n ≤ count then
        let count := count - n
        if endian = .bigEndian then do
          let byte ← chr (out.byte ||| value >>> count)
          writeAligned endian count (value &&& ((1 <<< count) - 1)) (out.output ++ [byte])
        else do
          let byte ← chr (out.byte ||| (value &&& ((1 <<< n) - 1)) <<< out.bitPos)
          writeAligned endian count (value >>> n) (out.output ++ [byte])
      else if endian = .bigEndian then
        .ok { out with
          byte := out.byte ||| value <<< (8 - out.bitPos - count)
          bitPos := out.bitPos + count }
      else
        .ok { out with
          byte := out.byte ||| value <<< out.bitPos
          bitPos := out.bitPos + count }
    else writeAligned endian count value out.output
  else .error .assertionError

/-! The bit string an output stream holds: the bits of the bytes written, then
the bits of the byte it is filling. -/

def OutputStream.pending (order : Order) (out : OutputStream) : List Bool :=
  (encode order 8 out.byte).take out.bitPos

def OutputStream.content (order : Order) (out : OutputStream) : List Bool :=
  stream order out.output ++ out.pending order

structure OutputStream.WellFormed (order : Order) (out : OutputStream) : Prop where
  bitPos_lt : out.bitPos < 8
  byte_eq : out.byte =
    decode order (out.pending order ++ List.replicate (8 - out.bitPos) false)

def Writes (order : Order) (result : Except Failure OutputStream)
    (content : List Bool) : Prop :=
  ∃ out, result = .ok out ∧ out.WellFormed order ∧ out.content order = content

theorem writes_pending {order : Order} {output : List UInt8} {pending : List Bool}
    {bitPos byte : Nat} (length : pending.length = bitPos) (short : bitPos < 8)
    (value : byte = decode order (pending ++ List.replicate (8 - bitPos) false)) :
    Writes order (.ok { output := output, bitPos := bitPos, byte := byte })
      (stream order output ++ pending) := by
  have eight : (pending ++ List.replicate (8 - bitPos) false).length = 8 := by
    rw [List.length_append, List.length_replicate]
    omega
  have round := encode_decode order (pending ++ List.replicate (8 - bitPos) false)
  rw [eight, ← value] at round
  have kept : OutputStream.pending order
      { output := output, bitPos := bitPos, byte := byte } = pending := by
    rw [OutputStream.pending, round, ← length, List.take_left]
  refine ⟨_, rfl, ⟨short, ?_⟩, ?_⟩
  · rw [kept]
    exact value
  · rw [OutputStream.content, kept]

theorem OutputStream.WellFormed.length_pending {order : Order} {out : OutputStream}
    (wellFormed : out.WellFormed order) :
    (out.pending order).length = out.bitPos := by
  have short := wellFormed.bitPos_lt
  rw [OutputStream.pending, List.length_take, length_encode]
  omega

theorem empty_wellFormed (order : Order) : OutputStream.empty.WellFormed order :=
  ⟨by decide, (decode_zeros order 8).symm⟩

@[simp] theorem content_empty (order : Order) :
    OutputStream.empty.content order = [] := rfl

theorem OutputStream.WellFormed.length_content {order : Order} {out : OutputStream}
    (wellFormed : out.WellFormed order) :
    (out.content order).length = 8 * out.output.length + out.bitPos := by
  rw [OutputStream.content, List.length_append, length_stream,
    wellFormed.length_pending]

theorem OutputStream.WellFormed.content_aligned {order : Order} {out : OutputStream}
    (wellFormed : out.WellFormed order) (aligned : out.bitPos = 0) :
    out.content order = stream order out.output := by
  have none : out.pending order = [] :=
    List.eq_nil_of_length_eq_zero (wellFormed.length_pending.trans aligned)
  rw [OutputStream.content, none, List.append_nil]

/-! What `writeBits` adds to it. -/

theorem chr_ok {value : Nat} (small : value < 256) :
    ∃ byte : UInt8, chr value = .ok byte ∧ byte.toNat = value :=
  ⟨UInt8.ofNat value, if_pos small, UInt8.toNat_ofNat_of_lt' small⟩

theorem mask_eq_mod (count value : Nat) :
    value &&& ((1 <<< count) - 1) = value % 2 ^ count := by
  rw [Nat.one_shiftLeft, Nat.and_two_pow_sub_one_eq_mod]

theorem stream_snoc (order : Order) (output : List UInt8) (byte : UInt8) :
    stream order (output ++ [byte]) =
      stream order output ++ encode order 8 byte.toNat := by
  rw [stream_append, stream_singleton]

theorem writeBytePerByte_spec {endian : Endian} (standard : endian ≠ .middleEndian)
    (count value : Nat) (output : List UInt8) (small : value < 2 ^ count) :
    ∃ rest last bytes,
      writeBytePerByte endian count value output = .ok (rest, last, bytes) ∧
      rest < 8 ∧ last < 2 ^ rest ∧
      stream endian.order bytes ++ encode endian.order rest last =
        stream endian.order output ++ encode endian.order count value := by
  induction count using Nat.strongRecOn generalizing value output with
  | ind count induction =>
      by_cases large : 8 ≤ count
      · obtain ⟨count, rfl⟩ := Nat.exists_eq_add_of_le' large
        have power : 2 ^ (count + 8) = 256 * 2 ^ count := by rw [pow_add]; ring
        cases endian with
        | middleEndian => exact absurd rfl standard
        | bigEndian =>
            have fits : value >>> count < 256 := by
              rw [Nat.shiftRight_eq_div_pow, Nat.div_lt_iff_lt_mul (Nat.two_pow_pos count)]
              omega
            obtain ⟨byte, written, byteValue⟩ := chr_ok fits
            obtain ⟨rest, last, bytes, loop, short, lastSmall, same⟩ :=
              induction count (by omega) (value &&& ((1 <<< count) - 1))
                (output ++ [byte]) (by
                  rw [mask_eq_mod]
                  exact Nat.mod_lt _ (Nat.two_pow_pos count))
            refine ⟨rest, last, bytes, ?_, short, lastSmall, ?_⟩
            · rw [writeBytePerByte, if_pos rfl, written]
              exact loop
            · rw [same, stream_snoc, byteValue, mask_eq_mod, encode_mod,
                Nat.shiftRight_eq_div_pow, Nat.add_comm count 8, Endian.order,
                encode_highFirst, List.append_assoc]
        | littleEndian =>
            have fits : value &&& 0xFF < 256 :=
              lt_of_le_of_lt Nat.and_le_right (by decide)
            obtain ⟨byte, written, byteValue⟩ := chr_ok fits
            obtain ⟨rest, last, bytes, loop, short, lastSmall, same⟩ :=
              induction count (by omega) (value >>> 8) (output ++ [byte]) (by
                rw [Nat.shiftRight_eq_div_pow]
                omega)
            refine ⟨rest, last, bytes, ?_, short, lastSmall, ?_⟩
            · rw [writeBytePerByte, if_neg (by decide), written]
              exact loop
            · have low : value &&& 0xFF = value % 2 ^ 8 := mask_eq_mod 8 value
              rw [same, stream_snoc, byteValue, low, encode_mod,
                Nat.shiftRight_eq_div_pow, Nat.add_comm count 8, Endian.order,
                encode_lowFirst, List.append_assoc]
      · refine ⟨count, value, output, ?_, by omega, small, rfl⟩
        rw [writeBytePerByte]
        rintro smaller rfl
        omega

theorem keepLastBits_spec {endian : Endian} (standard : endian ≠ .middleEndian)
    {count value : Nat} (output : List UInt8) (short : count < 8)
    (small : value < 2 ^ count) :
    Writes endian.order (keepLastBits endian count value output)
      (stream endian.order output ++ encode endian.order count value) := by
  unfold keepLastBits
  by_cases positive : 0 < count
  · rw [if_pos positive, if_pos small]
    cases endian with
    | middleEndian => exact absurd rfl standard
    | bigEndian =>
        refine writes_pending (length_encode ..) short ?_
        rw [Endian.order, decode_highFirst_append, decode_encode,
          Nat.mod_eq_of_lt small, Nat.shiftLeft_eq, List.length_replicate,
          decode_zeros, Nat.zero_add, Nat.mul_comm]
    | littleEndian =>
        refine writes_pending (length_encode ..) short ?_
        rw [Endian.order, decode_lowFirst_append, decode_encode,
          Nat.mod_eq_of_lt small, decode_zeros, Nat.mul_zero, Nat.add_zero]
  · have none : count = 0 := by omega
    subst none
    have zero : value = 0 := by simpa using small
    subst zero
    rw [if_neg positive, if_pos rfl]
    exact writes_pending (length_encode ..) short (by
      rw [encode_zero]
      exact (decode_zeros endian.order 8).symm)

theorem writeAligned_spec {endian : Endian} (standard : endian ≠ .middleEndian)
    (count value : Nat) (output : List UInt8) (small : value < 2 ^ count) :
    Writes endian.order (writeAligned endian count value output)
      (stream endian.order output ++ encode endian.order count value) := by
  obtain ⟨rest, last, bytes, loop, short, lastSmall, same⟩ :=
    writeBytePerByte_spec standard count value output small
  rw [writeAligned, loop, ← same]
  exact keepLastBits_spec standard bytes short lastSmall

-- The byte being filled is completed and the rest of the value follows it.
theorem completed {endian : Endian} (standard : endian ≠ .middleEndian)
    {output : List UInt8} {pending head : List Bool} {filled count value : Nat}
    (eight : (pending ++ head).length = 8)
    (full : filled = decode endian.order (pending ++ head))
    (small : value < 2 ^ count) :
    Writes endian.order
      (do
        let byte ← chr filled
        writeAligned endian count value (output ++ [byte]))
      (stream endian.order output ++ pending ++ head ++
        encode endian.order count value) := by
  have bounded := decode_lt endian.order (pending ++ head)
  rw [eight, ← full] at bounded
  obtain ⟨byte, written, byteValue⟩ := chr_ok bounded
  have round := encode_decode endian.order (pending ++ head)
  rw [eight, ← full, ← byteValue] at round
  rw [written, List.append_assoc (stream endian.order output), ← round, ← stream_snoc]
  exact writeAligned_spec standard count value _ small

theorem writeBits_spec {endian : Endian} (standard : endian ≠ .middleEndian)
    {out : OutputStream} (wellFormed : out.WellFormed endian.order)
    {count value : Nat} (small : value < 2 ^ count) :
    Writes endian.order (out.writeBits count value endian)
      (out.content endian.order ++ encode endian.order count value) := by
  have length := wellFormed.length_pending
  obtain ⟨short, byteEq⟩ := wellFormed
  rw [OutputStream.content]
  generalize out.pending endian.order = pending at length byteEq ⊢
  obtain ⟨output, bitPos, byte⟩ := out
  dsimp only at length short byteEq ⊢
  unfold OutputStream.writeBits
  rw [if_neg standard, if_pos small]
  by_cases aligned : bitPos = 0
  · have none : pending = [] := List.eq_nil_of_length_eq_zero (length.trans aligned)
    rw [if_neg (not_not_intro aligned), none, List.append_nil]
    exact writeAligned_spec standard count value output small
  · rw [if_pos aligned]
    by_cases fits : 8 - bitPos ≤ count
    · -- the value completes the byte
      obtain ⟨rest, rfl⟩ := Nat.exists_eq_add_of_le fits
      simp only [if_pos fits, Nat.add_sub_cancel_left, mask_eq_mod]
      cases endian with
      | middleEndian => exact absurd rfl standard
      | bigEndian =>
          have high : value >>> rest < 2 ^ (8 - bitPos) := by
            rw [Nat.shiftRight_eq_div_pow, Nat.div_lt_iff_lt_mul (Nat.two_pow_pos rest),
              ← pow_add]
            exact small
          rw [if_pos rfl, Endian.order, encode_highFirst, ← List.append_assoc,
            ← encode_mod .highFirst rest value, ← Nat.shiftRight_eq_div_pow]
          refine completed standard ?_ ?_ (Nat.mod_lt _ (Nat.two_pow_pos rest))
          · rw [List.length_append, length_encode]
            omega
          · have filled := or_highFirst pending (Nat.le_refl _) high
            rw [Nat.sub_self, Nat.shiftLeft_zero, List.replicate_zero,
              List.append_nil] at filled
            rw [byteEq]
            exact filled
      | littleEndian =>
          have low : value % 2 ^ (8 - bitPos) < 2 ^ (8 - bitPos) :=
            Nat.mod_lt _ (Nat.two_pow_pos _)
          have high : value >>> (8 - bitPos) < 2 ^ rest := by
            rw [Nat.shiftRight_eq_div_pow, Nat.div_lt_iff_lt_mul (Nat.two_pow_pos _),
              ← pow_add, Nat.add_comm]
            exact small
          rw [if_neg (by decide), Endian.order, encode_lowFirst, ← List.append_assoc,
            ← encode_mod .lowFirst (8 - bitPos) value, ← Nat.shiftRight_eq_div_pow]
          refine completed standard ?_ ?_ high
          · rw [List.length_append, length_encode]
            omega
          · have filled := or_lowFirst pending (8 - bitPos) 0 low
            rw [List.replicate_zero, List.append_nil, length] at filled
            rw [byteEq]
            exact filled
    · -- the value fits in the byte
      have room : (8 - bitPos) - count = 8 - (bitPos + count) := by omega
      simp only [if_neg fits]
      rw [List.append_assoc]
      cases endian with
      | middleEndian => exact absurd rfl standard
      | bigEndian =>
          have filled := or_highFirst pending (by omega : count ≤ 8 - bitPos) small
          rw [if_pos rfl, byteEq]
          refine writes_pending (by rw [List.length_append, length_encode, length])
            (by omega) ?_
          rw [room] at filled
          rw [room, Endian.order]
          exact filled
      | littleEndian =>
          have filled := or_lowFirst pending (8 - bitPos) (8 - (bitPos + count)) small
          rw [if_neg (by decide), byteEq]
          refine writes_pending (by rw [List.length_append, length_encode, length])
            (by omega) ?_
          rw [length] at filled
          exact filled

end Segvault.Hachoir
