import Segvault.Hachoir.WriteInto

namespace Segvault.Hachoir

open BitString

variable {order : Order} {out : OutputStream}

/-! What writing some bits comes to: the bits, where a condition holds, and elsewhere an
exception or too many bits. -/

def Overruns (order : Order) (out : OutputStream) (count : Nat)
    (result : Except Failure OutputStream) : Prop :=
  ∀ next, result = .ok next → next.WellFormed order ∧
    ∃ more, next.content order = out.content order ++ more ∧
      count < more.length ∧ more.length % 8 = count % 8

structure Outcome (frames : Prop) (order : Order) (out : OutputStream) (bits : List Bool)
    (result : Except Failure OutputStream) : Prop where
  writes : frames → Writes order result (out.content order ++ bits)
  overruns : ¬ frames → Overruns order out bits.length result

theorem overruns_error {count : Nat} (failure : Failure) :
    Overruns order out count (.error failure) :=
  nofun

/-- The output is at the bit of its byte that an input address asks for. -/
def Synced (start address : Nat) (out : OutputStream) : Prop :=
  (out.bitPos + start) % 8 = address % 8

theorem Synced.advance {start address : Nat} {next : OutputStream} {more : List Bool}
    {count : Nat} (synced : Synced start address out) (wellFormed : out.WellFormed order)
    (nextWellFormed : next.WellFormed order)
    (content : next.content order = out.content order ++ more)
    (length : more.length % 8 = count % 8) : Synced start (address + count) next := by
  have same := congrArg List.length content
  rw [List.length_append, wellFormed.length_content, nextWellFormed.length_content] at same
  rw [Synced] at synced ⊢
  omega

theorem Synced.aligned_iff {start address : Nat} (synced : Synced start address out)
    (wellFormed : out.WellFormed order) : out.bitPos = 0 ↔ address % 8 = start % 8 := by
  have short := wellFormed.bitPos_lt
  rw [Synced] at synced
  omega

/-- One write after another. -/
theorem Outcome.bind {first second : Prop} {head tail : List Bool}
    {result : Except Failure OutputStream}
    {rest : OutputStream → Except Failure OutputStream} {start address : Nat}
    (wellFormed : out.WellFormed order) (synced : Synced start address out)
    (before : Outcome first order out head result)
    (after : ∀ next, next.WellFormed order → Synced start (address + head.length) next →
      Outcome second order next tail (rest next)) :
    Outcome (first ∧ second) order out (head ++ tail) (result >>= rest) := by
  by_cases frames : first
  · obtain ⟨next, done, nextWellFormed, content⟩ := before.writes frames
    have following := after next nextWellFormed
      (synced.advance wellFormed nextWellFormed content rfl)
    rw [done]
    constructor
    · rintro ⟨-, both⟩
      obtain ⟨last, written, lastWellFormed, whole⟩ := following.writes both
      refine ⟨last, written, lastWellFormed, ?_⟩
      rw [whole, content, List.append_assoc]
    · intro neither last written
      obtain ⟨lastWellFormed, more, whole, long, congruent⟩ :=
        following.overruns (fun both => neither ⟨frames, both⟩) last written
      refine ⟨lastWellFormed, head ++ more, ?_, ?_, ?_⟩
      · rw [whole, content, List.append_assoc]
      · simp only [List.length_append]
        omega
      · simp only [List.length_append]
        omega
  · refine ⟨fun both => absurd both.1 frames, fun _ last written => ?_⟩
    cases done : result with
    | error failure => rw [done] at written; cases written
    | ok next =>
        rw [done] at written
        obtain ⟨nextWellFormed, more, content, long, congruent⟩ :=
          before.overruns frames next done
        have following := after next nextWellFormed
          (synced.advance wellFormed nextWellFormed content congruent)
        by_cases both : second
        · obtain ⟨other, again, lastWellFormed, whole⟩ := following.writes both
          cases again.symm.trans written
          refine ⟨lastWellFormed, more ++ tail, ?_, ?_, ?_⟩
          · rw [whole, content, List.append_assoc]
          · simp only [List.length_append]
            omega
          · simp only [List.length_append]
            omega
        · obtain ⟨lastWellFormed, further, whole, longer, same⟩ :=
            following.overruns both last written
          refine ⟨lastWellFormed, more ++ further, ?_, ?_, ?_⟩
          · rw [whole, content, List.append_assoc]
          · simp only [List.length_append]
            omega
          · simp only [List.length_append]
            omega

/-! Bits copied from the input. -/

/-- Whole bytes are copied between byte boundaries, and other bits up to 128 of them. -/
def Copies (start address size : Nat) (endian : Endian) : Prop :=
  if size % 8 = 0 then address % 8 = 0 ∧ (size = 0 ∨ start % 8 = 0)
  else size ≤ 128 ∧ endian ≠ .middleEndian

instance (start address size : Nat) (endian : Endian) :
    Decidable (Copies start address size endian) :=
  inferInstanceAs (Decidable (if size % 8 = 0 then _ ∧ (_ ∨ _) else _ ∧ _))

theorem writeBits_middle (out : OutputStream) (count value : Nat) :
    out.writeBits count value .middleEndian = .error .assertionError := by
  rw [OutputStream.writeBits, if_pos rfl]

section Copy

variable {stream : StringInputStream} {start address size : Nat} {endian : Endian}

theorem copyBytes_outcome (wellFormed : out.WellFormed order)
    (synced : Synced start address out) (inside : address + size ≤ 8 * stream.data.length)
    (whole : size % 8 = 0) :
    Outcome (address % 8 = 0 ∧ (size = 0 ∨ start % 8 = 0)) order out
      (range (BitString.stream order stream.data) address size)
      (out.copyBytesFrom stream address (size / 8)) := by
  have count : 8 * (size / 8) = size := by omega
  have edge := synced.aligned_iff wellFormed
  rw [OutputStream.copyBytesFrom]
  constructor
  · rintro ⟨aligned, empty | boundary⟩
    · refine ⟨out, ?_, wellFormed, ?_⟩
      · rw [if_neg (not_not_intro aligned), empty, OutputStream.copyBytesLoop]
        rfl
      · rw [empty, range, List.take_zero, List.append_nil]
    · rw [if_neg (not_not_intro aligned)]
      have copied := @copyBytesLoop_spec order out stream address wellFormed
        (edge.mpr (by omega)) aligned (size / 8) (by omega)
      rwa [count] at copied
  · intro refused
    by_cases aligned : address % 8 = 0
    · rw [not_and_or, not_or] at refused
      obtain ⟨some, unaligned⟩ := refused.resolve_left (not_not_intro aligned)
      rw [if_neg (not_not_intro aligned), copyBytesLoop_unaligned
        (fun boundary => unaligned (by have := edge.mp boundary; omega)) aligned
        (by omega) (by omega)]
      exact overruns_error _
    · rw [if_pos aligned]
      exact overruns_error _

theorem copyBits_outcome (wellFormed : out.WellFormed endian.order)
    (inside : address + size ≤ 8 * stream.data.length) (part : size % 8 ≠ 0) :
    Outcome (size ≤ 128 ∧ endian ≠ .middleEndian) endian.order out
      (range (BitString.stream endian.order stream.data) address size)
      (out.copyBitsFrom stream address size endian) := by
  rw [OutputStream.copyBitsFrom, if_neg part]
  constructor
  · rintro ⟨few, standard⟩
    have length := @length_range (BitString.stream endian.order stream.data) address size
      (by rwa [length_stream])
    have small := decode_lt endian.order
      (range (BitString.stream endian.order stream.data) address size)
    have round := encode_decode endian.order
      (range (BitString.stream endian.order stream.data) address size)
    rw [length] at small round
    have written := writeBits_spec standard wellFormed small
    rw [round] at written
    rw [if_pos few, readBits_eq standard inside (by omega) (by omega)]
    exact written
  · intro refused
    by_cases few : size ≤ 128
    · have middle : endian = .middleEndian :=
        not_not.mp ((not_and_or.mp refused).resolve_left (not_not_intro few))
      rw [if_pos few, middle]
      cases stream.readBits address size .middleEndian with
      | error failure => exact overruns_error failure
      | ok data =>
          change Overruns _ _ _ (out.writeBits size data .middleEndian)
          rw [writeBits_middle]
          exact overruns_error _
    · rw [if_neg few]
      exact overruns_error _

theorem copyFrom_outcome (wellFormed : out.WellFormed endian.order)
    (synced : Synced start address out) (inside : address + size ≤ 8 * stream.data.length) :
    Outcome (Copies start address size endian) endian.order out
      (range (BitString.stream endian.order stream.data) address size)
      (out.copyFrom stream address size endian) := by
  rw [OutputStream.copyFrom, Copies]
  by_cases whole : size % 8 = 0
  · rw [if_pos whole, if_neg (not_not_intro whole)]
    exact copyBytes_outcome wellFormed synced inside whole
  · rw [if_neg whole, if_pos whole]
    exact copyBits_outcome wellFormed inside whole

end Copy

/-! A value written into a field. -/

namespace FieldClass

def Writable (start address size : Nat) (endian : Endian) (value : Int) : FieldClass → Prop
  | .rawBits => endian ≠ .middleEndian
  | .integer signed => endian ≠ .middleEndian ∧ address % 8 = start % 8 ∧
      (signed = true → -2 ^ (size - 1) ≤ value ∧ value < 2 ^ (size - 1))
  | .character => address % 8 = start % 8
  | .other => False

/-- The number that ends up in a field: signed integers are written with an offset. -/
def stored (size : Nat) (value : Int) : FieldClass → Int
  | .integer true => value + 2 ^ (size - 1)
  | _ => value

theorem validValue_spec {signed : Bool} {size : Nat} {minval maxval : Int}
    (valid : validValue signed size = some (minval, maxval)) :
    (size = 8 ∨ size = 16 ∨ size = 32) ∧
      (signed = false → minval = 0 ∧ maxval = 2 ^ size - 1) := by
  unfold validValue at valid
  split at valid
  · next both =>
      split at valid <;> simp_all
  · split at valid
    · cases valid
      exact ⟨by decide, fun _ => by decide⟩
    · cases valid
      exact ⟨by decide, fun _ => by decide⟩
    · cases valid
      exact ⟨by decide, fun _ => by decide⟩
    · cases valid

theorem accepts_integer {signed : Bool} {size : Nat} {value : Int}
    (accepted : (integer signed).accepts size value) :
    (size = 8 ∨ size = 16 ∨ size = 32) ∧
      (signed = false → 0 ≤ value ∧ value < 2 ^ size) := by
  rw [accepts] at accepted
  split at accepted
  · next minval maxval valid =>
      obtain ⟨lower, upper⟩ := of_decide_eq_true accepted
      obtain ⟨sizes, bounds⟩ := validValue_spec valid
      refine ⟨sizes, fun unsigned => ?_⟩
      obtain ⟨rfl, rfl⟩ := bounds unsigned
      exact ⟨lower, by omega⟩
  · exact absurd accepted Bool.false_ne_true

section Write

variable {start address size : Nat} {endian : Endian} {value : Int}

theorem stored_range {signed : Bool} (sizes : size = 8 ∨ size = 16 ∨ size = 32)
    (unsigned : signed = false → 0 ≤ value ∧ value < 2 ^ size) :
    (signed = true → -2 ^ (size - 1) ≤ value ∧ value < 2 ^ (size - 1)) ↔
      0 ≤ (integer signed).stored size value ∧
        (integer signed).stored size value < 256 ^ (size / 8) := by
  cases signed with
  | true => obtain rfl | rfl | rfl := sizes <;> simp [stored] <;> omega
  | false => obtain rfl | rfl | rfl := sizes <;> simp [stored] <;> simpa using unsigned

theorem writeInteger_outcome (wellFormed : out.WellFormed endian.order)
    (synced : Synced start address out) {signed : Bool}
    (accepted : (integer signed).accepts size value) :
    Outcome ((integer signed).Writable start address size endian value) endian.order out
      (encode endian.order size ((integer signed).stored size value).toNat)
      (out.writeInteger value signed (size / 8) endian) := by
  obtain ⟨sizes, unsigned⟩ := accepts_integer accepted
  have edge := synced.aligned_iff wellFormed
  have same : out.writeInteger value signed (size / 8) endian = (do
      let raw ← long2raw ((integer signed).stored size value) endian (size / 8)
      out.writeBytes raw) := by
    have bits : size / 8 * 8 - 1 = size - 1 := by omega
    rw [OutputStream.writeInteger, bits]
    cases signed <;> rfl
  have count : 8 * (size / 8) = size := by omega
  have fits := stored_range sizes unsigned
  rw [same]
  generalize (integer signed).stored size value = number at fits ⊢
  constructor
  · rintro ⟨standard, boundary, range⟩
    obtain ⟨positive, small⟩ := fits.mp range
    obtain ⟨raw, written, bits⟩ := long2raw_fits standard positive small
    rw [written, ← count, ← bits]
    exact writeBytes_spec wellFormed (edge.mpr boundary) raw
  · intro refused next done
    cases raw : long2raw number endian (size / 8) with
    | error failure => rw [raw] at done; cases done
    | ok bytes =>
        rw [raw] at done
        change out.writeBytes bytes = .ok next at done
        have boundary : out.bitPos = 0 := by
          by_contra unaligned
          rw [writeBytes_unaligned unaligned] at done
          cases done
        have standard : endian ≠ .middleEndian := by
          rintro rfl
          rw [long2raw] at raw
          split at raw <;> cases raw
        have positive : 0 ≤ number := by
          by_contra negative
          rw [long2raw, if_pos (by omega)] at raw
          cases raw
        have long := long2raw_long (not_lt.mp fun small => refused
          ⟨standard, edge.mp boundary, fits.mpr ⟨positive, small⟩⟩) raw
        obtain ⟨other, again, nextWellFormed, content⟩ :=
          writeBytes_spec wellFormed boundary bytes
        cases again.symm.trans done
        refine ⟨nextWellFormed, stream endian.order bytes, content, ?_, ?_⟩
        · rw [length_encode, length_stream]
          omega
        · rw [length_encode, length_stream]
          omega

theorem write_outcome (wellFormed : out.WellFormed endian.order)
    (synced : Synced start address out) {cls : FieldClass}
    (accepted : cls.accepts size value) :
    Outcome (cls.Writable start address size endian value) endian.order out
      (encode endian.order size (cls.stored size value).toNat)
      (cls.write size value endian out) := by
  cases cls with
  | rawBits =>
      obtain ⟨positive, small⟩ := of_decide_eq_true accepted
      constructor
      · intro standard
        exact writeBits_spec standard wellFormed
          ((Int.toNat_lt positive).mpr (by exact_mod_cast small))
      · intro middle
        rw [write, not_not.mp middle, writeBits_middle]
        exact overruns_error _
  | integer signed => exact writeInteger_outcome wellFormed synced accepted
  | character =>
      obtain ⟨rfl, positive, small⟩ := of_decide_eq_true accepted
      have edge := synced.aligned_iff wellFormed
      constructor
      · intro boundary
        have written := writeBytes_spec wellFormed (edge.mpr boundary) [UInt8.ofNat value.toNat]
        have code : value.toNat < 256 := by omega
        rw [stream_singleton, UInt8.toNat_ofNat_of_lt' code] at written
        exact written
      · intro apart
        rw [write, writeBytes_unaligned fun boundary => apart (edge.mp boundary)]
        exact overruns_error _
  | other => exact absurd accepted Bool.false_ne_true

end Write

end FieldClass

end Segvault.Hachoir
