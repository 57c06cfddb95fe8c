import Segvault.Hachoir.WriteOutcome

namespace Segvault.Hachoir.InputField

open BitString

/-! Field sets of any endians: where the order of the bits changes, the input and the
output are on a byte boundary. -/

mutual

def Tiled (start : Nat) (order : Order) (address : Nat) : InputField → Prop
  | .field .. => True
  | .fieldSet _ own fields =>
      (own.order = order ∨
        start % 8 = 0 ∧ address % 8 = 0 ∧ sizeAll fields % 8 = 0) ∧
      TiledAll start own.order address fields

def TiledAll (start : Nat) (order : Order) (address : Nat) : List InputField → Prop
  | [] => True
  | head :: fields =>
      Tiled start order address head ∧ TiledAll start order (address + head.size) fields

end

/-! The assigned values are accepted. -/

mutual

def Accepted (values : Values) : InputField → Prop
  | .field cls size => ∀ value ∈ values [], cls.accepts size value
  | .fieldSet _ _ fields => AcceptedAll values 0 fields

def AcceptedAll (values : Values) (index : Nat) : List InputField → Prop
  | [] => True
  | head :: fields =>
      Accepted (values.below index) head ∧ AcceptedAll values (index + 1) fields

end

/-! Every field that is written can be, and so can all that is copied. -/

mutual

def Frames (start : Nat) (values : Values) (endian : Endian) (address : Nat) :
    InputField → Prop
  | .field cls size =>
      match values [] with
      | some value => cls.Writable start address size endian value
      | none => Copies start address size endian
  | .fieldSet isFloat own fields =>
      if isAltered values (.fieldSet isFloat own fields) then
        FramesAll start values own address 0 fields
      else Copies start address (sizeAll fields) own

def FramesAll (start : Nat) (values : Values) (endian : Endian) (address index : Nat) :
    List InputField → Prop
  | [] => True
  | head :: fields =>
      Frames start (values.below index) endian address head ∧
        FramesAll start values endian (address + head.size) (index + 1) fields

end

/-! A byte string with the assigned values in place. -/

section Fits

variable (data patched : List UInt8)

mutual

def Fits (values : Values) (endian : Endian) (address : Nat) : InputField → Prop
  | .field cls size =>
      range (stream endian.order patched) address size =
        match values [] with
        | some value => encode endian.order size (cls.stored size value).toNat
        | none => range (stream endian.order data) address size
  | .fieldSet isFloat own fields =>
      if isAltered values (.fieldSet isFloat own fields) then
        FitsAll values own address 0 fields
      else range (stream own.order patched) address (sizeAll fields) =
        range (stream own.order data) address (sizeAll fields)

def FitsAll (values : Values) (endian : Endian) (address index : Nat) :
    List InputField → Prop
  | [] => True
  | head :: fields =>
      Fits (values.below index) endian address head ∧
        FitsAll values endian (address + head.size) (index + 1) fields

end

end Fits

/-! What `writeInto` comes to. -/

section WriteInto

variable {data patched : List UInt8} {start : Nat} {out : OutputStream}

theorem range_bytes {order other : Order} {first second : List UInt8} {address count : Nat}
    (aligned : address % 8 = 0) (whole : count % 8 = 0)
    (same : range (stream order first) address count =
      range (stream order second) address count) :
    range (stream other first) address count = range (stream other second) address count := by
  obtain ⟨address, rfl⟩ := Nat.dvd_of_mod_eq_zero aligned
  obtain ⟨count, rfl⟩ := Nat.dvd_of_mod_eq_zero whole
  rw [← stream_slice, ← stream_slice] at same ⊢
  rw [stream_injective _ same]

/-- Between byte boundaries the order of the bits does not matter. -/
theorem content_reorder {order other : Order} {next : OutputStream} {more : List Bool}
    (wellFormed : out.WellFormed order) (aligned : out.bitPos = 0)
    (nextWellFormed : next.WellFormed other)
    (content : next.content other = out.content other ++ more) (whole : more.length % 8 = 0) :
    ∃ bytes, stream other bytes = more ∧ next.WellFormed order ∧
      next.content order = out.content order ++ stream order bytes := by
  obtain ⟨bytes, rfl⟩ := exists_stream other whole
  have outOther := wellFormed.reorder aligned other
  have length := congrArg List.length content
  rw [List.length_append, nextWellFormed.length_content, outOther.length_content,
    length_stream] at length
  have short := nextWellFormed.bitPos_lt
  have nextAligned : next.bitPos = 0 := by omega
  have nextOrder := nextWellFormed.reorder nextAligned order
  rw [nextWellFormed.content_aligned nextAligned, outOther.content_aligned aligned,
    ← stream_append] at content
  refine ⟨bytes, rfl, nextOrder, ?_⟩
  rw [nextOrder.content_aligned nextAligned, wellFormed.content_aligned aligned,
    stream_injective other content, stream_append]

theorem outcome_reorder {frames : Prop} {order other : Order} {address size : Nat}
    {result : Except Failure OutputStream}
    (outcome : Outcome frames other out (range (stream other patched) address size) result)
    (wellFormed : out.WellFormed order) (aligned : out.bitPos = 0)
    (boundary : address % 8 = 0) (whole : size % 8 = 0)
    (inside : address + size ≤ 8 * patched.length) :
    Outcome frames order out (range (stream order patched) address size) result := by
  have length : ∀ order, (range (stream order patched) address size).length = size :=
    fun order => length_range (by rwa [length_stream])
  constructor
  · intro frames
    obtain ⟨next, done, nextWellFormed, content⟩ := outcome.writes frames
    obtain ⟨bytes, same, nextOrder, reordered⟩ :=
      content_reorder wellFormed aligned nextWellFormed content (by rwa [length])
    obtain ⟨address, rfl⟩ := Nat.dvd_of_mod_eq_zero boundary
    obtain ⟨size, rfl⟩ := Nat.dvd_of_mod_eq_zero whole
    rw [← stream_slice] at same ⊢
    refine ⟨next, done, nextOrder, ?_⟩
    rw [reordered, stream_injective other same]
  · intro refused next done
    obtain ⟨nextWellFormed, more, content, long, congruent⟩ :=
      outcome.overruns refused next done
    rw [length] at long congruent
    obtain ⟨bytes, rfl, nextOrder, whole⟩ :=
      content_reorder wellFormed aligned nextWellFormed content (by omega)
    rw [length_stream] at long congruent
    refine ⟨nextOrder, stream order bytes, whole, ?_⟩
    rw [length, length_stream]
    exact ⟨long, congruent⟩

mutual

theorem writeInto_outcome (values : Values) (endian : Endian) (address : Nat) :
    ∀ node : InputField, Tiled start endian.order address node → Accepted values node →
      Fits data patched values endian address node → patched.length = data.length →
      address + node.size ≤ 8 * data.length →
      ∀ out : OutputStream, out.WellFormed endian.order → Synced start address out →
        Outcome (Frames start values endian address node) endian.order out
          (range (stream endian.order patched) address node.size)
          (writeInto ⟨data⟩ out values endian address node)
  | .field cls size, tiled, accepted, fits, length, inside, out, wellFormed, synced => by
      rw [Fits] at fits
      rw [Frames, writeInto, InputField.size, fits]
      cases assigned : values [] with
      | some value =>
          exact cls.write_outcome wellFormed synced (accepted value assigned)
      | none => exact copyFrom_outcome wellFormed synced inside
  | .fieldSet isFloat own fields, tiled, accepted, fits, length, inside, out, wellFormed,
      synced => by
      have inner : out.WellFormed own.order →
          Outcome (Frames start values endian address (.fieldSet isFloat own fields))
            own.order out (range (stream own.order patched) address (sizeAll fields))
            (writeInto ⟨data⟩ out values endian address (.fieldSet isFloat own fields)) := by
        intro wellFormed
        rw [Fits] at fits
        rw [Frames, writeInto]
        by_cases altered : isAltered values (.fieldSet isFloat own fields) = true
        · rw [if_pos altered] at fits
          rw [if_pos altered, if_pos altered]
          exact writeIntoAll_outcome values own address 0 fields tiled.2 accepted fits length
            inside out wellFormed synced
        · rw [if_neg altered] at fits
          rw [if_neg altered, if_neg altered, fits]
          exact copyFrom_outcome wellFormed synced inside
      obtain same | ⟨base, boundary, whole⟩ := tiled.1
      · rw [same] at inner
        exact inner wellFormed
      · have aligned := (synced.aligned_iff wellFormed).mpr (boundary.trans base.symm)
        exact outcome_reorder (inner (wellFormed.reorder aligned own.order)) wellFormed aligned
          boundary whole (by rw [length]; exact inside)

theorem writeIntoAll_outcome (values : Values) (endian : Endian) (address index : Nat) :
    ∀ fields : List InputField, TiledAll start endian.order address fields →
      AcceptedAll values index fields →
      FitsAll data patched values endian address index fields →
      patched.length = data.length → address + sizeAll fields ≤ 8 * data.length →
      ∀ out : OutputStream, out.WellFormed endian.order → Synced start address out →
        Outcome (FramesAll start values endian address index fields) endian.order out
          (range (stream endian.order patched) address (sizeAll fields))
          (writeIntoAll ⟨data⟩ out values endian address index fields)
  | [], tiled, accepted, fits, length, inside, out, wellFormed, synced => by
      refine ⟨fun _ => ⟨out, rfl, wellFormed, ?_⟩, fun refused => absurd trivial refused⟩
      rw [sizeAll, range, List.take_zero, List.append_nil]
  | head :: fields, tiled, accepted, fits, length, inside, out, wellFormed, synced => by
      rw [sizeAll] at inside
      have first := writeInto_outcome (values.below index) endian address head tiled.1
        accepted.1 fits.1 length (by omega) out wellFormed synced
      have size : (range (stream endian.order patched) address head.size).length =
          head.size := length_range (by rw [length_stream]; omega)
      rw [FramesAll, writeIntoAll, sizeAll, ← range_append]
      refine Outcome.bind wellFormed synced first fun next nextWellFormed nextSynced => ?_
      rw [size] at nextSynced
      exact writeIntoAll_outcome values endian (address + head.size) (index + 1) fields
        tiled.2 accepted.2 fits.2 length (by omega) next nextWellFormed nextSynced

end

end WriteInto

end Segvault.Hachoir.InputField
