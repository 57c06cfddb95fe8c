import Segvault.Hachoir.EditedTree

namespace Segvault.Hachoir.InputField

open BitString

/-! The field at a path. -/

/-- A field with the endian of its field set and its absolute address; it is `lost` inside
of a float, whose value alone says whether it is altered. -/
structure Target where
  cls : FieldClass
  size : Nat
  endian : Endian
  address : Nat
  lost : Bool
  deriving DecidableEq, Repr

mutual

def target (endian : Endian) (address : Nat) : InputField → List Nat → Option Target
  | .field cls size, [] => some ⟨cls, size, endian, address, false⟩
  | .fieldSet isFloat own fields, index :: path =>
      (targetAll own address fields index path).map fun target =>
        { target with lost := isFloat || target.lost }
  | _, _ => none

def targetAll (endian : Endian) (address : Nat) :
    List InputField → Nat → List Nat → Option Target
  | [], _, _ => none
  | head :: _, 0, path => target endian address head path
  | head :: fields, index + 1, path =>
      targetAll endian (address + head.size) fields index path

end

/-! Where nothing is assigned. -/

abbrev unassigned : Values := fun _ => none

mutual

theorem isAltered_unassigned : ∀ node : InputField, isAltered unassigned node = false
  | .field .. => rfl
  | .fieldSet isFloat _ fields => by
      rw [isAltered, isAlteredAny_unassigned unassigned 0 fields fun _ _ => rfl,
        Bool.and_false]

theorem isAlteredAny_unassigned (values : Values) (index : Nat) :
    ∀ fields : List InputField, (∀ other, index ≤ other → values.below other = unassigned) →
      isAlteredAny values index fields = false
  | [], _ => rfl
  | head :: fields, free => by
      rw [isAlteredAny, free index le_rfl, isAltered_unassigned head,
        isAlteredAny_unassigned values (index + 1) fields fun other past =>
          free other (by omega), Bool.or_false]

end

mutual

theorem accepted_unassigned : ∀ node : InputField, Accepted unassigned node
  | .field .. => nofun
  | .fieldSet _ _ fields => acceptedAll_unassigned unassigned 0 fields fun _ _ => rfl

theorem acceptedAll_unassigned (values : Values) (index : Nat) :
    ∀ fields : List InputField, (∀ other, index ≤ other → values.below other = unassigned) →
      AcceptedAll values index fields
  | [], _ => trivial
  | head :: fields, free =>
      ⟨free index le_rfl ▸ accepted_unassigned head,
        acceptedAll_unassigned values (index + 1) fields fun other past =>
          free other (by omega)⟩

end

section Single

variable {data patched : List UInt8} {start : Nat}

theorem fits_unassigned {endian : Endian} {address : Nat} {node : InputField}
    (tiled : Tiled start endian.order address node)
    (same : range (stream endian.order patched) address node.size =
      range (stream endian.order data) address node.size) :
    Fits data patched unassigned endian address node := by
  cases node with
  | field cls size => exact same
  | fieldSet isFloat own fields =>
      rw [Fits, isAltered_unassigned, if_neg Bool.false_ne_true]
      obtain order | ⟨-, boundary, whole⟩ := tiled.1
      · rw [order]
        exact same
      · exact range_bytes boundary whole same

theorem fitsAll_unassigned {values : Values} {endian : Endian} {address index : Nat}
    {fields : List InputField} (tiled : TiledAll start endian.order address fields)
    (free : ∀ other, index ≤ other → values.below other = unassigned)
    (same : ∀ from' count, address ≤ from' → from' + count ≤ address + sizeAll fields →
      range (stream endian.order patched) from' count =
        range (stream endian.order data) from' count) :
    FitsAll data patched values endian address index fields := by
  induction fields generalizing address index with
  | nil => trivial
  | cons head fields induction =>
      rw [sizeAll] at same
      refine ⟨?_, induction tiled.2 (fun other past => free other (by omega))
        fun from' count low high => same from' count (by omega) (by omega)⟩
      rw [free index le_rfl]
      exact fits_unassigned tiled.1 (same address head.size le_rfl (by omega))

/-! One assignment. -/

theorem single_here (index : Nat) (path : List Nat) (value : Int) :
    (Values.single (index :: path) value).below index = .single path value := by
  funext other
  simp [Values.below, Values.single]

theorem single_apart {index other : Nat} (apart : other ≠ index) (path : List Nat)
    (value : Int) : (Values.single (index :: path) value).below other = unassigned := by
  funext rest
  simp [Values.below, Values.single, apart]

variable (data patched start) in
/-- What an assignment to a target says of a field around it. -/
structure Around (value : Int) (target : Target) (values : Values) (endian : Endian)
    (address : Nat) (node : InputField) : Prop where
  low : address ≤ target.address
  high : target.address + target.size ≤ address + node.size
  altered : isAltered values node = !target.lost
  accepted : target.cls.accepts target.size value → Accepted values node
  writable : target.lost = false → Frames start values endian address node →
    target.cls.Writable start target.address target.size target.endian value
  within : Tiled start endian.order address node →
    Within target.endian.order data patched target.address
      (target.address + target.size) →
    Within endian.order data patched address (address + node.size)
  fits : Tiled start endian.order address node → target.lost = false →
    Within target.endian.order data patched target.address
      (target.address + target.size) →
    range (stream target.endian.order patched) target.address target.size =
      encode target.endian.order target.size
        (target.cls.stored target.size value).toNat →
    Fits data patched values endian address node

variable (data patched start) in
structure AroundAll (value : Int) (target : Target) (values : Values) (endian : Endian)
    (address index : Nat) (fields : List InputField) : Prop where
  low : address ≤ target.address
  high : target.address + target.size ≤ address + sizeAll fields
  altered : isAlteredAny values index fields = !target.lost
  accepted : target.cls.accepts target.size value → AcceptedAll values index fields
  writable : target.lost = false → FramesAll start values endian address index fields →
    target.cls.Writable start target.address target.size target.endian value
  within : TiledAll start endian.order address fields →
    Within target.endian.order data patched target.address
      (target.address + target.size) →
    Within endian.order data patched address (address + sizeAll fields)
  fits : TiledAll start endian.order address fields → target.lost = false →
    Within target.endian.order data patched target.address
      (target.address + target.size) →
    range (stream target.endian.order patched) target.address target.size =
      encode target.endian.order target.size
        (target.cls.stored target.size value).toNat →
    FitsAll data patched values endian address index fields

mutual

theorem around (value : Int) (endian : Endian) (address : Nat) :
    ∀ (node : InputField) (path : List Nat) (found : Target),
      target endian address node path = some found →
      Around data patched start value found (.single path value) endian address node
  | .field cls size, [], found, here => by
      cases Option.some.inj here
      have assigned : Values.single [] value [] = some value := if_pos rfl
      exact {
        low := le_rfl
        high := le_rfl
        altered := by rw [isAltered, assigned]; rfl
        accepted := fun accepted _ some => by
          cases assigned.symm.trans some
          exact accepted
        writable := fun _ frames => by
          rw [Frames, assigned] at frames
          exact frames
        within := fun _ within => within
        fits := fun _ _ _ put => by
          rw [Fits, assigned]
          exact put }
  | .fieldSet isFloat own fields, index :: path, found, here => by
      rw [target] at here
      obtain ⟨inner, reached, rfl⟩ := Option.map_eq_some_iff.mp here
      have inside := aroundAll value own address 0 fields index path inner reached
      rw [Nat.zero_add] at inside
      have altered : isAltered (.single (index :: path) value) (.fieldSet isFloat own fields) =
          !(isFloat || inner.lost) := by
        rw [isAltered, inside.altered, Bool.not_or]
      exact {
        low := inside.low
        high := inside.high
        altered := altered
        accepted := inside.accepted
        writable := fun kept frames => by
          have kept : (isFloat || inner.lost) = false := kept
          have reaches := Bool.or_eq_false_iff.mp kept
          rw [Frames, altered, kept, Bool.not_false, if_pos rfl] at frames
          exact inside.writable reaches.2 frames
        within := fun tiled within => by
          have inner := inside.within tiled.2 within
          obtain order | ⟨-, boundary, whole⟩ := tiled.1
          · rw [order] at inner
            exact inner
          · exact inner.bytes boundary (by omega) _
        fits := fun tiled kept within put => by
          have kept : (isFloat || inner.lost) = false := kept
          have reaches := Bool.or_eq_false_iff.mp kept
          rw [Fits, altered, kept, Bool.not_false, if_pos rfl]
          exact inside.fits tiled.2 reaches.2 within put }
  | .field .., _ :: _, found, here => by
      cases here
  | .fieldSet .., [], found, here => by
      cases here

theorem aroundAll (value : Int) (endian : Endian) (address index : Nat) :
    ∀ (fields : List InputField) (place : Nat) (path : List Nat) (found : Target),
      targetAll endian address fields place path = some found →
      AroundAll data patched start value found (.single ((index + place) :: path) value)
        endian address index fields
  | [], _, _, found, here => by
      cases here
  | head :: fields, 0, path, found, here => by
      have inside := around value endian address head path found here
      have high := inside.high
      have free : ∀ other, index + 1 ≤ other →
          (Values.single (index :: path) value).below other = unassigned :=
        fun other past => single_apart (by omega) path value
      rw [Nat.add_zero]
      exact {
        low := inside.low
        high := by rw [sizeAll]; omega
        altered := by
          rw [isAlteredAny, single_here, inside.altered,
            isAlteredAny_unassigned _ _ fields free, Bool.or_false]
        accepted := fun accepted => by
          rw [AcceptedAll, single_here]
          exact ⟨inside.accepted accepted, acceptedAll_unassigned _ _ fields free⟩
        writable := fun kept frames => by
          rw [FramesAll, single_here] at frames
          exact inside.writable kept frames.1
        within := fun tiled within =>
          (inside.within tiled.1 within).mono le_rfl (by rw [sizeAll]; omega)
        fits := fun tiled kept within put => by
          rw [FitsAll, single_here]
          exact ⟨inside.fits tiled.1 kept within put, fitsAll_unassigned tiled.2 free
            fun _ _ low _ => (inside.within tiled.1 within).range_after low⟩ }
  | head :: fields, place + 1, path, found, here => by
      have inside := aroundAll value endian (address + head.size) (index + 1) fields place path
        found here
      have place_eq : index + (place + 1) = index + 1 + place := by omega
      have low := inside.low
      have high := inside.high
      have free : (Values.single ((index + 1 + place) :: path) value).below index =
          unassigned := single_apart (by omega) path value
      rw [place_eq]
      exact {
        low := by omega
        high := by rw [sizeAll]; omega
        altered := by
          rw [isAlteredAny, free, isAltered_unassigned, Bool.false_or, inside.altered]
        accepted := fun accepted => by
          rw [AcceptedAll, free]
          exact ⟨accepted_unassigned head, inside.accepted accepted⟩
        writable := fun kept frames => inside.writable kept frames.2
        within := fun tiled within =>
          (inside.within tiled.2 within).mono (by omega) (by rw [sizeAll]; omega)
        fits := fun tiled kept within put => by
          rw [FitsAll, free]
          exact ⟨fits_unassigned tiled.1 ((inside.within tiled.2 within).range_before le_rfl),
            inside.fits tiled.2 kept within put⟩ }

end

end Single

/-! The output of a field set with one assigned value. -/

section Edited

variable (data : List UInt8) (start : Nat) (own : Endian) (fields : List InputField)
  (path : List Nat) (value : Int) (found : Target)

/-- The bits of the input with those of one field replaced. -/
def Produces (bits : List Bool) : Prop :=
  ∃ out patched,
    writeInto ⟨data⟩ .empty (.single path value) own start (.fieldSet false own fields) =
      .ok out ∧
    Patched found.endian.order data found.address bits patched ∧
    out.content own.order = range (stream own.order patched) start (sizeAll fields)

/-- The bits of a value in a field, those of a negative one in two's complement. -/
def valueBits : List Bool :=
  encode found.endian.order found.size (value % 2 ^ found.size).toNat

/-- The bits that `writeInto` puts into a field. -/
def written : List Bool :=
  if found.lost then range (stream found.endian.order data) found.address found.size
  else encode found.endian.order found.size (found.cls.stored found.size value).toNat

/-- The field is no signed integer, and an assignment that is lost changes nothing. -/
def Kept : Prop :=
  if found.lost then
    range (stream found.endian.order data) found.address found.size = valueBits value found
  else found.cls ≠ .integer true

variable {data start own fields path value found}
  (located : target own start (.fieldSet false own fields) path = some found)
  (accepted : found.cls.accepts found.size value)
  (tiled : TiledAll start own.order start fields)
  (inside : start + sizeAll fields ≤ 8 * data.length)

include located inside in
theorem target_inside : found.address + found.size ≤ 8 * data.length :=
  (@around data data start 0 own start _ path found located).high.trans inside

include located inside in
theorem length_written : (written data value found).length = found.size := by
  rw [written]
  split
  · exact length_range (by rw [length_stream]; exact target_inside located inside)
  · exact length_encode ..

include located accepted tiled inside in
theorem written_outcome :
    ∃ patched, Patched found.endian.order data found.address (written data value found)
        patched ∧
      Outcome (Frames start (.single path value) own start (.fieldSet false own fields))
        own.order .empty (range (stream own.order patched) start (sizeAll fields))
        (writeInto ⟨data⟩ .empty (.single path value) own start (.fieldSet false own fields))
      := by
  have whole := target_inside located inside
  have length := @length_written data start own fields path value found located inside
  have around := fun patched =>
    @around data patched start value own start _ path found located
  have root : Tiled start own.order start (.fieldSet false own fields) := ⟨.inl rfl, tiled⟩
  have synced : Synced start start .empty := by
    rw [Synced, OutputStream.empty, Nat.zero_add]
  have outcome : ∀ patched, patched.length = data.length →
      Fits data patched (.single path value) own start (.fieldSet false own fields) →
      Outcome (Frames start (.single path value) own start (.fieldSet false own fields))
        own.order .empty (range (stream own.order patched) start (sizeAll fields))
        (writeInto ⟨data⟩ .empty (.single path value) own start (.fieldSet false own fields)) :=
    fun patched same fits => writeInto_outcome _ own start _ root
      ((around patched).accepted accepted) fits same inside .empty (empty_wellFormed _) synced
  by_cases lost : found.lost = true
  · refine ⟨data, ?_, outcome data rfl ?_⟩
    · rw [written, if_pos lost]
      exact patched_self _ _ whole
    · rw [Fits, (around data).altered, lost, Bool.not_true, if_neg Bool.false_ne_true]
  · obtain ⟨patched, replaced⟩ := @exists_patched found.endian.order data found.address
      (written data value found) (by rw [length]; exact whole)
    have within := replaced.within (by rw [length]; exact whole)
    have put := replaced.range_eq (by rw [length]; exact whole)
    rw [length] at within put
    rw [written, if_neg lost] at put
    exact ⟨patched, replaced, outcome patched (replaced.length_eq (by rw [length]; exact whole))
      ((around patched).fits root (Bool.eq_false_iff.mpr lost) within put)⟩

include located accepted tiled inside in
/-- The output is the input with the written bits, if anything comes out as it should. -/
theorem produces_iff {bits : List Bool} (count : bits.length = found.size) :
    Produces data start own fields path value found bits ↔
      Frames start (.single path value) own start (.fieldSet false own fields) ∧
        bits = written data value found := by
  obtain ⟨patched, replaced, outcome⟩ := written_outcome located accepted tiled inside
  have whole := target_inside located inside
  have length := @length_written data start own fields path value found located inside
  constructor
  · rintro ⟨out, other, done, otherReplaced, content⟩
    have same := replaced.length_eq (by rw [length]; exact whole)
    have otherSame := otherReplaced.length_eq (by rw [count]; exact whole)
    have frames : Frames start (.single path value) own start (.fieldSet false own fields) := by
      by_contra refused
      obtain ⟨-, more, overrun, long, -⟩ := outcome.overruns refused out done
      have short := congrArg List.length (overrun.symm.trans content)
      rw [content_empty, List.nil_append,
        length_range (by rw [length_stream, otherSame]; exact inside)] at short
      rw [length_range (by rw [length_stream, same]; exact inside)] at long
      omega
    obtain ⟨next, again, -, written⟩ := outcome.writes frames
    cases again.symm.trans done
    rw [content_empty, List.nil_append] at written
    have around := fun patched =>
      @around data patched start value own start _ path found located
    have root : Tiled start own.order start (.fieldSet false own fields) := ⟨.inl rfl, tiled⟩
    have within := replaced.within (by rw [length]; exact whole)
    have otherWithin := otherReplaced.within (by rw [count]; exact whole)
    rw [length] at within
    rw [count] at otherWithin
    have equal := ((around patched).within root within).eq_of_range
      ((around other).within root otherWithin) (written.symm.trans content)
    have bits_eq := otherReplaced.range_eq (by rw [count]; exact whole)
    have put := replaced.range_eq (by rw [length]; exact whole)
    rw [count, ← equal, ← length] at bits_eq
    exact ⟨frames, bits_eq.symm.trans put⟩
  · rintro ⟨frames, rfl⟩
    obtain ⟨out, done, -, content⟩ := outcome.writes frames
    exact ⟨out, patched, done, replaced, content⟩

theorem stored_iff {cls : FieldClass} {start address size : Nat} {endian : Endian}
    {value : Int} (accepted : cls.accepts size value)
    (writable : cls.Writable start address size endian value) (order : Order) :
    encode order size (value % 2 ^ size).toNat =
      encode order size (cls.stored size value).toNat ↔ cls ≠ .integer true := by
  have plain : 0 ≤ value → value < 2 ^ size → cls.stored size value = value →
      encode order size (value % 2 ^ size).toNat =
        encode order size (cls.stored size value).toNat := by
    intro positive small same
    rw [same, Int.emod_eq_of_lt positive small]
  cases cls with
  | rawBits =>
      obtain ⟨positive, small⟩ := of_decide_eq_true accepted
      refine iff_of_true (plain positive small rfl) fun wrong => ?_
      cases wrong
  | integer signed =>
      obtain ⟨sizes, unsigned⟩ := FieldClass.accepts_integer accepted
      cases signed with
      | false =>
          obtain ⟨positive, small⟩ := unsigned rfl
          refine iff_of_true (plain positive small rfl) fun wrong => ?_
          cases wrong
      | true =>
          refine iff_of_false (fun same => ?_) (not_not_intro rfl)
          obtain ⟨low, high⟩ := writable.2.2 rfl
          have numbers := congrArg (decode order) same
          rw [decode_encode, decode_encode, FieldClass.stored] at numbers
          obtain rfl | rfl | rfl := sizes
          all_goals
            norm_num at low high numbers
            omega
  | character =>
      obtain ⟨rfl, positive, small⟩ := of_decide_eq_true accepted
      refine iff_of_true (plain positive small rfl) fun wrong => ?_
      cases wrong
  | other => exact absurd accepted Bool.false_ne_true

include located accepted tiled inside in
theorem edit_changes_only_iff :
    ((∃ bits, bits.length = found.size ∧ Produces data start own fields path value found bits) ↔
      Frames start (.single path value) own start (.fieldSet false own fields)) ∧
    (Produces data start own fields path value found (valueBits value found) ↔
      Frames start (.single path value) own start (.fieldSet false own fields) ∧
        Kept data value found) := by
  have size : (valueBits value found).length = found.size := length_encode ..
  constructor
  · constructor
    · rintro ⟨bits, count, produces⟩
      exact ((produces_iff located accepted tiled inside count).mp produces).1
    · intro frames
      have length := @length_written data start own fields path value found located inside
      exact ⟨_, length, (produces_iff located accepted tiled inside length).mpr ⟨frames, rfl⟩⟩
  · rw [produces_iff located accepted tiled inside size]
    refine and_congr_right fun frames => ?_
    rw [Kept, written]
    split
    · exact eq_comm
    · next lost =>
        exact stored_iff accepted ((@around data data start value own start _ path found
          located).writable (Bool.eq_false_iff.mpr lost) frames) _

include located accepted tiled inside in
/-- For a field that is no signed integer, and not inside of a float. -/
theorem edit_changes_only (kept : found.lost = false) (unsigned : found.cls ≠ .integer true) :
    Produces data start own fields path value found (valueBits value found) ↔
      Frames start (.single path value) own start (.fieldSet false own fields) := by
  rw [(edit_changes_only_iff located accepted tiled inside).2, Kept, kept,
    if_neg Bool.false_ne_true]
  exact and_iff_left unsigned

end Edited

/-! Two nibbles, and a byte between two nibbles. -/

theorem edit_changes_only_nibble :
    Produces [0xAB] 0 .bigEndian [.field .rawBits 4, .field .rawBits 4] [0] 5
      ⟨.rawBits, 4, .bigEndian, 0, false⟩ (valueBits 5 ⟨.rawBits, 4, .bigEndian, 0, false⟩) := by
  have tiled : TiledAll 0 Endian.bigEndian.order 0
      [.field .rawBits 4, .field .rawBits 4] := ⟨trivial, trivial, trivial⟩
  refine (edit_changes_only (by decide) (by decide) tiled (by decide) (by decide)
    (by decide)).mpr ?_
  rw [Frames, if_pos (by decide)]
  exact ⟨nofun, (by decide : Copies 0 4 4 .bigEndian), trivial⟩

theorem edit_fails_across_bytes :
    ¬ ∀ (data : List UInt8) (start : Nat) (own : Endian) (fields : List InputField)
      (path : List Nat) (value : Int) (found : Target),
      target own start (.fieldSet false own fields) path = some found →
      found.cls.accepts found.size value →
      TiledAll start own.order start fields → start + sizeAll fields ≤ 8 * data.length →
      Produces data start own fields path value found (valueBits value found) := by
  intro claim
  have tiled : TiledAll 0 Endian.bigEndian.order 0
      [.field .rawBits 4, .field .rawBits 8, .field .rawBits 4] :=
    ⟨trivial, trivial, trivial, trivial⟩
  have produces := claim [0xAB, 0xCD] 0 .bigEndian
    [.field .rawBits 4, .field .rawBits 8, .field .rawBits 4] [0] 5
    ⟨.rawBits, 4, .bigEndian, 0, false⟩ (by decide) (by decide) tiled (by decide)
  have frames := ((produces_iff (by decide) (by decide) tiled (by decide)
    (by decide)).mp produces).1
  rw [Frames, if_pos (by decide)] at frames
  exact absurd frames.2.1 (by decide : ¬ Copies 0 4 8 .bigEndian)

end Segvault.Hachoir.InputField
