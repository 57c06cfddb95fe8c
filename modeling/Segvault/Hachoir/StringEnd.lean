import Segvault.Hachoir.StringLayout

namespace Segvault.Hachoir

/-! Characters of a fixed width in the content of a stream. -/

/-- The character of that code is stored at the place, in that byte order. -/
def Stored (content : List UInt8) (order : Endian) (width code place : Nat) : Prop :=
  place + width ≤ content.length ∧ unpack order (slice content place width) = code

theorem unpack_injective {order : Endian} {first second : List UInt8}
    (length : first.length = second.length) (same : unpack order first = unpack order second) :
    first = second := by
  have little : ∀ {first second : List UInt8}, first.length = second.length →
      Bytes.ofLittleEndian first = Bytes.ofLittleEndian second → first = second := by
    intro first second length same
    have digits := Nat.ofDigits_inj_of_len_eq (by decide : 1 < 256)
      (by rw [List.length_map, List.length_map, length])
      (by
        intro digit member
        obtain ⟨byte, -, rfl⟩ := List.mem_map.mp member
        exact byte.toNat_lt)
      (by
        intro digit member
        obtain ⟨byte, -, rfl⟩ := List.mem_map.mp member
        exact byte.toNat_lt) same
    exact List.map_injective_iff.mpr (fun _ _ equal => UInt8.toNat_inj.mp equal) digits
  unfold unpack at same
  split at same
  · refine List.reverse_injective (little ?_ same)
    rw [List.length_reverse, List.length_reverse, length]
  · exact little length same

/-- A character is stored where its bytes occur. -/
theorem stored_iff {content bytes : List UInt8} {order : Endian} {width code place : Nat}
    (positive : 0 < width) (length : bytes.length = width) (value : unpack order bytes = code) :
    Stored content order width code place ↔ Occurs content bytes place := by
  constructor
  · rintro ⟨inside, same⟩
    have equal : slice content place width = bytes :=
      unpack_injective ((length_slice inside).trans length.symm) (same.trans value.symm)
    rw [Occurs, length]
    exact equal
  · intro occurs
    have inside := occurs_inside (List.ne_nil_of_length_pos (by omega)) occurs
    rw [length] at inside
    refine ⟨inside, ?_⟩
    rw [Occurs, length] at occurs
    rw [slice, occurs, value]

/-- The offsets from the start of the string at which a terminator is stored. -/
def terminators (content : List UInt8) (order : Endian) (width code start : Nat) : Set Nat :=
  { offset | width ∣ offset ∧ Stored content order width code (start + offset) }

/-- The offsets to which an occurrence of the suffix is rounded up. -/
def rounded (content suffix : List UInt8) (start : Nat) : Set Nat :=
  { offset | ∃ index, Occurs content suffix (start + index) ∧
    offset = alignValue index suffix.length }

theorem alignValue_mono {align : Nat} (positive : 0 < align) {first second : Nat}
    (le : first ≤ second) : alignValue first align ≤ alignValue second align := by
  obtain ⟨-, below, ⟨count, here⟩⟩ := alignValue_spec first positive
  obtain ⟨above, -, ⟨others, there⟩⟩ := alignValue_spec second positive
  rw [here, there]
  refine Nat.mul_le_mul_left align (Nat.le_of_lt_succ (Nat.lt_of_mul_lt_mul_left (a := align) ?_))
  rw [Nat.mul_succ]
  omega

theorem foundAt_isLeast {content suffix : List UInt8} (nonempty : suffix ≠ [])
    (start offset : Nat) :
    FoundAt content suffix start offset ↔ IsLeast (rounded content suffix start) offset := by
  have positive := List.length_pos_of_ne_nil nonempty
  constructor
  · rintro ⟨index, occurs, earliest, rfl⟩
    refine ⟨⟨index, occurs, rfl⟩, ?_⟩
    rintro _ ⟨other, again, rfl⟩
    exact alignValue_mono positive (Nat.le_of_not_lt fun early => earliest other early again)
  · rintro ⟨⟨index, occurs, rfl⟩, least⟩
    classical
    have somewhere : ∃ index, Occurs content suffix (start + index) := ⟨index, occurs⟩
    refine ⟨Nat.find somewhere, Nat.find_spec somewhere,
      fun earlier early => Nat.find_min somewhere early, ?_⟩
    refine Nat.le_antisymm (least ⟨_, Nat.find_spec somewhere, rfl⟩) ?_
    exact alignValue_mono positive (Nat.find_min' somewhere occurs)

/-! Where the characters of a string begin, and in which byte order: after the byte order
mark, which is the character U+FEFF. -/

def Begins (content : List UInt8) (width start : Nat) : CharsetOrder → Endian → Nat → Prop
  | .none, order, place => order = .littleEndian ∧ place = start
  | .fixed endian, order, place => order = endian ∧ place = start
  | .bom, order, place =>
      order ≠ .middleEndian ∧ Stored content order width 0xfeff start ∧ place = start + width

/-- The bytes of the mark. -/
def mark (width : Nat) : Endian → List UInt8
  | .bigEndian => List.replicate (width - 2) 0 ++ [0xfe, 0xff]
  | _ => [0xff, 0xfe] ++ List.replicate (width - 2) 0

theorem mark_value {width : Nat} (sized : width = 2 ∨ width = 4) (order : Endian) :
    (mark width order).length = width ∧ unpack order (mark width order) = 0xfeff := by
  rcases sized with rfl | rfl
  · cases order <;> decide
  · cases order <;> decide

theorem stored_mark_iff {content : List UInt8} {width place : Nat} (sized : width = 2 ∨ width = 4)
    (order : Endian) :
    Stored content order width 0xfeff place ↔ Occurs content (mark width order) place := by
  obtain ⟨length, value⟩ := mark_value sized order
  exact stored_iff (by omega) length value

theorem mark_apart {width : Nat} (sized : width = 2 ∨ width = 4) :
    mark width .littleEndian ≠ mark width .bigEndian := by
  rcases sized with rfl | rfl
  · decide
  · decide

theorem Begins.unique {content : List UInt8} {width start : Nat} {mode : CharsetOrder}
    {first second : Endian} {place other : Nat} (sized : mode = .bom → width = 2 ∨ width = 4)
    (one : Begins content width start mode first place)
    (two : Begins content width start mode second other) : first = second ∧ place = other := by
  cases mode with
  | none => exact ⟨one.1.trans two.1.symm, one.2.trans two.2.symm⟩
  | fixed endian => exact ⟨one.1.trans two.1.symm, one.2.trans two.2.symm⟩
  | bom =>
      obtain ⟨standard, stored, rfl⟩ := one
      obtain ⟨standard', stored', rfl⟩ := two
      refine ⟨?_, rfl⟩
      have here := (stored_mark_iff (sized rfl) first).mp stored
      have there := (stored_mark_iff (sized rfl) second).mp stored'
      have length := fun order => (mark_value (sized rfl) order).1
      rw [Occurs, length] at here there
      have same := here.symm.trans there
      have apart := mark_apart (sized rfl)
      cases first with
      | middleEndian => exact absurd rfl standard
      | littleEndian =>
          cases second with
          | middleEndian => exact absurd rfl standard'
          | littleEndian => rfl
          | bigEndian => exact absurd same apart
      | bigEndian =>
          cases second with
          | middleEndian => exact absurd rfl standard'
          | littleEndian => exact absurd same.symm apart
          | bigEndian => rfl

theorem Begins.same_or_marked {content : List UInt8} {width start place : Nat}
    {mode : CharsetOrder} {order : Endian} (begins : Begins content width start mode order place) :
    place = start ∨ place = start + width ∧ Stored content order width 0xfeff start := by
  cases mode with
  | none => exact .inl begins.2
  | fixed endian => exact .inl begins.2
  | bom => exact .inr ⟨begins.2.2, begins.2.1⟩

/-- No terminator is stored before the characters. -/
theorem Begins.room {content : List UInt8} {width start code place offset : Nat}
    {mode : CharsetOrder} {order : Endian} (begins : Begins content width start mode order place)
    (notMark : code ≠ 0xfeff) (member : offset ∈ terminators content order width code start) :
    place - start ≤ offset := by
  obtain ⟨⟨count, rfl⟩, stored⟩ := member
  rcases begins.same_or_marked with rfl | ⟨rfl, marked⟩
  · rw [Nat.sub_self]
    exact Nat.zero_le _
  · cases count with
    | zero => exact absurd (stored.2.symm.trans marked.2) notMark
    | succ count =>
        rw [Nat.add_sub_cancel_left, Nat.mul_succ]
        exact Nat.le_add_left _ _

/-- The terminators, counted from the field or from its characters. -/
theorem Begins.isLeast_iff {content : List UInt8} {width start code place : Nat}
    {mode : CharsetOrder} {order : Endian} (begins : Begins content width start mode order place)
    (notMark : code ≠ 0xfeff) (offset : Nat) :
    IsLeast (terminators content order width code place) offset ↔
      IsLeast (terminators content order width code start) (place - start + offset) := by
  have moved : ∀ offset, place - start + offset ∈ terminators content order width code start ↔
      offset ∈ terminators content order width code place := by
    intro offset
    rw [terminators, terminators, Set.mem_ofPred_eq, Set.mem_ofPred_eq, ← Nat.add_assoc]
    rcases begins.same_or_marked with rfl | ⟨rfl, -⟩
    · rw [Nat.sub_self, Nat.zero_add, Nat.add_zero]
    · rw [Nat.add_sub_cancel_left, Nat.dvd_add_right (Nat.dvd_refl width)]
  constructor
  · rintro ⟨inside, least⟩
    refine ⟨(moved offset).mpr inside, fun other member => ?_⟩
    obtain ⟨rest, rfl⟩ := Nat.exists_eq_add_of_le (begins.room notMark member)
    exact Nat.add_le_add_left (least ((moved rest).mp member)) _
  · rintro ⟨inside, least⟩
    refine ⟨(moved offset).mp inside, fun other member => ?_⟩
    exact Nat.le_of_add_le_add_left (least ((moved other).mpr member))

namespace GenericString

variable {parent : StringParent} {path : String} {address : Nat} {format : StringFormat}
  {charset : Option String}

/-- The code of the character that ends the string. -/
def terminator : StringFormat → Option Nat
  | .c => some 0
  | .unixLine => some 10
  | _ => none

/-- The offsets to which an occurrence of the suffix is rounded up: the suffix is in the byte
order of the parent. -/
def suffixEnds (parent : StringParent) (start : Nat) (format : StringFormat)
    (charset : Option String) : Set Nat :=
  { offset | ∃ suffix, staticSuffixStr format charset parent.endian = .ok suffix ∧
    offset ∈ rounded parent.stream.data suffix start }

theorem suffixEnds_isLeast {start offset : Nat} (terminated : (suffixFormat format).isSome) :
    IsLeast (suffixEnds parent start format charset) offset ↔
      ∃ suffix, staticSuffixStr format charset parent.endian = .ok suffix ∧
        FoundAt parent.stream.data suffix start offset := by
  cases known : staticSuffixStr format charset parent.endian with
  | error failure =>
      refine iff_of_false ?_ (by simp)
      rintro ⟨⟨suffix, found, -⟩, -⟩
      rw [known] at found
      cases found
  | ok suffix =>
      have same : suffixEnds parent start format charset =
          rounded parent.stream.data suffix start := by
        ext other
        rw [suffixEnds, Set.mem_ofPred_eq, known]
        simp
      have nonempty := (suffix_length terminated known).2
      rw [same, ← foundAt_isLeast nonempty]
      simp

theorem utf_sized {bits : Nat} {mode : CharsetOrder} (coded : utf charset = some (bits, mode)) :
    (bits = 8 ∨ bits = 16 ∨ bits = 32) ∧ (mode = .bom → bits = 16 ∨ bits = 32) := by
  obtain ⟨name, -, found⟩ := Option.bind_eq_some_iff.mp coded
  have tables : ∀ entry ∈ utfCharset, (entry.2.1 = 8 ∨ entry.2.1 = 16 ∨ entry.2.1 = 32) ∧
      (entry.2.2 = .bom → entry.2.1 = 16 ∨ entry.2.1 = 32) := by
    decide
  exact tables _ (mem_of_lookup found)

/-- The marks that the table of the code knows. -/
theorem bom_iff {bits : Nat} (sized : bits = 16 ∨ bits = 32) (bytes : List UInt8) :
    (∃ table name, utfBom.lookup bits = some table ∧ table.lookup bytes = some name) ↔
      ∃ order, order ≠ .middleEndian ∧ bytes = mark (bits / 8) order := by
  constructor
  · rintro ⟨table, name, found, chosen⟩
    have tables : ∀ entry ∈ utfBom, ∀ choice ∈ entry.2,
        choice.1 = mark (entry.1 / 8) .littleEndian ∨ choice.1 = mark (entry.1 / 8) .bigEndian := by
      decide
    rcases tables _ (mem_of_lookup found) _ (mem_of_lookup chosen) with little | big
    · exact ⟨.littleEndian, by decide, little⟩
    · exact ⟨.bigEndian, by decide, big⟩
  · rintro ⟨order, standard, rfl⟩
    rcases sized with rfl | rfl
    · cases order with
      | middleEndian => exact absurd rfl standard
      | littleEndian => exact ⟨_, _, rfl, rfl⟩
      | bigEndian => exact ⟨_, _, rfl, rfl⟩
    · cases order with
      | middleEndian => exact absurd rfl standard
      | littleEndian => exact ⟨_, _, rfl, rfl⟩
      | bigEndian => exact ⟨_, _, rfl, rfl⟩

theorem readBytes_iff {stream : StringInputStream} {start size : Nat} (positive : 0 < size)
    (bytes : List UInt8) :
    stream.readBytes (8 * start) size = .ok bytes ↔
      start + size ≤ stream.data.length ∧ bytes = slice stream.data start size := by
  constructor
  · intro read
    obtain ⟨-, same, length⟩ := readBytes_ok read
    rw [Nat.mul_div_cancel_left _ (by decide)] at same
    refine ⟨?_, same⟩
    rw [same, slice, List.length_take, List.length_drop] at length
    omega
  · rintro ⟨inside, rfl⟩
    have bits : (8 * size + 8 * start % 8 + 7) / 8 = size := by omega
    have chunk := read_eq (by omega : 8 * start + 8 * size ≤ 8 * stream.data.length)
    rw [bits, Nat.mul_mod_right, Nat.mul_div_cancel_left _ (by decide)] at chunk
    rw [StringInputStream.readBytes, InputStream.readBytes, chunk]
    rfl

def afterMark (layout : StringLayout) (size : Nat) : StringLayout :=
  { layout with
    contentSize := layout.contentSize - size
    contentOffset := layout.contentOffset + size }

theorem chooseCharset_iff {bits start : Nat} {mode : CharsetOrder}
    (coded : utf charset = some (bits, mode)) (layout after : StringLayout) :
    (∃ chosen, chooseCharset parent path (8 * start) charset layout = .ok (chosen, after)) ↔
      ∃ order place, Begins parent.stream.data (bits / 8) start mode order place ∧
        after = afterMark layout (place - start) := by
  have unmarked : afterMark layout (start - start) = layout := by
    rw [Nat.sub_self, afterMark, Nat.cast_zero, sub_zero, Nat.add_zero]
  unfold chooseCharset
  rw [coded]
  cases mode with
  | none =>
      constructor
      · rintro ⟨_, ⟨⟩⟩
        exact ⟨.littleEndian, start, ⟨rfl, rfl⟩, unmarked.symm⟩
      · rintro ⟨order, _, ⟨-, rfl⟩, rfl⟩
        exact ⟨charset, by rw [unmarked]⟩
  | fixed endian =>
      constructor
      · rintro ⟨_, ⟨⟩⟩
        exact ⟨endian, start, ⟨rfl, rfl⟩, unmarked.symm⟩
      · rintro ⟨order, _, ⟨-, rfl⟩, rfl⟩
        exact ⟨charset, by rw [unmarked]⟩
  | bom =>
      have sized := (utf_sized coded).2 rfl
      have width : bits / 8 = 2 ∨ bits / 8 = 4 := by omega
      have moved : start + bits / 8 - start = bits / 8 := Nat.add_sub_cancel_left start _
      dsimp only [bind, Except.bind]
      constructor
      · rintro ⟨chosen, done⟩
        cases read : parent.stream.readBytes (8 * start) (bits / 8) with
        | error failure =>
            rw [read] at done
            cases done
        | ok bom =>
            rw [read] at done
            dsimp only [fromStream] at done
            split at done
            · cases done
            · next table found =>
                split at done
                · cases done
                · next name known =>
                    cases done
                    obtain ⟨order, standard, rfl⟩ :=
                      (bom_iff sized bom).mp ⟨table, name, found, known⟩
                    refine ⟨order, start + bits / 8, ⟨standard, ?_, rfl⟩, ?_⟩
                    · rw [stored_mark_iff width, Occurs, (mark_value width order).1]
                      exact ((readBytes_iff (by omega) _).mp read).2.symm
                    · rw [moved, afterMark]
      · rintro ⟨order, place, ⟨standard, stored, rfl⟩, rfl⟩
        obtain ⟨table, name, found, known⟩ :=
          (bom_iff sized (mark (bits / 8) order)).mpr ⟨order, standard, rfl⟩
        have occurs := (stored_mark_iff width order).mp stored
        rw [Occurs, (mark_value width order).1] at occurs
        have read : parent.stream.readBytes (8 * start) (bits / 8) =
            .ok (mark (bits / 8) order) :=
          (readBytes_iff (by omega) _).mpr ⟨stored.1, occurs.symm⟩
        rw [read]
        dsimp only [fromStream]
        rw [found]
        dsimp only
        rw [known, moved]
        exact ⟨some name, rfl⟩

theorem checkCharset_ok {bits : Nat} {mode : CharsetOrder}
    (coded : utf charset = some (bits, mode)) :
    ∃ characterSize, checkCharset path charset = .ok characterSize := by
  unfold checkCharset
  dsimp only
  split
  · exact ⟨_, rfl⟩
  · rw [coded]
    exact ⟨_, rfl⟩

/-- The field that the constructor builds for a string with a suffix. -/
theorem new_iff {bits : Nat} {mode : CharsetOrder} (coded : utf charset = some (bits, mode))
    (terminated : (suffixFormat format).isSome) (contentOffset : Nat) (contentSize : Int) :
    (∃ field, new parent path address format charset none = .ok field ∧
        field.layout.contentOffset = contentOffset ∧
        field.layout.contentSize = contentSize) ↔
      ∃ start offset order place, address = 8 * start ∧
        IsLeast (suffixEnds parent start format charset) offset ∧
        Begins parent.stream.data (bits / 8) start mode order place ∧
        contentOffset = place - start ∧ contentSize = offset - (place - start : Nat) := by
  constructor
  · rintro ⟨field, built, rfl, rfl⟩
    obtain ⟨layout, found, chosen, -⟩ := new_ok built
    cases findLayout_found found with
    | sized bare =>
        rw [bare] at terminated
        cases terminated
    | @ended suffix start offset free _ known place foundAt layout_eq =>
        subst place
        obtain ⟨order, place, begins, after⟩ := (chooseCharset_iff coded _ _).mp ⟨_, chosen⟩
        refine ⟨start, offset, order, place, rfl, ?_, begins, ?_, ?_⟩
        · exact (suffixEnds_isLeast terminated).mpr ⟨suffix, known, foundAt⟩
        · rw [after, layout_eq]
          exact Nat.zero_add _
        · rw [after, layout_eq]
          rfl
  · rintro ⟨start, offset, order, place, rfl, least, begins, rfl, rfl⟩
    obtain ⟨suffix, known, foundAt⟩ := (suffixEnds_isLeast terminated).mp least
    obtain ⟨characterSize, checked⟩ := @checkCharset_ok path _ _ _ coded
    have nonempty := (suffix_length terminated known).2
    have layout : findLayout parent path (8 * start) format charset none =
        .ok ⟨0, offset, (offset + suffix.length) * 8⟩ := by
      rw [findLayout, if_pos terminated]
      exact (suffixLayout_iff known nonempty _).mpr ⟨start, offset, rfl, foundAt, rfl⟩
    obtain ⟨charset', chosen⟩ :=
      (@chooseCharset_iff parent path _ _ start _ coded ⟨0, offset, (offset + suffix.length) * 8⟩
        _).mpr ⟨order, place, begins, rfl⟩
    rw [new, checked]
    dsimp only [bind, Except.bind]
    rw [layout]
    dsimp only
    rw [chosen]
    exact ⟨_, rfl, Nat.zero_add _, rfl⟩

/-! Strings that end at the first terminator. -/

/-- How far from the field the characters begin, and how far from there the first terminator
is stored. -/
def FirstTerminator (content : List UInt8) (address width code : Nat) (mode : CharsetOrder)
    (contentOffset offset : Nat) : Prop :=
  ∃ start order place, address = 8 * start ∧ Begins content width start mode order place ∧
    contentOffset = place - start ∧ IsLeast (terminators content order width code place) offset

/-- A field is built, with these bytes as its content, just when these are the characters up
to the first terminator. -/
def EndsAtTerminator (parent : StringParent) (path : String) (address : Nat)
    (format : StringFormat) (charset : Option String) (width code : Nat) (mode : CharsetOrder) :
    Prop :=
  ∀ (contentOffset : Nat) (contentSize : Int),
    (∃ field, new parent path address format charset none = .ok field ∧
        field.layout.contentOffset = contentOffset ∧ field.layout.contentSize = contentSize) ↔
      ∃ offset : Nat, contentSize = offset ∧
        FirstTerminator parent.stream.data address width code mode contentOffset offset

/-- The first offset at which a terminator is stored, or to which an occurrence of the suffix
is rounded up, is an offset of both. -/
def SuffixMarksEnd (parent : StringParent) (address : Nat) (format : StringFormat)
    (charset : Option String) (width code : Nat) (mode : CharsetOrder) : Prop :=
  ∀ start order place, address = 8 * start →
    Begins parent.stream.data width start mode order place → ∀ offset,
      (∀ earlier < offset, earlier ∉ terminators parent.stream.data order width code start ∧
        earlier ∉ suffixEnds parent start format charset) →
      (offset ∈ terminators parent.stream.data order width code start ↔
        offset ∈ suffixEnds parent start format charset)

theorem endsAtTerminator_iff {bits code : Nat} {mode : CharsetOrder}
    (coded : utf charset = some (bits, mode)) (ends : terminator format = some code) :
    EndsAtTerminator parent path address format charset (bits / 8) code mode ↔
      SuffixMarksEnd parent address format charset (bits / 8) code mode := by
  have terminated : (suffixFormat format).isSome := by
    cases format with
    | c => rfl
    | unixLine => rfl
    | _ => cases ends
  have notMark : code ≠ 0xfeff := by
    cases format with
    | c => cases ends; decide
    | unixLine => cases ends; decide
    | _ => cases ends
  have sized : mode = .bom → bits / 8 = 2 ∨ bits / 8 = 4 := by
    have widths := (utf_sized coded).2
    intro marked
    have bits := widths marked
    omega
  have built := @new_iff parent path address _ _ _ _ coded terminated
  constructor
  · rintro agree start order place rfl begins
    refine isLeast_congr_iff.mp fun least => ?_
    constructor
    · intro isLeast
      obtain ⟨offset, rfl⟩ := Nat.exists_eq_add_of_le (begins.room notMark isLeast.1)
      have first := (begins.isLeast_iff notMark offset).mpr isLeast
      obtain ⟨start', found, order', place', same, ended, begins', offset_eq, size_eq⟩ :=
        (built _ _).mp ((agree _ _).mpr ⟨offset, rfl, start, order, place, rfl, begins, rfl, first⟩)
      obtain rfl : start = start' := Nat.eq_of_mul_eq_mul_left (by decide) same
      have equal : place - start + offset = found := by omega
      rw [equal]
      exact ended
    · intro isLeast
      obtain ⟨offset, size_eq, start', order', place', same, begins', offset_eq, first⟩ :=
        (agree _ _).mp ((built (place - start) _).mpr
          ⟨start, least, order, place, rfl, isLeast, begins, rfl, rfl⟩)
      obtain rfl : start = start' := Nat.eq_of_mul_eq_mul_left (by decide) same
      obtain ⟨rfl, rfl⟩ := begins.unique sized begins'
      have equal : least = place - start + offset := by omega
      rw [equal]
      exact (begins.isLeast_iff notMark offset).mp first
  · intro agree contentOffset contentSize
    rw [built]
    constructor
    · rintro ⟨start, found, order, place, rfl, isLeast, begins, rfl, rfl⟩
      have first := (isLeast_congr_iff.mpr (agree start order place rfl begins) found).mpr isLeast
      obtain ⟨offset, rfl⟩ := Nat.exists_eq_add_of_le (begins.room notMark first.1)
      refine ⟨offset, by omega, start, order, place, rfl, begins, rfl, ?_⟩
      exact (begins.isLeast_iff notMark offset).mpr first
    · rintro ⟨offset, rfl, start, order, place, rfl, begins, rfl, first⟩
      have least := (begins.isLeast_iff notMark offset).mp first
      refine ⟨start, place - start + offset, order, place, rfl, ?_, begins, rfl, by omega⟩
      exact (isLeast_congr_iff.mpr (agree start order place rfl begins) _).mp least

/-- U+0061, U+6200 and the terminator: two zero bytes stand first across the characters. -/
def straddled : StringParent := ⟨⟨[0x61, 0, 0, 0x62, 0, 0]⟩, .littleEndian⟩

theorem endsAtTerminator_iff_straddled :
    EndsAtTerminator straddled "/name" 0 .c (some "UTF-16-LE") (16 / 8) 0 (.fixed .littleEndian) ↔
      SuffixMarksEnd straddled 0 .c (some "UTF-16-LE") (16 / 8) 0 (.fixed .littleEndian) :=
  endsAtTerminator_iff (by decide) rfl

theorem endsAtTerminator_fails :
    ¬ EndsAtTerminator straddled "/name" 0 .c (some "UTF-16-LE") 2 0 (.fixed .littleEndian) := by
  intro claim
  have built : new straddled "/name" 0 .c (some "UTF-16-LE") none =
      .ok ⟨.c, some "UTF-16-LE", none, ⟨0, 2, 32⟩, none⟩ := by
    decide
  obtain ⟨offset, size, start, order, place, origin, ⟨rfl, rfl⟩, -, ⟨-, stored⟩, -⟩ :=
    (claim 0 2).mp ⟨_, built, rfl, rfl⟩
  obtain rfl : place = 0 := by omega
  obtain rfl : offset = 2 := by omega
  exact absurd stored.2 (by decide)

end GenericString

end Segvault.Hachoir
