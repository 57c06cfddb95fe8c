import Segvault.Hachoir.GenericString

namespace Segvault.Hachoir

/-! What the search of a stream answers, from any place and on any content. -/

section Search

variable {stream : StringInputStream} {needle : List UInt8}

theorem StringInputStream.searchBytes_unaligned {start : Nat} (unaligned : start % 8 ≠ 0)
    (turns : Nat) :
    stream.searchBytes needle turns start none =
      .error (.inputStreamError InputStream.bitGranularity) := by
  rw [StringInputStream.searchBytes, InputStream.searchBytes, if_pos unaligned]
  rfl

theorem StringInputStream.read_nothing (empty : stream.data = []) (address : Nat) {size : Nat}
    (positive : 0 < size) : ∃ failure, stream.read address size = .error failure := by
  obtain outside | ⟨shift, data, missing⟩ := stream.reader.outside address size positive (by
    rw [empty, List.length_nil]
    omega)
  · exact outside
  · unfold StringInputStream.read at missing
    dsimp only at missing
    split at missing
    · cases missing
    · cases missing

theorem searchLoop_raises {σ : Type} {read : Nat → Nat → Session Failure σ Chunk}
    {known : Session Failure σ (Option Nat)} {start size : Nat} {state : σ} {failure : Failure}
    (raised : Session.perform (read start (8 * size)) state = (.error failure, state))
    (turns : Nat) (buffer : List UInt8) :
    Session.perform (InputStream.searchLoop read known needle (turns + 1) start none size buffer)
      state = (.error failure, state) := by
  have bytes : Session.perform (InputStream.readBytes read start size) state =
      (.error failure, state) := Session.perform_bind_error raised
  rw [InputStream.searchLoop]
  dsimp only
  rw [if_neg (by omega), if_neg (Nat.lt_irrefl size)]
  exact Session.perform_bind_error bytes

theorem StringInputStream.searchBytes_nothing (empty : stream.data = []) (turns start : Nat) :
    ∃ failure, stream.searchBytes needle (turns + 1) start none = .error failure := by
  by_cases aligned : start % 8 = 0
  · obtain ⟨failure, raised⟩ := stream.read_nothing empty start
      (by omega : 0 < 8 * max (3 * needle.length) 4096)
    have looped : Session.perform (InputStream.searchBytes
        (fun address size => lift (stream.read address size))
        (pure (some (8 * stream.data.length))) needle (turns + 1) start none) stream =
          (.error failure, stream) := by
      rw [InputStream.searchBytes, if_neg (not_not_intro aligned), empty]
      refine (Session.perform_bind_ok (Session.perform_pure _ _)).trans ?_
      refine searchLoop_raises ?_ turns []
      rw [raised]
      rfl
    refine ⟨failure, ?_⟩
    rw [StringInputStream.searchBytes]
    exact congrArg Prod.fst looped
  · exact ⟨_, searchBytes_unaligned aligned _⟩

theorem StringInputStream.searchBytes_place (nonempty : needle ≠ []) (some : stream.data ≠ [])
    (place : Nat) :
    ∃ answer, stream.searchBytes needle (stream.data.length + 2) (8 * place) none = .ok answer ∧
      FoundFirst stream.data needle place stream.data.length answer := by
  have positive := List.length_pos_of_ne_nil some
  have searched : ∃ answer final, Session.perform (InputStream.searchBytes
      (fun address size => lift (stream.read address size))
      (pure (.some (8 * stream.data.length))) needle (stream.data.length + 2) (8 * place)
        ((none : Option Nat).map fun stop => 8 * stop)) stream = (.ok answer, final) ∧
      FoundFirst stream.data needle place ((none : Option Nat).getD stream.data.length) answer :=
    searchBytes_first stream.reads (fun _ => rfl) (by omega) (by omega) nonempty (by omega) rfl
      none
  obtain ⟨answer, final, returned, found⟩ := searched
  refine ⟨answer, ?_, found⟩
  rw [StringInputStream.searchBytes]
  exact congrArg Prod.fst returned

theorem searchBytesLength_ok {turns start : Nat} {stop answer : Option Nat}
    (returned : stream.searchBytes needle turns start stop = .ok answer) :
    stream.searchBytesLength needle false turns start stop =
      .ok (answer.map fun pos => (pos - start) / 8) := by
  rw [StringInputStream.searchBytesLength, returned]
  cases answer with
  | none => rfl
  | some pos => rfl

theorem searchBytesLength_error {turns start : Nat} {stop : Option Nat} {failure : Failure}
    (raised : stream.searchBytes needle turns start stop = .error failure) :
    stream.searchBytesLength needle false turns start stop = .error failure := by
  rw [StringInputStream.searchBytesLength, raised]
  rfl

end Search

/-! Where a string with a suffix ends: the first place of the suffix, rounded up to its
length. -/

def FoundAt (content suffix : List UInt8) (start offset : Nat) : Prop :=
  ∃ index, Occurs content suffix (start + index) ∧
    (∀ earlier < index, ¬ Occurs content suffix (start + earlier)) ∧
    offset = alignValue index suffix.length

theorem foundAt_iff {content suffix : List UInt8} {start : Nat} {answer : Option Nat}
    (nonempty : suffix ≠ []) (found : FoundFirst content suffix start content.length answer)
    (offset : Nat) :
    FoundAt content suffix start offset ↔
      ∃ address ∈ answer, offset = alignValue ((address - 8 * start) / 8) suffix.length := by
  cases answer with
  | none =>
      refine iff_of_false ?_ (by simp)
      rintro ⟨index, occurs, -⟩
      exact found _ (Nat.le_add_right _ _) (occurs_inside nonempty occurs) occurs
  | some address =>
      obtain ⟨place, rfl, after, -, occurs, first⟩ := found
      obtain ⟨index, rfl⟩ := Nat.exists_eq_add_of_le after
      have length : (8 * (start + index) - 8 * start) / 8 = index := by omega
      simp only [Option.mem_some_iff, exists_eq_left', length]
      constructor
      · rintro ⟨other, again, earliest, rfl⟩
        rcases Nat.lt_trichotomy other index with early | rfl | late
        · exact absurd again (first _ (Nat.le_add_right _ _) (by omega))
        · rfl
        · exact absurd occurs (earliest index late)
      · rintro rfl
        refine ⟨index, occurs, fun earlier early => ?_, rfl⟩
        exact first _ (Nat.le_add_right _ _) (by omega)

theorem alignValue_one (value : Nat) : alignValue value 1 = value := by
  rw [alignValue, Nat.mod_one, if_neg (not_not_intro rfl)]

theorem alignValue_spec (value : Nat) {align : Nat} (positive : 0 < align) :
    value ≤ alignValue value align ∧ alignValue value align < value + align ∧
      align ∣ alignValue value align := by
  have split := Nat.div_add_mod value align
  have less := Nat.mod_lt value positive
  unfold alignValue
  split
  · next remains =>
      refine ⟨by omega, by omega, value / align + 1, ?_⟩
      rw [Nat.mul_add, Nat.mul_one]
      omega
  · next whole =>
      rw [not_not] at whole
      exact ⟨Nat.le_refl _, Nat.lt_add_of_pos_right positive, Nat.dvd_of_mod_eq_zero whole⟩

/-- A suffix that is not found at the start leaves room for as many bytes. -/
theorem FoundAt.room {content suffix : List UInt8} {start offset : Nat}
    (found : FoundAt content suffix start offset) (nonempty : suffix ≠ [])
    (later : ¬ Occurs content suffix start) : suffix.length ≤ offset := by
  obtain ⟨index, occurs, -, rfl⟩ := found
  have moved : index ≠ 0 := by
    rintro rfl
    exact later occurs
  obtain ⟨above, -, multiple⟩ :=
    alignValue_spec index (List.length_pos_of_ne_nil nonempty)
  exact Nat.le_of_dvd (by omega) multiple

namespace GenericString

variable {parent : StringParent} {path : String} {address : Nat} {format : StringFormat}
  {charset : Option String}

theorem suffixLayout_iff {suffix : List UInt8}
    (known : staticSuffixStr format charset parent.endian = .ok suffix) (nonempty : suffix ≠ [])
    (layout : StringLayout) :
    suffixLayout parent path address format charset = .ok layout ↔
      ∃ start offset, address = 8 * start ∧ FoundAt parent.stream.data suffix start offset ∧
        layout = ⟨0, offset, (offset + suffix.length) * 8⟩ := by
  have raises : ∀ failure, parent.stream.searchBytes suffix (parent.stream.data.length + 2) address
      none = .error failure → ¬ suffixLayout parent path address format charset = .ok layout := by
    intro failure raised
    unfold suffixLayout
    rw [known]
    dsimp only [bind, Except.bind]
    rw [searchBytesLength_error raised]
    nofun
  by_cases aligned : address % 8 = 0
  · obtain ⟨start, rfl⟩ : ∃ start, address = 8 * start := ⟨address / 8, by omega⟩
    by_cases empty : parent.stream.data = []
    · obtain ⟨failure, raised⟩ := @StringInputStream.searchBytes_nothing parent.stream suffix empty
        (parent.stream.data.length + 1) (8 * start)
      refine iff_of_false (raises failure raised) ?_
      rintro ⟨other, offset, -, ⟨index, occurs, -⟩, -⟩
      have inside := occurs_inside nonempty occurs
      have positive := List.length_pos_of_ne_nil nonempty
      rw [empty, List.length_nil] at inside
      omega
    · obtain ⟨answer, returned, found⟩ :=
        StringInputStream.searchBytes_place nonempty empty start
      have offsets := foundAt_iff nonempty found
      unfold suffixLayout
      rw [known]
      dsimp only [bind, Except.bind]
      rw [searchBytesLength_ok returned]
      cases answer with
      | none =>
          refine iff_of_false nofun ?_
          rintro ⟨other, offset, same, foundAt, -⟩
          obtain rfl : start = other := Nat.eq_of_mul_eq_mul_left (by decide) same
          obtain ⟨_, ⟨⟩, -⟩ := (offsets offset).mp foundAt
      | some pos =>
          have rounded : (if 1 < suffix.length then
              alignValue ((pos - 8 * start) / 8) suffix.length else (pos - 8 * start) / 8) =
              alignValue ((pos - 8 * start) / 8) suffix.length := by
            split
            · rfl
            · have one : suffix.length = 1 := by
                have positive := List.length_pos_of_ne_nil nonempty
                omega
              rw [one, alignValue_one]
          dsimp only [fromStream, Option.map_some]
          rw [rounded]
          have here := (offsets _).mpr ⟨pos, rfl, rfl⟩
          constructor
          · rintro ⟨⟩
            exact ⟨start, _, rfl, here, rfl⟩
          · rintro ⟨other, offset, same, foundAt, rfl⟩
            obtain rfl : start = other := Nat.eq_of_mul_eq_mul_left (by decide) same
            obtain ⟨_, ⟨⟩, rfl⟩ := (offsets offset).mp foundAt
            rfl
  · refine iff_of_false (raises _ (StringInputStream.searchBytes_unaligned aligned _)) ?_
    rintro ⟨start, offset, rfl, -⟩
    omega

/-! What the tables hold. -/

theorem mem_of_lookup {α β : Type} [BEq α] [LawfulBEq α] {table : List (α × β)} {key : α}
    {value : β}
    (found : table.lookup key = some value) : (key, value) ∈ table := by
  obtain ⟨before, after, rfl, -⟩ := List.lookup_eq_some_iff.mp found
  simp

/-- The size of a character in bits, as the suffix is chosen by it. -/
def suffixBits (charset : Option String) : Nat :=
  match utf charset with
  | some (suffixSize, _) => suffixSize
  | none => 8

theorem staticSuffixStr_eq (format : StringFormat) (charset : Option String) (endian : Endian) :
    staticSuffixStr format charset endian =
      match suffixFormat format with
      | none => .ok []
      | some suffix =>
          match (suffix.lookup (suffixBits charset)).bind fun suffix => suffix.lookup endian with
          | some suffix => .ok suffix
          | none => .error .keyError := rfl

theorem staticSuffixStr_mem {endian : Endian} {suffix : List UInt8}
    {table : List (Nat × List (Endian × List UInt8))}
    (terminated : suffixFormat format = some table)
    (known : staticSuffixStr format charset endian = .ok suffix) :
    ∃ orders, (suffixBits charset, orders) ∈ table ∧ (endian, suffix) ∈ orders := by
  rw [staticSuffixStr_eq, terminated] at known
  dsimp only at known
  split at known
  · next found =>
      cases known
      obtain ⟨orders, sizes, order⟩ := Option.bind_eq_some_iff.mp found
      exact ⟨orders, mem_of_lookup sizes, mem_of_lookup order⟩
  · cases known

theorem suffix_length {endian : Endian} {suffix : List UInt8}
    (terminated : (suffixFormat format).isSome)
    (known : staticSuffixStr format charset endian = .ok suffix) :
    suffix.length * 8 = suffixBits charset ∧ suffix ≠ [] := by
  obtain ⟨table, terminated⟩ := Option.isSome_iff_exists.mp terminated
  obtain ⟨orders, sized, ordered⟩ := staticSuffixStr_mem terminated known
  have tables : ∀ entry ∈ table, ∀ order ∈ entry.2,
      order.2.length * 8 = entry.1 ∧ order.2 ≠ [] := by
    cases format with
    | c => cases terminated; decide
    | unixLine => cases terminated; decide
    | _ => cases terminated
  exact tables _ sized _ ordered

theorem staticSuffixStr_congr {other : Option String} (same : suffixBits other = suffixBits charset)
    (endian : Endian) :
    staticSuffixStr format other endian = staticSuffixStr format charset endian := by
  rw [staticSuffixStr_eq, staticSuffixStr_eq, same]

theorem staticSuffixStr_none (bare : suffixFormat format = none) (endian : Endian) :
    staticSuffixStr format charset endian = .ok [] := by
  rw [staticSuffixStr, bare]

/-! The size that the caller or the prefix declares, and the size of the byte order mark. -/

def declared (parent : StringParent) (address : Nat) (format : StringFormat)
    (nbytes : Option Int) : Option Int :=
  match nbytes, pascalFormats format with
  | some nbytes, _ => some nbytes
  | none, some prefixSize =>
      match parent.stream.readBits address (prefixSize * 8) parent.endian with
      | .ok value => some value
      | .error _ => none
  | none, none => none

def markSize (charset : Option String) : Option Nat :=
  match utf charset with
  | some (bomsize, .bom) => some (bomsize / 8)
  | _ => none

/-- The sizes before the byte order mark is taken. -/
inductive Found (parent : StringParent) (address : Nat) (format : StringFormat)
    (charset : Option String) (nbytes : Option Int) (layout : StringLayout) : Prop
  | sized (bare : suffixFormat format = none)
      (size_eq : declared parent address format nbytes = some layout.contentSize)
      (natural : 0 ≤ layout.contentSize)
      (whole : 8 * (layout.contentOffset + layout.contentSize) = layout.size)
  | ended {suffix : List UInt8} {start offset : Nat}
      (free : declared parent address format nbytes = none)
      (terminated : (suffixFormat format).isSome)
      (known : staticSuffixStr format charset parent.endian = .ok suffix)
      (place : address = 8 * start) (found : FoundAt parent.stream.data suffix start offset)
      (layout_eq : layout = ⟨0, offset, (offset + suffix.length) * 8⟩)

theorem findLayout_found {nbytes : Option Int} {layout : StringLayout}
    (built : findLayout parent path address format charset nbytes = .ok layout) :
    Found parent address format charset nbytes layout := by
  unfold findLayout at built
  split at built
  · next nbytes =>
      rw [fixedLayout] at built
      split at built
      · cases built
      · next fixed =>
          rw [not_not] at fixed
          subst fixed
          split at built
          · next bounds =>
              cases built
              refine .sized rfl rfl (by dsimp only; omega) ?_
              dsimp only
              push_cast
              omega
          · cases built
  · split at built
    · next terminated =>
        cases known : staticSuffixStr format charset parent.endian with
        | error failure =>
            rw [suffixLayout, known] at built
            cases built
        | ok suffix =>
            have nonempty := (suffix_length terminated known).2
            obtain ⟨start, offset, place, found, same⟩ :=
              (suffixLayout_iff known nonempty layout).mp built
            refine .ended ?_ terminated known place found same
            cases format with
            | c => rfl
            | unixLine => rfl
            | _ => cases terminated
    · next bare =>
        split at built
        · cases built
        · next prefixSize pascal =>
            rw [pascalLayout] at built
            cases read : parent.stream.readBits address (prefixSize * 8) parent.endian with
            | error failure =>
                rw [read] at built
                cases built
            | ok value =>
                rw [read] at built
                cases built
                refine .sized (by simpa using bare) ?_ (Int.natCast_nonneg value) ?_
                · unfold declared
                  rw [pascal]
                  dsimp only
                  rw [read]
                · dsimp only
                  push_cast
                  omega

/-! The byte order mark. -/

theorem readBytes_ok {stream : StringInputStream} {address size : Nat} {bytes : List UInt8}
    (read : stream.readBytes address size = .ok bytes) :
    address % 8 = 0 ∧ bytes = slice stream.data (address / 8) size ∧ bytes.length = size := by
  unfold StringInputStream.readBytes InputStream.readBytes at read
  have bits : (8 * size + address % 8 + 7) >>> 3 = (8 * size + address % 8 + 7) / 8 :=
    Nat.shiftRight_eq_div_pow _ 3
  cases chunk : stream.read address (8 * size) with
  | error failure =>
      rw [chunk] at read
      cases read
  | ok whole =>
      rw [chunk] at read
      unfold StringInputStream.read at chunk
      dsimp only at chunk
      rw [bits] at chunk
      split at chunk
      · cases chunk
      · next exact_length =>
          rw [not_not] at exact_length
          cases chunk
          dsimp only [bind, Except.bind] at read
          split at read
          · cases read
          · next aligned =>
              rw [not_not] at aligned
              have same : (8 * size + address % 8 + 7) / 8 = size := by omega
              rw [same] at read exact_length
              cases read
              exact ⟨aligned, rfl, exact_length⟩

inductive Chosen (parent : StringParent) (address : Nat) (charset : Option String)
    (layout : StringLayout) : Option String → StringLayout → Prop
  | unmarked (plain : markSize charset = none) :
      Chosen parent address charset layout charset layout
  | marked {bomsize : Nat} {bom : List UInt8} {table : List (List UInt8 × String)} {name : String}
      (required : utf charset = some (bomsize, .bom))
      (read : parent.stream.readBytes address (bomsize / 8) = .ok bom)
      (sized : (bomsize, table) ∈ utfBom) (chosen : (bom, name) ∈ table) :
      Chosen parent address charset layout (some name)
        { layout with
          contentSize := layout.contentSize - (bomsize / 8 : Nat)
          contentOffset := layout.contentOffset + bomsize / 8 }

theorem chooseCharset_chosen {layout after : StringLayout} {charset' : Option String}
    (chosen : chooseCharset parent path address charset layout = .ok (charset', after)) :
    Chosen parent address charset layout charset' after := by
  unfold chooseCharset at chosen
  split at chosen
  · next bomsize required =>
      dsimp only at chosen
      cases read : parent.stream.readBytes address (bomsize / 8) with
      | error failure =>
          rw [read] at chosen
          cases chosen
      | ok bom =>
          rw [read] at chosen
          dsimp only [fromStream, bind, Except.bind] at chosen
          split at chosen
          · cases chosen
          · next table sized =>
              split at chosen
              · cases chosen
              · next name found =>
                  cases chosen
                  exact .marked required read (mem_of_lookup sized) (mem_of_lookup found)
  · next unmarked =>
      cases chosen
      refine .unmarked ?_
      rw [markSize]
      split
      · next bomsize required => exact absurd required (unmarked bomsize)
      · rfl

/-- Each mark chooses a charset of its size, with a byte order. -/
theorem mark_table {bomsize : Nat} {table : List (List UInt8 × String)} {bom : List UInt8}
    {name : String} (sized : (bomsize, table) ∈ utfBom) (chosen : (bom, name) ∈ table) :
    bom.length * 8 = bomsize ∧ ∃ order, utf (some name) = some (bomsize, .fixed order) := by
  have tables : ∀ entry ∈ utfBom, ∀ mark ∈ entry.2, mark.1.length * 8 = entry.1 ∧
      (utf (some mark.2) = some (entry.1, .fixed .littleEndian) ∨
        utf (some mark.2) = some (entry.1, .fixed .bigEndian)) := by
    decide
  obtain ⟨length, little | big⟩ := tables _ sized _ chosen
  · exact ⟨length, _, little⟩
  · exact ⟨length, _, big⟩

theorem mark_not_suffix {endian : Endian} {suffix bom : List UInt8} {bomsize : Nat}
    {table : List (List UInt8 × String)} {name : String} (terminated : (suffixFormat format).isSome)
    (known : staticSuffixStr format charset endian = .ok suffix)
    (sized : (bomsize, table) ∈ utfBom) (chosen : (bom, name) ∈ table) : bom ≠ suffix := by
  obtain ⟨suffixes, terminated⟩ := Option.isSome_iff_exists.mp terminated
  obtain ⟨orders, width, ordered⟩ := staticSuffixStr_mem terminated known
  have apart : ∀ entry ∈ utfBom, ∀ mark ∈ entry.2, ∀ width ∈ suffixes, ∀ order ∈ width.2,
      mark.1 ≠ order.2 := by
    cases format with
    | c => cases terminated; decide
    | unixLine => cases terminated; decide
    | _ => cases terminated
  exact apart _ sized _ chosen _ width _ ordered

/-! The lengths of a field that is built. -/

structure Laid (parent : StringParent) (field : GenericString) : Prop where
  natural : 0 ≤ field.layout.contentSize
  whole : ∃ suffix, field.suffixStr parent = .ok suffix ∧
    8 * (field.layout.contentOffset + field.layout.contentSize + suffix.length) =
      field.layout.size

/-- A declared size has room for the byte order mark. -/
def Fits (parent : StringParent) (address : Nat) (format : StringFormat)
    (charset : Option String) (nbytes : Option Int) : Prop :=
  ∀ size ∈ declared parent address format nbytes, ∀ mark ∈ markSize charset, (mark : Int) ≤ size

theorem new_ok {nbytes : Option Int} {field : GenericString}
    (built : new parent path address format charset nbytes = .ok field) :
    ∃ layout, findLayout parent path address format charset nbytes = .ok layout ∧
      chooseCharset parent path address charset layout = .ok (field.charset, field.layout) ∧
      field.format = format := by
  unfold new at built
  dsimp only [bind, Except.bind] at built
  split at built
  · cases built
  · split at built
    · cases built
    · next layout found =>
        split at built
        · cases built
        · next chosen =>
            cases built
            exact ⟨layout, found, chosen, rfl⟩

theorem Found.natural {nbytes : Option Int} {layout : StringLayout}
    (found : Found parent address format charset nbytes layout) : 0 ≤ layout.contentSize := by
  cases found with
  | sized bare size_eq natural whole => exact natural
  | ended free terminated known place found layout_eq =>
      rw [layout_eq]
      exact Int.natCast_nonneg _

theorem Found.whole {nbytes : Option Int} {layout : StringLayout}
    (found : Found parent address format charset nbytes layout) :
    ∃ suffix, staticSuffixStr format charset parent.endian = .ok suffix ∧
      8 * (layout.contentOffset + layout.contentSize + suffix.length) = layout.size := by
  cases found with
  | sized bare size_eq natural whole =>
      refine ⟨[], staticSuffixStr_none bare _, ?_⟩
      rw [List.length_nil, Nat.cast_zero, add_zero]
      exact whole
  | ended free terminated known place found layout_eq =>
      refine ⟨_, known, ?_⟩
      rw [layout_eq]
      dsimp only
      push_cast
      omega

/-- A string that a suffix ends has room for the byte order mark. -/
theorem room_for_mark {suffix bom : List UInt8} {bomsize start offset : Nat}
    {table : List (List UInt8 × String)} {name : String}
    (required : utf charset = some (bomsize, .bom))
    (read : parent.stream.readBytes (8 * start) (bomsize / 8) = .ok bom)
    (sized : (bomsize, table) ∈ utfBom) (chosen : (bom, name) ∈ table)
    (terminated : (suffixFormat format).isSome)
    (known : staticSuffixStr format charset parent.endian = .ok suffix)
    (found : FoundAt parent.stream.data suffix start offset) : bomsize / 8 ≤ offset := by
  obtain ⟨length, nonempty⟩ := suffix_length terminated known
  rw [suffixBits, required] at length
  dsimp only at length
  have room : suffix.length ≤ offset := by
    refine found.room nonempty fun occurs => ?_
    obtain ⟨-, bytes, -⟩ := readBytes_ok read
    refine mark_not_suffix terminated known sized chosen ?_
    rw [bytes, ← occurs, slice, Nat.mul_div_cancel_left _ (by decide)]
    congr 1
    omega
  omega

/-- The lengths make up a field that is built just when a declared size has room for the byte
order mark. -/
theorem laid_iff {nbytes : Option Int} {field : GenericString}
    (built : new parent path address format charset nbytes = .ok field) :
    field.Laid parent ↔ Fits parent address format charset nbytes := by
  obtain ⟨layout, found, chosen, same⟩ := new_ok built
  replace found := findLayout_found found
  replace chosen := chooseCharset_chosen chosen
  obtain ⟨fieldFormat, fieldCharset, characterSize, fieldLayout, length⟩ := field
  dsimp only at chosen same
  subst same
  cases chosen with
  | unmarked plain =>
      refine iff_of_true ⟨found.natural, found.whole⟩ ?_
      intro size _ mark required
      rw [plain] at required
      cases required
  | @marked bomsize bom table name required read sized chosen =>
      obtain ⟨-, order, named⟩ := mark_table sized chosen
      have mark : markSize charset = some (bomsize / 8) := by rw [markSize, required]
      have bits : suffixBits (some name) = suffixBits charset := by
        rw [suffixBits, suffixBits, named, required]
      have whole : ∃ suffix, staticSuffixStr fieldFormat (some name) parent.endian = .ok suffix ∧
          8 * ((layout.contentOffset + bomsize / 8 : Nat) +
            (layout.contentSize - (bomsize / 8 : Nat)) + suffix.length) = layout.size := by
        obtain ⟨suffix, known, whole⟩ := found.whole
        refine ⟨suffix, (staticSuffixStr_congr bits _).trans known, ?_⟩
        push_cast
        omega
      constructor
      · rintro ⟨natural, -⟩ size declares mark' required'
        rw [mark] at required'
        cases required'
        cases found with
        | sized bare size_eq =>
            rw [size_eq] at declares
            cases declares
            exact Int.sub_nonneg.mp natural
        | ended free =>
            rw [free] at declares
            cases declares
      · intro fits
        refine ⟨Int.sub_nonneg.mpr ?_, whole⟩
        cases found with
        | sized bare size_eq => exact fits _ size_eq _ mark
        | ended free terminated known place found layout_eq =>
            subst place
            rw [layout_eq]
            exact Int.ofNat_le.mpr
              (room_for_mark required read sized chosen terminated known found)

theorem laid_iff_marked :
    Laid ⟨⟨[0xff, 0xfe, 97, 0]⟩, .littleEndian⟩
        ⟨.fixed, some "UTF-16-LE", none, ⟨2, 2, 32⟩, none⟩ ↔
      Fits ⟨⟨[0xff, 0xfe, 97, 0]⟩, .littleEndian⟩ 0 .fixed (some "UTF-16") (some 4) :=
  @laid_iff _ "/name" _ _ _ _ _ (by decide)

/-- One byte, which the byte order mark takes twice. -/
theorem laid_fails :
    ∃ field, new ⟨⟨[0xff, 0xfe]⟩, .littleEndian⟩ "/name" 0 .fixed (some "UTF-16") (some 1) =
        .ok field ∧
      field.layout.contentSize = -1 ∧ ¬ Laid ⟨⟨[0xff, 0xfe]⟩, .littleEndian⟩ field := by
  refine ⟨⟨.fixed, some "UTF-16-LE", none, ⟨2, -1, 8⟩, none⟩, by decide, rfl, ?_⟩
  rintro ⟨natural, -⟩
  exact absurd natural (by decide)

end GenericString

end Segvault.Hachoir
