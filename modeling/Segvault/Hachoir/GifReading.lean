import Segvault.Hachoir.GifImageBlock

namespace Segvault.Hachoir

open BitString GifEncoding

/-! What `createFields` can read of an encoding. -/

namespace GifEncoding

/-- The codes `sent` after a clear code are as many as fill a power of two. -/
def Fills (size sent : Nat) : Prop :=
  2 ^ (2 ^ size + 1 + sent).log2 = 2 ^ size + 1 + sent

instance (size sent : Nat) : Decidable (Fills size sent) :=
  inferInstanceAs (Decidable (_ = _))

/-- The block does not go past code 4095 without a clear code, and a clear code sent when
    the width has just grown has the old number of bits and is followed by an even code. -/
def Readable (size : Nat) : Nat → List BitField → Prop
  | _, [] => True
  | sent, code :: codes =>
      if code.value = 2 ^ size then
        (Fills size sent →
          code.count = (2 ^ size + 1 + sent).log2 ∧
            ∀ next ∈ codes.head?, next.value % 2 = 0) ∧
          Readable size 0 codes
      else 2 ^ size + 1 + sent ≠ 4096 ∧ Readable size (sent + 1) codes

instance decidableReadable (size : Nat) :
    (sent : Nat) → (codes : List BitField) → Decidable (Readable size sent codes)
  | _, [] => isTrue trivial
  | sent, code :: codes =>
      have _ := decidableReadable size 0 codes
      have _ := decidableReadable size (sent + 1) codes
      inferInstanceAs (Decidable (if code.value = 2 ^ size then _ else _))

theorem codes_ne_zero (size sent : Nat) : 2 ^ size + 1 + sent ≠ 0 := by
  have positive := Nat.two_pow_pos size
  omega

theorem log2_of_fills {size sent width : Nat} (fills : 2 ^ size + 1 + sent = 2 ^ width) :
    (2 ^ size + 1 + sent).log2 = width := by
  rw [fills, Nat.log2_two_pow]

theorem size_le_log2 (size sent : Nat) : size ≤ (2 ^ size + 1 + sent).log2 := by
  rw [Nat.le_log2 (codes_ne_zero size sent)]
  omega

theorem Fills.size_lt_log2 {size sent : Nat} (fills : Fills size sent) :
    size < (2 ^ size + 1 + sent).log2 := by
  have low := size_le_log2 size sent
  refine Nat.lt_of_le_of_ne low fun same => ?_
  rw [Fills, ← same] at fills
  omega

theorem Fills.sent_pos {size sent : Nat} (positive : 1 ≤ size) (fills : Fills size sent) :
    sent ≠ 0 := by
  rintro rfl
  have more := fills.size_lt_log2
  have step := Nat.pow_le_pow_right (by decide : 0 < 2) more
  have two : 2 ≤ 2 ^ size := Nat.pow_le_pow_right (by decide : 0 < 2) positive
  rw [Fills] at fills
  rw [fills, Nat.pow_succ] at step
  omega

theorem log2_fresh {size : Nat} (sized : 2 ≤ size) : (2 ^ size + 1).log2 = size := by
  have four : 4 ≤ 2 ^ size := Nat.pow_le_pow_right (by decide : 0 < 2) sized
  rw [Nat.log2_eq_iff (by omega), Nat.pow_succ]
  omega

theorem log2_succ_eq {number : Nat} (positive : number ≠ 0) :
    (number + 1).log2 =
      if number + 1 ≥ 2 ^ (number.log2 + 1) then number.log2 + 1 else number.log2 := by
  have low := Nat.log2_self_le positive
  have high := @Nat.lt_log2_self number
  split
  · next grows =>
      rw [Nat.log2_eq_iff (by omega)]
      have doubled := Nat.pow_succ 2 (number.log2 + 1)
      omega
  · next fits =>
      rw [Nat.log2_eq_iff (by omega)]
      omega

/-- Up to code 4095 the width is that of the code to come. -/
theorem codeWidth_eq {size sent : Nat} (below : 2 ^ size + 1 + sent < 4096) :
    codeWidth size sent = (2 ^ size + 1 + sent).log2 + 1 := by
  have small : (2 ^ size + 1 + sent).log2 < 12 := by
    rw [Nat.log2_lt (codes_ne_zero size sent)]
    exact below
  rw [codeWidth]
  omega

theorem codeWidth_bounds (size sent : Nat) :
    0 < codeWidth size sent ∧ codeWidth size sent ≤ 12 := by
  rw [codeWidth]
  omega

theorem codeWidth_top {size sent : Nat} (top : 2 ^ size + 1 + sent = 4096) :
    codeWidth size sent = 12 := by
  rw [codeWidth, top]
  decide

theorem lt_two_pow_codeWidth {size sent code : Nat} (below : 2 ^ size + 1 + sent < 4096)
    (low : code ≤ 2 ^ size + 1 + sent) : code < 2 ^ codeWidth size sent := by
  rw [codeWidth_eq below]
  exact Nat.lt_of_le_of_lt low Nat.lt_log2_self

theorem chainOf_lt {size code : Nat} {table : List (List Nat)} {chain : List Nat}
    (known : chainOf size table code = some chain) :
    code < 2 ^ size + 2 + table.length ∧ code ≠ 2 ^ size ∧ code ≠ 2 ^ size + 1 := by
  unfold chainOf at known
  split at known
  · omega
  · split at known
    · cases known
    · have within := (List.getElem?_eq_some_iff.mp known).1
      omega

theorem Emits.count_pos {size sent : Nat} {table : List (List Nat)} {indices : List Nat}
    {codes : List BitField} (emits : Emits size table sent indices codes) :
    ∀ code ∈ codes, 0 < code.count := by
  induction emits with
  | @stop table sent =>
      intro code member
      rw [List.mem_singleton.mp member]
      exact (codeWidth_bounds size sent).1
  | @clear table sent width indices codes written emits induction =>
      refine List.forall_mem_cons.mpr ⟨?_, induction⟩
      obtain rfl | ⟨old, -⟩ := written
      · exact (codeWidth_bounds size sent).1
      · refine Nat.pos_of_ne_zero fun zero => ?_
        have power := Nat.two_pow_pos size
        dsimp only at zero
        rw [zero] at old
        omega
  | @chain table sent code chain rest codes known emits induction =>
      exact List.forall_mem_cons.mpr ⟨(codeWidth_bounds size sent).1, induction⟩

theorem Emits.ne_nil {size sent : Nat} {table : List (List Nat)} {indices : List Nat}
    {codes : List BitField} (emits : Emits size table sent indices codes) : codes ≠ [] := by
  cases emits with
  | stop => exact List.cons_ne_nil _ _
  | clear written emits => exact List.cons_ne_nil _ _
  | chain known emits => exact List.cons_ne_nil _ _

/-- The two widths of a clear code. -/
theorem clear_width {size sent width : Nat} (room : 2 ^ size + 1 + sent ≤ 4096)
    (written : width = codeWidth size sent ∨ 2 ^ size + 1 + sent = 2 ^ width ∧ width ≤ 12) :
    width = (2 ^ size + 1 + sent).log2 + 1 ∧ width ≤ 12 ∨
      Fills size sent ∧ width = (2 ^ size + 1 + sent).log2 ∧ width ≤ 12 := by
  obtain rfl | ⟨old, narrow⟩ := written
  · by_cases top : 2 ^ size + 1 + sent = 4096
    · right
      rw [codeWidth_top top, Fills, top]
      decide
    · left
      exact ⟨codeWidth_eq (by omega), (codeWidth_bounds size sent).2⟩
  · right
    rw [Fills, log2_of_fills old]
    exact ⟨old.symm, rfl, narrow⟩

/-! The bits of an encoding. -/

section Content

variable {data : List UInt8} {before padding : List Bool} {code : BitField}
  {codes : List BitField}

theorem content_cons
    (content : stream .lowFirst data =
      before ++ encodeFields .lowFirst (code :: codes) ++ padding) :
    stream .lowFirst data =
      before ++ encode .lowFirst code.count code.value ++
        (encodeFields .lowFirst codes ++ padding) := by
  rw [content, encodeFields, List.flatMap_cons]
  simp only [List.append_assoc]
  rfl

theorem read_code
    (content : stream .lowFirst data =
      before ++ encodeFields .lowFirst (code :: codes) ++ padding)
    (positive : 0 < code.count) (narrow : code.count ≤ 248)
    (fits : code.value < 2 ^ code.count) :
    StringInputStream.readBits ⟨data⟩ before.length code.count .littleEndian =
      .ok code.value := by
  have read := @readBits_between .littleEndian (by decide) _ _ _ _ _ (content_cons content)
    (length_encode ..) positive narrow
  rwa [Endian.order, decode_encode, Nat.mod_eq_of_lt fits] at read

/-- A bit more than a code takes in the lowest bit of the code after it. -/
theorem read_code_more {next : BitField}
    (content : stream .lowFirst data =
      before ++ encodeFields .lowFirst (code :: next :: codes) ++ padding)
    (narrow : code.count ≤ 247) (fits : code.value < 2 ^ code.count)
    (some : 0 < next.count) :
    StringInputStream.readBits ⟨data⟩ before.length (code.count + 1) .littleEndian =
      .ok (code.value + 2 ^ code.count * (next.value % 2)) := by
  have split := encode_lowFirst 1 (next.count - 1) next.value
  rw [Nat.add_sub_cancel' some] at split
  have bits : stream .lowFirst data =
      before ++
        (encode .lowFirst code.count code.value ++ encode .lowFirst 1 next.value) ++
        (encode .lowFirst (next.count - 1) (next.value / 2 ^ 1) ++
          (encodeFields .lowFirst codes ++ padding)) := by
    rw [content_cons content, encodeFields, List.flatMap_cons, split]
    simp only [List.append_assoc]
    rfl
  have read := @readBits_between .littleEndian (by decide) _ _ _ _ (code.count + 1) bits
    (by simp) (by omega) (by omega)
  rwa [Endian.order, decode_lowFirst_append, decode_encode, decode_encode, length_encode,
    Nat.mod_eq_of_lt fits, Nat.pow_one] at read

end Content

end GifEncoding

/-! One turn of the loop. -/

namespace GifImageBlock

section Turn

variable {startbits value : Nat} {stream : StringInputStream} {state : State}

theorem turn_size {code : CodeField} {next : Option State}
    (turned : turn startbits stream state = .ok (code, next)) :
    ∃ value, stream.readBits state.currentSize state.width .littleEndian = .ok value ∧
      code.size =
        if value = 2 ^ startbits ∧ state.compressCode = 2 ^ (state.width - 1)
        then state.width - 1 else state.width := by
  unfold turn codeField at turned
  cases read : stream.readBits state.currentSize state.width .littleEndian with
  | error failure =>
      rw [read] at turned
      cases turned
  | ok value =>
      refine ⟨value, rfl, ?_⟩
      simp only [read, bind, Except.bind, pure, Except.pure] at turned
      by_cases clear : value = 2 ^ startbits
      · rw [if_pos clear] at turned
        by_cases fills : state.compressCode = 2 ^ (state.width - 1)
        · rw [if_pos ⟨clear, fills⟩]
          rw [if_pos fills] at turned
          cases again :
              stream.readBits state.currentSize (state.width - 1) .littleEndian with
          | error failure =>
              rw [again] at turned
              cases turned
          | ok old =>
              rw [again] at turned
              cases turned
              rfl
        · rw [if_neg fun both => fills both.2]
          rw [if_neg fills] at turned
          cases turned
          rfl
      · rw [if_neg fun both => clear both.1]
        rw [if_neg clear] at turned
        split at turned
        · cases turned
          rfl
        · split at turned
          · cases turned
            rfl
          · cases compressed : state.compression value with
            | error failure =>
                rw [compressed] at turned
                cases turned
            | ok next =>
                rw [compressed] at turned
                cases turned
                rfl

theorem turn_end
    (read : stream.readBits state.currentSize state.width .littleEndian =
      .ok (2 ^ startbits + 1)) :
    turn startbits stream state =
      .ok (⟨state.currentSize, state.width, 2 ^ startbits + 1⟩, none) := by
  simp [turn, codeField, read, bind, Except.bind, pure, Except.pure]

theorem turn_clear
    (read : stream.readBits state.currentSize state.width .littleEndian =
      .ok (2 ^ startbits)) (wide : state.compressCode ≠ 2 ^ (state.width - 1)) :
    turn startbits stream state =
      .ok (⟨state.currentSize, state.width, 2 ^ startbits⟩,
        some (state.reset startbits state.width)) := by
  simp [turn, codeField, read, bind, Except.bind, pure, Except.pure, wide]

theorem turn_clear_old
    (read : stream.readBits state.currentSize state.width .littleEndian =
      .ok (2 ^ startbits)) (fills : state.compressCode = 2 ^ (state.width - 1))
    (old : stream.readBits state.currentSize (state.width - 1) .littleEndian =
      .ok (2 ^ startbits)) :
    turn startbits stream state =
      .ok (⟨state.currentSize, state.width - 1, 2 ^ startbits⟩,
        some (state.reset startbits (state.width - 1))) := by
  simp only [turn, codeField, read, bind, Except.bind, pure, Except.pure, if_true]
  rw [if_pos fills, old]

end Turn

/-! The decoder and the encoder in step. -/

/-- With `sent` codes read since the last clear code and `rest` left to decode, the
    dictionary holds `entries`, one chain less than the table of the encoder. -/
structure Synchronized (size : Nat) (table : List (List Nat)) (sent : Nat)
    (rest : List Nat) (state : State) (entries : List (List Nat)) : Prop where
  room : 2 ^ size + 1 + sent ≤ 4096
  width : state.width = (2 ^ size + 1 + sent).log2 + 1
  compressCode : state.compressCode = 2 ^ size + 2 + entries.length
  count : entries.length = sent - 1
  started : state.obuf = [] ↔ sent = 0
  lags : 2 ^ size + 1 + sent < 4096 → table = entries ++ Lzw.grown state.obuf rest
  dictionary : ∀ code, state.dictionary.lookup code =
    if code < 2 ^ size + 2 then none else entries[code - (2 ^ size + 2)]?
  nonempty : ∀ chain ∈ entries, chain ≠ []
  bounded : 2 ^ size + 2 + table.length ≤ 4096

/-- The state after a code whose chain is `first :: more`. -/
def State.heard (state : State) (first : Nat) (more : List Nat) : State where
  nbits := state.width
  dictionary :=
    if state.obuf ≠ [] then
      (state.compressCode, state.obuf ++ [first]) :: state.dictionary
    else state.dictionary
  compressCode :=
    if state.obuf ≠ [] then state.compressCode + 1 else state.compressCode
  obuf := first :: more
  output := state.output ++ first :: more
  currentSize := state.currentSize + state.width

section Step

variable {size sent first : Nat} {table entries : List (List Nat)} {more rest : List Nat}
  {state : State}

theorem Synchronized.length_table_le
    (sync : Synchronized size table sent rest state entries)
    (below : 2 ^ size + 1 + sent < 4096) : table.length ≤ sent := by
  have count := sync.count
  have grew := Lzw.length_grown_le state.obuf rest
  rw [sync.lags below, List.length_append]
  by_cases fresh : sent = 0
  · rw [sync.started.mpr fresh, Lzw.grown_nil, List.length_nil]
    omega
  · omega

theorem Synchronized.length_table
    (sync : Synchronized size table sent (first :: more ++ rest) state entries)
    (below : 2 ^ size + 1 + sent < 4096) : table.length = sent := by
  have count := sync.count
  rw [sync.lags below, List.length_append]
  by_cases fresh : sent = 0
  · rw [sync.started.mpr fresh, Lzw.grown_nil, List.length_nil]
    omega
  · have started : state.obuf ≠ [] := fun empty => fresh (sync.started.mp empty)
    rw [Lzw.grown_append started, List.length_singleton]
    omega

theorem Synchronized.compressCode_heard
    (sync : Synchronized size table sent (first :: more ++ rest) state entries) :
    (state.heard first more).compressCode = 2 ^ size + 2 + sent := by
  have count := sync.count
  have code := sync.compressCode
  rw [State.heard]
  by_cases fresh : sent = 0
  · simp only [sync.started.mpr fresh, ne_eq, not_true_eq_false, if_false]
    omega
  · have started : state.obuf ≠ [] := fun empty => fresh (sync.started.mp empty)
    simp only [ne_eq, started, not_false_eq_true, if_true]
    omega

theorem Synchronized.dictionary_heard
    (sync : Synchronized size table sent (first :: more ++ rest) state entries)
    (below : 2 ^ size + 1 + sent < 4096) (code : Nat) :
    (state.heard first more).dictionary.lookup code =
      if code < 2 ^ size + 2 then none else table[code - (2 ^ size + 2)]? := by
  rw [State.heard, sync.lags below]
  by_cases fresh : state.obuf = []
  · simp only [fresh, ne_eq, not_true_eq_false, if_false, Lzw.grown_nil, List.append_nil]
    exact sync.dictionary code
  · simp only [ne_eq, fresh, not_false_eq_true, if_true]
    rw [Lzw.grown_append fresh, List.lookup_cons, sync.dictionary code, sync.compressCode]
    by_cases low : code < 2 ^ size + 2
    · have other : (code == 2 ^ size + 2 + entries.length) = false := by
        rw [beq_eq_false_iff_ne]
        omega
      rw [other, if_pos low, if_pos low]
    · rw [if_neg low, if_neg low]
      by_cases last : code = 2 ^ size + 2 + entries.length
      · have index : code - (2 ^ size + 2) = entries.length := by omega
        rw [last, beq_self_eq_true, ← last, index, List.getElem?_concat_length]
      · have other : (code == 2 ^ size + 2 + entries.length) = false := by
          rwa [beq_eq_false_iff_ne]
        have index : code - (2 ^ size + 2) ≠ entries.length := by omega
        rw [other]
        by_cases within : code - (2 ^ size + 2) < entries.length
        · rw [List.getElem?_append_left within]
        · have beyond : entries.length + 1 ≤ code - (2 ^ size + 2) := by omega
          rw [List.getElem?_eq_none (by omega), List.getElem?_eq_none (by
            rwa [List.length_append, List.length_singleton])]

/-- A chain leaves the two in step. -/
theorem Synchronized.heard
    (sync : Synchronized size table sent (first :: more ++ rest) state entries)
    (below : 2 ^ size + 1 + sent < 4096) :
    Synchronized size (extend size table (first :: more) rest) (sent + 1) rest
      (state.heard first more) table where
  room := below
  width := by
    have wide : (state.heard first more).nbits = state.width := rfl
    rw [State.width, sync.compressCode_heard, wide, sync.width,
      ← Nat.add_assoc, log2_succ_eq (codes_ne_zero size sent)]
    have same : 2 ^ size + 2 + sent = 2 ^ size + 1 + sent + 1 := by omega
    rw [same]
    split <;> rfl
  compressCode := by
    rw [sync.compressCode_heard, sync.length_table below]
  count := by
    rw [sync.length_table below, Nat.add_sub_cancel]
  started := by
    simp [State.heard]
  lags := by
    intro further
    rw [extend, sync.length_table below, if_pos (by omega)]
    rfl
  dictionary := sync.dictionary_heard below
  nonempty := by
    intro chain known
    rw [sync.lags below, List.mem_append] at known
    exact known.elim (sync.nonempty chain) Lzw.grown_ne_nil
  bounded := by
    have bounded := sync.bounded
    have grew := Lzw.length_grown_le (first :: more) rest
    rw [extend]
    split
    · rw [List.length_append]
      omega
    · exact bounded

theorem Synchronized.started_of_known {code : Nat}
    (sync : Synchronized size table sent (first :: more ++ rest) state entries)
    (below : 2 ^ size + 1 + sent < 4096)
    (known : table[code - (2 ^ size + 2)]? = some (first :: more)) : state.obuf ≠ [] := by
  intro fresh
  have length := sync.length_table below
  rw [sync.started.mp fresh, List.length_eq_zero_iff] at length
  rw [length] at known
  cases known

/-- The decoder takes a code for the chain the encoder sent, in its dictionary or not. -/
theorem Synchronized.compression {code : Nat}
    (sync : Synchronized size table sent (first :: more ++ rest) state entries)
    (below : 2 ^ size + 1 + sent < 4096) (high : ¬ code < 2 ^ size + 2)
    (known : table[code - (2 ^ size + 2)]? = some (first :: more)) :
    state.compression code = .ok (state.heard first more) := by
  have started := sync.started_of_known below known
  have found := sync.dictionary code
  rw [if_neg high] at found
  rw [sync.lags below] at known
  have resolved := Lzw.resolve_lagging known
  unfold State.compression State.heard
  rw [if_pos started, if_pos started, found]
  rw [Lzw.resolve] at resolved
  cases entry : entries[code - (2 ^ size + 2)]? with
  | some chain =>
      rw [entry] at resolved
      cases resolved
      rfl
  | none =>
      rw [entry] at resolved
      cases last : state.obuf with
      | nil => exact absurd last started
      | cons symbol symbols =>
          simp only [last, List.head?_cons, Option.map_some, Option.some.injEq,
            List.cons_append, List.cons.injEq] at resolved
          obtain ⟨rfl, rfl⟩ := resolved
          rfl

theorem Synchronized.turn_chain {stream : StringInputStream} {chain : List Nat} {code : Nat}
    (sync : Synchronized size table sent (chain ++ rest) state entries)
    (below : 2 ^ size + 1 + sent < 4096) (known : chainOf size table code = some chain)
    (read : stream.readBits state.currentSize state.width .littleEndian = .ok code) :
    ∃ next,
      turn size stream state =
        .ok (⟨state.currentSize, state.width, code⟩, some next) ∧
      Synchronized size (extend size table chain rest) (sent + 1) rest next table ∧
      next.output = state.output ++ chain ∧
      next.currentSize = state.currentSize + state.width := by
  have turned : turn size stream state = _ := rfl
  conv at turned => rhs; unfold turn codeField
  simp only [read, bind, Except.bind, pure, Except.pure] at turned
  unfold chainOf at known
  by_cases low : code < 2 ^ size
  · rw [if_pos low] at known
    obtain rfl := Option.some.inj known
    rw [if_neg (by omega), if_neg (by omega), if_pos low] at turned
    exact ⟨state.heard code [], turned, sync.heard below, rfl, rfl⟩
  · rw [if_neg low] at known
    by_cases reserved : code < 2 ^ size + 2
    · rw [if_pos reserved] at known
      cases known
    · rw [if_neg reserved] at known
      have member := List.mem_of_getElem? known
      rw [sync.lags below, List.mem_append] at member
      cases chain with
      | nil =>
          exact absurd rfl (member.elim (sync.nonempty []) Lzw.grown_ne_nil)
      | cons first more =>
          rw [if_neg (by omega), if_neg (by omega), if_neg low,
            sync.compression below reserved known] at turned
          exact ⟨state.heard first more, turned, sync.heard below, rfl, rfl⟩

end Step

section Fresh

variable {size : Nat} (sized : 2 ≤ size) (small : size ≤ 8)

include small

theorem power_le : 2 ^ size ≤ 256 :=
  Nat.pow_le_pow_right (by decide : 0 < 2) small

include sized

theorem synchronized_fresh {rest : List Nat} {state : State}
    (dictionary : state.dictionary = []) (obuf : state.obuf = [])
    (compressCode : state.compressCode = 2 ^ size + 2) (width : state.width = size + 1) :
    Synchronized size [] 0 rest state [] where
  room := by
    have power := power_le small
    omega
  width := by
    rw [width, Nat.add_zero, log2_fresh sized]
  compressCode := compressCode
  count := rfl
  started := by
    simp [obuf]
  lags := by
    intro below
    rw [obuf, Lzw.grown_nil]
    rfl
  dictionary := by
    intro code
    rw [dictionary]
    simp
  nonempty := fun chain member => absurd member List.not_mem_nil
  bounded := by
    have power := power_le small
    rw [List.length_nil]
    omega

theorem synchronized_reset (rest : List Nat) (state : State) (count : Nat) :
    Synchronized size [] 0 rest (state.reset size count) [] := by
  have four : 4 ≤ 2 ^ size := Nat.pow_le_pow_right (by decide : 0 < 2) sized
  refine synchronized_fresh sized small rfl rfl rfl ?_
  have fits : ¬ 2 ^ size + 2 ≥ 2 ^ (size + 1) := by
    rw [Nat.pow_succ]
    omega
  exact if_neg fits

theorem synchronized_start (rest : List Nat) :
    Synchronized size [] 0 rest (.start size) [] := by
  refine synchronized_fresh sized small rfl rfl rfl ?_
  exact if_pos (Nat.le_add_right (2 ^ size) 2)

end Fresh

/-! The whole loop. -/

/-- The loop yields these fields and ends with this output. -/
def Reads (result : List CodeField × Except Failure Ending) (fields : List CodeField)
    (output : List Nat) : Prop :=
  result.1 = fields ∧ result.2.map Ending.output = .ok output

instance (result : List CodeField × Except Failure Ending) (fields : List CodeField)
    (output : List Nat) : Decidable (Reads result fields output) :=
  inferInstanceAs (Decidable (_ ∧ _))

section Run

variable {size fuel address : Nat} {stream : StringInputStream} {state : State}
  {code : BitField} {codes : List BitField} {output : List Nat}

theorem not_reads
    (wrong : ∀ field next, turn size stream state = .ok (field, next) →
      field.size ≠ code.count) :
    ¬ Reads (codesFrom size stream fuel state) (layout address (code :: codes)) output := by
  rintro ⟨fields, -⟩
  cases fuel with
  | zero => cases fields
  | succ fuel =>
      rw [codesFrom, layout] at fields
      cases turned : turn size stream state with
      | error failure =>
          rw [turned] at fields
          cases fields
      | ok result =>
          obtain ⟨field, next⟩ := result
          have sizes := wrong field next turned
          rw [turned] at fields
          cases next with
          | none =>
              obtain ⟨rfl, -⟩ := List.cons.inj fields
              exact sizes rfl
          | some next =>
              obtain ⟨rfl, -⟩ := List.cons.inj fields
              exact sizes rfl

theorem reads_cons {next : State}
    (turned : turn size stream state =
      .ok (⟨address, code.count, code.value⟩, some next)) :
    Reads (codesFrom size stream (fuel + 1) state) (layout address (code :: codes)) output ↔
      Reads (codesFrom size stream fuel next) (layout (address + code.count) codes)
        output := by
  rw [codesFrom, turned, layout, Reads, Reads, List.cons_inj_right]

theorem reads_end
    (turned : turn size stream state = .ok (⟨address, code.count, code.value⟩, none)) :
    Reads (codesFrom size stream (fuel + 1) state) (layout address [code])
      state.output := by
  rw [codesFrom, turned]
  exact ⟨rfl, rfl⟩

end Run

section Heads

variable {size sent : Nat} {table entries : List (List Nat)} {rest : List Nat}
  {state : State} {stream : StringInputStream}

theorem Synchronized.compressCode_fills (sized : 2 ≤ size)
    (sync : Synchronized size table sent rest state entries) (fills : Fills size sent) :
    state.compressCode = 2 ^ (state.width - 1) := by
  have started := fills.sent_pos (by omega)
  have count := sync.count
  have code := sync.compressCode
  rw [Fills] at fills
  rw [sync.width, Nat.add_sub_cancel, fills]
  omega

theorem Synchronized.compressCode_ne (sized : 2 ≤ size)
    (sync : Synchronized size table sent rest state entries) (part : ¬ Fills size sent) :
    state.compressCode ≠ 2 ^ (state.width - 1) := by
  have count := sync.count
  have code := sync.compressCode
  rw [sync.width, Nat.add_sub_cancel]
  by_cases fresh : sent = 0
  · rw [fresh, Nat.add_zero, log2_fresh sized]
    omega
  · rw [Fills] at part
    omega

/-- At code 4096 the decoder reads 13 bits, which are no clear code. -/
theorem Synchronized.misreads_top
    (sync : Synchronized size table sent rest state entries)
    (top : 2 ^ size + 1 + sent = 4096) {value : Nat}
    (read : stream.readBits state.currentSize 12 .littleEndian = .ok value)
    (other : value ≠ 2 ^ size) (small : size ≤ 8) {code : CodeField} {next : Option State}
    (turned : turn size stream state = .ok (code, next)) : code.size ≠ 12 := by
  obtain ⟨wide, more, sizes⟩ := turn_size turned
  have width : state.width = 13 := by
    rw [sync.width, top]
    decide
  rw [width] at more sizes
  have low := readBits_fewer read more (by decide) (by decide) (by decide)
  have clear : wide ≠ 2 ^ size := by
    rintro rfl
    have power := power_le small
    rw [Nat.mod_eq_of_lt (by omega)] at low
    exact other low.symm
  rw [if_neg fun both => clear both.1] at sizes
  omega

variable {data : List UInt8} {codes : List BitField} {before padding : List Bool}
  {value : Nat}

/-- The end code or the code of a chain is not read with 12 bits when 13 are due. -/
theorem Synchronized.not_reads_top (small : size ≤ 8)
    (sync : Synchronized size table sent rest state entries)
    (content : BitString.stream .lowFirst data =
      before ++ encodeFields .lowFirst (⟨codeWidth size sent, value⟩ :: codes) ++ padding)
    (place : state.currentSize = before.length) (top : 2 ^ size + 1 + sent = 4096)
    (low : value < 4096) (other : value ≠ 2 ^ size) (fuel : Nat) (output : List Nat) :
    ¬ Reads (codesFrom size ⟨data⟩ fuel state)
      (layout before.length (⟨codeWidth size sent, value⟩ :: codes)) output := by
  rw [codeWidth_top top] at content ⊢
  have read := read_code content (by decide : 0 < 12) (by decide : 12 ≤ 248) low
  rw [← place] at read
  exact not_reads fun field next turned => sync.misreads_top top read other small turned

/-- Below code 4096 every other code is read with the bits it has. -/
theorem Synchronized.read_below
    (sync : Synchronized size table sent rest state entries)
    (content : BitString.stream .lowFirst data =
      before ++ encodeFields .lowFirst (⟨codeWidth size sent, value⟩ :: codes) ++ padding)
    (place : state.currentSize = before.length) (below : 2 ^ size + 1 + sent < 4096)
    (low : value ≤ 2 ^ size + 1 + sent) :
    state.width = codeWidth size sent ∧
      StringInputStream.readBits ⟨data⟩ state.currentSize state.width .littleEndian =
        .ok value := by
  have width : state.width = codeWidth size sent := by
    rw [sync.width, codeWidth_eq below]
  obtain ⟨positive, narrow⟩ := codeWidth_bounds size sent
  refine ⟨width, ?_⟩
  rw [width, place]
  exact @read_code data before padding ⟨codeWidth size sent, value⟩ codes content positive
    (Nat.le_trans narrow (by decide)) (lt_two_pow_codeWidth below low)

/-- A clear code with the new number of bits is read again with the old one. -/
theorem Synchronized.not_reads_wide (sized : 2 ≤ size)
    (sync : Synchronized size table sent rest state entries) (fills : Fills size sent)
    {width : Nat} (wide : state.width = width)
    (read : StringInputStream.readBits ⟨data⟩ state.currentSize width .littleEndian =
      .ok (2 ^ size)) (fuel address : Nat) (output : List Nat) :
    ¬ Reads (codesFrom size ⟨data⟩ fuel state)
      (layout address (⟨width, 2 ^ size⟩ :: codes)) output := by
  refine not_reads fun field next turned => ?_
  obtain ⟨value, again, sizes⟩ := turn_size turned
  rw [wide, read, Except.ok.injEq] at again
  rw [if_pos ⟨again.symm, sync.compressCode_fills sized fills⟩, sync.width] at sizes
  rw [sync.width] at wide
  dsimp only
  omega

/-- An odd code after a clear code with the old number of bits hides the clear code. -/
theorem not_reads_odd {width : Nat} (wide : state.width = width + 1)
    (read : StringInputStream.readBits ⟨data⟩ state.currentSize (width + 1) .littleEndian =
      .ok value) (hidden : value ≠ 2 ^ size) (fuel address : Nat) (output : List Nat) :
    ¬ Reads (codesFrom size ⟨data⟩ fuel state)
      (layout address (⟨width, 2 ^ size⟩ :: codes)) output := by
  refine not_reads fun field next turned => ?_
  obtain ⟨found, again, sizes⟩ := turn_size turned
  rw [wide, read, Except.ok.injEq] at again
  rw [if_neg fun both => hidden (again.trans both.1), wide] at sizes
  dsimp only
  omega

end Heads

theorem codesFrom_iff {size sent : Nat} {table entries : List (List Nat)}
    {rest : List Nat} {state : State} {data : List UInt8} {codes : List BitField}
    {before padding : List Bool} {fuel : Nat} (sized : 2 ≤ size) (small : size ≤ 8)
    (emits : Emits size table sent rest codes)
    (sync : Synchronized size table sent rest state entries)
    (content : BitString.stream .lowFirst data =
      before ++ encodeFields .lowFirst codes ++ padding)
    (place : state.currentSize = before.length) (enough : codes.length ≤ fuel) :
    Reads (codesFrom size ⟨data⟩ fuel state) (layout before.length codes)
        (state.output ++ rest) ↔ Readable size sent codes := by
  induction emits generalizing state entries before fuel with
  | @stop table sent =>
      obtain ⟨fuel, rfl⟩ := Nat.exists_eq_add_of_le' enough
      have power := power_le small
      have room := sync.room
      rw [Readable, if_neg (Nat.succ_ne_self _), List.append_nil]
      constructor
      · intro reads
        refine ⟨fun top => ?_, trivial⟩
        exact sync.not_reads_top small content place top (by omega) (by omega) _ _ reads
      · rintro ⟨below, -⟩
        obtain ⟨width, read⟩ := sync.read_below content place (by omega) (by omega)
        have turned := turn_end read
        rw [place, width] at turned
        exact reads_end turned
  | @clear table sent width indices codes written emits induction =>
      obtain ⟨fuel, rfl⟩ := Nat.exists_eq_add_of_le' enough
      have further := content_cons content
      rw [← List.append_assoc] at further
      have moved : (state.reset size width).currentSize =
          (before ++ encode .lowFirst width (2 ^ size)).length := by
        rw [List.length_append, length_encode, ← place]
        rfl
      have tail := induction (synchronized_reset sized small indices state width) further
        moved (Nat.le_add_left _ fuel)
      rw [List.length_append, length_encode] at tail
      have step := fun turned => (@reads_cons size (fuel + codes.length) before.length ⟨data⟩
        state ⟨width, 2 ^ size⟩ codes (state.output ++ indices)
        (state.reset size width) turned).trans tail
      rw [Readable, if_pos rfl]
      obtain ⟨wide, narrow⟩ | ⟨fills, old, narrow⟩ := clear_width sync.room written
      · have low : 2 ^ size ≤ 2 ^ size + 1 + sent := by omega
        have fits : 2 ^ size < 2 ^ width := by
          rw [wide]
          exact Nat.lt_of_le_of_lt low Nat.lt_log2_self
        have read := read_code content (by dsimp only; omega) (by dsimp only; omega) fits
        dsimp only at read
        rw [← place] at read
        have same : state.width = width := by rw [sync.width, wide]
        by_cases fills : Fills size sent
        · refine iff_of_false (sync.not_reads_wide sized fills same read _ _ _) ?_
          rintro ⟨kept, -⟩
          have old := (kept fills).1
          dsimp only at old
          omega
        · rw [and_iff_right fun full => absurd full fills]
          rw [← same] at read
          have turned := turn_clear read (sync.compressCode_ne sized fills)
          rw [same, place] at turned
          exact step turned
      · obtain ⟨next, more, rfl⟩ := List.exists_cons_of_ne_nil emits.ne_nil
        have positive := emits.count_pos next List.mem_cons_self
        have grown := fills.size_lt_log2
        have fits : 2 ^ size < 2 ^ width := by
          rw [old]
          exact Nat.pow_lt_pow_right (by decide) grown
        have read := read_code content (by dsimp only; omega) (by dsimp only; omega) fits
        have longer := read_code_more content (by dsimp only; omega) fits positive
        dsimp only at read longer
        rw [← place] at read longer
        have wider : state.width = width + 1 := by rw [sync.width, old]
        by_cases even : next.value % 2 = 0
        · rw [even, Nat.mul_zero, Nat.add_zero, ← wider] at longer
          have less : width = state.width - 1 := by omega
          rw [less] at read
          have turned := turn_clear_old longer (sync.compressCode_fills sized fills) read
          rw [← less, place] at turned
          rw [and_iff_right fun _ => ⟨old, by
            rintro _ ⟨⟩
            exact even⟩]
          exact step turned
        · refine iff_of_false (not_reads_odd wider longer ?_ _ _ _) ?_
          · have odd : next.value % 2 = 1 := by omega
            have power := Nat.two_pow_pos width
            rw [odd]
            omega
          · rintro ⟨kept, -⟩
            exact even ((kept fills).2 next rfl)
  | @chain table sent code chain rest codes known emits induction =>
      obtain ⟨fuel, rfl⟩ := Nat.exists_eq_add_of_le' enough
      have room := sync.room
      obtain ⟨low, notClear, notEnd⟩ := chainOf_lt known
      rw [Readable, if_neg notClear]
      by_cases top : 2 ^ size + 1 + sent = 4096
      · have bounded := sync.bounded
        refine iff_of_false ?_ fun readable => readable.1 top
        exact sync.not_reads_top small content place top (by omega) notClear _ _
      · have below : 2 ^ size + 1 + sent < 4096 := by omega
        have length := sync.length_table_le below
        obtain ⟨width, read⟩ := sync.read_below content place below (by omega)
        obtain ⟨next, turned, nextSync, output, moved⟩ := sync.turn_chain below known read
        rw [place, width] at turned moved
        have further := content_cons content
        rw [← List.append_assoc] at further
        have tail := induction nextSync further
          (by rw [moved, List.length_append, length_encode]) (Nat.le_add_left _ fuel)
        rw [and_iff_right top, ← tail, output, List.append_assoc, List.length_append,
          length_encode]
        exact @reads_cons size (fuel + codes.length) _ _ _ ⟨codeWidth size sent, code⟩
          codes _ next turned

theorem length_le_encodeFields {codes : List BitField}
    (positive : ∀ code ∈ codes, 0 < code.count) :
    codes.length ≤ (encodeFields .lowFirst codes).length := by
  induction codes with
  | nil => exact Nat.le_refl 0
  | cons code codes induction =>
      obtain ⟨here, later⟩ := List.forall_mem_cons.mp positive
      have tail := induction later
      rw [encodeFields] at tail
      rw [encodeFields, List.flatMap_cons, List.length_append, length_encode,
        List.length_cons]
      omega

/-- An encoding is read code for code, and decoded, if and only if a clear code comes when
    all codes up to 4095 are in use, and every clear code that comes when the width has just
    grown has the old number of bits and no odd code after it. -/
theorem createFields_iff {size : Nat} (sized : 2 ≤ size) (small : size ≤ 8)
    {indices : List Nat} {codes : List BitField} (encodes : Encodes size indices codes)
    {data : List UInt8} {padding : List Bool}
    (content : stream .lowFirst data = encodeFields .lowFirst codes ++ padding) :
    Reads (createFields size data) (layout 0 codes) indices ↔ Readable size 0 codes := by
  obtain ⟨rest, rfl, later⟩ := encodes
  have emits := @Emits.clear size [] 0 _ _ _ (Or.inl rfl) later
  have length := length_le_encodeFields emits.count_pos
  have whole := congrArg List.length content
  rw [length_stream, List.length_append] at whole
  exact @codesFrom_iff size 0 [] [] indices (.start size) data _ [] padding _ sized small
    emits (synchronized_start sized small indices) content rfl (by omega)

theorem createFields_iff_pair :
    Reads (createFields 2 [0x8C, 0x0A])
      (layout 0 [⟨3, 4⟩, ⟨3, 1⟩, ⟨3, 2⟩, ⟨3, 5⟩]) [1, 2] :=
  (createFields_iff (by decide) (by decide)
    ⟨_, rfl, @Emits.chain 2 [] 0 1 [1] [2] _ rfl (@Emits.chain 2 _ 1 2 [2] [] _ rfl .stop)⟩
    (show _ = _ ++ [false, false, false, false] by decide)).mpr (by decide)

/-- Three indices fill the width of 3 bits. A clear code with the old width is lost when an
    odd index follows it, one with the new width is always read with the old one. -/
theorem createFields_misreads :
    (Encodes 2 [0, 1, 2, 1] [⟨3, 4⟩, ⟨3, 0⟩, ⟨3, 1⟩, ⟨3, 2⟩, ⟨3, 4⟩, ⟨3, 1⟩, ⟨3, 5⟩] ∧
      stream .lowFirst [0x44, 0xC4, 0x14] =
        encodeFields .lowFirst
          [⟨3, 4⟩, ⟨3, 0⟩, ⟨3, 1⟩, ⟨3, 2⟩, ⟨3, 4⟩, ⟨3, 1⟩, ⟨3, 5⟩] ++
            [false, false, false] ∧
      ¬ Reads (createFields 2 [0x44, 0xC4, 0x14])
        (layout 0 [⟨3, 4⟩, ⟨3, 0⟩, ⟨3, 1⟩, ⟨3, 2⟩, ⟨3, 4⟩, ⟨3, 1⟩, ⟨3, 5⟩])
        [0, 1, 2, 1]) ∧
    (Encodes 2 [0, 1, 2, 1] [⟨3, 4⟩, ⟨3, 0⟩, ⟨3, 1⟩, ⟨3, 2⟩, ⟨4, 4⟩, ⟨3, 1⟩, ⟨3, 5⟩] ∧
      stream .lowFirst [0x44, 0x44, 0x29] =
        encodeFields .lowFirst
          [⟨3, 4⟩, ⟨3, 0⟩, ⟨3, 1⟩, ⟨3, 2⟩, ⟨4, 4⟩, ⟨3, 1⟩, ⟨3, 5⟩] ++ [false, false] ∧
      ¬ Reads (createFields 2 [0x44, 0x44, 0x29])
        (layout 0 [⟨3, 4⟩, ⟨3, 0⟩, ⟨3, 1⟩, ⟨3, 2⟩, ⟨4, 4⟩, ⟨3, 1⟩, ⟨3, 5⟩])
        [0, 1, 2, 1]) := by
  have last : Emits 2 [] 0 [1] [⟨3, 1⟩, ⟨3, 5⟩] := @Emits.chain 2 [] 0 1 [1] [] _ rfl .stop
  refine ⟨⟨⟨_, rfl, ?_⟩, by decide, by decide⟩, ⟨⟨_, rfl, ?_⟩, by decide, by decide⟩⟩
  · exact @Emits.chain 2 _ 0 0 [0] _ _ rfl (@Emits.chain 2 _ 1 1 [1] _ _ rfl
      (@Emits.chain 2 _ 2 2 [2] _ _ rfl (.clear (Or.inr (by decide)) last)))
  · exact @Emits.chain 2 _ 0 0 [0] _ _ rfl (@Emits.chain 2 _ 1 1 [1] _ _ rfl
      (@Emits.chain 2 _ 2 2 [2] _ _ rfl (.clear (Or.inl (by decide)) last)))

end GifImageBlock

end Segvault.Hachoir
