import Segvault.Autodafe.Packet

namespace Segvault.Autodafe

open Bytes Layout

/-! A planned field has room for what will be written into it. -/

def Shaped : Piece → Prop
  | (.blockSize type _, chunk) => chunk = Config.dummyLength type
  | (.blockCrc32 _ _, chunk) => chunk = [0, 0, 0, 0]
  | _ => True

theorem plan_shaped {fillSource : FillSource} {schedule : Schedule}
    {buffer : Buffer} {instructions : List Instruction}
    {chunks : List (List UInt8)}
    (planned : plan fillSource schedule buffer instructions = .ok chunks) :
    ∀ piece ∈ instructions.zip chunks, Shaped piece := by
  induction instructions generalizing schedule buffer chunks with
  | nil =>
      intro piece member
      cases member
  | cons instruction instructions induction =>
      simp only [plan, bind, Except.bind] at planned
      split at planned
      · cases planned
      · next choice chosen =>
          split at planned
          · cases planned
          · split at planned
            · cases planned
            · next rest found =>
                cases planned
                intro piece member
                rcases List.mem_cons.mp member with rfl | member
                · cases instruction with
                  | blockSize type id => cases type <;> cases chosen <;> rfl
                  | blockCrc32 type id => cases chosen; rfl
                  | _ => trivial
                · exact induction found piece member

namespace Config

/-! Both updates only write into the packet. -/

def lengthStep (blocks : List StructBlock) (memory : Memory)
    (length : StructLength) : Memory :=
  match blocks.find? fun block => block.id = length.id with
  | none => memory
  | some block =>
      match lengthBytes block.size length.type with
      | none => memory
      | some bytes => write memory length.offset bytes

def hashStep (blocks : List StructBlock) (memory : Memory)
    (hash : StructHash) : Memory :=
  match blocks.find? fun block => block.id = hash.id with
  | none => memory
  | some block =>
      write memory hash.offset
        (hashBytes (crc32 (read memory block.offset block.size)) hash.type)

theorem updateOneLength_eq (conf : Config) (length : StructLength) :
    conf.updateOneLength length =
      { conf with bufFuzz := lengthStep conf.block conf.bufFuzz length } := by
  unfold updateOneLength lengthStep
  cases conf.block.find? fun block => block.id = length.id with
  | none => rfl
  | some block =>
      simp only
      cases lengthBytes block.size length.type <;> rfl

theorem updateOneHash_eq (conf : Config) (hash : StructHash) :
    conf.updateOneHash hash =
      { conf with bufFuzz := hashStep conf.block conf.bufFuzz hash } := by
  unfold updateOneHash hashStep
  cases conf.block.find? fun block => block.id = hash.id with
  | none => rfl
  | some block => simp only [← hashCrc32_eq_crc32, modifyData]

theorem updateLength_eq (conf : Config) :
    conf.updateLength =
      { conf with
        bufFuzz := conf.length.foldl (lengthStep conf.block) conf.bufFuzz } := by
  have folded : ∀ (lengths : List StructLength) (conf : Config),
      lengths.foldl updateOneLength conf =
        { conf with
          bufFuzz := lengths.foldl (lengthStep conf.block) conf.bufFuzz } := by
    intro lengths
    induction lengths with
    | nil => intro conf; rfl
    | cons length lengths induction =>
        intro conf
        rw [List.foldl_cons, updateOneLength_eq, induction]
        rfl
  exact folded conf.length conf

theorem updateHash_eq (conf : Config) :
    conf.updateHash =
      { conf with
        bufFuzz := conf.hash.foldl (hashStep conf.block) conf.bufFuzz } := by
  have folded : ∀ (hashes : List StructHash) (conf : Config),
      hashes.foldl updateOneHash conf =
        { conf with
          bufFuzz := hashes.foldl (hashStep conf.block) conf.bufFuzz } := by
    intro hashes
    induction hashes with
    | nil => intro conf; rfl
    | cons hash hashes induction =>
        intro conf
        rw [List.foldl_cons, updateOneHash_eq, induction]
        rfl
  exact folded conf.hash conf

theorem length_lengthBytes {size : Nat} {type : SizeType} {bytes : List UInt8}
    (numeric : lengthBytes size type = some bytes) :
    bytes.length = (dummyLength type).length := by
  cases type <;> cases numeric <;> rfl

theorem length_hashBytes (crc : BitVec 32) (type : CrcType) :
    (hashBytes crc type).length = 4 := by
  cases type <;> rfl

theorem lengthStep_confined (blocks : List StructBlock) :
    Confined (lengthStep blocks) StructLength.offset
      fun length => (dummyLength length.type).length := by
  intro memory length other size apart
  unfold lengthStep
  split
  · rfl
  · split
    · rfl
    · next bytes numeric =>
        apply read_write_disjoint
        rw [length_lengthBytes numeric]
        exact apart

theorem hashStep_confined (blocks : List StructBlock) :
    Confined (hashStep blocks) StructHash.offset fun _ => 4 := by
  intro memory hash other size apart
  unfold hashStep
  split
  · rfl
  · apply read_write_disjoint
    rw [length_hashBytes]
    exact apart

/-! Fields of other pieces lie apart from a piece. -/

section Apart

variable {pieces : List Piece} {start offset width : Nat}

theorem lengths_apart (shaped : ∀ piece ∈ pieces, Shaped piece)
    (apart : Apart offset width start (size (segments pieces))) :
    ∀ length ∈ fieldsOf lengthField start pieces,
      Apart offset width length.offset (dummyLength length.type).length := by
  intro length member
  obtain ⟨instruction, chunk, place, inside, isField, lower, upper⟩ :=
    fieldsOf_range member
  cases instruction with
  | blockSize type id =>
      cases isField
      have room : chunk = dummyLength type := shaped _ inside
      rw [room] at upper
      unfold Apart at apart ⊢
      simp only
      omega
  | _ => cases isField

theorem hashes_apart (shaped : ∀ piece ∈ pieces, Shaped piece)
    (apart : Apart offset width start (size (segments pieces))) :
    ∀ hash ∈ fieldsOf hashField start pieces,
      Apart offset width hash.offset 4 := by
  intro hash member
  obtain ⟨instruction, chunk, place, inside, isField, lower, upper⟩ :=
    fieldsOf_range member
  cases instruction with
  | blockCrc32 type id =>
      cases isField
      have room : chunk = [0, 0, 0, 0] := shaped _ inside
      rw [room] at upper
      simp only [List.length_cons, List.length_nil] at upper
      unfold Apart at apart ⊢
      simp only
      omega
  | _ => cases isField

end Apart

/-! What a pass starts from: an empty packet. -/

structure Ready (conf : Config) (instructions : List Instruction) : Prop where
  buffer : conf.adc.buffer = bytecode instructions
  start : conf.adc.start = 0
  offset : conf.adc.offset = 0
  size : conf.adc.size = conf.adc.buffer.length
  small : conf.bufFuzzSize < 2 ^ 32
  block : conf.block = []
  length : conf.length = []
  hash : conf.hash = []

theorem Laid.skip {conf next : Config} {pieces : List Piece}
    (laid : Laid conf pieces next) (size : Nat) :
    Laid conf pieces (next.skip size) :=
  { laid with sized := ⟨laid.sized.small, laid.sized.blocks⟩ }

theorem Ready.upcoming {conf : Config} {instructions : List Instruction}
    (ready : conf.Ready instructions) (short : (bytecode instructions).length < 2 ^ 32) :
    conf.Upcoming (bytecode instructions) := by
  refine ⟨?_, ?_, ?_⟩
  · rw [ready.offset, ready.buffer, List.drop_zero]
  · rw [ready.offset]
    exact Nat.zero_le _
  · rw [ready.buffer]
    exact short

theorem packet_executeAll (fillSource : FillSource) {conf : Config}
    {instructions : List Instruction} (ready : conf.Ready instructions)
    (short : (bytecode instructions).length < 2 ^ 32)
    (fits : ∀ instruction ∈ instructions, instruction.Fits) :
    conf.packet fillSource =
      (conf.executeAll fillSource instructions).map fun next =>
        (next.skip (bytecode instructions).length).updateLength.updateHash := by
  have enough : instructions.length ≤ conf.adc.size := by
    rw [ready.size, ready.buffer]
    exact length_le_bytecode instructions
  have parsed := parse_bytecode fillSource (ready.upcoming short) ready.size fits enough
  rw [packet, parsed]
  cases conf.executeAll fillSource instructions <;> rfl

theorem packet_plan (fillSource : FillSource) {conf : Config}
    {instructions : List Instruction} (ready : conf.Ready instructions)
    (short : (bytecode instructions).length < 2 ^ 32)
    (fits : ∀ instruction ∈ instructions, instruction.Fits) :
    match plan fillSource conf.toSchedule conf.toBuffer instructions with
    | .error halt => conf.packet fillSource = .error halt
    | .ok chunks =>
        ∃ next, conf.packet fillSource = .ok next.updateLength.updateHash ∧
          Laid conf (instructions.zip chunks) next ∧
          next.adc.buffer = conf.adc.buffer ∧
          next.adc.start = conf.adc.start ∧ next.adc.size = conf.adc.size := by
  have sized : conf.Sized := by
    refine ⟨ready.small, ?_⟩
    intro block member
    rw [ready.block] at member
    cases member
  have executed := executeAll_plan fillSource sized instructions
  rw [packet_executeAll fillSource ready short fits]
  split
  · next halt planned =>
      rw [planned] at executed
      simp only at executed
      rw [executed]
      rfl
  · next chunks planned =>
      rw [planned] at executed
      obtain ⟨next, done, laid⟩ := executed
      refine ⟨next.skip (bytecode instructions).length, ?_, laid.skip _, ?_⟩
      · rw [done]
        rfl
      · have adc := executeAll_adc done
        simp only [Config.skip, adc, and_self]

theorem updates_frame (conf : Config) :
    conf.updateLength.updateHash =
      { conf with bufFuzz := conf.updateLength.updateHash.bufFuzz } := by
  rw [updateHash_eq, updateLength_eq]

theorem passStart_ready {fillSource : FillSource} {conf : Config}
    {instructions : List Instruction}
    (short : (bytecode instructions).length < 2 ^ 32)
    (fits : ∀ instruction ∈ instructions, instruction.Fits)
    (started : PassStart fillSource (bytecode instructions) conf) :
    conf.Ready instructions := by
  induction started with
  | first dbgMode bruteforce bufFuzz =>
      exact ⟨rfl, rfl, rfl, Nat.mod_eq_of_lt short,
        Nat.two_pow_pos 32, rfl, rfl, rfl⟩
  | @next conf sent started passed unfinished weights bufFuzz ready =>
      have planned := packet_plan fillSource ready short fits
      split at planned
      · rw [passed] at planned
        cases planned
      · obtain ⟨next, done, laid, buffer, start, size⟩ := planned
        rw [passed] at done
        cases done
        rw [updates_frame]
        exact ⟨buffer.trans ready.buffer, start.trans ready.start,
          start.trans ready.start, by
            simp only [nextPass]
            rw [size, ready.size, buffer], laid.sized.small, rfl, rfl, rfl⟩

/-! The bytes of one piece, when the packet is handed over. -/

section Piece

variable {conf next : Config} {before after : List Piece}
  {instruction : Instruction} {chunk : List UInt8}

theorem read_piece
    (laid : Laid conf (before ++ (instruction, chunk) :: after) next) :
    read next.bufFuzz (conf.bufFuzzSize + size (segments before)) chunk.length =
      chunk := by
  rw [laid.bytes, ← length_packetBytes]
  have parts : packetBytes (before ++ (instruction, chunk) :: after) =
      packetBytes before ++ chunk ++ packetBytes after := by
    simp [packetBytes]
  rw [parts]
  exact read_write_part _ _ _ _ _

theorem apart_before (chunk : List UInt8) (start : Nat) :
    Apart (start + size (segments before)) chunk.length start
      (size (segments before)) :=
  .inr (Nat.le_refl _)

theorem apart_after (before : List Piece) (chunk : List UInt8) (start width : Nat) :
    Apart (start + size (segments before)) chunk.length
      (start + size (segments before) + chunk.length) width :=
  .inl (Nat.le_refl _)

theorem shaped_split
    (shaped : ∀ piece ∈ before ++ (instruction, chunk) :: after, Shaped piece) :
    (∀ piece ∈ before, Shaped piece) ∧ Shaped (instruction, chunk) ∧
      ∀ piece ∈ after, Shaped piece := by
  refine ⟨?_, ?_, ?_⟩
  · intro piece member
    exact shaped piece (List.mem_append_left _ member)
  · exact shaped _ (List.mem_append_right _ List.mem_cons_self)
  · intro piece member
    exact shaped piece (List.mem_append_right _ (List.mem_cons_of_mem _ member))

/-! A piece that is no length field is left alone by the lengths, and one that
is no hash field by the hashes. -/

theorem read_hashes_other {blocks : List StructBlock} {start : Nat}
    {memory : Memory} (other : ∀ offset, hashField offset instruction = none)
    (shaped : ∀ piece ∈ before ++ (instruction, chunk) :: after, Shaped piece) :
    read
        ((fieldsOf hashField start
          (before ++ (instruction, chunk) :: after)).foldl
            (hashStep blocks) memory)
        (start + size (segments before)) chunk.length =
      read memory (start + size (segments before)) chunk.length := by
  obtain ⟨shapedBefore, -, shapedAfter⟩ := shaped_split shaped
  apply (hashStep_confined blocks).read_foldl
  intro hash member
  rw [fieldsOf_append, fieldsOf, other, Option.toList_none, List.nil_append]
    at member
  rcases List.mem_append.mp member with early | late
  · exact hashes_apart shapedBefore (apart_before chunk start) hash early
  · exact hashes_apart shapedAfter (apart_after before chunk start _) hash late

theorem read_lengths_other (blocks : List StructBlock) (start : Nat)
    (memory : Memory) (other : ∀ offset, lengthField offset instruction = none)
    (shaped : ∀ piece ∈ before ++ (instruction, chunk) :: after, Shaped piece) :
    read
        ((fieldsOf lengthField start
          (before ++ (instruction, chunk) :: after)).foldl
            (lengthStep blocks) memory)
        (start + size (segments before)) chunk.length =
      read memory (start + size (segments before)) chunk.length := by
  obtain ⟨shapedBefore, -, shapedAfter⟩ := shaped_split shaped
  apply (lengthStep_confined blocks).read_foldl
  intro length member
  rw [fieldsOf_append, fieldsOf, other, Option.toList_none, List.nil_append]
    at member
  rcases List.mem_append.mp member with early | late
  · exact lengths_apart shapedBefore (apart_before chunk start) length early
  · exact lengths_apart shapedAfter (apart_after before chunk start _) length late

/-! A length field is written once, with the size of its block. -/

def fieldBytes (segments : List (Segment Nat)) (type : SizeType) (id : Nat) :
    List UInt8 :=
  if Opened id segments then
    (lengthBytes (blockLength id segments) type).getD (dummyLength type)
  else dummyLength type

theorem read_length {type : SizeType} {id : Nat}
    (laid : Laid conf (before ++ (.blockSize type id, chunk) :: after) next)
    (noBlock : conf.block = []) (noLength : conf.length = [])
    (noHash : conf.hash = [])
    (shaped : ∀ piece ∈ before ++ (.blockSize type id, chunk) :: after,
      Shaped piece) :
    read next.updateLength.updateHash.bufFuzz
        (conf.bufFuzzSize + size (segments before)) chunk.length =
      fieldBytes (segments (before ++ (.blockSize type id, chunk) :: after))
        type id := by
  have original := read_piece laid
  have none_found : conf.findBlock id = none := by rw [findBlock, noBlock]; rfl
  have lengths := laid.lengths
  have hashes := laid.hashes
  rw [noLength, List.nil_append] at lengths
  rw [noHash, List.nil_append] at hashes
  obtain ⟨shapedBefore, room, shapedAfter⟩ := shaped_split shaped
  rw [updateHash_eq, updateLength_eq]
  simp only [hashes]
  rw [read_hashes_other (fun _ => rfl) shaped, lengths, fieldsOf_append,
    List.foldl_append]
  simp only [fieldsOf, lengthField, Option.toList_some, List.singleton_append,
    List.foldl_cons]
  rw [(lengthStep_confined next.block).read_foldl _
    (lengths_apart shapedAfter (apart_after before chunk conf.bufFuzzSize _))]
  have untouched := (lengthStep_confined next.block).read_foldl
    next.bufFuzz (lengths_apart shapedBefore (apart_before chunk conf.bufFuzzSize))
  rw [original] at untouched
  generalize (fieldsOf lengthField conf.bufFuzzSize before).foldl
    (lengthStep next.block) next.bufFuzz = memory at untouched ⊢
  by_cases opened :
      Opened id (segments (before ++ (.blockSize type id, chunk) :: after))
  · obtain ⟨block, found, -, blockSize⟩ := laid.added none_found opened
    unfold findBlock at found
    simp only [lengthStep, fieldBytes, if_pos opened, found, ← blockSize]
    cases numeric : lengthBytes block.size type with
    | none => exact untouched.trans room
    | some bytes =>
        have same := length_lengthBytes numeric
        simp only [Option.getD_some]
        rw [show chunk = dummyLength type from room, ← same]
        exact read_write memory _ bytes
  · have absent := laid.missing none_found opened
    unfold findBlock at absent
    simp only [lengthStep, fieldBytes, if_neg opened, absent]
    exact untouched.trans room

end Piece

end Config

end Segvault.Autodafe
