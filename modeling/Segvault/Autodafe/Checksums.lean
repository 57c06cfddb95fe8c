import Segvault.Autodafe.ScriptLayout

namespace Segvault.Autodafe

open Bytes Layout Config

/-! Reading a checksum field the way its directive declares it. -/

def CrcType.decode : CrcType → List UInt8 → Nat
  | .b => ofBigEndian
  | .l => ofLittleEndian

theorem decode_hashBytes (crc : BitVec 32) (type : CrcType) :
    type.decode (hashBytes crc type) = crc.toNat := by
  have bounded := crc.isLt
  cases type with
  | b =>
      have decoded := ofBigEndian_bigEndian32 crc.toNat
      rwa [Nat.mod_eq_of_lt bounded] at decoded
  | l =>
      have decoded := ofLittleEndian_littleEndian32 crc.toNat
      rwa [Nat.mod_eq_of_lt bounded] at decoded

theorem decode_zeros (type : CrcType) :
    type.decode [0, 0, 0, 0] = (crc32 []).toNat := by
  cases type <;> decide

/-! Every checksum field outside its block holds the CRC-32 of the block. -/

def HashFieldsRight (script : List Directive) (chunks : List (List UInt8))
    (start : Nat) (packet : Memory) : Prop :=
  ∀ index type name, script[index]? = some (.blockCrc32 type name) →
    ¬ InBlock name (scriptSegments script chunks)
      (size ((scriptSegments script chunks).take index)) →
    CrcType.decode type
        (read packet
          (start + size ((scriptSegments script chunks).take index)) 4) =
      (crc32
        (read packet (start + blockOffset name (scriptSegments script chunks))
          (blockLength name (scriptSegments script chunks)))).toNat

def PacketHashesRight (fillSource : FillSource) (script : List Directive)
    (instructions : List Instruction) (conf : Config) : Prop :=
  match conf.packet fillSource with
  | .error .quit => True
  | .error .undefined => False
  | .ok packet =>
      ∃ chunks,
        plan fillSource conf.toSchedule conf.toBuffer instructions =
          .ok chunks ∧
        HashFieldsRight script chunks conf.bufFuzzSize packet.bufFuzz

/-! When they do: no checksum field that is computed later lies in the block. -/

def HashesOrdered (fillSource : FillSource) (script : List Directive)
    (instructions : List Instruction) (conf : Config) : Prop :=
  match plan fillSource conf.toSchedule conf.toBuffer instructions with
  | .error .quit => True
  | .error .undefined => False
  | .ok chunks =>
      ∀ outer inner outerType innerType outerName innerName,
        script[outer]? = some (.blockCrc32 outerType outerName) →
        script[inner]? = some (.blockCrc32 innerType innerName) →
        outer < inner → .blockBegin innerName ∈ script →
        ¬ InBlock outerName (scriptSegments script chunks)
          (size ((scriptSegments script chunks).take outer)) →
        ¬ InBlock outerName (scriptSegments script chunks)
          (size ((scriptSegments script chunks).take inner))

/-! The checksum of one piece. -/

theorem mem_fieldsOf {β : Type} {field : Nat → Instruction → Option β}
    {start : Nat} {pieces : List Piece} {found : β}
    (member : found ∈ fieldsOf field start pieces) :
    ∃ before instruction chunk after,
      pieces = before ++ (instruction, chunk) :: after ∧
        field (start + size (segments before)) instruction = some found := by
  induction pieces generalizing start with
  | nil => cases member
  | cons piece pieces induction =>
      obtain ⟨instruction, chunk⟩ := piece
      rcases List.mem_append.mp member with here | later
      · exact ⟨[], instruction, chunk, pieces, rfl, Option.mem_toList.mp here⟩
      · obtain ⟨before, other, bytes, after, rfl, isField⟩ := induction later
        refine ⟨(instruction, chunk) :: before, other, bytes, after, rfl, ?_⟩
        rw [segments_cons, size, ← Nat.add_assoc]
        exact isField

theorem hashStep_missing {conf : Config} {hash : StructHash}
    (missing : conf.findBlock hash.id = none) (memory : Memory) :
    hashStep conf.block memory hash = memory := by
  unfold findBlock at missing
  simp only [hashStep, missing]

section Piece

variable {conf next : Config} {before after : List Piece} {type : CrcType}
  {id : Nat} {chunk : List UInt8}

theorem hashes_after_apart {pieces : List Piece}
    (split : pieces = before ++ (.blockCrc32 type id, chunk) :: after)
    (laid : Laid conf pieces next) (noBlock : conf.block = [])
    (shaped : ∀ piece ∈ pieces, Shaped piece)
    (ordered : ∀ middle innerType innerId inner rest,
      after = middle ++ (.blockCrc32 innerType innerId, inner) :: rest →
      Opened innerId (segments pieces) →
      ¬ InBlock id (segments pieces)
        (size (segments (before ++ (.blockCrc32 type id, chunk) :: middle)))) :
    ∀ hash ∈ fieldsOf hashField
        (conf.bufFuzzSize + size (segments before) + chunk.length) after,
      (∀ memory, hashStep next.block memory hash = memory) ∨
        Apart (conf.bufFuzzSize + blockOffset id (segments pieces))
          (blockLength id (segments pieces)) hash.offset 4 := by
  intro hash member
  obtain ⟨middle, instruction, inner, rest, shape, isField⟩ :=
    mem_fieldsOf member
  cases instruction with
  | blockCrc32 innerType innerId =>
      cases isField
      have whole : pieces = (before ++ (.blockCrc32 type id, chunk) :: middle) ++
          (.blockCrc32 innerType innerId, inner) :: rest := by
        rw [split, shape, List.append_assoc, List.cons_append]
      have room : inner = [0, 0, 0, 0] := by
        have inside := List.mem_append_right
          (before ++ (.blockCrc32 type id, chunk) :: middle)
          (List.mem_cons_self (a := ((.blockCrc32 innerType innerId :
            Instruction), inner)) (l := rest))
        rw [← whole] at inside
        exact shaped _ inside
      subst room
      by_cases opened : Opened innerId (segments pieces)
      · right
        have outside := ordered middle innerType innerId _ rest shape opened
        have wholeSegments := congrArg segments whole
        rw [segments_append, segments_cons] at wholeSegments
        rw [wholeSegments] at outside ⊢
        have apart := apart_of_not_inBlock (_, [0, 0, 0, 0]) outside
        simp only [List.length_cons, List.length_nil] at apart
        simp only [segments_append, segments_cons, size_append, size] at apart
        unfold Apart
        simp only [segments_append, segments_cons]
        omega
      · left
        have absent : conf.findBlock innerId = none := by
          rw [findBlock, noBlock]
          rfl
        exact hashStep_missing (laid.missing absent opened)
  | _ => cases isField

theorem read_hash {pieces : List Piece}
    (split : pieces = before ++ (.blockCrc32 type id, chunk) :: after)
    (laid : Laid conf pieces next) (noBlock : conf.block = [])
    (noLength : conf.length = []) (noHash : conf.hash = [])
    (shaped : ∀ piece ∈ pieces, Shaped piece)
    (outside : ¬ InBlock id (segments pieces) (size (segments before)))
    (ordered : ∀ middle innerType innerId inner rest,
      after = middle ++ (.blockCrc32 innerType innerId, inner) :: rest →
      Opened innerId (segments pieces) →
      ¬ InBlock id (segments pieces)
        (size (segments (before ++ (.blockCrc32 type id, chunk) :: middle)))) :
    type.decode
        (read next.updateLength.updateHash.bufFuzz
          (conf.bufFuzzSize + size (segments before)) 4) =
      (crc32
        (read next.updateLength.updateHash.bufFuzz
          (conf.bufFuzzSize + blockOffset id (segments pieces))
          (blockLength id (segments pieces)))).toNat := by
  have later := hashes_after_apart split laid noBlock shaped ordered
  have shapedSplit := split ▸ shaped
  obtain ⟨shapedBefore, room, shapedAfter⟩ := shaped_split shapedSplit
  obtain rfl : chunk = [0, 0, 0, 0] := room
  have original := read_piece (split ▸ laid)
  have lengthsDone := read_lengths_other next.block conf.bufFuzzSize next.bufFuzz
    (fun _ => rfl) shapedSplit
  have lengths := laid.lengths
  have hashes := laid.hashes
  rw [noLength, List.nil_append, split] at lengths
  rw [noHash, List.nil_append, split, fieldsOf_append] at hashes
  rw [updateHash_eq, updateLength_eq]
  simp only [hashes, lengths, List.foldl_append]
  simp only [fieldsOf, hashField, Option.toList_some, List.singleton_append,
    List.foldl_cons]
  rw [original, ← lengths] at lengthsDone
  rw [← lengths]
  generalize next.length.foldl (lengthStep next.block) next.bufFuzz = memory
    at lengthsDone ⊢
  have earlier := (hashStep_confined next.block).read_foldl memory
    (hashes_apart shapedBefore (apart_before [0, 0, 0, 0] conf.bufFuzzSize))
  rw [lengthsDone] at earlier
  generalize (fieldsOf hashField conf.bufFuzzSize before).foldl
    (hashStep next.block) memory = memory at earlier ⊢
  generalize laterHashes : fieldsOf hashField
    (conf.bufFuzzSize + size (segments before) + [(0 : UInt8), 0, 0, 0].length)
    after = hashes at later ⊢
  have field : ∀ memory, read (hashes.foldl (hashStep next.block) memory)
      (conf.bufFuzzSize + size (segments before)) 4 =
        read memory (conf.bufFuzzSize + size (segments before)) 4 := by
    intro memory
    rw [← laterHashes]
    exact (hashStep_confined next.block).read_foldl _
      (hashes_apart shapedAfter (apart_after before [0, 0, 0, 0] conf.bufFuzzSize _))
  have block := fun memory => (hashStep_confined next.block).read_foldl_of
    memory later
  rw [field, block]
  have absent : conf.findBlock id = none := by rw [findBlock, noBlock]; rfl
  by_cases opened : Opened id (segments pieces)
  · obtain ⟨found, atFound, offset, found_size⟩ := laid.added absent opened
    unfold findBlock at atFound
    have wholeSegments := congrArg segments split
    rw [segments_append, segments_cons] at wholeSegments
    have apart := apart_of_not_inBlock ((Instruction.blockCrc32 type id).mark, [0, 0, 0, 0])
      (wholeSegments ▸ outside)
    rw [← wholeSegments] at apart
    simp only [List.length_cons, List.length_nil] at apart
    simp only [hashStep, atFound, ← offset, ← found_size]
    generalize hashed : hashBytes
      (crc32 (read memory found.offset found.size)) type = bytes
    have width : bytes.length = 4 := by rw [← hashed, length_hashBytes]
    have written := read_write memory
      (conf.bufFuzzSize + size (segments before)) bytes
    rw [width] at written
    rw [written, ← hashed, decode_hashBytes]
    congr 2
    refine (read_write_disjoint memory ?_).symm
    rw [hashed, width, offset, found_size]
    omega
  · have zeros : read memory (conf.bufFuzzSize + size (segments before)) 4 =
        [0, 0, 0, 0] := earlier
    rw [hashStep_missing (laid.missing absent opened), zeros,
      blockLength_of_not_opened opened]
    exact decode_zeros type

end Piece

/-! The checksum directives of a script, in the packet of a pass. -/

section Script

variable {script : List Directive} {instructions : List Instruction}
  {chunks : List (List UInt8)}

theorem crc_directive (translation : Translation script instructions)
    {index : Nat} {type : CrcType} {id : Nat}
    (found : instructions[index]? = some (.blockCrc32 type id)) :
    ∃ name, script[index]? = some (.blockCrc32 type name) ∧
      translation.naming name = id := by
  have bound : index < script.length := by
    have inside := (List.getElem?_eq_some_iff.mp found).1
    have same := congrArg List.length translation.translated
    rw [length_translate] at same
    omega
  obtain ⟨directive, atIndex⟩ : ∃ directive, script[index]? = some directive :=
    ⟨_, List.getElem?_eq_getElem bound⟩
  obtain ⟨fuzzId, translated⟩ :=
    getElem?_translate translation.naming 0 atIndex
  rw [← translation.translated, found, Option.some.injEq] at translated
  rw [atIndex]
  cases directive with
  | blockCrc32 other name => cases translated; exact ⟨name, rfl, rfl⟩
  | fuzzString one more => cases more <;> cases translated
  | fuzzHex filename values => cases filename <;> cases translated
  | _ => cases translated

theorem packetHashesRight_of_ordered {fillSource : FillSource} {conf : Config}
    (accepted : adc script = some instructions)
    (short : (bytecode instructions).length < 2 ^ 32)
    (started : PassStart fillSource (bytecode instructions) conf)
    (ordered : HashesOrdered fillSource script instructions conf) :
    PacketHashesRight fillSource script instructions conf := by
  obtain ⟨translation⟩ := adc_translation accepted short
  have fits : ∀ instruction ∈ instructions, instruction.Fits := by
    rw [translation.translated]
    exact translate_fits translation.bounded (by decide) script
  have ready := passStart_ready short fits started
  have passed := packet_plan fillSource ready short fits
  unfold PacketHashesRight
  unfold HashesOrdered at ordered
  split at passed
  · next halt planned =>
      rw [planned] at ordered
      rw [passed]
      cases halt with
      | quit => trivial
      | undefined => exact ordered
  · next chunks planned =>
      obtain ⟨next, done, laid, -⟩ := passed
      have same := length_plan planned
      have sameScript : chunks.length = script.length := by
        rw [same, translation.translated, length_translate]
      have shaped := plan_shaped planned
      rw [planned] at ordered
      rw [done]
      refine ⟨chunks, planned, ?_⟩
      intro index type name found outside
      have named : ∀ {index type name},
          script[index]? = some (Directive.blockCrc32 type name) →
          ∃ directive ∈ script, directive.name? = some name :=
        fun found => ⟨_, List.mem_of_getElem? found, rfl⟩
      obtain ⟨lengths, offsets, -⟩ :=
        block_named chunks translation (named found)
      obtain ⟨fuzzId, chunk, split⟩ := pieces_at translation same found
      have inBlock : ∀ position,
          InBlock (translation.naming name)
              (segments (instructions.zip chunks)) position ↔
            InBlock name (scriptSegments script chunks) position := by
        intro position
        rw [InBlock, InBlock, lengths, offsets]
      rw [position_at translation] at outside ⊢
      rw [← lengths, ← offsets]
      refine read_hash split laid ready.block ready.length ready.hash shaped
        ((inBlock _).not.mpr outside) ?_
      intro middle innerType innerId inner rest after opened
      have bound : index < (instructions.zip chunks).length := by
        have inScript := (List.getElem?_eq_some_iff.mp found).1
        rw [List.length_zip]
        omega
      generalize front : (instructions.zip chunks).take index ++
        ((Directive.blockCrc32 type name).instruction translation.naming
          fuzzId, chunk) :: middle = head
      have width : head.length = index + 1 + middle.length := by
        rw [← front, List.length_append, List.length_take, List.length_cons]
        omega
      have whole : instructions.zip chunks =
          head ++ (.blockCrc32 innerType innerId, inner) :: rest := by
        rw [after] at split
        rw [← front, List.append_assoc]
        exact split
      have atInner : instructions[head.length]? =
          some (.blockCrc32 innerType innerId) := by
        have firsts : instructions =
            (instructions.zip chunks).map Prod.fst := by
          rw [List.map_fst_zip (by omega)]
        rw [firsts, whole]
        simp
      obtain ⟨innerName, inScript, numbered⟩ := crc_directive translation atInner
      have begins : .blockBegin innerName ∈ script := by
        obtain ⟨-, -, begun⟩ :=
          block_named chunks translation (named inScript)
        rw [← opened_scriptSegments sameScript, ← begun, numbered]
        exact opened
      have apart := ordered index head.length type innerType name innerName found
        inScript (by omega) begins (by rw [position_at translation]; exact outside)
      rw [position_at translation, whole, List.take_left, ← front] at apart
      exact (inBlock _).not.mpr apart

end Script

/-! Main result: in every pass of every accepted script whose checksums are
ordered, every checksum field outside its block is the CRC-32 of the block. -/

theorem hash_fields_right (fillSource : FillSource) (script : List Directive)
    (instructions : List Instruction) (conf : Config)
    (accepted : adc script = some instructions)
    (short : (bytecode instructions).length < 2 ^ 32)
    (started : PassStart fillSource (bytecode instructions) conf)
    (ordered : HashesOrdered fillSource script instructions conf) :
    PacketHashesRight fillSource script instructions conf :=
  packetHashesRight_of_ordered accepted short started ordered

def outerBlock : QString := ⟨[65], a_size, a_noNul⟩
def innerBlock : QString := ⟨[66], by decide, by decide⟩
def oneByte : HexBuffer := ⟨[1], one_nonempty, one_size⟩

-- the checksum of the inner block stands in the outer block
def outerCrcLast : List Directive :=
  [.blockBegin outerBlock, .blockCrc32 .b innerBlock, .blockEnd outerBlock,
    .blockBegin innerBlock, .hex oneByte, .blockEnd innerBlock,
    .blockCrc32 .b outerBlock]

def outerCrcFirst : List Directive :=
  .blockCrc32 .b outerBlock :: outerCrcLast.dropLast

def firstPass (instructions : List Instruction) : Config :=
  readAdcFile false false (fun _ => 0) (bytecode instructions)

theorem hash_fields_right_outer_last :
    PacketHashesRight (fun _ => none) outerCrcLast
      ((adc outerCrcLast).getD [])
      (firstPass ((adc outerCrcLast).getD [])) := by
  have planned : plan (fun _ => none)
      (firstPass ((adc outerCrcLast).getD [])).toSchedule
      (firstPass ((adc outerCrcLast).getD [])).toBuffer
      ((adc outerCrcLast).getD []) =
        .ok [[], [0, 0, 0, 0], [], [], [1], [], [0, 0, 0, 0]] := rfl
  refine hash_fields_right (fun _ => none) outerCrcLast _ _ (by decide)
    (by decide) (.first false false _) ?_
  unfold HashesOrdered
  rw [planned]
  have crcs : ∀ {index type name},
      outerCrcLast[index]? = some (.blockCrc32 type name) →
      index = 1 ∧ name = innerBlock ∨ index = 6 := by
    intro index type name found
    rcases index with _ | _ | _ | _ | _ | _ | _ | index
    all_goals first | cases found; done | skip
    · exact .inl ⟨rfl, (Directive.blockCrc32.inj (Option.some.inj found)).2.symm⟩
    · exact .inr rfl
  intro outer inner outerType innerType outerName innerName atOuter atInner
    before begins outside
  rcases crcs atOuter with ⟨rfl, rfl⟩ | rfl
  · rcases crcs atInner with ⟨rfl, -⟩ | rfl
    · omega
    · decide
  · rcases crcs atInner with ⟨rfl, -⟩ | rfl <;> omega

theorem hash_fields_wrong_outer_first :
    ¬ ∀ (fillSource : FillSource) (script : List Directive)
        (instructions : List Instruction) (conf : Config),
        adc script = some instructions →
        PassStart fillSource (bytecode instructions) conf →
        PacketHashesRight fillSource script instructions conf := by
  intro claimed
  have right := claimed (fun _ => none) outerCrcFirst
    ((adc outerCrcFirst).getD []) (firstPass ((adc outerCrcFirst).getD []))
    (by decide) (.first false false _)
  have wrong :
      ((firstPass ((adc outerCrcFirst).getD [])).packet
          fun _ => none).toOption.map
        (fun packet => CrcType.b.decode (read packet.bufFuzz 0 4) ==
          (crc32 (read packet.bufFuzz 4 4)).toNat) = some false := by
    decide +kernel
  have planned : plan (fun _ => none)
      (firstPass ((adc outerCrcFirst).getD [])).toSchedule
      (firstPass ((adc outerCrcFirst).getD [])).toBuffer
      ((adc outerCrcFirst).getD []) =
        .ok [[0, 0, 0, 0], [], [0, 0, 0, 0], [], [], [1], []] := rfl
  unfold PacketHashesRight at right
  rw [planned] at right
  cases passed : (firstPass ((adc outerCrcFirst).getD [])).packet
      (fun _ => none) with
  | error halt =>
      rw [passed] at wrong
      cases wrong
  | ok packet =>
      rw [passed] at right wrong
      obtain ⟨chunks, same, fields⟩ := right
      cases same
      have field := fields 0 .b outerBlock rfl (by decide)
      simp only [Except.toOption, Option.map_some, Option.some.injEq,
        beq_eq_false_iff_ne] at wrong
      exact wrong field

end Segvault.Autodafe
