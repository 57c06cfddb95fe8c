import Segvault.Autodafe.ScriptLayout

namespace Segvault.Autodafe

open Bytes Layout Config

/-! Reading a length field the way its directive declares it. -/

namespace SizeType

def width? : SizeType → Option Nat
  | .l32 => some 4
  | .b32 => some 4
  | .l16 => some 2
  | .b16 => some 2
  | .size8 => some 1
  | .s16 => none
  | .s10 => none

def decode : SizeType → List UInt8 → Nat
  | .l32 => ofLittleEndian
  | .l16 => ofLittleEndian
  | _ => ofBigEndian

end SizeType

/-! Every length field of the packet holds the length of the block it names. -/

def LengthFieldsRight (script : List Directive) (chunks : List (List UInt8))
    (start : Nat) (packet : Memory) : Prop :=
  ∀ index type name width, script[index]? = some (.blockSize type name) →
    SizeType.width? type = some width →
    type.decode
        (read packet
          (start + size ((scriptSegments script chunks).take index)) width) =
      blockLength name (scriptSegments script chunks) % 2 ^ (8 * width)

def PacketLengthsRight (fillSource : FillSource) (script : List Directive)
    (instructions : List Instruction) (conf : Config) : Prop :=
  match conf.packet fillSource with
  | .error .quit => True
  | .error .undefined => False
  | .ok packet =>
      ∃ chunks,
        plan fillSource conf.toSchedule conf.toBuffer instructions =
          .ok chunks ∧
        LengthFieldsRight script chunks conf.bufFuzzSize packet.bufFuzz

/-! When they do: the bytes of the pass fit the size of the buffer, every named
block begins somewhere, and the little-endian 16-bit lengths repeat their low
half in their high half. -/

def LengthsFillable (fillSource : FillSource) (script : List Directive)
    (instructions : List Instruction) (conf : Config) : Prop :=
  match plan fillSource conf.toSchedule conf.toBuffer instructions with
  | .error .quit => True
  | .error .undefined => False
  | .ok chunks =>
      ∀ type name width, .blockSize type name ∈ script →
        SizeType.width? type = some width →
        .blockBegin name ∈ script ∧
          (type = .l16 →
            blockLength name (scriptSegments script chunks) / 2 ^ 16 % 2 ^ 16 =
              blockLength name (scriptSegments script chunks) % 2 ^ 16)

theorem length_dummyLength {type : SizeType} {width : Nat}
    (numeric : type.width? = some width) :
    (dummyLength type).length = width := by
  cases type <;> cases numeric <;> rfl

theorem decode_dummyLength {type : SizeType} {width : Nat}
    (numeric : type.width? = some width) :
    type.decode (dummyLength type) = 2 ^ (8 * width) - 1 := by
  cases type <;> cases numeric <;> decide

theorem decode_lengthBytes {type : SizeType} {width : Nat} (size : Nat)
    (numeric : type.width? = some width) :
    ∃ bytes, lengthBytes size type = some bytes ∧
      type.decode bytes =
        if type = .l16 then size / 2 ^ 16 % 2 ^ 16
        else size % 2 ^ (8 * width) := by
  cases type with
  | l32 =>
      cases numeric
      exact ⟨_, rfl, ofLittleEndian_littleEndian32 size⟩
  | l16 =>
      cases numeric
      exact ⟨_, rfl, ofLittleEndian_drop_two size⟩
  | b32 =>
      cases numeric
      exact ⟨_, rfl, ofBigEndian_bigEndian32 size⟩
  | b16 =>
      cases numeric
      exact ⟨_, rfl, ofBigEndian_drop_two size⟩
  | size8 =>
      cases numeric
      exact ⟨_, rfl, ofBigEndian_drop_three size⟩
  | s16 => cases numeric
  | s10 => cases numeric

theorem fieldBytes_right_iff {segments : List (Segment Nat)} {type : SizeType}
    {id width : Nat} (numeric : type.width? = some width) :
    type.decode (fieldBytes segments type id) =
        blockLength id segments % 2 ^ (8 * width) ↔
      Opened id segments ∧
        (type = .l16 →
          blockLength id segments / 2 ^ 16 % 2 ^ 16 =
            blockLength id segments % 2 ^ 16) := by
  unfold fieldBytes
  by_cases opened : Opened id segments
  · obtain ⟨bytes, filled, decoded⟩ :=
      decode_lengthBytes (blockLength id segments) numeric
    rw [if_pos opened, filled, Option.getD_some, decoded]
    split
    · next little =>
        subst little
        cases numeric
        simp [opened]
    · next other => simp [opened, other]
  · rw [if_neg opened, decode_dummyLength numeric,
      blockLength_of_not_opened opened, Nat.zero_mod]
    have positive : 1 < 2 ^ (8 * width) := by
      cases type <;> cases numeric <;> decide
    constructor
    · intro zero
      omega
    · intro both
      exact absurd both.1 opened

/-! The field at a position of the script, in the packet of a pass. -/

theorem read_script_length {script : List Directive}
    {instructions : List Instruction} {chunks : List (List UInt8)}
    {conf next : Config} (translation : Translation script instructions)
    (ready : conf.Ready instructions)
    (same : chunks.length = instructions.length)
    (shaped : ∀ piece ∈ instructions.zip chunks, Shaped piece)
    (laid : Laid conf (instructions.zip chunks) next) {index : Nat}
    {type : SizeType} {name : QString} {width : Nat}
    (found : script[index]? = some (.blockSize type name))
    (numeric : type.width? = some width) :
    read next.updateLength.updateHash.bufFuzz
        (conf.bufFuzzSize + size ((scriptSegments script chunks).take index))
        width =
      fieldBytes (segments (instructions.zip chunks)) type
        (translation.naming name) := by
  obtain ⟨fuzzId, chunk, split⟩ := pieces_at translation same found
  have room : chunk = dummyLength type := by
    have member := List.mem_append_right
      ((instructions.zip chunks).take index)
      (List.mem_cons_self (a := ((Directive.blockSize type name).instruction
        translation.naming fuzzId, chunk))
        (l := (instructions.zip chunks).drop (index + 1)))
    rw [← split] at member
    exact shaped _ member
  subst room
  rw [split] at laid shaped
  have filled := read_length laid ready.block ready.length ready.hash shaped
  rw [length_dummyLength numeric] at filled
  rw [position_at translation, filled]
  exact congrArg (fun pieces => fieldBytes (segments pieces) type
    (translation.naming name)) split.symm

theorem packetLengthsRight_iff {fillSource : FillSource}
    {script : List Directive} {instructions : List Instruction} {conf : Config}
    (accepted : adc script = some instructions)
    (short : (bytecode instructions).length < 2 ^ 32)
    (started : PassStart fillSource (bytecode instructions) conf) :
    PacketLengthsRight fillSource script instructions conf ↔
      LengthsFillable fillSource script instructions conf := by
  obtain ⟨translation⟩ := adc_translation accepted short
  have fits : ∀ instruction ∈ instructions, instruction.Fits := by
    rw [translation.translated]
    exact translate_fits translation.bounded (by decide) script
  have ready := passStart_ready short fits started
  have passed := packet_plan fillSource ready short fits
  unfold PacketLengthsRight LengthsFillable
  split at passed
  · next halt planned =>
      rw [passed, planned]
      cases halt <;> rfl
  · next chunks planned =>
      obtain ⟨next, done, laid, -⟩ := passed
      have same := length_plan planned
      have shaped := plan_shaped planned
      rw [done, planned]
      simp only [Except.ok.injEq, exists_eq_left', LengthFieldsRight]
      have field : ∀ {index type name width},
          script[index]? = some (.blockSize type name) →
          SizeType.width? type = some width →
          (type.decode
              (read next.updateLength.updateHash.bufFuzz
                (conf.bufFuzzSize +
                  size ((scriptSegments script chunks).take index)) width) =
              blockLength name (scriptSegments script chunks) %
                2 ^ (8 * width) ↔
            .blockBegin name ∈ script ∧
              (type = .l16 →
                blockLength name (scriptSegments script chunks) / 2 ^ 16 %
                    2 ^ 16 =
                  blockLength name (scriptSegments script chunks) %
                    2 ^ 16)) := by
        intro index type name width found numeric
        have known : ∃ directive ∈ script, directive.name? = some name :=
          ⟨_, List.mem_of_getElem? found, rfl⟩
        obtain ⟨lengths, -, opened⟩ :=
          block_named chunks translation known
        rw [read_script_length translation ready same shaped laid found numeric,
          ← lengths, fieldBytes_right_iff numeric, opened,
          opened_scriptSegments]
        rw [same, translation.translated, length_translate]
      constructor
      · intro right type name width member numeric
        obtain ⟨index, found⟩ := List.getElem?_of_mem member
        exact (field found numeric).mp (right index type name width found numeric)
      · intro fillable index type name width found numeric
        exact (field found numeric).mpr
          (fillable type name width (List.mem_of_getElem? found) numeric)

/-! Main result: in every pass of every accepted script, the length fields are
right exactly when they can be filled. -/

theorem length_fields_right_iff (fillSource : FillSource)
    (script : List Directive) (instructions : List Instruction) (conf : Config)
    (accepted : adc script = some instructions)
    (short : (bytecode instructions).length < 2 ^ 32)
    (started : PassStart fillSource (bytecode instructions) conf) :
    PacketLengthsRight fillSource script instructions conf ↔
      LengthsFillable fillSource script instructions conf :=
  packetLengthsRight_iff accepted short started

def blockA : QString := ⟨[65], a_size, a_noNul⟩

-- one block around its own length field, of either width
def nestedLength (type : SizeType) : List Directive :=
  [.blockBegin blockA, .blockSize type blockA, .blockEnd blockA, .send blockA]

def nestedBytecode (type : SizeType) : List Instruction :=
  [.blockBegin 1, .blockSize type 1, .blockEnd 1, .send 1]

def nestedStart (type : SizeType) : Config :=
  readAdcFile false false (fun _ => 0) (bytecode (nestedBytecode type))

theorem length_fields_right_big_endian :
    PacketLengthsRight (fun _ => none) (nestedLength .b16)
      (nestedBytecode .b16) (nestedStart .b16) := by
  refine (length_fields_right_iff (fun _ => none) (nestedLength .b16)
    (nestedBytecode .b16) (nestedStart .b16) (by decide) (by decide)
    (.first false false _)).mpr ?_
  have planned : plan (fun _ => none) (nestedStart .b16).toSchedule
      (nestedStart .b16).toBuffer (nestedBytecode .b16) =
        .ok [[], [255, 255], [], []] := rfl
  unfold LengthsFillable
  rw [planned]
  intro type name width member numeric
  simp only [nestedLength, List.mem_cons, reduceCtorEq, Directive.blockSize.injEq,
    List.not_mem_nil, or_false, false_or] at member
  obtain ⟨rfl, rfl⟩ := member
  exact ⟨List.mem_cons_self, fun little => by cases little⟩

theorem length_fields_wrong_little_endian :
    ¬ ∀ (fillSource : FillSource) (script : List Directive)
        (instructions : List Instruction) (conf : Config),
        adc script = some instructions →
        PassStart fillSource (bytecode instructions) conf →
        PacketLengthsRight fillSource script instructions conf := by
  intro claimed
  have accepted : adc (nestedLength .l16) = some (nestedBytecode .l16) := by
    decide
  have started : PassStart (fun _ => none) (bytecode (nestedBytecode .l16))
      (nestedStart .l16) := .first false false _
  have right := claimed _ _ _ _ accepted started
  rw [packetLengthsRight_iff accepted (by decide) started] at right
  have planned : plan (fun _ => none) (nestedStart .l16).toSchedule
      (nestedStart .l16).toBuffer (nestedBytecode .l16) =
        .ok [[], [255, 255], [], []] := rfl
  unfold LengthsFillable at right
  rw [planned] at right
  have halves := (right .l16 blockA 2
    (List.mem_cons_of_mem _ List.mem_cons_self) rfl).2 rfl
  revert halves
  decide

end Segvault.Autodafe
