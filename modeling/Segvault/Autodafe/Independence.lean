import Segvault.Autodafe.Substitution

namespace Segvault.Autodafe

open Bytes Layout

namespace Config

/-! What a pass leaves besides its packet: the schedule, the size of the buffer and
what is to be sent. -/

def chronoOf : Instruction → Option StructChrono
  | .send id => some { id, type := .send }
  | .recv id => some { id, type := .recv }
  | _ => none

theorem executeAll_sources {fillSource : FillSource} {conf next : Config}
    {instructions : List Instruction}
    (executed : conf.executeAll fillSource instructions = .ok next) :
    next.chrono = conf.chrono ++ instructions.filterMap chronoOf ∧
      ∃ sources,
        conf.toSchedule.sources fillSource instructions = .ok (sources, next.toSchedule) ∧
          conf.toBuffer.takeAll (pushes instructions sources) = .ok next.toBuffer := by
  induction instructions generalizing conf with
  | nil =>
      cases executed
      exact ⟨(List.append_nil _).symm, [], rfl, rfl⟩
  | cons instruction instructions induction =>
      simp only [executeAll, execute_eq, Schedule.pushed_eq, bind, Except.bind] at executed
      cases found : conf.toSchedule.source fillSource instruction with
      | error halt => rw [found] at executed; cases executed
      | ok choice =>
          obtain ⟨source, schedule⟩ := choice
          rw [found] at executed
          simp only [Except.map] at executed
          cases taken : conf.toBuffer.take (instruction.pushes source) with
          | error halt => rw [taken] at executed; cases executed
          | ok buffer =>
              rw [taken] at executed
              simp only [pure, Except.pure] at executed
              obtain ⟨chrono, sources, chosen, grown⟩ := induction executed
              have scheduled : (conf.advance schedule buffer instruction
                  (instruction.pushes source)).toSchedule = schedule := by
                cases instruction.pushes source <;> rfl
              have buffered : (conf.advance schedule buffer instruction
                  (instruction.pushes source)).toBuffer = buffer := by
                generalize instruction.pushes source = data at taken
                cases data with
                | none =>
                    cases taken
                    cases instruction <;> rfl
                | some data => rfl
              have recorded : (conf.advance schedule buffer instruction
                  (instruction.pushes source)).chrono =
                    conf.chrono ++ (chronoOf instruction).toList := by
                cases instruction.pushes source <;> cases instruction <;>
                  first | rfl | exact (List.append_nil _).symm
              rw [scheduled] at chosen
              rw [buffered] at grown
              rw [recorded] at chrono
              refine ⟨?_, source :: sources, ?_, ?_⟩
              · rw [chrono, List.append_assoc, List.filterMap_cons]
                cases chronoOf instruction <;> rfl
              · simp only [Schedule.sources, found, chosen, bind, Except.bind]
                rfl
              · simp only [pushes, List.zipWith_cons_cons, Buffer.takeAll, taken, bind,
                  Except.bind]
                exact grown

-- What a completed pass leaves, in terms of the sources it has chosen.
structure Passed (fillSource : FillSource) (conf : Config)
    (instructions : List Instruction) (sources : List (Option StructSource))
    (next sent : Config) : Prop where
  sent_eq : sent = next.updateLength.updateHash
  chosen : conf.toSchedule.sources fillSource instructions = .ok (sources, sent.toSchedule)
  grown : conf.toBuffer.takeAll (pushes instructions sources) = .ok sent.toBuffer
  chrono : sent.chrono = conf.chrono ++ instructions.filterMap chronoOf
  laid : Laid conf
    (instructions.zip ((pushes instructions sources).map fun data => data.getD [])) next
  shaped : ∀ piece ∈
    instructions.zip ((pushes instructions sources).map fun data => data.getD []),
    Shaped piece

theorem packet_passed {fillSource : FillSource} {conf sent : Config}
    {instructions : List Instruction} (ready : conf.Ready instructions)
    (short : (bytecode instructions).length < 2 ^ 32)
    (fits : ∀ instruction ∈ instructions, instruction.Fits)
    (passed : conf.packet fillSource = .ok sent) :
    ∃ sources next, Passed fillSource conf instructions sources next sent := by
  have sized : conf.Sized := by
    refine ⟨ready.small, ?_⟩
    intro block member
    rw [ready.block] at member
    cases member
  have executed := executeAll_plan fillSource sized instructions
  rw [packet_executeAll fillSource ready short fits] at passed
  cases done : conf.executeAll fillSource instructions with
  | error halt => rw [done] at passed; cases passed
  | ok next =>
      rw [done] at passed
      cases passed
      obtain ⟨chrono, sources, chosen, grown⟩ := executeAll_sources done
      have planned := plan_sources chosen conf.toBuffer
      rw [grown] at planned
      simp only [Except.map] at planned
      rw [planned] at executed
      obtain ⟨other, again, laid⟩ := executed
      rw [done] at again
      cases again
      refine ⟨sources, next.skip (bytecode instructions).length, rfl, ?_, ?_, ?_,
        laid.skip _, plan_shaped planned⟩
      · dsimp only
        rw [updates_frame]
        exact chosen
      · dsimp only
        rw [updates_frame]
        exact grown
      · dsimp only
        rw [updates_frame]
        exact chrono

/-! Two passes that push the same pieces, at different places of their buffers. -/

def shiftLength (start : Nat) (length : StructLength) : StructLength :=
  { length with offset := start + length.offset }

def shiftHash (start : Nat) (hash : StructHash) : StructHash :=
  { hash with offset := start + hash.offset }

theorem fieldsOf_shift {β : Type} {field : Nat → Instruction → Option β}
    {shift : Nat → β → β}
    (moved : ∀ start offset instruction,
      field (start + offset) instruction = (field offset instruction).map (shift start))
    (start offset : Nat) (pieces : List Piece) :
    fieldsOf field (start + offset) pieces =
      (fieldsOf field offset pieces).map (shift start) := by
  induction pieces generalizing offset with
  | nil => rfl
  | cons piece pieces induction =>
      obtain ⟨instruction, chunk⟩ := piece
      rw [fieldsOf, fieldsOf, Nat.add_assoc, induction, moved, List.map_append]
      cases field offset instruction <;> rfl

theorem lengthField_shift (start offset : Nat) (instruction : Instruction) :
    lengthField (start + offset) instruction =
      (lengthField offset instruction).map (shiftLength start) := by
  cases instruction <;> rfl

theorem hashField_shift (start offset : Nat) (instruction : Instruction) :
    hashField (start + offset) instruction =
      (hashField offset instruction).map (shiftHash start) := by
  cases instruction <;> rfl

-- The blocks found under a number in two lists, at the same place of their packets.
def BlocksAgree (size start base : Nat) (first second : List StructBlock) (id : Nat) :
    Prop :=
  (first.find? fun block => block.id = id) = none ∧
      (second.find? fun block => block.id = id) = none ∨
    ∃ one two offset, (first.find? fun block => block.id = id) = some one ∧
      (second.find? fun block => block.id = id) = some two ∧
      one.offset = start + offset ∧ two.offset = base + offset ∧
      one.size = two.size ∧ offset + one.size ≤ size

theorem lengthStep_none {blocks : List StructBlock} {length : StructLength}
    (missing : (blocks.find? fun block => block.id = length.id) = none)
    (memory : Memory) : lengthStep blocks memory length = memory := by
  rw [lengthStep, missing]

theorem lengthStep_some {blocks : List StructBlock} {length : StructLength}
    {block : StructBlock}
    (found : (blocks.find? fun block => block.id = length.id) = some block)
    (memory : Memory) :
    lengthStep blocks memory length =
      match lengthBytes block.size length.type with
      | none => memory
      | some bytes => write memory length.offset bytes := by
  unfold lengthStep
  cases same : blocks.find? fun block => block.id = length.id with
  | none =>
      rw [same] at found
      cases found
  | some other =>
      rw [same] at found
      cases found
      rfl

theorem hashStep_none {blocks : List StructBlock} {hash : StructHash}
    (missing : (blocks.find? fun block => block.id = hash.id) = none)
    (memory : Memory) : hashStep blocks memory hash = memory := by
  rw [hashStep, missing]

theorem hashStep_some {blocks : List StructBlock} {hash : StructHash}
    {block : StructBlock}
    (found : (blocks.find? fun block => block.id = hash.id) = some block)
    (memory : Memory) :
    hashStep blocks memory hash =
      write memory hash.offset
        (hashBytes (crc32 (read memory block.offset block.size)) hash.type) := by
  rw [hashStep, found]

section Twice

variable {size start base : Nat} {first second : List StructBlock}
  (blocks : ∀ id, BlocksAgree size start base first second id)

include blocks

theorem lengthSteps_agree (lengths : List StructLength) {one two : Memory}
    (agree : Agree size one start two base) :
    Agree size ((lengths.map (shiftLength start)).foldl (lengthStep first) one) start
      ((lengths.map (shiftLength base)).foldl (lengthStep second) two) base := by
  induction lengths generalizing one two with
  | nil => exact agree
  | cons length lengths induction =>
      refine induction ?_
      obtain ⟨none₁, none₂⟩ | ⟨block₁, block₂, -, found₁, found₂, -, -, same, -⟩ :=
        blocks (shiftLength start length).id
      · rw [lengthStep_none none₁, @lengthStep_none _ (shiftLength base length) none₂]
        exact agree
      · rw [lengthStep_some found₁, @lengthStep_some _ (shiftLength base length) _ found₂,
          same]
        simp only [shiftLength]
        cases lengthBytes block₂.size length.type with
        | none => exact agree
        | some bytes => exact agree.write _ _

theorem hashSteps_agree (hashes : List StructHash) {one two : Memory}
    (agree : Agree size one start two base) :
    Agree size ((hashes.map (shiftHash start)).foldl (hashStep first) one) start
      ((hashes.map (shiftHash base)).foldl (hashStep second) two) base := by
  induction hashes generalizing one two with
  | nil => exact agree
  | cons hash hashes induction =>
      refine induction ?_
      obtain ⟨none₁, none₂⟩ |
          ⟨block₁, block₂, offset, found₁, found₂, place₁, place₂, same, inside⟩ :=
        blocks (shiftHash start hash).id
      · rw [hashStep_none none₁, @hashStep_none _ (shiftHash base hash) none₂]
        exact agree
      · rw [hashStep_some found₁, @hashStep_some _ (shiftHash base hash) _ found₂, place₁,
          place₂, ← same, agree.read_eq inside]
        exact agree.write _ _

end Twice

theorem Laid.blocks_agree {one two next₁ next₂ : Config} {pieces : List Piece}
    (laid₁ : Laid one pieces next₁) (laid₂ : Laid two pieces next₂)
    (none₁ : one.block = []) (none₂ : two.block = []) (id : Nat) :
    BlocksAgree (Layout.size (segments pieces)) one.bufFuzzSize two.bufFuzzSize
      next₁.block next₂.block id := by
  have missing₁ : one.findBlock id = none := by rw [findBlock, none₁]; rfl
  have missing₂ : two.findBlock id = none := by rw [findBlock, none₂]; rfl
  by_cases opened : Opened id (segments pieces)
  · obtain ⟨block₁, found₁, place₁, size₁⟩ := laid₁.added missing₁ opened
    obtain ⟨block₂, found₂, place₂, size₂⟩ := laid₂.added missing₂ opened
    exact .inr ⟨block₁, block₂, _, found₁, found₂, place₁, place₂, size₁.trans size₂.symm,
      size₁ ▸ block_le_size id (segments pieces)⟩
  · exact .inl ⟨laid₁.missing missing₁ opened, laid₂.missing missing₂ opened⟩

theorem Laid.updates {conf next : Config} {pieces : List Piece}
    (laid : Laid conf pieces next) (noLength : conf.length = []) (noHash : conf.hash = []) :
    next.updateLength.updateHash.bufFuzz =
      ((fieldsOf hashField 0 pieces).map (shiftHash conf.bufFuzzSize)).foldl
        (hashStep next.block)
        (((fieldsOf lengthField 0 pieces).map (shiftLength conf.bufFuzzSize)).foldl
          (lengthStep next.block)
          (write conf.bufFuzz conf.bufFuzzSize (packetBytes pieces))) := by
  have lengths := fieldsOf_shift lengthField_shift conf.bufFuzzSize 0 pieces
  have hashes := fieldsOf_shift hashField_shift conf.bufFuzzSize 0 pieces
  rw [Nat.add_zero] at lengths hashes
  rw [updateHash_eq, updateLength_eq]
  dsimp only
  rw [laid.lengths, laid.hashes, laid.bytes, noLength, noHash, List.nil_append,
    List.nil_append, lengths, hashes]

theorem Laid.packets_agree {one two next₁ next₂ : Config} {instructions : List Instruction}
    {pieces : List Piece} (laid₁ : Laid one pieces next₁) (laid₂ : Laid two pieces next₂)
    (ready₁ : one.Ready instructions) (ready₂ : two.Ready instructions) :
    Agree (Layout.size (segments pieces)) next₁.updateLength.updateHash.bufFuzz
      one.bufFuzzSize next₂.updateLength.updateHash.bufFuzz two.bufFuzzSize := by
  have blocks := laid₁.blocks_agree laid₂ ready₁.block ready₂.block
  have written := agree_write one.bufFuzz two.bufFuzz one.bufFuzzSize two.bufFuzzSize
    (packetBytes pieces)
  rw [length_packetBytes] at written
  rw [laid₁.updates ready₁.length ready₁.hash, laid₂.updates ready₂.length ready₂.hash]
  exact hashSteps_agree blocks _ (lengthSteps_agree blocks _ written)

/-! What the transmission sends: for each `send` and `recv`, its block. -/

def sentBytes (start sent : Config) : List UInt8 :=
  read sent.bufFuzz start.bufFuzzSize (sent.bufFuzzSize - start.bufFuzzSize)

def transmission (sent : Config) : List (ChronoType × Option (List UInt8)) :=
  sent.chrono.map fun chrono =>
    (chrono.type,
      (sent.block.find? fun block => block.id = chrono.id).map fun block =>
        read sent.bufFuzz block.offset block.size)

theorem Passed.same_packet {fillSource : FillSource} {one two next₁ next₂ sent₁ sent₂ : Config}
    {instructions : List Instruction} {sources : List (Option StructSource)}
    (ready₁ : one.Ready instructions) (ready₂ : two.Ready instructions)
    (quiet₁ : one.chrono = []) (quiet₂ : two.chrono = [])
    (passed₁ : Passed fillSource one instructions sources next₁ sent₁)
    (passed₂ : Passed fillSource two instructions sources next₂ sent₂) :
    sentBytes one sent₁ = sentBytes two sent₂ ∧
      transmission sent₁ = transmission sent₂ := by
  obtain ⟨rfl, -, -, chrono₁, laid₁, -⟩ := passed₁
  obtain ⟨rfl, -, -, chrono₂, laid₂, -⟩ := passed₂
  generalize instructions.zip _ = pieces at laid₁ laid₂
  have agree := laid₁.packets_agree laid₂ ready₁ ready₂
  have blocks := laid₁.blocks_agree laid₂ ready₁.block ready₂.block
  have block₁ : next₁.updateLength.updateHash.block = next₁.block := by
    rw [updates_frame]
  have block₂ : next₂.updateLength.updateHash.block = next₂.block := by
    rw [updates_frame]
  have size₁ : next₁.updateLength.updateHash.bufFuzzSize = next₁.bufFuzzSize := by
    rw [updates_frame]
  have size₂ : next₂.updateLength.updateHash.bufFuzzSize = next₂.bufFuzzSize := by
    rw [updates_frame]
  constructor
  · have whole := @Agree.read_eq _ _ _ _ _ agree 0 _ (Nat.le_of_eq (Nat.zero_add _))
    rw [Nat.add_zero, Nat.add_zero] at whole
    rw [sentBytes, sentBytes, size₁, size₂, laid₁.size, laid₂.size,
      Nat.add_sub_cancel_left, Nat.add_sub_cancel_left]
    exact whole
  · rw [transmission, transmission, chrono₁, chrono₂, quiet₁, quiet₂, block₁, block₂]
    refine List.map_congr_left fun chrono _ => ?_
    congr 1
    obtain ⟨none₁, none₂⟩ |
        ⟨one, two, offset, found₁, found₂, place₁, place₂, same, inside⟩ := blocks chrono.id
    · rw [none₁, none₂]
      rfl
    · rw [found₁, found₂, Option.map_some, Option.map_some, place₁, place₂, ← same,
        agree.read_eq inside]

/-! Two passes of one run: a start, a later start, and what each pass from the one to
the other has pushed. -/

inductive Follows (fillSource : FillSource) (instructions : List Instruction)
    (first : Config) : Config → List (List (List UInt8)) → Prop
  | start : Follows fillSource instructions first first []
  | next {last sent : Config} {passes : List (List (List UInt8))}
      {chunks : List (List UInt8)}
      (follows : Follows fillSource instructions first last passes)
      (planned : plan fillSource last.toSchedule last.toBuffer instructions = .ok chunks)
      (passed : last.packet fillSource = .ok sent)
      (unfinished : sent.fuzzFinished = false)
      (weights : StructFuzz → Nat) (bufFuzz : Memory) :
      Follows fillSource instructions first (sent.nextPass weights bufFuzz)
        (passes ++ [chunks])

-- The fuzz list is made in the first pass; its counters and weights may change.
structure SameStart (first second : Config) : Prop where
  adc : second.adc = first.adc
  block : second.block = first.block
  length : second.length = first.length
  hash : second.hash = first.hash
  chrono : second.chrono = first.chrono
  buffer : second.toBuffer = first.toBuffer
  fuzz : first.fuzz = [] ∨ second.entries = first.entries

def outcome (fillSource : FillSource) (start : Config) :
    Except Halt (List UInt8 × List (ChronoType × Option (List UInt8))) :=
  (start.packet fillSource).map fun sent => (sentBytes start sent, transmission sent)

-- The same sources are put in place, so the same is sent, or the pass stops alike.
def Independent (fillSource : FillSource) (instructions : List Instruction)
    (first second : Config) : Prop :=
  ∀ sources after later,
    first.toSchedule.sources fillSource instructions = .ok (sources, after) →
    second.toSchedule.sources fillSource instructions = .ok (sources, later) →
    first.outcome fillSource = second.outcome fillSource

section Runs

variable {fillSource : FillSource} {instructions : List Instruction}

theorem passStart_fresh {buffer : List UInt8} {conf : Config}
    (started : PassStart fillSource buffer conf) :
    conf.chrono = [] ∧ conf.allocated = false := by
  cases started with
  | first dbgMode bruteforce bufFuzz => exact ⟨rfl, rfl⟩
  | next started passed unfinished weights bufFuzz => exact ⟨rfl, rfl⟩

theorem entries_nextPass (conf : Config) (weights : StructFuzz → Nat) (bufFuzz : Memory) :
    (conf.nextPass weights bufFuzz).entries = conf.entries := by
  rw [Schedule.entries, nextPass, List.map_map]
  rfl

theorem ids_nextPass (conf : Config) (weights : StructFuzz → Nat) (bufFuzz : Memory) :
    (conf.nextPass weights bufFuzz).ids = conf.ids := by
  rw [Schedule.ids_eq, entries_nextPass, Schedule.ids_eq]

theorem Follows.passStart {first second : Config} {passes : List (List (List UInt8))}
    (started : PassStart fillSource (bytecode instructions) first)
    (follows : Follows fillSource instructions first second passes) :
    PassStart fillSource (bytecode instructions) second := by
  induction follows with
  | start => exact started
  | next follows planned passed unfinished weights bufFuzz started =>
      exact .next started passed unfinished weights bufFuzz

variable (short : (bytecode instructions).length < 2 ^ 32)
  (fits : ∀ instruction ∈ instructions, instruction.Fits)

include short fits

theorem passStart_entries {conf : Config}
    (started : PassStart fillSource (bytecode instructions) conf) :
    conf.ids.Nodup ∧
      (conf.fuzz = [] ∨
        ∀ id ∈ instructions.filterMap Instruction.fuzzId?, id ∈ conf.ids) := by
  induction started with
  | first dbgMode bruteforce bufFuzz => exact ⟨List.nodup_nil, .inl rfl⟩
  | @next conf sent started passed unfinished weights bufFuzz induction =>
      obtain ⟨sources, next, done⟩ :=
        packet_passed (passStart_ready short fits started) short fits passed
      obtain ⟨present, distinct, -, -⟩ := Schedule.sources_entries induction.1 done.chosen
      rw [ids_nextPass]
      exact ⟨distinct, .inr present⟩

theorem Follows.entries {first second : Config} {passes : List (List (List UInt8))}
    (started : PassStart fillSource (bytecode instructions) first)
    (follows : Follows fillSource instructions first second passes) :
    first.fuzz = [] ∨ second.entries = first.entries := by
  cases (passStart_entries short fits started).2 with
  | inl empty => exact .inl empty
  | inr present =>
      right
      induction follows with
      | start => rfl
      | next follows planned passed unfinished weights bufFuzz same =>
          have middle := follows.passStart started
          obtain ⟨sources, next, done⟩ :=
            packet_passed (passStart_ready short fits middle) short fits passed
          obtain ⟨-, -, -, kept⟩ :=
            Schedule.sources_entries (passStart_entries short fits middle).1 done.chosen
          rw [entries_nextPass, kept ?_, same]
          intro id member
          rw [Schedule.ids_eq, same, ← Schedule.ids_eq]
          exact present id member

theorem Follows.bufFuzzSize {first second : Config} {passes : List (List (List UInt8))}
    (started : PassStart fillSource (bytecode instructions) first)
    (follows : Follows fillSource instructions first second passes) :
    second.bufFuzzSize = first.bufFuzzSize + passes.flatten.flatten.length := by
  induction follows with
  | start => rfl
  | @next last sent passes chunks follows planned passed unfinished weights bufFuzz same =>
      have ready := passStart_ready short fits (follows.passStart started)
      have made := packet_plan fillSource ready short fits
      rw [planned] at made
      obtain ⟨next, done, laid, -⟩ := made
      rw [passed] at done
      cases done
      have pushed : Layout.size (segments (instructions.zip chunks)) =
          chunks.flatten.length := by
        rw [← length_packetBytes, packetBytes, List.flatMap_def,
          List.map_snd_zip (Nat.le_of_eq (length_plan planned))]
      rw [updates_frame, nextPass]
      dsimp only
      rw [laid.size, same, pushed, List.flatten_append, List.flatten_append,
        List.length_append, Nat.add_assoc]
      simp

theorem outcome_eq {first second : Config}
    (started : PassStart fillSource (bytecode instructions) first)
    (later : PassStart fillSource (bytecode instructions) second)
    (same : second.toBuffer = first.toBuffer) :
    Independent fillSource instructions first second := by
  intro sources after final chosen again
  have ready₁ := passStart_ready short fits started
  have ready₂ := passStart_ready short fits later
  have planned₁ := packet_plan fillSource ready₁ short fits
  have planned₂ := packet_plan fillSource ready₂ short fits
  rw [plan_sources chosen] at planned₁
  rw [plan_sources again, same] at planned₂
  rw [outcome, outcome]
  cases grown : first.toBuffer.takeAll (pushes instructions sources) with
  | error halt =>
      rw [grown] at planned₁ planned₂
      simp only [Except.map] at planned₁ planned₂
      rw [planned₁, planned₂]
      rfl
  | ok buffer =>
      rw [grown] at planned₁ planned₂
      simp only [Except.map] at planned₁ planned₂
      obtain ⟨next₁, done₁, -⟩ := planned₁
      obtain ⟨next₂, done₂, -⟩ := planned₂
      obtain ⟨sources₁, next₁, passed₁⟩ := packet_passed ready₁ short fits done₁
      obtain ⟨sources₂, next₂, passed₂⟩ := packet_passed ready₂ short fits done₂
      have same₁ := passed₁.chosen
      have same₂ := passed₂.chosen
      rw [chosen] at same₁
      rw [again] at same₂
      cases same₁
      cases same₂
      obtain ⟨packet, sent⟩ := Passed.same_packet ready₁ ready₂ (passStart_fresh started).1
        (passStart_fresh later).1 passed₁ passed₂
      rw [done₁, done₂]
      simp only [Except.map]
      rw [packet, sent]

end Runs

end Config

theorem buffer_eq {first second : Buffer} (allocated : second.allocated = first.allocated)
    (bufFuzzSize : second.bufFuzzSize = first.bufFuzzSize) : second = first := by
  cases first
  cases second
  cases allocated
  cases bufFuzzSize
  rfl

theorem adc_eq {first second : StructAdc} (buffer : second.buffer = first.buffer)
    (start : second.start = first.start) (offset : second.offset = first.offset)
    (size : second.size = first.size) : second = first := by
  cases first
  cases second
  cases buffer
  cases start
  cases offset
  cases size
  rfl

open Config

theorem passes_independent_iff (fillSource : FillSource) (script : List Directive)
    (instructions : List Instruction) (first second : Config)
    (passes : List (List (List UInt8))) (accepted : adc script = some instructions)
    (short : (bytecode instructions).length < 2 ^ 32)
    (started : PassStart fillSource (bytecode instructions) first)
    (follows : Follows fillSource instructions first second passes) :
    SameStart first second ∧ Independent fillSource instructions first second ↔
      ∀ chunks ∈ passes, ∀ chunk ∈ chunks, chunk = [] := by
  obtain ⟨translation⟩ := adc_translation accepted short
  have fits : ∀ instruction ∈ instructions, instruction.Fits := by
    rw [translation.translated]
    exact translate_fits translation.bounded (Nat.two_pow_pos 32) script
  have later := follows.passStart started
  have ready₁ := passStart_ready short fits started
  have ready₂ := passStart_ready short fits later
  have size := follows.bufFuzzSize short fits started
  have empty : passes.flatten.flatten.length = 0 ↔
      ∀ chunks ∈ passes, ∀ chunk ∈ chunks, chunk = [] := by
    rw [List.length_eq_zero_iff, List.flatten_eq_nil_iff]
    constructor
    · intro none chunks inPasses chunk inChunks
      exact none chunk (List.mem_flatten.mpr ⟨chunks, inPasses, inChunks⟩)
    · intro none chunk member
      obtain ⟨chunks, inPasses, inChunks⟩ := List.mem_flatten.mp member
      exact none chunks inPasses chunk inChunks
  rw [← empty]
  constructor
  · intro same
    have equal := congrArg Buffer.bufFuzzSize same.1.buffer
    rw [size] at equal
    omega
  · intro none
    have buffer : second.toBuffer = first.toBuffer := by
      have notAllocated₁ := (passStart_fresh started).2
      have notAllocated₂ := (passStart_fresh later).2
      rw [none, Nat.add_zero] at size
      exact buffer_eq (notAllocated₂.trans notAllocated₁.symm) size
    refine ⟨⟨?_, ?_, ?_, ?_, ?_, buffer, follows.entries short fits started⟩,
      outcome_eq short fits started later buffer⟩
    · refine adc_eq ?_ ?_ ?_ ?_
      · rw [ready₁.buffer, ready₂.buffer]
      · rw [ready₁.start, ready₂.start]
      · rw [ready₁.offset, ready₂.offset]
      · rw [ready₁.size, ready₂.size, ready₁.buffer, ready₂.buffer]
    · rw [ready₁.block, ready₂.block]
    · rw [ready₁.length, ready₂.length]
    · rw [ready₁.hash, ready₂.hash]
    · rw [(passStart_fresh started).1, (passStart_fresh later).1]

-- one field, with one source
def oneField : List Directive := [.fuzzString ⟨[65], a_size, a_noNul⟩ []]

def oneInstruction : List Instruction := [.fuzzString 0 defaultFuzzStringFile [65]]

def oneSource : FillSource := fun _ => some [⟨[66], b_size⟩]

def oneStart : Config :=
  readAdcFile false false (fun _ => 0) (bytecode oneInstruction)

theorem oneField_follows :
    ∃ second, Follows oneSource oneInstruction oneStart second [[[65]]] := by
  have started : PassStart oneSource (bytecode oneInstruction) oneStart :=
    .first false false _
  have short : (bytecode oneInstruction).length < 2 ^ 32 := by decide
  have fits : ∀ instruction ∈ oneInstruction, instruction.Fits := by
    intro instruction member
    cases List.mem_singleton.mp member
    exact ⟨by decide, by decide, by decide⟩
  have ready := passStart_ready short fits started
  have planned : plan oneSource oneStart.toSchedule oneStart.toBuffer oneInstruction =
      .ok [[65]] := rfl
  have made := packet_plan oneSource ready short fits
  rw [planned] at made
  obtain ⟨next, passed, -⟩ := made
  obtain ⟨sources, _, done⟩ := packet_passed ready short fits passed
  have chosen : oneStart.toSchedule.sources oneSource oneInstruction =
      .ok ([none], { oneStart.toSchedule with
        fuzz := [⟨0, 1, 0, 0, [⟨[66], by decide⟩], rfl⟩] }) := rfl
  have schedule := done.chosen.symm.trans chosen
  generalize next.updateLength.updateHash = sent at passed schedule
  obtain ⟨-, after⟩ := Prod.mk.inj (Except.ok.inj schedule)
  have unfinished : sent.fuzzFinished = false := by
    rw [fuzzFinished, after]
    rfl
  exact ⟨_, .next .start planned passed unfinished (fun _ => 0) (fun _ => 0)⟩

theorem passes_independent_one_field :
    ∃ second, Follows oneSource oneInstruction oneStart second [[[65]]] ∧
      ¬ (SameStart oneStart second ∧
        Independent oneSource oneInstruction oneStart second) := by
  obtain ⟨second, follows⟩ := oneField_follows
  refine ⟨second, follows, fun same => ?_⟩
  have silent := (passes_independent_iff oneSource oneField oneInstruction oneStart second
    [[[65]]] (by decide) (by decide) (.first false false _) follows).mp same
  exact absurd (silent [[65]] (by simp) [65] (by simp)) (by decide)

-- The second pass does not start with an empty packet.
theorem passes_dependent_one_field :
    ¬ ∀ (fillSource : FillSource) (script : List Directive)
        (instructions : List Instruction) (first second : Config)
        (passes : List (List (List UInt8))),
        adc script = some instructions →
        PassStart fillSource (bytecode instructions) first →
        Follows fillSource instructions first second passes →
        SameStart first second ∧ Independent fillSource instructions first second := by
  intro claimed
  obtain ⟨second, follows⟩ := oneField_follows
  have started : PassStart oneSource (bytecode oneInstruction) oneStart :=
    .first false false _
  have fits : ∀ instruction ∈ oneInstruction, instruction.Fits := by
    intro instruction member
    cases List.mem_singleton.mp member
    exact ⟨by decide, by decide, by decide⟩
  have same := claimed oneSource oneField oneInstruction oneStart second [[[65]]]
    (by decide) started follows
  have size := follows.bufFuzzSize (by decide) fits started
  rw [congrArg Buffer.bufFuzzSize same.1.buffer] at size
  exact absurd size (by decide)

end Segvault.Autodafe
