import Segvault.Autodafe.Fetch
import Segvault.Autodafe.Translation

namespace Segvault.Autodafe

open Bytes Layout

/-! What a pass will push, from what is known before it starts. -/

def Schedule.pushed (fillSource : FillSource) (self : Schedule) :
    Instruction → Except Halt (Option (List UInt8) × Schedule)
  | .hex values => .ok (some values, self)
  | .string text => .ok (some text, self)
  | .fuzzHex id filename values => do
      let (source, schedule) ← self.choose fillSource id filename 1
      return (some ((source.map StructSource.content).getD values), schedule)
  | .fuzzString id filename text => do
      let (source, schedule) ← self.choose fillSource id filename 0
      return (some ((source.map StructSource.content).getD text), schedule)
  | .blockSize .s16 _ => .ok (none, self)
  | .blockSize .s10 _ => .ok (none, self)
  | .blockSize type _ => .ok (some (Config.dummyLength type), self)
  | .blockCrc32 _ _ => .ok (some [0, 0, 0, 0], self)
  | _ => .ok (none, self)

def Buffer.take (self : Buffer) : Option (List UInt8) → Except Halt Buffer
  | none => .ok self
  | some data => self.realloc data.length

def plan (fillSource : FillSource) :
    Schedule → Buffer → List Instruction → Except Halt (List (List UInt8))
  | _, _, [] => .ok []
  | schedule, buffer, instruction :: instructions => do
      let (data, schedule) ← schedule.pushed fillSource instruction
      let buffer ← buffer.take data
      let chunks ← plan fillSource schedule buffer instructions
      return data.getD [] :: chunks

theorem Buffer.realloc_ok {buffer grown : Buffer} {size : Nat}
    (done : buffer.realloc size = .ok grown) :
    grown.bufFuzzSize = buffer.bufFuzzSize + size ∧
      grown.bufFuzzSize < 2 ^ 32 := by
  unfold Buffer.realloc at done
  simp only at done
  split at done
  · cases done
  · split at done
    · cases done
    · next fits =>
        cases done
        simp only
        omega

theorem length_plan {fillSource : FillSource} {schedule : Schedule}
    {buffer : Buffer} {instructions : List Instruction}
    {chunks : List (List UInt8)}
    (planned : plan fillSource schedule buffer instructions = .ok chunks) :
    chunks.length = instructions.length := by
  induction instructions generalizing schedule buffer chunks with
  | nil => cases planned; rfl
  | cons instruction instructions induction =>
      simp only [plan, bind, Except.bind] at planned
      split at planned
      · cases planned
      · split at planned
        · cases planned
        · split at planned
          · cases planned
          · next rest found =>
              cases planned
              rw [List.length_cons, List.length_cons, induction found]

namespace Config

/-! One instruction: what it records, and what it pushes. -/

def record (conf : Config) : Instruction → Config
  | .blockBegin id =>
      { conf with
        block := conf.block ++
          [{ id, size := 0, offset := conf.bufFuzzSize, state := .opened }] }
  | .blockEnd id => { conf with block := closeBlock id conf.block }
  | .blockSize type id =>
      { conf with
        length := conf.length ++ [{ id, offset := conf.bufFuzzSize, type }] }
  | .blockCrc32 type id =>
      { conf with
        hash := conf.hash ++ [{ id, offset := conf.bufFuzzSize, type }] }
  | .send id => { conf with chrono := conf.chrono ++ [{ id, type := .send }] }
  | .recv id => { conf with chrono := conf.chrono ++ [{ id, type := .recv }] }
  | _ => conf

def put (conf : Config) (buffer : Buffer) : Option (List UInt8) → Config
  | none => conf
  | some data =>
      updateBlockSize
        { conf with
          bufFuzz := write conf.bufFuzz conf.bufFuzzSize data
          toBuffer := buffer }
        data.length

def advance (conf : Config) (schedule : Schedule) (buffer : Buffer)
    (instruction : Instruction) (data : Option (List UInt8)) : Config :=
  let recorded : Config :=
    { conf.record instruction with toSchedule := schedule }
  recorded.put buffer data

theorem fuzzCore_bind (fillSource : FillSource) (conf : Config) (id : Nat)
    (filename : List UInt8) (weight : Nat) (data : List UInt8) :
    (conf.fuzzCore fillSource id filename weight >>=
        fun (fuzzed, conf) =>
          if fuzzed then return conf else conf.pushData data) =
      (do
        let (source, schedule) ←
          conf.toSchedule.choose fillSource id filename weight
        let data := (source.map StructSource.content).getD data
        let buffer ← conf.toBuffer.realloc data.length
        let recorded : Config := { conf with toSchedule := schedule }
        return recorded.put buffer (some data)) := by
  unfold fuzzCore
  cases conf.toSchedule.choose fillSource id filename weight with
  | error halt => rfl
  | ok choice =>
      obtain ⟨source, schedule⟩ := choice
      cases source with
      | none => rfl
      | some source =>
          simp only [bind, Except.bind, pushData, Option.map_some,
            Option.getD_some]
          cases conf.toBuffer.realloc source.content.length <;> rfl

theorem execute_eq (fillSource : FillSource) (conf : Config)
    (instruction : Instruction) :
    conf.execute fillSource instruction =
      (do
        let (data, schedule) ←
          conf.toSchedule.pushed fillSource instruction
        let buffer ← conf.toBuffer.take data
        return conf.advance schedule buffer instruction data) := by
  cases instruction with
  | fuzzHex id filename values =>
      simp only [execute, fuzzCore_bind, Schedule.pushed]
      cases conf.toSchedule.choose fillSource id filename 1 <;> rfl
  | fuzzString id filename text =>
      simp only [execute, fuzzCore_bind, Schedule.pushed]
      cases conf.toSchedule.choose fillSource id filename 0 <;> rfl
  | blockSize type id => cases type <;> rfl
  | _ => rfl

def findBlock (conf : Config) (id : Nat) : Option StructBlock :=
  conf.block.find? fun block => block.id = id

theorem find_closeBlock (id other : Nat) (blocks : List StructBlock) :
    (closeBlock other blocks).find? (fun block => block.id = id) =
      (blocks.find? fun block => block.id = id).map fun block =>
        if other = id then { block with state := .closed } else block := by
  induction blocks with
  | nil => rfl
  | cons block blocks induction =>
      unfold closeBlock
      split
      · next same =>
          simp only [List.find?_cons]
          by_cases found : block.id = id
          · simp [found, ← same]
          · have different : other ≠ id := by omega
            simp [found, different]
      · simp only [List.find?_cons, induction]
        by_cases found : block.id = id
        · have different : other ≠ id := by omega
          simp [found, different]
        · simp [found]

theorem findBlock_record (conf : Config) (instruction : Instruction) (id : Nat) :
    (conf.record instruction).findBlock id =
      ((conf.findBlock id).map fun block =>
        if instruction.mark = .closes id then
          { block with state := .closed }
        else block).or
      (if instruction.mark = .opens id then
        some { id, size := 0, offset := conf.bufFuzzSize, state := .opened }
      else none) := by
  cases instruction with
  | blockBegin other =>
      simp only [findBlock, record, List.find?_append, Instruction.mark,
        reduceCtorEq, if_false, Option.map_id', Mark.opens.injEq,
        List.find?_cons, List.find?_nil]
      by_cases same : other = id <;> simp [same]
  | blockEnd other =>
      simp [findBlock, record, find_closeBlock, Instruction.mark]
  | _ => simp [findBlock, record, Instruction.mark]

@[simp] theorem grow_id (size : Nat) (block : StructBlock) :
    (block.grow size).id = block.id := by
  unfold StructBlock.grow
  split <;> rfl

@[simp] theorem grow_offset (size : Nat) (block : StructBlock) :
    (block.grow size).offset = block.offset := by
  unfold StructBlock.grow
  split <;> rfl

@[simp] theorem grow_state (size : Nat) (block : StructBlock) :
    (block.grow size).state = block.state := by
  unfold StructBlock.grow
  split <;> rfl

theorem grow_size {size : Nat} {block : StructBlock}
    (bound : block.size + size < 2 ^ 32) :
    (block.grow size).size =
      block.size + if block.state = .opened then size else 0 := by
  unfold StructBlock.grow
  split
  · next opened => simp only [if_pos opened, Nat.mod_eq_of_lt bound]
  · next closed => rw [if_neg (by rw [closed]; decide), Nat.add_zero]

theorem find_grow (size id : Nat) (blocks : List StructBlock) :
    (blocks.map (StructBlock.grow size)).find? (fun block => block.id = id) =
      (blocks.find? fun block => block.id = id).map (StructBlock.grow size) := by
  induction blocks with
  | nil => rfl
  | cons block blocks induction =>
      simp only [List.map_cons, List.find?_cons, grow_id, induction]
      split <;> rfl

end Config

/-! A packet as a list of pieces: each instruction with the bytes it pushed. -/

abbrev Piece := Instruction × List UInt8

def segments (pieces : List Piece) : List (Segment Nat) :=
  pieces.map fun piece => (piece.1.mark, piece.2)

@[simp] theorem segments_cons (instruction : Instruction) (chunk : List UInt8)
    (pieces : List Piece) :
    segments ((instruction, chunk) :: pieces) =
      (instruction.mark, chunk) :: segments pieces := rfl

@[simp] theorem segments_append (first second : List Piece) :
    segments (first ++ second) = segments first ++ segments second :=
  List.map_append

def packetBytes (pieces : List Piece) : List UInt8 :=
  pieces.flatMap Prod.snd

/-! The fields of a packet that are filled in after it was built. -/

def lengthField (offset : Nat) : Instruction → Option StructLength
  | .blockSize type id => some { id, offset, type }
  | _ => none

def hashField (offset : Nat) : Instruction → Option StructHash
  | .blockCrc32 type id => some { id, offset, type }
  | _ => none

def fieldsOf {β : Type} (field : Nat → Instruction → Option β) (start : Nat) :
    List Piece → List β
  | [] => []
  | (instruction, chunk) :: pieces =>
      (field start instruction).toList ++
        fieldsOf field (start + chunk.length) pieces

theorem fieldsOf_append {β : Type} (field : Nat → Instruction → Option β)
    (start : Nat) (first second : List Piece) :
    fieldsOf field start (first ++ second) =
      fieldsOf field start first ++
        fieldsOf field (start + size (segments first)) second := by
  induction first generalizing start with
  | nil => rfl
  | cons piece first induction =>
      obtain ⟨instruction, chunk⟩ := piece
      simp only [List.cons_append, fieldsOf, induction, segments_cons, size,
        List.append_assoc, Nat.add_assoc]

theorem fieldsOf_range {β : Type} {field : Nat → Instruction → Option β}
    {start : Nat} {pieces : List Piece} {found : β}
    (member : found ∈ fieldsOf field start pieces) :
    ∃ instruction chunk offset,
      (instruction, chunk) ∈ pieces ∧ field offset instruction = some found ∧
        start ≤ offset ∧
        offset + chunk.length ≤ start + size (segments pieces) := by
  induction pieces generalizing start with
  | nil => cases member
  | cons piece pieces induction =>
      obtain ⟨instruction, chunk⟩ := piece
      rw [segments_cons, size]
      rcases List.mem_append.mp member with here | later
      · exact ⟨instruction, chunk, start, List.mem_cons_self,
          Option.mem_toList.mp here, Nat.le_refl _, by omega⟩
      · obtain ⟨other, bytes, offset, inside, isField, lower, upper⟩ :=
          induction later
        exact ⟨other, bytes, offset, List.mem_cons_of_mem _ inside, isField,
          by omega, by omega⟩

theorem length_packetBytes (pieces : List Piece) :
    (packetBytes pieces).length = size (segments pieces) := by
  induction pieces with
  | nil => rfl
  | cons piece pieces induction =>
      obtain ⟨instruction, chunk⟩ := piece
      simp only [packetBytes, List.flatMap_cons, List.length_append,
        segments_cons, size] at induction ⊢
      rw [induction]

namespace Config

/-! What the configuration holds after the pieces were pushed. -/

structure Sized (conf : Config) : Prop where
  small : conf.bufFuzzSize < 2 ^ 32
  blocks : ∀ block ∈ conf.block, block.size ≤ conf.bufFuzzSize

structure Laid (conf : Config) (pieces : List Piece) (next : Config) : Prop where
  sized : next.Sized
  size : next.bufFuzzSize = conf.bufFuzzSize + size (segments pieces)
  bytes : next.bufFuzz =
    write conf.bufFuzz conf.bufFuzzSize (packetBytes pieces)
  lengths : next.length =
    conf.length ++ fieldsOf lengthField conf.bufFuzzSize pieces
  hashes : next.hash =
    conf.hash ++ fieldsOf hashField conf.bufFuzzSize pieces
  kept : ∀ {id : Nat} {block : StructBlock}, conf.findBlock id = some block →
    ∃ final, next.findBlock id = some final ∧ final.offset = block.offset ∧
      final.size = block.size +
        (if block.state = .opened then untilClose id (segments pieces) else 0)
  added : ∀ {id : Nat}, conf.findBlock id = none → Opened id (segments pieces) →
    ∃ final, next.findBlock id = some final ∧
      final.offset = conf.bufFuzzSize + blockOffset id (segments pieces) ∧
      final.size = blockLength id (segments pieces)
  missing : ∀ {id : Nat}, conf.findBlock id = none →
    ¬ Opened id (segments pieces) → next.findBlock id = none

/-! One piece. -/

structure Pushed (conf : Config) (instruction : Instruction)
    (chunk : List UInt8) (next : Config) : Prop where
  sized : next.Sized
  size : next.bufFuzzSize = conf.bufFuzzSize + chunk.length
  bytes : next.bufFuzz = write conf.bufFuzz conf.bufFuzzSize chunk
  length : next.length = (conf.record instruction).length
  hash : next.hash = (conf.record instruction).hash
  block : ∀ {id : Nat} {block : StructBlock},
    (conf.record instruction).findBlock id = some block →
    ∃ final, next.findBlock id = some final ∧ final.offset = block.offset ∧
      final.state = block.state ∧
      final.size = block.size +
        if block.state = .opened then chunk.length else 0
  missing : ∀ {id : Nat}, (conf.record instruction).findBlock id = none →
    next.findBlock id = none

theorem Sized.record {conf : Config} (sized : conf.Sized)
    (instruction : Instruction) : (conf.record instruction).Sized := by
  refine ⟨?_, ?_⟩
  · cases instruction <;> exact sized.small
  · cases instruction with
    | blockBegin id =>
        intro block member
        rcases List.mem_append.mp member with old | new
        · exact sized.blocks block old
        · rw [List.mem_singleton.mp new]
          exact Nat.zero_le _
    | blockEnd id =>
        intro block member
        have closing : ∀ blocks : List StructBlock,
            (∀ block ∈ blocks, block.size ≤ conf.bufFuzzSize) →
            ∀ block ∈ closeBlock id blocks, block.size ≤ conf.bufFuzzSize := by
          intro blocks
          induction blocks with
          | nil => exact fun bounds => bounds
          | cons head blocks induction =>
              intro bounds block member
              unfold closeBlock at member
              split at member
              · rcases List.mem_cons.mp member with rfl | member
                · exact bounds head List.mem_cons_self
                · exact bounds block (List.mem_cons_of_mem _ member)
              · rcases List.mem_cons.mp member with rfl | member
                · exact bounds block List.mem_cons_self
                · exact induction
                    (fun other inside =>
                      bounds other (List.mem_cons_of_mem _ inside))
                    block member
        exact closing conf.block sized.blocks block member
    | _ => exact sized.blocks

theorem record_frame (conf : Config) (instruction : Instruction) :
    (conf.record instruction).bufFuzzSize = conf.bufFuzzSize ∧
      (conf.record instruction).bufFuzz = conf.bufFuzz := by
  cases instruction <;> exact ⟨rfl, rfl⟩

theorem advance_pushed {conf : Config} (schedule : Schedule) {buffer : Buffer}
    (instruction : Instruction) {data : Option (List UInt8)}
    (sized : conf.Sized) (taken : conf.toBuffer.take data = .ok buffer) :
    Pushed conf instruction (data.getD [])
      (conf.advance schedule buffer instruction data) := by
  obtain ⟨sameSize, sameBytes⟩ := record_frame conf instruction
  have recorded := sized.record instruction
  cases data with
  | none =>
      refine ⟨⟨recorded.small, recorded.blocks⟩, sameSize, ?_, rfl, rfl, ?_, ?_⟩
      · rw [Option.getD_none, write_nil]
        exact sameBytes
      · intro id block found
        exact ⟨block, found, rfl, rfl, by simp⟩
      · intro id absent
        exact absent
  | some data =>
      obtain ⟨grown, small⟩ := Buffer.realloc_ok taken
      have fits : ∀ block ∈ (conf.record instruction).block,
          block.size + data.length ≤ buffer.bufFuzzSize := by
        intro block member
        have bound := recorded.blocks block member
        rw [sameSize] at bound
        omega
      refine ⟨⟨small, ?_⟩, grown, ?_, rfl, rfl, ?_, ?_⟩
      · intro block member
        obtain ⟨before, inside, rfl⟩ := List.mem_map.mp member
        have bound := fits before inside
        rw [grow_size (by omega)]
        change _ ≤ buffer.bufFuzzSize
        split <;> omega
      · simp only [advance, put, updateBlockSize, sameSize, sameBytes,
          Option.getD_some]
      · intro id block found
        have bound := fits block (List.mem_of_find?_eq_some found)
        refine ⟨block.grow data.length, ?_, grow_offset .., grow_state ..,
          grow_size (by omega)⟩
        simp only [findBlock, advance, put, updateBlockSize, find_grow]
        exact congrArg (Option.map (StructBlock.grow data.length)) found
      · intro id absent
        simp only [findBlock, advance, put, updateBlockSize, find_grow]
        exact congrArg (Option.map (StructBlock.grow data.length)) absent

/-! A run of pieces, from its first one. -/

theorem Laid.nil {conf : Config} (sized : conf.Sized) : Laid conf [] conf where
  sized := sized
  size := rfl
  bytes := (write_nil _ _).symm
  lengths := (List.append_nil _).symm
  hashes := (List.append_nil _).symm
  kept found := ⟨_, found, rfl, by simp [segments, untilClose]⟩
  added _ opened := by
    obtain ⟨chunk, member⟩ := opened
    cases member
  missing absent _ := absent

theorem Laid.cons {conf mid next : Config} {instruction : Instruction}
    {chunk : List UInt8} {pieces : List Piece}
    (pushed : Pushed conf instruction chunk mid)
    (opensEmpty : ∀ id, instruction.mark = .opens id → chunk = [])
    (laid : Laid mid pieces next) :
    Laid conf ((instruction, chunk) :: pieces) next where
  sized := laid.sized
  size := by
    rw [laid.size, pushed.size, segments_cons, Layout.size, Nat.add_assoc]
  bytes := by
    rw [laid.bytes, pushed.bytes, pushed.size, write_write]
    rfl
  lengths := by
    rw [laid.lengths, pushed.length, pushed.size]
    cases instruction <;> simp [record, fieldsOf, lengthField]
  hashes := by
    rw [laid.hashes, pushed.hash, pushed.size]
    cases instruction <;> simp [record, fieldsOf, hashField]
  kept := by
    intro id block found
    have recorded := findBlock_record conf instruction id
    rw [found, Option.map_some, Option.some_or] at recorded
    obtain ⟨middle, atMiddle, offset, state, grown⟩ := pushed.block recorded
    obtain ⟨final, atFinal, sameOffset, finalSize⟩ := laid.kept atMiddle
    refine ⟨final, atFinal, ?_, ?_⟩
    · rw [sameOffset, offset]
      split <;> rfl
    · rw [finalSize, grown, state]
      simp only [segments_cons, untilClose]
      split
      · simp
      · split <;> omega
  added := by
    intro id absent opened
    have recorded := findBlock_record conf instruction id
    rw [absent, Option.map_none, Option.none_or] at recorded
    simp only [segments_cons, opened_cons, blockOffset, blockLength] at opened ⊢
    by_cases opens : instruction.mark = .opens id
    · have empty := opensEmpty id opens
      rw [if_pos opens] at recorded
      obtain ⟨middle, atMiddle, offset, state, grown⟩ := pushed.block recorded
      obtain ⟨final, atFinal, sameOffset, finalSize⟩ := laid.kept atMiddle
      refine ⟨final, atFinal, ?_, ?_⟩
      · rw [sameOffset, offset, if_pos opens, empty]
        simp
      · rw [finalSize, grown, state, if_pos opens, empty]
        simp
    · rw [if_neg opens] at recorded
      obtain ⟨final, atFinal, offset, finalSize⟩ :=
        laid.added (pushed.missing recorded) (opened.resolve_left opens)
      refine ⟨final, atFinal, ?_, ?_⟩
      · rw [offset, pushed.size, if_neg opens, Nat.add_assoc]
      · rw [finalSize, if_neg opens]
  missing := by
    intro id absent closed
    have recorded := findBlock_record conf instruction id
    simp only [segments_cons, opened_cons, not_or] at closed
    rw [absent, if_neg closed.1, Option.map_none, Option.none_or] at recorded
    exact laid.missing (pushed.missing recorded) closed.2

theorem pushed_opens {fillSource : FillSource} {schedule final : Schedule}
    {instruction : Instruction} {data : Option (List UInt8)}
    (chosen : schedule.pushed fillSource instruction = .ok (data, final))
    {id : Nat} (opens : instruction.mark = .opens id) : data.getD [] = [] := by
  cases instruction with
  | blockBegin other => cases chosen; rfl
  | _ => cases opens

/-! Executing instructions lays out the planned pieces, and halts as planned. -/

theorem executeAll_plan (fillSource : FillSource) {conf : Config}
    (sized : conf.Sized) (instructions : List Instruction) :
    match plan fillSource conf.toSchedule conf.toBuffer instructions with
    | .error halt => conf.executeAll fillSource instructions = .error halt
    | .ok chunks =>
        ∃ next, conf.executeAll fillSource instructions = .ok next ∧
          Laid conf (instructions.zip chunks) next := by
  induction instructions generalizing conf with
  | nil => exact ⟨conf, rfl, Laid.nil sized⟩
  | cons instruction instructions induction =>
      simp only [plan, executeAll, execute_eq, bind, Except.bind, pure,
        Except.pure]
      cases chosen : conf.toSchedule.pushed fillSource instruction with
      | error halt => rfl
      | ok choice =>
          obtain ⟨data, schedule⟩ := choice
          simp only
          cases taken : conf.toBuffer.take data with
          | error halt => rfl
          | ok buffer =>
              have pushed := advance_pushed schedule instruction sized
                taken
              have rest := induction pushed.sized
              have scheduled : (conf.advance schedule buffer instruction
                  data).toSchedule = schedule := by
                cases data <;> rfl
              have buffered : (conf.advance schedule buffer instruction
                  data).toBuffer = buffer := by
                cases data with
                | none =>
                    cases taken
                    cases instruction <;> rfl
                | some data => rfl
              rw [scheduled, buffered] at rest
              simp only
              cases planned : plan fillSource schedule buffer instructions with
              | error halt =>
                  rw [planned] at rest
                  exact rest
              | ok chunks =>
                  rw [planned] at rest
                  obtain ⟨next, executed, laid⟩ := rest
                  exact ⟨next, executed,
                    Laid.cons pushed (fun id => pushed_opens chosen) laid⟩

end Config

end Segvault.Autodafe
