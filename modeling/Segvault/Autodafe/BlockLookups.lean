import Segvault.Autodafe.BlockFlags
import Segvault.Autodafe.Chrono
import Segvault.Autodafe.Independence
import Segvault.Autodafe.ScriptLayout

namespace Segvault.Autodafe

open Bytes Layout Config

/-! The blocks that a script makes the engine look up. -/

def Directive.uses : Directive → Option QString
  | .blockSize _ name => some name
  | .blockCrc32 _ name => some name
  | .send name => some name
  | .recv name => some name
  | _ => none

def Instruction.uses : Instruction → Option Nat
  | .blockSize _ id => some id
  | .blockCrc32 _ id => some id
  | .send id => some id
  | .recv id => some id
  | _ => none

theorem Directive.uses_name {directive : Directive} {name : QString}
    (used : directive.uses = some name) : directive.name? = some name := by
  cases directive <;> first | exact used | cases used

theorem Directive.uses_instruction (naming : QString → Nat) (fuzzId : Nat)
    (directive : Directive) :
    (directive.instruction naming fuzzId).uses = directive.uses.map naming := by
  cases directive with
  | fuzzString one more => cases more <;> rfl
  | fuzzHex filename values => cases filename <;> rfl
  | _ => rfl

theorem of_mem_translate {naming : QString → Nat} {fuzzId : Nat} {script : List Directive}
    {instruction : Instruction} (member : instruction ∈ translate naming fuzzId script) :
    ∃ directive ∈ script, ∃ number, instruction = directive.instruction naming number := by
  induction script generalizing fuzzId with
  | nil => cases member
  | cons directive script induction =>
      cases List.mem_cons.mp member with
      | inl here => exact ⟨directive, List.mem_cons_self, fuzzId, here⟩
      | inr later =>
          obtain ⟨other, inside, found⟩ := induction later
          exact ⟨other, List.mem_cons_of_mem _ inside, found⟩

theorem mem_translate {naming : QString → Nat} {fuzzId : Nat} {script : List Directive}
    {directive : Directive} (member : directive ∈ script) :
    ∃ number, directive.instruction naming number ∈ translate naming fuzzId script := by
  induction script generalizing fuzzId with
  | nil => cases member
  | cons first script induction =>
      cases List.mem_cons.mp member with
      | inl here =>
          rw [here]
          exact ⟨fuzzId, List.mem_cons_self⟩
      | inr later =>
          obtain ⟨number, inside⟩ := @induction (first.nextFuzzId fuzzId) later
          exact ⟨number, List.mem_cons_of_mem _ inside⟩

-- every look-up of the updates and of the transmission finds its block
structure LookupsFound (sent : Config) : Prop where
  lengths : ∀ length ∈ sent.length, ∃ block, sent.findBlock length.id = some block
  hashes : ∀ hash ∈ sent.hash, ∃ block, sent.findBlock hash.id = some block
  chronos : ∀ chrono ∈ sent.chrono, ∃ block, sent.findBlock chrono.id = some block
  transmitted : ∀ peer invert type, ∃ result,
    parseChrono peer invert type sent.block 0 sent.chrono = .ok result

structure BlocksWellFormed (fillSource : FillSource) (script : List Directive)
    (instructions : List Instruction) : Prop where
  bracketed : ∀ directive ∈ script, ∀ name, directive.uses = some name →
    Bracketed name script
  found : ∀ conf sent, PassStart fillSource (bytecode instructions) conf →
    conf.packet fillSource = .ok sent → LookupsFound sent

section Lookups

variable {fillSource : FillSource} {script : List Directive}
  {instructions : List Instruction}

-- A look-up finds its block when the script begins it.
theorem Laid.found_iff {conf next : Config} {chunks : List (List UInt8)}
    (translation : Translation script instructions) (noBlock : conf.block = [])
    (laid : Laid conf (instructions.zip chunks) next)
    (same : chunks.length = instructions.length) {directive : Directive} {name : QString}
    (member : directive ∈ script) (used : directive.uses = some name) :
    (∃ block, next.findBlock (translation.naming name) = some block) ↔
      .blockBegin name ∈ script := by
  have missing : conf.findBlock (translation.naming name) = none := by
    rw [findBlock, noBlock]
    rfl
  have counted : chunks.length = script.length := by
    rw [same, translation.translated, length_translate]
  rw [← opened_scriptSegments counted name, ← (block_named chunks translation
    ⟨directive, member, Directive.uses_name used⟩).2.2]
  constructor
  · rintro ⟨block, here⟩
    by_contra closed
    rw [laid.missing missing closed] at here
    cases here
  · intro opened
    obtain ⟨block, here, -⟩ := laid.added missing opened
    exact ⟨block, here⟩

/-- A completed pass and the pieces it has laid out, for an accepted script. -/
structure Completed (translation : Translation script instructions) (sent : Config) :
    Prop where
  chrono : sent.chrono = instructions.filterMap chronoOf
  found : ∀ {directive : Directive} {name : QString}, directive ∈ script →
    directive.uses = some name →
    ((∃ block, sent.findBlock (translation.naming name) = some block) ↔
      .blockBegin name ∈ script)
  lengths : ∀ length ∈ sent.length, ∃ instruction ∈ instructions,
    instruction.uses = some length.id
  hashes : ∀ hash ∈ sent.hash, ∃ instruction ∈ instructions,
    instruction.uses = some hash.id

theorem completed {conf sent : Config} (translation : Translation script instructions)
    (short : (bytecode instructions).length < 2 ^ 32)
    (started : PassStart fillSource (bytecode instructions) conf)
    (passed : conf.packet fillSource = .ok sent) : Completed translation sent := by
  have fits : ∀ instruction ∈ instructions, instruction.Fits := by
    rw [translation.translated]
    exact translate_fits translation.bounded (Nat.two_pow_pos 32) script
  have ready := passStart_ready short fits started
  obtain ⟨sources, next, rfl, chosen, -, chrono, laid, -⟩ :=
    packet_passed ready short fits passed
  have counted : ((pushes instructions sources).map fun data => data.getD []).length =
      instructions.length := by
    rw [List.length_map, pushes, List.length_zipWith, Schedule.length_sources chosen,
      Nat.min_self]
  generalize (pushes instructions sources).map (fun data => data.getD []) = chunks
    at laid counted
  refine ⟨?_, ?_, ?_, ?_⟩
  · rw [chrono, (passStart_fresh started).1, List.nil_append]
  · intro directive name member used
    rw [findBlock, updates_frame]
    exact Laid.found_iff translation ready.block laid counted member used
  · intro length member
    rw [updates_frame] at member
    rw [laid.lengths, ready.length, List.nil_append] at member
    obtain ⟨instruction, chunk, offset, inPieces, isField, -⟩ := fieldsOf_range member
    have inside := (List.of_mem_zip inPieces).1
    cases instruction with
    | blockSize type id => cases isField; exact ⟨_, inside, rfl⟩
    | _ => cases isField
  · intro hash member
    rw [updates_frame] at member
    rw [laid.hashes, ready.hash, List.nil_append] at member
    obtain ⟨instruction, chunk, offset, inPieces, isField, -⟩ := fieldsOf_range member
    have inside := (List.of_mem_zip inPieces).1
    cases instruction with
    | blockCrc32 type id => cases isField; exact ⟨_, inside, rfl⟩
    | _ => cases isField

theorem Completed.looked {translation : Translation script instructions} {sent : Config}
    (done : Completed translation sent)
    (begun : ∀ directive ∈ script, ∀ name, directive.uses = some name →
      .blockBegin name ∈ script)
    {instruction : Instruction} {id : Nat} (member : instruction ∈ instructions)
    (used : instruction.uses = some id) : ∃ block, sent.findBlock id = some block := by
  rw [translation.translated] at member
  obtain ⟨directive, inScript, number, rfl⟩ := of_mem_translate member
  rw [Directive.uses_instruction] at used
  obtain ⟨name, named, rfl⟩ := Option.map_eq_some_iff.mp used
  exact (done.found inScript named).mpr (begun directive inScript name named)

theorem lookups_found {sent : Config} {translation : Translation script instructions}
    (done : Completed translation sent)
    (begun : ∀ directive ∈ script, ∀ name, directive.uses = some name →
      .blockBegin name ∈ script) : LookupsFound sent := by
  have chronos : ∀ chrono ∈ sent.chrono, ∃ block,
      sent.findBlock chrono.id = some block := by
    intro one member
    rw [done.chrono] at member
    obtain ⟨instruction, inside, isChrono⟩ := List.mem_filterMap.mp member
    cases instruction with
    | send id => cases isChrono; exact done.looked begun inside rfl
    | recv id => cases isChrono; exact done.looked begun inside rfl
    | _ => cases isChrono
  refine ⟨?_, ?_, chronos, fun peer invert type => ?_⟩
  · intro length member
    obtain ⟨instruction, inside, used⟩ := done.lengths length member
    exact done.looked begun inside used
  · intro hash member
    obtain ⟨instruction, inside, used⟩ := done.hashes hash member
    exact done.looked begun inside used
  · obtain ⟨result, parsed, -⟩ := @parseChrono_found peer invert type _ _ 0 chronos
    exact ⟨result, parsed⟩

end Lookups

theorem blocks_well_formed_iff (fillSource : FillSource) (script : List Directive)
    (instructions : List Instruction) (accepted : adc script = some instructions) :
    ((∀ directive ∈ script, ∀ name, directive.uses = some name → Bracketed name script) ↔
      ∀ directive ∈ script, ∀ name, directive.uses = some name → EndsOnce name script) ∧
    ((bytecode instructions).length < 2 ^ 32 →
      (BlocksWellFormed fillSource script instructions ↔
        ∀ directive ∈ script, ∀ name, directive.uses = some name →
          EndsOnce name script)) := by
  have static : (∀ directive ∈ script, ∀ name, directive.uses = some name →
      Bracketed name script) ↔
        ∀ directive ∈ script, ∀ name, directive.uses = some name → EndsOnce name script := by
    refine forall₂_congr fun directive member => forall₂_congr fun name used => ?_
    exact (adc_marked accepted member (Directive.uses_name used)).bracketed_iff
  refine ⟨static, fun short => ⟨fun formed => static.mp formed.bracketed, fun once => ?_⟩⟩
  have bracketed := static.mpr once
  obtain ⟨translation⟩ := adc_translation accepted short
  refine ⟨bracketed, fun conf sent started passed => ?_⟩
  refine lookups_found (completed translation short started passed) ?_
  intro directive member name used
  rw [← mem_marksOf_begin, bracketed directive member name used]
  exact List.mem_cons_self

def payload : QString := ⟨[80], by decide, by decide⟩

-- a length before its block, and the block sent after its end
def sized : List Directive :=
  [.blockSize .b16 payload, .blockBegin payload, .string payload, .blockEnd payload,
    .send payload]

theorem blocks_well_formed_sized :
    BlocksWellFormed (fun _ => none) sized
      [.blockSize .b16 1, .blockBegin 1, .string [80], .blockEnd 1, .send 1] := by
  have bracketed : ∀ directive ∈ sized, ∀ name ∈ directive.uses, Bracketed name sized := by
    decide
  obtain ⟨static, whole⟩ := blocks_well_formed_iff (fun _ => none) sized
    [.blockSize .b16 1, .blockBegin 1, .string [80], .blockEnd 1, .send 1] (by decide)
  exact (whole (by decide)).mpr (static.mp bracketed)

-- the length mentions the block, so its end passes for the end of a block
def neverBegun : List Directive :=
  [.blockSize .b16 payload, .blockEnd payload, .send payload]

def neverBegunBytecode : List Instruction := [.blockSize .b16 1, .blockEnd 1, .send 1]

-- The transmission follows a pointer to no block.
theorem blocks_ill_formed_never_begun :
    ¬ ∀ (fillSource : FillSource) (script : List Directive)
        (instructions : List Instruction),
        adc script = some instructions →
        BlocksWellFormed fillSource script instructions := by
  intro claimed
  have formed := claimed (fun _ => none) neverBegun neverBegunBytecode (by decide)
  obtain ⟨sent, passed, missing⟩ : ∃ sent,
      (readAdcFile false false (fun _ => 0) (bytecode neverBegunBytecode)).packet
        (fun _ => none) = .ok sent ∧
      parseChrono ⟨fun _ _ => 1, fun _ _ => 1⟩ 0 0 sent.block 0 sent.chrono =
        .error .undefined := ⟨_, rfl, rfl⟩
  have looked := formed.found _ sent (.first false false fun _ => 0) passed
  obtain ⟨result, done⟩ := looked.transmitted ⟨fun _ _ => 1, fun _ _ => 1⟩ 0 0
  rw [missing] at done
  cases done

end Segvault.Autodafe
