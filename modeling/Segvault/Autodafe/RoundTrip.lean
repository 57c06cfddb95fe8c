import Mathlib.Data.List.ReduceOption
import Segvault.Autodafe.Independence

namespace Segvault.Autodafe

open Bytes Layout

/-! When the buffer takes all that is pushed. -/

-- `realloc` is asked for no byte while it has a buffer.
def Buffer.Frees (self : Buffer) (chunks : List (List UInt8)) : Prop :=
  self.bufFuzzSize = 0 ∧
    (self.allocated = true ∧ chunks.head? = some [] ∨ chunks.take 2 = [[], []])

instance (buffer : Buffer) (chunks : List (List UInt8)) : Decidable (buffer.Frees chunks) :=
  inferInstanceAs (Decidable (_ ∧ _))

theorem Buffer.take_some_iff {buffer : Buffer} (chunk : List UInt8) :
    (∃ grown, buffer.take (some chunk) = .ok grown) ↔
      buffer.bufFuzzSize + chunk.length < 2 ^ 32 ∧
        ¬ (buffer.bufFuzzSize + chunk.length = 0 ∧ buffer.allocated = true) := by
  rw [Buffer.take, Buffer.realloc]
  constructor
  · rintro ⟨grown, taken⟩
    split at taken
    · cases taken
    · next kept =>
        split at taken
        · cases taken
        · next fits =>
            have bounded : buffer.bufFuzzSize + chunk.length < 2 ^ 32 := by omega
            rw [Nat.mod_eq_of_lt bounded] at kept
            exact ⟨bounded, kept⟩
  · rintro ⟨fits, kept⟩
    rw [Nat.mod_eq_of_lt fits, if_neg kept, if_neg (Nat.lt_irrefl _)]
    exact ⟨_, rfl⟩

theorem Buffer.take_allocated {buffer grown : Buffer} {chunk : List UInt8}
    (taken : buffer.take (some chunk) = .ok grown) : grown.allocated = true := by
  rw [Buffer.take, Buffer.realloc] at taken
  split at taken
  · cases taken
  · split at taken
    · cases taken
    · cases taken
      rfl

theorem Buffer.frees_cons {buffer grown : Buffer} {chunk : List UInt8}
    (size : grown.bufFuzzSize = buffer.bufFuzzSize + chunk.length)
    (allocated : grown.allocated = true)
    (kept : ¬ (buffer.bufFuzzSize + chunk.length = 0 ∧ buffer.allocated = true))
    (chunks : List (List UInt8)) :
    grown.Frees chunks ↔ buffer.Frees (chunk :: chunks) := by
  unfold Buffer.Frees
  rw [size, allocated]
  constructor
  · rintro ⟨zero, more⟩
    have empty : chunk = [] := List.eq_nil_of_length_eq_zero (by omega)
    refine ⟨by omega, .inr ?_⟩
    cases chunks with
    | nil => simp at more
    | cons second rest =>
        have next : second = [] := by
          obtain ⟨-, head⟩ | pair := more
          · exact Option.some.inj head
          · exact (List.cons.inj pair).1
        rw [empty, next]
        rfl
  · rintro ⟨zero, ⟨held, head⟩ | pair⟩
    · have empty : chunk = [] := Option.some.inj head
      rw [empty] at kept
      exact absurd ⟨zero, held⟩ kept
    · cases chunks with
      | nil => cases pair
      | cons second rest =>
          obtain ⟨empty, tail⟩ := List.cons.inj pair
          rw [empty]
          exact ⟨zero, .inl ⟨rfl, congrArg some (List.cons.inj tail).1⟩⟩

theorem Buffer.takeAll_iff (data : List (Option (List UInt8))) {buffer : Buffer}
    (small : buffer.bufFuzzSize < 2 ^ 32) :
    (∃ grown, buffer.takeAll data = .ok grown) ↔
      buffer.bufFuzzSize + data.reduceOption.flatten.length < 2 ^ 32 ∧
        ¬ buffer.Frees data.reduceOption := by
  induction data generalizing buffer with
  | nil =>
      have free : ¬ buffer.Frees [] := by simp [Buffer.Frees]
      exact ⟨fun _ => ⟨small, free⟩, fun _ => ⟨buffer, rfl⟩⟩
  | cons head data induction =>
      cases head with
      | none =>
          rw [List.reduceOption_cons_of_none]
          exact induction small
      | some chunk =>
          have first := @Buffer.take_some_iff buffer chunk
          rw [List.reduceOption_cons_of_some, List.flatten_cons, List.length_append,
            Buffer.takeAll]
          cases taken : buffer.take (some chunk) with
          | error halt =>
              have broken := first.not.mp (by rw [taken]; simp)
              refine ⟨fun bad => ?_, fun kept => absurd ⟨by omega, ?_⟩ broken⟩
              · obtain ⟨grown, same⟩ := bad
                cases same
              · rintro ⟨zero, allocated⟩
                have empty : chunk = [] := List.eq_nil_of_length_eq_zero (by omega)
                exact kept.2 ⟨by omega, .inl ⟨allocated, by rw [empty]; rfl⟩⟩
          | ok grown =>
              have fine := first.mp ⟨grown, taken⟩
              obtain ⟨size, bounded⟩ := Buffer.realloc_ok taken
              refine (induction bounded).trans ?_
              rw [size, Buffer.frees_cons size (Buffer.take_allocated taken) fine.2]
              refine and_congr_left fun _ => ?_
              omega

theorem Buffer.takeAll_size {data : List (Option (List UInt8))} {buffer grown : Buffer}
    (taken : buffer.takeAll data = .ok grown) :
    grown.bufFuzzSize = buffer.bufFuzzSize + data.reduceOption.flatten.length := by
  induction data generalizing buffer with
  | nil =>
      cases taken
      rfl
  | cons head data induction =>
      cases head with
      | none => exact induction taken
      | some chunk =>
          rw [Buffer.takeAll] at taken
          cases first : buffer.take (some chunk) with
          | error halt =>
              rw [first] at taken
              cases taken
          | ok middle =>
              rw [first] at taken
              rw [induction taken, (Buffer.realloc_ok first).1,
                List.reduceOption_cons_of_some, List.flatten_cons, List.length_append,
                Nat.add_assoc]

namespace Config

/-! The read offset fits its 32 bits, whatever is decoded. -/

def Tame (conf : Config) : Prop :=
  conf.adc.start < 2 ^ 32 ∧ conf.adc.offset < 2 ^ 32

theorem ok_of_bind {α β : Type} {action : Except Halt α} {rest : α → Except Halt β}
    {result : β} (done : action >>= rest = .ok result) :
    ∃ value, action = .ok value ∧ rest value = .ok result := by
  cases action with
  | error halt => cases done
  | ok value => exact ⟨value, rfl, done⟩

section Tame

variable {conf next : Config}

theorem Tame.skip (tame : conf.Tame) (size : Nat) : (conf.skip size).Tame :=
  ⟨tame.1, Nat.mod_lt _ (Nat.two_pow_pos 32)⟩

theorem Tame.congr (tame : conf.Tame) (same : next.adc = conf.adc) : next.Tame := by
  rw [Tame, same]
  exact tame

theorem Tame.readBufferChar {byte : UInt8} (tame : conf.Tame)
    (done : conf.readBufferChar = .ok (byte, next)) : next.Tame := by
  rw [Config.readBufferChar] at done
  split at done
  · cases done
  · cases done
    exact tame.skip 1

theorem Tame.readBufferInt {value : Nat} (tame : conf.Tame)
    (done : conf.readBufferInt = .ok (value, next)) : next.Tame := by
  rw [Config.readBufferInt] at done
  split at done
  · cases done
    exact tame.skip 4
  · cases done

theorem Tame.pushData {data : List UInt8} (tame : conf.Tame)
    (done : conf.pushData data = .ok next) : next.Tame :=
  tame.congr (pushData_adc done)

theorem Tame.opcodeHfHex (tame : conf.Tame) (done : conf.opcodeHfHex = .ok next) :
    next.Tame := by
  obtain ⟨⟨size, conf⟩, read, done⟩ := ok_of_bind done
  obtain ⟨values, -, done⟩ := ok_of_bind done
  obtain ⟨conf, pushed, done⟩ := ok_of_bind done
  cases done
  exact ((tame.readBufferInt read).pushData pushed).skip size

theorem Tame.opcodeHfString (tame : conf.Tame) (done : conf.opcodeHfString = .ok next) :
    next.Tame := by
  obtain ⟨⟨size, conf⟩, read, done⟩ := ok_of_bind done
  obtain ⟨text, -, done⟩ := ok_of_bind done
  obtain ⟨conf, pushed, done⟩ := ok_of_bind done
  cases done
  exact ((tame.readBufferChar read).pushData pushed).skip size.toNat

theorem Tame.opcodeHfFuzzHex {fillSource : FillSource} (tame : conf.Tame)
    (done : conf.opcodeHfFuzzHex fillSource = .ok next) : next.Tame := by
  obtain ⟨⟨id, conf⟩, readId, done⟩ := ok_of_bind done
  obtain ⟨⟨size, conf⟩, readSize, done⟩ := ok_of_bind done
  obtain ⟨filename, -, done⟩ := ok_of_bind done
  obtain ⟨⟨fuzzed, conf⟩, core, done⟩ := ok_of_bind done
  have here := (((tame.readBufferInt readId).readBufferChar readSize).skip
    size.toNat).congr (fuzzCore_adc core)
  cases fuzzed with
  | false => exact here.opcodeHfHex done
  | true =>
      obtain ⟨⟨size, conf⟩, read, done⟩ := ok_of_bind done
      cases done
      exact (here.readBufferInt read).skip size

theorem Tame.opcodeHfFuzzString {fillSource : FillSource} (tame : conf.Tame)
    (done : conf.opcodeHfFuzzString fillSource = .ok next) : next.Tame := by
  obtain ⟨⟨id, conf⟩, readId, done⟩ := ok_of_bind done
  obtain ⟨⟨size, conf⟩, readSize, done⟩ := ok_of_bind done
  obtain ⟨filename, -, done⟩ := ok_of_bind done
  obtain ⟨⟨fuzzed, conf⟩, core, done⟩ := ok_of_bind done
  have here := (((tame.readBufferInt readId).readBufferChar readSize).skip
    size.toNat).congr (fuzzCore_adc core)
  cases fuzzed with
  | false => exact here.opcodeHfString done
  | true =>
      obtain ⟨⟨size, conf⟩, read, done⟩ := ok_of_bind done
      cases done
      exact (here.readBufferChar read).skip size.toNat

theorem pushLength_adc {id : Nat} {type : SizeType}
    (done : conf.pushLength id type = .ok next) : next.adc = conf.adc := by
  cases type with
  | s16 => cases done; rfl
  | s10 => cases done; rfl
  | _ =>
      have kept := pushData_adc done
      exact kept

theorem pushHash_adc {id : Nat} {type : CrcType}
    (done : conf.pushHash id type = .ok next) : next.adc = conf.adc := by
  have kept := pushData_adc done
  exact kept

theorem Tame.opcodeHfBlockSize {type : SizeType} (tame : conf.Tame)
    (done : opcodeHfBlockSize type conf = .ok next) : next.Tame := by
  obtain ⟨⟨id, conf⟩, read, done⟩ := ok_of_bind done
  exact (tame.readBufferInt read).congr (pushLength_adc done)

theorem Tame.opcodeHfBlockCrc32 {type : CrcType} (tame : conf.Tame)
    (done : opcodeHfBlockCrc32 type conf = .ok next) : next.Tame := by
  obtain ⟨⟨id, conf⟩, read, done⟩ := ok_of_bind done
  exact (tame.readBufferInt read).congr (pushHash_adc done)

theorem Tame.opcodeHfChrono {type : ChronoType} (tame : conf.Tame)
    (done : opcodeHfChrono type conf = .ok next) : next.Tame := by
  obtain ⟨⟨id, conf⟩, read, done⟩ := ok_of_bind done
  cases done
  exact (tame.readBufferInt read).congr rfl

theorem Tame.fetchInstruction {fillSource : FillSource} (tame : conf.Tame)
    (done : conf.fetchInstruction fillSource = .ok next) : next.Tame := by
  obtain ⟨⟨opcode, conf⟩, read, done⟩ := ok_of_bind done
  have here := tame.readBufferChar read
  dsimp only at done
  split at done
  · exact here.opcodeHfHex done
  · exact here.opcodeHfFuzzHex done
  · exact here.opcodeHfString done
  · exact here.opcodeHfFuzzString done
  · obtain ⟨⟨id, conf⟩, read, done⟩ := ok_of_bind done
    cases done
    exact (here.readBufferInt read).congr rfl
  · obtain ⟨⟨id, conf⟩, read, done⟩ := ok_of_bind done
    cases done
    exact (here.readBufferInt read).congr rfl
  all_goals first
    | exact here.opcodeHfBlockSize done
    | exact here.opcodeHfBlockCrc32 done
    | exact here.opcodeHfChrono done
    | cases done

theorem Tame.parse {fillSource : FillSource} (turns : Nat) (tame : conf.Tame)
    (done : conf.parse fillSource turns = .ok next) : next.Tame := by
  induction turns generalizing conf with
  | zero =>
      rw [Config.parse] at done
      split at done
      · cases done
      · cases done
        exact tame
  | succ turns induction =>
      rw [Config.parse] at done
      split at done
      · obtain ⟨middle, fetched, done⟩ := ok_of_bind done
        exact induction (tame.fetchInstruction fetched) done
      · cases done
        exact tame

theorem passStart_tame {fillSource : FillSource} {buffer : List UInt8}
    (started : PassStart fillSource buffer conf) : conf.Tame := by
  induction started with
  | first dbgMode bruteforce bufFuzz => exact ⟨Nat.two_pow_pos 32, Nat.two_pow_pos 32⟩
  | @next conf sent started passed unfinished weights bufFuzz tame =>
      obtain ⟨parsed, done, rest⟩ := ok_of_bind passed
      cases rest
      have kept := tame.parse _ done
      rw [updates_frame]
      exact ⟨kept.1, kept.1⟩

end Tame

/-! The engine one instruction after the other. -/

def fetches (fillSource : FillSource) : Nat → Config → Except Halt Config
  | 0, conf => .ok conf
  | count + 1, conf => do
      let conf ← conf.fetchInstruction fillSource
      fetches fillSource count conf

theorem executeAll_append (fillSource : FillSource) (conf : Config)
    (first second : List Instruction) :
    conf.executeAll fillSource (first ++ second) =
      (do
        let conf ← conf.executeAll fillSource first
        conf.executeAll fillSource second) := by
  induction first generalizing conf with
  | nil => rfl
  | cons instruction first induction =>
      simp only [List.cons_append, executeAll, bind, Except.bind] at induction ⊢
      cases conf.execute fillSource instruction with
      | error halt => rfl
      | ok next => exact induction next

theorem fetches_bytecode (fillSource : FillSource) {conf : Config}
    (first : List Instruction) {rest : List UInt8}
    (upcoming : conf.Upcoming (bytecode first ++ rest))
    (fits : ∀ instruction ∈ first, instruction.Fits) :
    fetches fillSource first.length conf =
      mapSkip (bytecode first).length (conf.executeAll fillSource first) := by
  induction first generalizing conf with
  | nil =>
      have small : conf.adc.offset < 2 ^ 32 :=
        Nat.lt_of_le_of_lt upcoming.inside upcoming.small
      have still : conf.skip 0 = conf := by
        rw [skip, Nat.add_zero, Nat.mod_eq_of_lt small]
      exact congrArg Except.ok still.symm
  | cons instruction first induction =>
      rw [bytecode, List.flatMap_cons, List.append_assoc] at upcoming
      have fetched := fetchInstruction_encode fillSource upcoming
        (fits instruction List.mem_cons_self)
      rw [List.length_cons, fetches, fetched, executeAll]
      cases executed : conf.execute fillSource instruction with
      | error halt => rfl
      | ok next =>
          have later : (next.skip instruction.encode.length).Upcoming
              (bytecode first ++ rest) :=
            (upcoming.congr (execute_adc executed)).skip rfl
          have result := induction later fun other member =>
            fits other (List.mem_cons_of_mem _ member)
          simp only [mapSkip_ok, bind, Except.bind]
          rw [result, executeAll_skip, mapSkip_mapSkip, bytecode, bytecode,
            List.flatMap_cons, List.length_append]

end Config

/-! What the packet is made of, before the lengths and hashes are filled in. -/

def Directive.placeholder : Directive → Option (List UInt8)
  | .string text => some text.bytes
  | .fuzzString one [] => some one.bytes
  | .fuzzString _ (two :: _) => some two.bytes
  | .hex values => some values.values
  | .fuzzHex _ values => some values.values
  | .blockSize .s16 _ => none
  | .blockSize .s10 _ => none
  | .blockSize type _ => some (Config.dummyLength type)
  | .blockCrc32 _ _ => some [0, 0, 0, 0]
  | _ => none

def placeholders (script : List Directive) : List (List UInt8) :=
  script.filterMap Directive.placeholder

theorem pushes_plain {naming : QString → Nat} {fuzzId : Nat} {script : List Directive}
    {sources : List (Option StructSource)} (plain : ∀ source ∈ sources, source = none)
    (same : sources.length = script.length) :
    pushes (translate naming fuzzId script) sources = script.map Directive.placeholder := by
  induction script generalizing fuzzId sources with
  | nil => rfl
  | cons directive script induction =>
      cases sources with
      | nil => cases same
      | cons source sources =>
          have none_chosen : source = none := plain source List.mem_cons_self
          have rest := @induction (directive.nextFuzzId fuzzId) sources
            (fun other member => plain other (List.mem_cons_of_mem _ member))
            (Nat.succ.inj same)
          rw [pushes] at rest ⊢
          rw [translate, List.zipWith_cons_cons, rest, List.map_cons, none_chosen]
          congr 1
          cases directive with
          | fuzzString one more => cases more <;> rfl
          | fuzzHex filename values => cases filename <;> rfl
          | blockSize type name => cases type <;> rfl
          | _ => rfl

-- The pass chooses no source.
def Plain (fillSource : FillSource) (instructions : List Instruction) (conf : Config) :
    Prop :=
  ∃ sources final,
    conf.toSchedule.sources fillSource instructions = .ok (sources, final) ∧
      ∀ source ∈ sources, source = none

structure RoundTrip (fillSource : FillSource) (script : List Directive)
    (instructions : List Instruction) (conf : Config) : Prop where
  instruction : ∀ count ≤ instructions.length, ∃ next,
    conf.fetches fillSource count = .ok next ∧
      next.adc.offset = (bytecode (instructions.take count)).length
  packet : ∃ parsed, conf.parse fillSource conf.adc.size = .ok parsed ∧
    parsed.adc.offset = (bytecode instructions).length ∧
      read parsed.bufFuzz conf.bufFuzzSize (parsed.bufFuzzSize - conf.bufFuzzSize) =
        (placeholders script).flatten

def Unbroken (script : List Directive) (instructions : List Instruction)
    (conf : Config) : Prop :=
  (bytecode instructions).length < 2 ^ 32 ∧
    conf.bufFuzzSize + (placeholders script).flatten.length < 2 ^ 32 ∧
      ¬ (conf.bufFuzzSize = 0 ∧ (placeholders script).take 2 = [[], []])

theorem placeholders_eq (script : List Directive) :
    (script.map Directive.placeholder).reduceOption = placeholders script := by
  rw [List.reduceOption, List.filterMap_map]
  rfl

theorem flatten_getD (data : List (Option (List UInt8))) :
    (data.map fun chunk => chunk.getD []).flatten = data.reduceOption.flatten := by
  induction data with
  | nil => rfl
  | cons chunk data induction =>
      cases chunk with
      | none => exact induction
      | some chunk =>
          rw [List.map_cons, List.flatten_cons, induction, List.reduceOption_cons_of_some,
            List.flatten_cons]
          rfl

section Plain

variable {fillSource : FillSource} {script : List Directive}
  {instructions : List Instruction} {conf : Config}

-- A pass without sources goes through its instructions as far as the buffer goes.
theorem executeAll_plain {naming : QString → Nat} (ready : conf.Ready instructions)
    (translated : instructions = translate naming 0 script)
    (plain : Plain fillSource instructions conf) :
    match conf.toBuffer.takeAll (script.map Directive.placeholder) with
    | .error halt => conf.executeAll fillSource instructions = .error halt
    | .ok _ => ∃ next, conf.executeAll fillSource instructions = .ok next ∧
        next.bufFuzzSize = conf.bufFuzzSize + (placeholders script).flatten.length ∧
        next.bufFuzz =
          Bytes.write conf.bufFuzz conf.bufFuzzSize (placeholders script).flatten := by
  obtain ⟨sources, final, chosen, none_chosen⟩ := plain
  have sized : conf.Sized := by
    refine ⟨ready.small, ?_⟩
    intro block member
    rw [ready.block] at member
    cases member
  have executed := Config.executeAll_plan fillSource sized instructions
  have counted := Schedule.length_sources chosen
  have pushed : pushes instructions sources = script.map Directive.placeholder := by
    rw [translated, length_translate] at counted
    rw [translated]
    exact pushes_plain none_chosen counted
  rw [plan_sources chosen, pushed] at executed
  cases taken : conf.toBuffer.takeAll (script.map Directive.placeholder) with
  | error halt =>
      rw [taken] at executed
      exact executed
  | ok grown =>
      rw [taken] at executed
      obtain ⟨next, done, laid⟩ := executed
      have pieces : packetBytes (instructions.zip
          ((script.map Directive.placeholder).map fun data => data.getD [])) =
            (placeholders script).flatten := by
        rw [packetBytes, List.flatMap_def, List.map_snd_zip, flatten_getD, placeholders_eq]
        rw [translated, length_translate, List.length_map, List.length_map]
      refine ⟨next, done, ?_, ?_⟩
      · rw [laid.size, ← length_packetBytes, pieces]
      · rw [laid.bytes, pieces]

theorem takeAll_plain (fresh : conf.allocated = false) (small : conf.bufFuzzSize < 2 ^ 32) :
    (∃ grown, conf.toBuffer.takeAll (script.map Directive.placeholder) = .ok grown) ↔
      conf.bufFuzzSize + (placeholders script).flatten.length < 2 ^ 32 ∧
        ¬ (conf.bufFuzzSize = 0 ∧ (placeholders script).take 2 = [[], []]) := by
  rw [Buffer.takeAll_iff _ small, placeholders_eq, Buffer.Frees, fresh]
  simp only [Bool.false_eq_true, false_and, false_or]

variable (ready : conf.Ready instructions)
  (short : (bytecode instructions).length < 2 ^ 32)
  (fits : ∀ instruction ∈ instructions, instruction.Fits)

include ready short fits

theorem fetches_take (count : Nat) :
    conf.fetches fillSource (instructions.take count).length =
      Config.mapSkip (bytecode (instructions.take count)).length
        (conf.executeAll fillSource (instructions.take count)) := by
  have upcoming := ready.upcoming short
  rw [← List.take_append_drop count instructions, bytecode, List.flatMap_append]
    at upcoming
  exact Config.fetches_bytecode fillSource _ upcoming fun instruction member =>
    fits instruction (List.mem_of_mem_take member)

theorem fetches_done {next : Config}
    (executed : conf.executeAll fillSource instructions = .ok next)
    {count : Nat} (bound : count ≤ instructions.length) :
    ∃ next, conf.fetches fillSource count = .ok next ∧
      next.adc.offset = (bytecode (instructions.take count)).length := by
  have fetched := @fetches_take fillSource _ _ ready short fits count
  have prefixShort : (bytecode (instructions.take count)).length < 2 ^ 32 := by
    have whole := congrArg List.length
      (congrArg bytecode (List.take_append_drop count instructions))
    rw [bytecode, List.flatMap_append, List.length_append] at whole
    exact Nat.lt_of_le_of_lt (by rw [bytecode]; omega) short
  rw [← List.take_append_drop count instructions, Config.executeAll_append] at executed
  obtain ⟨middle, done, -⟩ := Config.ok_of_bind executed
  rw [List.length_take, Nat.min_eq_left bound, done] at fetched
  refine ⟨_, fetched, ?_⟩
  simp only [Config.skip]
  rw [Config.executeAll_adc done, ready.offset, Nat.zero_add, Nat.mod_eq_of_lt prefixShort]

end Plain

theorem round_trip_iff (fillSource : FillSource) (script : List Directive)
    (instructions : List Instruction) (conf : Config)
    (accepted : adc script = some instructions)
    (started : Config.PassStart fillSource (bytecode instructions) conf)
    (plain : Plain fillSource instructions conf) :
    RoundTrip fillSource script instructions conf ↔ Unbroken script instructions conf := by
  by_cases short : (bytecode instructions).length < 2 ^ 32
  · obtain ⟨translation⟩ := adc_translation accepted short
    have fits : ∀ instruction ∈ instructions, instruction.Fits := by
      rw [translation.translated]
      exact translate_fits translation.bounded (Nat.two_pow_pos 32) script
    have ready := Config.passStart_ready short fits started
    have executed := executeAll_plain ready translation.translated plain
    have room := @takeAll_plain script conf (Config.passStart_fresh started).2 ready.small
    constructor
    · intro trip
      refine ⟨short, room.mp ?_⟩
      cases taken : conf.toBuffer.takeAll (script.map Directive.placeholder) with
      | ok grown => exact ⟨grown, rfl⟩
      | error halt =>
          rw [taken] at executed
          obtain ⟨next, fetched, -⟩ := trip.instruction instructions.length (Nat.le_refl _)
          have whole := @fetches_take fillSource _ _ ready short fits instructions.length
          rw [List.take_length, fetched, executed] at whole
          cases whole
    · rintro ⟨-, unbroken⟩
      obtain ⟨grown, taken⟩ := room.mpr unbroken
      rw [taken] at executed
      obtain ⟨next, done, size, bytes⟩ := executed
      have enough : instructions.length ≤ conf.adc.size := by
        rw [ready.size, ready.buffer]
        exact length_le_bytecode instructions
      have parsed := Config.parse_bytecode fillSource (ready.upcoming short) ready.size fits
        enough
      rw [done] at parsed
      refine ⟨fun count bound => fetches_done ready short fits done bound, _, parsed, ?_, ?_⟩
      · simp only [Config.skip]
        rw [Config.executeAll_adc done, ready.offset, Nat.zero_add, Nat.mod_eq_of_lt short]
      · simp only [Config.skip]
        rw [size, bytes, Nat.add_sub_cancel_left]
        exact read_write _ _ _
  · constructor
    · intro trip
      obtain ⟨parsed, done, offset, -⟩ := trip.packet
      have bounded := ((Config.passStart_tame started).parse _ done).2
      rw [offset] at bounded
      exact absurd bounded short
    · rintro ⟨bounded, -⟩
      exact absurd bounded short

def letterA : QString := ⟨[65], a_size, a_noNul⟩

-- two bytes in a block, after the length of the block
def framed : List Directive :=
  [.blockSize .b16 letterA, .blockBegin letterA, .string letterA,
    .fuzzString letterA [], .blockEnd letterA]

def framedBytecode : List Instruction :=
  [.blockSize .b16 1, .blockBegin 1, .string [65],
    .fuzzString 0 defaultFuzzStringFile [65], .blockEnd 1]

theorem round_trip_framed :
    RoundTrip (fun _ => some []) framed framedBytecode
      (Config.readAdcFile false false (fun _ => 0) (bytecode framedBytecode)) := by
  refine (round_trip_iff (fun _ => some []) framed framedBytecode _ (by decide)
    (.first false false _) ⟨[none, none, none, none, none], _, rfl, by decide⟩).mpr ?_
  exact ⟨by decide, by decide, by decide⟩

def noText : QString := ⟨[], by decide, by decide⟩

def twoEmpty : List Instruction := [.string [], .string []]

-- Two empty texts at the start of the packet: the engine frees its buffer and exits.
theorem round_trip_fails_two_empty :
    ¬ ∀ (fillSource : FillSource) (script : List Directive)
        (instructions : List Instruction) (conf : Config),
        adc script = some instructions →
        Config.PassStart fillSource (bytecode instructions) conf →
        Plain fillSource instructions conf →
        RoundTrip fillSource script instructions conf := by
  intro claimed
  have trip := claimed (fun _ => none) [.string noText, .string noText] twoEmpty
    (Config.readAdcFile false false (fun _ => 0) (bytecode twoEmpty)) (by decide)
    (.first false false _) ⟨[none, none], _, rfl, by decide⟩
  obtain ⟨parsed, done, -⟩ := trip.packet
  have stopped : (Config.readAdcFile false false (fun _ => 0)
      (bytecode twoEmpty)).parse (fun _ => none) 4 = .error .quit := rfl
  have size : (Config.readAdcFile false false (fun _ => 0) (bytecode twoEmpty)).adc.size = 4 :=
    rfl
  rw [size, stopped] at done
  cases done

end Segvault.Autodafe
