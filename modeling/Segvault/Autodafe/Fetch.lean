import Segvault.Autodafe.Engine

namespace Segvault.Autodafe

open Bytes

/-! The engine on decoded instructions: what each does once it is read. -/

namespace Config

def execute (fillSource : FillSource) (conf : Config) :
    Instruction → Except Halt Config
  | .hex values => conf.pushData values
  | .string text => conf.pushData text
  | .fuzzHex id filename values => do
      let (fuzzed, conf) ← conf.fuzzCore fillSource id filename 1
      if fuzzed then return conf else conf.pushData values
  | .fuzzString id filename text => do
      let (fuzzed, conf) ← conf.fuzzCore fillSource id filename 0
      if fuzzed then return conf else conf.pushData text
  | .blockBegin id =>
      .ok { conf with
        block := conf.block ++
          [{ id, size := 0, offset := conf.bufFuzzSize, state := .opened }] }
  | .blockEnd id => .ok { conf with block := closeBlock id conf.block }
  | .blockSize type id => conf.pushLength id type
  | .blockCrc32 type id => conf.pushHash id type
  | .send id => .ok { conf with chrono := conf.chrono ++ [{ id, type := .send }] }
  | .recv id => .ok { conf with chrono := conf.chrono ++ [{ id, type := .recv }] }

def executeAll (fillSource : FillSource) (conf : Config) :
    List Instruction → Except Halt Config
  | [] => .ok conf
  | instruction :: instructions => do
      let conf ← conf.execute fillSource instruction
      conf.executeAll fillSource instructions

/-! The read offset is moved only by reading. -/

@[simp] theorem skip_skip (conf : Config) (first second : Nat) :
    (conf.skip first).skip second = conf.skip (first + second) := by
  simp only [skip]
  congr 2
  omega

def mapSkip (size : Nat) (outcome : Except Halt Config) : Except Halt Config :=
  outcome.map fun conf => conf.skip size

@[simp] theorem mapSkip_ok (size : Nat) (conf : Config) :
    mapSkip size (.ok conf) = .ok (conf.skip size) := rfl

@[simp] theorem mapSkip_error (size : Nat) (halt : Halt) :
    mapSkip size (.error halt) = .error halt := rfl

theorem mapSkip_mapSkip (first second : Nat) (outcome : Except Halt Config) :
    mapSkip second (mapSkip first outcome) = mapSkip (first + second) outcome := by
  cases outcome with
  | error halt => rfl
  | ok conf => simp

theorem pushData_skip (conf : Config) (size : Nat) (data : List UInt8) :
    (conf.skip size).pushData data = mapSkip size (conf.pushData data) := by
  unfold pushData
  cases grown : conf.toBuffer.realloc data.length with
  | error halt => simp only [skip, grown]; rfl
  | ok buffer => simp only [skip, grown]; rfl

theorem fuzzCore_skip (fillSource : FillSource) (conf : Config) (size id : Nat)
    (filename : List UInt8) (weight : Nat) :
    (conf.skip size).fuzzCore fillSource id filename weight =
      (conf.fuzzCore fillSource id filename weight).map
        fun (fuzzed, conf) => (fuzzed, conf.skip size) := by
  unfold fuzzCore
  cases chosen : conf.toSchedule.choose fillSource id filename weight with
  | error halt => simp only [skip, chosen]; rfl
  | ok choice =>
      obtain ⟨source, schedule⟩ := choice
      cases source with
      | none => simp only [skip, chosen]; rfl
      | some source =>
          have pushed := pushData_skip
            { conf with toSchedule := schedule } size source.content
          simp only [skip] at pushed
          simp only [skip, chosen, bind, Except.bind, pushed]
          cases { conf with toSchedule := schedule }.pushData source.content with
          | error halt => rfl
          | ok conf => rfl

theorem pushLength_skip (conf : Config) (size id : Nat) (type : SizeType) :
    (conf.skip size).pushLength id type = mapSkip size (conf.pushLength id type) := by
  let pushed : Config :=
    { conf with
      length := conf.length ++ [{ id, offset := conf.bufFuzzSize, type }] }
  cases type <;> first | exact pushData_skip pushed size _ | rfl

theorem pushHash_skip (conf : Config) (size id : Nat) (type : CrcType) :
    (conf.skip size).pushHash id type = mapSkip size (conf.pushHash id type) := by
  let pushed : Config :=
    { conf with hash := conf.hash ++ [{ id, offset := conf.bufFuzzSize, type }] }
  exact pushData_skip pushed size _

/-! The bytes that are still to be read. -/

structure Upcoming (conf : Config) (bytes : List UInt8) : Prop where
  drop : conf.adc.buffer.drop conf.adc.offset = bytes
  inside : conf.adc.offset ≤ conf.adc.buffer.length
  small : conf.adc.buffer.length < 2 ^ 32

theorem Upcoming.length {conf : Config} {bytes : List UInt8}
    (upcoming : conf.Upcoming bytes) :
    conf.adc.offset + bytes.length = conf.adc.buffer.length := by
  have inside := upcoming.inside
  rw [← upcoming.drop, List.length_drop]
  omega

theorem Upcoming.skip {conf : Config} {first rest : List UInt8} {size : Nat}
    (upcoming : conf.Upcoming (first ++ rest)) (same : first.length = size) :
    (conf.skip size).Upcoming rest := by
  have length := upcoming.length
  have small := upcoming.small
  rw [List.length_append] at length
  have moved : (conf.adc.offset + size) % 2 ^ 32 = conf.adc.offset + size :=
    Nat.mod_eq_of_lt (by omega)
  refine ⟨?_, ?_, small⟩
  · simp only [Config.skip, moved]
    rw [← List.drop_drop, upcoming.drop, ← same, List.drop_left]
  · simp only [Config.skip, moved]
    omega

theorem Upcoming.congr {conf other : Config} {bytes : List UInt8}
    (upcoming : conf.Upcoming bytes) (same : other.adc = conf.adc) :
    other.Upcoming bytes := by
  obtain ⟨drop, inside, small⟩ := upcoming
  exact ⟨same ▸ drop, same ▸ inside, same ▸ small⟩

theorem Upcoming.readBufferChar {conf : Config} {byte : UInt8}
    {rest : List UInt8} (upcoming : conf.Upcoming (byte :: rest)) :
    conf.readBufferChar = .ok (byte, conf.skip 1) := by
  have found : conf.adc.buffer[conf.adc.offset]? = some byte := by
    have head := congrArg (·[0]?) upcoming.drop
    simpa using head
  rw [Config.readBufferChar, found]

theorem ntohl_bytes (first second third fourth : UInt8) :
    ntohl (first.toNat + second.toNat * 2 ^ 8 + third.toNat * 2 ^ 16 +
        fourth.toNat * 2 ^ 24) =
      first.toNat * 2 ^ 24 + second.toNat * 2 ^ 16 + third.toNat * 2 ^ 8 +
        fourth.toNat := by
  have one := first.toNat_lt
  have two := second.toNat_lt
  have three := third.toNat_lt
  have four := fourth.toNat_lt
  generalize first.toNat = a at *
  generalize second.toNat = b at *
  generalize third.toNat = c at *
  generalize fourth.toNat = d at *
  have high : (a + b * 2 ^ 8 + c * 2 ^ 16 + d * 2 ^ 24) / 2 ^ 24 = d := by omega
  have next : (a + b * 2 ^ 8 + c * 2 ^ 16 + d * 2 ^ 24) / 2 ^ 16 % 256 = c := by
    omega
  have then' : (a + b * 2 ^ 8 + c * 2 ^ 16 + d * 2 ^ 24) / 2 ^ 8 % 256 = b := by
    omega
  have low : (a + b * 2 ^ 8 + c * 2 ^ 16 + d * 2 ^ 24) % 256 = a := by omega
  simp only [ntohl, ofLittleEndian, bigEndian32, List.map_cons, List.map_nil,
    UInt8.toNat_ofNat', Nat.ofDigits_cons, Nat.ofDigits_nil, high, next, then',
    low]
  omega

theorem ntohl_bigEndian (value : Nat) (bounded : value < 2 ^ 32) :
    ntohl ((UInt8.ofNat (value / 2 ^ 24)).toNat +
      (UInt8.ofNat (value / 2 ^ 16)).toNat * 2 ^ 8 +
      (UInt8.ofNat (value / 2 ^ 8)).toNat * 2 ^ 16 +
      (UInt8.ofNat value).toNat * 2 ^ 24) = value := by
  rw [ntohl_bytes]
  simp only [UInt8.toNat_ofNat']
  omega

theorem Upcoming.readBufferInt {conf : Config} {value : Nat}
    {rest : List UInt8} (upcoming : conf.Upcoming (bigEndian32 value ++ rest))
    (bounded : value < 2 ^ 32) :
    conf.readBufferInt = .ok (value, conf.skip 4) := by
  have drop := upcoming.drop
  simp only [bigEndian32, List.cons_append, List.nil_append] at drop
  simp only [Config.readBufferInt, drop, ntohl_bigEndian value bounded]

theorem Upcoming.peek {conf : Config} {data rest : List UInt8}
    (upcoming : conf.Upcoming (data ++ rest)) :
    conf.peek data.length = .ok data := by
  have length := upcoming.length
  rw [List.length_append] at length
  rw [Config.peek, if_pos (by omega), upcoming.drop, List.take_left]

/-! Each opcode function does what its instruction does, and moves past it. -/

theorem Upcoming.readSizedText {conf : Config} {text rest : List UInt8}
    (upcoming : conf.Upcoming (Instruction.sizedText text ++ rest))
    (fits : text.length < 2 ^ 8) :
    conf.readBufferChar = .ok (UInt8.ofNat text.length, conf.skip 1) ∧
      (UInt8.ofNat text.length).toNat = text.length ∧
      (conf.skip 1).Upcoming (text ++ rest) := by
  refine ⟨upcoming.readBufferChar, ?_, ?_⟩
  · rw [UInt8.toNat_ofNat']
    exact Nat.mod_eq_of_lt fits
  · exact @Upcoming.skip conf [UInt8.ofNat text.length] _ _ upcoming rfl

theorem Upcoming.opcodeHfString {conf : Config} {text rest : List UInt8}
    (upcoming : conf.Upcoming (Instruction.sizedText text ++ rest))
    (fits : text.length < 2 ^ 8) :
    conf.opcodeHfString =
      mapSkip (Instruction.sizedText text).length (conf.pushData text) := by
  obtain ⟨readSize, size, texts⟩ := upcoming.readSizedText fits
  simp only [Config.opcodeHfString, readSize, bind, Except.bind, size,
    texts.peek, pushData_skip]
  cases conf.pushData text with
  | error halt => rfl
  | ok conf =>
      simp only [mapSkip_ok, pure, Except.pure, skip_skip,
        Instruction.sizedText, List.length_cons, Nat.add_comm]

theorem Upcoming.opcodeHfHex {conf : Config} {values rest : List UInt8}
    (upcoming : conf.Upcoming (Instruction.sizedHex values ++ rest))
    (fits : values.length < 2 ^ 32) :
    conf.opcodeHfHex =
      mapSkip (Instruction.sizedHex values).length (conf.pushData values) := by
  rw [Instruction.sizedHex, List.append_assoc] at upcoming
  have texts := upcoming.skip (length_bigEndian32 _)
  simp only [Config.opcodeHfHex, upcoming.readBufferInt fits, bind,
    Except.bind, texts.peek, pushData_skip]
  cases conf.pushData values with
  | error halt => rfl
  | ok conf =>
      simp only [mapSkip_ok, pure, Except.pure, skip_skip,
        Instruction.sizedHex, List.length_append, length_bigEndian32]

theorem pushData_adc {conf next : Config} {data : List UInt8}
    (pushed : conf.pushData data = .ok next) : next.adc = conf.adc := by
  unfold pushData at pushed
  cases grown : conf.toBuffer.realloc data.length with
  | error halt => rw [grown] at pushed; cases pushed
  | ok buffer => rw [grown] at pushed; cases pushed; rfl

theorem fuzzCore_adc {fillSource : FillSource} {conf next : Config} {id : Nat}
    {filename : List UInt8} {weight : Nat} {fuzzed : Bool}
    (chosen : conf.fuzzCore fillSource id filename weight = .ok (fuzzed, next)) :
    next.adc = conf.adc := by
  unfold fuzzCore at chosen
  cases choice : conf.toSchedule.choose fillSource id filename weight with
  | error halt => rw [choice] at chosen; cases chosen
  | ok pair =>
      obtain ⟨source, schedule⟩ := pair
      simp only [choice, bind, Except.bind] at chosen
      cases source with
      | none => cases chosen; rfl
      | some source =>
          cases pushed :
              { conf with toSchedule := schedule }.pushData source.content with
          | error halt => simp only [pushed] at chosen; cases chosen
          | ok final =>
              simp only [pushed] at chosen
              cases chosen
              have kept := pushData_adc pushed
              exact kept

/-! A fuzz function reads its id and its file before it asks the schedule. -/

theorem Upcoming.readFuzz {conf : Config} {id : Nat}
    {filename rest : List UInt8}
    (upcoming : conf.Upcoming
      (bigEndian32 id ++ (Instruction.sizedText filename ++ rest)))
    (idFits : id < 2 ^ 32) (nameFits : filename.length < 2 ^ 8) :
    conf.readBufferInt = .ok (id, conf.skip 4) ∧
      (conf.skip 4).readBufferChar =
        .ok (UInt8.ofNat filename.length, conf.skip 5) ∧
      (UInt8.ofNat filename.length).toNat = filename.length ∧
      (conf.skip 5).peek filename.length = .ok filename ∧
      (conf.skip (5 + filename.length)).Upcoming rest := by
  have named := upcoming.skip (length_bigEndian32 _)
  obtain ⟨readSize, size, texts⟩ := named.readSizedText nameFits
  rw [skip_skip] at readSize texts
  have final := texts.skip rfl
  rw [skip_skip] at final
  exact ⟨upcoming.readBufferInt idFits, readSize, size, texts.peek, final⟩

theorem Upcoming.opcodeHfFuzzHex {fillSource : FillSource} {conf : Config}
    {id : Nat} {filename values rest : List UInt8}
    (upcoming : conf.Upcoming
      (bigEndian32 id ++ (Instruction.sizedText filename ++
        (Instruction.sizedHex values ++ rest))))
    (idFits : id < 2 ^ 32) (nameFits : filename.length < 2 ^ 8)
    (fits : values.length < 2 ^ 32) :
    conf.opcodeHfFuzzHex fillSource =
      mapSkip (5 + filename.length + (Instruction.sizedHex values).length)
        (conf.execute fillSource (.fuzzHex id filename values)) := by
  obtain ⟨readId, readSize, size, text, final⟩ :=
    upcoming.readFuzz idFits nameFits
  simp only [Config.opcodeHfFuzzHex, readId, bind, Except.bind, readSize, size,
    text, skip_skip, fuzzCore_skip, execute]
  cases chosen : conf.fuzzCore fillSource id filename 1 with
  | error halt => rfl
  | ok choice =>
      obtain ⟨fuzzed, next⟩ := choice
      have later : (next.skip (5 + filename.length)).Upcoming
          (Instruction.sizedHex values ++ rest) :=
        final.congr (by simp only [Config.skip, fuzzCore_adc chosen])
      cases fuzzed with
      | false =>
          simp only [Except.map, Bool.false_eq_true, if_false,
            later.opcodeHfHex fits, pushData_skip, mapSkip_mapSkip]
      | true =>
          rw [Instruction.sizedHex, List.append_assoc] at later
          simp only [Except.map, if_true, later.readBufferInt fits, pure,
            Except.pure, mapSkip_ok, skip_skip, Instruction.sizedHex,
            List.length_append, length_bigEndian32, Nat.add_assoc]

theorem Upcoming.opcodeHfFuzzString {fillSource : FillSource} {conf : Config}
    {id : Nat} {filename text rest : List UInt8}
    (upcoming : conf.Upcoming
      (bigEndian32 id ++ (Instruction.sizedText filename ++
        (Instruction.sizedText text ++ rest))))
    (idFits : id < 2 ^ 32) (nameFits : filename.length < 2 ^ 8)
    (fits : text.length < 2 ^ 8) :
    conf.opcodeHfFuzzString fillSource =
      mapSkip (5 + filename.length + (Instruction.sizedText text).length)
        (conf.execute fillSource (.fuzzString id filename text)) := by
  obtain ⟨readId, readSize, size, name, final⟩ :=
    upcoming.readFuzz idFits nameFits
  simp only [Config.opcodeHfFuzzString, readId, bind, Except.bind, readSize,
    size, name, skip_skip, fuzzCore_skip, execute]
  cases chosen : conf.fuzzCore fillSource id filename 0 with
  | error halt => rfl
  | ok choice =>
      obtain ⟨fuzzed, next⟩ := choice
      have later : (next.skip (5 + filename.length)).Upcoming
          (Instruction.sizedText text ++ rest) :=
        final.congr (by simp only [Config.skip, fuzzCore_adc chosen])
      cases fuzzed with
      | false =>
          simp only [Except.map, Bool.false_eq_true, if_false,
            later.opcodeHfString fits, pushData_skip, mapSkip_mapSkip]
      | true =>
          obtain ⟨readText, textSize, -⟩ := later.readSizedText fits
          simp only [Except.map, if_true, readText, textSize, pure,
            Except.pure, mapSkip_ok, skip_skip, Instruction.sizedText,
            List.length_cons, Nat.add_assoc, Nat.add_comm 1]

theorem execute_skip (fillSource : FillSource) (conf : Config) (size : Nat)
    (instruction : Instruction) :
    (conf.skip size).execute fillSource instruction =
      mapSkip size (conf.execute fillSource instruction) := by
  have fuzz : ∀ (id : Nat) (filename : List UInt8) (weight : Nat)
      (data : List UInt8),
      ((conf.skip size).fuzzCore fillSource id filename weight >>=
          fun (fuzzed, conf) =>
            if fuzzed then return conf else conf.pushData data) =
        mapSkip size (conf.fuzzCore fillSource id filename weight >>=
          fun (fuzzed, conf) =>
            if fuzzed then return conf else conf.pushData data) := by
    intro id filename weight data
    rw [fuzzCore_skip]
    cases conf.fuzzCore fillSource id filename weight with
    | error halt => rfl
    | ok choice =>
        obtain ⟨fuzzed, next⟩ := choice
        cases fuzzed with
        | false => exact pushData_skip next size data
        | true => rfl
  cases instruction with
  | hex values => exact pushData_skip conf size values
  | string text => exact pushData_skip conf size text
  | fuzzHex id filename values => exact fuzz id filename 1 values
  | fuzzString id filename text => exact fuzz id filename 0 text
  | blockSize type id => exact pushLength_skip conf size id type
  | blockCrc32 type id => exact pushHash_skip conf size id type
  | _ => rfl

theorem executeAll_skip (fillSource : FillSource) (conf : Config) (size : Nat)
    (instructions : List Instruction) :
    (conf.skip size).executeAll fillSource instructions =
      mapSkip size (conf.executeAll fillSource instructions) := by
  induction instructions generalizing conf with
  | nil => rfl
  | cons instruction instructions induction =>
      simp only [executeAll, execute_skip]
      cases conf.execute fillSource instruction with
      | error halt => rfl
      | ok next => exact induction next

/-! The instructions with a block number as their only operand. -/

theorem Upcoming.readId {conf : Config} {id : Nat} {rest : List UInt8}
    (upcoming : conf.Upcoming (bigEndian32 id ++ rest)) (idFits : id < 2 ^ 32)
    (action : Nat → Config → Except Halt Config)
    (moves : ∀ size, action id (conf.skip size) =
      mapSkip size (action id conf)) :
    (conf.readBufferInt >>= fun (id, conf) => action id conf) =
      mapSkip 4 (action id conf) := by
  simp only [upcoming.readBufferInt idFits, bind, Except.bind, moves]

theorem fetchInstruction_encode (fillSource : FillSource) {conf : Config}
    {instruction : Instruction} {rest : List UInt8}
    (upcoming : conf.Upcoming (instruction.encode ++ rest))
    (fits : instruction.Fits) :
    conf.fetchInstruction fillSource =
      mapSkip instruction.encode.length (conf.execute fillSource instruction) := by
  have read := Upcoming.readBufferChar upcoming
  have operands : (conf.skip 1).Upcoming (instruction.operands ++ rest) :=
    @Upcoming.skip conf [instruction.opcode.toByte] _ _ upcoming rfl
  have moves := execute_skip fillSource (conf.skip 1)
  simp only [fetchInstruction, read, bind, Except.bind, Opcode.ofByte?_toByte,
    Instruction.encode, List.length_cons, Nat.add_comm _ 1]
  rw [← mapSkip_mapSkip, ← execute_skip]
  cases instruction with
  | hex values => exact operands.opcodeHfHex fits
  | string text => exact operands.opcodeHfString fits
  | fuzzHex id filename values =>
      simp only [Instruction.operands, List.append_assoc] at operands
      simp only [Instruction.opcode, Instruction.operands]
      rw [operands.opcodeHfFuzzHex fits.1 fits.2.1 fits.2.2]
      congr 1
      simp only [Instruction.sizedText, List.length_append, List.length_cons,
        length_bigEndian32]
      omega
  | fuzzString id filename text =>
      simp only [Instruction.operands, List.append_assoc] at operands
      simp only [Instruction.opcode, Instruction.operands]
      rw [operands.opcodeHfFuzzString fits.1 fits.2.1 fits.2.2]
      congr 1
      simp only [Instruction.sizedText, List.length_append, List.length_cons,
        length_bigEndian32]
      omega
  | blockBegin id =>
      exact operands.readId fits
        (fun id conf => conf.execute fillSource (.blockBegin id))
        fun size => moves size _
  | blockEnd id =>
      exact operands.readId fits
        (fun id conf => conf.execute fillSource (.blockEnd id))
        fun size => moves size _
  | blockSize type id =>
      have action := operands.readId fits
        (fun id conf => conf.execute fillSource (.blockSize type id))
        fun size => moves size _
      cases type <;> exact action
  | blockCrc32 type id =>
      have action := operands.readId fits
        (fun id conf => conf.execute fillSource (.blockCrc32 type id))
        fun size => moves size _
      cases type <;> exact action
  | send id =>
      exact operands.readId fits
        (fun id conf => conf.execute fillSource (.send id))
        fun size => moves size _
  | recv id =>
      exact operands.readId fits
        (fun id conf => conf.execute fillSource (.recv id))
        fun size => moves size _

/-! The whole file: the parse loop executes the instructions in order, and its
turns never run out. -/

theorem execute_adc {fillSource : FillSource} {conf next : Config}
    {instruction : Instruction}
    (executed : conf.execute fillSource instruction = .ok next) :
    next.adc = conf.adc := by
  have fuzz : ∀ (id : Nat) (filename : List UInt8) (weight : Nat)
      (data : List UInt8),
      (conf.fuzzCore fillSource id filename weight >>= fun (fuzzed, conf) =>
        if fuzzed then return conf else conf.pushData data) = .ok next →
      next.adc = conf.adc := by
    intro id filename weight data executed
    cases chosen : conf.fuzzCore fillSource id filename weight with
    | error halt => rw [chosen] at executed; cases executed
    | ok choice =>
        obtain ⟨fuzzed, final⟩ := choice
        rw [chosen] at executed
        cases fuzzed with
        | false => exact (pushData_adc executed).trans (fuzzCore_adc chosen)
        | true => cases executed; exact fuzzCore_adc chosen
  cases instruction with
  | hex values => exact pushData_adc executed
  | string text => exact pushData_adc executed
  | fuzzHex id filename values => exact fuzz id filename 1 values executed
  | fuzzString id filename text => exact fuzz id filename 0 text executed
  | blockSize type id =>
      cases type with
      | s16 => cases executed; rfl
      | s10 => cases executed; rfl
      | _ =>
          have kept := pushData_adc executed
          exact kept
  | blockCrc32 type id =>
      have kept := pushData_adc executed
      exact kept
  | _ => cases executed; rfl

theorem executeAll_adc {fillSource : FillSource} {conf next : Config}
    {instructions : List Instruction}
    (executed : conf.executeAll fillSource instructions = .ok next) :
    next.adc = conf.adc := by
  induction instructions generalizing conf with
  | nil => cases executed; rfl
  | cons instruction instructions induction =>
      simp only [executeAll] at executed
      cases first : conf.execute fillSource instruction with
      | error halt => rw [first] at executed; cases executed
      | ok mid =>
          rw [first] at executed
          exact (induction executed).trans (execute_adc first)

theorem parse_bytecode (fillSource : FillSource) {conf : Config}
    {instructions : List Instruction} {turns : Nat}
    (upcoming : conf.Upcoming (bytecode instructions))
    (whole : conf.adc.size = conf.adc.buffer.length)
    (fits : ∀ instruction ∈ instructions, instruction.Fits)
    (enough : instructions.length ≤ turns) :
    conf.parse fillSource turns =
      mapSkip (bytecode instructions).length
        (conf.executeAll fillSource instructions) := by
  induction instructions generalizing conf turns with
  | nil =>
      have length := upcoming.length
      have finished : ¬ conf.adc.offset < conf.adc.size := by
        simp only [bytecode, List.flatMap_nil, List.length_nil] at length
        omega
      have still : conf.skip 0 = conf := by
        have small : conf.adc.offset < 2 ^ 32 :=
          Nat.lt_of_le_of_lt upcoming.inside upcoming.small
        rw [skip, Nat.add_zero, Nat.mod_eq_of_lt small]
      cases turns <;>
        simp [parse, finished, executeAll, bytecode, still]
  | cons instruction instructions induction =>
      cases turns with
      | zero => cases enough
      | succ turns =>
          have length := upcoming.length
          have positive := instruction.length_encode_pos
          simp only [bytecode, List.flatMap_cons, List.length_append] at length
          have more : conf.adc.offset < conf.adc.size := by omega
          have fetched := fetchInstruction_encode fillSource
            upcoming (fits instruction List.mem_cons_self)
          simp only [parse, more, if_true, fetched, executeAll, bind, Except.bind]
          cases executed : conf.execute fillSource instruction with
          | error halt => rfl
          | ok next =>
              have adc := execute_adc executed
              have later : (next.skip instruction.encode.length).Upcoming
                  (bytecode instructions) :=
                (upcoming.congr adc).skip rfl
              have result := @induction _ turns later
                (by simp only [skip, adc, whole])
                (fun other member => fits other (List.mem_cons_of_mem _ member))
                (Nat.le_of_succ_le_succ enough)
              simp only [mapSkip_ok, result, executeAll_skip, mapSkip_mapSkip,
                bytecode, List.flatMap_cons, List.length_append]

end Config

end Segvault.Autodafe
