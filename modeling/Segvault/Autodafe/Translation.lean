import Segvault.Autodafe.Adc
import Segvault.Layout

namespace Segvault.Autodafe

open Layout

/-! What an accepted script compiles to, once its blocks have numbers. -/

namespace Directive

def name? : Directive → Option QString
  | .blockBegin name => some name
  | .blockEnd name => some name
  | .blockSize _ name => some name
  | .blockCrc32 _ name => some name
  | .send name => some name
  | .recv name => some name
  | _ => none

def instruction (naming : QString → Nat) (fuzzId : Nat) :
    Directive → Instruction
  | .string text => .string text.bytes
  | .fuzzString one [] => .fuzzString fuzzId defaultFuzzStringFile one.bytes
  | .fuzzString one (two :: _) => .fuzzString fuzzId one.bytes two.bytes
  | .hex values => .hex values.values
  | .fuzzHex none values => .fuzzHex fuzzId defaultFuzzHexFile values.values
  | .fuzzHex (some filename) values =>
      .fuzzHex fuzzId filename.bytes values.values
  | .blockBegin name => .blockBegin (naming name)
  | .blockEnd name => .blockEnd (naming name)
  | .blockSize type name => .blockSize type (naming name)
  | .blockCrc32 type name => .blockCrc32 type (naming name)
  | .send name => .send (naming name)
  | .recv name => .recv (naming name)

def nextFuzzId (fuzzId : Nat) : Directive → Nat
  | .fuzzString .. => (fuzzId + 1) % 2 ^ 32
  | .fuzzHex .. => (fuzzId + 1) % 2 ^ 32
  | _ => fuzzId

def mark : Directive → Mark QString
  | .blockBegin name => .opens name
  | .blockEnd name => .closes name
  | _ => .plain

end Directive

def Instruction.mark : Instruction → Mark Nat
  | .blockBegin id => .opens id
  | .blockEnd id => .closes id
  | _ => .plain

def translate (naming : QString → Nat) : Nat → List Directive → List Instruction
  | _, [] => []
  | fuzzId, directive :: script =>
      directive.instruction naming fuzzId ::
        translate naming (directive.nextFuzzId fuzzId) script

theorem Directive.mark_instruction (naming : QString → Nat) (fuzzId : Nat)
    (directive : Directive) :
    (directive.instruction naming fuzzId).mark = directive.mark.map naming := by
  cases directive with
  | fuzzString one more => cases more <;> rfl
  | fuzzHex filename values => cases filename <;> rfl
  | _ => rfl

theorem Directive.mark_key {directive : Directive} {name : QString}
    (marked : directive.mark.key? = some name) :
    directive.name? = some name := by
  cases directive <;> first | exact marked | cases marked

@[simp] theorem length_translate (naming : QString → Nat) (fuzzId : Nat)
    (script : List Directive) :
    (translate naming fuzzId script).length = script.length := by
  induction script generalizing fuzzId with
  | nil => rfl
  | cons directive script induction => simp [translate, induction]

theorem getElem?_translate (naming : QString → Nat) (fuzzId : Nat) {index : Nat}
    {script : List Directive} {directive : Directive}
    (found : script[index]? = some directive) :
    ∃ fuzzId', (translate naming fuzzId script)[index]? =
      some (directive.instruction naming fuzzId') := by
  induction script generalizing fuzzId index with
  | nil => cases found
  | cons head script induction =>
      cases index with
      | zero => cases found; exact ⟨fuzzId, rfl⟩
      | succ index => exact induction _ found

theorem map_mark_translate (naming : QString → Nat) (fuzzId : Nat)
    (script : List Directive) :
    (translate naming fuzzId script).map Instruction.mark =
      script.map fun directive => directive.mark.map naming := by
  induction script generalizing fuzzId with
  | nil => rfl
  | cons directive script induction =>
      simp [translate, induction, Directive.mark_instruction]

theorem Directive.instruction_fits {naming : QString → Nat} {fuzzId : Nat}
    (named : ∀ name, naming name < 2 ^ 32) (counted : fuzzId < 2 ^ 32)
    (directive : Directive) : (directive.instruction naming fuzzId).Fits := by
  have short : ∀ text : QString, text.bytes.length < 2 ^ 8 := by
    intro text
    have size := text.size
    omega
  have strings : defaultFuzzStringFile.length < 2 ^ 8 := by decide
  have hexs : defaultFuzzHexFile.length < 2 ^ 8 := by decide
  cases directive with
  | string text => exact short text
  | fuzzString one more =>
      cases more with
      | nil => exact ⟨counted, strings, short one⟩
      | cons two more => exact ⟨counted, short one, short two⟩
  | hex values => exact values.size
  | fuzzHex filename values =>
      cases filename with
      | none => exact ⟨counted, hexs, values.size⟩
      | some filename => exact ⟨counted, short filename, values.size⟩
  | _ => exact named _

theorem translate_fits {naming : QString → Nat} {fuzzId : Nat}
    (named : ∀ name, naming name < 2 ^ 32) (counted : fuzzId < 2 ^ 32)
    (script : List Directive) :
    ∀ instruction ∈ translate naming fuzzId script, instruction.Fits := by
  induction script generalizing fuzzId with
  | nil => intro instruction member; cases member
  | cons directive script induction =>
      intro instruction member
      rcases List.mem_cons.mp member with rfl | member
      · exact directive.instruction_fits named counted
      · refine induction ?_ instruction member
        cases directive <;> simp only [Directive.nextFuzzId] <;> omega

/-! The block list of the parser: numbers count the blocks, names are unique. -/

def Numbered : List Block → Prop
  | [] => True
  | block :: previous =>
      block.id = (previous.length + 1) % 2 ^ 32 ∧ Numbered previous

theorem Numbered.bounds {blocks : List Block} (numbered : Numbered blocks)
    (few : blocks.length < 2 ^ 32) {block : Block} (member : block ∈ blocks) :
    0 < block.id ∧ block.id ≤ blocks.length := by
  induction blocks with
  | nil => cases member
  | cons head previous induction =>
      rw [List.length_cons] at few ⊢
      rcases List.mem_cons.mp member with rfl | member
      · have id := numbered.1
        omega
      · have bounds := induction numbered.2 (by omega) member
        omega

theorem Numbered.injective {blocks : List Block} (numbered : Numbered blocks)
    (few : blocks.length < 2 ^ 32) {first second : Block}
    (inFirst : first ∈ blocks) (inSecond : second ∈ blocks)
    (same : first.id = second.id) : first = second := by
  induction blocks with
  | nil => cases inFirst
  | cons head previous induction =>
      rw [List.length_cons] at few
      have id := numbered.1
      rcases List.mem_cons.mp inFirst with rfl | inFirst
      · rcases List.mem_cons.mp inSecond with rfl | inSecond
        · rfl
        · have bounds := numbered.2.bounds (by omega) inSecond
          omega
      · rcases List.mem_cons.mp inSecond with isHead | inSecond
        · have bounds := numbered.2.bounds (by omega) inFirst
          rw [isHead] at same
          omega
        · exact induction numbered.2 (by omega) inFirst inSecond

theorem Numbered.id_lt {blocks : List Block} (numbered : Numbered blocks)
    {block : Block} (member : block ∈ blocks) : block.id < 2 ^ 32 := by
  induction blocks with
  | nil => cases member
  | cons head previous induction =>
      rcases List.mem_cons.mp member with rfl | member
      · have id := numbered.1
        omega
      · exact induction numbered.2 member

namespace Adc

structure WellFormed (parser : Adc) : Prop where
  numbered : Numbered parser.lastBlock
  blockNumber : parser.blockNumber = (parser.lastBlock.length + 1) % 2 ^ 32
  fuzzId : parser.fuzzId < 2 ^ 32
  counted : parser.lastBlock.length ≤ parser.fileAdc.length

theorem wellFormed_start : WellFormed {} where
  numbered := trivial
  blockNumber := rfl
  fuzzId := by decide
  counted := Nat.le_refl 0

def id? (self : Adc) (name : QString) : Option Nat :=
  (self.blockCheck name).map Block.id

/-! Changing the flags of a block keeps its name and its number. -/

section ModifyBlock

variable {name : QString} {change : Block → Block} {blocks : List Block}

@[simp] theorem length_modifyBlock :
    (modifyBlock name change blocks).length = blocks.length := by
  induction blocks with
  | nil => rfl
  | cons block previous induction =>
      unfold modifyBlock
      split
      · rfl
      · simp [induction]

theorem numbered_modifyBlock (keeps : ∀ block, (change block).id = block.id)
    (numbered : Numbered blocks) :
    Numbered (modifyBlock name change blocks) := by
  induction blocks with
  | nil => trivial
  | cons block previous induction =>
      unfold modifyBlock
      split
      · exact ⟨(keeps block).trans numbered.1, numbered.2⟩
      · refine ⟨?_, induction numbered.2⟩
        rw [length_modifyBlock]
        exact numbered.1

theorem id?_modifyBlock (self : Adc) (other : QString)
    (keepsId : ∀ block, (change block).id = block.id)
    (keepsName : ∀ block, (change block).name = block.name) :
    id? { self with lastBlock := modifyBlock name change self.lastBlock } other =
      self.id? other := by
  simp only [id?, blockCheck]
  induction self.lastBlock with
  | nil => rfl
  | cons block previous induction =>
      unfold modifyBlock
      split
      · simp only [List.find?_cons, keepsName]
        split
        · simp [keepsId]
        · rfl
      · simp only [List.find?_cons]
        split
        · rfl
        · exact induction

end ModifyBlock

/-! What one directive does to the parser. -/

structure Steps (parser : Adc) (directive : Directive) (next : Adc) : Prop where
  wellFormed : next.WellFormed
  keeps : ∀ name id, parser.id? name = some id → next.id? name = some id
  fuzzId : next.fuzzId = directive.nextFuzzId parser.fuzzId
  writes : ∀ naming : QString → Nat,
    (∀ name id, directive.name? = some name → next.id? name = some id →
      naming name = id) →
    next.fileAdc = parser.fileAdc ++ [directive.instruction naming parser.fuzzId]
  named : ∀ name, directive.name? = some name →
    ∃ id, next.id? name = some id

theorem WellFormed.write {self : Adc} (wellFormed : self.WellFormed)
    (instruction : Instruction) : (self.write instruction).WellFormed where
  numbered := wellFormed.numbered
  blockNumber := wellFormed.blockNumber
  fuzzId := wellFormed.fuzzId
  counted := by
    have counted := wellFormed.counted
    simp only [Adc.write, List.length_append, List.length_singleton]
    omega

@[simp] theorem id?_write (self : Adc) (instruction : Instruction) :
    (self.write instruction).id? = self.id? := rfl

/-! Looking a block up, with or without adding or changing it. -/

structure Finds (parser : Adc) (name : QString) (next : Adc) (id : Nat) : Prop where
  numbered : Numbered next.lastBlock
  blockNumber : next.blockNumber = (next.lastBlock.length + 1) % 2 ^ 32
  fuzzId : next.fuzzId = parser.fuzzId
  fileAdc : next.fileAdc = parser.fileAdc
  counted : next.lastBlock.length ≤ parser.lastBlock.length + 1
  keeps : ∀ other id, parser.id? other = some id → next.id? other = some id
  found : next.id? name = some id

theorem WellFormed.finds {self : Adc} (wellFormed : self.WellFormed)
    {name : QString} {block : Block} (found : self.blockCheck name = some block) :
    Finds self name self block.id where
  numbered := wellFormed.numbered
  blockNumber := wellFormed.blockNumber
  fuzzId := rfl
  fileAdc := rfl
  counted := by omega
  keeps _ _ kept := kept
  found := by rw [id?, found, Option.map_some]

theorem WellFormed.finds_modify {self : Adc} (wellFormed : self.WellFormed)
    {name : QString} {block : Block} {change : Block → Block}
    (keepsId : ∀ block, (change block).id = block.id)
    (keepsName : ∀ block, (change block).name = block.name)
    (found : self.blockCheck name = some block) :
    Finds self name
      { self with lastBlock := modifyBlock name change self.lastBlock }
      block.id where
  numbered := numbered_modifyBlock keepsId wellFormed.numbered
  blockNumber := by
    rw [length_modifyBlock]
    exact wellFormed.blockNumber
  fuzzId := rfl
  fileAdc := rfl
  counted := by
    rw [length_modifyBlock]
    omega
  keeps other id kept := by rw [id?_modifyBlock self other keepsId keepsName, kept]
  found := by
    rw [id?_modifyBlock self name keepsId keepsName, id?, found, Option.map_some]

theorem WellFormed.finds_added {self : Adc} (wellFormed : self.WellFormed)
    {name : QString} (started : Bool) (missing : self.blockCheck name = none) :
    Finds self name (self.addBlock name started).1
      (self.addBlock name started).2 where
  numbered := ⟨wellFormed.blockNumber, wellFormed.numbered⟩
  blockNumber := by
    have number := wellFormed.blockNumber
    simp only [addBlock, List.length_cons]
    omega
  fuzzId := rfl
  fileAdc := rfl
  counted := by simp [addBlock]
  keeps other id kept := by
    have different : name ≠ other := by
      rintro rfl
      rw [id?, missing] at kept
      cases kept
    simpa [id?, blockCheck, addBlock, different] using kept
  found := by simp [id?, blockCheck, addBlock]

theorem WellFormed.blockSizeCheck_finds {self : Adc}
    (wellFormed : self.WellFormed) (name : QString) :
    Finds self name (self.blockSizeCheck name).1
      (self.blockSizeCheck name).2 := by
  unfold blockSizeCheck
  split
  · next block found => exact wellFormed.finds found
  · next missing => exact wellFormed.finds_added false missing

theorem WellFormed.blockNew_finds {self next : Adc} {id : Nat}
    (wellFormed : self.WellFormed) {name : QString}
    (created : self.blockNew name = some (next, id)) :
    Finds self name next id := by
  unfold blockNew at created
  split at created
  · next block found =>
      split at created
      · cases created
      · cases created
        exact wellFormed.finds_modify (fun _ => rfl) (fun _ => rfl) found
  · next missing =>
      cases created
      exact wellFormed.finds_added true missing

theorem WellFormed.blockEnd_finds {self next : Adc} {id : Nat}
    (wellFormed : self.WellFormed) {name : QString}
    (ended : self.blockEnd name = some (next, id)) :
    Finds self name next id := by
  unfold blockEnd at ended
  split at ended
  · next block found =>
      cases ended
      exact wellFormed.finds_modify (fun _ => rfl) (fun _ => rfl) found
  · cases ended

theorem WellFormed.blockCheckSend_finds {self : Adc} {id : Nat}
    (wellFormed : self.WellFormed) {name : QString}
    (checked : self.blockCheckSend name = some id) :
    Finds self name self id := by
  unfold blockCheckSend at checked
  split at checked
  · cases checked
  · next block found =>
      split at checked
      · cases checked
      · split at checked
        · cases checked
        · cases checked
          exact wellFormed.finds found

theorem Finds.steps {self next : Adc} {directive : Directive} {name : QString}
    {id : Nat} (finds : Finds self name next id)
    (wellFormed : self.WellFormed) {instruction : Nat → Instruction}
    (named : directive.name? = some name)
    (fuzzId : directive.nextFuzzId self.fuzzId = self.fuzzId)
    (shape : ∀ naming : QString → Nat,
      directive.instruction naming self.fuzzId = instruction (naming name)) :
    Steps self directive (next.write (instruction id)) where
  wellFormed :=
    { numbered := finds.numbered
      blockNumber := finds.blockNumber
      fuzzId := by
        simp only [Adc.write, finds.fuzzId]
        exact wellFormed.fuzzId
      counted := by
        have counted := finds.counted
        have before := wellFormed.counted
        simp only [Adc.write, finds.fileAdc, List.length_append,
          List.length_singleton]
        omega }
  keeps := finds.keeps
  fuzzId := by
    rw [fuzzId]
    exact finds.fuzzId
  writes naming agrees := by
    simp only [Adc.write, finds.fileAdc, shape,
      agrees name id named finds.found]
  named other isNamed := by
    cases named.symm.trans isNamed
    exact ⟨id, finds.found⟩

theorem WellFormed.plain_steps {self : Adc} (wellFormed : self.WellFormed)
    {directive : Directive} (unnamed : directive.name? = none)
    {instruction : Instruction}
    (shape : ∀ naming, directive.instruction naming self.fuzzId = instruction)
    (fuzzId : directive.nextFuzzId self.fuzzId = self.fuzzId) :
    Steps self directive (self.write instruction) where
  wellFormed := wellFormed.write instruction
  keeps _ _ kept := kept
  fuzzId := fuzzId.symm
  writes naming _ := by rw [shape]; rfl
  named name isNamed := by cases unnamed.symm.trans isNamed

theorem WellFormed.fuzz_steps {self : Adc} (wellFormed : self.WellFormed)
    {directive : Directive} (unnamed : directive.name? = none)
    {instruction : Instruction}
    (shape : ∀ naming, directive.instruction naming self.fuzzId = instruction)
    (fuzzId : directive.nextFuzzId self.fuzzId = (self.fuzzId + 1) % 2 ^ 32) :
    Steps self directive (self.write instruction).nextFuzzId where
  wellFormed :=
    { (wellFormed.write instruction) with
      fuzzId := Nat.mod_lt _ (by decide) }
  keeps _ _ kept := kept
  fuzzId := fuzzId.symm
  writes naming _ := by rw [shape]; rfl
  named name isNamed := by cases unnamed.symm.trans isNamed

theorem function_steps {self next : Adc} {directive : Directive}
    (wellFormed : self.WellFormed)
    (stepped : self.function directive = some next) :
    Steps self directive next := by
  cases directive with
  | string text =>
      cases stepped
      exact wellFormed.plain_steps rfl (fun _ => rfl) rfl
  | hex values =>
      cases stepped
      exact wellFormed.plain_steps rfl (fun _ => rfl) rfl
  | fuzzString one more =>
      rcases more with _ | ⟨two, _ | ⟨three, more⟩⟩
      · cases stepped
        exact wellFormed.fuzz_steps rfl (fun _ => rfl) rfl
      · cases stepped
        exact wellFormed.fuzz_steps rfl (fun _ => rfl) rfl
      · cases stepped
  | fuzzHex filename values =>
      cases filename <;> cases stepped <;>
        exact wellFormed.fuzz_steps rfl (fun _ => rfl) rfl
  | blockBegin name =>
      obtain ⟨⟨found, id⟩, created, rfl⟩ := Option.map_eq_some_iff.mp stepped
      exact (wellFormed.blockNew_finds created).steps wellFormed rfl rfl
        (fun _ => rfl)
  | blockEnd name =>
      obtain ⟨⟨found, id⟩, ended, rfl⟩ := Option.map_eq_some_iff.mp stepped
      exact (wellFormed.blockEnd_finds ended).steps wellFormed rfl rfl
        (fun _ => rfl)
  | blockSize type name =>
      cases stepped
      exact (wellFormed.blockSizeCheck_finds name).steps wellFormed rfl rfl
        (fun _ => rfl)
  | blockCrc32 type name =>
      cases stepped
      exact (wellFormed.blockSizeCheck_finds name).steps wellFormed rfl rfl
        (fun _ => rfl)
  | send name =>
      obtain ⟨id, checked, rfl⟩ := Option.map_eq_some_iff.mp stepped
      exact (wellFormed.blockCheckSend_finds checked).steps wellFormed rfl rfl
        (fun _ => rfl)
  | recv name =>
      obtain ⟨id, checked, rfl⟩ := Option.map_eq_some_iff.mp stepped
      exact (wellFormed.blockCheckSend_finds checked).steps wellFormed rfl rfl
        (fun _ => rfl)

def naming (self : Adc) (name : QString) : Nat :=
  (self.id? name).getD 0

theorem foldlM_translates {script : List Directive} {self final : Adc}
    (wellFormed : self.WellFormed)
    (parsed : script.foldlM Adc.function self = some final) :
    final.WellFormed ∧
      (∀ name id, self.id? name = some id → final.id? name = some id) ∧
      (∀ directive ∈ script, ∀ name, directive.name? = some name →
        ∃ id, final.id? name = some id) ∧
      final.fileAdc =
        self.fileAdc ++ translate final.naming self.fuzzId script := by
  induction script generalizing self with
  | nil =>
      cases parsed
      refine ⟨wellFormed, fun _ _ kept => kept, ?_, ?_⟩
      · intro directive member
        cases member
      · simp [translate]
  | cons directive script induction =>
      rw [List.foldlM_cons] at parsed
      obtain ⟨next, stepped, rest⟩ := Option.bind_eq_some_iff.mp parsed
      have steps := function_steps wellFormed stepped
      obtain ⟨wellFormed, keeps, named, writes⟩ :=
        induction steps.wellFormed rest
      refine ⟨wellFormed, ?_, ?_, ?_⟩
      · intro name id found
        exact keeps name id (steps.keeps name id found)
      · intro other member name isNamed
        rcases List.mem_cons.mp member with rfl | member
        · obtain ⟨id, found⟩ := steps.named name isNamed
          exact ⟨id, keeps name id found⟩
        · exact named other member name isNamed
      · rw [writes, steps.fuzzId, steps.writes final.naming, translate,
          List.append_assoc, List.singleton_append]
        intro name id isNamed found
        rw [naming, keeps name id found, Option.getD_some]

end Adc

/-! An accepted script is translated instruction by instruction, with one
number for each block name. -/

structure Translation (script : List Directive)
    (instructions : List Instruction) where
  naming : QString → Nat
  bounded : ∀ name, naming name < 2 ^ 32
  injective : ∀ {first second : QString},
    (∃ directive ∈ script, directive.name? = some first) →
    (∃ directive ∈ script, directive.name? = some second) →
    naming first = naming second → first = second
  translated : instructions = translate naming 0 script

theorem adc_translation {script : List Directive}
    {instructions : List Instruction}
    (accepted : adc script = some instructions)
    (small : (bytecode instructions).length < 2 ^ 32) :
    Nonempty (Translation script instructions) := by
  unfold adc at accepted
  split at accepted
  · cases accepted
  · next final parsed =>
      split at accepted
      · cases accepted
        obtain ⟨wellFormed, -, named, writes⟩ :=
          Adc.foldlM_translates Adc.wellFormed_start parsed
        have few : final.lastBlock.length < 2 ^ 32 := by
          have counted := wellFormed.counted
          have written := length_le_bytecode final.fileAdc
          omega
        refine ⟨⟨final.naming, ?_, ?_, ?_⟩⟩
        · intro name
          unfold Adc.naming Adc.id? Adc.blockCheck
          cases found : final.lastBlock.find? fun block => block.name = name with
          | none => exact Nat.two_pow_pos 32
          | some block =>
              exact wellFormed.numbered.id_lt (List.mem_of_find?_eq_some found)
        · rintro first second ⟨one, inScript, isFirst⟩ ⟨two, member, isSecond⟩ same
          obtain ⟨firstId, foundFirst⟩ := named one inScript first isFirst
          obtain ⟨secondId, foundSecond⟩ := named two member second isSecond
          rw [Adc.naming, Adc.naming, foundFirst, foundSecond] at same
          obtain ⟨block, atFirst, rfl⟩ := Option.map_eq_some_iff.mp foundFirst
          obtain ⟨other, atSecond, rfl⟩ := Option.map_eq_some_iff.mp foundSecond
          have equal : block = other :=
            wellFormed.numbered.injective few
              (List.mem_of_find?_eq_some atFirst)
              (List.mem_of_find?_eq_some atSecond) same
          have firstName := List.find?_some atFirst
          have secondName := List.find?_some atSecond
          rw [equal] at firstName
          exact (of_decide_eq_true firstName).symm.trans
            (of_decide_eq_true secondName)
        · exact writes
      · cases accepted

end Segvault.Autodafe
