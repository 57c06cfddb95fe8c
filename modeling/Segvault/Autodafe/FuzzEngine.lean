import Segvault.Autodafe.BlockLookups
import Segvault.Autodafe.FuzzSchedule
import Segvault.Autodafe.RoundTrip

namespace Segvault.Autodafe

open Bytes Layout Config

/-! The loop of the engine: a pass after the other, until no source is left. -/

/-- What is outside the engine, by the number of the pass. -/
structure Environment where
  invert : Nat
  type : Nat
  connected : Nat → Bool
  peer : Nat → Peer
  memory : Nat → Memory

/-- Every connection is made, and no exchange ends in an error. -/
def Environment.Quiet (self : Environment) : Prop :=
  ∀ pass, self.connected pass = true ∧ (self.peer pass).Quiet

def Environment.startFuzz (self : Environment) (pass : Nat) (conf : Config) :
    Except Halt Int :=
  if self.connected pass then
    parseChrono (self.peer pass) self.invert self.type conf.block 0 conf.chrono
  else .ok (-1)

inductive Ending
  | running
  | returned
  | halted (halt : Halt)
  deriving DecidableEq, Repr

/-- The configurations in which the passes start, and how the loop ends. -/
def fuzzEngine (fillSource : FillSource) (environment : Environment) :
    Nat → Nat → Config → List Config × Ending
  | 0, _, _ => ([], .running)
  | turns + 1, pass, conf =>
      match conf.packet fillSource with
      | .error halt => ([conf], .halted halt)
      | .ok sent =>
          match environment.startFuzz pass sent with
          | .error halt => ([conf], .halted halt)
          | .ok result =>
              if sent.fuzzFinished || result == -1 then ([conf], .returned)
              else
                let (starts, ending) := fuzzEngine fillSource environment turns (pass + 1)
                  (sent.nextPass StructFuzz.weight (environment.memory (pass + 1)))
                (conf :: starts, ending)

/-! The files of a script, what they are used for, and what the passes push. -/

def Directive.fuzzFile? : Directive → Option (List UInt8)
  | .fuzzString _ [] => some defaultFuzzStringFile
  | .fuzzString one (_ :: _) => some one.bytes
  | .fuzzHex none _ => some defaultFuzzHexFile
  | .fuzzHex (some filename) _ => some filename.bytes
  | _ => none

def fuzzFiles (script : List Directive) : List (List UInt8) :=
  script.filterMap Directive.fuzzFile?

def allUses (fillSource : FillSource) (script : List Directive) : List Use :=
  ((fuzzFiles script).mapIdx fun field filename =>
    usesOf field ((fillSource filename).getD [])).flatten

def passPieces (instructions : List Instruction) (use : Option Use) : List (List UInt8) :=
  instructions.filterMap (Instruction.pushed use)

/-- The buffer takes a packet that starts at this size. -/
def Takes (size : Nat) (pieces : List (List UInt8)) : Prop :=
  size + pieces.flatten.length < 2 ^ 32 ∧ ¬ (size = 0 ∧ pieces.take 2 = [[], []])

instance (size : Nat) (pieces : List (List UInt8)) : Decidable (Takes size pieces) :=
  inferInstanceAs (Decidable (_ ∧ _))

-- the size of the buffer goes on from pass to pass
def Room : Nat → List (List (List UInt8)) → Prop
  | _, [] => True
  | size, pieces :: passes =>
      Takes size pieces ∧ Room (size + pieces.flatten.length) passes

/-- Every block that is sent or received is begun. -/
def TransfersBegun (script : List Directive) : Prop :=
  ∀ name, .send name ∈ script ∨ .recv name ∈ script → .blockBegin name ∈ script

/-- Every pair of a field and a source, once, in one pass each, after a plain pass. -/
def Scheduled (fillSource : FillSource) (script : List Directive)
    (instructions : List Instruction) (starts : List Config) : Prop :=
  starts.map (fun conf => conf.toSchedule.uses fillSource instructions) =
    [] :: (allUses fillSource script).map fun use => [use]

structure Runnable (fillSource : FillSource) (script : List Directive)
    (instructions : List Instruction) : Prop where
  readable : ∀ filename ∈ fuzzFiles script, ∃ source, fillSource filename = some source
  begun : TransfersBegun script
  room : Room 0 ((none :: (allUses fillSource script).map some).map
    (passPieces instructions))

/-! The fields of the instructions are those of the script, numbered in order. -/

theorem Directive.field_instruction (naming : QString → Nat) (fuzzId : Nat)
    (directive : Directive) :
    (directive.instruction naming fuzzId).fuzzField? =
      directive.fuzzFile?.map fun filename => (fuzzId, filename) := by
  cases directive with
  | fuzzString one more => cases more <;> rfl
  | fuzzHex filename values => cases filename <;> rfl
  | _ => rfl

theorem Directive.nextFuzzId_none {directive : Directive}
    (plain : directive.fuzzFile? = none) (fuzzId : Nat) :
    directive.nextFuzzId fuzzId = fuzzId := by
  cases directive with
  | fuzzString one more => cases more <;> cases plain
  | fuzzHex filename values => cases filename <;> cases plain
  | _ => rfl

theorem Directive.nextFuzzId_some {directive : Directive} {filename : List UInt8}
    (fuzzed : directive.fuzzFile? = some filename) (fuzzId : Nat) :
    directive.nextFuzzId fuzzId = (fuzzId + 1) % 2 ^ 32 := by
  cases directive with
  | fuzzString one more => rfl
  | fuzzHex file values => rfl
  | _ => cases fuzzed

theorem fields_translate (naming : QString → Nat) {script : List Directive} {fuzzId : Nat}
    (few : fuzzId + (fuzzFiles script).length < 2 ^ 32) :
    (translate naming fuzzId script).filterMap Instruction.fuzzField? =
      (fuzzFiles script).mapIdx fun field filename => (fuzzId + field, filename) := by
  induction script generalizing fuzzId with
  | nil => rfl
  | cons directive script induction =>
      rw [translate, List.filterMap_cons, Directive.field_instruction]
      rw [fuzzFiles, List.filterMap_cons] at few ⊢
      cases file : directive.fuzzFile? with
      | none =>
          rw [file] at few
          rw [Directive.nextFuzzId_none file]
          exact induction few
      | some filename =>
          rw [file] at few
          rw [List.length_cons] at few
          rw [Directive.nextFuzzId_some file, Nat.mod_eq_of_lt (by omega)]
          have rest := @induction (fuzzId + 1) (by rw [fuzzFiles]; omega)
          dsimp only [Option.map_some]
          rw [rest, List.mapIdx_cons, fuzzFiles]
          simp only [Nat.add_zero, Nat.add_assoc, Nat.add_comm 1]

section Script

variable {fillSource : FillSource} {script : List Directive}
  {instructions : List Instruction} (translation : Translation script instructions)
  (short : (bytecode instructions).length < 2 ^ 32)

include translation short

theorem few_files : (fuzzFiles script).length < 2 ^ 32 := by
  have files : (fuzzFiles script).length ≤ script.length := List.length_filterMap_le ..
  have written := length_le_bytecode instructions
  have same := congrArg List.length translation.translated
  rw [length_translate] at same
  omega

theorem fields_script :
    instructions.filterMap Instruction.fuzzField? =
      (fuzzFiles script).mapIdx fun field filename => (field, filename) := by
  have few := few_files translation short
  rw [translation.translated, fields_translate translation.naming (by omega)]
  simp only [Nat.zero_add]

theorem ids_script :
    instructions.filterMap Instruction.fuzzId? =
      List.range' 0 (fuzzFiles script).length := by
  have ids : instructions.filterMap Instruction.fuzzId? =
      (instructions.filterMap Instruction.fuzzField?).map Prod.fst := by
    rw [List.map_filterMap]
    exact congrArg (fun field => instructions.filterMap field)
      (funext Schedule.fuzzId_field)
  rw [ids, fields_script translation short]
  apply List.ext_getElem
  · simp
  · intro place _ _
    simp

theorem uses_script :
    ((instructions.filterMap Instruction.fuzzField?).flatMap
      fun field => usesOf field.1 ((fillSource field.2).getD [])) =
      allUses fillSource script := by
  rw [fields_script translation short, List.flatMap_def, allUses]
  congr 1
  apply List.ext_getElem
  · simp
  · intro place _ _
    simp

theorem readable_script :
    (∃ field ∈ instructions.filterMap Instruction.fuzzField?, fillSource field.2 = none) ↔
      ¬ ∀ filename ∈ fuzzFiles script, ∃ source, fillSource filename = some source := by
  rw [fields_script translation short]
  constructor
  · rintro ⟨field, member, missing⟩ readable
    obtain ⟨place, bound, rfl⟩ := List.mem_iff_getElem.mp member
    rw [List.length_mapIdx] at bound
    rw [List.getElem_mapIdx] at missing
    obtain ⟨source, found⟩ := readable _ (List.getElem_mem bound)
    rw [found] at missing
    cases missing
  · intro unreadable
    simp only [not_forall] at unreadable
    obtain ⟨filename, member, missing⟩ := unreadable
    obtain ⟨place, bound, rfl⟩ := List.mem_iff_getElem.mp member
    refine ⟨(place, (fuzzFiles script)[place]), ?_, ?_⟩
    · refine List.mem_iff_getElem.mpr ⟨place, by rw [List.length_mapIdx]; exact bound, ?_⟩
      rw [List.getElem_mapIdx]
    · cases found : fillSource (fuzzFiles script)[place] with
      | none => rfl
      | some source => exact absurd ⟨source, found⟩ missing

end Script

/-! One pass, in terms of what it pushes. -/

theorem toSchedule_nextPass (sent : Config) (memory : Memory) :
    (sent.nextPass StructFuzz.weight memory).toSchedule = sent.toSchedule := by
  have same : (fun fuzz : StructFuzz => { fuzz with weight := StructFuzz.weight fuzz }) = id :=
    rfl
  rw [nextPass]
  dsimp only
  rw [same, List.map_id]

theorem reduceOption_pushed (instructions : List Instruction) (use : Option Use) :
    (instructions.map (Instruction.pushed use)).reduceOption =
      passPieces instructions use := by
  rw [List.reduceOption, List.filterMap_map]
  rfl

section Pass

variable {fillSource : FillSource} {instructions : List Instruction} {conf : Config}
  {sources : List (Option StructSource)} {final : Schedule} {use : Option Use}
  (ready : conf.Ready instructions) (short : (bytecode instructions).length < 2 ^ 32)
  (fits : ∀ instruction ∈ instructions, instruction.Fits)
  (fresh : conf.allocated = false)
  (chosen : conf.toSchedule.sources fillSource instructions = .ok (sources, final))
  (pushed : pushes instructions sources = instructions.map (Instruction.pushed use))

include fresh pushed in
theorem takes_iff (small : conf.bufFuzzSize < 2 ^ 32) :
    (∃ grown, conf.toBuffer.takeAll (pushes instructions sources) = .ok grown) ↔
      Takes conf.bufFuzzSize (passPieces instructions use) := by
  rw [Buffer.takeAll_iff _ small, pushed, reduceOption_pushed, Buffer.Frees, fresh, Takes]
  simp only [Bool.false_eq_true, false_and, false_or]

include ready short fits fresh chosen pushed

theorem packet_takes (takes : Takes conf.bufFuzzSize (passPieces instructions use)) :
    ∃ sent, conf.packet fillSource = .ok sent ∧ sent.toSchedule = final ∧
      sent.bufFuzzSize = conf.bufFuzzSize + (passPieces instructions use).flatten.length := by
  obtain ⟨grown, taken⟩ := (takes_iff fresh pushed ready.small).mpr takes
  have planned := packet_plan fillSource ready short fits
  rw [plan_sources chosen, taken] at planned
  obtain ⟨next, done, -⟩ := planned
  refine ⟨_, done, ?_⟩
  obtain ⟨again, other, passed⟩ := packet_passed ready short fits done
  have same := passed.chosen
  rw [chosen] at same
  cases same
  refine ⟨rfl, ?_⟩
  rw [Buffer.takeAll_size passed.grown, pushed, reduceOption_pushed]

theorem packet_stops (full : ¬ Takes conf.bufFuzzSize (passPieces instructions use)) :
    ∃ halt, conf.packet fillSource = .error halt := by
  have broken := (takes_iff fresh pushed ready.small).not.mpr full
  have planned := packet_plan fillSource ready short fits
  rw [plan_sources chosen] at planned
  cases taken : conf.toBuffer.takeAll (pushes instructions sources) with
  | ok grown => exact absurd ⟨grown, taken⟩ broken
  | error halt =>
      rw [taken] at planned
      exact ⟨halt, planned⟩

end Pass

/-! The transmission of a completed pass. -/

section Transmission

variable {script : List Directive} {instructions : List Instruction}
  {translation : Translation script instructions} {sent : Config}

theorem Completed.chronos_iff (done : Completed translation sent) :
    (∀ chrono ∈ sent.chrono, ∃ block, sent.findBlock chrono.id = some block) ↔
      TransfersBegun script := by
  rw [done.chrono]
  constructor
  · intro found name transferred
    obtain ⟨directive, inScript, used, chrono, isChrono, named⟩ :
        ∃ directive ∈ script, directive.uses = some name ∧
          ∃ chrono, (∀ number, chronoOf (directive.instruction translation.naming number) =
            some chrono) ∧ chrono.id = translation.naming name := by
      cases transferred with
      | inl sends => exact ⟨_, sends, rfl, ⟨_, .send⟩, fun _ => rfl, rfl⟩
      | inr receives => exact ⟨_, receives, rfl, ⟨_, .recv⟩, fun _ => rfl, rfl⟩
    obtain ⟨number, inside⟩ :=
      @mem_translate translation.naming 0 script directive inScript
    rw [← translation.translated] at inside
    rw [← done.found inScript used, ← named]
    exact found chrono (List.mem_filterMap.mpr ⟨_, inside, isChrono number⟩)
  · intro begun chrono member
    obtain ⟨instruction, inside, isChrono⟩ := List.mem_filterMap.mp member
    rw [translation.translated] at inside
    obtain ⟨directive, inScript, number, rfl⟩ := of_mem_translate inside
    cases directive with
    | send name =>
        cases isChrono
        exact (done.found inScript rfl).mpr (begun name (.inl inScript))
    | recv name =>
        cases isChrono
        exact (done.found inScript rfl).mpr (begun name (.inr inScript))
    | fuzzString one more => cases more <;> cases isChrono
    | fuzzHex filename values => cases filename <;> cases isChrono
    | _ => cases isChrono

theorem Environment.Quiet.startFuzz {environment : Environment} (quiet : environment.Quiet)
    (done : Completed translation sent) (begun : TransfersBegun script) (pass : Nat) :
    ∃ result, environment.startFuzz pass sent = .ok result ∧ result ≠ -1 := by
  obtain ⟨connected, calm⟩ := quiet pass
  obtain ⟨result, parsed, fine⟩ := parseChrono_found 0 (done.chronos_iff.mpr begun)
  exact ⟨result, by rw [Environment.startFuzz, if_pos connected, parsed], fine calm⟩

end Transmission

/-! The loop returns after these starts. -/

def Returns (fillSource : FillSource) (environment : Environment) (pass : Nat)
    (conf : Config) (starts : List Config) : Prop :=
  ∃ turns, fuzzEngine fillSource environment turns pass conf = (starts, .returned)

section Returns

variable {fillSource : FillSource} {environment : Environment} {pass : Nat}
  {conf sent : Config}

theorem Returns.completes {starts : List Config}
    (returns : Returns fillSource environment pass conf starts) :
    ∃ sent result, conf.packet fillSource = .ok sent ∧
      environment.startFuzz pass sent = .ok result := by
  obtain ⟨turns, ran⟩ := returns
  cases turns with
  | zero => cases ran
  | succ turns =>
      rw [fuzzEngine] at ran
      cases made : conf.packet fillSource with
      | error halt => rw [made] at ran; cases ran
      | ok sent =>
          rw [made] at ran
          dsimp only at ran
          cases transmitted : environment.startFuzz pass sent with
          | error halt => rw [transmitted] at ran; cases ran
          | ok result => exact ⟨sent, result, rfl, transmitted⟩

variable {result : Int} (made : conf.packet fillSource = .ok sent)
  (transmitted : environment.startFuzz pass sent = .ok result)

include made transmitted

theorem returns_last (finished : sent.fuzzFinished = true) (starts : List Config) :
    Returns fillSource environment pass conf starts ↔ starts = [conf] := by
  have step : ∀ turns, fuzzEngine fillSource environment (turns + 1) pass conf =
      ([conf], .returned) := by
    intro turns
    rw [fuzzEngine, made]
    dsimp only
    rw [transmitted]
    simp only [finished, Bool.true_or, if_true]
  constructor
  · rintro ⟨turns, ran⟩
    cases turns with
    | zero => cases ran
    | succ turns =>
        rw [step] at ran
        cases ran
        rfl
  · rintro rfl
    exact ⟨1, step 0⟩

theorem returns_next (unfinished : sent.fuzzFinished = false) (fine : result ≠ -1)
    (starts : List Config) :
    Returns fillSource environment pass conf starts ↔
      ∃ rest, starts = conf :: rest ∧ Returns fillSource environment (pass + 1)
        (sent.nextPass StructFuzz.weight (environment.memory (pass + 1))) rest := by
  have step : ∀ turns, fuzzEngine fillSource environment (turns + 1) pass conf =
      (conf :: (fuzzEngine fillSource environment turns (pass + 1)
          (sent.nextPass StructFuzz.weight (environment.memory (pass + 1)))).1,
        (fuzzEngine fillSource environment turns (pass + 1)
          (sent.nextPass StructFuzz.weight (environment.memory (pass + 1)))).2) := by
    intro turns
    rw [fuzzEngine, made]
    dsimp only
    rw [transmitted]
    simp only [unfinished, Bool.false_or, beq_iff_eq, fine, if_false]
  constructor
  · rintro ⟨turns, ran⟩
    cases turns with
    | zero => cases ran
    | succ turns =>
        rw [step] at ran
        obtain ⟨rfl, ending⟩ := Prod.mk.inj ran
        exact ⟨_, rfl, turns, Prod.ext rfl ending⟩
  · rintro ⟨rest, rfl, turns, ran⟩
    refine ⟨turns + 1, ?_⟩
    rw [step, ran]

end Returns

/-! A pass of a run. -/

section Run

variable {fillSource : FillSource} {script : List Directive}
  {instructions : List Instruction} (translation : Translation script instructions)
  (short : (bytecode instructions).length < 2 ^ 32)
  (fits : ∀ instruction ∈ instructions, instruction.Fits)
  {environment : Environment} (quiet : environment.Quiet) (begun : TransfersBegun script)

section Pass

variable {conf : Config} {sources : List (Option StructSource)} {final : Schedule}
  {use : Option Use} (started : PassStart fillSource (bytecode instructions) conf)
  (chosen : conf.toSchedule.sources fillSource instructions = .ok (sources, final))
  (pushed : pushes instructions sources = instructions.map (Instruction.pushed use))

include short fits started chosen pushed

theorem Returns.takes {pass : Nat} {starts : List Config}
    (returns : Returns fillSource environment pass conf starts) :
    Takes conf.bufFuzzSize (passPieces instructions use) := by
  by_contra full
  obtain ⟨halt, stopped⟩ := packet_stops (passStart_ready short fits started) short fits
    (passStart_fresh started).2 chosen pushed full
  obtain ⟨sent, result, made, -⟩ := returns.completes
  rw [stopped] at made
  cases made

include translation quiet begun

variable (takes : Takes conf.bufFuzzSize (passPieces instructions use)) (pass : Nat)

include takes

theorem last_pass (finished : final.left = []) (starts : List Config) :
    Returns fillSource environment pass conf starts ↔ starts = [conf] := by
  obtain ⟨sent, made, rfl, -⟩ := packet_takes (passStart_ready short fits started) short fits
    (passStart_fresh started).2 chosen pushed takes
  obtain ⟨result, transmitted, -⟩ :=
    quiet.startFuzz (completed translation short started made) begun pass
  exact returns_last made transmitted (sent.fuzzFinished_iff.mpr finished) starts

theorem next_pass (unfinished : final.left ≠ []) :
    ∃ next, PassStart fillSource (bytecode instructions) next ∧ next.toSchedule = final ∧
      next.bufFuzzSize =
        conf.bufFuzzSize + (passPieces instructions use).flatten.length ∧
      ∀ starts, Returns fillSource environment pass conf starts ↔
        ∃ rest, starts = conf :: rest ∧
          Returns fillSource environment (pass + 1) next rest := by
  obtain ⟨sent, made, rfl, size⟩ := packet_takes (passStart_ready short fits started) short
    fits (passStart_fresh started).2 chosen pushed takes
  obtain ⟨result, transmitted, fine⟩ :=
    quiet.startFuzz (completed translation short started made) begun pass
  have more : sent.fuzzFinished = false := by
    rw [Bool.eq_false_iff, ne_eq, sent.fuzzFinished_iff]
    exact unfinished
  exact ⟨_, .next started made more _ _, toSchedule_nextPass _ _, size,
    returns_next made transmitted more fine⟩

end Pass

include translation short fits quiet begun

/-! The uses that are left, pass by pass. -/

theorem returns_uses {conf : Config} {rest : List Use}
    (started : PassStart fillSource (bytecode instructions) conf)
    (orderly : conf.toSchedule.Orderly (fuzzFiles script).length)
    (left : conf.left = rest) (more : rest ≠ []) (pass : Nat) :
    (∃ starts, Returns fillSource environment pass conf starts ∧
        starts.map (fun conf => conf.toSchedule.uses fillSource instructions) =
          rest.map fun use => [use]) ↔
      Room conf.bufFuzzSize (rest.map fun use => passPieces instructions (some use)) := by
  induction rest generalizing conf pass with
  | nil => exact absurd rfl more
  | cons use rest induction =>
      have fields := ids_script translation short
      rw [← Nat.sub_zero (fuzzFiles script).length] at fields
      obtain ⟨sources, final, turn⟩ := @Schedule.sources_turn fillSource _ _ _ _ orderly
        fields (Nat.zero_le _) (Nat.zero_le _)
      obtain ⟨chosen, uses, orderly, after, pushed⟩ := turn
      rw [left] at uses after pushed
      rw [List.head?_cons] at pushed
      rw [List.map_cons, List.map_cons, Room]
      by_cases takes : Takes conf.bufFuzzSize (passPieces instructions (some use))
      · rw [iff_true_intro takes, true_and]
        by_cases finished : rest = []
        · have whole := last_pass translation short fits quiet begun started chosen pushed
            takes pass (after.trans finished)
          rw [finished]
          refine iff_of_true ⟨[conf], (whole _).mpr rfl, ?_⟩ trivial
          rw [List.map_singleton, uses]
          rfl
        · obtain ⟨next, restarted, schedule, size, step⟩ := next_pass translation short fits
            quiet begun started chosen pushed takes pass (by rw [after]; exact finished)
          have later := induction restarted (schedule ▸ orderly)
            (by rw [schedule]; exact after) finished (pass + 1)
          rw [← size, ← later]
          constructor
          · rintro ⟨starts, returns, log⟩
            obtain ⟨others, rfl, again⟩ := (step starts).mp returns
            exact ⟨others, again, (List.cons.inj log).2⟩
          · rintro ⟨others, again, log⟩
            refine ⟨conf :: others, (step _).mpr ⟨others, rfl, again⟩, ?_⟩
            rw [List.map_cons, log, uses]
            rfl
      · constructor
        · rintro ⟨starts, returns, -⟩
          exact absurd (returns.takes short fits started chosen pushed) takes
        · rintro ⟨bad, -⟩
          exact absurd bad takes

/-! The whole run, from the plain pass. -/

theorem returns_scheduled (bruteforce : Bool) (memory : Memory) (pass : Nat)
    (readable : ∀ filename ∈ fuzzFiles script, ∃ source,
      fillSource filename = some source) :
    (∃ starts, Returns fillSource environment pass
        (readAdcFile false bruteforce memory (bytecode instructions)) starts ∧
        Scheduled fillSource script instructions starts) ↔
      Room 0 ((none :: (allUses fillSource script).map some).map
        (passPieces instructions)) := by
  have fields := ids_script translation short
  have started : PassStart fillSource (bytecode instructions)
      (readAdcFile false bruteforce memory (bytecode instructions)) := .first ..
  generalize same : readAdcFile false bruteforce memory (bytecode instructions) = conf
    at started ⊢
  have ids : conf.toSchedule.ids = List.range 0 := by rw [← same]; rfl
  obtain ⟨final, turn⟩ | ⟨missing, -⟩ := @Schedule.sources_first fillSource _ 0 _ _ ids fields
  · have pushed : pushes instructions (instructions.map fun _ => none) =
        instructions.map (Instruction.pushed none) :=
      Schedule.pushes_idle instructions fun _ _ _ first => nomatch first
    have left : final.left = allUses fillSource script := by
      rw [turn.left, uses_script translation short, ← same]
      rfl
    have orderly : final.Orderly (fuzzFiles script).length := by
      refine ⟨?_, ?_, few_files translation short, fun fuzz _ early => ?_⟩
      · rw [turn.dbgMode, ← same]
        rfl
      · rw [turn.ids, ids, fields, List.range_eq_range', List.range_eq_range']
        rfl
      · rw [turn.fuzzCurrent, ← same] at early
        exact absurd early (Nat.not_lt_zero _)
    have empty : conf.bufFuzzSize = 0 := by rw [← same]; rfl
    have uses : ∀ others, Scheduled fillSource script instructions (conf :: others) ↔
        others.map (fun conf => conf.toSchedule.uses fillSource instructions) =
          (allUses fillSource script).map fun use => [use] := by
      intro others
      rw [Scheduled, List.map_cons, turn.uses, List.cons.injEq, eq_self, true_and]
    rw [List.map_cons, Room, List.map_map, ← empty]
    by_cases takes : Takes conf.bufFuzzSize (passPieces instructions none)
    · rw [iff_true_intro takes, true_and]
      by_cases finished : allUses fillSource script = []
      · have whole := last_pass translation short fits quiet begun started turn.chosen pushed
          takes pass (left.trans finished)
        rw [finished]
        refine iff_of_true ⟨[conf], (whole _).mpr rfl, (uses []).mpr ?_⟩ trivial
        rw [finished]
        rfl
      · obtain ⟨next, restarted, schedule, size, step⟩ := next_pass translation short fits
          quiet begun started turn.chosen pushed takes pass (by rw [left]; exact finished)
        have later := returns_uses translation short fits quiet begun restarted
          (schedule ▸ orderly) (by rw [schedule]; exact left) finished (pass + 1)
        rw [← size]
        refine Iff.trans ?_ later
        constructor
        · rintro ⟨starts, returns, scheduled⟩
          obtain ⟨others, rfl, again⟩ := (step starts).mp returns
          exact ⟨others, again, (uses others).mp scheduled⟩
        · rintro ⟨others, again, log⟩
          exact ⟨conf :: others, (step _).mpr ⟨others, rfl, again⟩, (uses others).mpr log⟩
    · constructor
      · rintro ⟨starts, returns, -⟩
        exact absurd (returns.takes short fits started turn.chosen pushed) takes
      · rintro ⟨bad, -⟩
        exact absurd bad takes
  · exact absurd readable ((readable_script translation short).mp missing)

end Run

/-- The files can be read if the first pass completes. -/
theorem readable_of_packet {fillSource : FillSource} {script : List Directive}
    {instructions : List Instruction} (translation : Translation script instructions)
    (short : (bytecode instructions).length < 2 ^ 32)
    (fits : ∀ instruction ∈ instructions, instruction.Fits) {conf sent : Config}
    (started : PassStart fillSource (bytecode instructions) conf) (first : conf.fuzz = [])
    (made : conf.packet fillSource = .ok sent) :
    ∀ filename ∈ fuzzFiles script, ∃ source, fillSource filename = some source := by
  have fields := ids_script translation short
  have ids : conf.toSchedule.ids = List.range 0 := by
    rw [Schedule.ids, first]
    rfl
  obtain ⟨final, turn⟩ | ⟨-, stopped⟩ := @Schedule.sources_first fillSource _ 0 _ _ ids fields
  · by_contra unreadable
    obtain ⟨field, member, missing⟩ := (readable_script translation short).mpr unreadable
    obtain ⟨source, found⟩ := turn.readable field member
    rw [missing] at found
    cases found
  · have planned := packet_plan fillSource (passStart_ready short fits started) short fits
    split at planned
    · rw [made] at planned
      cases planned
    · next chunks plans =>
        obtain ⟨sources, final, chosen⟩ := plan_sources_ok plans
        rw [stopped] at chosen
        cases chosen

theorem fuzz_schedule_iff (fillSource : FillSource) (script : List Directive)
    (instructions : List Instruction) (accepted : adc script = some instructions)
    (short : (bytecode instructions).length < 2 ^ 32) :
    (∀ environment bruteforce, environment.Quiet →
      ∃ starts, Returns fillSource environment 0
          (readAdcFile false bruteforce (environment.memory 0) (bytecode instructions))
          starts ∧
        Scheduled fillSource script instructions starts) ↔
      Runnable fillSource script instructions := by
  obtain ⟨translation⟩ := adc_translation accepted short
  have fits : ∀ instruction ∈ instructions, instruction.Fits := by
    rw [translation.translated]
    exact translate_fits translation.bounded (Nat.two_pow_pos 32) script
  constructor
  · intro runs
    let environment : Environment :=
      { invert := 0
        type := 0
        connected := fun _ => true
        peer := fun _ => willing
        memory := fun _ _ => 0 }
    have quiet : environment.Quiet := fun _ => ⟨rfl, willing_quiet⟩
    obtain ⟨starts, returns, scheduled⟩ := runs environment false quiet
    obtain ⟨sent, result, made, transmitted⟩ := returns.completes
    have started : PassStart fillSource (bytecode instructions)
      (readAdcFile false false (environment.memory 0) (bytecode instructions)) := .first ..
    have readable := readable_of_packet translation short fits started rfl made
    have done := completed translation short started made
    have begun : TransfersBegun script := done.chronos_iff.mp (parseChrono_willing 0 transmitted)
    exact ⟨readable, begun, (returns_scheduled translation short fits quiet begun false _ 0
      readable).mp ⟨starts, returns, scheduled⟩⟩
  · intro runnable environment bruteforce quiet
    exact (returns_scheduled translation short fits quiet runnable.begun bruteforce _ 0
      runnable.readable).mpr runnable.room

/-! Two fields, the first without a source and the second with two. -/

def twoFields : List Directive :=
  [.blockBegin letterA, .fuzzHex none ⟨[1], one_nonempty, one_size⟩, .fuzzString letterA [],
    .blockEnd letterA, .send letterA]

def twoFieldsBytecode : List Instruction :=
  [.blockBegin 1, .fuzzHex 0 defaultFuzzHexFile [1],
    .fuzzString 1 defaultFuzzStringFile [65], .blockEnd 1, .send 1]

def twoSources : FillSource := fun filename =>
  if filename = defaultFuzzHexFile then some []
  else some [⟨[66], b_size⟩, ⟨[67, 67], by decide⟩]

def allWilling : Environment :=
  ⟨0, 0, fun _ => true, fun _ => willing, fun _ _ => 0⟩

theorem fuzz_schedule_two_fields :
    ∃ starts, Returns twoSources allWilling 0
        (readAdcFile false false (allWilling.memory 0) (bytecode twoFieldsBytecode)) starts ∧
      Scheduled twoSources twoFields twoFieldsBytecode starts := by
  refine (fuzz_schedule_iff twoSources twoFields twoFieldsBytecode (by decide)
    (by decide)).mpr ⟨?_, ?_, ?_⟩ allWilling false fun _ => ⟨rfl, willing_quiet⟩
  · intro filename member
    rw [twoSources]
    split
    · exact ⟨_, rfl⟩
    · exact ⟨_, rfl⟩
  · intro name transferred
    have same : name = letterA := by
      cases transferred with
      | inl sends => simpa [twoFields] using sends
      | inr receives => simp [twoFields] at receives
    rw [same]
    exact List.mem_cons_self
  · exact ⟨by decide, by decide, by decide, trivial⟩

def emptyField : List Directive := [.fuzzString noText [], .string noText]

def emptyFieldBytecode : List Instruction :=
  [.fuzzString 0 defaultFuzzStringFile [], .string []]

-- An empty packet makes the engine exit in its plain pass.
theorem fuzz_schedule_fails_empty_field :
    ¬ ∀ (fillSource : FillSource) (script : List Directive)
        (instructions : List Instruction),
        adc script = some instructions →
        ∀ (environment : Environment) (bruteforce : Bool), environment.Quiet →
          ∃ starts, Returns fillSource environment 0
              (readAdcFile false bruteforce (environment.memory 0) (bytecode instructions))
              starts ∧
            Scheduled fillSource script instructions starts := by
  intro claimed
  obtain ⟨starts, returns, -⟩ := claimed (fun _ => some [⟨[66], by decide⟩]) emptyField
    emptyFieldBytecode (by decide) allWilling false
    fun _ => ⟨rfl, willing_quiet⟩
  obtain ⟨sent, result, made, -⟩ := returns.completes
  have stopped : (readAdcFile false false (fun _ => 0) (bytecode emptyFieldBytecode)).packet
      (fun _ => some [⟨[66], by decide⟩]) = .error .quit := rfl
  cases stopped.symm.trans made

end Segvault.Autodafe
