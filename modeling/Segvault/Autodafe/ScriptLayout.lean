import Segvault.Autodafe.Update

namespace Segvault.Autodafe

open Bytes Layout Config

/-! The packet of a script, seen through the numbers of its blocks. -/

def scriptSegments (script : List Directive) (chunks : List (List UInt8)) :
    List (Segment QString) :=
  (script.map Directive.mark).zip chunks

section Named

variable {script : List Directive} {instructions : List Instruction}
  {chunks : List (List UInt8)}

theorem segments_zip (instructions : List Instruction)
    (chunks : List (List UInt8)) :
    segments (instructions.zip chunks) =
      (instructions.map Instruction.mark).zip chunks := by
  rw [List.zip_map_left]
  rfl

theorem segments_rename (chunks : List (List UInt8))
    (translation : Translation script instructions) :
    segments (instructions.zip chunks) =
      rename translation.naming (scriptSegments script chunks) := by
  have marks := congrArg (List.map Instruction.mark) translation.translated
  rw [map_mark_translate] at marks
  rw [segments_zip, marks, scriptSegments, rename]
  simp only [List.zip_map_left, List.map_map]
  rfl

theorem scriptSegments_known {segment : Segment QString} {name : QString}
    (member : segment ∈ scriptSegments script chunks)
    (key : segment.1.key? = some name) :
    ∃ directive ∈ script, directive.name? = some name := by
  obtain ⟨mark, chunk⟩ := segment
  obtain ⟨directive, inScript, rfl⟩ :=
    List.mem_map.mp (List.of_mem_zip member).1
  exact ⟨directive, inScript, Directive.mark_key key⟩

theorem block_named (chunks : List (List UInt8))
    (translation : Translation script instructions)
    {name : QString}
    (known : ∃ directive ∈ script, directive.name? = some name) :
    blockLength (translation.naming name) (segments (instructions.zip chunks)) =
        blockLength name (scriptSegments script chunks) ∧
      blockOffset (translation.naming name)
          (segments (instructions.zip chunks)) =
        blockOffset name (scriptSegments script chunks) ∧
      (Opened (translation.naming name) (segments (instructions.zip chunks)) ↔
        Opened name (scriptSegments script chunks)) := by
  rw [segments_rename chunks translation]
  exact block_rename translation.injective known
    fun segment member other key => scriptSegments_known member key

theorem opened_scriptSegments (same : chunks.length = script.length)
    (name : QString) :
    Opened name (scriptSegments script chunks) ↔ .blockBegin name ∈ script := by
  have marks : (scriptSegments script chunks).map Prod.fst =
      script.map Directive.mark := by
    rw [scriptSegments, List.map_fst_zip]
    simp [same]
  have opens : Opened name (scriptSegments script chunks) ↔
      Mark.opens name ∈ (scriptSegments script chunks).map Prod.fst := by
    simp [Opened]
  rw [opens, marks, List.mem_map]
  constructor
  · rintro ⟨directive, member, marked⟩
    cases directive with
    | blockBegin other => cases marked; exact member
    | _ => cases marked
  · intro member
    exact ⟨_, member, rfl⟩

/-! The piece of a directive, and where it starts. -/

theorem pieces_at (translation : Translation script instructions)
    (same : chunks.length = instructions.length) {index : Nat}
    {directive : Directive} (found : script[index]? = some directive) :
    ∃ fuzzId chunk, instructions.zip chunks =
      (instructions.zip chunks).take index ++
        (directive.instruction translation.naming fuzzId, chunk) ::
          (instructions.zip chunks).drop (index + 1) := by
  obtain ⟨fuzzId, translated⟩ :=
    getElem?_translate translation.naming 0 found
  rw [← translation.translated] at translated
  obtain ⟨bound, atIndex⟩ := List.getElem?_eq_some_iff.mp translated
  have inChunks : index < chunks.length := by omega
  have inside : index < (instructions.zip chunks).length := by
    rw [List.length_zip]
    omega
  have here : (instructions.zip chunks)[index] =
      (directive.instruction translation.naming fuzzId,
        chunks[index]) := by
    rw [List.getElem_zip, atIndex]
  refine ⟨fuzzId, chunks[index], ?_⟩
  rw [← here, List.cons_getElem_drop_succ, List.take_append_drop]

theorem position_at (translation : Translation script instructions)
    (index : Nat) :
    size ((scriptSegments script chunks).take index) =
      size (segments ((instructions.zip chunks).take index)) := by
  have renamed := congrArg (List.take index)
    (segments_rename chunks translation)
  rw [segments, ← List.map_take] at renamed
  rw [segments, renamed, rename, ← List.map_take]
  exact size_rename.symm

end Named

end Segvault.Autodafe
