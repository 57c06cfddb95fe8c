import Segvault.Autodafe.Translation

namespace Segvault.Autodafe

open Layout

/-! The `block_begin` and `block_end` directives of a name, in the order of the script. -/

def marksOf (name : QString) (script : List Directive) : List Directive :=
  script.filter fun directive => directive.mark.key? = some name

def Bracketed (name : QString) (script : List Directive) : Prop :=
  marksOf name script = [.blockBegin name, .blockEnd name]

instance (name : QString) (script : List Directive) : Decidable (Bracketed name script) :=
  inferInstanceAs (Decidable (_ = _))

-- every end of the name follows a begin of it, and no other end
def EndsOnce (name : QString) (script : List Directive) : Prop :=
  ∀ before after, script = before ++ .blockEnd name :: after →
    .blockBegin name ∈ before ∧ .blockEnd name ∉ before

theorem marksOf_append (name : QString) (first second : List Directive) :
    marksOf name (first ++ second) = marksOf name first ++ marksOf name second :=
  List.filter_append ..

theorem marksOf_end (name : QString) (rest : List Directive) :
    marksOf name (.blockEnd name :: rest) = .blockEnd name :: marksOf name rest :=
  List.filter_cons_of_pos (decide_eq_true rfl)

theorem mem_marksOf_begin {name : QString} {script : List Directive} :
    .blockBegin name ∈ marksOf name script ↔ .blockBegin name ∈ script := by
  simp [marksOf, Directive.mark, Mark.key?]

theorem mem_marksOf_end {name : QString} {script : List Directive} :
    .blockEnd name ∈ marksOf name script ↔ .blockEnd name ∈ script := by
  simp [marksOf, Directive.mark, Mark.key?]

namespace Adc

/-! What the flags of a block say of the directives so far. -/

inductive Marked (name : QString) : Bool → Bool → List Directive → Prop
  | mentioned : Marked name false false []
  | begun : Marked name true false [.blockBegin name]
  | ended {marks : List Directive} (first : marks = [] ∨ marks = [.blockBegin name])
      (more : Nat) :
      Marked name true true (marks ++ List.replicate (more + 1) (.blockEnd name))

theorem Marked.begins {name : QString} {ended : Bool} {marks : List Directive}
    (marked : Marked name false ended marks) :
    Marked name true ended (marks ++ [.blockBegin name]) := by
  cases marked
  exact .begun

theorem Marked.ends {name : QString} {started ended : Bool} {marks : List Directive}
    (marked : Marked name started ended marks) :
    Marked name true true (marks ++ [.blockEnd name]) := by
  cases marked with
  | mentioned => exact .ended (.inl rfl) 0
  | begun => exact .ended (.inr rfl) 0
  | ended first more =>
      rw [List.append_assoc, ← List.replicate_succ']
      exact .ended first (more + 1)

def Flagged (self : Adc) (done : List Directive) : Prop :=
  ∀ name, match self.blockCheck name with
    | none => marksOf name done = []
    | some block => Marked name block.started block.ended (marksOf name done)

theorem blockCheck_addBlock (self : Adc) (name : QString) (started : Bool) :
    (self.addBlock name started).1.blockCheck name =
      some { name, id := self.blockNumber, started, ended := false } :=
  List.find?_cons_of_pos (decide_eq_true rfl)

theorem blockCheck_addBlock_of_ne (self : Adc) {name other : QString} (started : Bool)
    (apart : other ≠ name) :
    (self.addBlock name started).1.blockCheck other = self.blockCheck other :=
  List.find?_cons_of_neg (by simp [apart.symm])

section ModifyBlock

variable {self : Adc} {name : QString} {change : Block → Block}
  (keepsName : ∀ block, (change block).name = block.name)

include keepsName

theorem blockCheck_modifyBlock {block : Block} (found : self.blockCheck name = some block) :
    blockCheck { self with lastBlock := modifyBlock name change self.lastBlock } name =
      some (change block) := by
  rw [blockCheck] at found ⊢
  dsimp only
  revert found
  induction self.lastBlock with
  | nil =>
      intro found
      cases found
  | cons head previous induction =>
      intro found
      rw [modifyBlock]
      split
      · next here =>
          have stays : (change head).name = name := (keepsName head).trans here
          rw [List.find?_cons_of_pos (by simpa using here)] at found
          rw [List.find?_cons_of_pos (by simpa using stays)]
          cases found
          rfl
      · next there =>
          rw [List.find?_cons_of_neg (by simpa using there)] at found
          rw [List.find?_cons_of_neg (by simpa using there)]
          exact induction found

theorem blockCheck_modifyBlock_of_ne {other : QString} (apart : other ≠ name) :
    blockCheck { self with lastBlock := modifyBlock name change self.lastBlock } other =
      self.blockCheck other := by
  rw [blockCheck, blockCheck]
  dsimp only
  induction self.lastBlock with
  | nil => rfl
  | cons head previous induction =>
      rw [modifyBlock]
      split
      · next here =>
          have different : ¬ head.name = other := fun same => apart (same.symm.trans here)
          rw [List.find?_cons_of_neg (by simpa [keepsName] using different),
            List.find?_cons_of_neg (by simpa using different)]
      · rw [List.find?_cons, List.find?_cons, induction]

end ModifyBlock

section Steps

variable {self : Adc} {done : List Directive}

theorem Flagged.congr {next : Adc} (flagged : self.Flagged done)
    (same : next.lastBlock = self.lastBlock) : next.Flagged done := by
  intro name
  have found : next.blockCheck name = self.blockCheck name := by
    rw [blockCheck, same]
    rfl
  rw [found]
  exact flagged name

-- A step that concerns the block of one name.
theorem Flagged.change {next : Adc} {name : QString} {block : Block} {added : List Directive}
    (flagged : self.Flagged done) (here : next.blockCheck name = some block)
    (elsewhere : ∀ other, other ≠ name → next.blockCheck other = self.blockCheck other)
    (marked : Marked name block.started block.ended
      (marksOf name done ++ marksOf name added))
    (only : ∀ other, other ≠ name → marksOf other added = []) :
    next.Flagged (done ++ added) := by
  intro other
  rw [marksOf_append]
  by_cases same : other = name
  · rw [same, here]
    exact marked
  · rw [elsewhere other same, only other same, List.append_nil]
    exact flagged other

theorem Flagged.unmarked (flagged : self.Flagged done) {directive : Directive}
    (plain : directive.mark.key? = none) : self.Flagged (done ++ [directive]) := by
  intro name
  have none_added : marksOf name [directive] = [] :=
    List.filter_cons_of_neg (by simp [plain])
  rw [marksOf_append, none_added, List.append_nil]
  exact flagged name

theorem Flagged.blockSizeCheck (flagged : self.Flagged done) (name : QString) :
    (self.blockSizeCheck name).1.Flagged done := by
  rw [Adc.blockSizeCheck]
  split
  · exact flagged
  · next missing =>
      have before := flagged name
      rw [missing] at before
      rw [← List.append_nil done]
      refine flagged.change (blockCheck_addBlock self name false)
        (fun other apart => blockCheck_addBlock_of_ne self false apart) ?_ fun _ _ => rfl
      rw [before]
      exact .mentioned

theorem marksOf_other {directive : Directive} {name : QString}
    (mark : directive.mark.key? = some name) (other : QString) (apart : other ≠ name) :
    marksOf other [directive] = [] :=
  List.filter_cons_of_neg (by simp [mark, apart.symm])

theorem marksOf_self {directive : Directive} {name : QString}
    (mark : directive.mark.key? = some name) : marksOf name [directive] = [directive] :=
  List.filter_cons_of_pos (decide_eq_true mark)

theorem Flagged.modify {name : QString} {change : Block → Block} {block : Block}
    {directive : Directive} (keepsName : ∀ block, (change block).name = block.name)
    (flagged : self.Flagged done) (found : self.blockCheck name = some block)
    (mark : directive.mark.key? = some name)
    (marked : Marked name (change block).started (change block).ended
      (marksOf name done ++ [directive])) :
    Flagged { self with lastBlock := modifyBlock name change self.lastBlock }
      (done ++ [directive]) := by
  refine flagged.change (blockCheck_modifyBlock keepsName found)
    (fun other apart => blockCheck_modifyBlock_of_ne keepsName apart) ?_
    (marksOf_other mark)
  rw [marksOf_self mark]
  exact marked

theorem Flagged.blockNew {next : Adc} {name : QString} {id : Nat}
    (flagged : self.Flagged done) (created : self.blockNew name = some (next, id)) :
    next.Flagged (done ++ [.blockBegin name]) := by
  have before := flagged name
  rw [Adc.blockNew] at created
  split at created
  · next block found =>
      split at created
      · cases created
      · next fresh =>
          cases created
          rw [found] at before
          dsimp only at before
          rw [Bool.eq_false_iff.mpr fresh] at before
          refine Flagged.modify ?_ flagged found rfl ?_
          · exact fun _ => rfl
          · exact before.begins
  · next missing =>
      cases created
      rw [missing] at before
      refine flagged.change (blockCheck_addBlock self name true)
        (fun other apart => blockCheck_addBlock_of_ne self true apart) ?_ (marksOf_other rfl)
      rw [before, marksOf_self rfl]
      exact .begun

theorem Flagged.blockEnd {next : Adc} {name : QString} {id : Nat}
    (flagged : self.Flagged done) (ended : self.blockEnd name = some (next, id)) :
    next.Flagged (done ++ [.blockEnd name]) := by
  have before := flagged name
  rw [Adc.blockEnd] at ended
  split at ended
  · next block found =>
      cases ended
      rw [found] at before
      refine Flagged.modify ?_ flagged found rfl ?_
      · exact fun _ => rfl
      · exact before.ends
  · cases ended

theorem function_flagged {next : Adc} {directive : Directive} (flagged : self.Flagged done)
    (stepped : self.function directive = some next) :
    next.Flagged (done ++ [directive]) := by
  cases directive with
  | string text =>
      cases stepped
      exact (flagged.unmarked rfl).congr rfl
  | hex values =>
      cases stepped
      exact (flagged.unmarked rfl).congr rfl
  | fuzzString one more =>
      rcases more with _ | ⟨two, _ | ⟨three, more⟩⟩
      · cases stepped
        exact (flagged.unmarked rfl).congr rfl
      · cases stepped
        exact (flagged.unmarked rfl).congr rfl
      · cases stepped
  | fuzzHex filename values =>
      cases filename <;> cases stepped <;> exact (flagged.unmarked rfl).congr rfl
  | blockBegin name =>
      obtain ⟨⟨found, id⟩, created, rfl⟩ := Option.map_eq_some_iff.mp stepped
      exact (flagged.blockNew created).congr rfl
  | blockEnd name =>
      obtain ⟨⟨found, id⟩, ended, rfl⟩ := Option.map_eq_some_iff.mp stepped
      exact (flagged.blockEnd ended).congr rfl
  | blockSize type name =>
      cases stepped
      exact ((flagged.blockSizeCheck name).unmarked rfl).congr rfl
  | blockCrc32 type name =>
      cases stepped
      exact ((flagged.blockSizeCheck name).unmarked rfl).congr rfl
  | send name =>
      obtain ⟨id, checked, rfl⟩ := Option.map_eq_some_iff.mp stepped
      exact (flagged.unmarked rfl).congr rfl
  | recv name =>
      obtain ⟨id, checked, rfl⟩ := Option.map_eq_some_iff.mp stepped
      exact (flagged.unmarked rfl).congr rfl

theorem foldlM_flagged {script : List Directive} {final : Adc} (flagged : self.Flagged done)
    (parsed : script.foldlM Adc.function self = some final) :
    final.Flagged (done ++ script) := by
  induction script generalizing self done with
  | nil =>
      cases parsed
      rw [List.append_nil]
      exact flagged
  | cons directive script induction =>
      rw [List.foldlM_cons] at parsed
      obtain ⟨next, stepped, rest⟩ := Option.bind_eq_some_iff.mp parsed
      have result := induction (function_flagged flagged stepped) rest
      rw [List.append_assoc] at result
      exact result

end Steps

end Adc

/-! What acceptance says of a name that the script mentions. -/

theorem adc_marked {script : List Directive} {instructions : List Instruction}
    (accepted : adc script = some instructions) {directive : Directive} {name : QString}
    (member : directive ∈ script) (named : directive.name? = some name) :
    Adc.Marked name true true (marksOf name script) := by
  unfold adc at accepted
  split at accepted
  · cases accepted
  · next final parsed =>
      split at accepted
      · next checked =>
          obtain ⟨-, -, known, -⟩ := Adc.foldlM_translates Adc.wellFormed_start parsed
          obtain ⟨id, found⟩ := known directive member name named
          obtain ⟨block, atBlock, -⟩ := Option.map_eq_some_iff.mp found
          have empty : ({} : Adc).Flagged [] := fun _ => rfl
          have marked := Adc.foldlM_flagged empty parsed name
          have flags := List.all_eq_true.mp checked block (List.mem_of_find?_eq_some atBlock)
          rw [Bool.and_eq_true] at flags
          rw [atBlock, List.nil_append] at marked
          dsimp only at marked
          rw [flags.1, flags.2] at marked
          exact marked
      · cases accepted

theorem Adc.Marked.bracketed_iff {name : QString} {script : List Directive}
    (marked : Adc.Marked name true true (marksOf name script)) :
    Bracketed name script ↔ EndsOnce name script := by
  constructor
  · intro bracketed before after split
    rw [Bracketed, split, marksOf_append, marksOf_end] at bracketed
    rw [← mem_marksOf_begin, ← mem_marksOf_end]
    cases early : marksOf name before with
    | nil =>
        rw [early] at bracketed
        cases bracketed
    | cons first rest =>
        rw [early] at bracketed
        obtain ⟨rfl, others⟩ := List.cons.inj bracketed
        cases rest with
        | nil => exact ⟨List.mem_cons_self, by simp⟩
        | cons second rest =>
            have bad := (List.cons.inj others).2
            simp at bad
  · intro once
    generalize same : marksOf name script = marks at marked
    cases marked with
    | ended first more =>
        obtain rfl | rfl := first
        · obtain ⟨before, after, split, plain, -⟩ := List.filter_eq_cons_iff.mp same
          have begun := mem_marksOf_begin.mpr (once before after split).1
          rw [marksOf, List.filter_eq_nil_iff.mpr plain] at begun
          cases begun
        · cases more with
          | zero => exact same
          | succ more =>
              obtain ⟨before, after, split, plain, rest⟩ := List.filter_eq_cons_iff.mp same
              have again : marksOf name after =
                  .blockEnd name :: List.replicate (more + 1) (.blockEnd name) :=
                rest.2
              obtain ⟨middle, after, later, plain, tail⟩ := List.filter_eq_cons_iff.mp again
              have ended : .blockEnd name ∈ marksOf name after := by
                rw [marksOf, tail.2]
                exact List.mem_cons_self
              obtain ⟨inner, after, last⟩ := List.append_of_mem (mem_marksOf_end.mp ended)
              rw [later, last, ← List.cons_append, ← List.append_assoc,
                ← List.cons_append, ← List.append_assoc] at split
              exact absurd (by simp) (once _ _ split).2

end Segvault.Autodafe
