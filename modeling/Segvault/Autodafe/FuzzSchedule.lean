import Segvault.Autodafe.Substitution

namespace Segvault.Autodafe

/-! The sources of the fuzz functions, and the order in which the passes use them. -/

/-- A source put in the place of the value of a fuzz function. -/
structure Use where
  field : Nat
  index : Nat
  content : List UInt8
  deriving DecidableEq, Repr

def usesOf (field : Nat) (source : List StructSource) : List Use :=
  source.mapIdx fun index source => { field, index, content := source.content }

def Instruction.fuzzField? : Instruction → Option (Nat × List UInt8)
  | .fuzzHex id filename _ => some (id, filename)
  | .fuzzString id filename _ => some (id, filename)
  | _ => none

/-- What an instruction pushes in a pass that makes at most one use. -/
def Instruction.pushed (use : Option Use) (instruction : Instruction) :
    Option (List UInt8) :=
  match use with
  | none => instruction.pushes none
  | some use =>
      if instruction.fuzzId? = some use.field then some use.content
      else instruction.pushes none

namespace Schedule

def current (self : Schedule) (id : Nat) : Nat :=
  match self.fuzz.find? fun fuzz => fuzz.id = id with
  | none => 0
  | some fuzz => fuzz.current

def used (self : Schedule) (instruction : Instruction) (source : Option StructSource) :
    Option Use :=
  match instruction.fuzzId?, source with
  | some field, some source =>
      some { field, index := self.current field, content := source.content }
  | _, _ => none

/-- The uses of a pass, in the order in which it makes them. -/
def uses (fillSource : FillSource) : Schedule → List Instruction → List Use
  | _, [] => []
  | self, instruction :: instructions =>
      match self.source fillSource instruction with
      | .error _ => []
      | .ok (source, schedule) =>
          (self.used instruction source).toList ++ schedule.uses fillSource instructions

end Schedule

/-! What the counters leave to be used. -/

def StructFuzz.left (fuzz : StructFuzz) : List Use :=
  (usesOf fuzz.id fuzz.source).drop fuzz.current

def Schedule.left (self : Schedule) : List Use :=
  self.fuzz.flatMap StructFuzz.left

theorem StructFuzz.left_nil_iff (fuzz : StructFuzz) :
    fuzz.left = [] ↔ fuzz.total ≤ fuzz.current := by
  rw [left, List.drop_eq_nil_iff, usesOf, List.length_mapIdx, fuzz.filled]

theorem StructFuzz.left_cons {fuzz : StructFuzz} (more : fuzz.current < fuzz.source.length) :
    fuzz.left =
      { field := fuzz.id
        index := fuzz.current
        content := (fuzz.source[fuzz.current]).content } ::
      ({ fuzz with current := fuzz.current + 1 } : StructFuzz).left := by
  rw [left, left, List.drop_eq_getElem_cons (by rw [usesOf, List.length_mapIdx]; exact more)]
  simp only [usesOf, List.getElem_mapIdx]

theorem Config.fuzzFinished_iff (conf : Config) :
    conf.fuzzFinished = true ↔ conf.left = [] := by
  rw [fuzzFinished, Schedule.left, List.flatMap_eq_nil_iff, List.all_eq_true]
  refine forall₂_congr fun fuzz member => ?_
  rw [StructFuzz.left_nil_iff]
  simp

namespace Schedule

/-! A schedule whose fields are numbered in order, the first of them used up. -/

structure Orderly (schedule : Schedule) (count : Nat) : Prop where
  dbgMode : schedule.dbgMode = false
  ids : schedule.ids = List.range count
  few : count < 2 ^ 32
  exhausted : ∀ fuzz ∈ schedule.fuzz, fuzz.id < schedule.fuzzCurrent → fuzz.left = []

theorem Orderly.nodup {self : Schedule} {count : Nat} (orderly : self.Orderly count) :
    self.ids.Nodup := by
  rw [orderly.ids]
  exact List.nodup_range

theorem Orderly.split {self : Schedule} {count id : Nat} (orderly : self.Orderly count)
    (inside : id < count) :
    ∃ before fuzz after, self.fuzz = before ++ fuzz :: after ∧ fuzz.id = id ∧
      ∀ other ∈ before, other.id < id := by
  have length : self.fuzz.length = count := by
    have same := congrArg List.length orderly.ids
    rw [Schedule.ids, List.length_map, List.length_range] at same
    exact same
  have bound : id < self.fuzz.length := by omega
  have at_place : ∀ place (here : place < self.fuzz.length), (self.fuzz[place]).id = place := by
    intro place here
    have same := congrArg (fun ids => ids[place]?) orderly.ids
    simpa [Schedule.ids, here, show place < count by omega] using same
  refine ⟨self.fuzz.take id, self.fuzz[id], self.fuzz.drop (id + 1), ?_, at_place id bound, ?_⟩
  · rw [List.cons_getElem_drop_succ, List.take_append_drop]
  · intro other member
    obtain ⟨place, here, rfl⟩ := List.mem_iff_getElem.mp member
    rw [List.length_take] at here
    rw [List.getElem_take, at_place place (by omega)]
    omega

theorem setFuzz_split {self : Schedule} {before after : List StructFuzz}
    {fuzz changed : StructFuzz} (distinct : self.ids.Nodup)
    (split : self.fuzz = before ++ fuzz :: after) (same : changed.id = fuzz.id) :
    (self.setFuzz changed).fuzz = before ++ changed :: after := by
  rw [ids, split, List.map_append, List.map_cons, List.nodup_append, List.nodup_cons]
    at distinct
  obtain ⟨-, ⟨fresh, -⟩, apart⟩ := distinct
  rw [setFuzz]
  dsimp only
  rw [split, List.map_append, List.map_cons, if_pos same.symm]
  congr 1
  · refine (List.map_congr_left fun other member => ?_).trans (List.map_id _)
    rw [same, if_neg]
    · rfl
    · exact apart _ (List.mem_map_of_mem member) _ List.mem_cons_self
  · congr 1
    refine (List.map_congr_left fun other member => ?_).trans (List.map_id _)
    rw [same, if_neg]
    · rfl
    · intro equal
      exact fresh (equal ▸ List.mem_map_of_mem member)

section Choose

variable {fillSource : FillSource} {self : Schedule}

/-! Choosing for a field: one that is not current, one with a source left, one used up. -/

theorem choose_other {id weight : Nat} {filename : List UInt8} (present : id ∈ self.ids)
    (other : self.fuzzCurrent ≠ id) :
    self.choose fillSource id filename weight = .ok (none, self) := by
  rw [choose]
  cases found : self.fuzz.find? fun fuzz => fuzz.id = id with
  | none => exact absurd present (find_none.mp found)
  | some fuzz =>
      have same : fuzz.id = id := by simpa using List.find?_some found
      dsimp only
      rw [if_neg (same ▸ other)]

theorem find_split {id : Nat} {before after : List StructFuzz} {fuzz : StructFuzz}
    (split : self.fuzz = before ++ fuzz :: after) (same : fuzz.id = id)
    (earlier : ∀ other ∈ before, other.id < id) :
    (self.fuzz.find? fun fuzz => fuzz.id = id) = some fuzz := by
  rw [split, List.find?_append, List.find?_eq_none.mpr]
  · rw [Option.none_or, List.find?_cons_of_pos (by simpa using same)]
  · intro other member
    have less := earlier other member
    simp only [decide_eq_true_eq]
    omega

theorem choose_source {id weight : Nat} {filename : List UInt8}
    {before after : List StructFuzz} {fuzz : StructFuzz} (dbgMode : self.dbgMode = false)
    (split : self.fuzz = before ++ fuzz :: after) (same : fuzz.id = id)
    (earlier : ∀ other ∈ before, other.id < id) (current : self.fuzzCurrent = id)
    (more : fuzz.current < fuzz.source.length) :
    self.choose fillSource id filename weight =
      .ok (some fuzz.source[fuzz.current],
        self.setFuzz { fuzz with current := fuzz.current + 1 }) := by
  have relevant : self.irrelevant fuzz = false := by rw [irrelevant, dbgMode]; rfl
  rw [choose, find_split split same earlier]
  dsimp only
  rw [if_pos (current.trans same.symm), relevant]
  simp only [Bool.false_eq_true, if_false]
  rw [if_pos (fuzz.filled ▸ more), List.getElem?_eq_getElem more]

theorem choose_advance {id weight : Nat} {filename : List UInt8}
    {before after : List StructFuzz} {fuzz : StructFuzz} (dbgMode : self.dbgMode = false)
    (distinct : self.ids.Nodup)
    (split : self.fuzz = before ++ fuzz :: after) (same : fuzz.id = id)
    (earlier : ∀ other ∈ before, other.id < id) (current : self.fuzzCurrent = id)
    (none_left : fuzz.left = []) (small : id + 1 < 2 ^ 32) :
    self.choose fillSource id filename weight =
      .ok (none, { self with fuzzCurrent := id + 1 }) := by
  have relevant : self.irrelevant fuzz = false := by rw [irrelevant, dbgMode]; rfl
  have kept : self.setFuzz fuzz = self := by
    have fields := setFuzz_split distinct split rfl
    rw [← split] at fields
    rw [setFuzz] at fields ⊢
    dsimp only at fields
    rw [fields]
  rw [choose, find_split split same earlier]
  dsimp only
  rw [if_pos (current.trans same.symm), relevant]
  simp only [Bool.false_eq_true, if_false]
  rw [if_neg (Nat.not_lt.mpr (fuzz.left_nil_iff.mp none_left)), kept, current,
    Nat.mod_eq_of_lt small]

end Choose

/-! One pass, from the field that is current. -/

theorem left_split {self : Schedule} {before after : List StructFuzz} {fuzz : StructFuzz}
    (split : self.fuzz = before ++ fuzz :: after)
    (exhausted : ∀ other ∈ before, other.left = []) :
    self.left = fuzz.left ++ after.flatMap StructFuzz.left := by
  rw [left, split, List.flatMap_append, List.flatMap_eq_nil_iff.mpr exhausted,
    List.nil_append, List.flatMap_cons]

theorem pushes_source {instruction : Instruction} {id : Nat}
    (field : instruction.fuzzId? = some id) (source : StructSource) :
    instruction.pushes (some source) = some source.content := by
  cases instruction <;> first | rfl | cases field

theorem pushed_unused {instruction : Instruction} {id : Nat}
    (field : instruction.fuzzId? = some id) {use : Option Use}
    (unused : ∀ one, use = some one → id ≠ one.field) :
    instruction.pushed use = instruction.pushes none := by
  cases use with
  | none => rfl
  | some use =>
      rw [Instruction.pushed, if_neg]
      rw [field]
      exact fun same => unused use rfl (Option.some.inj same)

section Orderly

variable {self : Schedule} {count : Nat} (orderly : self.Orderly count)

include orderly

theorem Orderly.field_le {use : Use} (member : use ∈ self.left) :
    self.fuzzCurrent ≤ use.field := by
  obtain ⟨fuzz, inside, here⟩ := List.mem_flatMap.mp member
  have same : use.field = fuzz.id := by
    obtain ⟨place, bound, rfl⟩ := List.mem_iff_getElem.mp (List.mem_of_mem_drop here)
    simp [usesOf]
  rw [same]
  refine Nat.le_of_not_lt fun early => ?_
  rw [orderly.exhausted fuzz inside early] at here
  cases here

theorem Orderly.advance {before after : List StructFuzz} {fuzz : StructFuzz} {id : Nat}
    (split : self.fuzz = before ++ fuzz :: after) (same : fuzz.id = id)
    (current : self.fuzzCurrent = id) (none_left : fuzz.left = []) :
    Orderly { self with fuzzCurrent := id + 1 } count := by
  refine ⟨orderly.dbgMode, orderly.ids, orderly.few, fun other inside early => ?_⟩
  dsimp only at inside early
  by_cases here : other.id = id
  · have member : fuzz ∈ self.fuzz := by rw [split]; simp
    have equal : other = fuzz :=
      List.inj_on_of_nodup_map orderly.nodup inside member (here.trans same.symm)
    rw [equal]
    exact none_left
  · exact orderly.exhausted other inside (by omega)

theorem Orderly.step {before after : List StructFuzz} {fuzz changed : StructFuzz} {id : Nat}
    (split : self.fuzz = before ++ fuzz :: after) (same : fuzz.id = id)
    (earlier : ∀ other ∈ before, other.id < id) (current : self.fuzzCurrent = id)
    (kept : changed.id = fuzz.id) :
    (self.setFuzz changed).Orderly count ∧
      (self.setFuzz changed).left = changed.left ++ after.flatMap StructFuzz.left := by
  have after_split := setFuzz_split orderly.nodup split kept
  have exhausted : ∀ other ∈ before, other.left = [] := by
    intro other member
    refine orderly.exhausted other (by rw [split]; simp [member]) ?_
    rw [current]
    exact earlier other member
  refine ⟨⟨orderly.dbgMode, ?_, orderly.few, ?_⟩, left_split after_split exhausted⟩
  · rw [← orderly.ids, Schedule.ids, Schedule.ids, after_split, split, List.map_append,
      List.map_append, List.map_cons, List.map_cons, kept]
  · intro other inside early
    have early : other.id < self.fuzzCurrent := early
    rw [after_split] at inside
    cases List.mem_append.mp inside with
    | inl member => exact exhausted other member
    | inr member =>
        cases List.mem_cons.mp member with
        | inl here => rw [here, kept] at early; omega
        | inr later => exact orderly.exhausted other (by rw [split]; simp [later]) early

end Orderly

section Pass

variable {fillSource : FillSource}

theorem source_plain (self : Schedule) {instruction : Instruction}
    (plain : instruction.fuzzId? = none) :
    self.source fillSource instruction = .ok (none, self) := by
  cases instruction <;> first | rfl | cases plain

theorem source_field (self : Schedule) {instruction : Instruction} {id : Nat}
    (field : instruction.fuzzId? = some id) :
    ∃ filename weight,
      self.source fillSource instruction = self.choose fillSource id filename weight := by
  cases instruction with
  | fuzzHex own filename values => cases field; exact ⟨filename, 1, rfl⟩
  | fuzzString own filename text => cases field; exact ⟨filename, 0, rfl⟩
  | _ => cases field

theorem sources_cons {self next : Schedule} {instruction : Instruction}
    {instructions : List Instruction} {source : Option StructSource}
    {sources : List (Option StructSource)} {final : Schedule}
    (here : self.source fillSource instruction = .ok (source, next))
    (rest : next.sources fillSource instructions = .ok (sources, final)) :
    self.sources fillSource (instruction :: instructions) = .ok (source :: sources, final) := by
  rw [Schedule.sources, here]
  simp only [bind, Except.bind, rest]
  rfl

theorem uses_cons {self next : Schedule} {instruction : Instruction}
    {source : Option StructSource} (instructions : List Instruction)
    (here : self.source fillSource instruction = .ok (source, next)) :
    self.uses fillSource (instruction :: instructions) =
      (self.used instruction source).toList ++ next.uses fillSource instructions := by
  rw [uses, here]

theorem used_none (self : Schedule) (instruction : Instruction) :
    self.used instruction none = none := by
  unfold used
  cases instruction.fuzzId? <;> rfl

-- A pass in which no field is current uses nothing.
theorem sources_idle {self : Schedule} {instructions : List Instruction}
    (idle : ∀ id ∈ instructions.filterMap Instruction.fuzzId?,
      id ∈ self.ids ∧ self.fuzzCurrent ≠ id) :
    self.sources fillSource instructions = .ok (instructions.map fun _ => none, self) ∧
      self.uses fillSource instructions = [] := by
  induction instructions with
  | nil => exact ⟨rfl, rfl⟩
  | cons instruction instructions induction =>
      have here : self.source fillSource instruction = .ok (none, self) := by
        cases field : instruction.fuzzId? with
        | none => exact source_plain self field
        | some id =>
            have own := idle id (by rw [List.filterMap_cons, field]; exact List.mem_cons_self)
            obtain ⟨filename, weight, chosen⟩ := source_field self field
            rw [chosen]
            exact choose_other own.1 own.2
      have rest := induction fun id member => idle id (by
        rw [List.filterMap_cons]
        cases instruction.fuzzId? with
        | none => exact member
        | some own => exact List.mem_cons_of_mem _ member)
      refine ⟨sources_cons here rest.1, ?_⟩
      rw [uses_cons _ here, used_none, rest.2]
      rfl

theorem pushes_idle (instructions : List Instruction) {use : Option Use}
    (unused : ∀ id ∈ instructions.filterMap Instruction.fuzzId?,
      ∀ one, use = some one → one.field ≠ id) :
    pushes instructions (instructions.map fun _ => none) =
      instructions.map (Instruction.pushed use) := by
  rw [pushes, List.zipWith_map_right, List.zipWith_self]
  refine List.map_congr_left fun instruction member => ?_
  cases use with
  | none => rfl
  | some use =>
      rw [Instruction.pushed, if_neg]
      intro field
      exact unused use.field (List.mem_filterMap.mpr ⟨instruction, member, field⟩) use rfl rfl

/-- What a pass with the current field among its last ones does. -/
structure Turn (fillSource : FillSource) (schedule : Schedule) (count : Nat)
    (instructions : List Instruction) (sources : List (Option StructSource))
    (final : Schedule) : Prop where
  chosen : schedule.sources fillSource instructions = .ok (sources, final)
  uses : schedule.uses fillSource instructions = schedule.left.take 1
  orderly : final.Orderly count
  left : final.left = schedule.left.drop 1
  pushed : pushes instructions sources =
    instructions.map (Instruction.pushed schedule.left.head?)

-- The rest of the pass, after an instruction that uses nothing.
theorem Turn.cons {self next final : Schedule} {count : Nat} {instruction : Instruction}
    {instructions : List Instruction} {sources : List (Option StructSource)}
    (here : self.source fillSource instruction = .ok (none, next))
    (same : next.left = self.left)
    (plain : instruction.pushed self.left.head? = instruction.pushes none)
    (turn : Turn fillSource next count instructions sources final) :
    Turn fillSource self count (instruction :: instructions) (none :: sources) final := by
  obtain ⟨chosen, uses, orderly, left, pushed⟩ := turn
  rw [same] at uses left pushed
  refine ⟨sources_cons here chosen, ?_, orderly, left, ?_⟩
  · rw [uses_cons _ here, used_none, uses]
    rfl
  · rw [pushes] at pushed ⊢
    rw [List.zipWith_cons_cons, pushed, List.map_cons, plain]

theorem Turn.use {self : Schedule} {count : Nat} {before after : List StructFuzz}
    {fuzz : StructFuzz} {id weight : Nat} {filename : List UInt8} {instruction : Instruction}
    {instructions : List Instruction} (orderly : self.Orderly count)
    (split : self.fuzz = before ++ fuzz :: after) (same : fuzz.id = id)
    (earlier : ∀ other ∈ before, other.id < id) (current : self.fuzzCurrent = id)
    (some_left : fuzz.left ≠ []) (field : instruction.fuzzId? = some id)
    (chosen : self.source fillSource instruction =
      self.choose fillSource id filename weight)
    (later : ∀ other ∈ instructions.filterMap Instruction.fuzzId?,
      id < other ∧ other < count) :
    ∃ sources final,
      Turn fillSource self count (instruction :: instructions) sources final := by
  have more : fuzz.current < fuzz.source.length := by
    rw [ne_eq, StructFuzz.left_nil_iff, fuzz.filled] at some_left
    omega
  have here := chosen.trans (choose_source orderly.dbgMode split same earlier current more)
  have kept : ({ fuzz with current := fuzz.current + 1 } : StructFuzz).id = fuzz.id := rfl
  obtain ⟨stepped, left⟩ := orderly.step split same earlier current kept
  have exhausted : ∀ other ∈ before, other.left = [] := by
    intro other member
    refine orderly.exhausted other (by rw [split]; simp [member]) ?_
    rw [current]
    exact earlier other member
  have whole := left_split split exhausted
  rw [StructFuzz.left_cons more, List.cons_append, ← left] at whole
  have idle := @sources_idle fillSource
    (self.setFuzz { fuzz with current := fuzz.current + 1 }) instructions fun other member => by
      obtain ⟨after, inside⟩ := later other member
      rw [stepped.ids]
      exact ⟨List.mem_range.mpr inside, by change self.fuzzCurrent ≠ other; omega⟩
  have counter : self.current id = fuzz.current := by
    rw [Schedule.current, find_split split same earlier]
  refine ⟨_, _, sources_cons here idle.1, ?_, stepped, ?_, ?_⟩
  · rw [uses_cons _ here, idle.2, whole]
    simp only [used, field, counter, same]
    rfl
  · rw [whole]
    rfl
  · have rest := @pushes_idle instructions self.left.head? fun other member one first => by
      rw [whole] at first
      cases first
      have after := (later other member).1
      dsimp only
      omega
    rw [pushes] at rest ⊢
    rw [List.zipWith_cons_cons, rest, List.map_cons, whole]
    congr 1
    rw [List.head?_cons, Instruction.pushed, if_pos (by rw [field, same]), pushes_source field]

theorem sources_turn {self : Schedule} {count start : Nat} {instructions : List Instruction}
    (orderly : self.Orderly count)
    (fields : instructions.filterMap Instruction.fuzzId? =
      List.range' start (count - start))
    (bound : start ≤ count) (reached : start ≤ self.fuzzCurrent) :
    ∃ sources final, Turn fillSource self count instructions sources final := by
  induction instructions generalizing self start with
  | nil =>
      have whole : start = count := by
        have same := congrArg List.length fields
        rw [List.filterMap_nil, List.length_nil, List.length_range'] at same
        omega
      have none_left : self.left = [] := by
        refine List.flatMap_eq_nil_iff.mpr fun fuzz member => ?_
        refine orderly.exhausted fuzz member ?_
        have small : fuzz.id ∈ self.ids := List.mem_map_of_mem member
        rw [orderly.ids, List.mem_range] at small
        omega
      refine ⟨[], self, rfl, ?_, orderly, ?_, rfl⟩
      · rw [none_left]
        rfl
      · rw [none_left]
        rfl
  | cons instruction instructions induction =>
      rw [List.filterMap_cons] at fields
      cases field : instruction.fuzzId? with
      | none =>
          rw [field] at fields
          obtain ⟨sources, final, turn⟩ := induction orderly fields bound reached
          refine ⟨_, final, turn.cons (source_plain self field) rfl ?_⟩
          cases self.left.head? with
          | none => rfl
          | some use =>
              rw [Instruction.pushed, if_neg]
              rw [field]
              exact nofun
      | some id =>
          rw [field] at fields
          obtain ⟨room, equal⟩ : start < count ∧ id = start := by
            cases more : count - start with
            | zero => rw [more] at fields; cases fields
            | succ rest =>
                rw [more, List.range'_succ] at fields
                exact ⟨by omega, (List.cons.inj fields).1⟩
          have later : instructions.filterMap Instruction.fuzzId? =
              List.range' (start + 1) (count - (start + 1)) := by
            rw [show count - start = count - (start + 1) + 1 by omega, List.range'_succ]
              at fields
            exact (List.cons.inj fields).2
          subst equal
          obtain ⟨filename, weight, chosen⟩ := @source_field fillSource self _ _ field
          by_cases current : self.fuzzCurrent = id
          · obtain ⟨before, fuzz, after, split, same, earlier⟩ := orderly.split room
            by_cases none_left : fuzz.left = []
            · have small := orderly.few
              have here := chosen.trans (choose_advance orderly.dbgMode orderly.nodup split
                same earlier current none_left (by omega))
              have advanced := orderly.advance split same current none_left
              obtain ⟨sources, final, turn⟩ := induction advanced later room (Nat.le_refl _)
              refine ⟨_, final, turn.cons here rfl ?_⟩
              refine pushed_unused field fun one first => ?_
              have passed : id + 1 ≤ one.field := advanced.field_le (List.mem_of_head? first)
              omega
            · refine Turn.use orderly split same earlier current none_left field chosen
                fun other member => ?_
              rw [later, List.mem_range'_1] at member
              omega
          · have present : id ∈ self.ids := by
              rw [orderly.ids]
              exact List.mem_range.mpr room
            obtain ⟨sources, final, turn⟩ := induction orderly later room (by omega)
            refine ⟨_, final, turn.cons (chosen.trans (choose_other present current)) rfl ?_⟩
            refine pushed_unused field fun one first => ?_
            have reached := orderly.field_le (List.mem_of_head? first)
            omega

/-! The first pass, which makes the entries. -/

/-- What the first pass leaves, when every index file can be used. -/
structure FirstTurn (fillSource : FillSource) (schedule : Schedule)
    (instructions : List Instruction) (final : Schedule) : Prop where
  chosen : schedule.sources fillSource instructions =
    .ok (instructions.map fun _ => none, final)
  uses : schedule.uses fillSource instructions = []
  dbgMode : final.dbgMode = schedule.dbgMode
  fuzzCurrent : final.fuzzCurrent = schedule.fuzzCurrent
  ids : final.ids = schedule.ids ++ instructions.filterMap Instruction.fuzzId?
  left : final.left = schedule.left ++
    (instructions.filterMap Instruction.fuzzField?).flatMap
      fun field => usesOf field.1 ((fillSource field.2).getD [])
  readable : ∀ field ∈ instructions.filterMap Instruction.fuzzField?,
    ∃ source, fillSource field.2 = some source

theorem source_first {self : Schedule} {instruction : Instruction} {id : Nat}
    {filename : List UInt8} (field : instruction.fuzzField? = some (id, filename))
    (fresh : id ∉ self.ids) :
    (fillSource filename = none ∧
      self.source fillSource instruction = .error .quit) ∨
    ∃ source next, fillSource filename = some source ∧
      self.source fillSource instruction = .ok (none, next) ∧
      next.dbgMode = self.dbgMode ∧ next.fuzzCurrent = self.fuzzCurrent ∧
      next.ids = self.ids ++ [id] ∧ next.left = self.left ++ usesOf id source := by
  have chosen : ∃ weight, self.source fillSource instruction =
      self.choose fillSource id filename weight := by
    cases instruction with
    | fuzzHex own file values => cases field; exact ⟨1, rfl⟩
    | fuzzString own file text => cases field; exact ⟨0, rfl⟩
    | _ => cases field
  obtain ⟨weight, chosen⟩ := chosen
  rw [chosen, choose, find_none.mpr fresh]
  dsimp only
  cases fillSource filename with
  | none => exact .inl ⟨rfl, rfl⟩
  | some source =>
      refine .inr ⟨source, _, rfl, rfl, rfl, rfl, ?_, ?_⟩
      · rw [ids, List.map_append]
        rfl
      · rw [left, List.flatMap_append]
        simp [left, StructFuzz.left]

theorem fuzzId_field (instruction : Instruction) :
    instruction.fuzzId? = instruction.fuzzField?.map Prod.fst := by
  cases instruction <;> rfl

theorem sources_first {self : Schedule} {start count : Nat}
    {instructions : List Instruction} (ids : self.ids = List.range start)
    (fields : instructions.filterMap Instruction.fuzzId? = List.range' start count) :
    (∃ final, FirstTurn fillSource self instructions final) ∨
      (∃ field ∈ instructions.filterMap Instruction.fuzzField?, fillSource field.2 = none) ∧
        self.sources fillSource instructions = .error .quit := by
  induction instructions generalizing self start count with
  | nil => exact .inl ⟨self, rfl, rfl, rfl, rfl, by simp, by simp, by simp⟩
  | cons instruction instructions induction =>
      have fieldIds := fuzzId_field instruction
      rw [List.filterMap_cons] at fields
      cases field : instruction.fuzzField? with
      | none =>
          rw [field, Option.map_none] at fieldIds
          rw [fieldIds] at fields
          have here := @source_plain fillSource self _ fieldIds
          obtain ⟨final, turn⟩ | ⟨⟨other, member, missing⟩, stopped⟩ := induction ids fields
          · refine .inl ⟨final, sources_cons here turn.chosen, ?_, turn.dbgMode,
              turn.fuzzCurrent, ?_, ?_, ?_⟩
            · rw [uses_cons _ here, used_none, turn.uses]
              rfl
            · rw [turn.ids, List.filterMap_cons, fieldIds]
            · rw [turn.left, List.filterMap_cons, field]
            · rw [List.filterMap_cons, field]
              exact turn.readable
          · refine .inr ⟨⟨other, ?_, missing⟩, ?_⟩
            · rw [List.filterMap_cons, field]
              exact member
            · rw [Schedule.sources, here]
              simp only [bind, Except.bind, stopped]
      | some pair =>
          obtain ⟨id, filename⟩ := pair
          rw [field, Option.map_some] at fieldIds
          rw [fieldIds] at fields
          obtain ⟨more, rfl, rfl⟩ : ∃ more, id = start ∧ count = more + 1 := by
            cases count with
            | zero => cases fields
            | succ more =>
                rw [List.range'_succ] at fields
                exact ⟨more, (List.cons.inj fields).1, rfl⟩
          rw [List.range'_succ] at fields
          have fresh : id ∉ self.ids := by rw [ids]; simp
          obtain ⟨missing, stopped⟩ |
              ⟨source, next, found, here, dbgMode, fuzzCurrent, nextIds, nextLeft⟩ :=
            @source_first fillSource _ _ _ _ field fresh
          · refine .inr ⟨⟨(id, filename), ?_, missing⟩, ?_⟩
            · rw [List.filterMap_cons, field]
              exact List.mem_cons_self
            · rw [Schedule.sources, stopped]
              rfl
          · have grown : next.ids = List.range (id + 1) := by
              rw [nextIds, ids, List.range_succ]
            obtain ⟨final, turn⟩ | ⟨⟨other, member, missing⟩, stopped⟩ :=
              induction grown (List.cons.inj fields).2
            · refine .inl ⟨final, sources_cons here turn.chosen, ?_,
                turn.dbgMode.trans dbgMode, turn.fuzzCurrent.trans fuzzCurrent, ?_, ?_, ?_⟩
              · rw [uses_cons _ here, used_none, turn.uses]
                rfl
              · rw [turn.ids, nextIds, List.filterMap_cons, fieldIds, List.append_assoc]
                rfl
              · rw [turn.left, nextLeft, List.filterMap_cons, field, List.flatMap_cons,
                  List.append_assoc]
                dsimp only
                rw [found, Option.getD_some]
              · rw [List.filterMap_cons, field]
                intro other member
                cases List.mem_cons.mp member with
                | inl same => exact ⟨source, by rw [same]; exact found⟩
                | inr later => exact turn.readable other later
            · refine .inr ⟨⟨other, ?_, missing⟩, ?_⟩
              · rw [List.filterMap_cons, field]
                exact List.mem_cons_of_mem _ member
              · rw [Schedule.sources, here]
                simp only [bind, Except.bind, stopped]

end Pass

end Schedule

end Segvault.Autodafe
