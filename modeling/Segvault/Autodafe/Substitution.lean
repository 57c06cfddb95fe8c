import Segvault.Autodafe.Update

namespace Segvault.Autodafe

open Bytes Layout

/-! The sources a pass puts in the place of the values of its fuzz functions, apart
from the buffer they are copied to. -/

def Schedule.source (fillSource : FillSource) (self : Schedule) :
    Instruction → Except Halt (Option StructSource × Schedule)
  | .fuzzHex id filename _ => self.choose fillSource id filename 1
  | .fuzzString id filename _ => self.choose fillSource id filename 0
  | _ => .ok (none, self)

def Schedule.sources (fillSource : FillSource) :
    Schedule → List Instruction →
      Except Halt (List (Option StructSource) × Schedule)
  | self, [] => .ok ([], self)
  | self, instruction :: instructions => do
      let (source, schedule) ← self.source fillSource instruction
      let (sources, schedule) ← schedule.sources fillSource instructions
      return (source :: sources, schedule)

def Instruction.pushes (source : Option StructSource) :
    Instruction → Option (List UInt8)
  | .hex values => some values
  | .string text => some text
  | .fuzzHex _ _ values => some ((source.map StructSource.content).getD values)
  | .fuzzString _ _ text => some ((source.map StructSource.content).getD text)
  | .blockSize .s16 _ => none
  | .blockSize .s10 _ => none
  | .blockSize type _ => some (Config.dummyLength type)
  | .blockCrc32 _ _ => some [0, 0, 0, 0]
  | _ => none

def pushes : List Instruction → List (Option StructSource) →
    List (Option (List UInt8)) :=
  List.zipWith fun instruction source => instruction.pushes source

def Buffer.takeAll : Buffer → List (Option (List UInt8)) → Except Halt Buffer
  | self, [] => .ok self
  | self, data :: rest => do
      let buffer ← self.take data
      buffer.takeAll rest

theorem Schedule.pushed_eq (fillSource : FillSource) (self : Schedule)
    (instruction : Instruction) :
    self.pushed fillSource instruction =
      (self.source fillSource instruction).map
        fun (source, schedule) => (instruction.pushes source, schedule) := by
  cases instruction with
  | fuzzHex id filename values =>
      simp only [Schedule.pushed, Schedule.source, bind, Except.bind]
      cases self.choose fillSource id filename 1 <;> rfl
  | fuzzString id filename text =>
      simp only [Schedule.pushed, Schedule.source, bind, Except.bind]
      cases self.choose fillSource id filename 0 <;> rfl
  | blockSize type id => cases type <;> rfl
  | _ => rfl

theorem Schedule.length_sources {fillSource : FillSource} {self final : Schedule}
    {instructions : List Instruction} {sources : List (Option StructSource)}
    (chosen : self.sources fillSource instructions = .ok (sources, final)) :
    sources.length = instructions.length := by
  induction instructions generalizing self sources with
  | nil => cases chosen; rfl
  | cons instruction instructions induction =>
      simp only [Schedule.sources, bind, Except.bind] at chosen
      split at chosen
      · cases chosen
      · split at chosen
        · cases chosen
        · next rest found =>
            cases chosen
            rw [List.length_cons, List.length_cons, induction found]

-- A pass that chooses its sources plans what they push, as far as the buffer goes.
theorem plan_sources {fillSource : FillSource} {schedule final : Schedule}
    {instructions : List Instruction} {sources : List (Option StructSource)}
    (chosen : schedule.sources fillSource instructions = .ok (sources, final))
    (buffer : Buffer) :
    plan fillSource schedule buffer instructions =
      (buffer.takeAll (pushes instructions sources)).map
        fun _ => (pushes instructions sources).map fun data => data.getD [] := by
  induction instructions generalizing schedule buffer sources with
  | nil => cases chosen; rfl
  | cons instruction instructions induction =>
      simp only [Schedule.sources, bind, Except.bind] at chosen
      simp only [plan, Schedule.pushed_eq, bind, Except.bind]
      split at chosen
      · cases chosen
      · next choice found =>
          split at chosen
          · cases chosen
          · next rest later =>
              cases chosen
              rw [found]
              simp only [Except.map, pushes, List.zipWith_cons_cons, Buffer.takeAll, bind,
                Except.bind]
              cases taken : buffer.take (instruction.pushes choice.1) with
              | error halt => rfl
              | ok grown =>
                  simp only
                  rw [induction later]
                  simp only [pushes]
                  cases grown.takeAll
                    (List.zipWith (fun instruction source => instruction.pushes source)
                      instructions rest.1) <;> rfl

theorem plan_sources_ok {fillSource : FillSource} {schedule : Schedule}
    {buffer : Buffer} {instructions : List Instruction} {chunks : List (List UInt8)}
    (planned : plan fillSource schedule buffer instructions = .ok chunks) :
    ∃ sources final, schedule.sources fillSource instructions = .ok (sources, final) := by
  induction instructions generalizing schedule buffer chunks with
  | nil => exact ⟨[], schedule, rfl⟩
  | cons instruction instructions induction =>
      simp only [plan, Schedule.pushed_eq, bind, Except.bind] at planned
      simp only [Schedule.sources, bind, Except.bind]
      cases found : schedule.source fillSource instruction with
      | error halt => rw [found] at planned; cases planned
      | ok choice =>
          rw [found] at planned
          simp only [Except.map] at planned
          split at planned
          · cases planned
          · split at planned
            · cases planned
            · next rest later =>
                obtain ⟨sources, final, chosen⟩ := induction later
                refine ⟨choice.1 :: sources, final, ?_⟩
                simp only [chosen]
                rfl

/-! The fuzz list, up to its counters and weights. -/

def StructFuzz.entry (fuzz : StructFuzz) : Nat × List StructSource :=
  (fuzz.id, fuzz.source)

def Instruction.fuzzId? : Instruction → Option Nat
  | .fuzzHex id _ _ => some id
  | .fuzzString id _ _ => some id
  | _ => none

namespace Schedule

def entries (self : Schedule) : List (Nat × List StructSource) :=
  self.fuzz.map StructFuzz.entry

def ids (self : Schedule) : List Nat :=
  self.fuzz.map StructFuzz.id

theorem ids_eq (self : Schedule) : self.ids = self.entries.map Prod.fst := by
  rw [ids, entries, List.map_map]
  rfl

theorem find_none {self : Schedule} {id : Nat} :
    (self.fuzz.find? fun fuzz => fuzz.id = id) = none ↔ id ∉ self.ids := by
  simp [ids]

theorem entries_setFuzz {self : Schedule} (distinct : self.ids.Nodup)
    {fuzz changed : StructFuzz} (member : fuzz ∈ self.fuzz)
    (same : changed.entry = fuzz.entry) : (self.setFuzz changed).entries = self.entries := by
  have sameId : changed.id = fuzz.id := congrArg Prod.fst same
  rw [entries, setFuzz, List.map_map, entries]
  refine List.map_congr_left fun other inside => ?_
  rw [Function.comp_apply]
  split
  · next equal =>
      have here : other = fuzz :=
        List.inj_on_of_nodup_map distinct inside member (equal.trans sameId)
      rw [here]
      exact same
  · rfl

-- Choosing for a field that has an entry.
theorem choose_entries {fillSource : FillSource} {self final : Schedule} {id weight : Nat}
    {filename : List UInt8} {source : Option StructSource} (distinct : self.ids.Nodup)
    (present : id ∈ self.ids)
    (chosen : self.choose fillSource id filename weight = .ok (source, final)) :
    final.entries = self.entries := by
  rw [choose] at chosen
  cases found : self.fuzz.find? fun fuzz => fuzz.id = id with
  | none => exact absurd present (find_none.mp found)
  | some fuzz =>
      have member := List.mem_of_find?_eq_some found
      have relevant : ∀ counter, ({ fuzz with current := counter } : StructFuzz).entry =
          fuzz.entry := fun _ => rfl
      rw [found] at chosen
      dsimp only at chosen
      split at chosen
      · generalize picked : (if self.irrelevant fuzz = true then
          { fuzz with current := fuzz.total } else fuzz) = kept at chosen
        have same : kept.entry = fuzz.entry := by
          rw [← picked]
          split <;> rfl
        split at chosen
        · split at chosen
          · cases chosen
          · cases chosen
            exact entries_setFuzz distinct member same
        · cases chosen
          exact entries_setFuzz distinct member same
      · cases chosen
        rfl

-- Choosing for a field that has none.
theorem choose_added {fillSource : FillSource} {self final : Schedule} {id weight : Nat}
    {filename : List UInt8} {source : Option StructSource} (absent : id ∉ self.ids)
    (chosen : self.choose fillSource id filename weight = .ok (source, final)) :
    ∃ sources, fillSource filename = some sources ∧
      final.entries = self.entries ++ [(id, sources)] := by
  rw [choose, find_none.mpr absent] at chosen
  dsimp only at chosen
  cases filled : fillSource filename with
  | none => rw [filled] at chosen; cases chosen
  | some sources =>
      rw [filled] at chosen
      cases chosen
      refine ⟨sources, rfl, ?_⟩
      rw [entries, List.map_append]
      rfl

theorem source_entries {fillSource : FillSource} {self final : Schedule}
    {instruction : Instruction} {source : Option StructSource} (distinct : self.ids.Nodup)
    (chosen : self.source fillSource instruction = .ok (source, final)) :
    (∀ id ∈ instruction.fuzzId?, id ∈ final.ids) ∧ final.ids.Nodup ∧
      self.entries <+: final.entries ∧
      ((∀ id ∈ instruction.fuzzId?, id ∈ self.ids) → final.entries = self.entries) := by
  have field : ∀ {id weight : Nat} {filename : List UInt8},
      self.choose fillSource id filename weight = .ok (source, final) →
      id ∈ final.ids ∧ final.ids.Nodup ∧ self.entries <+: final.entries ∧
        (id ∈ self.ids → final.entries = self.entries) := by
    intro id weight filename chosen
    by_cases present : id ∈ self.ids
    · have same := choose_entries distinct present chosen
      have ids : final.ids = self.ids := by rw [ids_eq, same, ids_eq]
      rw [ids, same]
      exact ⟨present, distinct, List.prefix_refl _, fun _ => rfl⟩
    · obtain ⟨sources, -, added⟩ := choose_added present chosen
      have ids : final.ids = self.ids ++ [id] := by
        rw [ids_eq, added, List.map_append, ← ids_eq]
        rfl
      rw [ids, added]
      refine ⟨by simp, ?_, List.prefix_append _ _, fun bad => absurd bad present⟩
      rw [List.nodup_append]
      exact ⟨distinct, List.nodup_singleton id, by
        rintro other inside _ here rfl
        rw [List.mem_singleton] at here
        exact present (here ▸ inside)⟩
  cases instruction with
  | fuzzHex id filename values =>
      obtain ⟨present, distinct, longer, same⟩ := field chosen
      exact ⟨fun _ here => by cases here; exact present, distinct, longer,
        fun known => same (known id rfl)⟩
  | fuzzString id filename text =>
      obtain ⟨present, distinct, longer, same⟩ := field chosen
      exact ⟨fun _ here => by cases here; exact present, distinct, longer,
        fun known => same (known id rfl)⟩
  | _ =>
      cases chosen
      exact ⟨fun _ here => (nomatch here), distinct, List.prefix_refl _, fun _ => rfl⟩

theorem sources_entries {fillSource : FillSource} {self final : Schedule}
    {instructions : List Instruction} {sources : List (Option StructSource)}
    (distinct : self.ids.Nodup)
    (chosen : self.sources fillSource instructions = .ok (sources, final)) :
    (∀ id ∈ instructions.filterMap Instruction.fuzzId?, id ∈ final.ids) ∧
      final.ids.Nodup ∧ self.entries <+: final.entries ∧
      ((∀ id ∈ instructions.filterMap Instruction.fuzzId?, id ∈ self.ids) →
        final.entries = self.entries) := by
  induction instructions generalizing self sources with
  | nil =>
      cases chosen
      exact ⟨fun _ here => (nomatch here), distinct, List.prefix_refl _, fun _ => rfl⟩
  | cons instruction instructions induction =>
      simp only [Schedule.sources, bind, Except.bind] at chosen
      split at chosen
      · cases chosen
      · next choice found =>
          split at chosen
          · cases chosen
          · next rest later =>
              cases chosen
              obtain ⟨here, distinctMid, longer, same⟩ := source_entries distinct found
              obtain ⟨there, distinctFinal, longest, sameFinal⟩ := induction distinctMid later
              have kept : ∀ id ∈ choice.2.ids, id ∈ rest.2.ids := by
                intro id member
                rw [ids_eq] at member ⊢
                exact (longest.map Prod.fst).subset member
              refine ⟨?_, distinctFinal, longer.trans longest, ?_⟩
              · intro id member
                rw [List.filterMap_cons] at member
                cases known : instruction.fuzzId? with
                | none =>
                    rw [known] at member
                    exact there id member
                | some own =>
                    rw [known] at member
                    cases List.mem_cons.mp member with
                    | inl equal => exact kept id (here id (by rw [known, equal]; rfl))
                    | inr member => exact there id member
              · intro known
                have now : choice.2.entries = self.entries := by
                  refine same fun id own => known id ?_
                  rw [List.filterMap_cons, Option.mem_def.mp own]
                  exact List.mem_cons_self
                have idsSame : choice.2.ids = self.ids := by rw [ids_eq, now, ids_eq]
                rw [← now]
                refine sameFinal fun id member => ?_
                rw [idsSame]
                refine known id ?_
                rw [List.filterMap_cons]
                cases instruction.fuzzId? with
                | none => exact member
                | some own => exact List.mem_cons_of_mem _ member

end Schedule

end Segvault.Autodafe
