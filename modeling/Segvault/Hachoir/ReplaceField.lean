import Segvault.Hachoir.FieldByAddress
import Segvault.Hachoir.FieldOrder

namespace Segvault.Hachoir

/-! Fields put one after the other. -/

theorem tiles_placed (address : Nat) (fields : List Field) :
    Tiles address (placed address fields) (address + totalSize fields) := by
  induction fields generalizing address with
  | nil => rfl
  | cons field fields induction =>
      refine ⟨rfl, ?_⟩
      have rest := induction (address + field.size)
      rw [Nat.add_assoc] at rest
      exact rest

theorem totalSize_cons (field : Field) (fields : List Field) :
    totalSize (field :: fields) = field.size + totalSize fields := by
  rw [totalSize, List.map_cons, List.sum_cons, totalSize]

@[simp] theorem names_placed (address : Nat) (fields : List Field) :
    names (placed address fields) = names fields := by
  induction fields generalizing address with
  | nil => rfl
  | cons field fields induction =>
      rw [placed, names, List.map_cons, ← names, induction]
      rfl

/-! The names of new fields. -/

def rename (count : ArrayCount) (field : Field) : Field × ArrayCount :=
  if ['[', ']'].isSuffixOf field.name.text then setUniqueFieldName count field
  else (field, count)

theorem rename_size (count : ArrayCount) (field : Field) :
    (rename count field).1.size = field.size := by
  rw [rename]
  split <;> rfl

theorem uniqueNames_cons (count : ArrayCount) (field : Field) (fields : List Field) :
    uniqueNames count (field :: fields) =
      ((rename count field).1 :: (uniqueNames (rename count field).2 fields).1,
        (uniqueNames (rename count field).2 fields).2) := rfl

theorem totalSize_uniqueNames (count : ArrayCount) (fields : List Field) :
    totalSize (uniqueNames count fields).1 = totalSize fields := by
  induction fields generalizing count with
  | nil => rfl
  | cons field fields induction =>
      rw [uniqueNames_cons, totalSize_cons, totalSize_cons, rename_size, induction]

namespace GenericFieldSet

theorem numbered_eq (self : GenericFieldSet) (field : Field) :
    self.numbered field =
      ((rename self.arrayCount field).1,
        { self with arrayCount := (rename self.arrayCount field).2 }) := by
  rw [numbered, rename]
  split <;> rfl

/-! The fields are found by their names. -/

def entry (field : Field) : FieldName × Field := (field.name, field)

structure WellFormed (set : GenericFieldSet) : Prop where
  consistent : set.fields.Consistent
  items : set.fields.items = set.values.map entry

variable {self : GenericFieldSet} {left right : List Field} {name : FieldName}

theorem WellFormed.keys (wellFormed : self.WellFormed) :
    self.fields.keyList = names self.values := by
  rw [wellFormed.consistent.keys_eq, wellFormed.items, List.map_map]
  rfl

theorem WellFormed.nodup (wellFormed : self.WellFormed) : (names self.values).Nodup := by
  rw [← wellFormed.keys]
  exact wellFormed.consistent.nodup

theorem WellFormed.mem_index (wellFormed : self.WellFormed) :
    name ∈ self.fields.index ↔ name ∈ names self.values := by
  rw [wellFormed.consistent.mem_index, wellFormed.keys]

theorem WellFormed.recount (wellFormed : self.WellFormed) (arrayCount : ArrayCount) :
    WellFormed { self with arrayCount := arrayCount } :=
  ⟨wellFormed.consistent, wellFormed.items⟩

/-- A dictionary whose items are fields with their names. -/
theorem wellFormed_of_items (self : GenericFieldSet) {fields : Dict FieldName Field}
    (consistent : fields.Consistent)
    {values : List Field} (items : fields.items = values.map entry) :
    fields.valueList = values ∧ WellFormed { self with fields := fields } := by
  have same : fields.valueList = values := by
    rw [consistent.values_eq, items, List.map_map]
    exact List.map_id _
  exact ⟨same, consistent, by rw [items]; exact congrArg _ same.symm⟩

theorem WellFormed.lookup (wellFormed : self.WellFormed) {field : Field}
    (split : self.values = left ++ field :: right) :
    self.fields.index.lookup field.name = some left.length := by
  rw [wellFormed.consistent.lookup, wellFormed.keys, split, names, List.map_append,
    List.getElem?_append_right (by rw [List.length_map]), List.length_map, Nat.sub_self]
  rfl

theorem WellFormed.getItem_eq (wellFormed : self.WellFormed) {field : Field}
    (split : self.values = left ++ field :: right) :
    self.getItem field.name = some field := by
  rw [getItem, wellFormed.lookup split]
  show self.values[left.length]? = some field
  rw [split, List.getElem?_append_right (Nat.le_refl _), Nat.sub_self]
  rfl

theorem WellFormed.found (wellFormed : self.WellFormed) {field : Field}
    (member : field ∈ self.values) : self.getItem field.name = some field := by
  obtain ⟨left, right, split⟩ := List.append_of_mem member
  exact wellFormed.getItem_eq split

/-- What `self[name]` finds is a field of that name. -/
theorem WellFormed.split_of_getItem (wellFormed : self.WellFormed) {field : Field}
    (found : self.getItem name = some field) :
    ∃ left right, self.values = left ++ field :: right ∧ field.name = name := by
  obtain ⟨index, lookup, here⟩ := Option.bind_eq_some_iff.mp found
  have key := (wellFormed.consistent.lookup name index).mp lookup
  rw [wellFormed.keys, names, List.getElem?_map, here] at key
  obtain ⟨left, right, split⟩ := List.append_of_mem (List.mem_of_getElem? here)
  exact ⟨left, right, split, Option.some.inj key⟩

/-! One step of the dictionary at the place of a field. -/

theorem insertIdx_append {α : Type} (left right : List α) (item : α) :
    (left ++ right).insertIdx left.length item = left ++ item :: right := by
  induction left with
  | nil => rfl
  | cons head left induction =>
      rw [List.cons_append, List.length_cons, List.insertIdx_succ_cons, induction]
      rfl

theorem WellFormed.append (wellFormed : self.WellFormed) {field : Field}
    (fresh : field.name ∉ names self.values) :
    ∃ fields, self.fields.append field.name field = (none, fields) ∧
      fields.valueList = self.values ++ [field] ∧ WellFormed { self with fields := fields } := by
  have keeps := Dict.append_keeps wellFormed.consistent field.name field
  have done : (self.fields.perform (.append field.name field)).1 = none := by
    rw [Dict.perform, Dict.append, if_neg (mt wellFormed.mem_index.mp fresh)]
  have items := keeps.applied done
  rw [DictOperation.applied, wellFormed.items] at items
  have added : self.values.map entry ++ [(field.name, field)] =
      (self.values ++ [field]).map entry := by
    rw [List.map_append]
    rfl
  obtain ⟨values, whole⟩ := wellFormed_of_items self keeps.consistent (items.trans added)
  exact ⟨_, Prod.ext done rfl, values, whole⟩

theorem WellFormed.insert (wellFormed : self.WellFormed)
    (split : self.values = left ++ right) (field : Field)
    (fresh : field.name ∉ names self.values) :
    ∃ fields, self.fields.insert left.length field.name field = (none, fields) ∧
      fields.valueList = left ++ field :: right ∧
      WellFormed { self with fields := fields } := by
  have keeps := Dict.insert_keeps wellFormed.consistent left.length field.name field
  have length : self.fields.valueList.length = left.length + right.length := by
    rw [← List.length_append, ← split]
    rfl
  have done : (self.fields.perform (.insert left.length field.name field)).1 = none := by
    rw [Dict.perform, Dict.insert, if_neg (mt wellFormed.mem_index.mp fresh)]
    have place : Dict.position (left.length : Int) self.fields.valueList.length = left.length :=
      if_neg (by omega)
    rw [place, if_pos (by omega)]
  have items := keeps.applied done
  have place : Dict.position (left.length : Int) self.fields.items.length = left.length :=
    if_neg (by omega)
  rw [DictOperation.applied, place, Int.toNat_natCast, wellFormed.items, split] at items
  have inserted : ((left ++ right).map entry).insertIdx left.length (field.name, field) =
      (left ++ field :: right).map entry := by
    rw [List.map_append, ← @List.length_map _ _ left entry, insertIdx_append]
    simp [entry]
  obtain ⟨values, whole⟩ := wellFormed_of_items self keeps.consistent
    (items.trans inserted)
  exact ⟨_, Prod.ext done rfl, values, whole⟩

theorem WellFormed.replace (wellFormed : self.WellFormed) {oldField : Field}
    (split : self.values = left ++ oldField :: right) (field : Field)
    (fresh : field.name = oldField.name ∨ field.name ∉ names self.values) :
    ∃ fields, self.fields.replace oldField.name field.name field = (none, fields) ∧
      fields.valueList = left ++ field :: right ∧
      WellFormed { self with fields := fields } := by
  have keeps := (Dict.replace_keeps_iff wellFormed.consistent oldField.name field.name field).mpr
    fun _ => by rwa [wellFormed.keys]
  have done : (self.fields.perform (.replace oldField.name field.name field)).1 = none := by
    rw [Dict.perform, Dict.replace, wellFormed.lookup split]
    dsimp only
    split <;> rfl
  have items := keeps.applied done
  have place : (self.fields.items.map Prod.fst).idxOf oldField.name = left.length := by
    have distinct := wellFormed.nodup
    rw [← wellFormed.consistent.keys_eq, wellFormed.keys, split]
    exact position_append (split ▸ distinct)
  rw [DictOperation.applied, place, wellFormed.items, split] at items
  have changed : ((left ++ oldField :: right).map entry).set left.length (field.name, field) =
      (left ++ field :: right).map entry := by
    rw [List.map_append, ← @List.length_map _ _ left entry,
      List.set_append_right _ _ (Nat.le_refl _),
      Nat.sub_self]
    simp [entry]
  obtain ⟨values, whole⟩ := wellFormed_of_items self keeps.consistent
    (items.trans changed)
  exact ⟨_, Prod.ext done rfl, values, whole⟩

/-! A set of parsed fields. -/

theorem appendAll_wellFormed (wellFormed : self.WellFormed) {fields : List Field}
    (distinct : (names fields ++ names self.values).Nodup) :
    WellFormed { self with
        fields := fields.foldl (fun dict field => (dict.append field.name field).2) self.fields } ∧
      (fields.foldl (fun dict field => (dict.append field.name field).2) self.fields).valueList =
        self.values ++ fields := by
  induction fields generalizing self with
  | nil => exact ⟨wellFormed, (List.append_nil _).symm⟩
  | cons field fields induction =>
      rw [names, List.map_cons, List.cons_append, List.nodup_cons, List.mem_append,
        not_or] at distinct
      obtain ⟨dict, appended, values, whole⟩ := wellFormed.append distinct.1.2
      have rest := induction whole (by
        have moved : (names fields ++ names dict.valueList).Perm
            (field.name :: (names fields ++ names self.values)) := by
          rw [values, names, names, List.map_append, ← List.append_assoc]
          exact List.perm_append_singleton _ _
        exact moved.nodup_iff.mpr (List.nodup_cons.mpr
          ⟨fun member => (List.mem_append.mp member).elim distinct.1.1 distinct.1.2,
            distinct.2⟩))
      rw [List.foldl_cons, appended]
      refine ⟨rest.1, rest.2.trans ?_⟩
      show dict.valueList ++ fields = _
      rw [values, List.append_assoc]
      rfl

theorem ofFields_wellFormed {fields : List Field} (distinct : (names fields).Nodup)
    (arrayCount : ArrayCount) : (ofFields fields arrayCount).WellFormed := by
  have start : WellFormed ⟨Dict.empty, arrayCount, totalSize fields⟩ :=
    ⟨Dict.empty_consistent, rfl⟩
  refine (appendAll_wellFormed start ?_).1
  rw [names_placed]
  exact (List.append_nil _).symm ▸ distinct

/-! The loop over the new fields after the first. -/

theorem nodup_names_cons {first : Field} {later : List Field} :
    (names (first :: later) ++ names (left ++ right)).Nodup ↔
      first.name ∉ names (left ++ right) ∧
        (names later ++ names (left ++ first :: right)).Nodup := by
  have moved : (names (first :: later) ++ names (left ++ right)).Perm
      (names later ++ names (left ++ first :: right)) := by
    have middle : (names (left ++ first :: right)).Perm
        (first.name :: names (left ++ right)) := by
      simp only [names]
      exact List.perm_middle.map NamedField.name
    exact (List.perm_middle.symm.trans (middle.symm.append_left (names later)))
  rw [← moved.nodup_iff]
  refine ⟨fun nodup => ⟨fun member => ?_, nodup⟩, And.right⟩
  exact (List.nodup_append.mp nodup).2.2 _ List.mem_cons_self _ member rfl

section Loop

variable (name) (address : Nat) (field : Field) (newFields : List Field)

theorem insertFields_taken (wellFormed : self.WellFormed)
    (taken : (rename self.arrayCount field).1.name ∈ names self.values) (index : Nat) :
    ∃ error arrayCount, insertFields name self index address (field :: newFields) =
      (some error, { self with arrayCount }) := by
  refine ⟨.parserError (usedMessage name (rename self.arrayCount field).1.name),
    (rename self.arrayCount field).2, ?_⟩
  rw [insertFields, numbered_eq]
  exact if_pos (wellFormed.mem_index.mpr taken)

theorem insertFields_free (wellFormed : self.WellFormed) (split : self.values = left ++ right)
    (free : (rename self.arrayCount field).1.name ∉ names self.values) :
    ∃ next : GenericFieldSet,
      insertFields name self left.length address (field :: newFields) =
        insertFields name next (left.length + 1) (address + field.size) newFields ∧
      next.WellFormed ∧ next.currentSize = self.currentSize ∧
      next.arrayCount = (rename self.arrayCount field).2 ∧
      next.values = left ++ (rename self.arrayCount field).1.at' address :: right := by
  obtain ⟨fields, inserted, values, whole⟩ :=
    (wellFormed.recount (rename self.arrayCount field).2).insert split
      ((rename self.arrayCount field).1.at' address) free
  refine ⟨_, ?_, whole, rfl, rfl, values⟩
  rw [insertFields, numbered_eq]
  have absent : ((rename self.arrayCount field).1.at' address).name ∉ self.fields.index :=
    mt wellFormed.mem_index.mp free
  dsimp only at inserted ⊢
  rw [if_neg absent, inserted]
  simp only [Field.at'_size, rename_size]

end Loop

/-- With names that are free, each new field takes the place after the one before it. -/
theorem insertFields_spec (name : FieldName) (wellFormed : self.WellFormed)
    (split : self.values = left ++ right)
    (address : Nat) (newFields : List Field)
    (fresh : (names (uniqueNames self.arrayCount newFields).1 ++ names self.values).Nodup) :
    ∃ next, insertFields name self left.length address newFields = (none, next) ∧
      next.WellFormed ∧ next.currentSize = self.currentSize ∧
      next.values =
        left ++ placed address (uniqueNames self.arrayCount newFields).1 ++ right := by
  induction newFields generalizing self left address with
  | nil => exact ⟨self, rfl, wellFormed, rfl, by rw [split]; simp [uniqueNames, placed]⟩
  | cons field newFields induction =>
      rw [uniqueNames_cons] at fresh ⊢
      rw [split, nodup_names_cons, ← split] at fresh
      obtain ⟨free, fresh⟩ := fresh
      obtain ⟨next, step, whole, currentSize, arrayCount, values⟩ :=
        insertFields_free name address field newFields wellFormed split free
      have further : next.values =
          (left ++ [(rename self.arrayCount field).1.at' address]) ++ right := by
        rw [values, List.append_assoc]
        rfl
      obtain ⟨last, loop, lastWhole, lastSize, lastValues⟩ :=
        induction whole further (address + field.size) (by
          rw [arrayCount, values]
          simpa [names] using fresh)
      refine ⟨last, ?_, lastWhole, lastSize.trans currentSize, ?_⟩
      · rw [step, ← loop, List.length_append]
        rfl
      · rw [lastValues, arrayCount, placed, rename_size]
        simp

/-- Otherwise it stops at a name that is taken, after some of them. -/
theorem insertFields_clash (name : FieldName) (wellFormed : self.WellFormed)
    (split : self.values = left ++ right)
    (address : Nat) (newFields : List Field)
    (clash : ¬ (names (uniqueNames self.arrayCount newFields).1 ++ names self.values).Nodup) :
    ∃ error next inserted, insertFields name self left.length address newFields =
        (some error, next) ∧ next.currentSize = self.currentSize ∧
      next.values = left ++ inserted ++ right ∧
      (inserted = [] ↔ ∃ first later, (uniqueNames self.arrayCount newFields).1 = first :: later ∧
        first.name ∈ names self.values) := by
  induction newFields generalizing self left address with
  | nil => exact absurd wellFormed.nodup clash
  | cons field newFields induction =>
      rw [uniqueNames_cons] at clash ⊢
      by_cases taken : (rename self.arrayCount field).1.name ∈ names self.values
      · obtain ⟨error, arrayCount, step⟩ :=
          insertFields_taken name address field newFields wellFormed taken left.length
        refine ⟨error, _, [], step, rfl, ?_, iff_of_true rfl ⟨_, _, rfl, taken⟩⟩
        rw [List.append_nil]
        exact split
      · rw [split, nodup_names_cons, ← split] at clash
        obtain ⟨next, step, whole, currentSize, arrayCount, values⟩ :=
          insertFields_free name address field newFields wellFormed split taken
        have further : next.values =
            (left ++ [(rename self.arrayCount field).1.at' address]) ++ right := by
          rw [values, List.append_assoc]
          rfl
        obtain ⟨error, last, inserted, loop, lastSize, lastValues, -⟩ :=
          induction whole further (address + field.size) (by
            rw [arrayCount, values]
            intro fresh
            exact clash ⟨taken, by simpa [names] using fresh⟩)
        refine ⟨error, last, (rename self.arrayCount field).1.at' address :: inserted, ?_,
          lastSize.trans currentSize, ?_, iff_of_false (List.cons_ne_nil _ _) ?_⟩
        · rw [step, ← loop, List.length_append]
          rfl
        · rw [lastValues]
          simp
        · rintro ⟨first, later, same, member⟩
          cases same
          exact taken member

/-! The first new field takes the place of the old one. -/

section Sized

variable {oldField : Field} (field : Field) (others : List Field)

theorem erase_names (wellFormed : self.WellFormed)
    (split : self.values = left ++ oldField :: right) :
    (names self.values).erase oldField.name = names (left ++ right) := by
  have distinct := wellFormed.nodup
  rw [split, names, List.map_append, List.map_cons] at distinct ⊢
  rw [List.nodup_append] at distinct
  have fresh : oldField.name ∉ left.map NamedField.name := fun member =>
    distinct.2.2 _ member _ List.mem_cons_self rfl
  rw [List.erase_append_right _ fresh, List.erase_cons_head, names, List.map_append]

theorem replaceSized_taken (wellFormed : self.WellFormed)
    (split : self.values = left ++ oldField :: right)
    (taken : (rename self.arrayCount field).1.name ∈ names (left ++ right)) :
    ∃ error arrayCount, self.replaceSized oldField.name oldField field others =
      (some error, { self with arrayCount }) := by
  have distinct := wellFormed.nodup
  rw [← erase_names wellFormed split, distinct.mem_erase_iff] at taken
  refine ⟨.parserError (usedMessage oldField.name (rename self.arrayCount field).1.name),
    (rename self.arrayCount field).2, ?_⟩
  rw [replaceSized, numbered_eq]
  exact if_pos ⟨taken.1, wellFormed.mem_index.mpr taken.2⟩

theorem replaceSized_free (wellFormed : self.WellFormed)
    (split : self.values = left ++ oldField :: right)
    (free : (rename self.arrayCount field).1.name ∉ names (left ++ right)) :
    ∃ next : GenericFieldSet,
      self.replaceSized oldField.name oldField field others =
        insertFields oldField.name next (left.length + 1) (oldField.address + field.size) others ∧
      next.WellFormed ∧ next.currentSize = self.currentSize ∧
      next.arrayCount = (rename self.arrayCount field).2 ∧
      next.values = left ++ (rename self.arrayCount field).1.at' oldField.address :: right := by
  have distinct := wellFormed.nodup
  rw [← erase_names wellFormed split, distinct.mem_erase_iff, not_and_or, not_not] at free
  obtain ⟨fields, replaced, values, whole⟩ :=
    (wellFormed.recount (rename self.arrayCount field).2).replace split
      ((rename self.arrayCount field).1.at' oldField.address) free
  refine ⟨_, ?_, whole, rfl, rfl, values⟩
  have place := whole.lookup values
  have usable : ¬ (((rename self.arrayCount field).1.at' oldField.address).name ≠ oldField.name ∧
      ((rename self.arrayCount field).1.at' oldField.address).name ∈ self.fields.index) := by
    rw [wellFormed.mem_index, not_and_or, not_not]
    exact free
  rw [replaceSized, numbered_eq]
  dsimp only at replaced place ⊢
  rw [if_neg usable, replaced]
  simp only [place, Field.at'_address, Field.at'_size, rename_size]
  split
  · next empty => rw [empty, insertFields]
  · rfl

end Sized

/-! `replaceField`. -/

/-- The names of the new fields, and those of the other fields, are all different. -/
def Fresh (self : GenericFieldSet) (name : FieldName) (newFields : List Field) : Prop :=
  (names (uniqueNames self.arrayCount newFields).1 ++ (names self.values).erase name).Nodup

/-- The new fields are where the old one was, and each field is found by its name. -/
structure Replaced (before after : GenericFieldSet) (name : FieldName)
    (newFields : List Field) : Prop where
  values : ∃ left oldField right, before.values = left ++ oldField :: right ∧
    oldField.name = name ∧ after.values = left ++
      placed oldField.address (uniqueNames before.arrayCount newFields).1 ++ right
  tiled : after.Tiled
  currentSize : after.currentSize = before.currentSize
  found : ∀ field ∈ after.values, after.getItem field.name = some field

structure Unchanged (before after : GenericFieldSet) : Prop where
  values : after.values = before.values
  currentSize : after.currentSize = before.currentSize

/-- It raises and changes nothing, or replaces the field. -/
structure Atomic (set : GenericFieldSet) (name : FieldName) (newFields : List Field) :
    Prop where
  raised : (set.replaceField name newFields).1 ≠ none →
    set.Unchanged (set.replaceField name newFields).2
  replaced : (set.replaceField name newFields).1 = none →
    set.Replaced (set.replaceField name newFields).2 name newFields

theorem replaceField_sized {oldField : Field} (wellFormed : self.WellFormed)
    (split : self.values = left ++ oldField :: right) {field : Field} {others : List Field}
    (sized : totalSize (field :: others) = oldField.size) :
    self.replaceField oldField.name (field :: others) =
      self.replaceSized oldField.name oldField field others := by
  rw [replaceField, wellFormed.getItem_eq split]
  exact if_neg (not_not_intro sized.symm)

theorem replaceField_fresh {oldField : Field} (wellFormed : self.WellFormed)
    (tiled : self.Tiled) (split : self.values = left ++ oldField :: right)
    {newFields : List Field} (nonempty : newFields ≠ [])
    (sized : totalSize newFields = oldField.size)
    (fresh : self.Fresh oldField.name newFields) :
    ∃ next, self.replaceField oldField.name newFields = (none, next) ∧ next.WellFormed ∧
      next.values = left ++
        placed oldField.address (uniqueNames self.arrayCount newFields).1 ++ right ∧
      self.Replaced next oldField.name newFields := by
  obtain ⟨field, others, rfl⟩ := List.exists_cons_of_ne_nil nonempty
  rw [Fresh, erase_names wellFormed split, uniqueNames_cons, nodup_names_cons] at fresh
  obtain ⟨free, fresh⟩ := fresh
  obtain ⟨first, step, whole, currentSize, arrayCount, values⟩ :=
    replaceSized_free field others wellFormed split free
  have further : first.values =
      (left ++ [(rename self.arrayCount field).1.at' oldField.address]) ++ right := by
    rw [values, List.append_assoc]
    rfl
  obtain ⟨next, loop, nextWhole, nextSize, nextValues⟩ :=
    insertFields_spec oldField.name whole further (oldField.address + field.size) others (by
      rw [arrayCount, values]
      simpa [names] using fresh)
  have result : next.values = left ++
      placed oldField.address (uniqueNames self.arrayCount (field :: others)).1 ++ right := by
    rw [nextValues, arrayCount, uniqueNames_cons, placed, rename_size]
    simp
  have same := nextSize.trans currentSize
  rw [List.length_append] at loop
  refine ⟨next, ?_, nextWhole, result, ⟨left, oldField, right, split, rfl, result⟩, ?_, same,
    fun other member => nextWhole.found member⟩
  · rw [replaceField_sized wellFormed split sized, step, ← loop]
    rfl
  · rw [Tiled, split, tiles_append] at tiled
    obtain ⟨middle, before, here, after⟩ := tiled
    have filled := tiles_placed middle (uniqueNames self.arrayCount (field :: others)).1
    rw [totalSize_uniqueNames, sized] at filled
    rw [Tiled, result, same, here, tiles_append]
    exact ⟨_, tiles_append.mpr ⟨middle, before, filled⟩, after⟩

/-- A replacement that is not fresh raises: at the first name, before any change, or at a
later one, when the first new field is in place. -/
theorem replaceField_clash {oldField : Field} (wellFormed : self.WellFormed)
    (split : self.values = left ++ oldField :: right) {field : Field} {others : List Field}
    (sized : totalSize (field :: others) = oldField.size)
    (clash : ¬ self.Fresh oldField.name (field :: others)) :
    ∃ error next, self.replaceField oldField.name (field :: others) = (some error, next) ∧
      next.currentSize = self.currentSize ∧
      (next.values = self.values ↔
        (rename self.arrayCount field).1.name ∈ (names self.values).erase oldField.name ∨
        ((rename self.arrayCount field).1.at' oldField.address = oldField ∧
          ∃ second later, (uniqueNames (rename self.arrayCount field).2 others).1 =
            second :: later ∧ second.name ∈ names self.values)) := by
  rw [Fresh, erase_names wellFormed split, uniqueNames_cons, nodup_names_cons] at clash
  rw [replaceField_sized wellFormed split sized, erase_names wellFormed split]
  by_cases taken : (rename self.arrayCount field).1.name ∈ names (left ++ right)
  · obtain ⟨error, arrayCount, step⟩ := replaceSized_taken field others wellFormed split taken
    exact ⟨error, _, step, rfl, iff_of_true rfl (.inl taken)⟩
  obtain ⟨first, step, whole, currentSize, arrayCount, values⟩ :=
    replaceSized_free field others wellFormed split taken
  have further : first.values =
      (left ++ [(rename self.arrayCount field).1.at' oldField.address]) ++ right := by
    rw [values, List.append_assoc]
    rfl
  obtain ⟨error, next, inserted, loop, nextSize, nextValues, atSecond⟩ :=
    insertFields_clash oldField.name whole further (oldField.address + field.size) others (by
      rw [arrayCount, values]
      intro fresh
      exact clash ⟨taken, by simpa [names] using fresh⟩)
  rw [List.length_append] at loop
  refine ⟨error, next, ?_, nextSize.trans currentSize, ?_⟩
  · rw [step, ← loop]
    rfl
  · rw [arrayCount] at atSecond
    have same : next.values = self.values ↔
        (rename self.arrayCount field).1.at' oldField.address = oldField ∧ inserted = [] := by
      rw [nextValues, split]
      simp
    rw [same, or_iff_right taken]
    refine and_congr_right fun kept => ?_
    rw [atSecond, values, kept, ← split]

/-- What the replacement needs to be atomic: new names, if it gets to the first change. One
that is stopped at its second new field leaves the fields as they were where the first is
the old field itself. -/
def Settles (self : GenericFieldSet) (name : FieldName) (newFields : List Field) : Prop :=
  ∀ (oldField first : Field) (later : List Field), self.getItem name = some oldField →
    totalSize newFields = oldField.size →
    (uniqueNames self.arrayCount newFields).1 = first :: later →
    first.name ∉ (names self.values).erase name →
    self.Fresh name newFields ∨
      (first.at' oldField.address = oldField ∧
        ∃ second rest, later = second :: rest ∧ second.name ∈ names self.values)

theorem atomic_of_raised {newFields : List Field} {error : FieldSetError}
    {next : GenericFieldSet}
    (raised : self.replaceField name newFields = (some error, next)) :
    self.Atomic name newFields ↔ self.Unchanged next := by
  constructor
  · intro atomic
    have unchanged := atomic.raised (by rw [raised]; exact Option.some_ne_none _)
    rwa [raised] at unchanged
  · intro unchanged
    refine ⟨fun _ => ?_, fun done => ?_⟩
    · rwa [raised]
    · rw [raised] at done
      cases done

/-- replaceField is atomic exactly when no name that it finds in use comes after a change. -/
theorem replaceField_atomic_iff (wellFormed : self.WellFormed) (tiled : self.Tiled)
    (newFields : List Field) : self.Atomic name newFields ↔ self.Settles name newFields := by
  cases found : self.getItem name with
  | none =>
      have refused : self.replaceField name newFields =
          (some (.parserError (missingMessage name)), self) := by
        rw [replaceField, found]
      refine iff_of_true ((atomic_of_raised refused).mpr ⟨rfl, rfl⟩) fun _ _ _ present => ?_
      cases found.symm.trans present
  | some oldField =>
      obtain ⟨left, right, split, rfl⟩ := wellFormed.split_of_getItem found
      cases newFields with
      | nil =>
          have refused : self.replaceField oldField.name [] = (some .assertionError, self) := by
            rw [replaceField, found]
          refine iff_of_true ((atomic_of_raised refused).mpr ⟨rfl, rfl⟩)
            fun _ _ _ _ _ resolved => ?_
          cases resolved
      | cons field others =>
          by_cases sized : totalSize (field :: others) = oldField.size
          swap
          · have refused : self.replaceField oldField.name (field :: others) =
                (some (.parserError (sizeMessage oldField.name (totalSize (field :: others))
                  oldField.size)), self) := by
              rw [replaceField, found]
              exact if_pos (Ne.symm sized)
            refine iff_of_true ((atomic_of_raised refused).mpr ⟨rfl, rfl⟩)
              fun other _ _ present same => ?_
            cases found.symm.trans present
            exact absurd same sized
          by_cases fresh : self.Fresh oldField.name (field :: others)
          · obtain ⟨next, done, -, -, replaced⟩ :=
              replaceField_fresh wellFormed tiled split (List.cons_ne_nil _ _) sized fresh
            refine iff_of_true ⟨fun raised => ?_, fun _ => ?_⟩ fun _ _ _ _ _ _ _ => .inl fresh
            · exact absurd (by rw [done]) raised
            · rw [done]
              exact replaced
          · obtain ⟨error, next, raised, currentSize, same⟩ :=
              replaceField_clash wellFormed split sized fresh
            rw [atomic_of_raised raised]
            constructor
            · rintro unchanged other first later present _ resolved free
              cases found.symm.trans present
              rw [uniqueNames_cons] at resolved
              cases resolved
              exact .inr ((same.mp unchanged.values).resolve_left free)
            · intro settles
              refine ⟨same.mpr ?_, currentSize⟩
              by_cases taken : (rename self.arrayCount field).1.name ∈
                  (names self.values).erase oldField.name
              · exact .inl taken
              · exact .inr ((settles oldField _ _ found sized rfl taken).resolve_left fresh)

theorem header_wellFormed : header.WellFormed :=
  ofFields_wellFormed (by decide) _

/-- The first field of `header` in two halves, the second of which has the name of the other
field. -/
def halves : List Field :=
  [⟨⟨['c'], by decide, 'c', by decide, by decide⟩, ⟨.object 2, 0, 4⟩⟩,
    ⟨⟨['b'], b_component, b_notDots⟩, ⟨.object 3, 0, 4⟩⟩]

theorem replaceField_atomic_iff_halves :
    header.Atomic ⟨['a'], by decide, 'a', by decide, by decide⟩ halves ↔
      header.Settles ⟨['a'], by decide, 'a', by decide, by decide⟩ halves :=
  replaceField_atomic_iff header_wellFormed header_tiled halves

theorem replaceField_breaks_halves :
    ¬ header.Atomic ⟨['a'], by decide, 'a', by decide, by decide⟩ halves := by
  intro atomic
  have unchanged := atomic.raised (by decide)
  exact absurd unchanged.values (by decide)

/-! Replacements one after the other. -/

theorem replaceField_done (wellFormed : self.WellFormed) (tiled : self.Tiled)
    {newFields : List Field} {next : GenericFieldSet}
    (done : self.replaceField name newFields = (none, next)) :
    next.WellFormed ∧ self.Replaced next name newFields := by
  cases found : self.getItem name with
  | none =>
      rw [replaceField, found] at done
      cases done
  | some oldField =>
      obtain ⟨left, right, split, rfl⟩ := wellFormed.split_of_getItem found
      cases newFields with
      | nil =>
          rw [replaceField, found] at done
          cases done
      | cons field others =>
          by_cases sized : totalSize (field :: others) = oldField.size
          · by_cases fresh : self.Fresh oldField.name (field :: others)
            · obtain ⟨other, same, kept, -, replaced⟩ :=
                replaceField_fresh wellFormed tiled split (List.cons_ne_nil _ _) sized fresh
              cases same.symm.trans done
              exact ⟨kept, replaced⟩
            · obtain ⟨error, other, raised, -⟩ := replaceField_clash wellFormed split sized fresh
              cases raised.symm.trans done
          · rw [replaceField, found] at done
            dsimp only at done
            rw [if_pos (Ne.symm sized)] at done
            cases done

/-- Calls of replaceField, none of which raises. -/
def replaceAll : List (FieldName × List Field) → GenericFieldSet → Option GenericFieldSet
  | [], self => some self
  | (name, newFields) :: calls, self =>
      match self.replaceField name newFields with
      | (none, next) => replaceAll calls next
      | (some _, _) => none

/-- The fields still tile the set and are found by their names, and those that no call names are
where they were. -/
theorem replaceAll_keeps (calls : List (FieldName × List Field)) {last : GenericFieldSet}
    (wellFormed : self.WellFormed) (tiled : self.Tiled) (done : replaceAll calls self = some last) :
    last.WellFormed ∧ last.Tiled ∧ last.currentSize = self.currentSize ∧
      (∀ field ∈ last.values, last.getItem field.name = some field) ∧
      ∀ field ∈ self.values, field.name ∉ calls.map Prod.fst → field ∈ last.values := by
  induction calls generalizing self with
  | nil =>
      cases done
      refine ⟨wellFormed, tiled, rfl, fun field member => ?_, fun field member _ => member⟩
      obtain ⟨left, right, split⟩ := List.append_of_mem member
      exact wellFormed.getItem_eq split
  | cons call calls induction =>
      obtain ⟨name, newFields⟩ := call
      rw [replaceAll] at done
      split at done
      · next next replaced =>
          obtain ⟨kept, replaced⟩ := replaceField_done wellFormed tiled replaced
          obtain ⟨keptLast, tiledLast, size, found, others⟩ := induction kept replaced.tiled done
          refine ⟨keptLast, tiledLast, size.trans replaced.currentSize, found, ?_⟩
          intro field member unnamed
          rw [List.map_cons, List.mem_cons, not_or] at unnamed
          obtain ⟨left, oldField, right, before, named, after⟩ := replaced.values
          refine others field ?_ unnamed.2
          rw [before, List.mem_append, List.mem_cons] at member
          rw [after, List.mem_append, List.mem_append]
          obtain inLeft | rfl | inRight := member
          · exact .inl (.inl inLeft)
          · exact absurd named unnamed.1
          · exact .inr inRight
      · cases done

/-- Another field in the place of the first one. -/
def replacing : List (FieldName × List Field) :=
  [(⟨['a'], a_component, a_notDots⟩,
    [⟨⟨['c'], by decide, 'c', by decide, by decide⟩, ⟨.object 2, 0, 8⟩⟩])]

theorem replaceAll_keeps_header :
    ∃ last, replaceAll replacing header = some last ∧ last.Tiled := by
  obtain ⟨last, done⟩ : ∃ last, replaceAll replacing header = some last := ⟨_, rfl⟩
  exact ⟨last, done, (replaceAll_keeps _ header_wellFormed header_tiled done).2.1⟩

end GenericFieldSet

end Segvault.Hachoir
