import Segvault.Hachoir.SeekableFieldSet

namespace Segvault.Hachoir

theorem rename_value (count : ArrayCount) (field : Field) :
    (rename count field).1.value = field.value := by
  rw [rename]
  split <;> rfl

theorem values_uniqueNames (count : ArrayCount) (fields : List Field) :
    (uniqueNames count fields).1.map NamedField.value = fields.map NamedField.value := by
  induction fields generalizing count with
  | nil => rfl
  | cons field fields induction =>
      rw [uniqueNames_cons, List.map_cons, List.map_cons, induction, rename_value]

theorem GenericFieldSet.WellFormed.deleteLast {self : GenericFieldSet}
    (wellFormed : self.WellFormed) {front : List Field} {last : Field}
    (split : self.fields.valueList = front ++ [last]) :
    ∃ fields, self.fields.delItem (self.fields.valueList.length - 1 : Nat) = (none, fields) ∧
      fields.valueList = front ∧ GenericFieldSet.WellFormed { self with fields := fields } := by
  have keeps := Dict.delItem_keeps wellFormed.consistent
    (self.fields.valueList.length - 1 : Nat)
  have length : self.fields.valueList.length = front.length + 1 := by
    rw [split, List.length_append]
    rfl
  have done : (self.fields.perform
      (.delItem (self.fields.valueList.length - 1 : Nat))).1 = none := by
    have place : Dict.position ((self.fields.valueList.length - 1 : Nat) : Int)
        self.fields.valueList.length = (self.fields.valueList.length - 1 : Nat) :=
      if_neg (by omega)
    rw [Dict.perform, Dict.delItem, place, if_pos (by omega)]
  have items := keeps.applied done
  have place : Dict.position ((self.fields.valueList.length - 1 : Nat) : Int)
      self.fields.items.length = (self.fields.valueList.length - 1 : Nat) :=
    if_neg (by omega)
  have deleted : (self.fields.valueList.map GenericFieldSet.entry).eraseIdx
      (self.fields.valueList.length - 1) = front.map GenericFieldSet.entry := by
    rw [List.eraseIdx_eq_dropLast (by rw [List.length_map]; omega), split, List.map_append]
    exact List.dropLast_concat
  rw [DictOperation.applied, place, Int.toNat_natCast, wellFormed.items] at items
  obtain ⟨values, whole⟩ := GenericFieldSet.wellFormed_of_items self keeps.consistent
    (items.trans deleted)
  exact ⟨_, Prod.ext done rfl, values, whole⟩

namespace SeekableFieldSet

variable {place : Surroundings} {self : SeekableFieldSet}

/-! The fields that fill the gaps. -/

def unparsedField (place : Surroundings) (gap : Interval) : Field :=
  ⟨unparsedName, ⟨.unparsed, (gap.1 - place.absoluteAddress).toNat, gap.2.toNat⟩⟩

/-- A raw field of whole bytes has at most 2**64 of them. -/
def Creatable (gap : Interval) : Prop :=
  ¬ (gap.2.toNat % 8 = 0 ∧ 2 ^ 64 < gap.2.toNat / 8)

/-- The names that the unparsed fields get. -/
def unparsedFields (place : Surroundings) (self : SeekableFieldSet) (gaps : List Interval) :
    List Field :=
  (uniqueNames self.arrayCount (gaps.map (unparsedField place))).1

/-- Each gap can be filled, by a field whose name is free. -/
def Fillable (place : Surroundings) (self : SeekableFieldSet) (gaps : List Interval) : Prop :=
  (∀ gap ∈ gaps, Creatable gap) ∧
    (names (unparsedFields place self gaps) ++ names self.values).Nodup

theorem createField_raises {gap : Interval} (bad : ¬ Creatable gap) (address : Nat) :
    ∃ error, createField unparsedName .unparsed address gap.2.toNat = .error error :=
  ⟨_, if_pos (not_not.mp bad)⟩

/-- The set that one turn of the loop makes, with the dictionary it makes. -/
def filledGap (place : Surroundings) (self : SeekableFieldSet) (gap : Interval)
    (fields : Dict FieldName Field) : SeekableFieldSet :=
  { self with
    fields := fields
    arrayCount := (rename self.arrayCount (unparsedField place gap)).2
    currentSize := (gap.1 - place.absoluteAddress).toNat }

theorem seekBit_gap {gap : Interval} (inside : (place.absoluteAddress : Int) ≤ gap.1) :
    self.seekBit place gap.1 false =
      .ok { self with currentSize := (gap.1 - place.absoluteAddress).toNat } :=
  if_neg (by simpa using inside)

theorem createField_gap {gap : Interval} (creatable : Creatable gap) :
    createField unparsedName .unparsed (gap.1 - place.absoluteAddress).toNat gap.2.toNat =
      .ok (unparsedField place gap) :=
  if_neg creatable

theorem addUnparsed_free {gap : Interval} (inside : (place.absoluteAddress : Int) ≤ gap.1)
    (creatable : Creatable gap) (gaps : List Interval) {fields : Dict FieldName Field}
    (appended : self.fields.append (rename self.arrayCount (unparsedField place gap)).1.name
      (rename self.arrayCount (unparsedField place gap)).1 = (none, fields)) :
    self.addUnparsed place (gap :: gaps) =
      (self.filledGap place gap fields).addUnparsed place gaps := by
  have sought := @seekBit_gap place self gap inside
  have created := @createField_gap place gap creatable
  obtain ⟨start, length⟩ := gap
  rw [addUnparsed, sought]
  simp only [bind, Except.bind, created, GenericFieldSet.numbered_eq, withBase, appended,
    filledGap]

theorem addUnparsed_taken {gap : Interval} (inside : (place.absoluteAddress : Int) ≤ gap.1)
    (creatable : Creatable gap) (gaps : List Interval)
    (taken : (rename self.arrayCount (unparsedField place gap)).1.name ∈ self.fields.index) :
    self.addUnparsed place (gap :: gaps) = .error (.ofDict .uniqKeyError) := by
  have sought := @seekBit_gap place self gap inside
  have created := @createField_gap place gap creatable
  have refused : self.fields.append (rename self.arrayCount (unparsedField place gap)).1.name
      (rename self.arrayCount (unparsedField place gap)).1 = (some .uniqKeyError, self.fields) :=
    if_pos taken
  obtain ⟨start, length⟩ := gap
  rw [addUnparsed, sought]
  simp only [bind, Except.bind, created, GenericFieldSet.numbered_eq, withBase, refused]

theorem addUnparsed_raises {gap : Interval} (inside : (place.absoluteAddress : Int) ≤ gap.1)
    (bad : ¬ Creatable gap) (gaps : List Interval) :
    ∃ error, self.addUnparsed place (gap :: gaps) = .error error := by
  have sought := @seekBit_gap place self gap inside
  obtain ⟨error, raised⟩ := createField_raises bad (gap.1 - place.absoluteAddress).toNat
  refine ⟨error, ?_⟩
  obtain ⟨start, length⟩ := gap
  rw [addUnparsed, sought]
  simp only [bind, Except.bind, raised]

theorem fillable_cons {gap : Interval} {gaps : List Interval} :
    Fillable place self (gap :: gaps) ↔
      Creatable gap ∧
        (rename self.arrayCount (unparsedField place gap)).1.name ∉ names self.values ∧
        (∀ gap ∈ gaps, Creatable gap) ∧
        (names (uniqueNames (rename self.arrayCount (unparsedField place gap)).2
            (gaps.map (unparsedField place))).1 ++
          names (self.values ++ [(rename self.arrayCount (unparsedField place gap)).1])).Nodup := by
  have fresh := @GenericFieldSet.nodup_names_cons self.values []
    (rename self.arrayCount (unparsedField place gap)).1
    (uniqueNames (rename self.arrayCount (unparsedField place gap)).2
      (gaps.map (unparsedField place))).1
  rw [List.append_nil] at fresh
  rw [Fillable, unparsedFields, List.map_cons, uniqueNames_cons, fresh, List.forall_mem_cons]
  exact ⟨fun ⟨⟨head, tail⟩, free, rest⟩ => ⟨head, free, tail, rest⟩,
    fun ⟨head, free, tail, rest⟩ => ⟨⟨head, tail⟩, free, rest⟩⟩

/-- The loop fills every gap, or raises where it cannot. -/
theorem addUnparsed_spec (wellFormed : self.WellFormed) {gaps : List Interval}
    (inside : ∀ gap ∈ gaps, (place.absoluteAddress : Int) ≤ gap.1) :
    (Fillable place self gaps ∧ ∃ after, self.addUnparsed place gaps = .ok after ∧
      after.size = self.size ∧ after.values = self.values ++ unparsedFields place self gaps) ∨
    (¬ Fillable place self gaps ∧ ∃ error, self.addUnparsed place gaps = .error error) := by
  induction gaps generalizing self with
  | nil =>
      exact .inl ⟨⟨fun _ member => (by cases member), wellFormed.nodup⟩, self, rfl, rfl,
        (List.append_nil _).symm⟩
  | cons gap gaps induction =>
      obtain ⟨here, further⟩ := List.forall_mem_cons.mp inside
      rw [fillable_cons]
      by_cases creatable : Creatable gap
      swap
      · exact .inr ⟨fun fillable => creatable fillable.1, addUnparsed_raises here creatable gaps⟩
      by_cases taken : (rename self.arrayCount (unparsedField place gap)).1.name ∈
          names self.values
      · exact .inr ⟨fun fillable => fillable.2.1 taken, _,
          addUnparsed_taken here creatable gaps (wellFormed.mem_index.mpr taken)⟩
      · obtain ⟨fields, appended, values, whole⟩ := wellFormed.append taken
        have next := @induction (self.filledGap place gap fields)
          ⟨whole.consistent, whole.items⟩ further
        have fillable : Fillable place (self.filledGap place gap fields) gaps ↔
            (∀ gap ∈ gaps, Creatable gap) ∧
              (names (uniqueNames (rename self.arrayCount (unparsedField place gap)).2
                  (gaps.map (unparsedField place))).1 ++
                names (self.values ++
                  [(rename self.arrayCount (unparsedField place gap)).1])).Nodup := by
          rw [← values]
          rfl
        rw [fillable] at next
        rw [addUnparsed_free here creatable gaps appended]
        simp only [creatable, taken, not_false_eq_true, true_and]
        refine next.imp_left fun ⟨fillable, after, done, size, last⟩ =>
          ⟨fillable, after, done, size, last.trans ?_⟩
        show fields.valueList ++ _ = _
        rw [values, List.append_assoc]
        rfl

/-! The gaps between the fields, and the size they are looked for in. -/

/-- The size of the set, which the fields of a SeekableFieldSet may make larger. -/
def extent (kind : SeekableClass) (size : Nat) (fields : List Field) : Nat :=
  match kind with
  | .seekable => (fields.map fun x => x.address + x.size).foldl max size
  | .newSeekable => size

theorem fixedSize_eq {kind : SeekableClass} (size : Nat) {fields : List Field}
    (nonempty : kind = .seekable → fields ≠ []) :
    fixedSize kind size fields = .ok (extent kind size fields) := by
  cases kind with
  | newSeekable => rfl
  | seekable =>
      obtain ⟨field, others, rfl⟩ := List.exists_cons_of_ne_nil (nonempty rfl)
      rw [fixedSize, extent, List.map_cons, List.max?_cons', List.foldl_cons, List.foldl_assoc]

def gapsOf (kind : SeekableClass) (place : Surroundings) (size : Nat) (fields : List Field) :
    List Interval :=
  getgaps place.absoluteAddress (extent kind size fields) (blocks place fields)

theorem gaps_inside {start length : Nat} {blocks : List Interval}
    {gap : Interval} (member : gap ∈ getgaps start length blocks) : (start : Int) ≤ gap.1 :=
  ((getgaps_pieces start length blocks).start_inside member).1

/-- Every bit is in a field or in the field that fills a gap. -/
theorem covered_or_gap (place : Surroundings) (size : Nat) (fields : List Field) {bit : Nat}
    (inside : bit < size) :
    (∃ field ∈ fields, field.Has bit) ∨
      ∃ gap ∈ getgaps place.absoluteAddress size (blocks place fields),
        (unparsedField place gap).Has bit := by
  by_cases covered : Covered (blocks place fields) (place.absoluteAddress + bit : Nat)
  · obtain ⟨block, member, from', until'⟩ := covered
    obtain ⟨field, fieldMember, rfl⟩ := List.mem_map.mp member
    dsimp only at from' until'
    exact .inl ⟨field, fieldMember, by omega, by omega⟩
  · have swept : Swept (place.absoluteAddress + size) place.absoluteAddress
        (blocks place fields) (place.absoluteAddress + bit : Nat) :=
      ⟨by omega, covered, .inl (by omega)⟩
    obtain ⟨gap, member, from', until'⟩ :=
      ((getgaps_pieces _ _ _).covers _).mp swept
    have start := gaps_inside member
    refine .inr ⟨gap, member, ?_, ?_⟩
    · show (gap.1 - place.absoluteAddress).toNat ≤ bit
      omega
    · show bit < (gap.1 - place.absoluteAddress).toNat + gap.2.toNat
      omega

/-! The loop that deletes the last field. -/

theorem deleteLoop_done {size turns currentSize : Nat} {fields : Dict FieldName Field}
    (within : currentSize ≤ size) : deleteLoop size turns currentSize fields = .ok fields := by
  cases turns with
  | zero => exact if_neg (by omega)
  | succ turns => exact if_neg (by omega)

/-- What it leaves is a first part of the fields, without the last if it deletes any. -/
theorem deleteLoop_keeps {base : GenericFieldSet} {size turns : Nat} {currentSize : Int}
    {fields left : Dict FieldName Field}
    (wellFormed : GenericFieldSet.WellFormed { base with fields := fields })
    (done : deleteLoop size turns currentSize fields = .ok left) :
    GenericFieldSet.WellFormed { base with fields := left } ∧
      ∃ removed, fields.valueList = left.valueList ++ removed ∧
        (size < currentSize → removed ≠ []) := by
  induction turns generalizing currentSize fields with
  | zero =>
      rw [deleteLoop] at done
      split at done
      · cases done
      · next within =>
          cases done
          exact ⟨wellFormed, [], (List.append_nil _).symm, fun past => absurd past within⟩
  | succ turns induction =>
      rw [deleteLoop] at done
      split at done
      swap
      · next within =>
          cases done
          exact ⟨wellFormed, [], (List.append_nil _).symm, fun past => absurd past within⟩
      split at done
      · cases done
      · next last found =>
          obtain ⟨front, split⟩ := List.getLast?_eq_some_iff.mp found
          obtain ⟨rest, deleted, values, whole⟩ := wellFormed.deleteLast split
          dsimp only at deleted
          rw [deleted] at done
          obtain ⟨kept, removed, same, -⟩ := induction whole done
          refine ⟨kept, removed ++ [last], ?_, fun _ => by simp⟩
          rw [split, ← values, same, List.append_assoc]

/-! What a set that has stopped feeding should be. -/

structure Covers (before after : SeekableFieldSet) (size : Nat) : Prop where
  sized : after.size = some size
  ends : after.currentSize = size
  covered : ∀ bit < size, ∃ field ∈ after.values, field.Has bit
  kept : ∀ field ∈ before.values, field.address + field.size ≤ size → field ∈ after.values
  padded : ∀ field ∈ after.values, field ∈ before.values ∨ field.value.content = .unparsed

def CoversItself (kind : SeekableClass) (place : Surroundings) (self : SeekableFieldSet) :
    Prop :=
  ∃ after size, self.stopFeeding kind place = .ok after ∧ Covers self after size

/-- The position is not past the size of the set, which is known or that of its parent to
find; a SeekableFieldSet has a field, a NewSeekableFieldSet lies at the start of the stream;
and the gaps can be filled. -/
def Settled (kind : SeekableClass) (place : Surroundings) (self : SeekableFieldSet) : Prop :=
  ∃ size, self.stoppedSize place = some size ∧ self.currentSize ≤ size ∧
    (kind = .seekable → self.values ≠ []) ∧
    (kind = .newSeekable → place.absoluteAddress = 0) ∧
    Fillable place self (gapsOf kind place size self.values)

/-- What holds of a set while it is fed. -/
structure Fed (place : Surroundings) (set : SeekableFieldSet) : Prop where
  wellFormed : set.WellFormed
  parsed : ∀ field ∈ set.values, ∃ id, field.value.content = .object id
  within : ∀ size, set.size.or place.room = some size →
    ∀ field ∈ set.values, field.address + field.size ≤ size

theorem unparsedFields_content {gaps : List Interval} {field : Field}
    (member : field ∈ unparsedFields place self gaps) : field.value.content = .unparsed := by
  have value := List.mem_map_of_mem (f := NamedField.value) member
  rw [unparsedFields, values_uniqueNames, List.map_map] at value
  obtain ⟨gap, -, same⟩ := List.mem_map.mp value
  rw [← same]
  rfl

theorem unparsedFields_has {gaps : List Interval} {gap : Interval} (member : gap ∈ gaps)
    {bit : Nat} (has : (unparsedField place gap).Has bit) :
    ∃ field ∈ unparsedFields place self gaps, field.Has bit := by
  have value : (unparsedField place gap).value ∈
      (unparsedFields place self gaps).map NamedField.value := by
    rw [unparsedFields, values_uniqueNames]
    exact List.mem_map_of_mem (List.mem_map_of_mem member)
  obtain ⟨field, inside, same⟩ := List.mem_map.mp value
  refine ⟨field, inside, ?_⟩
  rw [Field.Has, Field.address, Field.size, same]
  exact has

/-- The last seek of `_fixLastField`. -/
def lastSeek (kind : SeekableClass) (place : Surroundings) (self : SeekableFieldSet)
    (size : Nat) : Except FieldSetError SeekableFieldSet :=
  match kind with
  | .seekable => self.seekBit place (size + place.absoluteAddress) false
  | .newSeekable => self.seekBit place size false

/-- It puts the position at the end of the set. -/
theorem lastSeek_iff {kind : SeekableClass} {size : Nat} {after : SeekableFieldSet} :
    (self.lastSeek kind place size = .ok after ∧ after.currentSize = size) ↔
      (kind = .newSeekable → place.absoluteAddress = 0) ∧
        after = { self with currentSize := size } := by
  cases kind with
  | seekable =>
      have sought : self.lastSeek .seekable place size =
          .ok { self with currentSize := size } := by
        rw [lastSeek, seekBit]
        simp
      simp only [sought, reduceCtorEq, false_implies, true_and, Except.ok.injEq]
      exact ⟨fun done => done.1.symm, fun done => ⟨done.symm, by rw [done]⟩⟩
  | newSeekable =>
      simp only [forall_const, lastSeek, seekBit, Bool.false_eq_true, if_false]
      constructor
      · rintro ⟨done, ends⟩
        split at done
        · cases done
        · next inside =>
            cases done
            dsimp only at ends
            have start : place.absoluteAddress = 0 := by omega
            refine ⟨start, ?_⟩
            rw [ends]
      · rintro ⟨start, rfl⟩
        rw [start]
        simp

theorem seekBit_keeps {address : Int} {relative : Bool} {after : SeekableFieldSet}
    (sought : self.seekBit place address relative = .ok after) :
    ∃ currentSize, after = { self with currentSize := currentSize } := by
  rw [seekBit] at sought
  generalize (if relative then address else address - place.absoluteAddress) = target at sought
  split at sought
  · cases sought
  · cases sought
    exact ⟨_, rfl⟩

theorem lastSeek_keeps {kind : SeekableClass} {size : Nat} {after : SeekableFieldSet}
    (sought : self.lastSeek kind place size = .ok after) :
    after.size = self.size ∧ after.values = self.values := by
  cases kind with
  | seekable =>
      obtain ⟨currentSize, rfl⟩ := seekBit_keeps sought
      exact ⟨rfl, rfl⟩
  | newSeekable =>
      obtain ⟨currentSize, rfl⟩ := seekBit_keeps sought
      exact ⟨rfl, rfl⟩

theorem size_le_extent (kind : SeekableClass) (size : Nat) (fields : List Field) :
    size ≤ extent kind size fields := by
  cases kind with
  | newSeekable => exact le_refl size
  | seekable =>
      rw [extent, List.foldl_max]
      exact le_max_left _ _

theorem fixedSize_ok_iff {kind : SeekableClass} {size fixed : Nat} {fields : List Field} :
    fixedSize kind size fields = .ok fixed ↔
      (kind = .seekable → fields ≠ []) ∧ fixed = extent kind size fields := by
  by_cases nonempty : kind = .seekable → fields ≠ []
  · rw [fixedSize_eq size nonempty, Except.ok.injEq, eq_comm]
    exact (and_iff_right nonempty).symm
  · refine iff_of_false (fun done => ?_) fun both => nonempty both.1
    obtain ⟨rfl, none⟩ := Classical.not_imp.mp nonempty
    rw [not_not.mp none] at done
    cases done

/-- A fix that returns: the size is computed, the gaps are filled, and the last seek is
made. -/
theorem fixLastField_ok_iff {kind : SeekableClass} {size : Nat} {after : SeekableFieldSet} :
    self.fixLastField kind place size = .ok after ↔
      ∃ fields middle, deleteLoop size self.fields.valueList.length self.currentSize self.fields =
          .ok fields ∧
        (kind = .seekable → fields.valueList ≠ []) ∧
        addUnparsed place
          { self with fields := fields, size := some (extent kind size fields.valueList) }
          (gapsOf kind place size fields.valueList) = .ok middle ∧
        middle.lastSeek kind place (extent kind size fields.valueList) = .ok after := by
  rw [fixLastField]
  cases deleted : deleteLoop size self.fields.valueList.length self.currentSize self.fields with
  | error error => exact iff_of_false nofun nofun
  | ok fields =>
      simp only [bind, Except.bind, Except.ok.injEq, exists_and_left, exists_eq_left']
      cases fixed : fixedSize kind size fields.valueList with
      | error error =>
          refine iff_of_false nofun fun ⟨nonempty, _⟩ => ?_
          rw [fixedSize_eq size nonempty] at fixed
          cases fixed
      | ok fixed' =>
          obtain ⟨nonempty, rfl⟩ := fixedSize_ok_iff.mp fixed
          rw [and_iff_right nonempty, gapsOf]
          dsimp only
          cases addUnparsed place
              { self with fields := fields, size := some (extent kind size fields.valueList) }
              (getgaps place.absoluteAddress (extent kind size fields.valueList)
                (blocks place fields.valueList)) with
          | error error => exact iff_of_false nofun nofun
          | ok middle =>
              simp only [Except.ok.injEq, exists_eq_left']
              rfl

theorem covers_of_settled {kind : SeekableClass} (wellFormed : self.WellFormed)
    (settled : Settled kind place self) : CoversItself kind place self := by
  obtain ⟨size, stopped, within, nonempty, start, fillable⟩ := settled
  have kept : GenericFieldSet.WellFormed
      { self.toGenericFieldSet with fields := self.fields } := wellFormed
  obtain ⟨-, middle, filled, sized, values⟩ | ⟨unfillable, -⟩ :=
    @addUnparsed_spec place { self with size := some (extent kind size self.values) } kept
      (gapsOf kind place size self.values) fun _ member => gaps_inside member
  swap
  · exact absurd fillable unfillable
  obtain ⟨sought, ends⟩ := (@lastSeek_iff place middle kind (extent kind size self.values)
    { middle with currentSize := extent kind size self.values }).mpr ⟨start, rfl⟩
  refine ⟨{ middle with currentSize := extent kind size self.values },
    extent kind size self.values, ?_, sized, rfl, ?_, ?_, ?_⟩
  · rw [stopFeeding, stopped]
    exact fixLastField_ok_iff.mpr ⟨self.fields, middle, deleteLoop_done within, nonempty,
      filled, sought⟩
  · intro bit inside
    show ∃ field ∈ middle.values, field.Has bit
    rw [values]
    obtain ⟨field, member, has⟩ | ⟨gap, member, has⟩ := covered_or_gap place _ self.values inside
    · exact ⟨field, List.mem_append_left _ member, has⟩
    · obtain ⟨field, added, has⟩ := unparsedFields_has member has
      exact ⟨field, List.mem_append_right _ added, has⟩
  · intro field member _
    show field ∈ middle.values
    rw [values]
    exact List.mem_append_left _ member
  · intro field member
    have inside : field ∈ middle.values := member
    rw [values] at inside
    exact (List.mem_append.mp inside).imp_right unparsedFields_content

theorem settled_of_covers {kind : SeekableClass} (fed : Fed place self)
    (covers : CoversItself kind place self) : Settled kind place self := by
  obtain ⟨after, whole, done, sized, ends, -, kept, -⟩ := covers
  rw [stopFeeding] at done
  split at done
  · cases done
  next size stopped =>
  obtain ⟨fields, middle, deleted, nonempty, filled, sought⟩ := fixLastField_ok_iff.mp done
  obtain ⟨left, removed, split, past⟩ := @deleteLoop_keeps self.toGenericFieldSet _ _ _ _ _
    fed.wellFormed deleted
  obtain ⟨fillable, other, again, size', values⟩ | ⟨-, error, raised⟩ :=
    @addUnparsed_spec place
      { self with fields := fields, size := some (extent kind size fields.valueList) } left
      (gapsOf kind place size fields.valueList) fun _ member => gaps_inside member
  swap
  · rw [raised] at filled
    cases filled
  cases again.symm.trans filled
  obtain ⟨afterSize, afterValues⟩ := lastSeek_keeps sought
  obtain rfl : whole = extent kind size fields.valueList :=
    Option.some.inj (sized.symm.trans (afterSize.trans size'))
  obtain ⟨start, -⟩ := lastSeek_iff.mp ⟨sought, ends⟩
  have within : self.currentSize ≤ size := by
    by_contra beyond
    obtain ⟨field, rest, cons⟩ := List.exists_cons_of_ne_nil (past (by omega))
    have member : field ∈ removed := cons ▸ List.mem_cons_self
    have inside : field ∈ self.values := by
      rw [GenericFieldSet.values, split]
      exact List.mem_append_right _ member
    have known : self.size.or place.room = some size := by
      rw [stoppedSize] at stopped
      split at stopped
      · next known => rw [known, ← stopped, Option.some_or]
      · split at stopped
        · cases stopped
          exact absurd (le_refl _) beyond
        · cases stopped
    have survives := kept field inside
      ((fed.within size known field inside).trans (size_le_extent kind size fields.valueList))
    rw [afterValues, values] at survives
    rcases List.mem_append.mp survives with before | added
    · have distinct := fed.wellFormed.nodup.of_map
      rw [GenericFieldSet.values, split] at distinct
      exact (List.nodup_append.mp distinct).2.2 field before field member rfl
    · obtain ⟨id, parsed⟩ := fed.parsed field inside
      cases parsed.symm.trans (unparsedFields_content added)
  cases (deleteLoop_done within).symm.trans deleted
  exact ⟨size, stopped, within, nonempty, start, fillable⟩

/-! A set while it is fed. -/

theorem Fed.empty (place : Surroundings) (size : Option Nat) :
    Fed place (SeekableFieldSet.empty size) where
  wellFormed := ⟨Dict.empty_consistent, rfl⟩
  parsed _ member := by cases member
  within _ _ _ member := by cases member

/-- A position and a count of names do not matter to it. -/
theorem Fed.moved (fed : Fed place self) (arrayCount : ArrayCount) (currentSize : Nat) :
    Fed place { self with arrayCount := arrayCount, currentSize := currentSize } :=
  ⟨⟨fed.wellFormed.consistent, fed.wellFormed.items⟩, fed.parsed, fed.within⟩

theorem Fed.grown (fed : Fed place self) (field : Field) {id : Nat}
    (object : field.value.content = .object id)
    (fits : ∀ size, self.size.or place.room = some size → field.address + field.size ≤ size)
    {fields : Dict FieldName Field}
    (appended : self.fields.append field.name field = (none, fields)) :
    Fed place { self with fields := fields } := by
  have free : field.name ∉ names self.values := by
    intro taken
    rw [Dict.append, if_pos (fed.wellFormed.mem_index.mpr taken)] at appended
    cases appended
  obtain ⟨other, again, values, whole⟩ := fed.wellFormed.append free
  cases again.symm.trans appended
  have member : ∀ other, other ∈ fields.valueList → other ∈ self.values ∨ other = field := by
    intro other member
    rw [values] at member
    exact (List.mem_append.mp member).imp_right List.mem_singleton.mp
  refine ⟨whole, fun other inside => ?_, fun size known other inside => ?_⟩
  · rcases member other inside with before | rfl
    · exact fed.parsed other before
    · exact ⟨id, object⟩
  · rcases member other inside with before | rfl
    · exact fed.within size known other before
    · exact fits size known

theorem Fed.appendField (fed : Fed place self) (field : Field) {id : Nat}
    (object : field.value.content = .object id)
    (fits : ∀ size, self.size.or place.room = some size → field.address + field.size ≤ size) :
    Fed place (self.appendField field).2 := by
  rw [SeekableFieldSet.appendField]
  dsimp only
  split
  · next fields appended =>
      exact (fed.moved self.arrayCount (self.currentSize + field.size)).grown field object fits
        appended
  · split
    · next fields appended =>
        exact (fed.moved _ (self.currentSize + field.size)).grown
          (setUniqueFieldName self.arrayCount { field with name := field.name.bracketed }).1
          object fits appended
    · exact fed.moved _ _

/-- What checkSize finds is what remains of the set or of its room. -/
theorem checkSize_eq {size : Nat} {rest : Int} (found : self.checkSize place size = some rest) :
    ∃ whole, self.size.or place.room = some whole ∧ rest = whole - size := by
  rw [checkSize, Option.map_eq_some_iff] at found
  obtain ⟨whole, known, same⟩ := found
  exact ⟨whole, known, same.symm⟩

theorem Fed.sized (fed : Fed place self) {size : Nat}
    (known : self.size.or place.room = some size) :
    Fed place { self with size := some size } :=
  ⟨fed.wellFormed, fed.parsed, fun _ same => Option.some.inj same ▸ fed.within size known⟩

theorem Fed.addField (fed : Fed place self) (field : Field) {id : Nat}
    (object : field.value.content = .object id) (isFieldSet : Bool) :
    Fed place (self.addField place field isFieldSet).2 := by
  rw [SeekableFieldSet.addField, GenericFieldSet.numbered_eq]
  have object' : (rename self.arrayCount field).1.value.content = .object id := by
    rw [rename_value]
    exact object
  generalize rename self.arrayCount field = named at object' ⊢
  obtain ⟨field, arrayCount⟩ := named
  have renamed := fed.moved arrayCount self.currentSize
  dsimp only [withBase]
  split
  · split
    · split
      · exact renamed
      · next rest found =>
          obtain ⟨whole, known, remains⟩ := checkSize_eq found
          dsimp only at known remains
          simp only [Field.at'_address, Field.at'_size] at remains
          split
          · next room =>
              split
              · refine renamed.appendField { field with value := ⟨field.value.content,
                  self.currentSize, (field.size + rest).toNat⟩ } object' fun size same => ?_
                cases known.symm.trans same
                show self.currentSize + (field.size + rest).toNat ≤ whole
                rw [Field.at'_size] at room
                omega
              · have size : self.size.getD (self.currentSize +
                    ((field.at' self.currentSize).size + rest).toNat) = whole := by
                  cases own : self.size with
                  | some size =>
                      rw [own, Option.some_or] at known
                      exact Option.some.inj known
                  | none =>
                      rw [Field.at'_size] at room ⊢
                      rw [Option.getD_none]
                      omega
                rw [size]
                exact renamed.sized known
          · exact renamed
    · exact renamed
  · next enough =>
      refine renamed.appendField (field.at' self.currentSize) object' fun size known => ?_
      rw [not_or] at enough
      by_contra beyond
      refine enough.1 ⟨(size : Int) - ((field.at' self.currentSize).address +
        (field.at' self.currentSize).size : Nat), ?_, by omega⟩
      rw [checkSize, known]
      rfl

theorem Fed.perform (fed : Fed place self) (created : Created) :
    Fed place (self.perform place created).2 := by
  cases created with
  | raises => exact fed
  | seekBit address relative =>
      rw [SeekableFieldSet.perform]
      split
      · exact fed
      · next sought =>
          obtain ⟨currentSize, rfl⟩ := seekBit_keeps sought
          exact fed.moved self.arrayCount currentSize
  | field name id size isFieldSet asksStop =>
      have added := fed.addField ⟨name, .object id, 0, size⟩ rfl isFieldSet
      rw [SeekableFieldSet.perform]
      split
      · next goes =>
          rw [goes] at added
          exact added
      · exact added

theorem Fed.feed (fed : Fed place self) (further : List Created) :
    Fed place (self.feed place further).2 := by
  induction further generalizing self with
  | nil => exact fed
  | cons created further induction =>
      have next := fed.perform created
      rw [SeekableFieldSet.feed]
      split
      · next goes =>
          rw [goes] at next
          exact induction next
      · exact next

/-- After any seeks and any fields, a set that stops covers itself exactly when it is settled
at the stop. -/
theorem stopFeeding_covers_iff (kind : SeekableClass) (place : Surroundings)
    (size : Option Nat) (created : List Created) :
    CoversItself kind place ((empty size).feed place created).2 ↔
      Settled kind place ((empty size).feed place created).2 := by
  have fed := (Fed.empty place size).feed created
  exact ⟨settled_of_covers fed, covers_of_settled fed.wellFormed⟩

/-- A field of 8 bits, and a seek past the end of the 16 bits of the set. -/
theorem stopFeeding_fails_past :
    ¬ CoversItself .seekable ⟨false, none, 0, true⟩
      ((empty (some 16)).feed ⟨false, none, 0, true⟩
        [.field ⟨['a'], by decide, 'a', by decide, by decide⟩ 0 8 false false,
          .seekBit 100 true]).2 := by
  rintro ⟨after, whole, done, -⟩
  have raised : ((empty (some 16)).feed ⟨false, none, 0, true⟩
      [.field ⟨['a'], by decide, 'a', by decide, by decide⟩ 0 8 false false,
        .seekBit 100 true]).2.stopFeeding .seekable ⟨false, none, 0, true⟩ =
      .error .indexError := rfl
  cases raised.symm.trans done

end SeekableFieldSet

end Segvault.Hachoir
