import Segvault.Hachoir.ReplaceField

namespace Segvault.Hachoir

/-! The fields that `writeFieldsIn` puts in the place of the old one. -/

/-- A padding from one address to another, and none without room for it. -/
def padding (start stop : Nat) : List Field :=
  if start < stop then [⟨paddingName, ⟨.padding, start, stop - start⟩⟩] else []

def padded (oldField : Field) (address : Nat) (newFields : List Field) : List Field :=
  padding oldField.address address ++ placed address newFields ++
    padding (address + totalSize newFields) (oldField.address + oldField.size)

/-- A padding of whole bytes has at most 2**64 of them. -/
def Paddable (start stop : Nat) : Prop :=
  ¬ ((stop - start) % 8 = 0 ∧ 2 ^ 64 < (stop - start) / 8)

instance (start stop : Nat) : Decidable (Paddable start stop) :=
  inferInstanceAs (Decidable (¬ _))

theorem totalSize_append (first second : List Field) :
    totalSize (first ++ second) = totalSize first + totalSize second := by
  rw [totalSize, List.map_append, List.sum_append, totalSize, totalSize]

theorem totalSize_padding (start stop : Nat) : totalSize (padding start stop) = stop - start := by
  rw [padding]
  split
  · rw [totalSize_cons]
    exact Nat.add_zero _
  · next full =>
      rw [Nat.sub_eq_zero_of_le (not_lt.mp full)]
      rfl

theorem totalSize_placed (address : Nat) (fields : List Field) :
    totalSize (placed address fields) = totalSize fields := by
  induction fields generalizing address with
  | nil => rfl
  | cons field fields induction =>
      rw [placed, totalSize_cons, totalSize_cons, induction, Field.at'_size]

theorem placed_append (address : Nat) (first second : List Field) :
    placed address (first ++ second) =
      placed address first ++ placed (address + totalSize first) second := by
  induction first generalizing address with
  | nil => rfl
  | cons field first induction =>
      rw [List.cons_append, placed, placed, induction, totalSize_cons, Nat.add_assoc]
      rfl

theorem uniqueNames_append (count : ArrayCount) (first second : List Field) :
    (uniqueNames count (first ++ second)).1 =
      (uniqueNames count first).1 ++ (uniqueNames (uniqueNames count first).2 second).1 := by
  induction first generalizing count with
  | nil => rfl
  | cons field first induction =>
      rw [List.cons_append, uniqueNames_cons, uniqueNames_cons, induction]
      rfl

/-- The same fields, but for their names and addresses. -/
def SameFields (fields others : List Field) : Prop :=
  List.Forall₂ (fun field other => field.value.content = other.value.content ∧
    field.size = other.size) fields others

theorem sameFields_placed_rename (address : Nat) (count : ArrayCount) (fields : List Field) :
    SameFields (placed address (uniqueNames count fields).1) fields := by
  induction fields generalizing address count with
  | nil => exact .nil
  | cons field fields induction =>
      rw [uniqueNames_cons, placed]
      refine .cons ⟨?_, rename_size count field⟩ (induction _ _)
      rw [rename]
      split <;> rfl

theorem sameFields_placed (address : Nat) (fields : List Field) :
    SameFields (placed address fields) fields := by
  induction fields generalizing address with
  | nil => exact .nil
  | cons field fields induction => exact .cons ⟨rfl, rfl⟩ (induction _)

theorem SameFields.trans {first second third : List Field} (same : SameFields first second)
    (other : SameFields second third) : SameFields first third := by
  induction same generalizing third with
  | nil => exact other
  | cons head _ induction =>
      cases other with
      | cons next tail =>
          exact .cons ⟨head.1.trans next.1, head.2.trans next.2⟩ (induction tail)

theorem SameFields.mem {fields others : List Field} (same : SameFields fields others)
    {field : Field} (member : field ∈ fields) :
    ∃ other ∈ others, field.value.content = other.value.content ∧ field.size = other.size := by
  induction same with
  | nil => cases member
  | cons head _ induction =>
      rcases List.mem_cons.mp member with rfl | member
      · exact ⟨_, List.mem_cons_self, head⟩
      · obtain ⟨other, inside, equal⟩ := induction member
        exact ⟨other, List.mem_cons_of_mem _ inside, equal⟩

/-- Paddings that fill the bits from `start` to `stop`. -/
def Pads (start stop : Nat) (fields : List Field) : Prop :=
  Tiles start fields stop ∧ ∀ field ∈ fields, field.value.content = .padding ∧ 0 < field.size

theorem pads_padding {start stop : Nat} (ordered : start ≤ stop) (count : ArrayCount) :
    Pads start stop (placed start (uniqueNames count (padding start stop)).1) := by
  have filled := tiles_placed start (uniqueNames count (padding start stop)).1
  rw [totalSize_uniqueNames, totalSize_padding, Nat.add_sub_cancel' ordered] at filled
  refine ⟨filled, fun field member => ?_⟩
  obtain ⟨other, inside, content, size⟩ := (sameFields_placed_rename start count _).mem member
  rw [padding] at inside
  split at inside
  · next room =>
      rw [List.mem_singleton.mp inside] at content size
      refine ⟨content, ?_⟩
      rw [size]
      exact Nat.sub_pos_of_lt room
  · cases inside

namespace GenericFieldSet

variable {self : GenericFieldSet} {oldField : Field} {address : Nat} {newFields : List Field}

theorem paddingBetween_eq {start stop : Nat} (ordered : start ≤ stop)
    (paddable : Paddable start stop) : paddingBetween start stop = .ok (padding start stop) := by
  rw [paddingBetween, padding, if_neg (not_lt.mpr ordered)]
  split
  · rw [createPaddingField, createField, if_neg paddable]
    rfl
  · rfl

/-- Where it makes no padding, it raises something else than a ParserError. -/
theorem paddingBetween_raises {start stop : Nat}
    (bad : ¬ (start ≤ stop ∧ Paddable start stop)) :
    ∃ error, paddingBetween start stop = .error error ∧
      ∀ message, error ≠ .parserError message := by
  rw [paddingBetween]
  split
  · exact ⟨_, rfl, nofun⟩
  · next ordered =>
      have large := not_not.mp (not_and.mp bad (not_lt.mp ordered))
      have room : start < stop := by omega
      rw [if_pos room, createPaddingField, createField, if_pos large]
      exact ⟨_, rfl, nofun⟩

/-! `writeFieldsIn`. -/

/-- The new fields lie at the address that was asked for, between paddings that fill what
remains of the old field. -/
structure WrittenIn (before after : GenericFieldSet) (oldField : Field) (address : Nat)
    (newFields : List Field) : Prop where
  values : ∃ left right first written last, before.values = left ++ oldField :: right ∧
    after.values = left ++ (first ++ written ++ last) ++ right ∧
    Pads oldField.address address first ∧
    SameFields written newFields ∧
    Tiles address written (address + totalSize newFields) ∧
    Pads (address + totalSize newFields) (oldField.address + oldField.size) last
  tiled : after.Tiled

def Fits (oldField : Field) (address : Nat) (newFields : List Field) : Prop :=
  address + totalSize newFields ≤ oldField.address + oldField.size

structure Places (set : GenericFieldSet) (oldField : Field) (address : Nat)
    (newFields : List Field) : Prop where
  placed : Fits oldField address newFields →
    (set.writeFieldsIn oldField address newFields).1 = none ∧
      set.WrittenIn (set.writeFieldsIn oldField address newFields).2 oldField address newFields
  refused : ¬ Fits oldField address newFields →
    (∃ message, (set.writeFieldsIn oldField address newFields).1 = some (.parserError message)) ∧
      set.Unchanged (set.writeFieldsIn oldField address newFields).2

theorem totalSize_padded (early : oldField.address ≤ address)
    (fits : Fits oldField address newFields) :
    totalSize (padded oldField address newFields) = oldField.size := by
  rw [Fits] at fits
  rw [padded, totalSize_append, totalSize_append, totalSize_padding, totalSize_padding,
    totalSize_placed]
  omega

theorem writtenIn_of_replaced (early : oldField.address ≤ address)
    (fits : Fits oldField address newFields) {left right : List Field}
    (split : self.values = left ++ oldField :: right) {next : GenericFieldSet}
    (tiled : next.Tiled)
    (values : next.values = left ++ Hachoir.placed oldField.address
      (uniqueNames self.arrayCount (padded oldField address newFields)).1 ++ right) :
    self.WrittenIn next oldField address newFields := by
  rw [padded, uniqueNames_append, uniqueNames_append, placed_append, placed_append,
    totalSize_append, totalSize_uniqueNames, totalSize_uniqueNames, totalSize_padding,
    totalSize_placed, Nat.add_sub_cancel' early, ← Nat.add_assoc,
    Nat.add_sub_cancel' early] at values
  refine ⟨⟨left, right, _, _, _, split, values, pads_padding early _, ?_, ?_,
    pads_padding fits _⟩, tiled⟩
  · exact (sameFields_placed_rename _ _ _).trans (sameFields_placed _ _)
  · have filled := tiles_placed address
      (uniqueNames (uniqueNames self.arrayCount (padding oldField.address address)).2
        (Hachoir.placed address newFields)).1
    rwa [totalSize_uniqueNames, totalSize_placed] at filled

theorem writeFieldsIn_of_replacement {replace : List Field}
    (made : replacement oldField address newFields = .ok replace)
    (small : totalSize newFields ≤ oldField.size) :
    self.writeFieldsIn oldField address newFields = self.replaceField oldField.name replace := by
  rw [writeFieldsIn, if_neg (not_lt.mpr small), made]

theorem writeFieldsIn_of_error {error : FieldSetError}
    (raised : replacement oldField address newFields = .error error)
    (small : totalSize newFields ≤ oldField.size) :
    self.writeFieldsIn oldField address newFields = (some error, self) := by
  rw [writeFieldsIn, if_neg (not_lt.mpr small), raised]

theorem replacement_eq (early : oldField.address ≤ address)
    (fits : Fits oldField address newFields) (before : Paddable oldField.address address)
    (after : Paddable (address + totalSize newFields) (oldField.address + oldField.size)) :
    replacement oldField address newFields = .ok (padded oldField address newFields) := by
  rw [replacement, paddingBetween_eq early before, paddingBetween_eq fits after]
  rfl

/-- Where the new fields do not fit or a padding cannot be made, the paddings raise something
else than a ParserError. -/
theorem replacement_raises
    (bad : ¬ (oldField.address ≤ address ∧ Paddable oldField.address address ∧
      Fits oldField address newFields ∧
      Paddable (address + totalSize newFields) (oldField.address + oldField.size))) :
    ∃ error, replacement oldField address newFields = .error error ∧
      ∀ message, error ≠ .parserError message := by
  by_cases before : oldField.address ≤ address ∧ Paddable oldField.address address
  · have after : ¬ (address + totalSize newFields ≤ oldField.address + oldField.size ∧
        Paddable (address + totalSize newFields) (oldField.address + oldField.size)) :=
      fun after => bad ⟨before.1, before.2, after⟩
    obtain ⟨error, raised, other⟩ := paddingBetween_raises after
    refine ⟨error, ?_, other⟩
    rw [replacement, paddingBetween_eq before.1 before.2, raised]
    rfl
  · obtain ⟨error, raised, other⟩ := paddingBetween_raises before
    refine ⟨error, ?_, other⟩
    rw [replacement, raised]
    rfl

/-- writeFieldsIn places the fields exactly when the paddings can be made and the names are
free, and refuses the others with a ParserError when they are larger than the old field. -/
theorem writeFieldsIn_places_iff (wellFormed : self.WellFormed) (tiled : self.Tiled)
    (member : oldField ∈ self.values) (early : oldField.address ≤ address)
    (late : address < oldField.address + oldField.size) (newFields : List Field) :
    self.Places oldField address newFields ↔
      (Fits oldField address newFields →
        Paddable oldField.address address ∧
        Paddable (address + totalSize newFields) (oldField.address + oldField.size) ∧
        self.Fresh oldField.name (padded oldField address newFields)) ∧
      (¬ Fits oldField address newFields → oldField.size < totalSize newFields) := by
  by_cases fits : Fits oldField address newFields
  · have small : totalSize newFields ≤ oldField.size := by
      rw [Fits] at fits
      omega
    have places : self.Places oldField address newFields ↔
        (self.writeFieldsIn oldField address newFields).1 = none ∧
          self.WrittenIn (self.writeFieldsIn oldField address newFields).2 oldField address
            newFields :=
      ⟨fun places => places.placed fits, fun done => ⟨fun _ => done, absurd fits⟩⟩
    rw [places]
    simp only [fits, forall_const, not_true_eq_false, false_implies, and_true]
    by_cases made : Paddable oldField.address address ∧
        Paddable (address + totalSize newFields) (oldField.address + oldField.size)
    · have replaced := @writeFieldsIn_of_replacement self _ _ _ _
        (replacement_eq early fits made.1 made.2) small
      have sized := totalSize_padded early fits
      have nonempty : padded oldField address newFields ≠ [] := by
        intro empty
        rw [empty, totalSize] at sized
        simp only [List.map_nil, List.sum_nil] at sized
        omega
      obtain ⟨left, right, split⟩ := List.append_of_mem member
      rw [replaced]
      by_cases fresh : self.Fresh oldField.name (padded oldField address newFields)
      · obtain ⟨next, done, -, values, whole⟩ :=
          replaceField_fresh wellFormed tiled split nonempty sized fresh
        refine iff_of_true ?_ ⟨made.1, made.2, fresh⟩
        rw [done]
        exact ⟨rfl, writtenIn_of_replaced early fits split whole.tiled values⟩
      · obtain ⟨field, others, cons⟩ := List.exists_cons_of_ne_nil nonempty
        rw [cons] at sized fresh ⊢
        obtain ⟨error, next, raised, -⟩ := replaceField_clash wellFormed split sized fresh
        refine iff_of_false (fun done => ?_) fun all => fresh all.2.2
        rw [raised] at done
        cases done.1
    · obtain ⟨error, raised, -⟩ := @replacement_raises oldField address newFields
        fun all => made ⟨all.2.1, all.2.2.2⟩
      refine iff_of_false (fun done => ?_) fun all => made ⟨all.1, all.2.1⟩
      rw [writeFieldsIn_of_error raised small] at done
      cases done.1
  · simp only [fits, false_implies, not_false_eq_true, forall_const, true_and]
    by_cases large : oldField.size < totalSize newFields
    · have refused : self.writeFieldsIn oldField address newFields =
          (some (.parserError (tooBigMessage address)), self) := by
        rw [writeFieldsIn, if_pos large]
      refine iff_of_true ⟨fun does => absurd does fits, fun _ => ?_⟩ large
      rw [refused]
      exact ⟨⟨_, rfl⟩, rfl, rfl⟩
    · obtain ⟨error, raised, other⟩ := @replacement_raises oldField address newFields
        fun all => fits all.2.2.1
      refine iff_of_false (fun places => ?_) large
      obtain ⟨⟨message, same⟩, -⟩ := places.refused fits
      rw [writeFieldsIn_of_error raised (not_lt.mp large)] at same
      exact other message (Option.some.inj same)

theorem writeFieldsIn_places_iff_header :
    header.Places ⟨⟨['b'], by decide, 'b', by decide, by decide⟩, ⟨.object 1, 8, 16⟩⟩ 20 halves ↔
      (Fits ⟨⟨['b'], by decide, 'b', by decide, by decide⟩, ⟨.object 1, 8, 16⟩⟩ 20 halves →
        Paddable 8 20 ∧ Paddable 28 24 ∧
          header.Fresh ⟨['b'], by decide, 'b', by decide, by decide⟩
            (padded ⟨⟨['b'], by decide, 'b', by decide, by decide⟩, ⟨.object 1, 8, 16⟩⟩ 20
              halves)) ∧
      (¬ Fits ⟨⟨['b'], by decide, 'b', by decide, by decide⟩, ⟨.object 1, 8, 16⟩⟩ 20 halves →
        16 < 8) :=
  writeFieldsIn_places_iff header_wellFormed header_tiled (by decide) (by decide) (by decide)
    halves

/-- The halves are not larger than the old field, but do not fit from its thirteenth bit. -/
theorem writeFieldsIn_fails_header :
    ¬ header.Places ⟨⟨['b'], by decide, 'b', by decide, by decide⟩, ⟨.object 1, 8, 16⟩⟩ 20
      halves := by
  intro places
  obtain ⟨⟨message, raised⟩, -⟩ := places.refused (by rw [Fits]; decide)
  have asserted : (header.writeFieldsIn
      ⟨⟨['b'], by decide, 'b', by decide, by decide⟩, ⟨.object 1, 8, 16⟩⟩ 20 halves).1 =
        some .assertionError := by
    decide
  cases asserted.symm.trans raised

end GenericFieldSet

end Segvault.Hachoir
