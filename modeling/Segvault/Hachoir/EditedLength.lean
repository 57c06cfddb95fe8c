import Mathlib.Algebra.Ring.Int.Defs
import Mathlib.Algebra.BigOperators.Group.Finset.Basic
import Segvault.Hachoir.FieldOrder

namespace Segvault.Hachoir

/-! Lists kept under keys, counted by the keys or by the entries of the table. -/

section Table

variable {κ α : Type} [DecidableEq κ]

theorem sum_lookup_keys (table : AList fun _ : κ => List α) :
    (table.keys.map fun key => ((table.lookup key).getD []).length).sum =
      (table.entries.map fun entry => entry.2.length).sum := by
  rw [AList.keys, List.keys, List.map_map]
  congr 1
  refine List.map_congr_left fun entry member => ?_
  rw [Function.comp_apply, AList.mem_lookup_iff.mpr member, Option.getD_some]

theorem sum_lookup (table : AList fun _ : κ => List α) {keys : List κ} (nodup : keys.Nodup)
    (known : ∀ key ∈ table, key ∈ keys) :
    (keys.map fun key => ((table.lookup key).getD []).length).sum =
      (table.entries.map fun entry => entry.2.length).sum := by
  rw [← sum_lookup_keys, ← List.sum_toFinset _ nodup, ← List.sum_toFinset _ table.keys_nodup]
  symm
  refine Finset.sum_subset ?_ ?_
  · intro key member
    exact List.mem_toFinset.mpr (known key (List.mem_toFinset.mp member))
  · intro key _ absent
    have unknown : key ∉ table := fun member => absent (List.mem_toFinset.mpr member)
    rw [AList.lookup_eq_none.mpr unknown]
    rfl

end Table

namespace EditableFieldSet

variable {Value : Type} {self : EditableFieldSet Value}

/-- `__len__`: the sum, which Python refuses to return when it is negative. -/
def len (self : EditableFieldSet Value) : Int :=
  (self.input.fields.length : Int) - self.deleted.length +
    (self.inserted.entries.map fun entry => entry.2.length).sum

/-! The side tables know the fields of the input, each at most once. -/

structure Tabled (editable : EditableFieldSet Value) : Prop where
  keys : ∀ name, some name ∈ editable.inserted → name ∈ names editable.input.fields
  once : editable.deleted.Nodup
  known : ∀ name ∈ editable.deleted, name ∈ names editable.input.fields

theorem create_tabled (input : FieldSet Value) (arrayCount : ArrayCount) :
    (create input arrayCount).Tabled where
  keys _ member := absurd member (AList.notMem_empty _)
  once := List.nodup_nil
  known _ member := absurd member List.not_mem_nil

theorem Tabled.slots_length (tabled : self.Tabled) :
    ((none :: self.input.fields.map (some ∘ NamedField.name)).map
        fun place => (self.slots place).length).sum =
      (self.inserted.entries.map fun entry => entry.2.length).sum := by
  refine sum_lookup self.inserted ?_ ?_
  · rw [List.nodup_cons, ← List.map_map]
    exact ⟨by simp, self.input.distinct.map (Option.some_injective _)⟩
  · intro key member
    cases key with
    | none => exact List.mem_cons_self
    | some name =>
        rw [← List.map_map]
        exact List.mem_cons_of_mem _ (List.mem_map_of_mem (tabled.keys name member))

theorem shown_length (self : EditableFieldSet Value) :
    (self.input.fields.map fun field => (self.shown field).length).sum =
      (names self.input.fields).countP fun name => name ∉ self.deleted := by
  rw [names, List.countP_map]
  induction self.input.fields with
  | nil => rfl
  | cons field fields induction =>
      rw [List.map_cons, List.sum_cons, induction, List.countP_cons, shown, Nat.add_comm]
      by_cases gone : field.name ∈ self.deleted
      · simp [gone]
      · simp [gone]

theorem Tabled.deleted_length (tabled : self.Tabled) :
    self.deleted.length = (names self.input.fields).countP fun name => name ∈ self.deleted := by
  rw [List.countP_eq_length_filter]
  refine List.Perm.length_eq ?_
  rw [List.perm_ext_iff_of_nodup tabled.once (self.input.distinct.filter _)]
  intro name
  rw [List.mem_filter, decide_eq_true_iff]
  exact ⟨fun member => ⟨tabled.known name member, member⟩, And.right⟩

theorem Tabled.len_eq (tabled : self.Tabled) : self.len = self.iter.length := by
  have counted : self.iter.length = _ :=
    Weave.length_weave NamedField.name self.slots self.shown self.input.fields
  have split : self.input.fields.length =
      (names self.input.fields).countP (fun name => name ∈ self.deleted) +
        (names self.input.fields).countP fun name => name ∉ self.deleted := by
    have whole : (names self.input.fields).length = self.input.fields.length := List.length_map _
    rw [← whole, List.length_eq_countP_add_countP fun name => decide (name ∈ self.deleted)]
    simp
  rw [len, counted, tabled.slots_length, shown_length, tabled.deleted_length, split]
  push_cast
  omega

/-! Insertions. -/

theorem Tabled.putInserted (tabled : self.Tabled) {key : Option FieldName}
    (known : ∀ name, key = some name → name ∈ names self.input.fields)
    (fields : List (NamedField Value)) :
    (self.putInserted key fields).Tabled where
  keys name member := by
    obtain here | before := (AList.mem_insert _).mp member
    · exact known name here.symm
    · exact tabled.keys name before
  once := tabled.once
  known := tabled.known

theorem Tabled.insertChecked (tabled : self.Tabled) {key : Option FieldName}
    {newFields : List (NamedField Value)} {next : Bool} {after : EditableFieldSet Value}
    (done : self.insertChecked key newFields next = .ok after) : after.Tabled := by
  unfold EditableFieldSet.insertChecked at done
  split at done
  · next fields present =>
      have known : ∀ name, key = some name → name ∈ names self.input.fields := by
        rintro name rfl
        exact tabled.keys name (AList.lookup_isSome.mp (by rw [present]; rfl))
      split at done
      · cases done
        exact tabled.putInserted known _
      · cases done
        exact tabled.putInserted known _
  · split at done
    · cases done
      exact tabled.putInserted (by rintro _ ⟨⟩) _
    · next name _ =>
        split at done
        · next place fields found =>
            cases done
            refine tabled.putInserted ?_ _
            rintro name rfl
            have entry := List.mem_of_find?_eq_some found
            exact tabled.keys name (AList.mem_keys.mpr (List.mem_keys_of_mem entry))
        · split at done
          · cases done
          · next present =>
              rw [not_not] at present
              split at done
              · dsimp only at done
                split at done
                · cases done
                · next field found =>
                    cases done
                    refine tabled.putInserted ?_ _
                    rintro _ ⟨⟩
                    exact List.mem_map_of_mem (List.mem_of_getElem? found)
              · cases done
                refine tabled.putInserted ?_ _
                rintro _ ⟨⟩
                exact present

theorem Tabled.insertFields (tabled : self.Tabled) (key : Option FieldName)
    (newFields : List (NamedField Value)) (next : Bool) :
    (self.insertFields key newFields next).2.Tabled := by
  have counted : ({ self with arrayCount := (uniqueNames self.arrayCount newFields).2 } :
      EditableFieldSet Value).Tabled := ⟨tabled.keys, tabled.once, tabled.known⟩
  rw [EditableFieldSet.insertFields]
  dsimp only
  split
  · exact counted
  · next after done =>
      rw [insertNamed] at done
      split at done
      · cases done
      · split at done
        · cases done
        · split at done
          · cases done
          · exact counted.insertChecked done

/-! Deletions. -/

def Known (self : EditableFieldSet Value) : Edit Value → Prop
  | .delItem name => name ∈ self.deleted ∨ name ∈ names self.input.fields
  | _ => True

def CountsFields (self : EditableFieldSet Value) : Prop :=
  self.len = self.iter.length

theorem Tabled.step (tabled : self.Tabled) {edit : Edit Value} (known : self.Known edit) :
    (step self edit).Tabled := by
  cases edit with
  | insertBefore name newFields => exact tabled.insertFields _ _ _
  | insertAfter name newFields => exact tabled.insertFields _ _ _
  | insert newFields => exact tabled.insertFields _ _ _
  | setValue name value =>
      change (self.setValue name value).2.Tabled
      rw [setValue]
      split
      · exact tabled
      · split
        · exact ⟨tabled.keys, tabled.once, tabled.known⟩
        · exact tabled
  | delItem name =>
      change (self.delItem name).2.Tabled
      rw [delItem]
      split
      · exact tabled
      · next fresh =>
          refine ⟨tabled.keys, List.nodup_cons.mpr ⟨fresh, tabled.once⟩, ?_⟩
          intro other member
          obtain rfl | before := List.mem_cons.mp member
          · exact known.resolve_left fresh
          · exact tabled.known other before

/-- A name that is no field of the input is counted once more, and hides nothing. -/
theorem Tabled.unknown (tabled : self.Tabled) {name : FieldName}
    (fresh : name ∉ self.deleted) (unknown : name ∉ names self.input.fields) :
    (EditableFieldSet.step self (.delItem name)).len + 1 =
      (EditableFieldSet.step self (.delItem name)).iter.length := by
  have after : EditableFieldSet.step self (.delItem name) =
      { self with
        deleted := name :: self.deleted
        fields := Function.update self.fields name none } := by
    change (self.delItem name).2 = _
    rw [delItem, if_neg fresh]
  have same : (EditableFieldSet.step self (.delItem name)).iter = self.iter := by
    rw [after]
    refine Weave.weave_congr (fun _ _ => rfl) rfl fun field member => ?_
    have apart : field.name ≠ name := fun same =>
      unknown (same ▸ List.mem_map_of_mem member)
    simp [shown, getItem, apart]
  rw [same, ← tabled.len_eq, after, len, len, List.length_cons]
  push_cast
  omega

theorem Tabled.counts_iff (tabled : self.Tabled) (edit : Edit Value) :
    (EditableFieldSet.step self edit).CountsFields ↔ self.Known edit := by
  constructor
  · intro counts
    cases edit with
    | delItem name =>
        by_cases gone : name ∈ self.deleted
        · exact .inl gone
        · by_cases field : name ∈ names self.input.fields
          · exact .inr field
          · have wrong := tabled.unknown gone field
            rw [CountsFields] at counts
            omega
    | insertBefore name newFields => trivial
    | insertAfter name newFields => trivial
    | insert newFields => trivial
    | setValue name value => trivial
  · exact fun known => (tabled.step known).len_eq

/-- The length is the number of fields at the start, and in every state of exactly the runs
that delete no name which is no field of the input. -/
theorem countsFields_iff (input : FieldSet Value) (arrayCount : ArrayCount)
    (edits : List (Edit Value)) :
    (create input arrayCount).CountsFields ∧
      (Transition.Guarded step (fun self edit => (step self edit).CountsFields)
          (create input arrayCount) edits ↔
        Transition.Guarded step Known (create input arrayCount) edits) := by
  have start := create_tabled input arrayCount
  refine ⟨start.len_eq, ?_⟩
  exact Transition.guarded_congr Tabled (fun _ edit tabled => tabled.counts_iff edit)
    (fun _ edit tabled counts => tabled.step ((tabled.counts_iff edit).mp counts)) start edits

theorem countsFields_fails :
    ¬ Transition.Guarded step (fun self edit => (step self edit).CountsFields)
      (create headAndTail fun _ => none) [.insert [padding], .delItem padding.name] := by
  rintro ⟨-, counts, -⟩
  revert counts
  rw [CountsFields]
  decide

end EditableFieldSet

end Segvault.Hachoir
