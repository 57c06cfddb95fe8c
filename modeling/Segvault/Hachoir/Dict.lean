import Mathlib.Data.List.AList
import Mathlib.Data.List.Perm.Basic
import Segvault.Transition

namespace Segvault.Hachoir

/-! `hachoir_core.dict.Dict`: values in order, with the position of each key. -/

variable {κ α : Type} [DecidableEq κ]

abbrev Index (κ : Type) := AList fun _ : κ => Nat

def Index.shift (index : Index κ) (move : Nat → Nat) : Index κ where
  entries := index.entries.map fun entry => ⟨entry.1, move entry.2⟩
  nodupKeys := by
    have keys : (index.entries.map fun entry => (⟨entry.1, move entry.2⟩ : Σ _ : κ, Nat)).keys =
        index.entries.keys := by
      simp only [List.keys, List.map_map]
      rfl
    rw [List.NodupKeys, keys]
    exact index.nodupKeys

theorem Index.lookup_shift (index : Index κ) (move : Nat → Nat) (key : κ) :
    (index.shift move).lookup key = (index.lookup key).map move :=
  @List.dlookup_map₂ κ _ (fun _ => Nat) (fun _ => Nat) index.entries (fun _ => move) key

structure Dict (κ α : Type) [DecidableEq κ] where
  index : Index κ
  keyList : List κ
  valueList : List α

inductive DictError
  | uniqKeyError
  | keyError
  | indexError
  deriving DecidableEq, Repr

inductive DictOperation (κ α : Type)
  | append (key : κ) (value : α)
  | insert (index : Int) (key : κ) (value : α)
  | replace (oldkey newkey : κ) (newValue : α)
  | delItem (index : Int)

namespace Dict

def empty : Dict κ α := ⟨∅, [], []⟩

/-- A negative index counts from the end. -/
def position (index : Int) (length : Nat) : Int :=
  if index < 0 then index + length else index

def append (self : Dict κ α) (key : κ) (value : α) : Option DictError × Dict κ α :=
  if key ∈ self.index then (some .uniqKeyError, self)
  else
    (none, {
      index := self.index.insert key self.valueList.length
      keyList := self.keyList ++ [key]
      valueList := self.valueList ++ [value] })

def replace (self : Dict κ α) (oldkey newkey : κ) (newValue : α) :
    Option DictError × Dict κ α :=
  match self.index.lookup oldkey with
  | none => (some .keyError, self)
  | some index =>
      let self := { self with valueList := self.valueList.set index newValue }
      if oldkey ≠ newkey then
        (none, { self with
          index := (self.index.erase oldkey).insert newkey index
          keyList := self.keyList.set index newkey })
      else (none, self)

/-- The first loop of `__delitem__`: the first key at a position goes. -/
def eraseAt (index : Index κ) (place : Nat) : Index κ :=
  match index.entries.find? fun entry => entry.2 = place with
  | some entry => index.erase entry.1
  | none => index

def delItem (self : Dict κ α) (index : Int) : Option DictError × Dict κ α :=
  let index := position index self.valueList.length
  if 0 ≤ index ∧ index < self.valueList.length then
    let index := index.toNat
    (none, {
      index := (eraseAt self.index index).shift fun item =>
        if index < item then item - 1 else item
      keyList := self.keyList.eraseIdx index
      valueList := self.valueList.eraseIdx index })
  else (some .indexError, self)

def insert (self : Dict κ α) (index : Int) (key : κ) (value : α) :
    Option DictError × Dict κ α :=
  if key ∈ self.index then (some .uniqKeyError, self)
  else
    let index := position index self.valueList.length
    if 0 ≤ index ∧ index ≤ self.valueList.length then
      let index := index.toNat
      (none, {
        index := (self.index.shift fun item => if index ≤ item then item + 1 else item).insert
          key index
        keyList := self.keyList.insertIdx index key
        valueList := self.valueList.insertIdx index value })
    else (some .indexError, self)

def perform (self : Dict κ α) : DictOperation κ α → Option DictError × Dict κ α
  | .append key value => self.append key value
  | .insert index key value => self.insert index key value
  | .replace oldkey newkey newValue => self.replace oldkey newkey newValue
  | .delItem index => self.delItem index

/-! The keys with their values, in order. -/

def items (self : Dict κ α) : List (κ × α) :=
  self.keyList.zip self.valueList

structure Consistent (dict : Dict κ α) : Prop where
  nodup : dict.keyList.Nodup
  values : dict.valueList.length = dict.keyList.length
  size : dict.index.entries.length = dict.keyList.length
  lookup : ∀ key place, dict.index.lookup key = some place ↔ dict.keyList[place]? = some key

end Dict

/-- What an operation does to the items, if it does not raise. -/
def DictOperation.applied (operation : DictOperation κ α) (items : List (κ × α)) :
    List (κ × α) :=
  match operation with
  | .append key value => items ++ [(key, value)]
  | .insert index key value =>
      items.insertIdx (Dict.position index items.length).toNat (key, value)
  | .replace oldkey newkey newValue =>
      items.set ((items.map Prod.fst).idxOf oldkey) (newkey, newValue)
  | .delItem index => items.eraseIdx (Dict.position index items.length).toNat

/-- The new key of a replacement is the old one, or is not in use. -/
def DictOperation.Fresh (operation : DictOperation κ α) (keys : List κ) : Prop :=
  match operation with
  | .replace oldkey newkey _ => oldkey ∈ keys → newkey = oldkey ∨ newkey ∉ keys
  | _ => True

namespace Dict

variable {self : Dict κ α}

theorem Consistent.mem_index (consistent : self.Consistent) {key : κ} :
    key ∈ self.index ↔ key ∈ self.keyList := by
  rw [← AList.lookup_isSome, Option.isSome_iff_exists, List.mem_iff_getElem?]
  exact exists_congr fun place => consistent.lookup key place

/-- The index has one entry for each key once it finds every key. -/
theorem Consistent.of_lookup (nodup : self.keyList.Nodup)
    (values : self.valueList.length = self.keyList.length)
    (lookup : ∀ key place, self.index.lookup key = some place ↔
      self.keyList[place]? = some key) : self.Consistent where
  nodup := nodup
  values := values
  size := by
    have same : self.index.keys.Perm self.keyList := by
      refine (List.perm_ext_iff_of_nodup self.index.keys_nodup nodup).mpr fun key => ?_
      rw [← AList.mem_keys, ← AList.lookup_isSome, Option.isSome_iff_exists,
        List.mem_iff_getElem?]
      exact exists_congr fun place => lookup key place
    rw [← same.length_eq]
    exact (List.length_map _).symm
  lookup := lookup

theorem items_eq {items : List (κ × α)} (keys : self.keyList = items.map Prod.fst)
    (values : self.valueList = items.map Prod.snd) : self.items = items := by
  rw [Dict.items, keys, values]
  exact (List.zip_of_prod rfl rfl).symm

theorem Consistent.keys_eq (consistent : self.Consistent) :
    self.keyList = self.items.map Prod.fst :=
  (List.map_fst_zip (Nat.le_of_eq consistent.values.symm)).symm

theorem Consistent.values_eq (consistent : self.Consistent) :
    self.valueList = self.items.map Prod.snd :=
  (List.map_snd_zip (Nat.le_of_eq consistent.values)).symm

/-! Each operation, on a dictionary that is consistent. -/

/-- What a call should do: change the items, and nothing if it raises. -/
structure Keeps (dict : Dict κ α) (operation : DictOperation κ α) : Prop where
  consistent : (dict.perform operation).2.Consistent
  unchanged : (dict.perform operation).1 ≠ none → (dict.perform operation).2 = dict
  applied : (dict.perform operation).1 = none →
    (dict.perform operation).2.items = operation.applied dict.items

theorem Keeps.of_error (consistent : self.Consistent) {operation : DictOperation κ α}
    {error : DictError} (raised : self.perform operation = (some error, self)) :
    self.Keeps operation where
  consistent := by rwa [raised]
  unchanged _ := by rw [raised]
  applied none := by
    rw [raised] at none
    cases none

theorem append_keeps (consistent : self.Consistent) (key : κ) (value : α) :
    self.Keeps (.append key value) := by
  by_cases present : key ∈ self.index
  · exact .of_error consistent (if_pos present)
  have performed : self.perform (.append key value) = (none, {
      index := self.index.insert key self.valueList.length
      keyList := self.keyList ++ [key]
      valueList := self.valueList ++ [value] }) := if_neg present
  have fresh := mt consistent.mem_index.mpr present
  refine ⟨?_, fun raised => absurd (by rw [performed]) raised, fun _ => ?_⟩
  · rw [performed]
    refine .of_lookup ?_ ?_ fun other place => ?_
    · exact List.nodup_append.mpr ⟨consistent.nodup, List.nodup_singleton key,
        fun one member other last same => fresh (List.mem_singleton.mp last ▸ same ▸ member)⟩
    · rw [List.length_append, List.length_append, consistent.values]
      rfl
    · have holds := consistent.lookup other place
      have free : ∀ place, self.keyList[place]? ≠ some key := fun place found =>
        fresh (List.mem_of_getElem? found)
      dsimp only
      rw [consistent.values, List.getElem?_append]
      by_cases same : other = key
      · rw [same, AList.lookup_insert]
        grind
      · rw [AList.lookup_insert_ne same, holds]
        grind
  · rw [performed]
    refine items_eq ?_ ?_
    · rw [DictOperation.applied, List.map_append, ← consistent.keys_eq]
      rfl
    · rw [DictOperation.applied, List.map_append, ← consistent.values_eq]
      rfl

theorem Consistent.length_items (consistent : self.Consistent) :
    self.items.length = self.keyList.length := by
  have length := congrArg List.length consistent.keys_eq
  rw [List.length_map] at length
  exact length.symm

theorem insert_keeps (consistent : self.Consistent) (index : Int) (key : κ) (value : α) :
    self.Keeps (.insert index key value) := by
  by_cases present : key ∈ self.index
  · exact .of_error consistent (if_pos present)
  by_cases valid : 0 ≤ position index self.valueList.length ∧
      position index self.valueList.length ≤ self.valueList.length
  swap
  · exact .of_error consistent ((if_neg present).trans (if_neg valid))
  have performed : self.perform (.insert index key value) = (none, {
      index := (self.index.shift fun item =>
        if (position index self.valueList.length).toNat ≤ item then item + 1 else item).insert
          key (position index self.valueList.length).toNat
      keyList := self.keyList.insertIdx (position index self.valueList.length).toNat key
      valueList := self.valueList.insertIdx (position index self.valueList.length).toNat
        value }) := (if_neg present).trans (if_pos valid)
  have fresh := mt consistent.mem_index.mpr present
  have applied : (DictOperation.insert index key value).applied self.items =
      self.items.insertIdx (position index self.valueList.length).toNat (key, value) := by
    rw [DictOperation.applied, consistent.length_items, consistent.values]
  have inside : (position index self.valueList.length).toNat ≤ self.keyList.length := by
    rw [← consistent.values]
    omega
  refine ⟨?_, fun raised => absurd (by rw [performed]) raised, fun _ => ?_⟩
  · rw [performed]
    generalize (position index self.valueList.length).toNat = index at inside ⊢
    refine .of_lookup ?_ ?_ fun other place => ?_
    · rw [(List.perm_insertIdx key self.keyList inside).nodup_iff, List.nodup_cons]
      exact ⟨fresh, consistent.nodup⟩
    · rw [List.length_insertIdx_of_le_length inside,
        List.length_insertIdx_of_le_length (by rw [consistent.values]; exact inside),
        consistent.values]
    · have holds := consistent.lookup other
      have free : ∀ place, self.keyList[place]? ≠ some key := fun place found =>
        fresh (List.mem_of_getElem? found)
      dsimp only
      rw [List.getElem?_insertIdx]
      by_cases same : other = key
      · rw [same, AList.lookup_insert]
        grind
      · rw [AList.lookup_insert_ne same, Index.lookup_shift, Option.map_eq_some_iff]
        simp only [holds]
        grind
  · rw [performed, applied]
    refine items_eq ?_ ?_
    · rw [List.map_insertIdx, ← consistent.keys_eq]
    · rw [List.map_insertIdx, ← consistent.values_eq]

theorem lookup_eraseAt (consistent : self.Consistent) {place : Nat} {gone : κ}
    (here : self.keyList[place]? = some gone) (key : κ) :
    (eraseAt self.index place).lookup key =
      if key = gone then none else self.index.lookup key := by
  have entry := AList.mem_lookup_iff.mp ((consistent.lookup gone place).mpr here)
  have found : (self.index.entries.find? fun entry => entry.2 = place).isSome :=
    List.find?_isSome.mpr ⟨_, entry, decide_eq_true rfl⟩
  obtain ⟨⟨other, item⟩, find⟩ := Option.isSome_iff_exists.mp found
  have holds := List.find?_some find
  have same : item = place := of_decide_eq_true holds
  have held := (consistent.lookup other item).mp
    (AList.mem_lookup_iff.mpr (List.mem_of_find?_eq_some find))
  rw [same, here] at held
  cases held
  rw [eraseAt, find]
  dsimp only
  split
  · next equal => rw [equal, AList.lookup_erase]
  · next apart => rw [AList.lookup_erase_ne apart]

theorem delItem_keeps (consistent : self.Consistent) (index : Int) :
    self.Keeps (.delItem index) := by
  by_cases valid : 0 ≤ position index self.valueList.length ∧
      position index self.valueList.length < self.valueList.length
  swap
  · exact .of_error consistent (if_neg valid)
  have performed : self.perform (.delItem index) = (none, {
      index := (eraseAt self.index (position index self.valueList.length).toNat).shift
        fun item =>
          if (position index self.valueList.length).toNat < item then item - 1 else item
      keyList := self.keyList.eraseIdx (position index self.valueList.length).toNat
      valueList := self.valueList.eraseIdx (position index self.valueList.length).toNat }) :=
    if_pos valid
  have applied : (DictOperation.delItem index).applied self.items =
      self.items.eraseIdx (position index self.valueList.length).toNat := by
    rw [DictOperation.applied, consistent.length_items, consistent.values]
  have inside : (position index self.valueList.length).toNat < self.keyList.length := by
    rw [← consistent.values]
    omega
  refine ⟨?_, fun raised => absurd (by rw [performed]) raised, fun _ => ?_⟩
  · rw [performed]
    generalize (position index self.valueList.length).toNat = index at inside ⊢
    refine .of_lookup ?_ ?_ fun other place => ?_
    · exact consistent.nodup.eraseIdx index
    · rw [List.length_eraseIdx_of_lt inside,
        List.length_eraseIdx_of_lt (by rw [consistent.values]; exact inside), consistent.values]
    · have here := List.getElem?_eq_getElem inside
      have holds := consistent.lookup other
      have only : ∀ place, self.keyList[place]? = some self.keyList[index] → place = index :=
        fun place found =>
          ((List.getElem?_inj inside consistent.nodup).mp (here.trans found.symm)).symm
      dsimp only
      rw [Index.lookup_shift, lookup_eraseAt consistent here, List.getElem?_eraseIdx]
      generalize self.keyList[index] = gone at here only ⊢
      by_cases same : other = gone
      · rw [if_pos same, same]
        grind
      · rw [if_neg same, Option.map_eq_some_iff]
        simp only [holds]
        grind
  · rw [performed, applied]
    refine items_eq ?_ ?_
    · rw [← List.eraseIdx_map, ← consistent.keys_eq]
    · rw [← List.eraseIdx_map, ← consistent.values_eq]

/-- A replacement keeps the dictionary consistent unless its new key is another one's. -/
theorem replace_keeps_iff (consistent : self.Consistent) (oldkey newkey : κ)
    (newValue : α) :
    self.Keeps (.replace oldkey newkey newValue) ↔
      (DictOperation.replace oldkey newkey newValue).Fresh self.keyList := by
  cases lookup : self.index.lookup oldkey with
  | none =>
      have absent : oldkey ∉ self.keyList := by
        rw [← consistent.mem_index, ← AList.lookup_eq_none, lookup]
      have performed : self.perform (.replace oldkey newkey newValue) =
          (some .keyError, self) := by
        rw [perform, replace, lookup]
      exact iff_of_true (.of_error consistent performed) fun present => absurd present absent
  | some index =>
      have here := (consistent.lookup oldkey index).mp lookup
      have present := List.mem_of_getElem? here
      have inside : index < self.keyList.length := (List.getElem?_eq_some_iff.mp here).1
      have only : ∀ place, self.keyList[place]? = some oldkey → place = index :=
        fun place found =>
          ((List.getElem?_inj inside consistent.nodup).mp (here.trans found.symm)).symm
      have place : (self.items.map Prod.fst).idxOf oldkey = index := by
        rw [← consistent.keys_eq]
        refine only _ ?_
        rw [List.getElem?_eq_getElem (List.idxOf_lt_length_of_mem present), List.getElem_idxOf]
      have applied : (DictOperation.replace oldkey newkey newValue).applied self.items =
          self.items.set index (newkey, newValue) := by
        rw [DictOperation.applied, place]
      by_cases same : newkey = oldkey
      · have performed : self.perform (.replace oldkey newkey newValue) =
            (none, { self with valueList := self.valueList.set index newValue }) := by
          rw [perform, replace, lookup]
          exact if_neg (not_not_intro same.symm)
        refine iff_of_true ⟨?_, fun raised => absurd (by rw [performed]) raised, fun _ => ?_⟩
          fun _ => .inl same
        · rw [performed]
          exact .of_lookup consistent.nodup (List.length_set.trans consistent.values)
            consistent.lookup
        · rw [performed, applied]
          refine items_eq ?_ ?_
          · rw [List.map_set, ← consistent.keys_eq, same]
            obtain ⟨bound, key⟩ := List.getElem?_eq_some_iff.mp here
            rw [← key, List.set_getElem_self]
          · rw [List.map_set, ← consistent.values_eq]
      have performed : self.perform (.replace oldkey newkey newValue) = (none, {
          index := (self.index.erase oldkey).insert newkey index
          keyList := self.keyList.set index newkey
          valueList := self.valueList.set index newValue }) := by
        rw [perform, replace, lookup]
        exact if_pos (Ne.symm same)
      by_cases taken : newkey ∈ self.keyList
      · refine iff_of_false (fun keeps => ?_) fun fresh => (fresh present).elim same
          (absurd taken)
        have nodup := keeps.consistent.nodup
        rw [performed] at nodup
        obtain ⟨other, found⟩ := List.mem_iff_getElem?.mp taken
        have apart : index ≠ other := by
          rintro rfl
          exact same (Option.some.inj (found.symm.trans here))
        have twice : (self.keyList.set index newkey)[index]? =
            (self.keyList.set index newkey)[other]? := by
          rw [List.getElem?_set_self inside, List.getElem?_set_ne apart, found]
        exact apart ((List.getElem?_inj (by rwa [List.length_set]) nodup).mp twice)
      · refine iff_of_true ⟨?_, fun raised => absurd (by rw [performed]) raised, fun _ => ?_⟩
          fun _ => .inr taken
        · rw [performed]
          refine .of_lookup ?_ ?_ fun other place => ?_
          · exact consistent.nodup.set taken
          · rw [List.length_set, List.length_set, consistent.values]
          · have holds := consistent.lookup other
            have free : ∀ place, self.keyList[place]? ≠ some newkey := fun place found =>
              taken (List.mem_of_getElem? found)
            dsimp only
            rw [List.getElem?_set]
            by_cases equal : other = newkey
            · rw [equal, AList.lookup_insert]
              grind
            · rw [AList.lookup_insert_ne equal]
              by_cases gone : other = oldkey
              · rw [gone, AList.lookup_erase]
                grind
              · rw [AList.lookup_erase_ne gone, holds]
                grind
        · rw [performed, applied]
          refine items_eq ?_ ?_
          · rw [List.map_set, ← consistent.keys_eq]
          · rw [List.map_set, ← consistent.values_eq]

/-! Runs of operations. -/

theorem keeps_iff (consistent : self.Consistent) (operation : DictOperation κ α) :
    self.Keeps operation ↔ operation.Fresh self.keyList := by
  cases operation with
  | append key value => exact iff_of_true (append_keeps consistent key value) trivial
  | insert index key value =>
      exact iff_of_true (insert_keeps consistent index key value) trivial
  | replace oldkey newkey newValue => exact replace_keeps_iff consistent ..
  | delItem index => exact iff_of_true (delItem_keeps consistent index) trivial

theorem empty_consistent : (empty : Dict κ α).Consistent :=
  .of_lookup List.nodup_nil rfl fun key place => by
    rw [empty, AList.lookup_empty]
    exact iff_of_false nofun nofun

def step (self : Dict κ α) (operation : DictOperation κ α) : Dict κ α :=
  (self.perform operation).2

theorem operations_keep_iff (operations : List (DictOperation κ α)) :
    Transition.Guarded step Keeps empty operations ↔
      Transition.Guarded step (fun dict operation => operation.Fresh dict.keyList) empty
        operations :=
  Transition.guarded_congr Consistent (fun _ operation holds => keeps_iff holds operation)
    (fun _ _ _ keeps => keeps.consistent) empty_consistent operations

theorem operations_break_replaced_key :
    ¬ ∀ operations : List (DictOperation Bool Unit),
      Transition.Guarded step Keeps empty operations := by
  intro claim
  have keeps := (claim [.append false (), .append true (), .replace false true ()]).2.2.1
  exact absurd keeps.consistent.nodup (by decide)

end Dict

end Segvault.Hachoir
