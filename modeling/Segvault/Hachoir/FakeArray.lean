import Mathlib.Data.List.Perm.Subperm
import Mathlib.Tactic.Ring
import Segvault.Transition
import Segvault.Hachoir.EditableFieldSet

namespace Segvault.Hachoir

/-! The names of the items: `name[0]`, `name[1]`, ... -/

def decimal : Int → List Char
  | .ofNat number => Nat.toDigits 10 number
  | .negSucc number => '-' :: Nat.toDigits 10 (number + 1)

theorem slash_not_decimal (index : Int) : '/' ∉ decimal index := by
  cases index with
  | ofNat number => exact slash_not_digit number
  | negSucc number =>
      rw [decimal, List.mem_cons, not_or]
      exact ⟨by decide, slash_not_digit _⟩

theorem decimal_injective {first second : Nat} (same : decimal first = decimal second) :
    first = second := by
  rw [← Nat.ofDigitChars_ten_toDigits (n := first), ← Nat.ofDigitChars_ten_toDigits (n := second)]
  exact congrArg (fun digits => Nat.ofDigitChars 10 digits 0) same

/-- The name of an array: one component, in which a format finds no conversion. -/
structure ArrayName where
  text : List Char
  component : '/' ∉ text
  plain : '%' ∉ text

/-- `self._format % index` -/
def ArrayName.format (name : ArrayName) (index : Int) : FieldName where
  text := name.text ++ '[' :: (decimal index ++ [']'])
  component := by
    intro member
    simp only [List.mem_append, List.mem_cons, List.not_mem_nil, or_false] at member
    obtain early | bracket | digit | bracket := member
    · exact name.component early
    · exact absurd bracket (by decide)
    · exact slash_not_decimal index digit
    · exact absurd bracket (by decide)
  notDots := ⟨'[', by simp, by decide⟩

theorem ArrayName.format_injective {name : ArrayName} {first second : Nat}
    (same : name.format first = name.format second) : first = second := by
  have texts := congrArg FieldName.text same
  rw [format, format] at texts
  refine decimal_injective ?_
  simpa using texts

/-! `FakeArray`. -/

structure FakeArray (Value : Type) where
  fieldset : FieldSet Value
  name : ArrayName
  cache : List (Int × NamedField Value)
  knownSize : Bool
  maxIndex : Int

namespace FakeArray

variable {Value : Type}

def create (fieldset : FieldSet Value) (name : ArrayName) : FakeArray Value where
  fieldset := fieldset
  name := name
  cache := []
  knownSize := false
  maxIndex := -1

/-- `self.fieldset[self._format % index]`, none where it raises `MissingField`. -/
def item (array : FakeArray Value) (index : Int) : Option (NamedField Value) :=
  array.fieldset.fields.find? fun field => field.name = array.name.format index

/-- `__getitem__`, none where it raises `MissingField`. -/
def getItem (array : FakeArray Value) (index : Int) :
    Option (NamedField Value) × FakeArray Value :=
  match array.cache.lookup index with
  | some value => (some value, array)
  | none =>
      match array.item index with
      | none => (none, { array with knownSize := true })
      | some value =>
          (some value, { array with
            cache := (index, value) :: array.cache
            maxIndex := max index array.maxIndex })

def contains (array : FakeArray Value) (index : Int) : Bool × FakeArray Value :=
  let (value, array) := array.getItem index
  (value.isSome, array)

def nonzero (array : FakeArray Value) : Bool × FakeArray Value :=
  if array.cache ≠ [] then (true, array) else array.contains 0

/-- The loop of `__len__`, which `turns` bounds: none where it goes on. -/
def lenLoop : Nat → Int → FakeArray Value → Option Int × FakeArray Value
  | 0, _, array => (none, array)
  | turns + 1, total, array =>
      match array.getItem total with
      | (none, array) => (some total, array)
      | (some _, array) => lenLoop turns (total + 1) array

def len (turns : Nat) (array : FakeArray Value) : Option Int × FakeArray Value :=
  if array.knownSize then (some (array.maxIndex + 1), array)
  else lenLoop turns (array.maxIndex + 1) array

/-- What an iteration yields when it is asked so many times, and whether it has stopped. -/
def iterate : Nat → Int → FakeArray Value → (List (NamedField Value) × Bool) × FakeArray Value
  | 0, _, array => (([], false), array)
  | turns + 1, index, array =>
      match array.getItem index with
      | (none, array) => (([], true), array)
      | (some value, array) =>
          let ((values, stopped), array) := iterate turns (index + 1) array
          ((value :: values, stopped), array)

variable {array : FakeArray Value}

/-! An index access: the result, and what it leaves in the caches. -/

structure Sound (array : FakeArray Value) : Prop where
  cached : ∀ index value, array.cache.lookup index = some value →
    array.item index = some value ∧ index ≤ array.maxIndex
  least : -1 ≤ array.maxIndex

theorem create_sound (fieldset : FieldSet Value) (name : ArrayName) :
    (create fieldset name).Sound where
  cached _ _ found := nomatch found
  least := le_refl _

theorem Sound.getItem_missing (sound : array.Sound) {index : Int}
    (missing : array.item index = none) :
    array.getItem index = (none, { array with knownSize := true }) := by
  have absent : array.cache.lookup index = none := by
    cases found : array.cache.lookup index with
    | none => rfl
    | some value =>
        rw [(sound.cached index value found).1] at missing
        cases missing
  rw [getItem, absent, missing]

theorem Sound.getItem_found (sound : array.Sound) {index : Int} {value : NamedField Value}
    (found : array.item index = some value) :
    ∃ cache, array.getItem index =
        (some value, { array with cache := cache, maxIndex := max index array.maxIndex }) ∧
      Sound { array with cache := cache, maxIndex := max index array.maxIndex } := by
  cases present : array.cache.lookup index with
  | some old =>
      obtain ⟨same, bounded⟩ := sound.cached index old present
      rw [found] at same
      cases same
      rw [max_eq_right bounded]
      refine ⟨array.cache, ?_, sound⟩
      rw [getItem, present]
  | none =>
      refine ⟨(index, value) :: array.cache, ?_, ?_, ?_⟩
      · rw [getItem, present, found]
      · intro other result got
        rw [List.lookup_cons] at got
        split at got
        · next same =>
            cases got
            rw [beq_iff_eq] at same
            rw [same]
            exact ⟨found, le_max_left _ _⟩
        · obtain ⟨result, bounded⟩ := sound.cached other result got
          exact ⟨result, bounded.trans (le_max_right _ _)⟩
      · exact sound.least.trans (le_max_right _ _)

/-! How far the items go from an index on. -/

def Stops (array : FakeArray Value) (start : Int) (count : Nat) : Prop :=
  (∀ offset < count, (array.item (start + offset)).isSome) ∧ array.item (start + count) = none

theorem item_mem {index : Int} (present : (array.item index).isSome) :
    array.name.format index ∈ names array.fieldset.fields := by
  obtain ⟨field, found⟩ := Option.isSome_iff_exists.mp present
  have named := List.find?_some found
  rw [decide_eq_true_iff] at named
  rw [← named]
  exact List.mem_map_of_mem (List.mem_of_find?_eq_some found)

theorem exists_missing (array : FakeArray Value) (start : Nat) :
    ∃ offset ≤ array.fieldset.fields.length, array.item ((start + offset : Nat) : Int) = none := by
  by_contra never
  simp only [not_exists, not_and, ← ne_eq, Option.ne_none_iff_isSome] at never
  let formatted := (List.range (array.fieldset.fields.length + 1)).map
    fun offset => array.name.format ((start + offset : Nat) : Int)
  have distinct : formatted.Nodup := by
    refine List.nodup_range.map ?_
    intro first second same
    exact Nat.add_left_cancel (ArrayName.format_injective same)
  have inside : formatted ⊆ names array.fieldset.fields := by
    intro name member
    obtain ⟨offset, bound, rfl⟩ := List.mem_map.mp member
    exact item_mem (never offset (Nat.le_of_lt_succ (List.mem_range.mp bound)))
  have bounded := (distinct.subperm inside).length_le
  rw [List.length_map, List.length_range, names, List.length_map] at bounded
  omega

theorem exists_stops (array : FakeArray Value) {start : Int} (natural : 0 ≤ start) :
    ∃ count ≤ array.fieldset.fields.length, array.Stops start count := by
  obtain ⟨start, rfl⟩ := Int.eq_ofNat_of_zero_le natural
  obtain ⟨offset, bounded, missing⟩ := array.exists_missing start
  have somewhere : ∃ offset, array.item ((start + offset : Nat) : Int) = none :=
    ⟨offset, missing⟩
  classical
  refine ⟨Nat.find somewhere, (Nat.find_min' somewhere missing).trans bounded, ?_,
    Nat.find_spec somewhere⟩
  intro before early
  exact Option.ne_none_iff_isSome.mp (Nat.find_min somewhere early)

theorem Stops.succ {start : Int} {count : Nat} (stops : array.Stops start (count + 1)) :
    array.Stops (start + 1) count := by
  obtain ⟨present, missing⟩ := stops
  refine ⟨fun offset bound => ?_, ?_⟩
  · have next := present (offset + 1) (Nat.succ_lt_succ bound)
    rw [Nat.cast_succ, add_comm (offset : Int), ← add_assoc] at next
    exact next
  · rw [Nat.cast_succ, add_comm (count : Int), ← add_assoc] at missing
    exact missing

theorem Stops.first {start : Int} {count : Nat} (stops : array.Stops start (count + 1)) :
    ∃ value, array.item start = some value := by
  have present := stops.1 0 (Nat.succ_pos count)
  rw [Nat.cast_zero, add_zero] at present
  exact Option.isSome_iff_exists.mp present

theorem Stops.last {start : Int} (stops : array.Stops start 0) : array.item start = none := by
  have missing := stops.2
  rw [Nat.cast_zero, add_zero] at missing
  exact missing

/-! The loops, with turns enough. -/

theorem Sound.lenLoop (sound : array.Sound) {turns count : Nat} {start : Int}
    (stops : array.Stops start count) (enough : count < turns) :
    (lenLoop turns start array).1 = some (start + count) := by
  induction turns generalizing array start count with
  | zero => exact absurd enough (Nat.not_lt_zero _)
  | succ turns induction =>
      rw [FakeArray.lenLoop]
      cases count with
      | zero =>
          rw [sound.getItem_missing stops.last, Nat.cast_zero, add_zero]
      | succ count =>
          obtain ⟨value, found⟩ := stops.first
          obtain ⟨cache, got, after⟩ := sound.getItem_found found
          rw [got]
          dsimp only
          rw [induction after stops.succ (Nat.lt_of_succ_lt_succ enough)]
          congr 1
          push_cast
          omega

theorem Sound.iterate (sound : array.Sound) {turns count : Nat} {start : Int}
    (stops : array.Stops start count) (enough : count < turns) :
    ∃ values after, iterate turns start array = ((values, true), after) ∧
      values.length = count ∧
      ∀ offset < count, values[offset]? = array.item (start + offset) := by
  induction turns generalizing array start count with
  | zero => exact absurd enough (Nat.not_lt_zero _)
  | succ turns induction =>
      rw [FakeArray.iterate]
      cases count with
      | zero =>
          rw [sound.getItem_missing stops.last]
          exact ⟨[], _, rfl, rfl, fun offset bound => absurd bound (Nat.not_lt_zero _)⟩
      | succ count =>
          obtain ⟨value, found⟩ := stops.first
          obtain ⟨cache, got, after⟩ := sound.getItem_found found
          obtain ⟨values, final, rest, length, listed⟩ :=
            induction after stops.succ (Nat.lt_of_succ_lt_succ enough)
          rw [got]
          dsimp only
          rw [rest]
          refine ⟨value :: values, final, rfl, congrArg Nat.succ length, fun offset bound => ?_⟩
          cases offset with
          | zero =>
              rw [Nat.cast_zero, add_zero, found]
              rfl
          | succ offset =>
              rw [List.getElem?_cons_succ, listed offset (Nat.lt_of_succ_lt_succ bound),
                Nat.cast_succ, add_comm (offset : Int), ← add_assoc]
              rfl

/-! The caches in step with the items: those up to the highest index are there, and a known
size is the size. -/

structure InStep (array : FakeArray Value) : Prop extends Sound array where
  present : ∀ index, 0 ≤ index → index ≤ array.maxIndex → (array.item index).isSome
  known : array.knownSize = true → array.item (array.maxIndex + 1) = none

theorem create_inStep (fieldset : FieldSet Value) (name : ArrayName) :
    (create fieldset name).InStep where
  toSound := create_sound fieldset name
  present index natural bounded := by
    have below : index ≤ -1 := bounded
    omega
  known unknown := nomatch unknown

/-- The length is the number of items that a full iteration yields, and an index below it
gives the item that the iteration yields there. -/
def Agrees (array : FakeArray Value) : Prop :=
  ∀ turns > array.fieldset.fields.length, ∃ values : List (NamedField Value),
    (iterate turns 0 array).1 = (values, true) ∧
      (len turns array).1 = some (values.length : Int) ∧
      ∀ index : Nat, index < values.length → (array.getItem index).1 = values[index]?

theorem Sound.getItem_eq (sound : array.Sound) (index : Int) :
    (array.getItem index).1 = array.item index := by
  cases found : array.item index with
  | none => rw [sound.getItem_missing found]
  | some value =>
      obtain ⟨cache, got, -⟩ := sound.getItem_found found
      rw [got]

theorem Sound.agrees_iff_inStep (sound : array.Sound) : array.Agrees ↔ array.InStep := by
  obtain ⟨count, bounded, stops⟩ := array.exists_stops (le_refl 0)
  have least := sound.least
  constructor
  · intro agrees
    obtain ⟨values, iterated, lengthEq, -⟩ := agrees _ (Nat.lt_succ_self _)
    obtain ⟨items, after, listed, itemsLength, -⟩ :=
      sound.iterate stops (Nat.lt_succ_of_le bounded)
    rw [listed] at iterated
    cases iterated
    rw [itemsLength, len] at lengthEq
    have below : ∀ index, 0 ≤ index → index < (count : Int) → (array.item index).isSome := by
      intro index natural less
      obtain ⟨offset, rfl⟩ := Int.eq_ofNat_of_zero_le natural
      have present := stops.1 offset (by omega)
      rwa [zero_add] at present
    split at lengthEq
    · next known =>
        have same : array.maxIndex + 1 = count := Option.some.inj lengthEq
        refine ⟨sound, fun index natural within => below index natural (by omega), fun _ => ?_⟩
        have missing := stops.2
        rwa [zero_add, ← same] at missing
    · next unknown =>
        obtain ⟨more, fewer, further⟩ := array.exists_stops (by omega : 0 ≤ array.maxIndex + 1)
        rw [sound.lenLoop further (Nat.lt_succ_of_le fewer)] at lengthEq
        have same : array.maxIndex + 1 + more = count := Option.some.inj lengthEq
        exact ⟨sound, fun index natural within => below index natural (by omega),
          fun known => absurd known unknown⟩
  · intro inStep turns many
    obtain ⟨items, after, listed, itemsLength, items_eq⟩ :=
      sound.iterate stops (Nat.lt_of_le_of_lt bounded many)
    refine ⟨items, by rw [listed], ?_, ?_⟩
    · have inside : array.maxIndex + 1 ≤ count := by
        by_contra past
        have present := inStep.present count (by omega) (by omega)
        have missing := stops.2
        rw [zero_add] at missing
        rw [missing] at present
        cases present
      obtain ⟨next, nextEq⟩ := Int.eq_ofNat_of_zero_le (by omega : 0 ≤ array.maxIndex + 1)
      rw [itemsLength, len]
      split
      · next known =>
          have missing := inStep.known known
          have same : next = count := by
            by_contra apart
            have present := stops.1 next (by omega)
            rw [zero_add, ← nextEq, missing] at present
            cases present
          rw [nextEq, same]
      · have further : array.Stops (array.maxIndex + 1) (count - next) := by
          refine ⟨fun offset bound => ?_, ?_⟩
          · have present := stops.1 (next + offset) (by omega)
            rwa [zero_add, Nat.cast_add, ← nextEq] at present
          · have missing := stops.2
            have split : (count : Int) = array.maxIndex + 1 + (count - next : Nat) := by omega
            rwa [zero_add, split] at missing
        rw [sound.lenLoop further (by omega)]
        congr 1
        omega
    · intro index below
      have entry := items_eq index (by omega)
      rw [zero_add] at entry
      rw [sound.getItem_eq, entry]

/-! Accesses in any order. -/

inductive Access
  | getItem (index : Int)
  | contains (index : Int)
  | nonzero
  | iterate (steps : Nat)
  | len

def step (array : FakeArray Value) : Access → FakeArray Value
  | .getItem index => (array.getItem index).2
  | .contains index => (array.contains index).2
  | .nonzero => array.nonzero.2
  | .iterate steps => (iterate steps 0 array).2
  | .len => (len (array.fieldset.fields.length + 1) array).2

/-- An index that is there comes after none that is missing, and one that is missing is asked
once the highest index asked so far is the last one. -/
def Follows (array : FakeArray Value) (index : Int) : Prop :=
  match array.item index with
  | some _ => ∀ below, 0 ≤ below → below < index → (array.item below).isSome
  | none => array.item (array.maxIndex + 1) = none

def InOrder (array : FakeArray Value) : Access → Prop
  | .getItem index => array.Follows index
  | .contains index => array.Follows index
  | .nonzero => True
  | .iterate _ => True
  | .len => True

theorem Sound.getItem (sound : array.Sound) (index : Int) : (array.getItem index).2.Sound := by
  cases found : array.item index with
  | none =>
      rw [sound.getItem_missing found]
      exact ⟨sound.cached, sound.least⟩
  | some value =>
      obtain ⟨cache, got, after⟩ := sound.getItem_found found
      rw [got]
      exact after

theorem InStep.getItem_iff (inStep : array.InStep) (index : Int) :
    (array.getItem index).2.InStep ↔ array.Follows index := by
  have least := inStep.least
  rw [Follows]
  cases found : array.item index with
  | none =>
      rw [inStep.getItem_missing found]
      exact ⟨fun after => after.known rfl, fun last =>
        ⟨⟨inStep.cached, inStep.least⟩, inStep.present, fun _ => last⟩⟩
  | some value =>
      obtain ⟨cache, got, after⟩ := inStep.getItem_found found
      rw [got]
      constructor
      · intro kept below natural less
        exact kept.present below natural (less.le.trans (le_max_left _ _))
      · intro ordered
        refine ⟨after, ?_, ?_⟩
        · intro other natural bounded
          rcases le_max_iff.mp bounded with upTo | within
          · rcases upTo.lt_or_eq with less | rfl
            · exact ordered other natural less
            · exact Option.isSome_iff_exists.mpr ⟨value, found⟩
          · exact inStep.present other natural within
        · intro known
          have missing := inStep.known known
          have bounded : index ≤ array.maxIndex := by
            by_contra past
            rcases (by omega : index = array.maxIndex + 1 ∨ array.maxIndex + 1 < index) with
              next | after
            · rw [next, missing] at found
              cases found
            · have present := ordered (array.maxIndex + 1) (by omega) after
              rw [missing] at present
              cases present
          dsimp only
          rw [max_eq_right bounded]
          exact missing

/-! The loops go up from an index at most one past the highest. -/

theorem InStep.follows (inStep : array.InStep) {index : Int} (natural : 0 ≤ index)
    (next : index ≤ array.maxIndex + 1) : array.Follows index := by
  rw [Follows]
  split
  · intro below positive less
    exact inStep.present below positive (by omega)
  · next missing =>
      have past : ¬ index ≤ array.maxIndex := by
        intro within
        have present := inStep.present index natural within
        rw [missing] at present
        cases present
      rwa [show index = array.maxIndex + 1 by omega] at missing

theorem InStep.next (inStep : array.InStep) {index : Int} (natural : 0 ≤ index)
    (next : index ≤ array.maxIndex + 1) : (array.getItem index).2.InStep :=
  (inStep.getItem_iff index).mpr (inStep.follows natural next)

theorem InStep.lenLoop (inStep : array.InStep) (turns : Nat) {start : Int} (natural : 0 ≤ start)
    (next : start ≤ array.maxIndex + 1) : (lenLoop turns start array).2.InStep := by
  induction turns generalizing array start with
  | zero => exact inStep
  | succ turns induction =>
      have after := inStep.next natural next
      rw [FakeArray.lenLoop]
      cases found : array.item start with
      | none =>
          rw [inStep.getItem_missing found] at after ⊢
          exact after
      | some value =>
          obtain ⟨cache, got, -⟩ := inStep.getItem_found found
          rw [got] at after ⊢
          exact induction after (by omega) (Int.add_le_add_right (le_max_left _ _) 1)

theorem InStep.iterate (inStep : array.InStep) (turns : Nat) {start : Int} (natural : 0 ≤ start)
    (next : start ≤ array.maxIndex + 1) : (iterate turns start array).2.InStep := by
  induction turns generalizing array start with
  | zero => exact inStep
  | succ turns induction =>
      have after := inStep.next natural next
      rw [FakeArray.iterate]
      cases found : array.item start with
      | none =>
          rw [inStep.getItem_missing found] at after ⊢
          exact after
      | some value =>
          obtain ⟨cache, got, -⟩ := inStep.getItem_found found
          rw [got] at after ⊢
          exact induction after (by omega) (Int.add_le_add_right (le_max_left _ _) 1)

theorem InStep.step_iff (inStep : array.InStep) (access : Access) :
    (step array access).InStep ↔ array.InOrder access := by
  have least := inStep.least
  cases access with
  | getItem index => exact inStep.getItem_iff index
  | contains index => exact inStep.getItem_iff index
  | nonzero =>
      refine iff_of_true ?_ trivial
      rw [step, nonzero]
      split
      · exact inStep
      · exact inStep.next (le_refl 0) (by omega)
  | iterate steps => exact iff_of_true (inStep.iterate steps (le_refl 0) (by omega)) trivial
  | len =>
      refine iff_of_true ?_ trivial
      rw [step, len]
      split
      · exact inStep
      · exact inStep.lenLoop _ (by omega) (le_refl _)

theorem InStep.sound_step (inStep : array.InStep) (access : Access) :
    (step array access).Sound := by
  cases access with
  | getItem index => exact inStep.toSound.getItem index
  | contains index => exact inStep.toSound.getItem index
  | nonzero => exact ((inStep.step_iff .nonzero).mpr trivial).toSound
  | iterate steps => exact ((inStep.step_iff (.iterate steps)).mpr trivial).toSound
  | len => exact ((inStep.step_iff .len).mpr trivial).toSound

theorem InStep.step_agrees_iff (inStep : array.InStep) (access : Access) :
    (step array access).Agrees ↔ array.InOrder access :=
  (inStep.sound_step access).agrees_iff_inStep.trans (inStep.step_iff access)

/-- The length agrees with the iteration in the new array, and in every state of exactly the
runs that ask the indices in order. -/
theorem agrees_iff_inOrder (fieldset : FieldSet Value) (name : ArrayName) (accesses : List Access) :
    (create fieldset name).Agrees ∧
      (Transition.Guarded step (fun array access => (step array access).Agrees)
          (create fieldset name) accesses ↔
        Transition.Guarded step InOrder (create fieldset name) accesses) := by
  have start := create_inStep fieldset name
  refine ⟨start.toSound.agrees_iff_inStep.mpr start, ?_⟩
  exact Transition.guarded_congr InStep (fun _ access inStep => inStep.step_agrees_iff access)
    (fun _ access inStep agrees =>
      (inStep.step_iff access).mpr ((inStep.step_agrees_iff access).mp agrees)) start accesses

/-! Two items, and a question for the sixth. -/

def itemName : ArrayName where
  text := ['a']
  component := a_component
  plain := by decide

def twoItems : FieldSet Nat where
  fields := [⟨itemName.format 0, 7⟩, ⟨itemName.format 1, 8⟩]
  distinct := by decide
  accepts _ _ := true

theorem agrees_fails :
    ¬ Transition.Guarded step (fun array access => (step array access).Agrees)
      (create twoItems itemName) [.contains 5] := by
  rintro ⟨agrees, -⟩
  obtain ⟨values, iterated, length, -⟩ := agrees 3 (by decide)
  have wrong : (len 3 (step (create twoItems itemName) (.contains 5))).1 = some 0 := by decide
  have two : (iterate 3 0 (step (create twoItems itemName) (.contains 5))).1.1.length = 2 := by
    decide
  rw [iterated] at two
  rw [wrong, two] at length
  cases length

end FakeArray

end Segvault.Hachoir
