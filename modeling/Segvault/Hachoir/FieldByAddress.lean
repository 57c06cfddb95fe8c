import Segvault.Hachoir.FragmentReads
import Segvault.Hachoir.GenericFieldSet

namespace Segvault.Hachoir

/-! Fields that follow one another. -/

/-- The fields fill the bits from `start` to `stop`, in order. -/
def Tiles : Nat → List Field → Nat → Prop
  | start, [], stop => start = stop
  | start, field :: fields, stop =>
      field.address = start ∧ Tiles (start + field.size) fields stop

theorem tiles_append {start stop : Nat} {first second : List Field} :
    Tiles start (first ++ second) stop ↔
      ∃ middle, Tiles start first middle ∧ Tiles middle second stop := by
  induction first generalizing start with
  | nil => simp [Tiles]
  | cons field first induction =>
      simp only [List.cons_append, Tiles, induction]
      constructor
      · rintro ⟨here, middle, left, right⟩
        exact ⟨middle, ⟨here, left⟩, right⟩
      · rintro ⟨middle, ⟨here, left⟩, right⟩
        exact ⟨here, middle, left, right⟩

theorem Tiles.mono {start stop : Nat} {fields : List Field}
    (tiles : Tiles start fields stop) : start ≤ stop := by
  induction fields generalizing start with
  | nil => exact Nat.le_of_eq tiles
  | cons field fields induction =>
      have rest := induction tiles.2
      omega

theorem Tiles.bounds {start stop : Nat} {fields : List Field}
    (tiles : Tiles start fields stop) {field : Field} (member : field ∈ fields) :
    start ≤ field.address ∧ field.address + field.size ≤ stop := by
  obtain ⟨left, right, rfl⟩ := List.append_of_mem member
  obtain ⟨middle, before, here, after⟩ := tiles_append.mp tiles
  rw [here]
  exact ⟨before.mono, after.mono⟩

theorem Tiles.ordered {start stop : Nat} {fields : List Field}
    (tiles : Tiles start fields stop) :
    fields.Pairwise fun first second => first.address + first.size ≤ second.address := by
  induction fields generalizing start with
  | nil => exact List.Pairwise.nil
  | cons field fields induction =>
      refine List.pairwise_cons.mpr ⟨fun other member => ?_, induction tiles.2⟩
      rw [tiles.1]
      exact (tiles.2.bounds member).1

/-- Every place is in some field. -/
theorem Tiles.covers {start stop place : Nat} {fields : List Field}
    (tiles : Tiles start fields stop) (lower : start ≤ place) (upper : place < stop) :
    ∃ field ∈ fields, field.Has place := by
  induction fields generalizing start with
  | nil =>
      rw [Tiles] at tiles
      omega
  | cons field fields induction =>
      by_cases inside : place < start + field.size
      · refine ⟨field, List.mem_cons_self, ?_, ?_⟩
        · rw [tiles.1]
          exact lower
        · rw [tiles.1]
          exact inside
      · obtain ⟨other, member, has⟩ := induction tiles.2 (by omega)
        exact ⟨other, List.mem_cons_of_mem _ member, has⟩

/-! `getFieldByAddress`. -/

namespace GenericFieldSet

def Tiled (self : GenericFieldSet) : Prop := Tiles 0 self.values self.currentSize

/-- `getFieldByAddress(address, feed=False)`. -/
def getFieldByAddress (self : GenericFieldSet) (address : Nat) :
    Except FieldSetError (Option Field) :=
  if address < self.currentSize then
    let i := lowerBound self.values fun x => x.address + x.size ≤ address
    match self.values[i]? with
    | none => .error .indexError
    | some field => .ok (some field)
  else .ok none

/-- It finds the field that holds the address, and there is only one. -/
theorem getFieldByAddress_exact {self : GenericFieldSet} (tiled : self.Tiled)
    {address : Nat} (inside : address < self.currentSize) :
    ∃ field, self.getFieldByAddress address = .ok (some field) ∧ field ∈ self.values ∧
      field.Has address ∧ ∀ other ∈ self.values, other.Has address → other = field := by
  obtain ⟨field, member, has⟩ := tiled.covers (Nat.zero_le address) inside
  obtain ⟨left, right, split⟩ := List.append_of_mem member
  have ordered := tiled.ordered
  rw [split, List.pairwise_append, List.pairwise_cons] at ordered
  obtain ⟨-, ⟨after, -⟩, before⟩ := ordered
  have below : ∀ other ∈ left, other.address + other.size ≤ address := fun other member =>
    (before other member field List.mem_cons_self).trans has.1
  have above : ∀ other ∈ field :: right, address < other.address + other.size := by
    intro other member
    rcases List.mem_cons.mp member with rfl | member
    · exact has.2
    · have later := after other member
      have upper := has.2
      omega
  refine ⟨field, ?_, member, has, fun other otherMember otherHas => ?_⟩
  · have index : lowerBound self.values (fun x => x.address + x.size ≤ address) =
        left.length := by
      rw [split]
      exact lowerBound_eq (fun other member => decide_eq_true (below other member))
        fun other member => decide_eq_false (not_le.mpr (above other member))
    have here : self.values[left.length]? = some field := by
      rw [split, List.getElem?_append_right (Nat.le_refl _), Nat.sub_self]
      rfl
    rw [getFieldByAddress, if_pos inside, index]
    simp only [here]
  · rw [split, List.mem_append, List.mem_cons] at otherMember
    rcases otherMember with early | rfl | late
    · have ends := below other early
      have upper := otherHas.2
      omega
    · rfl
    · have starts := after other late
      have upper := has.2
      have lower := otherHas.1
      omega

/-- Two fields of 8 and 16 bits. -/
def header : GenericFieldSet :=
  ofFields [⟨⟨['a'], a_component, a_notDots⟩, ⟨.object 0, 0, 8⟩⟩,
    ⟨⟨['b'], b_component, b_notDots⟩, ⟨.object 1, 0, 16⟩⟩] fun _ => none

theorem header_tiled : header.Tiled := ⟨rfl, rfl, rfl⟩

theorem getFieldByAddress_exact_header :
    ∃ field, header.getFieldByAddress 8 = .ok (some field) ∧ field ∈ header.values ∧
      field.Has 8 ∧ ∀ other ∈ header.values, other.Has 8 → other = field :=
  getFieldByAddress_exact header_tiled (by decide)

end GenericFieldSet

end Segvault.Hachoir
