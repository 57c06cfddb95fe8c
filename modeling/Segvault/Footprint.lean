import Mathlib.Order.Interval.Finset.Nat

namespace Segvault

/-! Changes of a list of a given length that read and write one interval of it only. -/

structure Footprint (length first past : Nat) (change : List α → List α) : Prop where
  length_eq : ∀ {items : List α}, items.length = length → (change items).length = length
  outside : ∀ {items : List α}, items.length = length → ∀ {index : Nat},
    index < first ∨ past ≤ index → (change items)[index]? = items[index]?
  inside : ∀ {items others : List α}, items.length = length → others.length = length →
    (∀ index, first ≤ index → index < past → items[index]? = others[index]?) →
    ∀ {index : Nat}, first ≤ index → index < past →
      (change items)[index]? = (change others)[index]?

namespace Footprint

variable {length first past start stop : Nat} {change other : List α → List α}

/-- Where the one change does nothing, the other does the same before and after it. -/
theorem getElem?_comp (changed : Footprint length first past change)
    (altered : Footprint length start stop other) (apart : past ≤ start ∨ stop ≤ first)
    {items : List α} (long : items.length = length) {index : Nat} (within : first ≤ index)
    (before : index < past) :
    (change (other items))[index]? = (other (change items))[index]? := by
  have same : ∀ index, first ≤ index → index < past → (other items)[index]? = items[index]? :=
    fun index within before => altered.outside long (by omega)
  calc (change (other items))[index]?
      = (change items)[index]? := changed.inside (altered.length_eq long) long same within before
    _ = (other (change items))[index]? :=
        (altered.outside (changed.length_eq long) (by omega)).symm

theorem comm (changed : Footprint length first past change)
    (altered : Footprint length start stop other) (apart : past ≤ start ∨ stop ≤ first)
    {items : List α} (long : items.length = length) :
    change (other items) = other (change items) := by
  refine List.ext_getElem? fun index => ?_
  by_cases inFirst : first ≤ index ∧ index < past
  · exact changed.getElem?_comp altered apart long inFirst.1 inFirst.2
  · by_cases inOther : start ≤ index ∧ index < stop
    · exact (altered.getElem?_comp changed apart.symm long inOther.1 inOther.2).symm
    · rw [changed.outside (altered.length_eq long) (by omega), altered.outside long (by omega),
        altered.outside (changed.length_eq long) (by omega), changed.outside long (by omega)]

/-! The changes of one item, and of a slice. -/

theorem modify (place : Nat) (update : α → α) :
    Footprint length place (place + 1) fun items : List α => items.modify place update where
  length_eq long := by rw [List.length_modify, long]
  outside long index away := by
    have differs : ¬ place = index := by omega
    simp only [List.getElem?_modify, differs, if_false, id_map']
  inside long others same index within before := by
    rw [List.getElem?_modify, List.getElem?_modify, same index within before]

theorem splice (place : Nat) {slice : List α} (room : place + slice.length ≤ length) :
    Footprint length place (place + slice.length) fun items : List α =>
      items.take place ++ slice ++ items.drop (place + slice.length) where
  length_eq long := by
    simp only [List.length_append, List.length_take, List.length_drop]
    omega
  outside {items} long index away := by
    have short : (items.take place).length = place := by rw [List.length_take]; omega
    rcases away with before | after
    · rw [List.append_assoc, List.getElem?_append_left (by omega), List.getElem?_take_of_lt before]
    · rw [List.getElem?_append_right (by rw [List.length_append]; omega), List.getElem?_drop,
        List.length_append, short, Nat.add_sub_cancel' after]
  inside {items others} long alike same index within before := by
    have short : ∀ list : List α, list.length = length → (list.take place).length = place := by
      intro list known
      rw [List.length_take]
      omega
    have slot : ∀ list : List α, list.length = length →
        (list.take place ++ slice ++ list.drop (place + slice.length))[index]? =
          slice[index - place]? := by
      intro list known
      rw [List.append_assoc, List.getElem?_append_right (by rw [short list known]; exact within),
        short list known, List.getElem?_append_left (by omega)]
    rw [slot items long, slot others alike]

end Footprint

end Segvault
