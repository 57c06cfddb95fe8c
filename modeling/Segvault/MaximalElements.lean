import Mathlib.Data.List.Nodup

namespace Segvault.MaximalElements

universe u

variable {α : Type u}

/-! Lists that keep the greatest of the elements they are given, in an order where the elements
below one element are comparable, as the prefixes of a word are. -/

structure TreeOrder (below : α → α → Prop) : Prop where
  irrefl : ∀ value, ¬ below value value
  trans : ∀ {first second third}, below first second → below second third → below first third
  tree : ∀ {first second top}, below first top → below second top →
    first = second ∨ below first second ∨ below second first

section

variable (below : α → α → Prop) [DecidableRel below]

/-- A new value takes the place of the first one it is above, and goes to the end if it is
comparable to none. -/
def place (value : α) : List α → List α
  | [] => [value]
  | item :: items =>
      if below item value then value :: items
      else if below value item then item :: items
      else item :: place value items

def insert [DecidableEq α] (items : List α) (value : α) : List α :=
  if value ∈ items then items else place below value items

end

section

variable {below : α → α → Prop} [DecidableRel below]

theorem place_cases (value : α) (items : List α) :
    (∃ item ∈ items, below value item ∧ place below value items = items) ∨
    (∃ front item back, items = front ++ item :: back ∧ below item value ∧
      place below value items = front ++ value :: back) ∨
    ((∀ item ∈ items, ¬ below value item ∧ ¬ below item value) ∧
      place below value items = items ++ [value]) := by
  induction items with
  | nil => exact .inr (.inr ⟨fun _ absent => absurd absent List.not_mem_nil, rfl⟩)
  | cons item items induction =>
      rw [place]
      split
      · exact .inr (.inl ⟨[], item, items, rfl, ‹_›, rfl⟩)
      split
      · exact .inl ⟨item, List.mem_cons_self, ‹_›, rfl⟩
      · rename_i notAbove notBelow
        rcases induction with ⟨found, member, lower, same⟩ |
          ⟨front, found, back, rfl, upper, same⟩ | ⟨free, same⟩
        · exact .inl ⟨found, List.mem_cons_of_mem _ member, lower, by rw [same]⟩
        · exact .inr (.inl ⟨item :: front, found, back, rfl, upper, by rw [same]; rfl⟩)
        · refine .inr (.inr ⟨List.forall_mem_cons.mpr ⟨⟨notBelow, notAbove⟩, free⟩, ?_⟩)
          rw [same]
          rfl

end

/-- The list holds the greatest of the given elements. -/
structure Keeps (below : α → α → Prop) (items given : List α) : Prop where
  nodup : items.Nodup
  among : ∀ item ∈ items, item ∈ given
  apart : ∀ first ∈ items, ∀ second ∈ items, ¬ below first second
  covered : ∀ value ∈ given, value ∈ items ∨ ∃ item ∈ items, below value item

section

variable {below : α → α → Prop} {items given : List α} {value : α}

theorem keeps_nil : Keeps below [] [] :=
  ⟨List.nodup_nil, fun _ member => member, fun _ absent => absurd absent List.not_mem_nil,
    fun _ member => .inl member⟩

/-- What the list holds does not depend on the order in which the elements were given. -/
theorem Keeps.mem_iff (order : TreeOrder below) (keeps : Keeps below items given) :
    value ∈ items ↔ value ∈ given ∧ ∀ other ∈ given, ¬ below value other := by
  constructor
  · intro member
    refine ⟨keeps.among value member, fun other listed lower => ?_⟩
    rcases keeps.covered other listed with kept | ⟨item, kept, higher⟩
    · exact keeps.apart value member other kept lower
    · exact keeps.apart value member item kept (order.trans lower higher)
  · rintro ⟨listed, greatest⟩
    refine (keeps.covered value listed).resolve_right ?_
    rintro ⟨item, kept, lower⟩
    exact greatest item (keeps.among item kept) lower

variable [DecidableRel below]

theorem Keeps.place (order : TreeOrder below) (keeps : Keeps below items given)
    (fresh : value ∉ items) : Keeps below (place below value items) (given ++ [value]) := by
  obtain ⟨nodup, among, apart, covered⟩ := keeps
  rcases @place_cases _ below _ value items with ⟨item, member, lower, same⟩ |
    ⟨front, item, back, rfl, upper, same⟩ | ⟨free, same⟩
  · rw [same]
    refine ⟨nodup, fun item member => List.mem_append_left _ (among item member), apart, ?_⟩
    intro other listed
    rcases List.mem_append.mp listed with before | last
    · exact covered other before
    · rw [List.mem_singleton.mp last]
      exact .inr ⟨item, member, lower⟩
  · rw [same]
    have here : item ∈ front ++ item :: back := by simp
    have others : ∀ other ∈ front ++ back, other ∈ front ++ item :: back ∧ other ≠ item := by
      intro other member
      have distinct := (List.nodup_middle.mp nodup)
      refine ⟨?_, fun equal => ?_⟩
      · rcases List.mem_append.mp member with early | late
        · exact List.mem_append_left _ early
        · exact List.mem_append_right _ (List.mem_cons_of_mem _ late)
      · exact (List.nodup_cons.mp distinct).1 (equal ▸ member)
    have notBelow : ∀ other ∈ front ++ back, ¬ below other value := by
      intro other member lower
      obtain ⟨kept, differs⟩ := others other member
      rcases order.tree lower upper with equal | first | second
      · exact differs equal
      · exact apart other kept item here first
      · exact apart item here other kept second
    have notAbove : ∀ other ∈ front ++ back, ¬ below value other := fun other member higher =>
      apart item here other (others other member).1 (order.trans upper higher)
    have listed : ∀ other, other ∈ front ++ value :: back ↔
        other = value ∨ other ∈ front ++ back := by
      intro other
      simp only [List.mem_append, List.mem_cons]
      tauto
    refine ⟨?_, fun other member => ?_, fun first member second member' => ?_,
      fun other member => ?_⟩
    · rw [List.nodup_middle, List.nodup_cons]
      exact ⟨fun member => fresh (others value member).1,
        (List.nodup_cons.mp (List.nodup_middle.mp nodup)).2⟩
    · rcases (listed other).mp member with rfl | kept
      · exact List.mem_append_right _ List.mem_cons_self
      · exact List.mem_append_left _ (among other (others other kept).1)
    · rcases (listed first).mp member with rfl | kept <;>
        rcases (listed second).mp member' with rfl | kept'
      · exact order.irrefl _
      · exact notAbove second kept'
      · exact notBelow first kept
      · exact apart first (others first kept).1 second (others second kept').1
    · have still : ∀ kept ∈ front ++ item :: back, kept ∈ front ++ value :: back ∨
          kept = item := by
        intro kept
        simp only [List.mem_append, List.mem_cons]
        tauto
      have new : value ∈ front ++ value :: back := by simp
      rcases List.mem_append.mp member with before | last
      · rcases covered other before with kept | ⟨top, kept, lower⟩
        · rcases still other kept with there | rfl
          · exact .inl there
          · exact .inr ⟨value, new, upper⟩
        · rcases still top kept with there | rfl
          · exact .inr ⟨top, there, lower⟩
          · exact .inr ⟨value, new, order.trans lower upper⟩
      · rw [List.mem_singleton.mp last]
        exact .inl new
  · rw [same]
    refine ⟨?_, fun other member => ?_, fun first member second member' => ?_,
      fun other member => ?_⟩
    · rw [List.nodup_append]
      refine ⟨nodup, by simp, fun other member last final => ?_⟩
      rw [List.mem_singleton.mp final]
      exact fun equal => fresh (equal ▸ member)
    · exact (List.mem_append.mp member).elim
        (fun before => List.mem_append_left _ (among other before))
        (List.mem_append_right _)
    · rcases List.mem_append.mp member with before | last <;>
        rcases List.mem_append.mp member' with before' | last'
      · exact apart first before second before'
      · rw [List.mem_singleton.mp last']
        exact (free first before).2
      · rw [List.mem_singleton.mp last]
        exact (free second before').1
      · rw [List.mem_singleton.mp last, List.mem_singleton.mp last']
        exact order.irrefl value
    · rcases List.mem_append.mp member with before | last
      · exact (covered other before).imp (List.mem_append_left _) fun ⟨top, kept, lower⟩ =>
          ⟨top, List.mem_append_left _ kept, lower⟩
      · exact .inl (List.mem_append_right _ last)

theorem Keeps.insert [DecidableEq α] (order : TreeOrder below) (keeps : Keeps below items given)
    (value : α) : Keeps below (insert below items value) (given ++ [value]) := by
  rw [MaximalElements.insert]
  split
  · rename_i known
    refine ⟨keeps.nodup, fun item member => List.mem_append_left _ (keeps.among item member),
      keeps.apart, fun other member => ?_⟩
    rcases List.mem_append.mp member with before | last
    · exact keeps.covered other before
    · rw [List.mem_singleton.mp last]
      exact .inl known
  · exact keeps.place order ‹_›

end

end Segvault.MaximalElements
