import Mathlib.Algebra.Ring.Nat
import Mathlib.Data.List.Nodup

namespace Segvault.Weave

universe u v w

variable {κ : Type u} {ι : Type v} {α : Type w}

/-! A sequence of items with slots between them: one slot before each item, under the
key of the item, and one at the end. -/

def weave (key : ι → κ) (slots : Option κ → List α) (shown : ι → List α) :
    List ι → List α
  | [] => slots none
  | item :: items => slots (some (key item)) ++ shown item ++ weave key slots shown items

def lead (key : ι → κ) (slots : Option κ → List α) (shown : ι → List α)
    (items : List ι) : List α :=
  items.flatMap fun item => slots (some (key item)) ++ shown item

section Split

variable (key : ι → κ) (slots : Option κ → List α) (shown : ι → List α)

theorem weave_append (first second : List ι) :
    weave key slots shown (first ++ second) =
      lead key slots shown first ++ weave key slots shown second := by
  induction first with
  | nil => rfl
  | cons item first induction =>
      rw [List.cons_append, weave, induction, lead, lead, List.flatMap_cons,
        List.append_assoc, List.append_assoc, List.append_assoc]

theorem weave_lead (items : List ι) :
    weave key slots shown items = lead key slots shown items ++ slots none := by
  have whole := weave_append key slots shown items []
  rw [List.append_nil] at whole
  exact whole

theorem mem_weave {element : α} {items : List ι} :
    element ∈ weave key slots shown items ↔
      (∃ item ∈ items, element ∈ slots (some (key item)) ∨ element ∈ shown item) ∨
        element ∈ slots none := by
  rw [weave_lead, lead, List.mem_append, List.mem_flatMap]
  simp only [List.mem_append]

end Split

/-- The slots and the items, counted apart. -/
theorem length_weave (key : ι → κ) (slots : Option κ → List α) (shown : ι → List α)
    (items : List ι) :
    (weave key slots shown items).length =
      ((none :: items.map (some ∘ key)).map fun place => (slots place).length).sum +
        (items.map fun item => (shown item).length).sum := by
  induction items with
  | nil => rw [weave]; simp
  | cons item items induction =>
      rw [weave, List.length_append, List.length_append, induction]
      simp only [List.map_cons, List.sum_cons, Function.comp_apply]
      omega

/-! Slots and items elsewhere do not matter. -/

section Congr

variable {key : ι → κ} {slots other : Option κ → List α} {shown seen : ι → List α}

theorem lead_congr {items : List ι}
    (slots_eq : ∀ item ∈ items, slots (some (key item)) = other (some (key item)))
    (shown_eq : ∀ item ∈ items, shown item = seen item) :
    lead key slots shown items = lead key other seen items := by
  rw [lead, lead, List.flatMap_def, List.flatMap_def]
  congr 1
  refine List.map_congr_left fun item member => ?_
  rw [slots_eq item member, shown_eq item member]

theorem weave_congr {items : List ι}
    (slots_eq : ∀ item ∈ items, slots (some (key item)) = other (some (key item)))
    (last_eq : slots none = other none)
    (shown_eq : ∀ item ∈ items, shown item = seen item) :
    weave key slots shown items = weave key other seen items := by
  rw [weave_lead, weave_lead, lead_congr slots_eq shown_eq, last_eq]

end Congr

section Change

variable {key : ι → κ} {slots other : Option κ → List α}
  {shown seen : ι → List α} {before after : List ι} {item : ι}
  (distinct : ((before ++ item :: after).map key).Nodup)

include distinct

theorem key_apart :
    (∀ other ∈ before, key other ≠ key item) ∧ ∀ other ∈ after, key other ≠ key item := by
  rw [List.map_append, List.map_cons, List.nodup_append, List.nodup_cons] at distinct
  obtain ⟨-, ⟨fresh, -⟩, apart⟩ := distinct
  refine ⟨fun other member => ?_, fun other member same => ?_⟩
  · exact apart _ (List.mem_map_of_mem member) _ List.mem_cons_self
  · exact fresh (same ▸ List.mem_map_of_mem member)

/-- Another list in the slot before an item. -/
theorem weave_slot (same : ∀ place, place ≠ some (key item) → other place = slots place) :
    weave key other shown (before ++ item :: after) =
      lead key slots shown before ++ other (some (key item)) ++
        (shown item ++ weave key slots shown after) := by
  obtain ⟨early, late⟩ := key_apart distinct
  have apart : ∀ one, key one ≠ key item → other (some (key one)) = slots (some (key one)) :=
    fun one different => same _ fun equal => different (Option.some.inj equal)
  rw [weave_append, weave,
    lead_congr (fun one member => apart one (early one member)) fun _ _ => rfl,
    weave_congr (fun one member => apart one (late one member)) (same none nofun)
      fun _ _ => rfl]
  simp only [List.append_assoc]

/-- Another show of one item. -/
theorem weave_shown (same : ∀ one, key one ≠ key item → seen one = shown one) :
    weave key slots seen (before ++ item :: after) =
      lead key slots shown before ++ slots (some (key item)) ++ seen item ++
        weave key slots shown after := by
  obtain ⟨early, late⟩ := key_apart distinct
  rw [weave_append, weave,
    lead_congr (fun _ _ => rfl) fun one member => same one (early one member),
    weave_congr (fun _ _ => rfl) rfl fun one member => same one (late one member)]
  simp only [List.append_assoc]

end Change

/-- Another list in the last slot. -/
theorem weave_last {key : ι → κ} {slots other : Option κ → List α} {shown : ι → List α}
    (items : List ι) (same : ∀ place, place ≠ none → other place = slots place) :
    weave key other shown items = lead key slots shown items ++ other none := by
  rw [weave_lead, lead_congr (fun one _ => same _ nofun) fun _ _ => rfl]

end Segvault.Weave
