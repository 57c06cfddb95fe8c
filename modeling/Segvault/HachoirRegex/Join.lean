import Segvault.HachoirRegex.Tidy

namespace Segvault.HachoirRegex

open Relation Spans

/-! RegexAnd.join writes into no object that was there before it. -/

/-- One for a reference from `next` up to `later`. -/
def between (next later r : Nat) : Nat :=
  if next ≤ r ∧ r < later then 1 else 0

theorem between_add {first second third : Nat} (grows : first ≤ second) (more : second ≤ third)
    (r : Nat) : between first second r + between second third r = between first third r := by
  unfold between
  split <;> split <;> split <;> omega

theorem between_le_one (next later r : Nat) : between next later r ≤ 1 := by
  unfold between
  split <;> omega

theorem between_old {next later r : Nat} (old : r < next) : between next later r = 0 := by
  unfold between
  rw [if_neg]
  omega

theorem between_three (next r : Nat) :
    between next (next + 1) r + between (next + 1) (next + 2) r +
      between (next + 2) (next + 3) r = between next (next + 3) r := by
  rw [between_add (Nat.le_add_right _ 1) (Nat.le_add_right _ 1),
    between_add (Nat.le_add_right _ 2) (Nat.le_add_right _ 1)]

namespace Tree

theorem count_next (next r : Ref) : [next].count r ≤ between next (next + 1) r := by
  unfold between
  rw [List.count_singleton]
  split <;> split <;> simp_all

theorem count_cons_next (next r : Ref) (rest : List Ref) :
    (next :: rest).count r ≤ rest.count r + between next (next + 1) r := by
  have one := count_next next r
  simp only [List.count_cons, List.count_nil] at one ⊢
  omega

theorem absorb_between {next : Ref} {t u : Tree} {result : Tree × Ref}
    (absorbs : absorb next t u = some result) (r : Ref) :
    result.1.refs.count r ≤ t.refs.count r + u.refs.count r + between next result.2 r := by
  have single := count_next next r
  induction t generalizing result with
  | atom ref leaf =>
      obtain ⟨_, rfl⟩ | ⟨_, _, rfl⟩ | ⟨_, _, _, _, _, _, _, _, rfl⟩ := absorb_atom absorbs
      · simp only
        omega
      · simp only
        omega
      · change [next].count r ≤ _
        simp only
        omega
  | regexAnd ref init last _ inductionLast =>
      obtain ⟨newLast, inner, rfl⟩ | ⟨_, rfl⟩ := absorb_regexAnd absorbs
      · have less := inductionLast inner
        simp only [refs, List.count_cons, List.count_append] at less ⊢
        omega
      · simp only [refs, List.count_cons, List.count_append, List.count_nil, refsAll_append,
          refsAll_cons, refsAll_nil, List.append_nil] at single ⊢
        omega
  | _ => cases absorbs

theorem append_between (next : Ref) (t u : Tree) (r : Ref) :
    (append next t u).1.refs.count r ≤
      t.refs.count r + u.refs.count r + between next (append next t u).2 r := by
  unfold append
  cases empty : u.isEmpty with
  | true =>
      simp only [if_true]
      omega
  | false =>
      cases absorbs : absorb next t u with
      | some result => exact absorb_between absorbs r
      | none =>
          have single := count_next next r
          simp only [Bool.false_eq_true, if_false, refs, List.count_cons, List.count_append,
            List.count_nil, refsAll_cons, refsAll_nil, List.append_nil] at single ⊢
          omega

theorem append_next (next : Ref) (t u : Tree) : next ≤ (append next t u).2 := by
  unfold append
  cases u.isEmpty with
  | true => exact Nat.le_refl _
  | false =>
      cases absorbs : absorb next t u with
      | some result => exact absorb_next absorbs
      | none => exact Nat.le_succ next

theorem appendAll_next (next : Ref) (t : Tree) (us : List Tree) :
    next ≤ (appendAll next t us).2 := by
  induction us generalizing next t with
  | nil => exact Nat.le_refl _
  | cons u us induction => exact (append_next next t u).trans (induction _ _)

theorem appendAll_between (next : Ref) (t : Tree) (us : List Tree) (r : Ref) :
    (appendAll next t us).1.refs.count r ≤
      t.refs.count r + (refsAll us).count r + between next (appendAll next t us).2 r := by
  induction us generalizing next t with
  | nil => exact Nat.le_add_right_of_le (Nat.le_add_right _ _)
  | cons u us induction =>
      have step := append_between next t u r
      have rest := induction (append next t u).2 (append next t u).1
      have whole := between_add (append_next next t u)
        (appendAll_next (append next t u).2 (append next t u).1 us) r
      simp only [appendAll, refsAll_cons, List.count_append]
      omega

theorem leaves_count (t : Tree) (r : Ref) : (refsAll t.leaves).count r ≤ t.refs.count r := by
  induction t with
  | regexAnd ref init last inductionInit inductionLast =>
      have all : (refsAll (leavesAll init)).count r ≤ (refsAll init).count r := by
        clear inductionLast
        induction init with
        | nil => exact Nat.le_refl _
        | cons item init induction =>
            have here := inductionInit item (by simp)
            have later := induction fun other member =>
              inductionInit other (List.mem_cons_of_mem _ member)
            simp only [leavesAll, refsAll_append, refsAll_cons, List.count_append]
            omega
      simp only [leaves, refs, refsAll_append, List.count_append, List.count_cons]
      omega
  | _ => simp [leaves]

theorem concat_between (next : Ref) (t u : Tree) (r : Ref) :
    (concat next t u).1.refs.count r ≤
      t.refs.count r + u.refs.count r + between next (concat next t u).2 r := by
  unfold concat
  cases t.isAnd with
  | true =>
      have whole := appendAll_between next t u.leaves r
      have leaves := leaves_count u r
      simp only [if_true]
      omega
  | false => exact append_between next t u r

/-! Only the RegexAnd objects on the way down the last items are written. -/

theorem spine_mem_refs {t : Tree} {r : Ref} (member : r ∈ t.spine) : r ∈ t.refs := by
  induction t with
  | regexAnd ref init last _ inductionLast =>
      obtain rfl | later := List.mem_cons.mp member
      · exact List.mem_cons_self
      · exact List.mem_cons_of_mem _ (List.mem_append_right _ (inductionLast later))
  | _ => cases member

theorem spine_append {t u : Tree} (single : u.isAnd = false) (next : Ref) :
    ∀ r ∈ (append next t u).1.spine, r = next ∨ r ∈ t.spine := by
  intro r member
  unfold append at member
  cases empty : u.isEmpty with
  | true =>
      rw [empty] at member
      exact .inr member
  | false =>
      rw [empty] at member
      cases absorbs : absorb next t u with
      | none =>
          rw [absorbs] at member
          simp only [Bool.false_eq_true, if_false, spine, spine_of_not_and single,
            List.mem_singleton] at member
          exact .inl member
      | some result =>
          rw [absorbs] at member
          simp only [Bool.false_eq_true, if_false] at member
          by_cases same : outcome t u = .same
          · rw [outcome_same same] at absorbs
            cases absorbs
            exact .inr member
          · obtain fresh | ⟨path, inside, inPath⟩ := spine_absorb single absorbs same r member
            · exact .inl fresh
            · exact .inr (inside_spine inside r inPath)

theorem spine_appendAll {t : Tree} {us : List Tree} (single : ∀ u ∈ us, u.isAnd = false)
    (next : Ref) : ∀ r ∈ (appendAll next t us).1.spine, next ≤ r ∨ r ∈ t.spine := by
  induction us generalizing next t with
  | nil => exact fun r member => .inr member
  | cons u us induction =>
      intro r member
      have later := induction (fun other member => single other (List.mem_cons_of_mem _ member))
        (append next t u).2 r member
      have grows := append_next next t u
      obtain after | inside := later
      · exact .inl (grows.trans after)
      · obtain rfl | inside := spine_append (single u (by simp)) next r inside
        · exact .inl (Nat.le_refl _)
        · exact .inr inside

theorem spine_concat {t u : Tree} (single : t.isAnd = true ∨ u.isAnd = false) (next : Ref) :
    ∀ r ∈ (concat next t u).1.spine, next ≤ r ∨ r ∈ t.spine := by
  intro r member
  unfold concat at member
  cases isAnd : t.isAnd with
  | true =>
      rw [isAnd] at member
      exact spine_appendAll leaves_not_and next r member
  | false =>
      rw [isAnd] at member
      have alone := single.resolve_left (by simp [isAnd])
      obtain rfl | inside := spine_append alone next r member
      · exact .inl (Nat.le_refl _)
      · exact .inr inside

/-! RegexAnd.join on trees. -/

def concatAll (next : Ref) (t : Tree) : List Tree → Tree × Ref
  | [] => (t, next)
  | u :: us => concatAll (concat next t u).2 (concat next t u).1 us

theorem concat_next (next : Ref) (t u : Tree) : next ≤ (concat next t u).2 := by
  unfold concat
  cases t.isAnd with
  | true => exact appendAll_next next t u.leaves
  | false => exact append_next next t u

theorem concatAll_next (next : Ref) (t : Tree) (us : List Tree) :
    next ≤ (concatAll next t us).2 := by
  induction us generalizing next t with
  | nil => exact Nat.le_refl _
  | cons u us induction => exact (concat_next next t u).trans (induction _ _)

theorem concatAll_between (next : Ref) (t : Tree) (us : List Tree) (r : Ref) :
    (concatAll next t us).1.refs.count r ≤
      t.refs.count r + (refsAll us).count r + between next (concatAll next t us).2 r := by
  induction us generalizing next t with
  | nil => exact Nat.le_add_right_of_le (Nat.le_add_right _ _)
  | cons u us induction =>
      have step := concat_between next t u r
      have rest := induction (concat next t u).2 (concat next t u).1
      have whole := between_add (concat_next next t u)
        (concatAll_next (concat next t u).2 (concat next t u).1 us) r
      simp only [concatAll, refsAll_cons, List.count_append]
      omega

theorem denote_concatAll (dot : UInt8 → Prop) (text : List UInt8) (next : Ref) (t : Tree)
    (us : List Tree) : (concatAll next t us).1.denote dot text =
      sequence ((t :: us).map (denote dot text)) := by
  induction us generalizing next t with
  | nil => exact (sequence_singleton _).symm
  | cons u us induction =>
      rw [concatAll, induction, List.map_cons, sequence_cons, denote_concat, comp_assoc]
      rfl

theorem everywhere_concatAll {holds : Tree → Prop} (kept : Kept holds) (next : Ref) {t : Tree}
    {us : List Tree} (allT : Everywhere holds t) (allUs : ∀ u ∈ us, Everywhere holds u) :
    Everywhere holds (concatAll next t us).1 := by
  induction us generalizing next t with
  | nil => exact allT
  | cons u us induction =>
      exact induction _ (everywhere_concat kept next allT (allUs u (by simp)))
        fun other member => allUs other (List.mem_cons_of_mem _ member)

theorem single_concatAll (next : Ref) (t : Tree) (us : List Tree) :
    (concatAll next t us).1.single = singleAll (t :: us) := by
  induction us generalizing next t with
  | nil => simp [concatAll, singleAll]
  | cons u us induction =>
      rw [concatAll, induction]
      simp [singleAll, single_concat, Bool.and_assoc]

theorem append_weight_cases (next : Ref) (t u : Tree) :
    (append next t u).1.weight ≤ t.weight + u.weight ∨
      (t.isAnd = false ∧ (append next t u).1.isAnd = true ∧
        (append next t u).1.weight ≤ t.weight + u.weight + 1) := by
  cases isAnd : t.isAnd with
  | true => exact .inl ((weight_append next t u).2 isAnd)
  | false =>
      unfold append
      cases empty : u.isEmpty with
      | true => exact .inl (by simp)
      | false =>
          cases absorbs : absorb next t u with
          | some result => exact .inl (weight_absorb absorbs)
          | none => exact .inr ⟨rfl, rfl, by simp; omega⟩

theorem concat_isAnd {t : Tree} (isAnd : t.isAnd = true) (next : Ref) (u : Tree) :
    (concat next t u).1.isAnd = true := by
  have all : ∀ (us : List Tree) (next : Ref) {t : Tree}, t.isAnd = true →
      (appendAll next t us).1.isAnd = true := by
    intro us
    induction us with
    | nil => exact fun _ _ isAnd => isAnd
    | cons u us induction => exact fun next t isAnd => induction _ (append_isAnd isAnd)
  rw [concat, if_pos isAnd]
  exact all u.leaves next isAnd

theorem concatAll_isAnd {t : Tree} (isAnd : t.isAnd = true) (next : Ref) (us : List Tree) :
    (concatAll next t us).1.isAnd = true := by
  induction us generalizing next t with
  | nil => exact isAnd
  | cons u us induction => exact induction (concat_isAnd isAnd next u) _

/-- Only the first RegexAnd object counts. -/
theorem weight_concatAll (next : Ref) (t : Tree) (us : List Tree) :
    (concatAll next t us).1.weight ≤ t.weight + weightAll us ∨
      (t.isAnd = false ∧ (concatAll next t us).1.isAnd = true ∧
        (concatAll next t us).1.weight ≤ t.weight + weightAll us + 1) := by
  induction us generalizing next t with
  | nil => exact .inl (by simp [concatAll])
  | cons u us induction =>
      have rest := induction (concat next t u).2 (concat next t u).1
      simp only [concatAll, weightAll_cons]
      cases isAnd : t.isAnd with
      | true =>
          have step := (weight_concat next t u).2 isAnd
          obtain less | ⟨wrong, _⟩ := rest
          · exact .inl (by omega)
          · rw [concat_isAnd isAnd] at wrong
            cases wrong
      | false =>
          have alone : concat next t u = append next t u := by
            rw [concat, isAnd, if_neg Bool.false_ne_true]
          rw [alone] at rest ⊢
          obtain step | ⟨_, isAnd', step⟩ := append_weight_cases next t u
          · obtain less | ⟨_, becomes, less⟩ := rest
            · exact .inl (by omega)
            · exact .inr ⟨rfl, becomes, by omega⟩
          · obtain less | ⟨wrong, _⟩ := rest
            · refine .inr ⟨rfl, ?_, by omega⟩
              rw [← alone] at isAnd' ⊢
              exact concatAll_isAnd isAnd' _ us
            · rw [isAnd'] at wrong
              cases wrong

/-! RegexAnd.join in the heap. -/

/-- One step of the join: no object of `h0` is written. -/
theorem dunderAnd_fresh {h0 h : Heap} {t u : Tree} (grown : h0.Extends h) (rept : t.Rep h)
    (repu : u.Rep h) (spine : ∀ r ∈ t.spine, h0.size ≤ r ∧ t.refs.count r ≤ 1 ∧ r ∉ u.refs) :
    ∃ h', Returns (fun fuel => dunderAnd fuel t.ref u.ref h) ((concat h.size t u).1.ref, h') ∧
      (concat h.size t u).1.Rep h' ∧ h'.size = (concat h.size t u).2 ∧ h0.Extends h' := by
  have inSpine : ∀ path, rewritten t u = some path → ∀ r ∈ path, r ∈ t.spine := by
    intro path writes
    rw [rewritten] at writes
    cases isAnd : t.isAnd with
    | true =>
        rw [isAnd, if_pos rfl] at writes
        exact firstWrite_spine writes
    | false =>
        rw [isAnd, if_neg Bool.false_ne_true] at writes
        cases writes
  obtain ⟨h', runs, rep, size, keeps⟩ := dunderAnd_concat rept repu
    fun path writes r member => (spine r (inSpine path writes r member)).2
  refine ⟨h', runs, rep, size, grown.andThen keeps ?_⟩
  rintro r old ⟨path, writes, member⟩
  exact absurd (spine r (inSpine path writes r member)).1 (Nat.not_le_of_lt old)

theorem joinItems_returns {h0 : Heap} {us : List Tree} {h : Heap} {t : Tree}
    (grown : h0.Extends h) (rept : t.Rep h)
    (repus : ∀ u ∈ us, u.Rep h0) (single : ∀ u ∈ us.dropLast, u.isAnd = false)
    (spine : us ≠ [] → ∀ r ∈ t.spine, h0.size ≤ r ∧ t.refs.count r ≤ 1) :
    ∃ h', Returns (fun fuel => joinItems fuel t.ref (us.map ref) h)
        ((concatAll h.size t us).1.ref, h') ∧
      (concatAll h.size t us).1.Rep h' ∧ h'.size = (concatAll h.size t us).2 ∧
      h0.Extends h' := by
  induction us generalizing h t with
  | nil => exact ⟨h, Returns.pure _, rept, rfl, grown⟩
  | cons u us induction =>
      have repu := repus u (by simp)
      have spine := spine (List.cons_ne_nil _ _)
      obtain ⟨h1, runs, rep1, size1, grown1⟩ := dunderAnd_fresh grown rept (repu.extends grown)
        (fun r member => ⟨(spine r member).1, (spine r member).2, fun inside =>
          absurd (repu.lt r inside) (Nat.not_lt.mpr (spine r member).1)⟩)
      obtain ⟨h2, runsRest, rep2, size2, grown2⟩ := induction grown1 rep1
        (fun other member => repus other (List.mem_cons_of_mem _ member))
        (fun other member => single other (by
          cases us with
          | nil => cases member
          | cons next us => exact List.mem_cons_of_mem _ member))
        (fun more r member => by
          have alone : u.isAnd = false := single u (by
            cases us with
            | nil => exact absurd rfl more
            | cons next us => simp)
          have count := concat_between h.size t u r
          have limit := between_le_one h.size (concat h.size t u).2 r
          have notU : h0.size ≤ r → u.refs.count r = 0 := fun new =>
            List.count_eq_zero.mpr fun inside => absurd (repu.lt r inside) (Nat.not_lt.mpr new)
          obtain fresh | inT := spine_concat (.inr alone) h.size r member
          · have new : h0.size ≤ r := Nat.le_trans grown.grows fresh
            have notT : t.refs.count r = 0 := List.count_eq_zero.mpr fun inside =>
              absurd (rept.lt r inside) (Nat.not_lt.mpr fresh)
            have none := notU new
            exact ⟨new, by omega⟩
          · obtain ⟨new, once⟩ := spine r inT
            have none := notU new
            have old : between h.size (concat h.size t u).2 r = 0 := by
              exact between_old (rept.lt r (spine_mem_refs inT))
            exact ⟨new, by omega⟩)
      rw [size1] at runsRest rep2 size2
      exact ⟨h2, Returns.bind runs runsRest, rep2, size2, grown2⟩

theorem spine_concatAll {t : Tree} {us : List Tree} (single : ∀ u ∈ us, u.isAnd = false)
    (next : Ref) : ∀ r ∈ (concatAll next t us).1.spine, next ≤ r ∨ r ∈ t.spine := by
  induction us generalizing next t with
  | nil => exact fun r member => .inr member
  | cons u us induction =>
      intro r member
      have later := induction (fun other member => single other (List.mem_cons_of_mem _ member))
        (concat next t u).2 r member
      have grows := concat_next next t u
      obtain after | inside := later
      · exact .inl (grows.trans after)
      · exact spine_concat (.inr (single u (by simp))) next r inside

/-- What RegexAnd.join makes of the items. -/
structure Joined (h : Heap) (items : List Tree) (result : Tree) (h' : Heap) : Prop where
  rep : result.Rep h'
  grown : h.Extends h'
  count : ∀ r, result.refs.count r ≤ (refsAll items).count r + between h.size h'.size r
  everywhere : ∀ holds, Kept holds → (∀ ref, holds (atom ref .regexEmpty)) →
    (∀ item ∈ items, Everywhere holds item) → Everywhere holds result
  weight : result.weight ≤ weightAll items ∨
    (result.isAnd = true ∧ result.weight ≤ weightAll items + 1) ∨
    (items = [] ∧ result.isEmpty = true)
  alone : ∀ item, items = [item] → result = item
  single : result.single = singleAll items
  denote : ∀ dot text, result.denote dot text = sequence (items.map (denote dot text))
  spine : (∀ item ∈ items, item.isAnd = false) → ∀ r ∈ result.spine, h.size ≤ r

theorem Joined.light {h h' : Heap} {items : List Tree} {result : Tree}
    (joined : Joined h items result h') :
    result.weight ≤ weightAll items + 1 ∨ (items = [] ∧ result.isEmpty = true) := by
  obtain less | ⟨_, less⟩ | empty := joined.weight
  · exact .inl (Nat.le_succ_of_le less)
  · exact .inl less
  · exact .inr empty

theorem join_returns {h : Heap} {items : List Tree} (reps : ∀ item ∈ items, item.Rep h)
    (single : ∀ item ∈ items.dropLast, item.isAnd = false) :
    ∃ h' result, Returns (fun fuel => join fuel (items.map ref) h) (result.ref, h') ∧
      Joined h items result h' := by
  cases items with
  | nil =>
      let empty : Node := .atom .regexEmpty
      refine ⟨(h.new empty).2, atom h.size .regexEmpty, Returns.pure _, ?_⟩
      exact {
        rep := h.new_node? empty
        grown := h.new_extends empty
        count := fun r => by
          have one := count_next h.size r
          rw [Heap.new_size]
          simpa [refs] using one
        everywhere := fun holds _ empty _ => everywhere_atom (empty _)
        weight := .inr (.inr ⟨rfl, rfl⟩)
        alone := fun item wrong => by cases wrong
        single := rfl
        denote := fun dot text => rfl
        spine := fun _ r member => by cases member }
  | cons t us =>
      have rept := reps t (by simp)
      obtain ⟨h', runs, rep, size, grown⟩ := joinItems_returns (Heap.KeepsBut.refl _ h) rept
        (fun u member => reps u (List.mem_cons_of_mem _ member))
        (fun u member => single u (by
          cases us with
          | nil => cases member
          | cons next us => exact List.mem_cons_of_mem _ member))
        (fun more r member => by
          have alone : t.isAnd = false := single t (by
            cases us with
            | nil => exact absurd rfl more
            | cons next us => simp)
          rw [spine_of_not_and alone] at member
          cases member)
      refine ⟨h', (concatAll h.size t us).1, runs, ?_⟩
      exact {
        rep := rep
        grown := grown
        count := fun r => by
          rw [size, refsAll_cons, List.count_append]
          exact concatAll_between h.size t us r
        everywhere := fun holds kept _ all => everywhere_concatAll kept _ (all t (by simp))
          fun u member => all u (List.mem_cons_of_mem _ member)
        weight := (weight_concatAll h.size t us).imp_right fun more => .inl more.2
        alone := fun item same => by
          obtain ⟨rfl, rfl⟩ := List.cons.inj same
          rfl
        single := single_concatAll h.size t us
        denote := fun dot text => denote_concatAll dot text _ _ _
        spine := fun none r member => by
          have started := spine_of_not_and (none t (by simp))
          obtain fresh | inside := spine_concatAll
            (fun u member => none u (List.mem_cons_of_mem _ member)) h.size r member
          · exact fresh
          · rw [started] at inside
            cases inside }

end Tree

end Segvault.HachoirRegex
