import Segvault.HachoirRegex.Append

namespace Segvault.HachoirRegex

namespace Tree

/-! The objects of a result are those of the operands, each as often as before,
and new ones. -/

theorem absorb_count {next : Ref} {t u : Tree} {result : Tree × Ref}
    (absorbs : absorb next t u = some result) (r : Ref) :
    result.1.refs.count r ≤
      t.refs.count r + u.refs.count r + [next].count r := by
  induction t generalizing result with
  | atom ref leaf =>
      obtain ⟨_, rfl⟩ | ⟨_, _, rfl⟩ | ⟨_, _, _, _, _, _, _, _, rfl⟩ :=
        absorb_atom absorbs
      · change u.refs.count r ≤ _
        omega
      · change (atom ref leaf).refs.count r ≤ _
        omega
      · change [next].count r ≤ _
        omega
  | regexAnd ref init last _ inductionLast =>
      obtain ⟨newLast, inner, rfl⟩ | ⟨_, rfl⟩ := absorb_regexAnd absorbs
      · have less := inductionLast inner
        simp only [refs, List.count_cons, List.count_append] at less ⊢
        omega
      · simp only [refs, List.count_cons, List.count_append, List.count_nil,
          refsAll_append, refsAll_cons, refsAll_nil, List.append_nil]
        omega
  | _ => cases absorbs

theorem absorb_refs {next : Ref} {t u : Tree} {result : Tree × Ref}
    (absorbs : absorb next t u = some result) {r : Ref}
    (member : r ∈ result.1.refs) : r ∈ t.refs ∨ r ∈ u.refs ∨ r = next := by
  have bound := absorb_count absorbs r
  have positive := List.count_pos_iff.2 member
  by_cases inT : r ∈ t.refs
  · exact Or.inl inT
  · by_cases inU : r ∈ u.refs
    · exact Or.inr (Or.inl inU)
    · rw [List.count_eq_zero.2 inT, List.count_eq_zero.2 inU] at bound
      have fresh : r ∈ [next] := List.count_pos_iff.1 (by omega)
      exact Or.inr (Or.inr (List.mem_singleton.1 fresh))

theorem absorb_next {next : Ref} {t u : Tree} {result : Tree × Ref}
    (absorbs : absorb next t u = some result) : next ≤ result.2 := by
  induction t generalizing result with
  | atom ref leaf =>
      obtain ⟨_, rfl⟩ | ⟨_, _, rfl⟩ | ⟨_, _, _, _, _, _, _, _, rfl⟩ :=
        absorb_atom absorbs <;> simp
  | regexAnd ref init last _ inductionLast =>
      obtain ⟨newLast, inner, rfl⟩ | ⟨_, rfl⟩ := absorb_regexAnd absorbs
      · have later := inductionLast inner
        exact later
      · exact Nat.le_succ next
  | _ => cases absorbs

/-! Which RegexAnd objects `&` writes into. -/

inductive Outcome
  | nothing
  | same
  | fresh
  -- the nodes from the root down to the one whose last item changes
  | inside (path : List Ref)

/-- What `_and` does to the object of `t`: it returns None, returns the object
with nothing changed, returns another object, or writes into it. -/
def outcome : Tree → Tree → Outcome
  | atom _ .regexEmpty, _ => .fresh
  | atom _ .regexWord, atom _ .regexWord => .same
  | atom _ .regexStart, atom _ .regexStart => .same
  | atom _ .regexEnd, atom _ .regexEnd => .same
  | atom _ (.regexString _ _), atom _ (.regexString _ _) => .fresh
  | regexAnd ref _ last, u =>
      match outcome last u with
      | .nothing => .fresh
      | .same => .same
      | .fresh => .inside [ref]
      | .inside path => .inside (ref :: path)
  | _, _ => .nothing

/-- The path down to the first node that appending `us` writes into. -/
def firstWrite (t : Tree) : List Tree → Option (List Ref)
  | [] => none
  | u :: us =>
      if u.isEmpty then firstWrite t us
      else
        match outcome t u with
        | .same => firstWrite t us
        | .inside path => some path
        | _ => none

/-- The RegexAnd objects on the way from `t` down to the first one that `t & u`
writes into; None when `t & u` writes into no object of `t`. -/
def rewritten (t u : Tree) : Option (List Ref) :=
  if t.isAnd then firstWrite t u.leaves else none

def Written (t u : Tree) (r : Ref) : Prop :=
  ∃ path, outcome t u = .inside path ∧ r ∈ path

theorem not_written {t u : Tree} (notAnd : t.isAnd = false) (r : Ref) :
    ¬ Written t u r := by
  rintro ⟨path, inside, _⟩
  cases t with
  | regexAnd ref init last => cases notAnd
  | atom ref leaf =>
      cases u with
      | atom refu other => cases leaf <;> cases other <;> cases inside
      | _ => cases leaf <;> cases inside
  | _ => cases inside

theorem outcome_refuses {next : Ref} {t u : Tree} (refuses : outcome t u = .nothing) :
    absorb next t u = none := by
  cases t with
  | regexAnd ref init last =>
      rw [outcome] at refuses
      cases inner : outcome last u <;> rw [inner] at refuses <;> cases refuses
  | atom ref leaf =>
      cases u with
      | atom refu other => cases leaf <;> cases other <;> first | rfl | cases refuses
      | _ => cases leaf <;> first | rfl | cases refuses
  | _ => rfl

theorem outcome_nothing {next : Ref} {t u : Tree} (refuses : absorb next t u = none) :
    outcome t u = .nothing := by
  cases t with
  | regexAnd ref init last =>
      rw [absorb] at refuses
      cases inner : absorb next last u <;> rw [inner] at refuses <;> cases refuses
  | atom ref leaf =>
      cases u with
      | atom refu other => cases leaf <;> cases other <;> first | rfl | cases refuses
      | _ => cases leaf <;> first | rfl | cases refuses
  | _ => rfl

theorem written_mem {t u : Tree} {r : Ref} (written : Written t u r) : r ∈ t.refs := by
  induction t with
  | regexAnd ref init last _ inductionLast =>
      obtain ⟨path, inside, member⟩ := written
      rw [outcome] at inside
      cases inner : outcome last u with
      | nothing | same => rw [inner] at inside; cases inside
      | fresh =>
          rw [inner] at inside
          cases inside
          rw [List.mem_singleton.1 member]
          exact List.mem_cons_self
      | inside deeper =>
          rw [inner] at inside
          cases inside
          obtain rfl | later := List.mem_cons.1 member
          · exact List.mem_cons_self
          · exact List.mem_cons_of_mem _
              (List.mem_append_right _ (inductionLast ⟨deeper, inner, later⟩))
  | _ => exact absurd written (not_written rfl r)

theorem written_last {ref : Ref} {init : List Tree} {last u : Tree} {r : Ref}
    (written : Written last u r) : Written (regexAnd ref init last) u r := by
  obtain ⟨path, inside, member⟩ := written
  refine ⟨ref :: path, ?_, List.mem_cons_of_mem _ member⟩
  rw [outcome, inside]

theorem outcome_fresh {next : Ref} {t u : Tree} {result : Tree × Ref}
    (absorbs : absorb next t u = some result) (other : result.1.ref ≠ t.ref) :
    outcome t u = .fresh := by
  induction t generalizing result with
  | atom ref leaf =>
      obtain ⟨rfl, _⟩ | ⟨_, _, rfl⟩ | ⟨_, _, _, _, _, _, rfl, rfl, _⟩ :=
        absorb_atom absorbs
      · rfl
      · exact absurd rfl other
      · rfl
  | regexAnd ref init last _ inductionLast =>
      obtain ⟨newLast, _, rfl⟩ | ⟨inner, _⟩ := absorb_regexAnd absorbs
      · exact absurd rfl other
      · have silent := outcome_nothing inner
        rw [outcome, silent]
  | _ => cases absorbs

theorem once_in_last {ref : Ref} {init : List Tree} {last : Tree} {r : Ref}
    (once : (regexAnd ref init last).refs.count r ≤ 1) (member : r ∈ last.refs) :
    r ≠ ref ∧ r ∉ refsAll init ∧ last.refs.count r ≤ 1 := by
  have positive := List.count_pos_iff.2 member
  rw [refs, List.count_cons, List.count_append] at once
  refine ⟨?_, ?_, by omega⟩
  · rintro rfl
    simp at once
    omega
  · intro inInit
    have more := List.count_pos_iff.2 inInit
    omega

theorem once_at_root {ref : Ref} {init : List Tree} {last : Tree}
    (once : (regexAnd ref init last).refs.count ref ≤ 1) :
    ref ∉ refsAll init ∧ ref ∉ last.refs := by
  rw [refs, List.count_cons, List.count_append] at once
  simp only [beq_self_eq_true, if_true] at once
  exact ⟨List.count_eq_zero.1 (by omega), List.count_eq_zero.1 (by omega)⟩

/-! Once an object has been written, only that one, its parent and new objects
are. -/

def spine : Tree → List Ref
  | regexAnd ref _ last => ref :: spine last
  | _ => []

theorem spine_of_not_and {t : Tree} (notAnd : t.isAnd = false) : t.spine = [] := by
  cases t with
  | regexAnd ref init last => cases notAnd
  | _ => rfl

theorem inside_spine {t u : Tree} {path : List Ref} (inside : outcome t u = .inside path) :
    ∀ r ∈ path, r ∈ t.spine := by
  induction t generalizing path with
  | regexAnd ref init last _ inductionLast =>
      rw [outcome] at inside
      cases inner : outcome last u with
      | nothing | same => rw [inner] at inside; cases inside
      | fresh =>
          rw [inner] at inside
          cases inside
          intro r member
          rw [List.mem_singleton.1 member]
          exact List.mem_cons_self
      | inside deeper =>
          rw [inner] at inside
          cases inside
          intro r member
          obtain rfl | later := List.mem_cons.1 member
          · exact List.mem_cons_self
          · exact List.mem_cons_of_mem _ (inductionLast inner r later)
  | _ =>
      intro r member
      exact absurd ⟨path, inside, member⟩ (not_written rfl r)

theorem outcome_same {next : Ref} {t u : Tree} (same : outcome t u = .same) :
    absorb next t u = some (t, next) := by
  induction t with
  | regexAnd ref init last _ inductionLast =>
      rw [outcome] at same
      cases inner : outcome last u <;> rw [inner] at same <;> cases same
      rw [absorb, inductionLast inner]
  | atom ref leaf =>
      cases u with
      | atom refu other => cases leaf <;> cases other <;> first | rfl | cases same
      | _ => cases leaf <;> cases same
  | _ => cases same

theorem spine_absorb {next : Ref} {t u : Tree} {result : Tree × Ref}
    (single : u.isAnd = false) (absorbs : absorb next t u = some result)
    (changes : outcome t u ≠ .same) :
    ∀ r ∈ result.1.spine, r = next ∨ Written t u r := by
  induction t generalizing result with
  | atom ref leaf =>
      intro r member
      obtain ⟨_, rfl⟩ | ⟨_, _, rfl⟩ | ⟨_, _, _, _, _, _, _, _, rfl⟩ :=
        absorb_atom absorbs
      · rw [spine_of_not_and single] at member
        cases member
      · cases member
      · cases member
  | regexAnd ref init last _ inductionLast =>
      obtain ⟨newLast, inner, rfl⟩ | ⟨_, rfl⟩ := absorb_regexAnd absorbs
      · intro r member
        have changesLast : outcome last u ≠ .same := by
          intro same
          exact changes (by rw [outcome, same])
        obtain rfl | inLast := List.mem_cons.1 member
        · refine Or.inr ?_
          rw [Written, outcome]
          cases case : outcome last u with
          | nothing =>
              rw [outcome_refuses case] at inner
              cases inner
          | same => exact absurd case changesLast
          | fresh => exact ⟨[r], rfl, by simp⟩
          | inside path => exact ⟨r :: path, rfl, by simp⟩
        · obtain fresh | written := inductionLast inner changesLast r inLast
          · exact Or.inl fresh
          · exact Or.inr (written_last written)
      · intro r member
        rw [spine, spine_of_not_and single, List.mem_singleton] at member
        exact Or.inl member
  | _ => cases absorbs

theorem firstWrite_spine {t : Tree} {us : List Tree} {path : List Ref}
    (write : firstWrite t us = some path) : ∀ r ∈ path, r ∈ t.spine := by
  induction us with
  | nil => cases write
  | cons u us induction =>
      rw [firstWrite] at write
      cases empty : u.isEmpty with
      | true =>
          rw [if_pos empty] at write
          exact induction write
      | false =>
          rw [if_neg (by simp [empty])] at write
          cases inner : outcome t u with
          | nothing | fresh => rw [inner] at write; cases write
          | same =>
              rw [inner] at write
              exact induction write
          | inside deeper =>
              rw [inner] at write
              cases write
              exact inside_spine inner

theorem append_isAnd {next : Ref} {t u : Tree} (isAnd : t.isAnd = true) :
    (append next t u).1.isAnd = true := by
  cases t with
  | regexAnd ref init last =>
      unfold append
      cases u.isEmpty with
      | true => rfl
      | false =>
          rw [absorb]
          cases absorb next last u <;> rfl
  | _ => cases isAnd

theorem absorb_isAnd (next : Ref) {t : Tree} (u : Tree) (isAnd : t.isAnd = true) :
    ∃ result, absorb next t u = some result := by
  cases t with
  | regexAnd ref init last =>
      rw [absorb]
      cases absorb next last u with
      | none => exact ⟨_, rfl⟩
      | some newLast => exact ⟨_, rfl⟩
  | _ => cases isAnd

end Tree

end Segvault.HachoirRegex
