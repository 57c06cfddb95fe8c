import Mathlib.Data.List.Chain
import Mathlib.Data.List.Nodup

namespace Segvault

universe u

variable {ι : Type u} {next prev : ι → ι}

/-! Doubly linked circular lists, given by the successor and the predecessor
of each member and the list of the members from the first to the last. -/

def Linked (next prev : ι → ι) (first second : ι) : Prop :=
  next first = second ∧ prev second = first

structure Ring (next prev : ι → ι) (members : List ι) : Prop where
  chain : members.IsChain (Linked next prev)
  closed : ∀ last ∈ members.getLast?, ∀ first ∈ members.head?,
    Linked next prev last first

namespace Ring

theorem singleton {member : ι} (forward : next member = member)
    (backward : prev member = member) : Ring next prev [member] := by
  refine ⟨List.isChain_singleton member, ?_⟩
  rintro last lastEq first firstEq
  cases Option.mem_some_iff.mp lastEq
  cases Option.mem_some_iff.mp firstEq
  exact ⟨forward, backward⟩

theorem congr {next' prev' : ι → ι} {members : List ι} (ring : Ring next prev members)
    (forward : ∀ member ∈ members, next' member = next member)
    (backward : ∀ member ∈ members, prev' member = prev member) :
    Ring next' prev' members := by
  refine ⟨ring.chain.imp_of_mem_imp ?_, ?_⟩
  · intro first second firstMem secondMem linked
    exact ⟨(forward first firstMem).trans linked.1,
      (backward second secondMem).trans linked.2⟩
  · intro last lastEq first firstEq
    have linked := ring.closed last lastEq first firstEq
    exact ⟨(forward last (List.mem_of_getLast? lastEq)).trans linked.1,
      (backward first (List.mem_of_head? firstEq)).trans linked.2⟩

theorem rotate {before after : List ι} (ring : Ring next prev (before ++ after)) :
    Ring next prev (after ++ before) := by
  cases before with
  | nil => rwa [List.append_nil]
  | cons first before =>
      cases after with
      | nil => rwa [List.append_nil] at ring
      | cons second after =>
          obtain ⟨front, back, joined⟩ := List.isChain_append.mp ring.chain
          refine ⟨List.isChain_append.mpr ⟨back, front, ?_⟩, ?_⟩
          · intro last lastEq head headEq
            refine ring.closed last ?_ head headEq
            rwa [List.getLast?_append_of_ne_nil _ (List.cons_ne_nil _ _)]
          · intro last lastEq head headEq
            rw [List.getLast?_append_of_ne_nil _ (List.cons_ne_nil _ _)] at lastEq
            exact joined last lastEq head headEq

theorem forward_mem {members : List ι} (ring : Ring next prev members)
    {member : ι} (mem : member ∈ members) : next member ∈ members := by
  obtain ⟨before, after, rfl⟩ := List.append_of_mem mem
  have rotated := ring.rotate
  rw [List.cons_append] at rotated
  cases tail : after ++ before with
  | nil =>
      rw [tail] at rotated
      rw [(rotated.closed member rfl member rfl).1]
      exact mem
  | cons second rest =>
      rw [tail] at rotated
      have step := (List.isChain_cons_cons.mp rotated.chain).1
      have inside : second ∈ after ++ before := by
        rw [tail]
        exact List.mem_cons_self ..
      rw [step.1]
      simp only [List.mem_append, List.mem_cons] at inside ⊢
      cases inside with
      | inl late => exact .inr (.inr late)
      | inr early => exact .inl early

theorem backward_mem {members : List ι} (ring : Ring next prev members)
    {member : ι} (mem : member ∈ members) : prev member ∈ members := by
  obtain ⟨before, after, rfl⟩ := List.append_of_mem mem
  have rotated := ring.rotate
  have last := rotated.closed
    ((member :: after ++ before).getLast (List.cons_ne_nil _ _))
    (List.getLast?_eq_getLast_of_ne_nil _) member rfl
  have inside := List.getLast_mem (List.cons_ne_nil member (after ++ before))
  rw [last.2]
  simp only [List.mem_append, List.mem_cons, List.cons_append] at inside ⊢
  tauto

-- Only the first member comes after the last one.
theorem eq_head {first last : ι} {rest : List ι}
    (ring : Ring next prev (first :: rest)) (nodup : (first :: rest).Nodup)
    (lastEq : (first :: rest).getLast? = some last) {member : ι}
    (mem : member ∈ first :: rest) (backward : prev member = last) :
    member = first := by
  obtain ⟨before, after, split⟩ := List.append_of_mem mem
  cases before using List.reverseRecOn with
  | nil => exact (List.cons.inj split).1.symm
  | append_singleton before other =>
      rw [List.append_assoc, List.singleton_append] at split
      have chain := ring.chain
      rw [split] at chain
      have step := (List.isChain_append_cons_cons.mp chain).2.1
      rw [split, List.getLast?_append_of_ne_nil _ (List.cons_ne_nil _ _),
        List.getLast?_cons_cons] at lastEq
      have inside : last ∈ member :: after := List.mem_of_getLast? lastEq
      rw [split, List.nodup_append] at nodup
      have fresh := (List.nodup_cons.mp nodup.2.1).1
      rw [← step.2, backward] at fresh
      exact absurd inside fresh

theorem last_not_mem_dropLast {members : List ι} (nodup : members.Nodup) {last : ι}
    (lastEq : members.getLast? = some last) : last ∉ members.dropLast := by
  have parts := List.dropLast_append_getLast? last lastEq
  rw [← parts, List.nodup_append] at nodup
  intro inside
  exact nodup.2.2 last inside last (List.mem_singleton_self last) rfl

theorem head_not_mem_tail {members : List ι} (nodup : members.Nodup) {first : ι}
    (headEq : members.head? = some first) : first ∉ members.tail := by
  cases members with
  | nil => cases headEq
  | cons head rest =>
      cases Option.some.inj headEq
      exact (List.nodup_cons.mp nodup).1

/-! Updates of the links. -/

variable [DecidableEq ι]

theorem chain_update {members : List ι}
    (chain : members.IsChain (Linked next prev)) {source target : ι}
    (early : source ∉ members.dropLast) (late : target ∉ members.tail)
    (forward backward : ι) :
    members.IsChain
      (Linked (Function.update next source forward)
        (Function.update prev target backward)) := by
  induction members with
  | nil => exact List.isChain_nil
  | cons head rest induction =>
      cases rest with
      | nil => exact List.isChain_singleton head
      | cons second rest =>
          obtain ⟨step, others⟩ := List.isChain_cons_cons.mp chain
          rw [List.dropLast_cons_cons, List.mem_cons, not_or] at early
          rw [List.tail_cons, List.mem_cons, not_or] at late
          refine List.isChain_cons_cons.mpr ⟨⟨?_, ?_⟩, induction others early.2 late.2⟩
          · rw [Function.update_of_ne (Ne.symm early.1)]
            exact step.1
          · rw [Function.update_of_ne (Ne.symm late.1)]
            exact step.2

theorem remove {before after : List ι} {member : ι}
    (ring : Ring next prev (before ++ member :: after))
    (nodup : (before ++ member :: after).Nodup) (others : before ++ after ≠ []) :
    Ring (Function.update next (prev member) (next member))
      (Function.update prev (next member) (prev member)) (before ++ after) := by
  refine Ring.rotate ?_
  have rotated := ring.rotate
  have distinct : (member :: (after ++ before)).Nodup :=
    (List.perm_append_comm.nodup_iff).mp nodup
  rw [List.cons_append] at rotated
  have rest := (List.nodup_cons.mp distinct).2
  cases shape : after ++ before with
  | nil =>
      rw [List.append_eq_nil_iff] at shape
      rw [shape.1, shape.2] at others
      exact absurd rfl others
  | cons first tail =>
      rw [shape] at rotated rest
      obtain ⟨step, chain⟩ := List.isChain_cons_cons.mp rotated.chain
      have lastEq := List.getLast?_eq_some_getLast (List.cons_ne_nil first tail)
      generalize (first :: tail).getLast (List.cons_ne_nil _ _) = last at lastEq
      have back := rotated.closed last (by
        rw [List.getLast?_cons_cons]
        exact lastEq) member rfl
      rw [back.2, step.1]
      refine ⟨chain_update chain (last_not_mem_dropLast rest lastEq)
        (head_not_mem_tail rest rfl) first last, ?_⟩
      intro final finalEq initial initialEq
      rw [lastEq] at finalEq
      cases Option.mem_some_iff.mp finalEq
      cases Option.mem_some_iff.mp initialEq
      exact ⟨Function.update_self .., Function.update_self ..⟩

theorem insertLast {members : List ι} {member first last : ι}
    (ring : Ring next prev members) (nodup : members.Nodup) (fresh : member ∉ members)
    (headEq : members.head? = some first) (lastEq : members.getLast? = some last) :
    Ring (Function.update (Function.update next member first) last member)
      (Function.update (Function.update prev member last) first member)
      (members ++ [member]) := by
  have firstMem := List.mem_of_head? headEq
  have lastMem := List.mem_of_getLast? lastEq
  have notFirst : member ≠ first := fun same => fresh (same ▸ firstMem)
  have notLast : member ≠ last := fun same => fresh (same ▸ lastMem)
  refine ⟨List.isChain_append.mpr ⟨?_, List.isChain_singleton member, ?_⟩, ?_⟩
  · refine chain_update (chain_update ring.chain ?_ ?_ first last)
      (last_not_mem_dropLast nodup lastEq) (head_not_mem_tail nodup headEq) _ _
    · exact fun inside => fresh ((List.dropLast_sublist members).subset inside)
    · exact fun inside => fresh (List.mem_of_mem_tail inside)
  · intro final finalEq initial initialEq
    rw [lastEq] at finalEq
    cases Option.mem_some_iff.mp finalEq
    cases Option.mem_some_iff.mp initialEq
    refine ⟨Function.update_self .., ?_⟩
    rw [Function.update_of_ne notFirst, Function.update_self]
  · intro final finalEq initial initialEq
    rw [List.getLast?_concat] at finalEq
    rw [List.head?_append_of_ne_nil _ (List.ne_nil_of_mem firstMem), headEq] at initialEq
    cases Option.mem_some_iff.mp finalEq
    cases Option.mem_some_iff.mp initialEq
    refine ⟨?_, Function.update_self ..⟩
    rw [Function.update_of_ne notLast, Function.update_self]

end Ring

end Segvault
