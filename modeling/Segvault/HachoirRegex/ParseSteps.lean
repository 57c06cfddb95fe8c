import Segvault.HachoirRegex.ParseString
import Segvault.HachoirRegex.RepeatEnds

namespace Segvault.HachoirRegex

open Logged Tree

/-! The steps of the parser on the regexes that it has made since `h0`. -/

namespace Grown

theorem atom {h : Heap} (leaf : Atom) :
    Grown h [] [.atom h.size leaf] (h.new (.atom leaf)).2 where
  grown := h.new_extends _
  rep _ member := List.mem_singleton.mp member ▸ h.new_node? _
  tidy _ member := List.mem_singleton.mp member ▸ everywhere_atom trivial
  count r := by
    rw [Heap.new_size]
    have one := count_next h.size r
    simp only [refsAll_cons, refsAll_nil, List.append_nil, List.count_nil, Nat.zero_add]
    exact one

/-- A step on some of the regexes. -/
theorem frame {h0 h h' : Heap} {others parts wholes : List Tree}
    (read : Grown h0 [] (others ++ parts) h) (step : Grown h parts wholes h') :
    Grown h0 [] (others ++ wholes) h' where
  grown := read.grown.trans step.grown
  rep whole member := by
    obtain old | new := List.mem_append.mp member
    · exact (read.rep whole (List.mem_append_left _ old)).extends step.grown
    · exact step.rep whole new
  tidy whole member := by
    obtain old | new := List.mem_append.mp member
    · exact read.tidy whole (List.mem_append_left _ old)
    · exact step.tidy whole new
  count r := by
    have less := read.count r
    have more := step.count r
    have whole := between_add read.grown.grows step.grown.grows r
    simp only [refsAll_append, List.count_append, refsAll_nil, List.count_nil] at less ⊢
    omega

/-- A new regex beside the others. -/
theorem beside {h0 h h' : Heap} {others wholes : List Tree} (read : Grown h0 [] others h)
    (step : Grown h [] wholes h') : Grown h0 [] (others ++ wholes) h' :=
  @frame h0 h h' others [] wholes ((List.append_nil others).symm ▸ read) step

end Grown

theorem rewritten_mem_refs {t u : Tree} {path : List Ref} (writes : rewritten t u = some path)
    {r : Ref} (member : r ∈ path) : r ∈ t.refs := by
  rw [rewritten] at writes
  cases isAnd : t.isAnd with
  | true =>
      rw [isAnd, if_pos rfl] at writes
      exact spine_mem_refs (firstWrite_spine writes r member)
  | false =>
      rw [isAnd, if_neg Bool.false_ne_true] at writes
      cases writes

/-- `regex + last` writes into no other regex. -/
theorem dunderAnd_grows {h0 h : Heap} {regex last : Tree} {others : List Tree}
    (read : Grown h0 [] (regex :: last :: others) h) :
    ∃ (new : Tree) (h' : Heap), Returns (fun fuel => dunderAnd fuel regex.ref last.ref h)
      (new.ref, h') ∧ Grown h0 [] (new :: others) h' := by
  have once : ∀ r, regex.refs.count r + last.refs.count r + (refsAll others).count r ≤
      between h0.size h.size r := by
    intro r
    have count := read.count r
    simp only [refsAll_cons, List.count_append, refsAll_nil, List.count_nil] at count
    omega
  have alone : ∀ path, rewritten regex last = some path → ∀ r ∈ path,
      h0.size ≤ r ∧ regex.refs.count r ≤ 1 ∧ r ∉ last.refs ∧ r ∉ refsAll others := by
    intro path writes r member
    have inside := List.count_pos_iff.mpr (rewritten_mem_refs writes member)
    have limit := between_le_one h0.size h.size r
    have here := once r
    refine ⟨Nat.not_lt.mp fun old => ?_, by omega, fun wrong => ?_, fun wrong => ?_⟩
    · have none : between h0.size h.size r = 0 := between_old old
      omega
    · have more := List.count_pos_iff.mpr wrong
      omega
    · have more := List.count_pos_iff.mpr wrong
      omega
  obtain ⟨h', returns, rep, size, keeps⟩ := dunderAnd_concat (read.rep regex (by simp))
    (read.rep last (by simp))
    fun path writes r member => ⟨(alone path writes r member).2.1,
      (alone path writes r member).2.2.1⟩
  refine ⟨_, h', returns, ?_, fun whole member => ?_, fun whole member => ?_, fun r => ?_⟩
  · refine read.grown.andThen keeps ?_
    rintro r old ⟨path, writes, member⟩
    exact Nat.not_le_of_lt old (alone path writes r member).1
  · obtain rfl | other := List.mem_cons.mp member
    · exact rep
    · refine (read.rep whole (by simp [other])).keeps keeps ?_
      rintro r inside ⟨path, writes, written⟩
      exact (alone path writes r written).2.2.2 (mem_refsAll.mpr ⟨whole, other, inside⟩)
  · obtain rfl | other := List.mem_cons.mp member
    · exact everywhere_concat kept_tidy _ (read.tidy regex (by simp)) (read.tidy last (by simp))
    · exact read.tidy whole (by simp [other])
  · have whole := concat_between h.size regex last r
    rw [← size] at whole
    have steps := between_add read.grown.grows keeps.grows r
    have here := once r
    simp only [refsAll_cons, List.count_append, refsAll_nil, List.count_nil]
    omega

theorem addLast_grows {h0 h : Heap} {regex : Tree} {last : Option Tree} {others : List Tree}
    (read : Grown h0 [] (regex :: last.toList ++ others) h) :
    ∃ (new : Tree) (h' : Heap),
      Gives (fun fuel => addLast fuel regex.ref (last.map ref)) h new.ref h' ∧
      Grown h0 [] (new :: others) h' ∧ ∀ base, h.RegularFrom base → h'.RegularFrom base := by
  cases last with
  | none => exact ⟨regex, h, Gives.pure _ _, read, fun _ regular => regular⟩
  | some last =>
      obtain ⟨new, h', returns, grown⟩ := dunderAnd_grows read
      exact ⟨new, h', Gives.step returns, grown, fun _ regular => dunderAnd_regular regular returns⟩

theorem orNext_grows {h0 h : Heap} {regex : Option Tree} {newRegex : Tree}
    (read : Grown h0 [] (regex.toList ++ [newRegex]) h) :
    ∃ (new : Tree) (h' : Heap),
      Gives (fun fuel => orNext fuel (regex.map ref) newRegex.ref) h new.ref h' ∧
      Grown h0 [] [new] h' ∧ ∀ base, h.RegularFrom base → h'.RegularFrom base := by
  cases regex with
  | none => exact ⟨newRegex, h, Gives.pure _ _, read, fun _ regular => regular⟩
  | some regex =>
      obtain ⟨h', new, returns, unites⟩ := dunderOr_returns (read.rep regex (by simp))
        (read.rep newRegex (by simp)) (read.tidy regex (by simp)) (read.tidy newRegex (by simp))
      exact ⟨new, h', Gives.step returns, read.trans (grown_union unites),
        fun _ regular => dunderOr_regular regular returns⟩

/-- `RegexRepeat(last, rmin, rmax)` beside the regex before `last`. -/
theorem newRegexRepeat_settles {h0 h : Heap} {regex : Tree} {last : Option Tree}
    (read : Grown h0 [] (regex :: last.toList) h) (rmin : Nat) (rmax : Option Nat) :
    Settles (fun fuel => newRegexRepeat fuel (last.map ref) rmin rmax) h
      (fun new h' => ∃ whole : Tree, new = whole.ref ∧ Grown h0 [] [regex, whole] h' ∧
        (last ≠ none → (∀ t ∈ last, t.Constructed) →
          ∀ base, h.RegularFrom base → h'.RegularFrom base)) Unfit := by
  obtain ⟨outcome, returns, ended⟩ := @regexRepeat_settles h last
    (fun t member => read.rep t (List.mem_cons_of_mem _ member))
    (fun t member => read.tidy t (List.mem_cons_of_mem _ member)) rmin rmax
  cases ended with
  | raised unfit => exact Settles.raises (RaisesWith.tryStep returns) unfit
  | made here =>
      obtain ⟨whole, rfl, grown, regular⟩ := here
      refine Settles.gives (Gives.tryStep returns) ⟨whole, rfl,
        @Grown.frame _ _ _ [regex] _ _ read grown, fun some constructed => regular ?_ ?_⟩
      · cases last with
        | none => exact absurd rfl some
        | some last => exact List.cons_ne_nil _ _
      · exact fun part member => constructed part (Option.mem_toList.mp member)

end Segvault.HachoirRegex
