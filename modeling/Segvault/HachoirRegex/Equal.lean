import Segvault.HachoirRegex.Operators
import Segvault.HachoirRegex.Append
import Segvault.Returns

namespace Segvault.HachoirRegex

namespace Tree

/-! `==` compares two regexes up to the identity of their objects. -/

mutual

def bare : Tree → Tree
  | atom _ leaf => atom 0 leaf
  | regexAnd _ init last => regexAnd 0 (bareAll init) (bare last)
  | regexOr _ content => regexOr 0 (bareAll content)
  | regexRepeat _ regex min max => regexRepeat 0 (bare regex) min max

def bareAll : List Tree → List Tree
  | [] => []
  | item :: items => bare item :: bareAll items

end

theorem bareAll_eq (items : List Tree) : bareAll items = items.map bare := by
  induction items with
  | nil => rfl
  | cons item items induction => rw [bareAll, induction, List.map_cons]

theorem denote_bare (dot : UInt8 → Prop) (text : List UInt8) (t : Tree) :
    t.bare.denote dot text = t.denote dot text := by
  have all : ∀ items : List Tree,
      (∀ item ∈ items, item.bare.denote dot text = item.denote dot text) →
      denoteAll dot text (bareAll items) = denoteAll dot text items := by
    intro items each
    rw [denoteAll_eq, denoteAll_eq, bareAll_eq, List.map_map]
    exact List.map_congr_left each
  induction t with
  | atom ref leaf => rfl
  | regexAnd ref init last inductionInit inductionLast =>
      rw [bare, denote, denote, inductionLast, all init inductionInit]
  | regexOr ref content inductionContent =>
      rw [bare, denote, denote, all content inductionContent]
  | regexRepeat ref regex min max induction =>
      rw [bare, denote, denote, induction]

theorem denote_of_bare {a b : Tree} (same : a.bare = b.bare) (dot : UInt8 → Prop)
    (text : List UInt8) : a.denote dot text = b.denote dot text := by
  rw [← denote_bare dot text a, same, denote_bare]

theorem allEq_returns {h : Heap} {first second : List Tree}
    (each : ∀ a ∈ first, ∀ b ∈ second, ∃ same,
      Returns (fun fuel => dunderEq fuel a.ref b.ref h) same ∧
        (same = true ↔ a.bare = b.bare))
    (lengths : first.length = second.length) :
    ∃ same, Returns (fun fuel =>
        allEq fuel ((first.map ref).zip (second.map ref)) h) same ∧
      (same = true ↔ first.map bare = second.map bare) := by
  induction first generalizing second with
  | nil =>
      cases second with
      | cons b second => cases lengths
      | nil =>
          refine ⟨true, Returns.call (fun fuel => ?_) (Returns.pure true), by simp⟩
          rfl
  | cons a first induction =>
      cases second with
      | nil => cases lengths
      | cons b second =>
          obtain ⟨sameHead, runsHead, iffHead⟩ := each a (by simp) b (by simp)
          obtain ⟨sameTail, runsTail, iffTail⟩ := induction
            (fun a inFirst b inSecond => each a (List.mem_cons_of_mem _ inFirst) b
              (List.mem_cons_of_mem _ inSecond)) (Nat.succ.inj lengths)
          have step : ∀ fuel, allEq (fuel + 1)
              (((a :: first).map ref).zip ((b :: second).map ref)) h =
              dunderEq fuel a.ref b.ref h >>= fun same =>
                if same then allEq fuel ((first.map ref).zip (second.map ref)) h
                else some false :=
            fun fuel => rfl
          cases sameHead with
          | true =>
              refine ⟨sameTail, Returns.call step (Returns.bind runsHead runsTail), ?_⟩
              rw [iffTail, List.map_cons, List.map_cons, List.cons.injEq]
              exact ⟨fun rest => ⟨iffHead.1 rfl, rest⟩, fun both => both.2⟩
          | false =>
              refine ⟨false, Returns.call step
                (Returns.bind runsHead (Returns.pure _)), ?_⟩
              rw [List.map_cons, List.map_cons, List.cons.injEq]
              exact ⟨fun wrong => absurd wrong Bool.false_ne_true,
                fun both => iffHead.2 both.1⟩

/-- The comparison of two contents, lengths first. -/
theorem contentEq_returns {h : Heap} {first second : List Tree}
    {run : Nat → Option Bool}
    (step : ∀ fuel, run (fuel + 1) =
      if (first.map ref).length ≠ (second.map ref).length then some false
      else allEq fuel ((first.map ref).zip (second.map ref)) h)
    (each : ∀ a ∈ first, ∀ b ∈ second, ∃ same,
      Returns (fun fuel => dunderEq fuel a.ref b.ref h) same ∧
        (same = true ↔ a.bare = b.bare)) :
    ∃ same, Returns run same ∧ (same = true ↔ first.map bare = second.map bare) := by
  rw [List.length_map, List.length_map] at step
  by_cases lengths : first.length = second.length
  · obtain ⟨same, runs, iff⟩ := allEq_returns each lengths
    refine ⟨same, Returns.call step ?_, iff⟩
    simp only [lengths, ne_eq, not_true_eq_false, if_false]
    exact runs
  · refine ⟨false, Returns.call step ?_, ?_⟩
    · simp only [ne_eq, lengths, not_false_eq_true, if_true]
      exact Returns.pure _
    · refine ⟨fun wrong => absurd wrong Bool.false_ne_true, fun same => ?_⟩
      have equal := congrArg List.length same
      rw [List.length_map, List.length_map] at equal
      exact absurd equal lengths

theorem bare_regexAnd {ref refb : Ref} {init initb : List Tree} {last lastb : Tree} :
    (regexAnd ref init last).bare = (regexAnd refb initb lastb).bare ↔
      (init ++ [last]).map bare = (initb ++ [lastb]).map bare := by
  rw [bare, bare, regexAnd.injEq, bareAll_eq, bareAll_eq, List.map_append,
    List.map_append, List.map_singleton, List.map_singleton]
  constructor
  · rintro ⟨_, inits, lasts⟩
    rw [inits, lasts]
  · intro whole
    have parts := List.append_inj' whole rfl
    exact ⟨rfl, parts.1, List.singleton_inj.1 parts.2⟩

theorem unequal_returns {h : Heap} {a b : Tree}
    (step : ∀ fuel, dunderEq (fuel + 1) a.ref b.ref h = some false)
    (differ : a.bare ≠ b.bare) :
    ∃ same, Returns (fun fuel => dunderEq fuel a.ref b.ref h) same ∧
      (same = true ↔ a.bare = b.bare) :=
  ⟨false, Returns.call step (Returns.pure false),
    fun wrong => absurd wrong Bool.false_ne_true, fun same => absurd same differ⟩

theorem dunderEq_returns {h : Heap} {a b : Tree} (repa : a.Rep h) (repb : b.Rep h) :
    ∃ same, Returns (fun fuel => dunderEq fuel a.ref b.ref h) same ∧
      (same = true ↔ a.bare = b.bare) := by
  have hereA := repa.here
  have hereB := repb.here
  induction a generalizing b with
  | atom ref leaf =>
      cases b with
      | atom refb other =>
          refine ⟨decide (leaf = other),
            Returns.call (fun fuel => ?_) (Returns.pure (decide (leaf = other))), ?_⟩
          · simp only [dunderEq, hereA, hereB, node]
            rfl
          · rw [decide_eq_true_iff, bare, bare, atom.injEq]
            exact ⟨fun same => ⟨rfl, same⟩, fun both => both.2⟩
      | _ =>
          refine unequal_returns (fun fuel => ?_) (by simp [bare])
          simp only [dunderEq, hereA, hereB, node]
          rfl
  | regexAnd ref init last inductionInit inductionLast =>
      cases b with
      | regexAnd refb initb lastb =>
          obtain ⟨_, repInit, repLast⟩ := repa
          obtain ⟨_, repInitB, repLastB⟩ := repb
          rw [bare_regexAnd]
          have itemB : ∀ item ∈ initb ++ [lastb], item.Rep h := by
            intro item member
            obtain inInit | isLast := List.mem_append.1 member
            · exact repAll_iff.1 repInitB item inInit
            · exact List.mem_singleton.1 isLast ▸ repLastB
          refine contentEq_returns (h := h) (fun fuel => ?_) ?_
          · simp only [dunderEq, hereA, hereB, node, List.map_append, List.map_singleton]
            rfl
          · intro item member other memberB
            have repOther := itemB other memberB
            obtain inInit | isLast := List.mem_append.1 member
            · have repItem := repAll_iff.1 repInit item inInit
              exact inductionInit item inInit repItem repOther repItem.here repOther.here
            · cases List.mem_singleton.1 isLast
              exact inductionLast repLast repOther repLast.here repOther.here
      | _ =>
          refine unequal_returns (fun fuel => ?_) (by simp [bare])
          simp only [dunderEq, hereA, hereB, node]
          rfl
  | regexOr ref content inductionContent =>
      cases b with
      | regexOr refb contentb =>
          obtain ⟨_, repContent⟩ := repa
          obtain ⟨_, repContentB⟩ := repb
          rw [bare, bare, regexOr.injEq, bareAll_eq, bareAll_eq, eq_self, true_and]
          refine contentEq_returns (h := h) (fun fuel => ?_) ?_
          · simp only [dunderEq, hereA, hereB, node]
            rfl
          · intro item member other memberB
            have repItem := repAll_iff.1 repContent item member
            have repOther := repAll_iff.1 repContentB other memberB
            exact inductionContent item member repItem repOther repItem.here repOther.here
      | _ =>
          refine unequal_returns (fun fuel => ?_) (by simp [bare])
          simp only [dunderEq, hereA, hereB, node]
          rfl
  | regexRepeat ref regex min max induction =>
      cases b with
      | regexRepeat refb regexb minb maxb =>
          have step : ∀ fuel, dunderEq (fuel + 1) (regexRepeat ref regex min max).ref
              (regexRepeat refb regexb minb maxb).ref h =
              if min ≠ minb then some false
              else if max ≠ maxb then some false
              else dunderEq fuel regex.ref regexb.ref h := by
            intro fuel
            simp only [dunderEq, hereA, hereB, node]
            rfl
          by_cases bounds : min = minb ∧ max = maxb
          · obtain ⟨rfl, rfl⟩ := bounds
            obtain ⟨same, runs, iff⟩ := induction repa.2 repb.2 repa.2.here repb.2.here
            refine ⟨same, Returns.call step ?_, ?_⟩
            · simp only [ne_eq, not_true_eq_false, if_false]
              exact runs
            · rw [iff, bare, bare, regexRepeat.injEq]
              exact ⟨fun inner => ⟨rfl, inner, rfl, rfl⟩, fun all => all.2.1⟩
          · refine unequal_returns (fun fuel => ?_) ?_
            · rw [step]
              by_cases mins : min = minb
              · rw [if_neg (not_not_intro mins), if_pos fun maxs => bounds ⟨mins, maxs⟩]
              · rw [if_pos mins]
            · rw [bare, bare, ne_eq, regexRepeat.injEq]
              exact fun all => bounds all.2.2
      | _ =>
          refine unequal_returns (fun fuel => ?_) (by simp [bare])
          simp only [dunderEq, hereA, hereB, node]
          rfl

/-! matchSingleValue -/

end Tree

end Segvault.HachoirRegex
