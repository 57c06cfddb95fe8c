import Segvault.HachoirRegex.OntoOr
import Segvault.HachoirRegex.Rendering
import Segvault.HachoirRegex.UnionSound

namespace Segvault.HachoirRegex

/-! A pool of regexes that are combined by `&` and `|`, and whose strings are asked for in
between. -/

structure Pool where
  heap : Heap
  objects : List Ref

inductive Operation
  | and (first second : Nat)
  | or (first second : Nat)
  | str (object : Nat) (python : Bool)

namespace Pool

inductive Step : Pool → Operation → Pool → Prop
  | and {pool : Pool} {first second : Nat} {a b result : Ref} {after : Heap}
      (here : pool.objects[first]? = some a) (there : pool.objects[second]? = some b)
      (returns : Returns (fun fuel => dunderAnd fuel a b pool.heap) (result, after)) :
      Step pool (.and first second) ⟨after, pool.objects ++ [result]⟩
  | or {pool : Pool} {first second : Nat} {a b result : Ref} {after : Heap}
      (here : pool.objects[first]? = some a) (there : pool.objects[second]? = some b)
      (returns : Returns (fun fuel => dunderOr fuel a b pool.heap) (result, after)) :
      Step pool (.or first second) ⟨after, pool.objects ++ [result]⟩
  | str {pool : Pool} {object : Nat} {python : Bool} {a : Ref} {text : List UInt8}
      {after : Heap} (here : pool.objects[object]? = some a)
      (returns : Returns (fun fuel => dunderStr fuel python a pool.heap) (text, after)) :
      Step pool (.str object python) ⟨after, pool.objects⟩

/-- `next` follows from `pool` by operations that are allowed where they happen. -/
def Reaches (allowed : Pool → Operation → Prop) : Pool → Pool → Prop :=
  Relation.ReflTransGen fun pool next => ∃ operation,
    allowed pool operation ∧ Step pool operation next

/-- Every object of the pool is a regex. -/
def Regexes (pool : Pool) : Prop :=
  ∀ r ∈ pool.objects, ∃ t : Tree, t.Rep pool.heap ∧ t.ref = r

/-- The objects of the pool, and those inside them, match later on what they matched. -/
def KeepsLanguages (before after : Pool) : Prop :=
  ∀ t : Tree, t.Rep before.heap → t.ref ∈ before.objects → ∀ s ∈ t.subtrees,
    ∃ now : Tree, now.Rep after.heap ∧ now.ref = s.ref ∧
      ∀ dot text, now.denote dot text = s.denote dot text

/-- The strings that `__str__` takes from its cache are those of the content. -/
def ShowsContent (pool : Pool) : Prop :=
  ∀ t : Tree, t.Rep pool.heap → t.ref ∈ pool.objects → ∀ s ∈ t.subtrees,
    ∀ python text, pool.heap.cached s.ref python = some text → s.render python = some text

/-- `&` writes into no object. -/
def Silent (pool : Pool) : Operation → Prop
  | .and first second => ∀ t u : Tree, t.Rep pool.heap → u.Rep pool.heap →
      pool.objects[first]? = some t.ref → pool.objects[second]? = some u.ref →
      t.rewritten u = none
  | _ => True

/-- `&` writes into no object; the operands of `|` have no RegexAnd before the last item of
    a RegexAnd. -/
def Harmless (pool : Pool) : Operation → Prop
  | .or first second => ∀ t u : Tree, t.Rep pool.heap → u.Rep pool.heap →
      pool.objects[first]? = some t.ref → pool.objects[second]? = some u.ref →
      t.Tidy ∧ u.Tidy
  | operation => pool.Silent operation

end Pool

/-! New objects have no cached string. -/

namespace Heap

/-- The objects from `first` on have no cached string. -/
def BlankFrom (first : Nat) (h : Heap) : Prop :=
  first ≤ h.size ∧ ∀ r python, first ≤ r → h.cached r python = none

theorem cached_of_size_le {h : Heap} {r : Ref} (beyond : h.size ≤ r) (python : Bool) :
    h.cached r python = none := by
  rw [cached, List.getElem?_eq_none beyond]
  rfl

theorem cached_extends {h h' : Heap} (grown : h.Extends h') {r : Ref} (old : r < h.size)
    (python : Bool) : h'.cached r python = h.cached r python := by
  rw [cached, cached, grown.same r old id]

theorem BlankFrom.new {first : Nat} {h : Heap} (blank : h.BlankFrom first) (node : Node) :
    (h.new node).2.BlankFrom first := by
  refine ⟨Nat.le_trans blank.1 (h.new_extends node).grows, fun r python above => ?_⟩
  by_cases old : r < h.size
  · rw [cached_extends (h.new_extends node) old]
    exact blank.2 r python above
  · by_cases last : r = h.size
    · rw [cached, Heap.new, last, size, List.getElem?_concat_length]
      rfl
    · refine cached_of_size_le ?_ python
      rw [new_size]
      omega

theorem cached_setNode (h : Heap) (self r : Ref) (node : Node) (python : Bool) :
    (h.setNode self node).cached r python = h.cached r python := by
  rw [cached, cached, setNode, List.getElem?_modify, Option.map_eq_map, Option.bind_map]
  refine congrArg (Option.bind _) (funext fun object => ?_)
  by_cases here : self = r
  · simp only [Function.comp_apply, here, if_true]
  · simp only [Function.comp_apply, here, if_false]

end Heap

theorem preserved_blank (first : Nat) : Preserved (Heap.BlankFrom first) where
  new blank _ := blank.new _
  content ref content blank := by
    refine ⟨?_, fun r python above => ?_⟩
    · rw [Heap.setNode_size]
      exact blank.1
    · rw [Heap.cached_setNode]
      exact blank.2 r python above
  items blank _ := blank
  range blank _ _ _ := Heap.BlankFrom.new blank _

/-- Where no old object changes, the cached strings stay right. -/
theorem Heap.Recorded.extends {h h' : Heap} (recorded : h.Recorded) (grown : h.Extends h')
    (blank : h'.BlankFrom h.size) : h'.Recorded := by
  intro r python text known
  by_cases old : r < h.size
  · rw [cached_extends grown old] at known
    obtain ⟨t, rep, same, rendered⟩ := recorded r python text known
    exact ⟨t, rep.extends grown, same, rendered⟩
  · rw [blank.2 r python (Nat.not_lt.mp old)] at known
    cases known

theorem blankFrom_size (h : Heap) : h.BlankFrom h.size :=
  ⟨Nat.le_refl _, fun _ python above => Heap.cached_of_size_le above python⟩

theorem dunderAnd_blank {fuel : Nat} {a b result : Ref} {h h' : Heap}
    (ran : dunderAnd fuel a b h = some (result, h')) : h'.BlankFrom h.size := by
  obtain ⟨_, _, onto⟩ := dunderAnd_follows (preserved_blank h.size) (Nat.le_refl fuel) a b h
    (h.under h) (onto_under (blankFrom_size h)) result h' ran
  exact onto.held

theorem dunderOr_blank {fuel : Nat} {a b result : Ref} {h h' : Heap}
    (ran : dunderOr fuel a b h = some (result, h')) : h'.BlankFrom h.size := by
  obtain ⟨_, _, onto⟩ := (or_follows (preserved_blank h.size) fuel (Nat.le_refl fuel)).dunder
    a b h (h.under h) (onto_under (blankFrom_size h)) result h' ran
  exact onto.held

/-! One operation, and runs. -/

namespace Pool

theorem step_intact {pool next : Pool} {operation : Operation} (regexes : pool.Regexes)
    (recorded : pool.heap.Recorded) (harmless : pool.Harmless operation)
    (step : Step pool operation next) :
    next.Regexes ∧ next.heap.Recorded ∧
      ∀ t : Tree, t.Rep pool.heap → t.Rep next.heap := by
  cases step with
  | @and first second a b result after here there returns =>
      obtain ⟨t, rept, rfl⟩ := regexes a (List.mem_of_getElem? here)
      obtain ⟨u, repu, rfl⟩ := regexes b (List.mem_of_getElem? there)
      have silent := harmless t u rept repu here there
      obtain ⟨h', runs, appended⟩ := Tree.dunderAnd_concat rept repu
        (fun path writes => by
          rw [silent] at writes
          cases writes)
      obtain ⟨rfl, rfl⟩ := Prod.mk.inj (returns.unique runs)
      have grown : pool.heap.Extends after := appended.keeps.mono fun r _ written => by
        obtain ⟨path, writes, _⟩ := written
        rw [silent] at writes
        cases writes
      obtain ⟨fuel, ran⟩ := returns
      have blank := dunderAnd_blank (ran fuel (Nat.le_refl fuel))
      refine ⟨fun r member => ?_, recorded.extends grown blank,
        fun t rep => rep.extends grown⟩
      obtain old | new := List.mem_append.mp member
      · obtain ⟨v, repv, same⟩ := regexes r old
        exact ⟨v, repv.extends grown, same⟩
      · exact ⟨_, appended.rep, (List.mem_singleton.mp new).symm⟩
  | @or first second a b result after here there returns =>
      obtain ⟨t, rept, rfl⟩ := regexes a (List.mem_of_getElem? here)
      obtain ⟨u, repu, rfl⟩ := regexes b (List.mem_of_getElem? there)
      obtain ⟨tidyt, tidyu⟩ := harmless t u rept repu here there
      obtain ⟨h', whole, runs, unites⟩ := Tree.dunderOr_returns rept repu tidyt tidyu
      obtain ⟨rfl, rfl⟩ := Prod.mk.inj (returns.unique runs)
      obtain ⟨fuel, ran⟩ := returns
      have blank := dunderOr_blank (ran fuel (Nat.le_refl fuel))
      refine ⟨fun r member => ?_, recorded.extends unites.grown blank,
        fun t rep => rep.extends unites.grown⟩
      obtain old | new := List.mem_append.mp member
      · obtain ⟨v, repv, same⟩ := regexes r old
        exact ⟨v, repv.extends unites.grown, same⟩
      · exact ⟨whole, unites.rep, (List.mem_singleton.mp new).symm⟩
  | @str object python a text after here returns =>
      obtain ⟨t, rept, rfl⟩ := regexes a (List.mem_of_getElem? here)
      obtain ⟨fuel, ran⟩ := returns
      obtain ⟨_, same, recordedAfter⟩ :=
        t.rendered rept recorded (ran fuel (Nat.le_refl fuel))
      refine ⟨fun r member => ?_, recordedAfter, fun t rep => rep.sameNodes same⟩
      obtain ⟨v, repv, sameRef⟩ := regexes r member
      exact ⟨v, repv.sameNodes same, sameRef⟩

theorem reaches_intact {pool next : Pool} (regexes : pool.Regexes)
    (recorded : pool.heap.Recorded) (reaches : Reaches Harmless pool next) :
    next.Regexes ∧ next.heap.Recorded ∧ ∀ t : Tree, t.Rep pool.heap → t.Rep next.heap := by
  induction reaches with
  | refl => exact ⟨regexes, recorded, fun t rep => rep⟩
  | tail reaches step induction =>
      obtain ⟨regexesMiddle, recordedMiddle, kept⟩ := induction
      obtain ⟨operation, harmless, step⟩ := step
      obtain ⟨regexesNext, recordedNext, keptNext⟩ :=
        step_intact regexesMiddle recordedMiddle harmless step
      exact ⟨regexesNext, recordedNext, fun t rep => keptNext t (kept t rep)⟩

/-- As long as no operation writes into an object, the regexes of a pool keep what they
    match and show what they are. -/
theorem combining_intact {start before after : Pool} (regexes : start.Regexes)
    (recorded : start.heap.Recorded) (first : Reaches Harmless start before)
    (later : Reaches Harmless before after) :
    KeepsLanguages before after ∧ ShowsContent after := by
  obtain ⟨regexesBefore, recordedBefore, _⟩ := reaches_intact regexes recorded first
  obtain ⟨_, recordedAfter, kept⟩ := reaches_intact regexesBefore recordedBefore later
  refine ⟨fun t rep _ s member => ?_, fun t rep _ s member python text known => ?_⟩
  · exact ⟨s, kept s (rep.subtree member), rfl, fun dot text => rfl⟩
  · obtain ⟨u, repu, same, rendered⟩ := recordedAfter s.ref python text known
    rwa [repu.unique (rep.subtree member) same] at rendered

/-! `.`, `a` and `b`: the string of `.a` is asked for before and after `.a & b`. -/

def letters : Heap :=
  Heap.ofNodes [.atom .regexDot, .atom (.regexString [97] a_nonempty),
    .atom (.regexString [98] b_nonempty)]

def joined : Heap :=
  (letters.new (.regexAnd [0, 1])).2

def shown : Heap :=
  ((joined.setStr 0 false [46]).setStr 1 false [97]).setStr 3 false [46, 97]

def written : Heap :=
  (shown.new (.atom (.regexString [97, 98] (by decide)))).2.setNode 3 (.regexAnd [0, 4])

def dotA : Tree :=
  .regexAnd 3 [.atom 0 .regexDot] (.atom 1 (.regexString [97] a_nonempty))

def dotAB : Tree :=
  .regexAnd 3 [.atom 0 .regexDot] (.atom 4 (.regexString [97, 98] (by decide)))

theorem letters_regexes : Regexes ⟨letters, [0, 1, 2]⟩ := by
  intro r member
  simp only [List.mem_cons, List.not_mem_nil, or_false] at member
  obtain rfl | rfl | rfl := member
  · exact ⟨.atom 0 .regexDot, rfl, rfl⟩
  · exact ⟨.atom 1 (.regexString [97] (by decide)), rfl, rfl⟩
  · exact ⟨.atom 2 (.regexString [98] (by decide)), rfl, rfl⟩

theorem ofNodes_recorded (nodes : List Node) : (Heap.ofNodes nodes).Recorded := by
  intro r python text known
  rw [Heap.cached, Heap.ofNodes] at known
  simp only [List.getElem?_map] at known
  cases here : nodes[r]? with
  | none =>
      rw [here] at known
      cases known
  | some node =>
      rw [here] at known
      cases known

theorem step_join : Step ⟨letters, [0, 1, 2]⟩ (.and 0 1) ⟨joined, [0, 1, 2, 3]⟩ := by
  refine @Step.and ⟨letters, [0, 1, 2]⟩ 0 1 0 1 3 joined rfl rfl ⟨9, fun fuel enough => ?_⟩
  obtain ⟨more, rfl⟩ := Nat.exists_eq_add_of_le' enough
  rfl

theorem step_show : Step ⟨joined, [0, 1, 2, 3]⟩ (.str 3 false) ⟨shown, [0, 1, 2, 3]⟩ := by
  refine @Step.str ⟨joined, [0, 1, 2, 3]⟩ 3 false 3 [46, 97] shown rfl
    ⟨9, fun fuel enough => ?_⟩
  obtain ⟨more, rfl⟩ := Nat.exists_eq_add_of_le' enough
  rfl

theorem step_write : Step ⟨shown, [0, 1, 2, 3]⟩ (.and 3 2) ⟨written, [0, 1, 2, 3, 3]⟩ := by
  refine @Step.and ⟨shown, [0, 1, 2, 3]⟩ 3 2 3 2 3 written rfl rfl ⟨9, fun fuel enough => ?_⟩
  obtain ⟨more, rfl⟩ := Nat.exists_eq_add_of_le' enough
  rfl

theorem combining_intact_dotA :
    KeepsLanguages ⟨joined, [0, 1, 2, 3]⟩ ⟨shown, [0, 1, 2, 3]⟩ ∧
      ShowsContent ⟨shown, [0, 1, 2, 3]⟩ := by
  refine combining_intact letters_regexes (ofNodes_recorded _)
    (.single ⟨.and 0 1, ?_, step_join⟩) (.single ⟨.str 3 false, trivial, step_show⟩)
  intro t u rept repu here there
  have dot : (Tree.atom 0 .regexDot).Rep letters := rfl
  rw [rept.unique dot (Option.some.inj here).symm]
  rfl

/-- `.a & b` writes into the object of `.a`, which then matches what `.ab` does, but still
    shows itself as `.a`. -/
theorem combining_writes :
    Reaches (fun _ _ => True) ⟨letters, [0, 1, 2]⟩ ⟨shown, [0, 1, 2, 3]⟩ ∧
    Reaches (fun _ _ => True) ⟨shown, [0, 1, 2, 3]⟩ ⟨written, [0, 1, 2, 3, 3]⟩ ∧
    ¬ KeepsLanguages ⟨shown, [0, 1, 2, 3]⟩ ⟨written, [0, 1, 2, 3, 3]⟩ ∧
    ¬ ShowsContent ⟨written, [0, 1, 2, 3, 3]⟩ := by
  have repA : dotA.Rep shown := ⟨rfl, ⟨rfl, trivial⟩, rfl⟩
  have repAB : dotAB.Rep written := ⟨rfl, ⟨rfl, trivial⟩, rfl⟩
  refine ⟨.tail (.single ⟨.and 0 1, trivial, step_join⟩) ⟨.str 3 false, trivial, step_show⟩,
    .single ⟨.and 3 2, trivial, step_write⟩, fun keeps => ?_, fun shows => ?_⟩
  · obtain ⟨now, rep, same, languages⟩ :=
      keeps dotA repA (by decide) dotA dotA.self_mem_subtrees
    rw [rep.unique repAB same] at languages
    have matched : dotA.denote Tree.anyChar [120, 97] 0 2 := ⟨1, ⟨1, ⟨120, trivial, rfl⟩, rfl⟩, rfl⟩
    rw [← languages] at matched
    obtain ⟨_, ⟨_, first, rfl⟩, second⟩ := matched
    have lengthFirst := Spans.symbol_length first
    have lengthSecond := Spans.word_length second
    simp at lengthFirst lengthSecond
    omega
  · have text := shows dotAB repAB (by decide) dotAB dotAB.self_mem_subtrees false [46, 97] rfl
    exact absurd text (by decide)

end Pool

end Segvault.HachoirRegex
