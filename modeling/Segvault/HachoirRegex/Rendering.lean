import Segvault.HachoirRegex.ParseString

namespace Segvault.HachoirRegex

/-! `__str__` and the `_str` methods. `none` is an exception or a lack of fuel. -/

def chr (value : Nat) : Option UInt8 :=
  if value < 256 then some (UInt8.ofNat value) else none

def characters (text : String) : List UInt8 :=
  text.toList.map Char.toUInt8

/-- `"%u" % number` -/
def decimal (number : Nat) : List UInt8 :=
  (Nat.toDigits 10 number).map Char.toUInt8

def RegexRangeItem.str (item : RegexRangeItem) : Option (List UInt8) := do
  let cmin ← chr item.cmin
  if item.cmin ≠ item.cmax then do
    let cmax ← chr item.cmax
    if item.cmin + 1 = item.cmax then some [cmin, cmax]
    else some [cmin, '-'.toUInt8, cmax]
  else some [cmin]

def rangeStr (ranges : List RegexRangeItem) (exclude : Bool) : Option (List UInt8) := do
  let content ← ranges.mapM RegexRangeItem.str
  let hyphen := characters "-"
  let (content, ending) :=
    if hyphen ∈ content then (content.erase hyphen, hyphen) else (content, [])
  let bracket := characters "]"
  let (content, start) :=
    if bracket ∈ content then (content.erase bracket, bracket) else (content, [])
  let text := start ++ content.flatten ++ ending
  if exclude then some (characters "[^" ++ text ++ characters "]")
  else some (characters "[" ++ text ++ characters "]")

/-- `_str` of a RegexRepeat after its parentheses. -/
def repeatStr (text : List UInt8) (min : Nat) (max : Option Nat) : List UInt8 :=
  if min = 0 ∧ max = some 1 then text ++ characters "?"
  else if some min = max then text ++ characters "\x7b" ++ decimal min ++ characters "\x7d"
  else
    match max with
    | none =>
        if min = 0 then text ++ characters "*"
        else if min = 1 then text ++ characters "+"
        else text ++ characters "\x7b" ++ decimal min ++ characters ",\x7d"
    | some max =>
        text ++ characters "\x7b" ++ decimal min ++ characters "," ++ decimal max ++
          characters "\x7d"

/-- The classes of regex that a RegexRepeat puts in parentheses. -/
def Node.grouped : Node → Bool
  | .regexAnd _ => true
  | .atom (.regexString text _) => decide (1 < text.length)
  | _ => false

def parenthesize (grouped : Bool) (text : List UInt8) : List UInt8 :=
  if grouped then characters "(" ++ text ++ characters ")" else text

def orStr (python : Bool) (texts : List (List UInt8)) : List UInt8 :=
  let content := (characters "|").intercalate texts
  if python then characters "(?:" ++ content ++ characters ")"
  else characters "(" ++ content ++ characters ")"

def Atom.str : Atom → Option (List UInt8)
  | .regexEmpty => some []
  | .regexWord => some (characters "\\b")
  | .regexStart => some (characters "^")
  | .regexEnd => some (characters "$")
  | .regexDot => some (characters ".")
  | .regexString text _ => some (escapeRegex text)
  | .regexRange _ ranges exclude => rangeStr ranges exclude
  | .regexRepeatNone min max => some (repeatStr (characters "None") min max)

namespace Heap

/-- `self._str_value[key]` -/
def cached (h : Heap) (self : Ref) (python : Bool) : Option (List UInt8) :=
  h.objects[self]?.bind fun object => object.strValue python

/-- `self._str_value[key] = text` -/
def setStr (h : Heap) (self : Ref) (python : Bool) (text : List UInt8) : Heap :=
  { h with objects :=
      h.objects.modify self fun object =>
        { object with strValue := fun key =>
            if key = python then some text else object.strValue key } }

end Heap

mutual

def dunderStr (fuel : Nat) (python : Bool) (self : Ref) (h : Heap) :
    Option (List UInt8 × Heap) :=
  match fuel with
  | 0 => none
  | fuel + 1 =>
      match h.cached self python with
      | some text => some (text, h)
      | none => do
          let (text, h) ← underStr fuel python (← h.node? self) h
          some (text, h.setStr self python text)
termination_by structural fuel

/-- `_str` -/
def underStr (fuel : Nat) (python : Bool) (node : Node) (h : Heap) :
    Option (List UInt8 × Heap) :=
  match fuel with
  | 0 => none
  | fuel + 1 =>
      match node with
      | .atom leaf => do some (← leaf.str, h)
      | .regexAnd content => do
          let (texts, h) ← dunderStrAll fuel python content h
          some (texts.flatten, h)
      | .regexOr content => do
          let (texts, h) ← dunderStrAll fuel python content h
          some (orStr python texts, h)
      | .regexRepeat regex min max => do
          -- `str(self.regex)` passes no keyword on.
          let (text, h) ← dunderStr fuel false regex h
          let node ← h.node? regex
          some (repeatStr (parenthesize node.grouped text) min max, h)
termination_by structural fuel

def dunderStrAll (fuel : Nat) (python : Bool) (content : List Ref) (h : Heap) :
    Option (List (List UInt8) × Heap) :=
  match fuel with
  | 0 => none
  | fuel + 1 =>
      match content with
      | [] => some ([], h)
      | item :: content => do
          let (text, h) ← dunderStr fuel python item h
          let (texts, h) ← dunderStrAll fuel python content h
          some (text :: texts, h)
termination_by structural fuel

end

/-! The rendering of a regex, without its cached strings. -/

namespace Tree

mutual

def render (python : Bool) : Tree → Option (List UInt8)
  | atom _ leaf => leaf.str
  | regexAnd _ init last => do
      let texts ← renderAll python init
      some (texts.flatten ++ (← render python last))
  | regexOr _ content => do some (orStr python (← renderAll python content))
  | regexRepeat _ regex min max => do
      let text ← render false regex
      some (repeatStr (parenthesize regex.node.grouped text) min max)

def renderAll (python : Bool) : List Tree → Option (List (List UInt8))
  | [] => some []
  | item :: items => do
      let text ← render python item
      some (text :: (← renderAll python items))

end

theorem renderAll_concat {python : Bool} {init : List Tree} {last : Tree}
    {texts : List (List UInt8)} (rendered : renderAll python (init ++ [last]) = some texts) :
    ∃ first text, renderAll python init = some first ∧ last.render python = some text ∧
      texts = first ++ [text] := by
  induction init generalizing texts with
  | nil =>
      rw [List.nil_append, renderAll, renderAll] at rendered
      cases only : last.render python with
      | none =>
          rw [only] at rendered
          cases rendered
      | some text =>
          rw [only] at rendered
          cases rendered
          exact ⟨[], text, rfl, rfl, rfl⟩
  | cons item init induction =>
      rw [List.cons_append, renderAll] at rendered
      cases head : item.render python with
      | none =>
          rw [head] at rendered
          cases rendered
      | some here =>
          cases tail : renderAll python (init ++ [last]) with
          | none =>
              rw [head, tail] at rendered
              cases rendered
          | some later =>
              rw [head, tail] at rendered
              cases rendered
              obtain ⟨first, text, firsts, lasts, rfl⟩ := induction tail
              refine ⟨here :: first, text, ?_, lasts, rfl⟩
              rw [renderAll, head, firsts]
              rfl

end Tree

/-! `__str__` gives the rendering as long as the cached strings do. -/

namespace Heap

/-- `h'` has the regexes of `h`; their cached strings may be others. -/
def SameNodes (h h' : Heap) : Prop :=
  ∀ r, h'.node? r = h.node? r

/-- Every cached string is the rendering of the content that its object has now. -/
def Recorded (h : Heap) : Prop :=
  ∀ r python text, h.cached r python = some text →
    ∃ t : Tree, t.Rep h ∧ t.ref = r ∧ t.render python = some text

theorem SameNodes.refl (h : Heap) : SameNodes h h :=
  fun _ => rfl

theorem SameNodes.trans {h h' h'' : Heap} (first : SameNodes h h')
    (second : SameNodes h' h'') : SameNodes h h'' :=
  fun r => (second r).trans (first r)

theorem setStr_sameNodes (h : Heap) (self : Ref) (python : Bool) (text : List UInt8) :
    SameNodes h (h.setStr self python text) := by
  intro r
  rw [node?, node?, setStr, List.getElem?_modify, Option.map_eq_map, Option.map_map]
  refine Option.map_congr fun object _ => ?_
  by_cases here : self = r
  · simp only [Function.comp_apply, here, if_true]
  · simp only [Function.comp_apply, here, if_false]

theorem cached_setStr {h : Heap} {self r : Ref} {python key : Bool} {text found : List UInt8}
    (here : (h.setStr self python text).cached r key = some found) :
    r = self ∧ key = python ∧ found = text ∨ h.cached r key = some found := by
  rw [cached, setStr, List.getElem?_modify] at here
  rw [cached]
  cases stored : h.objects[r]? with
  | none =>
      rw [stored] at here
      cases here
  | some object =>
      rw [stored, Option.map_eq_map, Option.map_some, Option.bind_some] at here
      rw [Option.bind_some]
      by_cases same : self = r
      · by_cases keys : key = python
        · simp only [same, keys, if_true, Option.some.injEq] at here
          exact .inl ⟨same.symm, keys, here.symm⟩
        · simp only [same, keys, if_true, if_false] at here
          exact .inr here
      · simp only [same, if_false] at here
        exact .inr here

end Heap

namespace Tree

theorem Rep.sameNodes {h h' : Heap} (same : h.SameNodes h') {t : Tree} (rep : t.Rep h) :
    t.Rep h' := by
  induction t with
  | atom ref leaf => exact (same ref).trans rep
  | regexAnd ref init last inductionInit inductionLast =>
      obtain ⟨here, repInit, repLast⟩ := rep
      rw [repAll_iff] at repInit
      exact ⟨(same ref).trans here,
        repAll_iff.mpr fun item member => inductionInit item member (repInit item member),
        inductionLast repLast⟩
  | regexOr ref content inductionContent =>
      obtain ⟨here, repContent⟩ := rep
      rw [repAll_iff] at repContent
      exact ⟨(same ref).trans here,
        repAll_iff.mpr fun item member => inductionContent item member (repContent item member)⟩
  | regexRepeat ref regex min max induction =>
      exact ⟨(same ref).trans rep.1, induction rep.2⟩

/-- What `__str__` does for a regex: its text is the rendering, and only cached strings
    change, which stay right. -/
def Rendered (t : Tree) : Prop :=
  ∀ {fuel : Nat} {python : Bool} {h h' : Heap} {text : List UInt8}, t.Rep h → h.Recorded →
    dunderStr fuel python t.ref h = some (text, h') →
    t.render python = some text ∧ h.SameNodes h' ∧ h'.Recorded

theorem recorded_setStr {h : Heap} (recorded : h.Recorded) {t : Tree} (rep : t.Rep h)
    {python : Bool} {text : List UInt8} (rendered : t.render python = some text) :
    (h.setStr t.ref python text).Recorded := by
  intro r key found here
  have same := h.setStr_sameNodes t.ref python text
  obtain ⟨rfl, rfl, rfl⟩ | before := Heap.cached_setStr here
  · exact ⟨t, rep.sameNodes same, rfl, rendered⟩
  · obtain ⟨u, repu, sameRef, renderedu⟩ := recorded r key found before
    exact ⟨u, repu.sameNodes same, sameRef, renderedu⟩

/-- A cached string is returned as it is, and a new one is cached. -/
theorem rendered_of_underStr {t : Tree}
    (inner : ∀ {fuel : Nat} {python : Bool} {h h' : Heap} {text : List UInt8}, t.Rep h →
      h.Recorded → underStr fuel python t.node h = some (text, h') →
      t.render python = some text ∧ h.SameNodes h' ∧ h'.Recorded) : t.Rendered := by
  intro fuel python h h' text rep recorded ran
  cases fuel with
  | zero => cases ran
  | succ fuel =>
      rw [dunderStr] at ran
      cases known : h.cached t.ref python with
      | some cached =>
          rw [known] at ran
          cases ran
          obtain ⟨u, repu, same, rendered⟩ := recorded _ _ _ known
          rw [repu.unique rep same] at rendered
          exact ⟨rendered, .refl h, recorded⟩
      | none =>
          simp only [known, rep.here, bind, Option.bind] at ran
          cases made : underStr fuel python t.node h with
          | none =>
              rw [made] at ran
              cases ran
          | some result =>
              obtain ⟨found, after⟩ := result
              obtain ⟨rendered, same, recordedAfter⟩ := inner rep recorded made
              rw [made] at ran
              cases ran
              exact ⟨rendered, same.trans (after.setStr_sameNodes _ _ _),
                recorded_setStr recordedAfter (rep.sameNodes same) rendered⟩

theorem dunderStrAll_rendered {items : List Tree} (each : ∀ item ∈ items, item.Rendered)
    {fuel : Nat} {python : Bool} {h h' : Heap} {texts : List (List UInt8)}
    (reps : ∀ item ∈ items, item.Rep h) (recorded : h.Recorded)
    (ran : dunderStrAll fuel python (items.map ref) h = some (texts, h')) :
    renderAll python items = some texts ∧ h.SameNodes h' ∧ h'.Recorded := by
  induction items generalizing fuel h texts with
  | nil =>
      cases fuel with
      | zero => cases ran
      | succ fuel =>
          cases ran
          exact ⟨rfl, .refl _, recorded⟩
  | cons item items induction =>
      cases fuel with
      | zero => cases ran
      | succ fuel =>
          rw [List.map_cons, dunderStrAll] at ran
          cases first : dunderStr fuel python item.ref h with
          | none =>
              rw [first] at ran
              cases ran
          | some result =>
              obtain ⟨text, middle⟩ := result
              obtain ⟨rendered, same, recordedMiddle⟩ :=
                each item (by simp) (reps item (by simp)) recorded first
              simp only [first, bind, Option.bind] at ran
              cases rest : dunderStrAll fuel python (items.map ref) middle with
              | none =>
                  rw [rest] at ran
                  cases ran
              | some result =>
                  obtain ⟨more, after⟩ := result
                  rw [rest] at ran
                  cases ran
                  obtain ⟨renderedAll, sameAll, recordedAll⟩ := induction
                    (fun other member => each other (List.mem_cons_of_mem _ member))
                    (fun other member =>
                      (reps other (List.mem_cons_of_mem _ member)).sameNodes same)
                    recordedMiddle rest
                  refine ⟨?_, same.trans sameAll, recordedAll⟩
                  rw [renderAll, rendered, renderedAll]
                  rfl

theorem rendered (t : Tree) : t.Rendered := by
  induction t with
  | atom ref leaf =>
      refine rendered_of_underStr fun {fuel python h h' text} rep recorded ran => ?_
      cases fuel with
      | zero => cases ran
      | succ fuel =>
          rw [node, underStr] at ran
          cases made : leaf.str with
          | none =>
              rw [made] at ran
              cases ran
          | some result =>
              rw [made] at ran
              cases ran
              exact ⟨made, .refl h, recorded⟩
  | regexAnd ref init last inductionInit inductionLast =>
      refine rendered_of_underStr fun {fuel python h h' text} rep recorded ran => ?_
      have reps : ∀ item ∈ init ++ [last], item.Rep h := fun item member => rep.child member
      have each : ∀ item ∈ init ++ [last], item.Rendered := by
        intro item member
        obtain inInit | isLast := List.mem_append.mp member
        · exact inductionInit item inInit
        · exact List.mem_singleton.mp isLast ▸ inductionLast
      cases fuel with
      | zero => cases ran
      | succ fuel =>
          have content : init.map Tree.ref ++ [last.ref] = (init ++ [last]).map Tree.ref := by
            rw [List.map_append, List.map_singleton]
          rw [node, underStr, content] at ran
          cases made : dunderStrAll fuel python ((init ++ [last]).map Tree.ref) h with
          | none =>
              rw [made] at ran
              cases ran
          | some result =>
              obtain ⟨texts, after⟩ := result
              obtain ⟨renderedAll, same, recordedAll⟩ :=
                dunderStrAll_rendered each reps recorded made
              rw [made] at ran
              cases ran
              obtain ⟨first, final, inits, lasts, rfl⟩ := renderAll_concat renderedAll
              refine ⟨?_, same, recordedAll⟩
              rw [render, inits, lasts]
              simp
  | regexOr ref content inductionContent =>
      refine rendered_of_underStr fun {fuel python h h' text} rep recorded ran => ?_
      cases fuel with
      | zero => cases ran
      | succ fuel =>
          rw [node, underStr] at ran
          cases made : dunderStrAll fuel python (content.map Tree.ref) h with
          | none =>
              rw [made] at ran
              cases ran
          | some result =>
              obtain ⟨texts, after⟩ := result
              obtain ⟨renderedAll, same, recordedAll⟩ := dunderStrAll_rendered
                inductionContent (fun item member => rep.child member) recorded made
              rw [made] at ran
              cases ran
              refine ⟨?_, same, recordedAll⟩
              rw [render, renderedAll]
              rfl
  | regexRepeat ref regex min max induction =>
      refine rendered_of_underStr fun {fuel python h h' text} rep recorded ran => ?_
      cases fuel with
      | zero => cases ran
      | succ fuel =>
          rw [node, underStr] at ran
          cases made : dunderStr fuel false regex.ref h with
          | none =>
              rw [made] at ran
              cases ran
          | some result =>
              obtain ⟨inner, after⟩ := result
              obtain ⟨rendered, same, recordedAfter⟩ := induction rep.2 recorded made
              simp only [made, bind, Option.bind, (rep.2.sameNodes same).here] at ran
              cases ran
              refine ⟨?_, same, recordedAfter⟩
              rw [render, rendered]
              rfl

end Tree

end Segvault.HachoirRegex
