import Segvault.Nesting
import Segvault.Outcome
import Segvault.Fusil.DtdConsume
import Segvault.Fusil.LegalOffsets

namespace Segvault.Fusil

/-! `XMLGen`: `fusil/xmlgen.py`. -/

/-- What a function gives that draws random numbers, and how many it takes. -/
structure Drawing (α : Type) where
  value : Draws → α
  taken : Draws → Nat

def Drawing.rest {α : Type} (drawing : Drawing α) (draws : Draws) : Draws :=
  fun n => draws (n + drawing.taken draws)

variable {ν : Type} [DecidableEq ν]

/-- The inner loop of the attributes, if it has ended after that many turns. An empty list raises,
but is not drawn from. -/
def chooseUnused (attrs attrDone : List ν) : Nat → Draws → Option (ν × Draws)
  | 0, _ => none
  | turns + 1, draws =>
      match choice attrs draws with
      | (.error _, _) => none
      | (.ok a, rest) =>
          if a ∈ attrDone then chooseUnused attrs attrDone turns rest else some (a, rest)

/-- The loop of the attributes: each with its fuzzed value. -/
def attributeLoop (attrs : List ν) (fuzzXmlattr : Drawing String) (turns : Nat) :
    Nat → List ν → Draws → Option (List (ν × String) × Draws)
  | 0, _, draws => some ([], draws)
  | nattr + 1, attrDone, draws =>
      if attrDone.length = attrs.length then some ([], draws)
      else do
        let (a, draws) ← chooseUnused attrs attrDone turns draws
        let (others, rest) ←
          attributeLoop attrs fuzzXmlattr turns nattr (attrDone ++ [a]) (fuzzXmlattr.rest draws)
        some ((a, fuzzXmlattr.value draws) :: others, rest)

/-! Draws that come back to every entry of a list of that length. -/

def Fair (length : Nat) (draws : Draws) : Prop :=
  ∀ index < length, ∀ start, ∃ later, start ≤ later ∧ draws later % length = index

theorem Fair.later {length : Nat} {draws : Draws} (fair : Fair length draws) (count : Nat) :
    Fair length fun n => draws (n + count) := by
  intro index inside start
  obtain ⟨later, after, hits⟩ := fair index inside (start + count)
  refine ⟨later - count, Nat.le_sub_of_add_le after, ?_⟩
  have same : later - count + count = later := Nat.sub_add_cancel (Nat.le_of_add_left_le after)
  exact (congrArg (draws · % length) same).trans hits

section

variable {attrs attrDone : List ν} {draws rest : Draws} {turns : Nat}

theorem chooseUnused_some {a : ν} (chosen : chooseUnused attrs attrDone turns draws = some (a, rest)) :
    a ∈ attrs ∧ a ∉ attrDone ∧ ∃ count, rest = fun n => draws (n + count) := by
  induction turns generalizing draws with
  | zero => cases chosen
  | succ turns induction =>
      rw [chooseUnused] at chosen
      split at chosen
      · cases chosen
      · rename_i first later drawn
        have shift : later = fun n => draws (n + 1) := by
          unfold choice at drawn
          split at drawn
          · cases drawn
          · cases drawn
            rfl
        split at chosen
        · obtain ⟨known, unused, count, rfl⟩ := induction chosen
          refine ⟨known, unused, count + 1, ?_⟩
          rw [shift]
          rfl
        · rename_i unused
          cases chosen
          exact ⟨choice_mem drawn, unused, 1, shift⟩

/-- An unused entry is drawn at last. -/
theorem chooseUnused_ends (fair : Fair attrs.length draws) {a : ν} (known : a ∈ attrs)
    (unused : a ∉ attrDone) : ∃ turns, (chooseUnused attrs attrDone turns draws).isSome := by
  obtain ⟨index, inside, rfl⟩ := List.getElem_of_mem known
  obtain ⟨later, -, hits⟩ := fair index inside 0
  clear fair
  induction later generalizing draws with
  | zero =>
      refine ⟨1, ?_⟩
      have drawn : choice attrs draws = (.ok attrs[index], fun n => draws (n + 1)) := by
        rw [choice, hits, List.getElem?_eq_getElem inside]
      rw [chooseUnused, drawn]
      simp only [if_neg unused, Option.isSome_some]
  | succ later induction =>
      obtain ⟨turns, ends⟩ := @induction (fun n => draws (n + 1)) hits
      refine ⟨turns + 1, ?_⟩
      obtain ⟨item, -, drawn⟩ := choice_ok (List.ne_nil_of_mem known) draws
      rw [chooseUnused, drawn]
      dsimp only
      split
      · exact ends
      · rfl

theorem chooseUnused_mono {result : ν × Draws}
    (chosen : chooseUnused attrs attrDone turns draws = some result) {more : Nat}
    (enough : turns ≤ more) : chooseUnused attrs attrDone more draws = some result := by
  induction turns generalizing draws more with
  | zero => cases chosen
  | succ turns induction =>
      obtain ⟨more, rfl⟩ := Nat.exists_eq_add_of_le' (Nat.le_of_add_left_le enough)
      rw [chooseUnused] at chosen ⊢
      split at chosen
      · cases chosen
      · rename_i first later drawn
        split at chosen
        · rename_i used
          rw [if_pos used]
          exact induction chosen (Nat.le_of_succ_le_succ enough)
        · rename_i unused
          rw [if_neg unused]
          exact chosen

/-! The names that are done, which are all different. -/

structure Done (attrs attrDone : List ν) : Prop where
  nodup : attrDone.Nodup
  known : attrDone ⊆ attrs

omit [DecidableEq ν] in
theorem Done.nil : Done attrs [] := ⟨List.nodup_nil, List.nil_subset _⟩

omit [DecidableEq ν] in
theorem Done.concat (done : Done attrs attrDone) {a : ν} (known : a ∈ attrs)
    (unused : a ∉ attrDone) : Done attrs (attrDone ++ [a]) where
  nodup := by
    rw [← List.concat_eq_append]
    exact done.nodup.concat unused
  known := List.append_subset.mpr ⟨done.known, List.cons_subset.mpr ⟨known, List.nil_subset _⟩⟩

theorem Done.length_le (done : Done attrs attrDone) : attrDone.length ≤ attrs.dedup.length :=
  (done.nodup.subperm fun _ member => List.mem_dedup.mpr (done.known member)).length_le

/-- As long as not all different names are done, one is unused. -/
theorem exists_unused (fewer : attrDone.length < attrs.dedup.length) :
    ∃ a ∈ attrs, a ∉ attrDone := by
  by_contra none_
  push Not at none_
  have all : attrs.dedup.length ≤ attrDone.length :=
    ((List.nodup_dedup attrs).subperm fun a member => none_ a (List.mem_dedup.mp member)).length_le
  exact absurd fewer (Nat.not_lt.mpr all)

variable {fuzzXmlattr : Drawing String} {nattr : Nat}

theorem attributeLoop_succ (unfinished : attrDone.length ≠ attrs.length) :
    attributeLoop attrs fuzzXmlattr turns (nattr + 1) attrDone draws =
      (chooseUnused attrs attrDone turns draws).bind fun chosen =>
        (attributeLoop attrs fuzzXmlattr turns nattr (attrDone ++ [chosen.1])
          (fuzzXmlattr.rest chosen.2)).map fun looped =>
            ((chosen.1, fuzzXmlattr.value chosen.2) :: looped.1, looped.2) := by
  rw [attributeLoop, if_neg unfinished]
  refine congrArg (Option.bind _) (funext fun chosen => ?_)
  exact Option.map_eq_bind.symm

theorem attributeLoop_some {attributes : List (ν × String)} (done : Done attrs attrDone)
    (looped : attributeLoop attrs fuzzXmlattr turns nattr attrDone draws =
      some (attributes, rest)) :
    Done attrs (attrDone ++ attributes.map Prod.fst) ∧
      min (attrDone.length + nattr) attrs.length ≤
        (attrDone ++ attributes.map Prod.fst).length := by
  induction nattr generalizing attributes attrDone draws with
  | zero =>
      cases looped
      rw [List.map_nil, List.append_nil]
      exact ⟨done, Nat.min_le_left _ _⟩
  | succ nattr induction =>
      by_cases finished : attrDone.length = attrs.length
      · cases (if_pos finished).symm.trans looped
        rw [List.map_nil, List.append_nil, finished]
        exact ⟨done, Nat.min_le_right _ _⟩
      · rw [attributeLoop_succ finished] at looped
        obtain ⟨⟨a, middle⟩, chosen, looped⟩ := Option.bind_eq_some_iff.mp looped
        obtain ⟨⟨others, last⟩, more, same⟩ := Option.map_eq_some_iff.mp looped
        cases same
        obtain ⟨known, unused, -⟩ := chooseUnused_some chosen
        have all := induction (done.concat known unused) more
        rw [List.length_append, List.length_singleton, List.append_assoc, Nat.add_assoc,
          Nat.add_comm 1] at all
        exact all

theorem attributeLoop_rest {attributes : List (ν × String)}
    (looped : attributeLoop attrs fuzzXmlattr turns nattr attrDone draws =
      some (attributes, rest)) : ∃ count, rest = fun n => draws (n + count) := by
  induction nattr generalizing attributes attrDone draws with
  | zero =>
      cases looped
      exact ⟨0, rfl⟩
  | succ nattr induction =>
      by_cases finished : attrDone.length = attrs.length
      · cases (if_pos finished).symm.trans looped
        exact ⟨0, rfl⟩
      · rw [attributeLoop_succ finished] at looped
        obtain ⟨⟨a, middle⟩, chosen, looped⟩ := Option.bind_eq_some_iff.mp looped
        obtain ⟨⟨others, last⟩, more, same⟩ := Option.map_eq_some_iff.mp looped
        cases same
        obtain ⟨-, -, first, rfl⟩ := chooseUnused_some chosen
        obtain ⟨count, rfl⟩ := induction more
        refine ⟨count + fuzzXmlattr.taken (fun n => draws (n + first)) + first, ?_⟩
        funext n
        simp only [Drawing.rest, Nat.add_assoc]

theorem attributeLoop_mono {result : List (ν × String) × Draws}
    (looped : attributeLoop attrs fuzzXmlattr turns nattr attrDone draws = some result)
    {more : Nat} (enough : turns ≤ more) :
    attributeLoop attrs fuzzXmlattr more nattr attrDone draws = some result := by
  induction nattr generalizing attrDone draws result with
  | zero => exact looped
  | succ nattr induction =>
      by_cases finished : attrDone.length = attrs.length
      · rw [attributeLoop, if_pos finished] at looped ⊢
        exact looped
      · rw [attributeLoop_succ finished] at looped ⊢
        obtain ⟨⟨a, middle⟩, chosen, looped⟩ := Option.bind_eq_some_iff.mp looped
        obtain ⟨⟨others, last⟩, rest, same⟩ := Option.map_eq_some_iff.mp looped
        rw [chooseUnused_mono chosen enough, Option.bind_some, induction rest]
        exact congrArg some same

/-- The loop ends if there are enough different names. -/
theorem attributeLoop_ends (fair : Fair attrs.length draws)
    (tail : ∀ draws, Fair attrs.length draws → Fair attrs.length (fuzzXmlattr.rest draws))
    (done : Done attrs attrDone)
    (enough : min (attrDone.length + nattr) attrs.length ≤ attrs.dedup.length) :
    ∃ turns, (attributeLoop attrs fuzzXmlattr turns nattr attrDone draws).isSome := by
  induction nattr generalizing attrDone draws with
  | zero => exact ⟨0, rfl⟩
  | succ nattr induction =>
      by_cases finished : attrDone.length = attrs.length
      · exact ⟨0, by rw [attributeLoop, if_pos finished]; rfl⟩
      · have shorter := (List.dedup_sublist attrs).length_le
        have bound := done.length_le
        obtain ⟨unusedName, known, unused⟩ := @exists_unused _ _ attrs attrDone (by omega)
        obtain ⟨first, ends⟩ := chooseUnused_ends fair known unused
        obtain ⟨⟨a, middle⟩, chosen⟩ := Option.isSome_iff_exists.mp ends
        obtain ⟨own, new, count, shift⟩ := chooseUnused_some chosen
        obtain ⟨second, endsRest⟩ := @induction (attrDone ++ [a]) (fuzzXmlattr.rest middle)
          (tail _ (shift ▸ fair.later count)) (done.concat own new)
          (by rw [List.length_append, List.length_singleton]; omega)
        obtain ⟨result, looped⟩ := Option.isSome_iff_exists.mp endsRest
        refine ⟨max first second, ?_⟩
        rw [attributeLoop_succ finished, chooseUnused_mono chosen (Nat.le_max_left _ _),
          Option.bind_some, attributeLoop_mono looped (Nat.le_max_right _ _)]
        rfl

end

theorem Drawing.fair_rest {length : Nat} (drawing : Drawing String) {draws : Draws}
    (fair : Fair length draws) : Fair length (drawing.rest draws) :=
  fair.later (drawing.taken draws)

/-- Fair choices end the loop exactly if it needs no more names than there are different ones, and
then no attribute comes twice. -/
theorem attributeLoop_ends_iff (attrs : List ν) (fuzzXmlattr : Drawing String) (nattr : Nat)
    (draws : Draws) (fair : Fair attrs.length draws) :
    (∃ turns attributes rest,
      attributeLoop attrs fuzzXmlattr turns nattr [] draws = some (attributes, rest) ∧
        (attributes.map Prod.fst).Nodup) ↔
      min nattr attrs.length ≤ attrs.dedup.length := by
  constructor
  · rintro ⟨turns, attributes, rest, looped, -⟩
    obtain ⟨done, enough⟩ := attributeLoop_some Done.nil looped
    have bound := done.length_le
    rw [List.nil_append] at enough bound
    rw [List.length_nil, Nat.zero_add] at enough
    exact Nat.le_trans enough bound
  · intro enough
    obtain ⟨turns, ends⟩ := @attributeLoop_ends ν _ attrs [] draws fuzzXmlattr nattr fair
      (fun _ => fuzzXmlattr.fair_rest) Done.nil
      (by rwa [List.length_nil, Nat.zero_add])
    obtain ⟨⟨attributes, rest⟩, looped⟩ := Option.isSome_iff_exists.mp ends
    exact ⟨turns, attributes, rest, looped, (attributeLoop_some Done.nil looped).1.nodup⟩

/-- Counting up comes back to every entry. -/
theorem fair_counting (length : Nat) : Fair length fun n => n := by
  intro index inside start
  refine ⟨index + start * length, ?_, ?_⟩
  · exact Nat.le_trans (Nat.le_mul_of_pos_right start (Nat.zero_lt_of_lt inside))
      (Nat.le_add_left _ _)
  · rw [Nat.add_mul_mod_self_right, Nat.mod_eq_of_lt inside]

theorem attributeLoop_ends_one :
    (∃ turns attributes rest,
      attributeLoop ["id"] ⟨fun _ => "#", fun _ => 1⟩ turns 1 [] (fun n => n) =
          some (attributes, rest) ∧
        (attributes.map Prod.fst).Nodup) ↔
      min 1 ["id"].length ≤ ["id"].dedup.length :=
  attributeLoop_ends_iff _ _ 1 _ (fair_counting 1)

/-- An attribute that is declared twice: two attributes are looked for. -/
theorem attributeLoop_endless :
    (DtdConsume.consume [.newAttribute "a" "id", .newAttribute "a" "id", .newElementType "a"]).map
        (fun self => self.elems.attributes "a") = some ["id", "id"] ∧
      Fair 2 (fun n => n) ∧
      ¬ ∃ turns result, attributeLoop ["id", "id"] ⟨fun _ => "#", fun _ => 1⟩ turns 2 []
        (fun n => n) = some result := by
  refine ⟨by decide, fair_counting 2, ?_⟩
  rintro ⟨turns, ⟨attributes, rest⟩, looped⟩
  obtain ⟨done, enough⟩ := attributeLoop_some Done.nil looped
  have bound := Nat.le_trans enough done.length_le
  exact absurd bound (by decide)

/-! What `fuzz` puts out, one piece after the other. -/

inductive XmlPiece
  | startTag (elem : String) (attributes : List (String × String))
  | emptyTag (elem : String) (attributes : List (String × String))
  | endTag (elem : String)
  | text (data : String)
  deriving DecidableEq

/-- An empty tag opens and closes at once. -/
def XmlPiece.tags : XmlPiece → List (Tag String)
  | .startTag elem _ => [.opening elem]
  | .emptyTag elem _ => [.opening elem, .closing elem]
  | .endTag elem => [.closing elem]
  | .text _ => []

inductive XmlType
  | svg11
  | svg10
  | xhtml1
  deriving DecidableEq

structure XmlGen where
  elems : ElementTable String
  toend : List String := []
  xmlt : XmlType

/-- The functions that make texts. -/
structure XmlTexts where
  fuzzXmlattr : Drawing String
  fuzzRandstring : Drawing String
  css : List String → Drawing String

/-- The local variables of `fuzz`, with `self.toend`. -/
structure XmlFuzz where
  data : List XmlPiece := []
  elems : List String := []
  toend : List String
  draws : Draws

namespace XmlFuzz

def put (self : XmlFuzz) (piece : XmlPiece) : XmlFuzz := { self with data := self.data ++ [piece] }

/-- A random number, and what is done with it. -/
def drawn {α : Type} (random : Random α) (next : α → XmlFuzz → Outcome XmlFuzz)
    (self : XmlFuzz) : Outcome XmlFuzz :=
  match random self.draws with
  | (.error _, draws) => .raised { self with draws }
  | (.ok value, draws) => next value { self with draws }

def drawnText (text : Drawing String) (self : XmlFuzz) : String × XmlFuzz :=
  (text.value self.draws, { self with draws := text.rest self.draws })

/-- `data += "</%s>\n" % self.toend.pop()`, that many times. -/
def endTags : Nat → XmlFuzz → Outcome XmlFuzz
  | 0, self => .returned self
  | n + 1, self =>
      match self.toend.getLast? with
      | none => .raised self
      | some elem =>
          endTags n { self.put (.endTag elem) with toend := self.toend.dropLast }

/-- Some of the open elements end. -/
def endSome (self : XmlFuzz) : Outcome XmlFuzz :=
  if 0 < self.toend.length then
    self.drawn (randint 0 3) fun chance self =>
      if chance = 0 then
        self.drawn (randint 0 self.toend.length) fun n self => self.endTags n.toNat
      else .returned self
  else .returned self

/-- An element after its attributes. -/
def finishElement (texts : XmlTexts) (elem : String) (attributes : List (String × String))
    (self : XmlFuzz) : Outcome XmlFuzz :=
  self.drawn (randint 0 3) fun chance self =>
    if chance = 0 then (self.put (.emptyTag elem attributes)).endSome
    else
      { self.put (.startTag elem attributes) with toend := self.toend ++ [elem] }.drawn
        (randint 0 10) fun chance self =>
          if chance = 0 then
            let (data, self) := self.drawnText texts.fuzzRandstring
            (self.put (.text data)).endSome
          else self.endSome

/-- One turn of the loop over the elements; where the attributes go on for longer than that many
turns, it is left there. -/
def element (table : ElementTable String) (texts : XmlTexts) (turns : Nat) (self : XmlFuzz) :
    Outcome XmlFuzz :=
  self.drawn (choice table.keys) fun elem self =>
    if elem = "object" ∨ elem = "applet" then .returned self
    else
      { self with elems := self.elems ++ [elem] }.drawn (randint 1 7) fun nattr self =>
        match attributeLoop (table.attributes elem) texts.fuzzXmlattr turns nattr.toNat []
            self.draws with
        | none => .interrupted self
        | some (attributes, draws) => finishElement texts elem attributes { self with draws }

def elements (table : ElementTable String) (texts : XmlTexts) (turns : Nat) :
    Nat → XmlFuzz → Outcome XmlFuzz
  | 0, self => .returned self
  | nelem + 1, self => (self.element table texts turns).bind (elements table texts turns nelem)

end XmlFuzz

namespace XmlType

def header : XmlType → XmlPiece
  | .svg11 =>
      .text ("<?xml version=\"1.0\" encoding=\"UTF-8\"?>\n" ++
        "<!DOCTYPE svg PUBLIC \"-//W3C//DTD SVG 1.1//EN\" " ++
        "\"http://www.w3.org/TR/SVG/DTD/svg11.dtd\">\n")
  | .svg10 =>
      .text ("<?xml version=\"1.0\" encoding=\"UTF-8\"?>\n" ++
        "<!DOCTYPE svg PUBLIC \"-//W3C//DTD SVG 1.0//EN\" " ++
        "\"http://www.w3.org/TR/SVG/DTD/svg10.dtd\">\n")
  | .xhtml1 => .text "<!DOCTYPE html>"

def root (css : String) : XmlType → List XmlPiece
  | .svg11 => [.startTag "svg" [("xmlns", "http://www.w3.org/2000/svg"), ("version", "1.1")]]
  | .svg10 => [.startTag "svg" [("xmlns", "http://www.w3.org/2000/svg"), ("version", "1.0")]]
  | .xhtml1 =>
      [.startTag "html" [], .startTag "head" [], .startTag "style" [("type", "text/css")],
        .text css, .endTag "style", .endTag "head"]

def endroot : XmlType → XmlPiece
  | .svg11 | .svg10 => .endTag "svg"
  | .xhtml1 => .endTag "html"

end XmlType

namespace XmlGen

/-- `if body:` around what is put out. -/
def bodyTag (body : Bool) (piece : XmlPiece) (self : XmlFuzz) : XmlFuzz :=
  if body then self.put piece else self

/-- The document around the elements. -/
def document (xmlt : XmlType) (texts : XmlTexts) (self : XmlFuzz) : XmlFuzz :=
  let (css, self) :=
    if xmlt = .xhtml1 then self.drawnText (texts.css self.elems) else ("", self)
  { self with data := xmlt.header :: xmlt.root css ++ self.data ++ [xmlt.endroot] }

def fuzz (gen : XmlGen) (texts : XmlTexts) (turns : Nat) (draws : Draws) : Outcome XmlFuzz :=
  XmlFuzz.drawn (randint 0 3) (fun body self =>
    let body := decide (body ≠ 0 ∧ gen.xmlt = .xhtml1)
    self.drawn (randint 1 20) fun nelem self =>
      (XmlFuzz.elements gen.elems texts turns nelem.toNat
        (bodyTag body (.startTag "body" []) self)).bind fun self =>
          (self.endTags self.toend.length).bind fun self =>
            .returned (document gen.xmlt texts (bodyTag body (.endTag "body") self)))
    { toend := gen.toend, draws }

end XmlGen

/-! The tags that are open are those of `toend`, inside of others. -/

/-- What is open, the innermost first. -/
def openTags (data : List XmlPiece) : Option (List String) :=
  (data.flatMap XmlPiece.tags).foldlM Tag.track []

theorem openTags_append (data more : List XmlPiece) :
    openTags (data ++ more) =
      (openTags data).bind fun stack => (more.flatMap XmlPiece.tags).foldlM Tag.track stack := by
  rw [openTags, List.flatMap_append, List.foldlM_append]
  rfl

namespace XmlFuzz

def Nested (outside : List String) (self : XmlFuzz) : Prop :=
  openTags self.data = some (self.toend.reverse ++ outside)

variable {outside : List String} {self : XmlFuzz} {returns raises interrupts : XmlFuzz → Prop}
variable {lasting : Draws → Prop}

/-- A piece takes the open tags from one stack to another. -/
theorem Nested.put {piece : XmlPiece} {toend : List String} (nested : self.Nested outside)
    (tracked : piece.tags.foldlM Tag.track (self.toend.reverse ++ outside) =
      some (toend.reverse ++ outside)) :
    { self.put piece with toend }.Nested outside := by
  have all := openTags_append self.data [piece]
  rw [show openTags self.data = _ from nested, Option.bind_some, List.flatMap_singleton,
    tracked] at all
  exact all

theorem Nested.put_text (nested : self.Nested outside) (text : String) :
    (self.put (.text text)).Nested outside :=
  Nested.put nested rfl

theorem Nested.put_empty (nested : self.Nested outside) (elem : String)
    (attributes : List (String × String)) :
    (self.put (.emptyTag elem attributes)).Nested outside := by
  refine Nested.put nested ?_
  change (Tag.track (elem :: (self.toend.reverse ++ outside)) (.closing elem)).bind some = _
  rw [Tag.track_closing]
  rfl

theorem Nested.put_start (nested : self.Nested outside) (elem : String)
    (attributes : List (String × String)) :
    { self.put (.startTag elem attributes) with toend := self.toend ++ [elem] }.Nested outside := by
  refine Nested.put nested ?_
  rw [List.reverse_append]
  rfl

theorem endTags_spec (nested : self.Nested outside) {n : Nat} (enough : n ≤ self.toend.length) :
    ∃ after, self.endTags n = .returned after ∧ after.Nested outside ∧
      after.toend = self.toend.take (self.toend.length - n) ∧ after.draws = self.draws := by
  induction n generalizing self with
  | zero =>
      refine ⟨self, rfl, nested, ?_, rfl⟩
      rw [Nat.sub_zero, List.take_length]
  | succ n induction =>
      obtain ⟨toend, elem, same⟩ : ∃ toend elem, self.toend = toend ++ [elem] := by
        have nonempty : self.toend ≠ [] := List.ne_nil_of_length_pos (Nat.zero_lt_of_lt enough)
        exact ⟨_, _, (List.dropLast_append_getLast nonempty).symm⟩
      have closed : { self.put (.endTag elem) with toend }.Nested outside := by
        refine Nested.put nested ?_
        rw [same, List.reverse_append]
        exact congrArg (·.bind some) (Tag.track_closing elem _)
      have left : n ≤ toend.length := by
        rw [same, List.length_append, List.length_singleton] at enough
        exact Nat.le_of_succ_le_succ enough
      obtain ⟨after, ended, nestedAfter, toendAfter, drawsAfter⟩ := induction closed left
      refine ⟨after, ?_, nestedAfter, ?_, drawsAfter⟩
      · rw [endTags, same, List.getLast?_concat, List.dropLast_concat]
        exact ended
      · rw [toendAfter, same, List.length_append, List.length_singleton, Nat.add_sub_add_right,
          List.take_append_of_le_length (Nat.sub_le _ _)]

theorem drawn_ends {α : Type} {random : Random α} {next : α → XmlFuzz → Outcome XmlFuzz}
    (ok : ∀ value draws, random self.draws = (.ok value, draws) →
      (next value { self with draws }).Ends returns raises interrupts)
    (error : ∀ failure draws, random self.draws = (.error failure, draws) →
      raises { self with draws }) : (self.drawn random next).Ends returns raises interrupts := by
  rw [drawn]
  split
  · rename_i failure draws failed
    exact error failure draws failed
  · rename_i value draws chosen
    exact ok value draws chosen

/-- What holds of draws also holds of those that come later. -/
def Lasting (lasting : Draws → Prop) : Prop :=
  ∀ draws count, lasting draws → lasting fun n => draws (n + count)

structure Going (lasting : Draws → Prop) (outside : List String) (now : XmlFuzz) : Prop where
  nested : now.Nested outside
  draws : lasting now.draws

/-- These calls return. -/
abbrev Keeps (lasting : Draws → Prop) (outside : List String) (outcome : Outcome XmlFuzz) : Prop :=
  outcome.Ends (Going lasting outside) (fun _ => False) (fun _ => False)

theorem drawn_randint (last : Lasting lasting) {low high : Int}
    {next : Int → XmlFuzz → Outcome XmlFuzz} (order : low ≤ high) (now : lasting self.draws)
    (ok : ∀ value draws, low ≤ value → value ≤ high → lasting draws →
      (next value { self with draws }).Ends returns raises interrupts) :
    (self.drawn (randint low high) next).Ends returns raises interrupts := by
  obtain ⟨value, chosen⟩ := randint_ok order self.draws
  have bounds := randint_bounds chosen
  rw [drawn, chosen]
  exact ok value _ bounds.1 bounds.2 (last _ 1 now)

theorem Going.endSome (last : Lasting lasting) (going : self.Going lasting outside) :
    Keeps lasting outside self.endSome := by
  rw [XmlFuzz.endSome]
  split
  · refine drawn_randint last (by decide) going.draws fun chance draws _ _ later => ?_
    dsimp only
    split
    · refine drawn_randint last (Int.natCast_nonneg _) later fun n draws above below latest => ?_
      obtain ⟨after, ended, nested, -, same⟩ :=
        @endTags_spec outside { self with draws } going.nested n.toNat (Int.toNat_le.mpr below)
      rw [ended]
      exact ⟨nested, by rw [same]; exact latest⟩
    · exact ⟨going.nested, later⟩
  · exact going

theorem Going.finishElement (last : Lasting lasting) (going : self.Going lasting outside)
    (texts : XmlTexts) (elem : String) (attributes : List (String × String)) :
    Keeps lasting outside (self.finishElement texts elem attributes) := by
  refine drawn_randint last (by decide) going.draws fun chance draws _ _ later => ?_
  dsimp only
  split
  · exact Going.endSome last ⟨going.nested.put_empty elem attributes, later⟩
  · refine drawn_randint last (by decide) later fun chance draws _ _ latest => ?_
    have started := going.nested.put_start elem attributes
    dsimp only
    split
    · exact Going.endSome last ⟨Nested.put_text started _, last _ _ latest⟩
    · exact Going.endSome last ⟨started, latest⟩

/-- What an element leaves. Only a table without elements raises, at the first one. -/
def Proceeds (table : ElementTable String) (outside toend : List String)
    (outcome : Outcome XmlFuzz) : Prop :=
  outcome.Ends (fun after => after.Nested outside ∧ table.keys ≠ [])
    (fun after => table.keys = [] ∧ after.toend = toend) (Nested outside)

variable {table : ElementTable String} {texts : XmlTexts} {turns : Nat}

theorem lasting_true : Lasting fun _ => True := fun _ _ => id

theorem Nested.element (nested : self.Nested outside) :
    Proceeds table outside self.toend (self.element table texts turns) := by
  refine drawn_ends (fun elem draws chosen => ?_) fun failure draws failed => ?_
  · have known : table.keys ≠ [] := List.ne_nil_of_mem (choice_mem chosen)
    dsimp only
    split
    · exact ⟨nested, known⟩
    · refine drawn_randint lasting_true (by decide) trivial fun nattr draws _ _ _ => ?_
      dsimp only
      split
      · exact nested
      · rename_i attributes rest looped
        have now : { self with elems := self.elems ++ [elem], draws := rest }.Going
            (fun _ => True) outside := ⟨nested, trivial⟩
        exact (now.finishElement lasting_true texts elem attributes).imp
          (fun _ going => ⟨going.nested, known⟩) (fun _ => False.elim) fun _ => False.elim
  · refine ⟨?_, rfl⟩
    by_contra some_
    obtain ⟨item, -, chosen⟩ := choice_ok some_ self.draws
    cases chosen.symm.trans failed

theorem Nested.elements (nested : self.Nested outside) (nelem : Nat) :
    (XmlFuzz.elements table texts turns nelem self).Ends (Nested outside)
      (fun after => table.keys = [] ∧ after.toend = self.toend) (Nested outside) := by
  induction nelem generalizing self with
  | zero => exact nested
  | succ nelem induction =>
      refine Outcome.Ends.bind nested.element fun after proceeded => ?_
      exact (induction proceeded.1).imp (fun _ => id)
        (fun _ raised => absurd raised.1 proceeded.2) fun _ => id

/-! With fair choices and enough turns a call returns. -/

def Settles (lasting : Draws → Prop) (outside : List String)
    (call : Nat → Outcome XmlFuzz) : Prop :=
  ∃ after, Going lasting outside after ∧
    ∃ first, ∀ turns, first ≤ turns → call turns = .returned after

theorem Settles.of_keeps {call : Nat → Outcome XmlFuzz} {outcome : Outcome XmlFuzz}
    (keeps : Keeps lasting outside outcome) (first : Nat)
    (same : ∀ turns, first ≤ turns → call turns = outcome) : Settles lasting outside call := by
  cases outcome with
  | returned after => exact ⟨after, keeps, first, same⟩
  | raised after => exact keeps.elim
  | interrupted after => exact keeps.elim

theorem Settles.bind {call : Nat → Outcome XmlFuzz} {rest : Nat → XmlFuzz → Outcome XmlFuzz}
    (settles : Settles lasting outside call)
    (next : ∀ after, Going lasting outside after →
      Settles lasting outside fun turns => rest turns after) :
    Settles lasting outside fun turns => (call turns).bind (rest turns) := by
  obtain ⟨after, going, first, same⟩ := settles
  obtain ⟨last, goingLast, second, sameLast⟩ := next after going
  refine ⟨last, goingLast, max first second, fun turns enough => ?_⟩
  dsimp only
  rw [same turns (Nat.le_trans (Nat.le_max_left _ _) enough)]
  exact sameLast turns (Nat.le_trans (Nat.le_max_right _ _) enough)

/-- The draws come back to every entry of every list. -/
def AllFair (draws : Draws) : Prop := ∀ length, Fair length draws

theorem allFair_lasting : Lasting AllFair := fun _ count fair length => (fair length).later count

/-- No element has fewer different attributes than an element may be given. -/
def Ample (table : ElementTable String) : Prop :=
  ∀ elem ∈ table.keys,
    min 7 (table.attributes elem).length ≤ (table.attributes elem).dedup.length

theorem Going.element (going : self.Going AllFair outside) (some_ : table.keys ≠ [])
    (ample : Ample table) :
    Settles AllFair outside fun turns => self.element table texts turns := by
  obtain ⟨elem, -, chosen⟩ := choice_ok some_ self.draws
  have known : elem ∈ table.keys := choice_mem chosen
  simp only [XmlFuzz.element, drawn, chosen]
  split
  · exact ⟨{ self with draws := fun n => self.draws (n + 1) },
      ⟨going.nested, allFair_lasting _ 1 going.draws⟩, 0, fun _ _ => rfl⟩
  · obtain ⟨nattr, number⟩ := @randint_ok 1 7 (by decide) fun n => self.draws (n + 1)
    have bounds := randint_bounds number
    have later := allFair_lasting _ 1 (allFair_lasting _ 1 going.draws)
    have short : nattr.toNat ≤ 7 := Int.toNat_le.mpr bounds.2
    have enough := ample elem known
    obtain ⟨turns, ends⟩ := @attributeLoop_ends _ _ (table.attributes elem) [] _
      texts.fuzzXmlattr nattr.toNat (later _) (fun _ => texts.fuzzXmlattr.fair_rest) Done.nil
      (by rw [List.length_nil, Nat.zero_add]; omega)
    obtain ⟨⟨attributes, rest⟩, looped⟩ := Option.isSome_iff_exists.mp ends
    obtain ⟨count, rfl⟩ := attributeLoop_rest looped
    have now : Going AllFair outside { self with
        elems := self.elems ++ [elem], draws := fun n => self.draws (n + count + 1 + 1) } :=
      ⟨going.nested, allFair_lasting _ count later⟩
    refine Settles.of_keeps (now.finishElement allFair_lasting texts elem attributes) turns
      fun more enough => ?_
    rw [number]
    dsimp only
    rw [attributeLoop_mono looped enough]

theorem Going.elements (going : self.Going AllFair outside) (some_ : table.keys ≠ [])
    (ample : Ample table) (nelem : Nat) :
    Settles AllFair outside fun turns => XmlFuzz.elements table texts turns nelem self := by
  induction nelem generalizing self with
  | zero => exact ⟨self, going, 0, fun _ _ => rfl⟩
  | succ nelem induction =>
      exact (going.element some_ ample).bind fun after goingAfter => induction goingAfter

end XmlFuzz

namespace XmlGen

/-- How a call of `fuzz` ends: all tags are closed; or the table is empty; or the attributes of an
element go on for longer than that many turns, after tags that nest. -/
def WellNested (outcome : Outcome XmlFuzz) : Prop :=
  outcome.Ends
    (fun after => Tag.Balanced (after.data.flatMap XmlPiece.tags) ∧ after.toend = [])
    (fun after => after.toend = []) (fun after => ∃ stack, openTags after.data = some stack)

/-- What is put around the elements of a document closes what it opens. -/
theorem openTags_document (xmlt : XmlType) (texts : XmlTexts) {self : XmlFuzz}
    (closed : openTags self.data = some []) :
    openTags (document xmlt texts self).data = some [] := by
  have inside (stack : List String) :
      (self.data.flatMap XmlPiece.tags).foldlM Tag.track stack = some stack :=
    ((Tag.balanced_iff _).mpr closed).foldlM_track stack
  obtain ⟨css, same⟩ : ∃ css, (document xmlt texts self).data =
      xmlt.header :: xmlt.root css ++ self.data ++ [xmlt.endroot] := by
    cases xmlt <;> exact ⟨_, rfl⟩
  obtain ⟨label, opened, closing⟩ : ∃ label,
      openTags (xmlt.header :: xmlt.root css) = some [label] ∧
        xmlt.endroot.tags = [.closing label] := by
    cases xmlt with
    | svg11 => exact ⟨"svg", rfl, rfl⟩
    | svg10 => exact ⟨"svg", rfl, rfl⟩
    | xhtml1 => exact ⟨"html", rfl, rfl⟩
  rw [same, openTags_append, openTags_append, opened, Option.bind_some, inside, Option.bind_some,
    List.flatMap_singleton, closing]
  change (Tag.track [label] (.closing label)).bind some = _
  rw [Tag.track_closing]
  rfl

/-- What is open outside of the elements. -/
def bodyTags (body : Bool) : List String := if body then ["body"] else []

theorem nested_start (body : Bool) (draws : Draws) :
    (bodyTag body (.startTag "body" []) { toend := [], draws }).Nested (bodyTags body) := by
  cases body <;> rfl

theorem openTags_endBody {body : Bool} {self : XmlFuzz} (nested : self.Nested (bodyTags body))
    (closed : self.toend = []) : openTags (bodyTag body (.endTag "body") self).data = some [] := by
  have now : openTags self.data = some (bodyTags body) := by rw [nested, closed]; rfl
  cases body with
  | false => exact now
  | true =>
      refine (openTags_append _ _).trans ?_
      rw [now]
      rfl

theorem fuzz_wellNested (gen : XmlGen) (idle : gen.toend = []) (texts : XmlTexts) (turns : Nat)
    (draws : Draws) : WellNested (gen.fuzz texts turns draws) := by
  rw [fuzz, idle]
  refine XmlFuzz.drawn_randint XmlFuzz.lasting_true (by decide) trivial fun body draws _ _ _ => ?_
  dsimp only
  generalize decide (body ≠ 0 ∧ gen.xmlt = .xhtml1) = body
  refine XmlFuzz.drawn_randint XmlFuzz.lasting_true (by decide) trivial fun nelem draws _ _ _ => ?_
  have started := nested_start body draws
  refine Outcome.Ends.bind ((started.elements nelem.toNat).imp (fun _ => id) (fun after raised => ?_)
    fun after nested => ⟨_, nested⟩) fun after nested => ?_
  · rw [raised.2]
    cases body <;> rfl
  · obtain ⟨last, ended, nestedLast, toend, -⟩ := XmlFuzz.endTags_spec nested (Nat.le_refl _)
    rw [Nat.sub_self, List.take_zero] at toend
    rw [ended]
    refine ⟨(Tag.balanced_iff _).mpr (openTags_document gen.xmlt texts
      (openTags_endBody nestedLast toend)), ?_⟩
    have same : (document gen.xmlt texts (bodyTag body (.endTag "body") last)).toend =
        last.toend := by
      cases gen.xmlt <;> cases body <;> rfl
    rw [same, toend]

/-- A call of `fuzz` returns if its choices are fair and no attribute is declared too often. -/
theorem fuzz_returns (gen : XmlGen) (texts : XmlTexts) (some_ : gen.elems.keys ≠ [])
    (ample : XmlFuzz.Ample gen.elems) (idle : gen.toend = []) {draws : Draws}
    (fair : XmlFuzz.AllFair draws) :
    ∃ turns self, gen.fuzz texts turns draws = .returned self := by
  obtain ⟨body, first⟩ := @randint_ok 0 3 (by decide) draws
  obtain ⟨nelem, second⟩ := @randint_ok 1 20 (by decide) fun n => draws (n + 1)
  simp only [fuzz, idle, XmlFuzz.drawn, first, second]
  generalize decide (body ≠ 0 ∧ gen.xmlt = .xhtml1) = body
  have started := nested_start body fun n => draws (n + 1 + 1)
  have later : XmlFuzz.AllFair fun n => draws (n + 1 + 1) :=
    XmlFuzz.allFair_lasting _ 1 (XmlFuzz.allFair_lasting _ 1 fair)
  have going : XmlFuzz.Going XmlFuzz.AllFair (bodyTags body)
      (bodyTag body (.startTag "body" []) { toend := [], draws := fun n => draws (n + 1 + 1) }) :=
    ⟨started, by cases body <;> exact later⟩
  obtain ⟨after, goingAfter, turns, same⟩ :=
    @XmlFuzz.Going.elements _ _ _ texts going some_ ample nelem.toNat
  obtain ⟨last, ended, -⟩ := XmlFuzz.endTags_spec goingAfter.nested (Nat.le_refl _)
  refine ⟨turns, document gen.xmlt texts (bodyTag body (.endTag "body") last), ?_⟩
  have all := same turns (Nat.le_refl _)
  dsimp only at all
  rw [all, Outcome.bind, ended]
  rfl

theorem fuzz_returns_svg :
    ∃ turns self, XmlGen.fuzz
      { elems := { keys := ["g"], attributes := fun _ => ["id"] }, xmlt := .svg11 }
      { fuzzXmlattr := ⟨fun _ => "#", fun _ => 1⟩, fuzzRandstring := ⟨fun _ => "", fun _ => 0⟩,
        css := fun _ => ⟨fun _ => "", fun _ => 0⟩ } turns (fun n => n) = .returned self :=
  fuzz_returns _ _ (by decide) (by rw [XmlFuzz.Ample]; decide) rfl fair_counting

/-- The calls of `fuzz` of one generator, each with its random numbers; one that does not end is
the last. -/
def calls (texts : XmlTexts) : XmlGen → List (Nat × Draws) → List (Outcome XmlFuzz)
  | _, [] => []
  | gen, (turns, draws) :: others =>
      match gen.fuzz texts turns draws with
      | .returned self => .returned self :: calls texts { gen with toend := self.toend } others
      | .raised self => .raised self :: calls texts { gen with toend := self.toend } others
      | .interrupted self => [.interrupted self]

theorem fuzz_mem_calls (gen : XmlGen) (texts : XmlTexts) (turns : Nat) (draws : Draws)
    (others : List (Nat × Draws)) :
    gen.fuzz texts turns draws ∈ calls texts gen ((turns, draws) :: others) := by
  rw [calls]
  cases gen.fuzz texts turns draws with
  | returned self => exact List.mem_cons_self
  | raised self => exact List.mem_cons_self
  | interrupted self => exact List.mem_cons_self

/-- Every document that is made closes its tags, and leaves no element open. -/
theorem calls_wellNested (elems : ElementTable String) (xmlt : XmlType) (texts : XmlTexts)
    (history : List (Nat × Draws)) :
    ∀ outcome ∈ calls texts { elems, xmlt } history, WellNested outcome := by
  suffices all : ∀ gen : XmlGen, gen.toend = [] → ∀ outcome ∈ calls texts gen history,
      WellNested outcome from all _ rfl
  intro gen idle
  induction history generalizing gen with
  | nil => exact nofun
  | cons call history induction =>
      obtain ⟨turns, draws⟩ := call
      have nested := fuzz_wellNested gen idle texts turns draws
      rw [calls]
      cases ended : gen.fuzz texts turns draws with
      | returned self =>
          rw [ended] at nested
          exact List.forall_mem_cons.mpr ⟨nested, induction _ nested.2⟩
      | raised self =>
          rw [ended] at nested
          exact List.forall_mem_cons.mpr ⟨nested, induction _ nested⟩
      | interrupted self =>
          rw [ended] at nested
          exact List.forall_mem_cons.mpr ⟨nested, nofun⟩

theorem calls_wellNested_svg :
    WellNested <| fuzz
      { elems := { keys := ["g"], attributes := fun _ => ["id"] }, xmlt := .svg11 }
      { fuzzXmlattr := ⟨fun _ => "#", fun _ => 1⟩, fuzzRandstring := ⟨fun _ => "", fun _ => 0⟩,
        css := fun _ => ⟨fun _ => "", fun _ => 0⟩ } 1 fun _ => 0 :=
  calls_wellNested _ .svg11 _ [_] _ (fuzz_mem_calls _ _ _ _ [])

end XmlGen

end Segvault.Fusil
