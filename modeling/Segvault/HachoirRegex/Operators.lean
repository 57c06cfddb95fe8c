import Segvault.HachoirRegex.Regex

namespace Segvault.HachoirRegex

/-! The methods of the regex classes. `none` is an exception or a lack of fuel;
a method that returns None in the source returns `some (none, _)`. -/

/-! `==` -/

mutual

def dunderEq (fuel : Nat) (self regex : Ref) (h : Heap) : Option Bool :=
  match fuel with
  | 0 => none
  | fuel + 1 => do
      match ← h.node? self, ← h.node? regex with
      | .atom a, .atom b => some (decide (a = b))
      | .regexAnd content, .regexAnd other =>
          if content.length ≠ other.length then some false
          else allEq fuel (content.zip other) h
      | .regexOr content, .regexOr other =>
          if content.length ≠ other.length then some false
          else allEq fuel (content.zip other) h
      | .regexRepeat item min max, .regexRepeat other omin omax =>
          if min ≠ omin then some false
          else if max ≠ omax then some false
          else dunderEq fuel item other h
      | _, _ => some false
termination_by structural fuel

def allEq (fuel : Nat) (pairs : List (Ref × Ref)) (h : Heap) : Option Bool :=
  match fuel with
  | 0 => none
  | fuel + 1 =>
      match pairs with
      | [] => some true
      | (first, second) :: pairs => do
          if ← dunderEq fuel first second h then allEq fuel pairs h
          else some false
termination_by structural fuel

end

/-- `regex in self.content` of a RegexOr. -/
def contains (fuel : Nat) (content : List Ref) (regex : Ref) (h : Heap) :
    Option Bool :=
  match content with
  | [] => some false
  | item :: content => do
      if ← dunderEq fuel item regex h then some true
      else contains fuel content regex h

def matchSingleValue (fuel : Nat) (regex : Ref) (h : Heap) : Option Bool :=
  match fuel with
  | 0 => none
  | fuel + 1 => do
      match ← h.node? regex with
      | .atom .regexEmpty => some true
      | .atom (.regexString _ _) => some true
      | .atom .regexStart => some true
      | .atom .regexEnd => some true
      | .atom (.regexRange _ ranges _) =>
          match ranges with
          | [item] => some (decide (item.cmax - item.cmin + 1 = 1))
          | _ => some false
      | .regexAnd content =>
          content.allM fun item => matchSingleValue fuel item h
      | _ => some false
termination_by structural fuel

/-! `&` -/

mutual

/-- `_and` -/
def underAnd (fuel : Nat) (self regex : Ref) (h : Heap) :
    Option (Option Ref × Heap) :=
  match fuel with
  | 0 => none
  | fuel + 1 => do
      match ← h.node? self, ← h.node? regex with
      | .atom .regexEmpty, _ => some (some regex, h)
      | .atom .regexWord, .atom .regexWord => some (some self, h)
      | .atom .regexStart, .atom .regexStart => some (some self, h)
      | .atom .regexEnd, .atom .regexEnd => some (some self, h)
      | .atom (.regexString text _), .atom (.regexString other _) =>
          let (new, h) := createString (text ++ other) h
          some (some new, h)
      | .regexAnd _, .regexAnd _ => do
          let (total, h) ← andItems fuel self regex 0 h
          some (some total, h)
      | .regexAnd content, _ => do
          let last ← content.getLast?
          let (newItem, h) ← underAnd fuel last regex h
          match newItem with
          | some newItem => do
              let h ← h.setLast self newItem
              some (some self, h)
          | none => do
              let content ← h.content? self
              let (new, h) := h.new (.regexAnd (content ++ [regex]))
              some (some new, h)
      | _, _ => some (none, h)
termination_by structural fuel

/-- The loop `for item in regex.content: total = total + item` from the item at
`index` on: the list is read again at every step. -/
def andItems (fuel : Nat) (total regex : Ref) (index : Nat) (h : Heap) :
    Option (Ref × Heap) :=
  match fuel with
  | 0 => none
  | fuel + 1 => do
      let content ← h.content? regex
      match content[index]? with
      | none => some (total, h)
      | some item => do
          let (total, h) ← dunderAnd fuel total item h
          andItems fuel total regex (index + 1) h
termination_by structural fuel

/-- `&` -/
def dunderAnd (fuel : Nat) (self regex : Ref) (h : Heap) : Option (Ref × Heap) :=
  match fuel with
  | 0 => none
  | fuel + 1 =>
      if h.isEmpty regex then some (self, h)
      else do
        let (newRegex, h) ← underAnd fuel self regex h
        match newRegex with
        | some newRegex => some (newRegex, h)
        | none => some (h.new (.regexAnd [self, regex]))
termination_by structural fuel

end

/-- The loop of `_join` with `&`. -/
def joinItems (fuel : Nat) (regex : Ref) (items : List Ref) (h : Heap) :
    Option (Ref × Heap) :=
  match items with
  | [] => some (regex, h)
  | item :: items => do
      let (regex, h) ← dunderAnd fuel regex item h
      joinItems fuel regex items h

/-- `RegexAnd.join` -/
def join (fuel : Nat) (regexList : List Ref) (h : Heap) : Option (Ref × Heap) :=
  match regexList with
  | [] => some (h.new (.atom .regexEmpty))
  | regex :: items => joinItems fuel regex items h

/-! `|` -/

/-- `_match` -/
def underMatch (self other : Ref) (h : Heap) : Option Bool := do
  match ← h.node? self, ← h.node? other with
  | .atom .regexDot, .atom (.regexRange _ _ _) => some true
  | .atom .regexDot, .atom (.regexString text _) =>
      some (decide (text.length = 1))
  | .atom (.regexRange _ ranges false), .atom (.regexString [char] _) =>
      some (ranges.any (regexRangeCharacter char 0).1.within)
  | .atom (.regexRange _ ranges exclude), .atom (.regexRange _ branges bexclude) =>
      if exclude = bexclude then
        some (branges.all fun itemb => ranges.any itemb.within)
      else some false
  | _, _ => some false

/-- The loop over the lengths of a common prefix in findPrefix. -/
def commonPrefix (texta textb : List UInt8) : List Nat → Nat → Nat
  | [], common => common
  | length :: lengths, common =>
      if texta.take length <+: textb then commonPrefix texta textb lengths length
      else common

def findPrefix (self regex : Ref) (h : Heap) :
    Option (Option (Ref × Ref × Ref) × Heap) := do
  match ← h.node? self, ← h.node? regex with
  | .atom (.regexString [chara] _), .atom (.regexString [charb] _) =>
      let (range, h) ← createRange chara charb h
      let (resta, h) := h.new (.atom .regexEmpty)
      let (restb, h) := h.new (.atom .regexEmpty)
      some (some (range, resta, restb), h)
  | .atom (.regexString texta _), .atom (.regexString textb _) =>
      let lengths := List.range' 1 (min texta.length textb.length)
      let common := commonPrefix texta textb lengths 0
      if common = 0 then some (none, h)
      else
        let (shared, h) := createString (texta.take common) h
        let (resta, h) := createString (texta.drop common) h
        let (restb, h) := createString (textb.drop common) h
        some (some (shared, resta, restb), h)
  | _, _ => some (none, h)

/-- The number of leading items of two contents that are equal. -/
def commonItems (fuel : Nat) (contenta contentb : List Ref) (h : Heap) :
    Option Nat :=
  match contenta, contentb with
  | itema :: contenta, itemb :: contentb => do
      if ← dunderEq fuel itema itemb h then
        let index ← commonItems fuel contenta contentb h
        some (index + 1)
      else some 0
  | _, _ => some 0

/-- `contentb` of `RegexAnd._or_`, as it stands in the heap. -/
def operandContent (other : Ref) (h : Heap) : Option (List Ref) :=
  match h.node? other with
  | some (.atom (.regexString _ _)) => some [other]
  | some (.regexAnd content) => some content
  | _ => none

/-- The items that the constructor of RegexOr keeps. -/
def orContent (fuel : Nat) (content items : List Ref) (h : Heap) :
    Option (List Ref) :=
  match items with
  | [] => some content
  | item :: items => do
      if ← contains fuel content item h then orContent fuel content items h
      else orContent fuel (content ++ [item]) items h

def regexOr (fuel : Nat) (items : List Ref) (h : Heap) : Option (Ref × Heap) := do
  let content ← orContent fuel [] items h
  if 2 ≤ content.length then some (h.new (.regexOr content)) else none

/-- `_or_` of RegexRange, when it does not return None. -/
def rangeOr (ranges branges : List RegexRangeItem) (exclude : Bool) (h : Heap) :
    Option (Ref × Heap) := do
  let (ranges, items) ← rangeAddAll ranges branges h.items
  some ({ h with items := items }.new (.atom (.regexRange .tuple ranges exclude)))

mutual

/-- `_or_` -/
def underOr (fuel : Nat) (self other : Ref) (reverse : Bool) (h : Heap) :
    Option (Option Ref × Heap) :=
  match fuel with
  | 0 => none
  | fuel + 1 => do
      match ← h.node? self, ← h.node? other with
      | .atom (.regexString _ _), .atom (.regexString _ _) => do
          let (common, h) ← findPrefix self other h
          match common with
          | none => some (none, h)
          | some (shared, resta, restb) => do
              let (regex, h) ←
                if reverse then dunderOr fuel restb resta h
                else dunderOr fuel resta restb h
              let (regex, h) ← dunderAnd fuel shared regex h
              some (some regex, h)
      | .atom (.regexRange _ ranges false), .atom (.regexString [char] _) => do
          let (itemb, items) := regexRangeCharacter char h.items
          let (regex, h) ← rangeOr ranges [itemb] false { h with items := items }
          some (some regex, h)
      | .atom (.regexRange _ ranges exclude),
          .atom (.regexRange _ branges bexclude) =>
          if exclude = bexclude then do
            let (regex, h) ← rangeOr ranges branges exclude h
            some (some regex, h)
          else some (none, h)
      | .regexAnd _, .atom (.regexString _ _) => andOr fuel self other reverse h
      | .regexAnd _, .regexAnd _ => andOr fuel self other reverse h
      | .regexOr _, .regexOr items => do
          let (total, h) ← orItems fuel self items h
          some (some total, h)
      | .regexOr content, _ => do
          let (regex, h) ← orEach fuel content 0 self other reverse h
          some (some regex, h)
      | _, _ => some (none, h)
termination_by structural fuel

/-- `_or_` of RegexAnd, past the test of the class of `other`. -/
def andOr (fuel : Nat) (self other : Ref) (reverse : Bool) (h : Heap) :
    Option (Option Ref × Heap) :=
  match fuel with
  | 0 => none
  | fuel + 1 => do
      let first := if reverse then other else self
      let second := if reverse then self else other
      let index ← commonItems fuel (← operandContent first h)
        (← operandContent second h) h
      if index ≠ 0 then do
        let (resta, h) ← join fuel ((← operandContent first h).drop index) h
        let (restb, h) ← join fuel ((← operandContent second h).drop index) h
        let (regex, h) ← dunderOr fuel resta restb h
        let (shared, h) ← join fuel ((← operandContent first h).take index) h
        let (regex, h) ← dunderAnd fuel shared regex h
        some (some regex, h)
      else do
        let heada ← (← operandContent first h).head?
        let headb ← (← operandContent second h).head?
        let (common, h) ← findPrefix heada headb h
        match common with
        | none => some (none, h)
        | some (shared, resta, restb) => do
            let (taila, h) ← join fuel ((← operandContent first h).drop 1) h
            let (regexa, h) ← dunderAnd fuel resta taila h
            let (tailb, h) ← join fuel ((← operandContent second h).drop 1) h
            let (regexb, h) ← dunderAnd fuel restb tailb h
            let (regex, h) ← dunderOr fuel regexa regexb h
            let single ← matchSingleValue fuel shared h
            let single ← if single then some true else matchSingleValue fuel regex h
            if single then do
              let (regex, h) ← dunderAnd fuel shared regex h
              some (some regex, h)
            else some (none, h)
termination_by structural fuel

/-- The loop `for item in other.content: total = total | item`. -/
def orItems (fuel : Nat) (total : Ref) (items : List Ref) (h : Heap) :
    Option (Ref × Heap) :=
  match fuel with
  | 0 => none
  | fuel + 1 =>
      match items with
      | [] => some (total, h)
      | item :: items => do
          let (total, h) ← dunderOr fuel total item h
          orItems fuel total items h
termination_by structural fuel

/-- The loop `for index, item in enumerate(self.content)` of `RegexOr._or_`, with
`content` the items from `index` on. -/
def orEach (fuel : Nat) (content : List Ref) (index : Nat) (self other : Ref)
    (reverse : Bool) (h : Heap) : Option (Ref × Heap) :=
  match fuel with
  | 0 => none
  | fuel + 1 => do
      match content with
      | [] => do
          let content ← h.content? self
          if reverse then some (h.new (.regexOr (other :: content)))
          else some (h.new (.regexOr (content ++ [other])))
      | item :: rest => do
          let (newItem, h) ← or_ fuel item other h
          match newItem with
          | some newItem => do
              let content ← h.content? self
              some (h.new (.regexOr
                (content.take index ++ [newItem] ++ content.drop (index + 1))))
          | none => orEach fuel rest (index + 1) self other reverse h
termination_by structural fuel

def or_ (fuel : Nat) (self other : Ref) (h : Heap) :
    Option (Option Ref × Heap) :=
  match fuel with
  | 0 => none
  | fuel + 1 => do
      if ← dunderEq fuel self other h then some (some self, h)
      else if ← underMatch self other h then some (some self, h)
      else if ← underMatch other self h then some (some other, h)
      else if (← h.node? self).class ≠ (← h.node? other).class then do
        let (newRegex, h) ← underOr fuel self other false h
        match newRegex with
        | some newRegex => some (some newRegex, h)
        | none => underOr fuel other self true h
      else underOr fuel self other false h
termination_by structural fuel

/-- `|` -/
def dunderOr (fuel : Nat) (self other : Ref) (h : Heap) : Option (Ref × Heap) :=
  match fuel with
  | 0 => none
  | fuel + 1 => do
      let (newRegex, h) ← or_ fuel self other h
      match newRegex with
      | some newRegex => some (newRegex, h)
      | none => regexOr fuel [self, other] h
termination_by structural fuel

end

end Segvault.HachoirRegex
