import Mathlib.Data.List.Sort

namespace Segvault.HachoirRegex

abbrev Ref := Nat

/-! The regex classes of regex.py. -/

structure RegexRangeItem where
  -- which object it is: lists of items compare their items by identity
  identity : Nat
  cmin : Nat
  cmax : Nat
  ordered : cmin ≤ cmax
  deriving DecidableEq

/-- `itema in itemb` -/
def RegexRangeItem.within (itema itemb : RegexRangeItem) : Bool :=
  decide (itemb.cmin ≤ itema.cmin) && decide (itema.cmax ≤ itemb.cmax)

inductive Container
  | list
  | tuple
  deriving DecidableEq

/-- The regexes without a regex inside. -/
inductive Atom
  | regexEmpty
  | regexWord
  | regexStart
  | regexEnd
  | regexDot
  | regexString (text : List UInt8) (nonempty : text ≠ [])
  | regexRange (container : Container) (ranges : List RegexRangeItem)
      (exclude : Bool)
  -- a RegexRepeat of None: the parser builds one for a quantifier in braces that
  -- stands after nothing
  | regexRepeatNone (min : Nat) (max : Option Nat)
  deriving DecidableEq

/-! What the examples ask of their letters. -/

theorem a_nonempty : ([97] : List UInt8) ≠ [] := by decide

theorem b_nonempty : ([98] : List UInt8) ≠ [] := by decide

theorem c_nonempty : ([99] : List UInt8) ≠ [] := by decide

theorem a_le_a : 97 ≤ 97 := by decide

inductive Node
  | atom (leaf : Atom)
  | regexAnd (content : List Ref)
  | regexOr (content : List Ref)
  | regexRepeat (regex : Ref) (min : Nat) (max : Option Nat)

structure Object where
  node : Node
  strValue : Bool → Option (List UInt8)

structure Heap where
  objects : List Object
  items : Nat

namespace Heap

def node? (h : Heap) (ref : Ref) : Option Node :=
  h.objects[ref]?.map Object.node

def new (h : Heap) (node : Node) : Ref × Heap :=
  (h.objects.length,
    { h with objects := h.objects ++ [{ node := node, strValue := fun _ => none }] })

def setNode (h : Heap) (ref : Ref) (node : Node) : Heap :=
  { h with objects :=
      h.objects.modify ref fun object => { object with node := node } }

def content? (h : Heap) (ref : Ref) : Option (List Ref) :=
  match h.node? ref with
  | some (.regexAnd content) => some content
  | some (.regexOr content) => some content
  | _ => none

/-- `self.content[-1] = item` of a RegexAnd. -/
def setLast (h : Heap) (ref item : Ref) : Option Heap := do
  let content ← h.content? ref
  some (h.setNode ref (.regexAnd (content.dropLast ++ [item])))

def isEmpty (h : Heap) (ref : Ref) : Bool :=
  match h.node? ref with
  | some (.atom .regexEmpty) => true
  | _ => false

end Heap

inductive RegexClass
  | regexEmpty | regexWord | regexStart | regexEnd | regexDot | regexString
  | regexRange | regexAnd | regexOr | regexRepeat
  deriving DecidableEq

def Atom.class : Atom → RegexClass
  | .regexEmpty => .regexEmpty
  | .regexWord => .regexWord
  | .regexStart => .regexStart
  | .regexEnd => .regexEnd
  | .regexDot => .regexDot
  | .regexString _ _ => .regexString
  | .regexRange _ _ _ => .regexRange
  | .regexRepeatNone _ _ => .regexRepeat

def Node.class : Node → RegexClass
  | .atom leaf => leaf.class
  | .regexAnd _ => .regexAnd
  | .regexOr _ => .regexOr
  | .regexRepeat _ _ _ => .regexRepeat

/-! Constructors. -/

def createString (text : List UInt8) (h : Heap) : Ref × Heap :=
  if nonempty : text ≠ [] then h.new (.atom (.regexString text nonempty))
  else h.new (.atom .regexEmpty)

inductive RangeStep
  | absorbs (index : Nat)
  | known
  | joins (index : Nat) (cmin cmax : Nat)

/-- The loop of rangeAdd up to its break or return. -/
def rangeScan (itemb : RegexRangeItem) :
    Nat → List RegexRangeItem → Option RangeStep
  | _, [] => none
  | index, itema :: ranges =>
      if itema.within itemb then some (.absorbs index)
      else if itemb.within itema then some .known
      else if itemb.cmax + 1 = itema.cmin then
        some (.joins index itemb.cmin itema.cmax)
      else if itema.cmax + 1 = itemb.cmin then
        some (.joins index itema.cmin itemb.cmax)
      else rangeScan itemb (index + 1) ranges

def newItem (items cmin cmax : Nat) : Option (RegexRangeItem × Nat) :=
  if ordered : cmin ≤ cmax then
    some ({ identity := items, cmin := cmin, cmax := cmax, ordered := ordered },
      items + 1)
  else none

def rangeAddLoop : Nat → List RegexRangeItem → RegexRangeItem → Nat →
    Option (List RegexRangeItem × Nat)
  | 0, ranges, itemb, items => some (ranges ++ [itemb], items)
  | fuel + 1, ranges, itemb, items =>
      match rangeScan itemb 0 ranges with
      | none => some (ranges ++ [itemb], items)
      | some .known => some (ranges, items)
      | some (.absorbs index) =>
          rangeAddLoop fuel (ranges.eraseIdx index) itemb items
      | some (.joins index cmin cmax) => do
          let (new, items) ← newItem items cmin cmax
          rangeAddLoop fuel (ranges.eraseIdx index) new items

/-- Every recursive call of rangeAdd has one item less in `ranges`. -/
def rangeAdd (ranges : List RegexRangeItem) (itemb : RegexRangeItem) (items : Nat) :
    Option (List RegexRangeItem × Nat) :=
  rangeAddLoop ranges.length ranges itemb items

def rangeAddAll : List RegexRangeItem → List RegexRangeItem → Nat →
    Option (List RegexRangeItem × Nat)
  | ranges, [], items => some (ranges, items)
  | ranges, item :: rest, items => do
      let (ranges, items) ← rangeAdd ranges item items
      rangeAddAll ranges rest items

def regexRangeCharacter (char : UInt8) (items : Nat) : RegexRangeItem × Nat :=
  ({ identity := items, cmin := char.toNat, cmax := char.toNat,
      ordered := Nat.le_refl _ }, items + 1)

def regexRange (ranges : List RegexRangeItem) (exclude : Bool) (h : Heap) :
    Option (Ref × Heap) := do
  let (ranges, items) ← rangeAddAll [] ranges h.items
  let sorted := ranges.insertionSort (fun first second => first.cmin ≤ second.cmin)
  some ({ h with items := items }.new (.atom (.regexRange .list sorted exclude)))

def createRange (first second : UInt8) (h : Heap) : Option (Ref × Heap) :=
  let (itema, items) := regexRangeCharacter first h.items
  let (itemb, items) := regexRangeCharacter second items
  regexRange [itema, itemb] false { h with items := items }

end Segvault.HachoirRegex
