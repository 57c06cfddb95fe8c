import Segvault.Scan

namespace Segvault.Hachoir

open Scan

/-! Searching a stream for files: `search.py`. Offsets are in bits, as in the source. -/

/-- A string, or a regex by the texts that it matches as a whole, with its maximum length. -/
inductive Pattern
  | string (text : List UInt8)
  | regex (maxLength : Nat) (language : List UInt8 → Bool)

namespace Pattern

def maxLength : Pattern → Nat
  | .string text => text.length
  | .regex maxLength _ => maxLength

def fullMatch : Pattern → List UInt8 → Bool
  | .string text, data => decide (data = text)
  | .regex _ language, data => language data

/-- `data` is a key of `string_dict`. -/
def isString : Pattern → List UInt8 → Bool
  | .string text, data => decide (data = text)
  | .regex _ _, _ => false

/-- `match` of a compiled regex: at the beginning of the data. -/
def regexMatch : Pattern → List UInt8 → Bool
  | .string _, _ => false
  | .regex _ language, data =>
      (List.range (data.length + 1)).any fun size => language (data.take size)

end Pattern

/-- A pattern with its `user` value. -/
structure Magic (Parser : Type) where
  pattern : Pattern
  offset : Int
  parser : Parser

/-- What `guess` returns, as far as the search asks. -/
structure Subfile where
  contentSize : Option Nat
  skip : Bool

/-- The settings of a search. `compiledRegex` is the regex that merges all patterns: where its
match at a position of the data ends. `guess` is the parser tried at an offset. -/
structure SearchSubfile (Parser : Type) where
  stream : List UInt8
  offset : Nat
  limit : Option Nat
  sliceBytes : Nat
  magics : List (Magic Parser)
  compiledRegex : List UInt8 → Nat → Option Nat
  guess : Nat → Parser → Option Subfile

/-- `tried` and `found` are kept for the record: the position and the pattern of each candidate,
and the position of each file that is skipped with the offset after it. -/
structure SearchState where
  currentOffset : Nat
  nextOffset : Option Nat := none
  tried : List (Nat × Nat) := []
  found : List (Nat × Nat) := []
  deriving DecidableEq

namespace SearchState

def tries (state : SearchState) (candidate : Nat × Nat) : SearchState :=
  { state with tried := state.tried ++ [candidate] }

def skipsTo (state : SearchState) (position next : Nat) : SearchState :=
  { state with nextOffset := some next, found := state.found ++ [(position, next)] }

end SearchState

namespace SearchSubfile

variable {Parser : Type}

def size (search : SearchSubfile Parser) : Nat :=
  match search.limit with
  | some limit => min (8 * search.stream.length) ((search.offset + limit) * 8)
  | none => 8 * search.stream.length

def startOffset (search : SearchSubfile Parser) : Nat := search.offset * 8

def maxLength (search : SearchSubfile Parser) : Nat :=
  search.magics.foldl (fun length magic => max length magic.pattern.maxLength) 0

/-- As `mainHeader` leaves it. -/
def sliceSize (search : SearchSubfile Parser) : Nat :=
  max (search.sliceBytes * 8) (search.maxLength * 8)

/-- The index of the pattern: a string if there is one, else the first regex that matches. -/
def getPattern (search : SearchSubfile Parser) (data : List UInt8) : Option Nat :=
  match search.magics.findIdx? fun magic => magic.pattern.isString data with
  | some index => some index
  | none => search.magics.findIdx? fun magic => magic.pattern.regexMatch data

/-- `PatternMatching.search`, before the items are looked up. -/
def patternMatches (search : SearchSubfile Parser) (data : List UInt8) : List (Nat × Nat) :=
  if search.maxLength = 0 then []
  else finditer (search.compiledRegex data) data.length (data.length + 1) 0

/-- The bytes between two positions. -/
def bytes (search : SearchSubfile Parser) (first stop : Nat) : List UInt8 :=
  (search.stream.drop first).take (stop - first)

/-- An offset that is not one of a byte is an error. -/
def readBytes (search : SearchSubfile Parser) (address count : Nat) : Option (List UInt8) :=
  if address % 8 ≠ 0 then none
  else some (search.bytes (address / 8) (address / 8 + count))

/-- The body of the loop of `findMagic`: the tests of the offset, the parser, and the skip. The
flag is that of the `break`. -/
def findMagicMatch (search : SearchSubfile Parser) (start stop : Nat) (data : List UInt8)
    (first last : Nat) (state : SearchState) : Option (SearchState × Bool) := do
  let index ← search.getPattern ((data.drop first).take (last - first))
  let magic ← search.magics[index]?
  let offset : Int := first * 8 - magic.offset + start
  if offset < 0 then return (state, false)
  else if state.nextOffset.any fun next : Nat => offset < next then return (state, false)
  else
    let state := state.tries (start + first * 8, index)
    match search.guess offset.toNat magic.parser with
    | some ⟨some contentSize, true⟩ =>
        let next := offset.toNat + contentSize
        return (state.skipsTo (start + first * 8) next, decide (stop ≤ next))
    | _ => return (state, false)

def findMagicLoop (search : SearchSubfile Parser) (start stop : Nat) (data : List UInt8) :
    List (Nat × Nat) → SearchState → Option SearchState
  | [], state => some state
  | (first, last) :: matched, state => do
      let (state, finished) ← search.findMagicMatch start stop data first last state
      if finished then return state
      else search.findMagicLoop start stop data matched state

/-- The end of the slice that begins at an offset. -/
def sliceEnd (search : SearchSubfile Parser) (offset : Nat) : Nat :=
  min (offset + search.sliceSize) search.size

def findMagic (search : SearchSubfile Parser) (state : SearchState) : Option SearchState := do
  let start := state.currentOffset
  let stop := search.sliceEnd start
  let data ← search.readBytes start ((stop - start) / 8)
  search.findMagicLoop start stop data (search.patternMatches data) state

/-- Where the slice after this one begins. -/
def nextSlice (search : SearchSubfile Parser) (state : SearchState) : Nat :=
  min (max (state.currentOffset + search.sliceSize) (state.nextOffset.getD 0)) search.size

/-- One round of the loop of `searchSubfiles`. -/
def searchStep (search : SearchSubfile Parser) (state : SearchState) : Option SearchState := do
  let state ← search.findMagic state
  return { state with currentOffset := search.nextSlice state }

def searchLoop (search : SearchSubfile Parser) : Nat → SearchState → Option SearchState
  | 0, _ => none
  | fuel + 1, state =>
      if state.currentOffset < search.size then do
        let state ← search.searchStep state
        search.searchLoop fuel state
      else some state

/-- Every round goes on by a bit at least, unless the slices are empty. -/
def searchSubfiles (search : SearchSubfile Parser) : Option SearchState :=
  search.searchLoop (search.size + 1) { currentOffset := search.startOffset }

end SearchSubfile

end Segvault.Hachoir
