import Segvault.Hachoir.SearchBytes

namespace Segvault.Hachoir

/-! The methods a stream is read through by another stream. -/

structure StreamMethods (σ : Type) where
  read : Nat → Nat → Session Failure σ Chunk
  sizeGe : Nat → Session Failure σ Bool
  size : Session Failure σ (Option Nat)

section

variable {m : Type → Type} [Monad m]
  (currentSize : m Nat) (size : m (Option Nat)) (feed : Nat → m Bool)

-- `None < self._size < size` is false when the size is not known.
def InputStream.sizeGe (wanted : Nat) : m Bool := do
  let current ← currentSize
  if wanted ≤ current then pure true
  else
    match ← size with
    | some size =>
        if size < wanted then pure false
        else do
          let missing ← feed wanted
          pure !missing
    | none => do
        let missing ← feed wanted
        pure !missing

end

def StringInputStream.methods : StreamMethods StringInputStream where
  read := fun address size => do
    let stream ← get
    lift (stream.read address size)
  sizeGe := InputStream.sizeGe
    (do let stream ← get; pure (8 * stream.data.length))
    (do let stream ← get; pure (some (8 * stream.data.length)))
    (fun size => do
      let stream ← get
      let (_, _, missing) ← lift (stream.read (size - 1) 1)
      pure missing)
  size := do
    let stream ← get
    pure (some (8 * stream.data.length))

-- `tools.lowerBound`; `m` is always inside `seq`.
def lowerBoundLoop {α : Type} (seq : List α) (cmpFunc : α → Bool) : Nat → Nat → Nat → Nat
  | 0, f, _ => f
  | turns + 1, f, l =>
      if 0 < l then
        let h := l >>> 1
        let m := f + h
        if (seq[m]?).any cmpFunc then lowerBoundLoop seq cmpFunc turns (m + 1) (l - (h + 1))
        else lowerBoundLoop seq cmpFunc turns f h
      else f

def lowerBound {α : Type} (seq : List α) (cmpFunc : α → Bool) : Nat :=
  lowerBoundLoop seq cmpFunc seq.length 0 seq.length

/-! `FragmentedStream`. The field `next` holds what `getData` gives for the fragment
`self.next` and for those linked after it. -/

structure DataField where
  absoluteAddress : Nat
  size : Nat
  deriving DecidableEq, Repr

structure FragmentedStream (σ : Type) where
  stream : σ
  fragments : List (Nat × Nat × Nat)
  next : List (Option DataField)
  currentSize : Nat
  size : Option Nat
  deriving DecidableEq, Repr

namespace FragmentedStream

variable {σ : Type}

abbrev Method (σ α : Type) := Session Failure (FragmentedStream σ) α

def setSize : Method σ PUnit := do
  let fragmented ← get
  if fragmented.size.any fun size => decide (size < fragmented.currentSize) then
    throw .assertionError
  else if fragmented.size ≠ some fragmented.currentSize then do
    set { fragmented with size := some fragmented.currentSize }
    if fragmented.currentSize = 0 then throw .nullStreamError else pure ⟨⟩
  else pure ⟨⟩

def new (stream : σ) (data : DataField) (next : List (Option DataField)) :
    Except Failure (FragmentedStream σ) :=
  let fragmented : FragmentedStream σ :=
    { stream := stream, fragments := [(0, data.absoluteAddress, data.size)], next := next,
      currentSize := 0, size := none }
  if next = [] then
    match Session.perform setSize { fragmented with currentSize := data.size } with
    | (.ok _, fragmented) => .ok fragmented
    | (.error failure, _) => .error failure
  else .ok fragmented

-- A method of `self.stream`.
def onStream {α : Type} (action : Session Failure σ α) : Method σ α := do
  let fragmented ← get
  let (result, stream) := Session.perform action fragmented.stream
  set { fragmented with stream := stream }
  lift result

def checked (fragmented : FragmentedStream σ) : Bool :=
  fragmented.size = some fragmented.currentSize

variable (methods : StreamMethods σ)

def setCurrent (current : Nat) : Method σ PUnit :=
  modify fun fragmented => { fragmented with currentSize := current }

-- `self._current_size = current`, then `self._setSize()` and `return True`.
def ended (current : Nat) : Method σ Bool := do
  setCurrent current
  setSize
  pure true

-- A turn of the `while` loop of `_feed`, up to `if f`: what it returns, if it does.
def feedTurn (stop : Nat) (last : Bool) (a fa fs : Nat) : Method σ (Option Bool) := do
  let enough ← onStream (methods.sizeGe (fa + min fs (stop - a)))
  if enough then
    if stop ≤ a + fs then do
      setCurrent stop
      if a + fs = stop ∧ last then setSize
      pure (some false)
    else pure none
  else
    match ← onStream methods.size with
    | none => throw .typeError
    | some size => do
        let missing ← ended (a + (size - fa))
        pure (some missing)

-- The loop; the list is `self.next`.
def feedLoop (stop : Nat) : List (Option DataField) → Nat → Nat → Nat → Method σ Bool
  | [], a, fa, fs => do
      match ← feedTurn methods stop true a fa fs with
      | some missing => pure missing
      | none => ended (a + fs)
  | none :: rest, a, fa, fs => do
      match ← feedTurn methods stop false a fa fs with
      | some missing => pure missing
      | none => do
          modify fun fragmented => { fragmented with next := rest }
          ended (a + fs)
  | some data :: rest, a, fa, fs => do
      match ← feedTurn methods stop false a fa fs with
      | some missing => pure missing
      | none => do
          modify fun fragmented =>
            { fragmented with
              next := rest
              fragments :=
                fragmented.fragments ++ [(a + fs, data.absoluteAddress, data.size)] }
          feedLoop stop rest (a + fs) data.absoluteAddress data.size

def feed (stop : Nat) : Method σ Bool := do
  let fragmented ← get
  if fragmented.currentSize < stop then
    if fragmented.checked then
      throw (.readStreamError (stop - fragmented.currentSize) fragmented.currentSize none)
    else
      match fragmented.fragments.getLast? with
      | none => throw .indexError
      | some (a, fa, fs) => feedLoop methods stop fragmented.next a fa fs
  else pure false

-- A turn of the `while` loop of `read`: the shift, the bytes and the size left.
def joinTurn (fa fs size : Nat) (s : Option Nat) : Method σ (Nat × List UInt8 × Nat) := do
  let n := min fs size
  let (u, v, w) ← onStream (methods.read fa n)
  if w then throw .assertionError
  else if s.isSome ∧ u ≠ 0 then throw .assertionError
  else pure (s.getD u, v, size - n)

-- The loop; the list is `self.fragments[i:]`.
def joinLoop : List (Nat × Nat × Nat) → Nat → Nat → Nat → Option Nat →
    Method σ (Nat × List UInt8)
  | [], fa, fs, size, s => do
      let (s, v, size) ← joinTurn methods fa fs size s
      if size = 0 then pure (s, v) else throw .indexError
  | (_, nextFa, nextFs) :: rest, fa, fs, size, s => do
      let (s, v, size) ← joinTurn methods fa fs size s
      if size = 0 then pure (s, v)
      else do
        let (s, data) ← joinLoop rest nextFa nextFs size (some s)
        pure (s, v ++ data)

def join (address size : Nat) (missing : Bool) : Method σ Chunk := do
  let fragmented ← get
  let i := lowerBound fragmented.fragments fun fragment => fragment.1 ≤ address
  match fragmented.fragments[i - 1]? with
  | none => throw .indexError
  | some (a, fa, fs) => do
      let (s, data) ← joinLoop methods (fragmented.fragments.drop i) (fa + (address - a))
        (fs - (address - a)) size none
      pure (s, data, missing)

def read (address size : Nat) : Method σ Chunk :=
  if size = 0 then throw .assertionError
  else do
    let missing ← feed methods (address + size)
    if missing then do
      let fragmented ← get
      match fragmented.size with
      | none => throw .typeError
      | some whole =>
          if whole ≤ address then pure (0, [], true)
          else join methods address (whole - address) true
    else join methods address size false

end FragmentedStream

end Segvault.Hachoir
