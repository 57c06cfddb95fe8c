import Segvault.Hachoir.InputStream
import Segvault.Ring
import Segvault.Session

namespace Segvault.Hachoir

def bufferNbMin : Nat := 256

def bufferSize : Nat := 16

structure Buffer where
  data : List UInt8
  next : Nat
  prev : Nat
  deriving DecidableEq, Repr

/-! `InputPipe`. The field `input` is what the wrapped file has still to give,
`client` the object whose method is `set_size`. -/

structure InputPipe (κ : Type) where
  input : List UInt8
  first : Nat
  address : Nat
  buffers : List (Option Buffer)
  last : Option Nat
  size : Option Nat
  client : κ

abbrev SetSize (κ : Type) := Nat → InputPipe κ → Except Failure Unit × κ

namespace InputPipe

variable {κ : Type}

abbrev Method (κ α : Type) := Session Failure (InputPipe κ) α

def new (input : List UInt8) (client : κ) : InputPipe κ :=
  { input := input, first := 0, address := 0, buffers := [], last := none,
    size := none, client := client }

def currentSize (pipe : InputPipe κ) : Nat :=
  pipe.buffers.length <<< bufferSize

def alter (buffers : List (Option Buffer)) (index : Nat)
    (change : Buffer → Buffer) : List (Option Buffer) :=
  buffers.modify index (Option.map change)

-- `self.buffers[index]`, used as a buffer.
def buffer (index : Nat) : Method κ Buffer := do
  let pipe ← get
  match pipe.buffers[index]? with
  | none => throw .indexError
  | some none => throw .typeError
  | some (some buf) => pure buf

def setNext (index value : Nat) : Method κ PUnit := do
  let _ ← buffer index
  modify fun pipe =>
    { pipe with
      buffers := alter pipe.buffers index fun buf => { buf with next := value } }

def setPrev (index value : Nat) : Method κ PUnit := do
  let _ ← buffer index
  modify fun pipe =>
    { pipe with
      buffers := alter pipe.buffers index fun buf => { buf with prev := value } }

def append (data : List UInt8) : Method κ PUnit := do
  let pipe ← get
  match pipe.last with
  | none =>
      set { pipe with
        last := some 0
        buffers := pipe.buffers ++ [some (Buffer.mk data 0 0)] }
  | some prev => do
      let last ← buffer prev
      let next := last.next
      let index := pipe.buffers.length
      modify fun pipe => { pipe with last := some index }
      setPrev next index
      setNext prev index
      modify fun pipe =>
        { pipe with buffers := pipe.buffers ++ [some (Buffer.mk data next prev)] }

def buffersTooSmall : String := "Error: Buffers too small. Can't seek backward."

def touch (index : Nat) (buf : Buffer) : Method κ PUnit := do
  setPrev buf.next buf.prev
  setNext buf.prev buf.next
  let pipe ← get
  match pipe.last with
  | none => throw .typeError
  | some last => do
      let newest ← buffer last
      let first := newest.next
      setNext index first
      setPrev index last
      setPrev first index
      setNext last index
      modify fun pipe => { pipe with last := some index }

def getBuffer (index : Nat) : Method κ (List UInt8) := do
  let pipe ← get
  match pipe.buffers[index]? with
  | none => pure []
  | some none => throw (.inputStreamError buffersTooSmall)
  | some (some buf) => do
      if pipe.last ≠ some index then touch index buf
      pure buf.data

-- The loop `while self.first < lim`, which takes `lim - self.first` turns at most.
def flushLoop : Nat → Method κ PUnit
  | 0 => pure ⟨⟩
  | turns + 1 => do
      let pipe ← get
      let buf ← buffer pipe.first
      match pipe.last with
      | none => pure ⟨⟩
      | some last =>
          if buf.prev ≠ last then pure ⟨⟩
          else do
            setNext last buf.next
            setPrev buf.next last
            modify fun pipe =>
              { pipe with
                buffers := pipe.buffers.set pipe.first none
                first := pipe.first + 1 }
            flushLoop turns

def flush : Method κ PUnit := do
  let pipe ← get
  flushLoop (pipe.buffers.length - bufferNbMin - pipe.first)

def seek (address : Nat) : Method κ PUnit :=
  modify fun pipe => { pipe with address := address }

variable (setSize : Option (SetSize κ))

def notify (size : Nat) : Method κ PUnit :=
  match setSize with
  | none => pure ⟨⟩
  | some callback => do
      let pipe ← get
      let (answer, client) := callback size pipe
      set { pipe with client := client }
      match answer with
      | .ok _ => pure ⟨⟩
      | .error failure => throw failure

def readInput (size : Nat) : Method κ (List UInt8) := do
  let pipe ← get
  set { pipe with input := pipe.input.drop size }
  pure (pipe.input.take size)

-- The loop over `xrange(len(self.buffers), (end >> self.buffer_size) + 1)`.
def fill : Nat → Method κ PUnit
  | 0 => pure ⟨⟩
  | turns + 1 => do
      let data ← readInput (1 <<< bufferSize)
      if data.length < 1 <<< bufferSize then do
        let pipe ← get
        let size := (pipe.buffers.length <<< bufferSize) + data.length
        set { pipe with size := some size }
        notify setSize size
        if data ≠ [] then append data
      else do
        append data
        fill turns

def join : List Nat → Method κ (List UInt8)
  | [] => pure []
  | index :: indices => do
      let data ← getBuffer index
      let rest ← join indices
      pure (data ++ rest)

-- `xrange(block, (end - 1 >> self.buffer_size) + 1)`; `-1 >> 16` is `-1`.
def blocks (address size : Nat) : List Nat :=
  let stop :=
    if address + size = 0 then 0 else ((address + size - 1) >>> bufferSize) + 1
  List.range' (address >>> bufferSize) (stop - address >>> bufferSize)

def read (size : Nat) : Method κ (List UInt8) := do
  let pipe ← get
  let stop := pipe.address + size
  fill setSize ((stop >>> bufferSize) + 1 - pipe.buffers.length)
  let offset := pipe.address % (1 <<< bufferSize)
  let data ← join (blocks pipe.address size)
  let data := slice data offset size
  flush
  modify fun pipe => { pipe with address := pipe.address + data.length }
  pure data

end InputPipe

end Segvault.Hachoir
