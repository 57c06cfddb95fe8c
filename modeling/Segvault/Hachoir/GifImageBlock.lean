import Segvault.Hachoir.BitFields
import Segvault.Lzw

namespace Segvault.Hachoir

open BitString

/-! `GifImageBlock.createFields`. -/

/-- A `code[]` field. -/
structure CodeField where
  address : Nat
  size : Nat
  value : Nat
  deriving DecidableEq, Repr

-- The value of a field whose bits cannot be read is None, which is below every number: the
-- code passes for a literal, and its description fails.
def codeField (stream : StringInputStream) (address nbits : Nat) :
    Except Failure CodeField :=
  match stream.readBits address nbits .littleEndian with
  | .ok value => .ok ⟨address, nbits, value⟩
  | .error _ => .error .typeError

def paddingSize (value align : Nat) : Nat :=
  if value % align ≠ 0 then align - value % align else 0

namespace GifImageBlock

/-- The variables of `createFields` between two codes. -/
structure State where
  nbits : Nat
  dictionary : List (Nat × List Nat)
  compressCode : Nat
  obuf : List Nat
  output : List Nat
  currentSize : Nat
  deriving DecidableEq, Repr

def State.start (startbits : Nat) : State :=
  ⟨startbits, [], 2 ^ startbits + 2, [], [], 0⟩

/-- The number of bits of the next code. -/
def State.width (state : State) : Nat :=
  if state.compressCode ≥ 2 ^ state.nbits then state.nbits + 1 else state.nbits

def State.reset (state : State) (startbits size : Nat) : State :=
  { state with
    nbits := startbits + 1
    dictionary := []
    compressCode := 2 ^ startbits + 2
    obuf := []
    currentSize := state.currentSize + size }

def State.literal (state : State) (value : Nat) : State :=
  { state with
    nbits := state.width
    dictionary :=
      if state.obuf ≠ [] then
        (state.compressCode, state.obuf ++ [value]) :: state.dictionary
      else state.dictionary
    compressCode :=
      if state.obuf ≠ [] then state.compressCode + 1 else state.compressCode
    obuf := [value]
    output := state.output ++ [value]
    currentSize := state.currentSize + state.width }

def State.compression (state : State) (value : Nat) : Except Failure State :=
  let found : Except Failure (List Nat) :=
    match state.dictionary.lookup value with
    | some chain => .ok chain
    | none =>
        match state.obuf with
        | [] => .error .indexError
        | first :: _ => .ok (state.obuf ++ [first])
  match found with
  | .error failure => .error failure
  | .ok [] => .error .indexError
  | .ok (first :: chain) =>
      .ok
        { state with
          nbits := state.width
          dictionary := (state.compressCode, state.obuf ++ [first]) :: state.dictionary
          compressCode := state.compressCode + 1
          obuf := first :: chain
          output := state.output ++ first :: chain
          currentSize := state.currentSize + state.width }

/-- One turn of the loop: the field it yields and the state it leaves, or None where the
    field is the end code. -/
def turn (startbits : Nat) (stream : StringInputStream) (state : State) :
    Except Failure (CodeField × Option State) := do
  let clearCode := 2 ^ startbits
  let endCode := clearCode + 1
  let code ← codeField stream state.currentSize state.width
  if code.value = clearCode then
    if state.compressCode = 2 ^ (state.width - 1) then
      -- The reset code is expressed with the old number of bits.
      let code ← codeField stream state.currentSize (state.width - 1)
      pure (code, some (state.reset startbits code.size))
    else pure (code, some (state.reset startbits code.size))
  else if code.value = endCode then pure (code, none)
  else if code.value < clearCode then pure (code, some (state.literal code.value))
  else do
    let next ← state.compression code.value
    pure (code, some next)

/-- How `createFields` ends: the size of the padding field, 0 where there is none, and
    the decoded output. -/
structure Ending where
  padding : Nat
  output : List Nat
  deriving DecidableEq, Repr

def codesFrom (startbits : Nat) (stream : StringInputStream) :
    Nat → State → List CodeField × Except Failure Ending
  | 0, _ => ([], .error .unfinished)
  | fuel + 1, state =>
      match turn startbits stream state with
      | .error failure => ([], .error failure)
      | .ok (code, none) =>
          ([code], .ok ⟨paddingSize (state.currentSize + code.size) 8, state.output⟩)
      | .ok (code, some next) =>
          let rest := codesFrom startbits stream fuel next
          (code :: rest.1, rest.2)

-- Every code takes a bit at least.
def createFields (startbits : Nat) (data : List UInt8) :
    List CodeField × Except Failure Ending :=
  codesFrom startbits ⟨data⟩ (8 * data.length + 1) (.start startbits)

end GifImageBlock

/-! GIF LZW encoding. An encoder of minimum code size `size` may clear its table before any
code, and sends for the rest any chain it knows. -/

namespace GifEncoding

/-- The chain of a code, `table` being the chains added since the last clear code. -/
def chainOf (size : Nat) (table : List (List Nat)) (code : Nat) : Option (List Nat) :=
  if code < 2 ^ size then some [code]
  else if code < 2 ^ size + 2 then none
  else table[code - (2 ^ size + 2)]?

/-- The table after a chain is sent and while `rest` is left to send; it takes no code of
    more than 12 bits. -/
def extend (size : Nat) (table : List (List Nat)) (chain rest : List Nat) :
    List (List Nat) :=
  if 2 ^ size + 2 + table.length < 4096 then table ++ Lzw.grown chain rest else table

/-- The number of bits of a code that follows `sent` codes after a clear code. -/
def codeWidth (size sent : Nat) : Nat :=
  min 12 ((2 ^ size + 1 + sent).log2 + 1)

inductive Emits (size : Nat) :
    List (List Nat) → Nat → List Nat → List BitField → Prop
  | stop {table : List (List Nat)} {sent : Nat} :
      Emits size table sent [] [⟨codeWidth size sent, 2 ^ size + 1⟩]
  -- Where the width has just grown, a clear code may have the old number of bits.
  | clear {table : List (List Nat)} {sent width : Nat} {indices : List Nat}
      {codes : List BitField}
      (written : width = codeWidth size sent ∨
        2 ^ size + 1 + sent = 2 ^ width ∧ width ≤ 12)
      (emits : Emits size [] 0 indices codes) :
      Emits size table sent indices (⟨width, 2 ^ size⟩ :: codes)
  | chain {table : List (List Nat)} {sent code : Nat} {chain rest : List Nat}
      {codes : List BitField} (known : chainOf size table code = some chain)
      (emits : Emits size (extend size table chain rest) (sent + 1) rest codes) :
      Emits size table sent (chain ++ rest) (⟨codeWidth size sent, code⟩ :: codes)

/-- The codes, with their widths, are an encoding of the indices: a clear code comes
    first and the end code last. -/
def Encodes (size : Nat) (indices : List Nat) (codes : List BitField) : Prop :=
  ∃ rest, codes = ⟨codeWidth size 0, 2 ^ size⟩ :: rest ∧ Emits size [] 0 indices rest

/-- The code fields that lie one after the other from an address on. -/
def layout : Nat → List BitField → List CodeField
  | _, [] => []
  | address, code :: codes =>
      ⟨address, code.count, code.value⟩ :: layout (address + code.count) codes

end GifEncoding

end Segvault.Hachoir
