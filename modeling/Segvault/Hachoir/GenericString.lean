import Segvault.Hachoir.SearchFirst

namespace Segvault.Hachoir

/-! The tables of `GenericString`. -/

inductive StringFormat
  | c
  | unixLine
  | fixed
  | pascal8
  | pascal16
  | pascal32
  deriving DecidableEq, Repr

def charset8Bit : List String :=
  ["ASCII", "MacRoman", "CP037", "CP874", "WINDOWS-1250", "WINDOWS-1251", "WINDOWS-1252",
    "WINDOWS-1253", "WINDOWS-1254", "WINDOWS-1255", "WINDOWS-1256", "WINDOWS-1257",
    "WINDOWS-1258", "ISO-8859-1", "ISO-8859-2", "ISO-8859-3", "ISO-8859-4", "ISO-8859-5",
    "ISO-8859-6", "ISO-8859-7", "ISO-8859-8", "ISO-8859-9", "ISO-8859-10", "ISO-8859-11",
    "ISO-8859-13", "ISO-8859-14", "ISO-8859-15", "ISO-8859-16"]

/-- How a charset says its byte order. -/
inductive CharsetOrder
  | none
  | fixed (endian : Endian)
  | bom
  deriving DecidableEq, Repr

/-- The size of a character in bits, and the byte order. -/
def utfCharset : List (String × Nat × CharsetOrder) :=
  [("UTF-8", 8, .none),
    ("UTF-16-LE", 16, .fixed .littleEndian),
    ("UTF-32LE", 32, .fixed .littleEndian),
    ("UTF-16-BE", 16, .fixed .bigEndian),
    ("UTF-32BE", 32, .fixed .bigEndian),
    ("UTF-16", 16, .bom),
    ("UTF-32", 32, .bom)]

def utfBom : List (Nat × List (List UInt8 × String)) :=
  [(16, [([0xff, 0xfe], "UTF-16-LE"), ([0xfe, 0xff], "UTF-16-BE")]),
    (32, [([0xff, 0xfe, 0, 0], "UTF-32LE"), ([0, 0, 0xfe, 0xff], "UTF-32BE")])]

def suffixFormat : StringFormat → Option (List (Nat × List (Endian × List UInt8)))
  | .c => some
      [(8, [(.littleEndian, [0]), (.bigEndian, [0])]),
        (16, [(.littleEndian, [0, 0]), (.bigEndian, [0, 0])]),
        (32, [(.littleEndian, [0, 0, 0, 0]), (.bigEndian, [0, 0, 0, 0])])]
  | .unixLine => some
      [(8, [(.littleEndian, [10]), (.bigEndian, [10])]),
        (16, [(.littleEndian, [10, 0]), (.bigEndian, [0, 10])]),
        (32, [(.littleEndian, [10, 0, 0, 0]), (.bigEndian, [0, 0, 0, 10])])]
  | _ => none

/-- The size of the prefix in bytes. -/
def pascalFormats : StringFormat → Option Nat
  | .pascal8 => some 1
  | .pascal16 => some 2
  | .pascal32 => some 4
  | _ => none

/-! What the constructor raises: `FieldError` with its arguments, and the errors of the
stream. -/

inductive StringError
  | assertionError
  | keyError
  | invalidCharset (path charset : String)
  | invalidSize (path : String) (nbytes : Int)
  | noEnd (path : String) (format : StringFormat)
  | invalidBom (path : String) (bom : List UInt8)
  | stream (failure : Failure)
  deriving DecidableEq, Repr

def fromStream {α : Type} : Except Failure α → Except StringError α
  | .ok value => .ok value
  | .error failure => .error (.stream failure)

def StringInputStream.searchBytesLength (stream : StringInputStream) (needle : List UInt8)
    (includeNeedle : Bool) (turns start : Nat) (stop : Option Nat) :
    Except Failure (Option Nat) := do
  let pos ← stream.searchBytes needle turns start stop
  match pos with
  | none => pure none
  | some pos => pure (some ((pos - start) / 8 + if includeNeedle then needle.length else 0))

/-! `GenericString`. The stream and the byte order are those of the parent. -/

structure StringParent where
  stream : StringInputStream
  endian : Endian
  deriving DecidableEq, Repr

structure StringLayout where
  contentOffset : Nat
  contentSize : Int
  size : Nat
  deriving DecidableEq, Repr

structure GenericString where
  format : StringFormat
  charset : Option String
  characterSize : Option Nat
  layout : StringLayout
  length : Option Int
  deriving DecidableEq, Repr

namespace GenericString

def utf (charset : Option String) : Option (Nat × CharsetOrder) :=
  charset.bind fun charset => utfCharset.lookup charset

def staticSuffixStr (format : StringFormat) (charset : Option String) (endian : Endian) :
    Except StringError (List UInt8) :=
  match suffixFormat format with
  | none => .ok []
  | some suffix =>
      let suffixSize := match utf charset with
        | some (suffixSize, _) => suffixSize
        | none => 8
      match (suffix.lookup suffixSize).bind fun suffix => suffix.lookup endian with
      | some suffix => .ok suffix
      | none => .error .keyError

/-- The size of a character, none where it cannot be told. -/
def checkCharset (path : String) (charset : Option String) : Except StringError (Option Nat) :=
  let name := charset.getD ""
  if name = "" ∨ name ∈ charset8Bit then .ok (some 1)
  else if (utf charset).isSome then .ok none
  else .error (.invalidCharset path name)

def fixedLayout (path : String) (format : StringFormat) (nbytes : Int) :
    Except StringError StringLayout :=
  if format ≠ .fixed then .error .assertionError
  else if 1 ≤ nbytes ∧ nbytes ≤ 0xffff then .ok ⟨0, nbytes, nbytes.toNat * 8⟩
  else .error (.invalidSize path nbytes)

def suffixLayout (parent : StringParent) (path : String) (address : Nat) (format : StringFormat)
    (charset : Option String) : Except StringError StringLayout := do
  let suffix ← staticSuffixStr format charset parent.endian
  -- more turns than the search takes
  let turns := parent.stream.data.length + 2
  let length ← fromStream (parent.stream.searchBytesLength suffix false turns address none)
  match length with
  | none => throw (.noEnd path format)
  | some length =>
      let length := if 1 < suffix.length then alignValue length suffix.length else length
      pure ⟨0, length, (length + suffix.length) * 8⟩

def pascalLayout (parent : StringParent) (address prefixSize : Nat) :
    Except StringError StringLayout := do
  let value ← fromStream (parent.stream.readBits address (prefixSize * 8) parent.endian)
  pure ⟨prefixSize, value, (prefixSize + value) * 8⟩

def findLayout (parent : StringParent) (path : String) (address : Nat) (format : StringFormat)
    (charset : Option String) (nbytes : Option Int) : Except StringError StringLayout :=
  match nbytes with
  | some nbytes => fixedLayout path format nbytes
  | none =>
      if (suffixFormat format).isSome then suffixLayout parent path address format charset
      else
        match pascalFormats format with
        | none => .error .assertionError
        | some prefixSize => pascalLayout parent address prefixSize

/-- The charset that a byte order mark chooses, once the mark is taken from the content. -/
def chooseCharset (parent : StringParent) (path : String) (address : Nat)
    (charset : Option String) (layout : StringLayout) :
    Except StringError (Option String × StringLayout) :=
  match utf charset with
  | some (bomsize, .bom) => do
      let nbytes := bomsize / 8
      let bom ← fromStream (parent.stream.readBytes address nbytes)
      match utfBom.lookup bomsize with
      | none => throw .keyError
      | some bomEndian =>
          match bomEndian.lookup bom with
          | none => throw (.invalidBom path bom)
          | some charset =>
              pure (some charset, { layout with
                contentSize := layout.contentSize - nbytes
                contentOffset := layout.contentOffset + nbytes })
  | _ => .ok (charset, layout)

/-- The constructor, for the field of that path at that absolute address. -/
def new (parent : StringParent) (path : String) (address : Nat) (format : StringFormat)
    (charset : Option String) (nbytes : Option Int) : Except StringError GenericString := do
  let characterSize ← checkCharset path charset
  let layout ← findLayout parent path address format charset nbytes
  let (charset, layout) ← chooseCharset parent path address charset layout
  let length := characterSize.map fun characterSize => layout.contentSize / characterSize
  pure ⟨format, charset, characterSize, layout, length⟩

def suffixStr (field : GenericString) (parent : StringParent) : Except StringError (List UInt8) :=
  staticSuffixStr field.format field.charset parent.endian

end GenericString

end Segvault.Hachoir
