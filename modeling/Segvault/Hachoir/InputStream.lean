import Segvault.Bytes
import Segvault.Hachoir.OutputStream

namespace Segvault.Hachoir

open BitString

/-! `str2long` and what it calls. -/

-- `ret[1::2] = data[0::2]` and `ret[0::2] = data[1::2]`.
def strswapmid : List UInt8 → Except Failure (List UInt8)
  | [] => .ok []
  | [_] => .error .assertionError
  | first :: second :: rest => do
      let swapped ← strswapmid rest
      .ok (second :: first :: swapped)

-- `struct.unpack` of one unsigned integer of 1, 2, 4 or 8 bytes.
def unpack (endian : Endian) (data : List UInt8) : Nat :=
  if endian = .bigEndian then Bytes.ofBigEndian data else Bytes.ofLittleEndian data

def addBytes (data : List UInt8) : Nat :=
  (data.foldl
    (fun (value, shift) character =>
      (value + character.toNat <<< shift, shift + 8)) (0, 0)).1

def str2long (data : List UInt8) (endian : Endian) : Except Failure Nat :=
  if 1 ≤ data.length ∧ data.length ≤ 32 then
    if endian ≠ .middleEndian ∧ data.length ∈ [1, 2, 4, 8] then
      .ok (unpack endian data)
    else
      match endian with
      | .bigEndian => .ok (addBytes data.reverse)
      | .middleEndian => do
          let swapped ← strswapmid data
          .ok (addBytes swapped.reverse)
      | .littleEndian => .ok (addBytes data)
  else .error .assertionError

def alignValue (value align : Nat) : Nat :=
  if value % align ≠ 0 then value + align - value % align else value

/-! The methods an `InputStream` builds on its `read`, which gives the shift of
the first bit, the bytes and whether some are missing. -/

abbrev Chunk := Nat × List UInt8 × Bool

section InputStream

variable {m : Type → Type} [Monad m] [MonadExceptOf Failure m]

def lift {α : Type} : Except Failure α → m α
  | .ok value => pure value
  | .error failure => throw failure

def InputStream.readBits (read : Nat → Nat → m Chunk) (address nbits : Nat)
    (endian : Endian) : m Nat := do
  let (shift, data, missing) ←
    if endian = .middleEndian then do
      let wordaddr := address / 16
      let remainder := address % 16
      let wordnbits := alignValue (remainder + nbits) 16
      let (_, data, missing) ← read (wordaddr * 16) wordnbits
      pure (remainder, data, missing)
    else read address nbits
  if missing then throw (.readStreamError nbits address none)
  let value ← lift (str2long data endian)
  let value :=
    if endian = .littleEndian then value >>> shift
    else value >>> (data.length * 8 - shift - nbits)
  pure (value &&& ((1 <<< nbits) - 1))

def unalignedMessage : String := "TODO: handle non-byte-aligned data"

def InputStream.readBytes (read : Nat → Nat → m Chunk) (address nbBytes : Nat) :
    m (List UInt8) := do
  let (shift, data, missing) ← read address (8 * nbBytes)
  if shift ≠ 0 then throw (.inputStreamError unalignedMessage)
  if missing then throw (.readStreamError (8 * nbBytes) address none)
  pure data

end InputStream

/-! `StringInputStream`. -/

structure StringInputStream where
  data : List UInt8
  deriving DecidableEq, Repr

def StringInputStream.new (data : List UInt8) : Except Failure StringInputStream :=
  if data = [] then .error .nullStreamError else .ok ⟨data⟩

def slice (data : List UInt8) (start size : Nat) : List UInt8 :=
  (data.drop start).take size

theorem slice_slice (data : List UInt8) {start count inner size : Nat}
    (inside : inner + size ≤ count) :
    slice (slice data start count) inner size = slice data (start + inner) size := by
  rw [slice, slice, slice, List.drop_take, List.drop_drop, List.take_take,
    Nat.min_eq_left (by omega)]

def StringInputStream.read (stream : StringInputStream) (address size : Nat) :
    Except Failure Chunk :=
  let shift := address % 8
  let address := address / 8
  let size := (size + shift + 7) >>> 3
  let data := slice stream.data address size
  let got := data.length
  if got ≠ size then .error (.readStreamError (8 * size) (8 * address) (some (8 * got)))
  else .ok (shift, data, false)

def StringInputStream.readBits (stream : StringInputStream) (address nbits : Nat)
    (endian : Endian) : Except Failure Nat :=
  InputStream.readBits stream.read address nbits endian

def StringInputStream.readBytes (stream : StringInputStream) (address nbBytes : Nat) :
    Except Failure (List UInt8) :=
  InputStream.readBytes stream.read address nbBytes

/-! The number the bits of a byte string make. -/

theorem decode_stream_lowFirst (data : List UInt8) :
    decode .lowFirst (stream .lowFirst data) = Bytes.ofLittleEndian data := by
  induction data with
  | nil => rfl
  | cons byte rest induction =>
      rw [stream, List.flatMap_cons, decode_lowFirst_append, decode_encode,
        length_encode, Nat.mod_eq_of_lt byte.toNat_lt, Bytes.ofLittleEndian_cons,
        ← induction]
      rfl

theorem decode_stream_highFirst (data : List UInt8) :
    decode .highFirst (stream .highFirst data) = Bytes.ofBigEndian data := by
  have flipped : (stream .highFirst data).reverse = stream .lowFirst data.reverse := by
    induction data with
    | nil => rfl
    | cons byte rest induction =>
        rw [List.reverse_cons, stream_append, stream_singleton, ← induction, stream,
          stream, List.flatMap_cons, List.reverse_append, encode, encode,
          Order.arrange, Order.arrange, List.reverse_reverse]
  rw [decode, Order.arrange, flipped]
  exact decode_stream_lowFirst data.reverse

theorem addBytes_eq (data : List UInt8) :
    addBytes data = Bytes.ofLittleEndian data := by
  suffices loop : ∀ value shift,
      (data.foldl
        (fun (value, shift) (character : UInt8) =>
          (value + character.toNat <<< shift, shift + 8)) (value, shift)).1 =
        value + 2 ^ shift * Bytes.ofLittleEndian data by
    simpa [addBytes] using loop 0 0
  induction data with
  | nil => intro value shift; simp [Bytes.ofLittleEndian]
  | cons byte rest induction =>
      intro value shift
      rw [List.foldl_cons, induction, Bytes.ofLittleEndian_cons, Nat.shiftLeft_eq, pow_add]
      ring

theorem str2long_eq {endian : Endian} (standard : endian ≠ .middleEndian)
    {data : List UInt8} (nonempty : 1 ≤ data.length) (short : data.length ≤ 32) :
    str2long data endian =
      .ok (decode endian.order (stream endian.order data)) := by
  unfold str2long
  rw [if_pos ⟨nonempty, short⟩]
  cases endian with
  | middleEndian => exact absurd rfl standard
  | bigEndian =>
      have looped : addBytes data.reverse = Bytes.ofBigEndian data := addBytes_eq _
      rw [Endian.order, decode_stream_highFirst, ← looped]
      split
      · rw [looped]; rfl
      · rfl
  | littleEndian =>
      rw [Endian.order, decode_stream_lowFirst, ← addBytes_eq]
      split
      · rw [addBytes_eq]; rfl
      · rfl

/-! The bits `readBits` reads. -/

theorem read_eq {stream : StringInputStream} {address size : Nat}
    (inside : address + size ≤ 8 * stream.data.length) :
    stream.read address size =
      .ok (address % 8,
        slice stream.data (address / 8) ((size + address % 8 + 7) / 8), false) := by
  have length : (slice stream.data (address / 8)
      ((size + address % 8 + 7) / 8)).length = (size + address % 8 + 7) / 8 := by
    rw [slice, List.length_take, List.length_drop]
    omega
  unfold StringInputStream.read
  simp only [Nat.shiftRight_eq_div_pow, Nat.reducePow, length, ne_eq,
    not_true_eq_false, if_false]

theorem stream_slice (order : Order) (data : List UInt8) (start size : Nat) :
    stream order (slice data start size) =
      range (stream order data) (8 * start) (8 * size) := by
  rw [slice, stream_take, stream_drop, range]

theorem range_range (string : List Bool) {start count inner size : Nat}
    (inside : inner + size ≤ count) :
    range (range string start count) inner size = range string (start + inner) size := by
  rw [range, range, range, List.drop_take, List.drop_drop, List.take_take,
    Nat.min_eq_left (by omega)]

theorem readBits_eq {endian : Endian} (standard : endian ≠ .middleEndian)
    {stream : StringInputStream} {address nbits : Nat}
    (inside : address + nbits ≤ 8 * stream.data.length) (positive : 0 < nbits)
    (short : address % 8 + nbits ≤ 256) :
    stream.readBits address nbits endian =
      .ok (decode endian.order
        (range (BitString.stream endian.order stream.data) address nbits)) := by
  have size := Nat.div_add_mod (nbits + address % 8 + 7) 8
  have bounded := Nat.mod_lt (nbits + address % 8 + 7) (by decide : 0 < 8)
  have place := Nat.div_add_mod address 8
  generalize bytes : (nbits + address % 8 + 7) / 8 = count at size
  have length : (slice stream.data (address / 8) count).length = count := by
    rw [slice, List.length_take, List.length_drop]
    omega
  have long : str2long (slice stream.data (address / 8) count) endian = _ :=
    str2long_eq standard (by omega) (by omega)
  have chunk : range (BitString.stream endian.order stream.data) address nbits =
      range (BitString.stream endian.order (slice stream.data (address / 8) count))
        (address % 8) nbits := by
    rw [stream_slice, range_range _ (by omega), place]
  have whole : (BitString.stream endian.order
      (slice stream.data (address / 8) count)).length = 8 * count := by
    rw [length_stream, length]
  rw [StringInputStream.readBits, InputStream.readBits, if_neg standard,
    read_eq inside, bytes]
  simp only [bind, Except.bind, long, lift, pure, Except.pure, mask_eq_mod]
  rw [chunk]
  cases endian with
  | middleEndian => exact absurd rfl standard
  | bigEndian =>
      rw [Endian.order] at whole ⊢
      rw [decode_range_highFirst (by omega), whole]
      simp [length, Nat.shiftRight_eq_div_pow, Nat.mul_comm]
  | littleEndian =>
      rw [Endian.order] at whole ⊢
      rw [decode_range_lowFirst (by omega)]
      simp [Nat.shiftRight_eq_div_pow]

end Segvault.Hachoir
