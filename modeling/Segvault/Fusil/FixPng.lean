import Mathlib.Data.Nat.Digits.Lemmas
import Segvault.Bytes
import Segvault.Crc
import Segvault.Footprint

namespace Segvault.Fusil

open Bytes

/-! `fusil/bits.py`. -/

inductive Endian
  | bigEndian
  | littleEndian

inductive PngFailure
  | assertionError
  deriving DecidableEq

/-- A size of `0` is no size. -/
def uint2bytes (value : Nat) (endian : Endian) (size : Nat) : List UInt8 :=
  let text := (Nat.digits 256 value).map UInt8.ofNat
  let need := List.replicate (size - text.length) 0
  match endian with
  | .bigEndian => need ++ text.reverse
  | .littleEndian => text ++ need

def bytes2uint (data : List UInt8) (endian : Endian) : Except PngFailure Nat :=
  if 1 ≤ data.length ∧ data.length ≤ 32 then
    .ok (match endian with
      | .bigEndian => ofBigEndian data
      | .littleEndian => ofLittleEndian data)
  else .error .assertionError

/-! `StringIO`, as far as `fixPNG` uses it. -/

structure StringIO where
  buf : List UInt8
  pos : Nat := 0

namespace StringIO

def seek (file : StringIO) (pos : Nat) : StringIO := { file with pos }

def read (file : StringIO) (size : Nat) : List UInt8 × StringIO :=
  let data := (file.buf.drop file.pos).take size
  (data, { file with pos := file.pos + data.length })

def readAll (file : StringIO) : List UInt8 × StringIO :=
  let data := file.buf.drop file.pos
  (data, { file with pos := file.pos + data.length })

/-- A write past the end first fills the gap with zeros. -/
def write (file : StringIO) (data : List UInt8) : StringIO :=
  let buf := file.buf ++ List.replicate (file.pos - file.buf.length) 0
  { buf := buf.take file.pos ++ data ++ buf.drop (file.pos + data.length)
    pos := file.pos + data.length }

end StringIO

/-! `fusil/fixpng.py`. -/

/-- `zlib.crc32`, whose sign the mask of `pngCRC32` takes away. -/
def crc32 (data : List UInt8) : BitVec 32 :=
  Crc.reflected 0xedb88320 0xffffffff 0xffffffff data

def pngCRC32 (data : List UInt8) : Nat := (crc32 data).toNat

def pngHeader : List UInt8 := [0x89, 0x50, 0x4e, 0x47, 0x0d, 0x0a, 0x1a, 0x0a]

def fixChunks (datalen index : Nat) (data : StringIO) : Except PngFailure StringIO :=
  if index + 4 < datalen then
    let (field, data) := (data.seek index).read 4
    (bytes2uint field .bigEndian).bind fun size =>
      let chunksize := size + 12
      if datalen < index + chunksize then .ok data
      else
        let (crcdata, data) := (data.seek (index + 4)).read (chunksize - 8)
        let newcrc := uint2bytes (pngCRC32 crcdata) .bigEndian 4
        fixChunks datalen (index + chunksize)
          ((data.seek (index + chunksize - 4)).write newcrc)
  else .ok data
termination_by datalen - index

def fixPNG (origdata : List UInt8) : Except PngFailure (List UInt8) := do
  let data : StringIO := { buf := origdata }
  let data ← fixChunks origdata.length 8 ((data.seek 0).write pngHeader)
  let (data, _) := (data.seek 0).readAll
  if data.length = origdata.length then .ok data else .error .assertionError

/-! The chunks of a picture. -/

namespace Png

def bytesAt (data : List UInt8) (start count : Nat) : List UInt8 :=
  (data.drop start).take count

def chunkSize (data : List UInt8) (start : Nat) : Nat := ofBigEndian (bytesAt data start 4)

def Fits (data : List UInt8) (start : Nat) : Prop :=
  start + chunkSize data start + 12 ≤ data.length

/-- The longest row of chunks from a place on, each of which fits in the data. -/
inductive Chunk (data : List UInt8) (start : Nat) : Nat → Prop
  | here (fits : Fits data start) : Chunk data start start
  | later {index : Nat} (fits : Fits data index)
      (chunk : Chunk data start (index + chunkSize data index + 12)) : Chunk data start index

/-- The last four bytes of a chunk. -/
def InSum (data : List UInt8) (start place : Nat) : Prop :=
  start + chunkSize data start + 8 ≤ place ∧ place < start + chunkSize data start + 12

/-- The checksum stored in a chunk is the one of its type and content. -/
def Summed (data : List UInt8) (start : Nat) : Prop :=
  ofBigEndian (bytesAt data (start + chunkSize data start + 8) 4) =
    (crc32 (bytesAt data (start + 4) (chunkSize data start + 4))).toNat

theorem bytesAt_congr {data other : List UInt8} {start count : Nat}
    (same : ∀ place, start ≤ place → place < start + count → data[place]? = other[place]?) :
    bytesAt data start count = bytesAt other start count := by
  refine List.ext_getElem? fun index => ?_
  rw [bytesAt, bytesAt]
  by_cases inside : index < count
  · rw [List.getElem?_take_of_lt inside, List.getElem?_take_of_lt inside, List.getElem?_drop,
      List.getElem?_drop]
    exact same (start + index) (by omega) (by omega)
  · rw [List.getElem?_eq_none (by rw [List.length_take]; omega),
      List.getElem?_eq_none (by rw [List.length_take]; omega)]

theorem length_bytesAt {data : List UInt8} {start count : Nat}
    (inside : start + count ≤ data.length) : (bytesAt data start count).length = count := by
  rw [bytesAt, List.length_take, List.length_drop]
  omega

/-! What is written in the place of some bytes. -/

def overwrite (data : List UInt8) (start : Nat) (bytes : List UInt8) : List UInt8 :=
  data.take start ++ bytes ++ data.drop (start + bytes.length)

section

variable {data bytes : List UInt8} {start : Nat}

theorem length_overwrite (inside : start + bytes.length ≤ data.length) :
    (overwrite data start bytes).length = data.length :=
  (Footprint.splice start inside).length_eq rfl

theorem overwrite_outside (inside : start + bytes.length ≤ data.length) {place : Nat}
    (outside : place < start ∨ start + bytes.length ≤ place) :
    (overwrite data start bytes)[place]? = data[place]? :=
  (Footprint.splice start inside).outside rfl outside

theorem bytesAt_overwrite (inside : start + bytes.length ≤ data.length) :
    bytesAt (overwrite data start bytes) start bytes.length = bytes := by
  have short : (data.take start).length = start := by
    rw [List.length_take]
    omega
  rw [bytesAt, overwrite, List.append_assoc, List.drop_left' short, List.take_left]

theorem overwrite_same (same : bytesAt data start bytes.length = bytes) :
    overwrite data start bytes = data := by
  rw [overwrite, ← List.drop_drop, List.append_assoc]
  nth_rewrite 1 [← same]
  rw [bytesAt, List.take_append_drop, List.take_append_drop]

theorem write_inside {file : StringIO} (inside : file.pos + bytes.length ≤ file.buf.length) :
    file.write bytes =
      { buf := overwrite file.buf file.pos bytes, pos := file.pos + bytes.length } := by
  have whole : file.pos - file.buf.length = 0 := by omega
  rw [ StringIO.write, whole, List.replicate_zero, List.append_nil, overwrite]

end

/-! The four bytes of a checksum. -/

theorem uint2bytes_word {value : Nat} (bound : value < 2 ^ 32) :
    (uint2bytes value .bigEndian 4).length = 4 ∧
      ofBigEndian (uint2bytes value .bigEndian 4) = value := by
  have short : (Nat.digits 256 value).length ≤ 4 := by
    rw [Nat.digits_length_le_iff (by decide)]
    exact bound
  constructor
  · rw [uint2bytes, List.length_append, List.length_replicate, List.length_reverse,
      List.length_map]
    omega
  · rw [uint2bytes, ofBigEndian, List.reverse_append, List.reverse_reverse,
      List.reverse_replicate]
    exact ofLittleEndian_digits value _

def newcrc (data : List UInt8) (start : Nat) : List UInt8 :=
  uint2bytes (pngCRC32 (bytesAt data (start + 4) (chunkSize data start + 4))) .bigEndian 4

theorem length_newcrc (data : List UInt8) (start : Nat) : (newcrc data start).length = 4 :=
  (uint2bytes_word (BitVec.isLt _)).1

theorem ofBigEndian_newcrc (data : List UInt8) (start : Nat) :
    ofBigEndian (newcrc data start) =
      (crc32 (bytesAt data (start + 4) (chunkSize data start + 4))).toNat :=
  (uint2bytes_word (BitVec.isLt _)).2

/-- One chunk with its checksum. -/
def setSum (data : List UInt8) (start : Nat) : List UInt8 :=
  overwrite data (start + chunkSize data start + 8) (newcrc data start)

section

variable {data : List UInt8} {start : Nat}

theorem length_setSum (fits : Fits data start) : (setSum data start).length = data.length := by
  refine length_overwrite ?_
  rw [length_newcrc]
  exact fits

theorem setSum_outside (fits : Fits data start) {place : Nat}
    (outside : ¬ InSum data start place) : (setSum data start)[place]? = data[place]? := by
  refine overwrite_outside (by rw [length_newcrc]; exact fits) ?_
  rw [length_newcrc]
  rw [InSum] at outside
  omega

theorem setSum_summed (fits : Fits data start) :
    ofBigEndian (bytesAt (setSum data start) (start + chunkSize data start + 8) 4) =
      (crc32 (bytesAt data (start + 4) (chunkSize data start + 4))).toNat := by
  have inside : start + chunkSize data start + 8 + (newcrc data start).length ≤ data.length := by
    rw [length_newcrc]
    exact fits
  have written := bytesAt_overwrite inside
  rw [length_newcrc] at written
  rw [setSum, written, ofBigEndian_newcrc]

/-- A checksum that is right is written once more. -/
theorem setSum_same (fits : Fits data start) (summed : Summed data start) :
    setSum data start = data := by
  refine overwrite_same ?_
  rw [length_newcrc]
  refine ofBigEndian_inj ?_ (summed.trans (ofBigEndian_newcrc data start).symm)
  rw [length_newcrc]
  exact length_bytesAt fits

end

/-! One turn of the loop. -/

theorem bytes2uint_field {data : List UInt8} {index : Nat} (inside : index + 4 ≤ data.length) :
    bytes2uint ((data.drop index).take 4) .bigEndian = .ok (chunkSize data index) := by
  have field : ((data.drop index).take 4).length = 4 := length_bytesAt inside
  rw [bytes2uint, field, if_pos (by decide)]
  rfl

theorem fixChunks_fits {file : StringIO} {index : Nat} (fits : Fits file.buf index) :
    fixChunks file.buf.length index file =
      fixChunks file.buf.length (index + chunkSize file.buf index + 12)
        { buf := setSum file.buf index, pos := index + chunkSize file.buf index + 12 } := by
  have room : index + chunkSize file.buf index + 12 ≤ file.buf.length := fits
  have place : index + (chunkSize file.buf index + 12) - 4 =
      index + chunkSize file.buf index + 8 := by omega
  have content : chunkSize file.buf index + 12 - 8 = chunkSize file.buf index + 4 := by omega
  have written := @write_inside (newcrc file.buf index)
    { file with pos := index + chunkSize file.buf index + 8 }
    (by rw [length_newcrc]; exact fits)
  rw [length_newcrc] at written
  have field := @bytes2uint_field file.buf index (by omega)
  rw [fixChunks, if_pos (by omega)]
  simp only [ StringIO.seek, StringIO.read, field, Except.bind]
  rw [if_neg (by omega), place, content, Nat.add_assoc index]
  exact congrArg (fixChunks file.buf.length _) written

theorem fixChunks_stops {file : StringIO} {index : Nat} (stuck : ¬ Fits file.buf index) :
    ∃ after, fixChunks file.buf.length index file = .ok after ∧ after.buf = file.buf := by
  rw [fixChunks]
  split
  · rename_i more
    have field := @bytes2uint_field file.buf index (by omega)
    simp only [ StringIO.seek, StringIO.read, field, Except.bind]
    rw [Fits] at stuck
    rw [if_pos (by omega)]
    exact ⟨_, rfl, rfl⟩
  · exact ⟨file, rfl, rfl⟩

/-! The whole row. -/

theorem Chunk.le {data : List UInt8} {start index : Nat} (chunk : Chunk data start index) :
    index ≤ start := by
  induction chunk with
  | here => exact Nat.le_refl start
  | later _ _ induction => omega

theorem chunk_iff {data : List UInt8} {start index : Nat} :
    Chunk data start index ↔ Fits data index ∧
      (start = index ∨ Chunk data start (index + chunkSize data index + 12)) := by
  constructor
  · rintro (⟨fits⟩ | ⟨fits, chunk⟩)
    · exact ⟨fits, .inl rfl⟩
    · exact ⟨fits, .inr chunk⟩
  · rintro ⟨fits, rfl | chunk⟩
    · exact .here fits
    · exact .later fits chunk

/-- The data from a place on decide the chunks there. -/
theorem Chunk.congr {data other : List UInt8} {start index : Nat}
    (length : other.length = data.length)
    (same : ∀ place, index ≤ place → other[place]? = data[place]?)
    (chunk : Chunk data start index) : Chunk other start index := by
  induction chunk with
  | here fits =>
      refine .here ?_
      rw [Fits, chunkSize, bytesAt_congr fun place further _ => same place further, length]
      exact fits
  | @later index fits chunk induction =>
      have size : chunkSize other index = chunkSize data index := by
        rw [chunkSize, bytesAt_congr fun place further _ => same place further]
        rfl
      refine .later ?_ ?_
      · rw [Fits, size, length]
        exact fits
      · rw [size]
        exact induction fun place further => same place (by omega)

/-- What the loop leaves, from a place on. -/
structure Repaired (index : Nat) (before after : List UInt8) : Prop where
  length : after.length = before.length
  chunks : ∀ start, Chunk after start index ↔ Chunk before start index
  summed : ∀ start, Chunk before start index → Summed after start
  others : ∀ place, (∀ start, Chunk before start index → ¬ InSum before start place) →
    after[place]? = before[place]?

/-- Nothing before the place is touched. -/
theorem Repaired.earlier {index : Nat} {before after : List UInt8}
    (repaired : Repaired index before after) {place : Nat} (early : place < index + 8) :
    after[place]? = before[place]? := by
  refine repaired.others place fun start chunk inSum => ?_
  have := chunk.le
  have := inSum.1
  omega

theorem chunkSize_congr {data other : List UInt8} {start : Nat}
    (same : ∀ place, start ≤ place → place < start + 4 → other[place]? = data[place]?) :
    chunkSize other start = chunkSize data start :=
  congrArg ofBigEndian (bytesAt_congr same)

/-- One chunk and the row that follows it. -/
theorem Repaired.next {index : Nat} {before after : List UInt8} (fits : Fits before index)
    (repaired : Repaired (index + chunkSize before index + 12) (setSum before index) after) :
    Repaired index before after := by
  have here : ∀ place, ¬ InSum before index place →
      (setSum before index)[place]? = before[place]? := fun place => setSum_outside fits
  have later : ∀ place, index + chunkSize before index + 12 ≤ place →
      (setSum before index)[place]? = before[place]? := by
    intro place further
    refine here place fun inSum => ?_
    have := inSum.2
    omega
  have head : ∀ place, place < index + chunkSize before index + 8 →
      after[place]? = before[place]? := by
    intro place early
    refine (repaired.earlier (by omega)).trans (here place fun inSum => ?_)
    have := inSum.1
    omega
  have length : after.length = before.length := repaired.length.trans (length_setSum fits)
  have size : chunkSize after index = chunkSize before index :=
    chunkSize_congr fun place _ early => head place (by omega)
  have rest : ∀ start, Chunk (setSum before index) start (index + chunkSize before index + 12) ↔
      Chunk before start (index + chunkSize before index + 12) := fun start =>
    ⟨Chunk.congr (length_setSum fits).symm fun place further => (later place further).symm,
      Chunk.congr (length_setSum fits) later⟩
  refine ⟨length, fun start => ?_, fun start chunk => ?_, fun place outside => ?_⟩
  · have fitsAfter : Fits after index ↔ Fits before index := by rw [Fits, Fits, size, length]
    rw [chunk_iff, fitsAfter, size, repaired.chunks, rest, ← chunk_iff]
  · obtain ⟨-, rfl | chunk⟩ := chunk_iff.mp chunk
    · have sum : bytesAt after (start + chunkSize before start + 8) 4 =
          bytesAt (setSum before start) (start + chunkSize before start + 8) 4 :=
        bytesAt_congr fun place _ early => repaired.earlier (by omega)
      have content : bytesAt after (start + 4) (chunkSize before start + 4) =
          bytesAt before (start + 4) (chunkSize before start + 4) :=
        bytesAt_congr fun place _ early => head place (by omega)
      rw [Summed, size, sum, content]
      exact setSum_summed fits
    · exact repaired.summed start ((rest start).mpr chunk)
  · refine (repaired.others place fun start chunk inSum => ?_).trans
      (here place (outside index (.here fits)))
    have same : chunkSize (setSum before index) start = chunkSize before start :=
      chunkSize_congr fun place further _ => later place (chunk.le.trans further)
    rw [InSum, same] at inSum
    exact outside start (.later fits ((rest start).mp chunk)) inSum

theorem repaired_stuck {index : Nat} {data : List UInt8} (stuck : ¬ Fits data index) :
    Repaired index data data where
  length := rfl
  chunks _ := Iff.rfl
  summed _ chunk := absurd (chunk_iff.mp chunk).1 stuck
  others _ _ := rfl

theorem fixChunks_repaired {file : StringIO} {datalen : Nat} (index : Nat)
    (long : file.buf.length = datalen) :
    ∃ after, fixChunks datalen index file = .ok after ∧ Repaired index file.buf after.buf := by
  subst long
  by_cases fits : Fits file.buf index
  · have same := length_setSum fits
    obtain ⟨after, returns, repaired⟩ := @fixChunks_repaired
      { buf := setSum file.buf index, pos := index + chunkSize file.buf index + 12 } _
      (index + chunkSize file.buf index + 12) same
    exact ⟨after, (fixChunks_fits fits).trans returns, repaired.next fits⟩
  · obtain ⟨after, returns, same⟩ := fixChunks_stops fits
    exact ⟨after, returns, same.symm ▸ repaired_stuck fits⟩
termination_by datalen - index
decreasing_by
  rw [Fits] at fits
  omega

/-- Checksums that are all right stay as they are. -/
theorem fixChunks_same {file : StringIO} (index : Nat)
    (summed : ∀ start, Chunk file.buf start index → Summed file.buf start) :
    ∃ after, fixChunks file.buf.length index file = .ok after ∧ after.buf = file.buf := by
  by_cases fits : Fits file.buf index
  · have same := setSum_same fits (summed index (.here fits))
    obtain ⟨after, returns, kept⟩ := @fixChunks_same
      { buf := file.buf, pos := index + chunkSize file.buf index + 12 }
      (index + chunkSize file.buf index + 12) fun start chunk => summed start (.later fits chunk)
    refine ⟨after, ?_, kept⟩
    rw [fixChunks_fits fits, same]
    exact returns
  · exact fixChunks_stops fits
termination_by file.buf.length - index
decreasing_by
  rw [Fits] at fits
  omega

end Png

open Png

/-! The whole picture. -/

theorem fixPNG_long {data : List UInt8} (long : 8 ≤ data.length) {after : StringIO}
    (returns : fixChunks data.length 8 { buf := overwrite data 0 pngHeader, pos := 8 } =
      .ok after) (length : after.buf.length = data.length) :
    fixPNG data = .ok after.buf := by
  have header := @write_inside pngHeader { buf := data, pos := 0 } (by simpa [pngHeader] using long)
  have written : ({ buf := data } : StringIO).write pngHeader =
      { buf := overwrite data 0 pngHeader, pos := 8 } := header
  rw [fixPNG]
  simp only [ StringIO.seek, written, returns, bind, Except.bind, StringIO.readAll, List.drop_zero]
  rw [if_pos length]

theorem fixPNG_short {data : List UInt8} (short : data.length < 8) :
    fixPNG data = .error .assertionError := by
  have header : ({ buf := data } : StringIO).write pngHeader = { buf := pngHeader, pos := 8 } := by
    have past : (data ++ List.replicate (0 - data.length) 0).drop (0 + pngHeader.length) = [] := by
      rw [List.drop_eq_nil_iff, Nat.zero_sub, List.replicate_zero, List.append_nil]
      exact Nat.le_of_lt short
    rw [ StringIO.write]
    simp only [past, List.take_zero, List.nil_append, List.append_nil]
    rfl
  have returns (file : StringIO) : fixChunks data.length 8 file = .ok file := by
    rw [fixChunks, if_neg (by omega)]
  rw [fixPNG]
  simp only [ StringIO.seek, header, returns, bind, Except.bind, StringIO.readAll, List.drop_zero]
  refine if_neg fun same => ?_
  rw [← same] at short
  exact absurd short (by decide)

theorem overwrite_header {data : List UInt8} (long : 8 ≤ data.length) :
    (overwrite data 0 pngHeader).length = data.length ∧
      (∀ place, 8 ≤ place → (overwrite data 0 pngHeader)[place]? = data[place]?) ∧
      (overwrite data 0 pngHeader).take 8 = pngHeader := by
  have inside : 0 + pngHeader.length ≤ data.length := by simpa [pngHeader] using long
  exact ⟨length_overwrite inside, fun place further => overwrite_outside inside (.inr further),
    bytesAt_overwrite inside⟩

/-- Main result: the header and the checksums of the chunks are put right, nothing else changes,
and a second repair changes nothing. -/
theorem fixPNG_repairs (data : List UInt8) :
    if data.length < 8 then fixPNG data = .error .assertionError
    else ∃ fixed, fixPNG data = .ok fixed ∧ fixed.length = data.length ∧
      fixed.take 8 = pngHeader ∧ (∀ start, Chunk fixed start 8 ↔ Chunk data start 8) ∧
      (∀ start, Chunk data start 8 → Summed fixed start) ∧
      (∀ place, 8 ≤ place → (∀ start, Chunk data start 8 → ¬ InSum data start place) →
        fixed[place]? = data[place]?) ∧
      fixPNG fixed = .ok fixed := by
  split
  · rename_i short
    exact fixPNG_short short
  · rename_i enough
    have long : 8 ≤ data.length := Nat.le_of_not_lt enough
    obtain ⟨length, rest, header⟩ := overwrite_header long
    obtain ⟨after, returns, repaired⟩ := @fixChunks_repaired
      { buf := overwrite data 0 pngHeader, pos := 8 } data.length 8 length
    have long' : 8 ≤ after.buf.length := by rwa [repaired.length, length]
    have started : ∀ start, Chunk (overwrite data 0 pngHeader) start 8 ↔ Chunk data start 8 :=
      fun start => ⟨Chunk.congr length.symm fun place further => (rest place further).symm,
        Chunk.congr length rest⟩
    have top : after.buf.take 8 = pngHeader := by
      refine Eq.trans ?_ header
      exact @bytesAt_congr _ _ 0 8 fun place _ early => repaired.earlier (by omega)
    have again : overwrite after.buf 0 pngHeader = after.buf := overwrite_same top
    obtain ⟨later, returnsAgain, kept⟩ := @fixChunks_same { buf := after.buf, pos := 8 } 8
      fun start chunk => repaired.summed start ((repaired.chunks start).mp chunk)
    have second : fixPNG after.buf = .ok later.buf :=
      fixPNG_long long' (by rw [again]; exact returnsAgain) (congrArg List.length kept)
    refine ⟨after.buf, fixPNG_long long returns (repaired.length.trans length),
      repaired.length.trans length, top, fun start => (repaired.chunks start).trans (started start),
      fun start chunk => repaired.summed start ((started start).mpr chunk), ?_,
      second.trans (congrArg Except.ok kept)⟩
    intro place further outside
    refine (repaired.others place fun start chunk inSum => ?_).trans (rest place further)
    have size : chunkSize (overwrite data 0 pngHeader) start = chunkSize data start :=
      chunkSize_congr fun place beyond _ => rest place (chunk.le.trans beyond)
    rw [InSum, size] at inSum
    exact outside start ((started start).mp chunk) inSum

end Segvault.Fusil
