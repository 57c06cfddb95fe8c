import Segvault.Bytes

namespace Segvault.Ptrace

open Bytes

/-! The memory of a traced process, read and written by aligned words of a
little-endian CPU. -/

structure CpuInfo where
  bits64 : Bool
  powerPC : Bool
  deriving DecidableEq, Repr

def CpuInfo.wordSize (cpu : CpuInfo) : Nat := if cpu.bits64 then 8 else 4

theorem CpuInfo.wordSize_pos (cpu : CpuInfo) : 0 < cpu.wordSize := by
  unfold CpuInfo.wordSize
  split <;> omega

inductive Failure
  | ptraceError
  | processError
  | structError
  | keyError
  | valueError
  deriving DecidableEq, Repr

variable (cpu : CpuInfo)

def word2bytes (word : Nat) : Except Failure (List UInt8) :=
  if word < 256 ^ cpu.wordSize then .ok (littleEndian cpu.wordSize word)
  else .error .structError

def bytes2word (bytes : List UInt8) : Except Failure Nat :=
  if bytes.length = cpu.wordSize then .ok (ofLittleEndian bytes)
  else .error .structError

def readWord (memory : Memory) (address : Nat) : Except Failure Nat :=
  if address % cpu.wordSize = 0 then .ok (ofLittleEndian (read memory address cpu.wordSize))
  else .error .ptraceError

def writeWord (memory : Memory) (address word : Nat) : Except Failure Memory :=
  if address % cpu.wordSize = 0 then
    .ok (write memory address (littleEndian cpu.wordSize word))
  else .error .ptraceError

/-- The `while` loop of `_readBytes`. -/
def readWords (memory : Memory) (address size : Nat) (data : List UInt8) :
    Except Failure (List UInt8) :=
  if size = 0 then .ok data
  else do
    let word ← readWord cpu memory address
    let bytes ← word2bytes cpu word
    if size < cpu.wordSize then .ok (data ++ bytes.take size)
    else readWords memory (address + cpu.wordSize) (size - cpu.wordSize) (data ++ bytes)
termination_by size
decreasing_by
  have positive := cpu.wordSize_pos
  omega

def _readBytes (memory : Memory) (address size : Nat) : Except Failure (List UInt8) :=
  let offset := address % cpu.wordSize
  if offset ≠ 0 then do
    let address := address - offset
    let word ← readWord cpu memory address
    let bytes ← word2bytes cpu word
    let subsize := min (cpu.wordSize - offset) size
    readWords cpu memory (address + cpu.wordSize) (size - subsize)
      ((bytes.drop offset).take subsize)
  else readWords cpu memory address size []

/-- What a write has reached: the memory, the cursor and the bytes left. -/
structure Progress where
  memory : Memory
  address : Nat
  bytes : List UInt8

/-- The full words of `writeBytes`. -/
def writeWords (progress : Progress) : Except Failure Progress :=
  if cpu.wordSize ≤ progress.bytes.length then do
    let word ← bytes2word cpu (progress.bytes.take cpu.wordSize)
    let memory ← writeWord cpu progress.memory progress.address word
    writeWords
      { memory
        address := progress.address + cpu.wordSize
        bytes := progress.bytes.drop cpu.wordSize }
  else .ok progress
termination_by progress.bytes.length
decreasing_by
  have positive := cpu.wordSize_pos
  rw [List.length_drop]
  omega

section Write

variable (readBytes : Memory → Nat → Nat → Except Failure (List UInt8))

/-- How many bytes go into the partial first word, and the word that holds them. -/
def mergeEnd (offset : Nat) (word bytes : List UInt8) : Nat × List UInt8 :=
  let size := cpu.wordSize - offset
  if bytes.length < size then
    (bytes.length,
      word.take offset ++ bytes.take bytes.length ++ word.drop (offset + bytes.length))
  else (size, word.take offset ++ bytes.take size)

/-- The partial first word of `writeBytes`. -/
def writeEnd (progress : Progress) : Except Failure Progress :=
  let offset := progress.address % cpu.wordSize
  if offset ≠ 0 then do
    let address := progress.address - offset
    let word ← readBytes progress.memory address cpu.wordSize
    let merged := mergeEnd cpu offset word progress.bytes
    let word ← bytes2word cpu merged.2
    let memory ← writeWord cpu progress.memory address word
    .ok
      { memory
        address := address + cpu.wordSize
        bytes := progress.bytes.drop merged.1 }
  else .ok progress

/-- The partial last word of `writeBytes`. -/
def writeBegin (progress : Progress) : Except Failure Memory :=
  if progress.bytes = [] then .ok progress.memory
  else do
    let size := progress.bytes.length
    let word ← readBytes progress.memory progress.address cpu.wordSize
    let word ← bytes2word cpu (progress.bytes ++ word.drop size)
    writeWord cpu progress.memory progress.address word

def writeBytes (memory : Memory) (address : Nat) (bytes : List UInt8) :
    Except Failure Memory := do
  let progress ← writeEnd cpu readBytes { memory, address, bytes }
  let progress ← writeWords cpu progress
  writeBegin cpu readBytes progress

end Write

/-! Words and their bytes. -/

theorem word2bytes_ofLittleEndian {bytes : List UInt8} (length : bytes.length = cpu.wordSize) :
    word2bytes cpu (ofLittleEndian bytes) = .ok bytes := by
  have bound := ofLittleEndian_lt bytes
  rw [length] at bound
  rw [word2bytes, if_pos bound, ← length, littleEndian_ofLittleEndian]

theorem readWord_aligned (memory : Memory) {address : Nat}
    (aligned : address % cpu.wordSize = 0) :
    (readWord cpu memory address >>= word2bytes cpu) =
      .ok (read memory address cpu.wordSize) := by
  rw [readWord, if_pos aligned]
  exact word2bytes_ofLittleEndian cpu (length_read ..)

theorem writeWord_aligned (memory : Memory) {address : Nat} {bytes : List UInt8}
    (aligned : address % cpu.wordSize = 0) (length : bytes.length = cpu.wordSize) :
    (bytes2word cpu bytes >>= writeWord cpu memory address) =
      .ok (write memory address bytes) := by
  have round : writeWord cpu memory address (ofLittleEndian bytes) =
      .ok (write memory address bytes) := by
    rw [writeWord, if_pos aligned, ← length, littleEndian_ofLittleEndian]
  rw [bytes2word, if_pos length]
  exact round

/-! Reading. -/

theorem readWords_spec (memory : Memory) (size address : Nat) (data : List UInt8)
    (aligned : address % cpu.wordSize = 0) :
    readWords cpu memory address size data = .ok (data ++ read memory address size) := by
  induction size using Nat.strongRecOn generalizing address data with
  | ind size induction =>
      have word := readWord_aligned cpu memory aligned
      have positive := cpu.wordSize_pos
      rw [readWords]
      by_cases none : size = 0
      · rw [if_pos none, none, read_zero, List.append_nil]
      · rw [if_neg none, ← bind_assoc, word]
        by_cases short : size < cpu.wordSize
        · refine (if_pos short).trans ?_
          rw [take_read _ _ short.le]
        · refine (if_neg short).trans ?_
          rw [induction (size - cpu.wordSize) (by omega) _ _
            (by rw [Nat.add_mod_right, aligned]), List.append_assoc, ← read_append,
            Nat.add_sub_cancel' (Nat.le_of_not_lt short)]

theorem _readBytes_spec (memory : Memory) (address size : Nat) :
    _readBytes cpu memory address size = .ok (read memory address size) := by
  unfold _readBytes
  have positive := cpu.wordSize_pos
  have below := Nat.mod_lt address positive
  have base : (address - address % cpu.wordSize) % cpu.wordSize = 0 :=
    Nat.sub_mod_eq_zero_of_mod_eq (Nat.mod_mod _ _).symm
  have under := Nat.mod_le address cpu.wordSize
  by_cases offset : address % cpu.wordSize = 0
  · rw [if_neg (not_not.mpr offset), readWords_spec cpu memory size address [] offset]
    rfl
  · have word := readWord_aligned cpu memory base
    rw [if_pos offset, ← bind_assoc, word]
    refine (readWords_spec cpu memory _ _ _ (by rw [Nat.add_mod_right, base])).trans ?_
    rw [read_slice _ _ (by omega), Nat.sub_add_cancel under]
    by_cases inside : size ≤ cpu.wordSize - address % cpu.wordSize
    · rw [Nat.min_eq_right inside, Nat.sub_self, read_zero, List.append_nil]
    · have next : address - address % cpu.wordSize + cpu.wordSize =
          address + (cpu.wordSize - address % cpu.wordSize) := by omega
      rw [Nat.min_eq_left (by omega), next, ← read_append, Nat.add_sub_cancel' (by omega)]

/-! Writing: after each part, the bytes still to be written at the cursor complete the same
memory. -/

def Progress.final (progress : Progress) : Memory :=
  write progress.memory progress.address progress.bytes

theorem writeWords_spec (progress : Progress)
    (aligned : progress.address % cpu.wordSize = 0) :
    ∃ next, writeWords cpu progress = .ok next ∧ next.address % cpu.wordSize = 0 ∧
      next.bytes.length < cpu.wordSize ∧ next.final = progress.final := by
  have positive := cpu.wordSize_pos
  induction left : progress.bytes.length using Nat.strongRecOn generalizing progress with
  | ind length induction =>
      rw [writeWords]
      by_cases full : cpu.wordSize ≤ progress.bytes.length
      · have size : (progress.bytes.take cpu.wordSize).length = cpu.wordSize := by
          rw [List.length_take, Nat.min_eq_left full]
        rw [if_pos full, ← bind_assoc,
          writeWord_aligned cpu progress.memory aligned size]
        obtain ⟨next, moved, nextAligned, short, final⟩ :=
          induction (progress.bytes.drop cpu.wordSize).length
            (by rw [List.length_drop]; omega)
            { memory := write progress.memory progress.address
                (progress.bytes.take cpu.wordSize)
              address := progress.address + cpu.wordSize
              bytes := progress.bytes.drop cpu.wordSize }
            (by rw [Nat.add_mod_right, aligned]) rfl
        refine ⟨next, moved, nextAligned, short, final.trans ?_⟩
        have joined := write_write progress.memory progress.address
          (progress.bytes.take cpu.wordSize) (progress.bytes.drop cpu.wordSize)
        rwa [size, List.take_append_drop] at joined
      · rw [if_neg full]
        exact ⟨progress, rfl, aligned, Nat.lt_of_not_le full, rfl⟩

section Write

/-- A `readBytes` that returns every byte it is asked for. -/
def FullSlices (readBytes : Memory → Nat → Nat → Except Failure (List UInt8)) : Prop :=
  ∀ memory address size, readBytes memory address size = .ok (read memory address size)

theorem fullSlices_readBytes : FullSlices (_readBytes cpu) := _readBytes_spec cpu

variable {readBytes : Memory → Nat → Nat → Except Failure (List UInt8)}

theorem mergeEnd_spec (memory : Memory) (address : Nat) {offset : Nat} (bytes : List UInt8)
    (below : offset < cpu.wordSize) :
    (mergeEnd cpu offset (read memory address cpu.wordSize) bytes).2.length = cpu.wordSize ∧
      Progress.final
        { memory := write memory address
            (mergeEnd cpu offset (read memory address cpu.wordSize) bytes).2
          address := address + cpu.wordSize
          bytes := bytes.drop
            (mergeEnd cpu offset (read memory address cpu.wordSize) bytes).1 } =
        write memory (address + offset) bytes := by
  unfold mergeEnd Progress.final
  by_cases short : bytes.length < cpu.wordSize - offset
  · rw [if_pos short]
    dsimp only
    constructor
    · simp only [List.length_append, List.length_take, List.length_drop, length_read]
      omega
    · rw [List.take_length, List.drop_length, write_nil, write_within memory address (by omega)]
  · rw [if_neg short]
    dsimp only
    have taken : (bytes.take (cpu.wordSize - offset)).length = cpu.wordSize - offset := by
      rw [List.length_take]
      omega
    constructor
    · rw [List.length_append, taken, List.length_take, length_read]
      omega
    · have within := @write_within memory address cpu.wordSize offset
        (bytes.take (cpu.wordSize - offset)) (by omega)
      have rest : offset + (bytes.take (cpu.wordSize - offset)).length =
          (read memory address cpu.wordSize).length := by
        rw [taken, length_read]
        omega
      rw [rest, List.drop_length, List.append_nil] at within
      have next : address + cpu.wordSize =
          address + offset + (bytes.take (cpu.wordSize - offset)).length := by
        rw [taken]
        omega
      rw [within, next, write_write, List.take_append_drop]

theorem writeEnd_spec (full : FullSlices readBytes) (progress : Progress) :
    ∃ next, writeEnd cpu readBytes progress = .ok next ∧
      next.address % cpu.wordSize = 0 ∧ next.final = progress.final := by
  unfold writeEnd
  have positive := cpu.wordSize_pos
  have below := Nat.mod_lt progress.address positive
  have under := Nat.mod_le progress.address cpu.wordSize
  have base : (progress.address - progress.address % cpu.wordSize) % cpu.wordSize = 0 :=
    Nat.sub_mod_eq_zero_of_mod_eq (Nat.mod_mod _ _).symm
  by_cases zero : progress.address % cpu.wordSize = 0
  · rw [if_neg (not_not.mpr zero)]
    exact ⟨progress, rfl, zero, rfl⟩
  · obtain ⟨length, final⟩ := mergeEnd_spec cpu progress.memory
      (progress.address - progress.address % cpu.wordSize) progress.bytes below
    rw [Nat.sub_add_cancel under] at final
    have written := writeWord_aligned cpu progress.memory base length
    refine ⟨_, ?_, ?_, final⟩
    · rw [if_pos zero]
      dsimp only
      rw [full]
      change (bytes2word cpu _ >>= fun word => writeWord cpu progress.memory _ word >>= _) = _
      rw [← bind_assoc, written]
      rfl
    · dsimp only
      rw [Nat.add_mod_right, base]

theorem writeBegin_spec (full : FullSlices readBytes) (progress : Progress)
    (aligned : progress.address % cpu.wordSize = 0)
    (short : progress.bytes.length < cpu.wordSize) :
    writeBegin cpu readBytes progress = .ok progress.final := by
  unfold writeBegin
  by_cases none : progress.bytes = []
  · rw [if_pos none, Progress.final, none, write_nil]
  · have length : (progress.bytes ++ (read progress.memory progress.address
        cpu.wordSize).drop progress.bytes.length).length = cpu.wordSize := by
      rw [List.length_append, List.length_drop, length_read]
      omega
    rw [if_neg none, full]
    refine (writeWord_aligned cpu progress.memory aligned length).trans ?_
    have within := @write_within progress.memory progress.address cpu.wordSize 0
      progress.bytes (by omega)
    rw [List.take_zero, List.nil_append, Nat.zero_add, Nat.add_zero] at within
    rw [within, Progress.final]

theorem writeBytes_spec (full : FullSlices readBytes) (memory : Memory) (address : Nat)
    (bytes : List UInt8) :
    writeBytes cpu readBytes memory address bytes = .ok (write memory address bytes) := by
  obtain ⟨first, began, aligned, same⟩ := writeEnd_spec cpu full { memory, address, bytes }
  obtain ⟨last, moved, lastAligned, short, final⟩ := writeWords_spec cpu first aligned
  unfold writeBytes
  rw [began]
  refine (congrArg (· >>= writeBegin cpu readBytes) moved).trans ?_
  refine (writeBegin_spec cpu full last lastAligned short).trans ?_
  rw [final, same]
  rfl

/-- Reads return what the memory holds and writes replace these bytes alone, wherever a
transfer begins and ends. -/
theorem memory_access_exact (memory : Memory) (address : Nat) :
    (∀ size, _readBytes cpu memory address size = .ok (read memory address size)) ∧
      ∀ readBytes, FullSlices readBytes → ∀ bytes : List UInt8,
        ∃ after, writeBytes cpu readBytes memory address bytes = .ok after ∧
          read after address bytes.length = bytes ∧
          ∀ other, other < address ∨ address + bytes.length ≤ other →
            after other = memory other := by
  refine ⟨_readBytes_spec cpu memory address, ?_⟩
  intro readBytes full bytes
  refine ⟨_, writeBytes_spec cpu full memory address bytes, read_write .., ?_⟩
  intro other outside
  exact write_outside memory outside

theorem memory_access_exact_unaligned :
    ∃ after, writeBytes ⟨true, false⟩ (_readBytes ⟨true, false⟩) (fun _ => 7) 13
        [1, 2, 3, 4, 5] = .ok after ∧
      read after 13 5 = [1, 2, 3, 4, 5] ∧
      ∀ other, other < 13 ∨ 18 ≤ other → after other = 7 :=
  (memory_access_exact ⟨true, false⟩ (fun _ => 7) 13).2 _
    (fullSlices_readBytes ⟨true, false⟩) [1, 2, 3, 4, 5]

end Write

end Segvault.Ptrace
