import Segvault.Hachoir.GifImageBlock
import Segvault.Hachoir.HuffmanTree

namespace Segvault.Hachoir

/-! The blocks of `DeflateData`, without the names and the descriptions of their fields. -/

inductive DeflateFailure
  | huffman (failure : HuffmanFailure)
  | stream (failure : Failure)
  | parserError (message : String)
  | fieldError
  | keyError
  | nameError
  | valueError
  | zeroDivisionError
  | unfinished
  deriving DecidableEq, Repr

/-- The state is the address of the next field. -/
abbrev Generator := StateT Nat (Except DeflateFailure)

section Fields

variable (stream : StringInputStream)

-- A field that is not in the stream ends the parser, with one error or another.
def yieldBits (count : Nat) : Generator Nat := fun address =>
  match stream.readBits address count .littleEndian with
  | .ok value => .ok (value, address + count)
  | .error failure => .error (.stream failure)

def yieldInt16 : Generator Int := do
  let value ← yieldBits stream 16
  return if 2 ^ 15 ≤ value then (value : Int) - 2 ^ 16 else value

/-- A field whose value nobody asks for. -/
def yieldRaw (size : Nat) : Generator Unit := fun address =>
  if address + size ≤ 8 * stream.data.length then .ok ((), address + size)
  else .error (.parserError "Field is too large!")

/-- The symbol of a `HuffmanCode` field. -/
def yieldCode (tree : HuffmanTree) : Generator Nat := fun address =>
  match HuffmanCode.new tree stream .littleEndian address with
  | .ok code => .ok (code.realvalue, address + code.size)
  | .error failure => .error (.huffman failure)

end Fields

/-! `extend_data`. A list is cut from its end as Python cuts a string. -/

def extendData (data : List UInt8) (length offset : Nat) : Except DeflateFailure (List UInt8) :=
  if length ≥ offset then
    if offset = 0 then .error .zeroDivisionError
    else
      let newData := (List.replicate (alignValue length offset / offset)
        (data.drop (data.length - offset))).flatten
      .ok (data ++ newData.take length)
  else
    .ok (data ++ (data.take (data.length + length - offset)).drop (data.length - offset))

namespace DeflateBlock

/-- The smallest value of a symbol and the number of extra bits. -/
structure SymbolInfo where
  least : Nat
  extra : Nat
  deriving DecidableEq, Repr

def lengthSymbols : List (Nat × SymbolInfo) :=
  [(257, ⟨3, 0⟩), (258, ⟨4, 0⟩), (259, ⟨5, 0⟩), (260, ⟨6, 0⟩), (261, ⟨7, 0⟩), (262, ⟨8, 0⟩),
    (263, ⟨9, 0⟩), (264, ⟨10, 0⟩), (265, ⟨11, 1⟩), (266, ⟨13, 1⟩), (267, ⟨15, 1⟩), (268, ⟨17, 1⟩),
    (269, ⟨19, 2⟩), (270, ⟨23, 2⟩), (271, ⟨27, 2⟩), (272, ⟨31, 2⟩), (273, ⟨35, 3⟩),
    (274, ⟨43, 3⟩), (275, ⟨51, 3⟩), (276, ⟨59, 3⟩), (277, ⟨67, 4⟩), (278, ⟨83, 4⟩),
    (279, ⟨99, 4⟩), (280, ⟨115, 4⟩), (281, ⟨131, 5⟩), (282, ⟨163, 5⟩), (283, ⟨195, 5⟩),
    (284, ⟨227, 5⟩), (285, ⟨258, 0⟩)]

def distanceSymbols : List (Nat × SymbolInfo) :=
  [(0, ⟨1, 0⟩), (1, ⟨2, 0⟩), (2, ⟨3, 0⟩), (3, ⟨4, 0⟩), (4, ⟨5, 1⟩), (5, ⟨7, 1⟩), (6, ⟨9, 2⟩),
    (7, ⟨13, 2⟩), (8, ⟨17, 3⟩), (9, ⟨25, 3⟩), (10, ⟨33, 4⟩), (11, ⟨49, 4⟩), (12, ⟨65, 5⟩),
    (13, ⟨97, 5⟩), (14, ⟨129, 6⟩), (15, ⟨193, 6⟩), (16, ⟨257, 7⟩), (17, ⟨385, 7⟩), (18, ⟨513, 8⟩),
    (19, ⟨769, 8⟩), (20, ⟨1025, 9⟩), (21, ⟨1537, 9⟩), (22, ⟨2049, 10⟩), (23, ⟨3073, 10⟩),
    (24, ⟨4097, 11⟩), (25, ⟨6145, 11⟩), (26, ⟨8193, 12⟩), (27, ⟨12289, 12⟩), (28, ⟨16385, 13⟩),
    (29, ⟨24577, 13⟩)]

def codeLengthOrder : List Nat :=
  [16, 17, 18, 0, 8, 7, 9, 6, 10, 5, 11, 4, 12, 3, 13, 2, 14, 1, 15]

def repeatSymbols : List (Nat × SymbolInfo) :=
  [(16, ⟨3, 2⟩), (17, ⟨3, 3⟩), (18, ⟨11, 7⟩)]

/-! The trees of a block with fixed codes. -/

def treeOfEntries (entries : List ((Nat × Nat) × Nat)) : HuffmanTree := fun pair =>
  entries.lookup pair

def fixedLengthEntries : List ((Nat × Nat) × Nat) :=
  (List.range' 0 144).map (fun i => ((8, i + 48), i)) ++
    (List.range' 144 112).map (fun i => ((9, i + 256), i)) ++
    (List.range' 256 24).map (fun i => ((7, i - 256), i)) ++
    (List.range' 280 8).map fun i => ((8, i - 88), i)

def fixedDistanceEntries : List ((Nat × Nat) × Nat) :=
  (List.range' 0 32).map fun i => ((5, i), i)

section CreateFields

variable (stream : StringInputStream)

/-- A symbol of a table, and the number that it stands for with the extra bits behind it. -/
def readNumber (table : List (Nat × SymbolInfo)) (value : Nat) : Generator Nat :=
  match table.lookup value with
  | some info => do
      if info.extra = 0 then return info.least
      else return (← yieldBits stream info.extra) + info.least
  | none => throw .keyError

/-! The trees that a block describes. -/

/-- The loop over the lengths of the codes for code lengths. -/
def readCodeLengthCodes : List Nat → List Nat → Generator (List Nat)
  | [], lengths => pure lengths
  | i :: rest, lengths => do
      let value ← yieldBits stream 3
      readCodeLengthCodes rest (lengths.set i value)

/-- The loop that fills one of the two tables, with `prev_value`. -/
def readLengths (tree : HuffmanTree) (numcodes : Nat) :
    Nat → List Nat × Option Nat → Generator (List Nat × Option Nat)
  | 0, state => if state.1.length < numcodes then throw .unfinished else pure state
  | fuel + 1, (lengths, prevValue) =>
      if lengths.length < numcodes then do
        let value ← yieldCode stream tree
        if value < 16 then readLengths tree numcodes fuel (lengths ++ [value], some value)
        else if value = 16 ∧ prevValue = none then throw .nameError
        else
          let repvalue := if value = 16 then prevValue.getD 0 else 0
          let repeats ← readNumber stream repeatSymbols value
          readLengths tree numcodes fuel (lengths ++ List.replicate repeats repvalue, prevValue)
      else pure (lengths, prevValue)

def treeOf (lengths : List Nat) : Generator HuffmanTree :=
  match buildTree lengths with
  | some tree => pure tree
  | none => throw .valueError

-- Every turn of the loops over the tables adds a length at least.
def readTrees : Generator (HuffmanTree × HuffmanTree) := do
  let numLengthCodes ← yieldBits stream 5
  let numDistanceCodes ← yieldBits stream 5
  let numCodeLengthCodes ← yieldBits stream 4
  let codeLengthCodeLengths ←
    readCodeLengthCodes stream (codeLengthOrder.take (numCodeLengthCodes + 4))
      (List.replicate 19 0)
  let codeLengthTree ← treeOf codeLengthCodeLengths
  let lengths ← readLengths stream codeLengthTree (numLengthCodes + 257) (numLengthCodes + 257)
    ([], none)
  let distances ← readLengths stream codeLengthTree (numDistanceCodes + 1)
    (numDistanceCodes + 1) ([], lengths.2)
  return (← treeOf lengths.1, ← treeOf distances.1)

/-- The loop over the codes, with `uncomp_data`. -/
def readData (trees : HuffmanTree × HuffmanTree) : Nat → List UInt8 → Generator (List UInt8)
  | 0, _ => throw .unfinished
  | fuel + 1, uncompData => do
      let value ← yieldCode stream trees.1
      if value < 256 then readData trees fuel (uncompData ++ [UInt8.ofNat value])
      else if value = 256 then return uncompData
      else
        let length ← readNumber stream lengthSymbols value
        let symbol ← yieldCode stream trees.2
        let distance ← readNumber stream distanceSymbols symbol
        readData trees fuel (← extendData uncompData length distance)

def readStored : Generator Unit := do
  yieldRaw stream (paddingSize (← get) 8)
  let len ← yieldInt16 stream
  let nlen ← yieldInt16 stream
  if len ≠ -nlen - 1 then
    throw (.parserError "len must be equal to the one's complement of nlen!")
  else if len < 0 then throw .fieldError
  else yieldRaw stream (8 * len.toNat)

/-- The value of `final`, and `uncomp_data`, to which stored data is not added. -/
def createFields (uncompData : List UInt8) : Generator (Bool × List UInt8) := do
  let fuel := 8 * stream.data.length + 1
  let final ← yieldBits stream 1
  let compressionType ← yieldBits stream 2
  if compressionType = 0 then
    readStored stream
    return (final = 1, uncompData)
  else if compressionType = 1 then
    let trees := (treeOfEntries fixedLengthEntries, treeOfEntries fixedDistanceEntries)
    return (final = 1, ← readData stream trees fuel uncompData)
  else if compressionType = 2 then
    let trees ← readTrees stream
    return (final = 1, ← readData stream trees fuel uncompData)
  else throw (.parserError "Unsupported compression type 3!")

end CreateFields

end DeflateBlock

/-- The blocks up to the one that is final. Each of them takes three bits at least. -/
def DeflateData.blocks (stream : StringInputStream) :
    Nat → List UInt8 → Generator (List UInt8)
  | 0, _ => throw .unfinished
  | fuel + 1, uncompData => do
      let (final, uncompData) ← DeflateBlock.createFields stream uncompData
      if final then return uncompData else DeflateData.blocks stream fuel uncompData

/-- The value of `uncompressed_data`. -/
def DeflateData.createFields (stream : StringInputStream) : Generator (List UInt8) := do
  let uncompData ← DeflateData.blocks stream (8 * stream.data.length + 1) []
  yieldRaw stream (paddingSize (← get) 8)
  return uncompData

/-! Every run of the generators ends. -/

section Halts

variable {α β : Type} {generator : Generator α} {next : α → Generator β} {address : Nat}

/-- The generator goes on from an address to one as it should, or raises: its loops end. -/
def Halts (generator : Generator α) (address : Nat) (goesOn : α → Nat → Prop) : Prop :=
  match generator address with
  | .ok (value, last) => goesOn value last
  | .error failure => failure ≠ .unfinished

theorem Halts.bind {goesOn : α → Nat → Prop} {after : β → Nat → Prop}
    (halts : Halts generator address goesOn)
    (later : ∀ value last, goesOn value last → Halts (next value) last after) :
    Halts (generator >>= next) address after := by
  have same : (generator >>= next) address =
      (generator address >>= fun pair => next pair.1 pair.2) := rfl
  unfold Halts at halts
  rw [Halts, same]
  cases read : generator address with
  | error failure =>
      rw [read] at halts
      exact halts
  | ok pair =>
      rw [read] at halts
      exact later _ _ halts

theorem get_halts : Halts (get : Generator Nat) address fun _ last => last = address := rfl

theorem Halts.mono {goesOn weaker : α → Nat → Prop} (halts : Halts generator address goesOn)
    (implies : ∀ value last, goesOn value last → weaker value last) :
    Halts generator address weaker := by
  rw [← bind_pure generator]
  exact halts.bind implies

variable (stream : StringInputStream)

/-- The generator goes forward, to an address in the stream. -/
abbrev StaysIn (address : Nat) (_ : α) (last : Nat) : Prop :=
  address ≤ last ∧ last ≤ 8 * stream.data.length

theorem yieldBits_halts {count : Nat} (positive : 0 < count) :
    Halts (yieldBits stream count) address (StaysIn stream (address + 1)) := by
  unfold Halts yieldBits
  cases read : stream.readBits address count .littleEndian with
  | error failure => exact nofun
  | ok value =>
      exact ⟨Nat.lt_add_of_pos_right positive, inside_of_readBits (by decide) read positive⟩

theorem yieldRaw_halts (size : Nat) :
    Halts (yieldRaw stream size) address (StaysIn stream address) := by
  unfold Halts yieldRaw
  by_cases inside : address + size ≤ 8 * stream.data.length
  · simp only [if_pos inside]
    exact ⟨Nat.le_add_right .., inside⟩
  · simp only [if_neg inside]
    exact nofun

variable {stream}

theorem readFrom_inside {tree : HuffmanTree} {addr size value : Nat} {code : HuffmanCode}
    (read : HuffmanCode.readFrom tree stream .littleEndian addr size value = .ok code) :
    tree (code.size, code.huffvalue) = some code.realvalue ∧
      (size < code.size → addr + code.size ≤ 8 * stream.data.length + size) := by
  fun_induction HuffmanCode.readFrom tree stream .littleEndian addr size value with
  | case1 addr size value symbol found =>
      cases read
      exact ⟨found, fun less => absurd less (Nat.lt_irrefl _)⟩
  | case2 => cases read
  | case3 => cases read
  | case4 addr size value _ _ bit here induction =>
      obtain ⟨found, inside⟩ := induction read
      have first := inside_of_readBits (by decide) here (by decide)
      exact ⟨found, fun _ => by omega⟩

/-- No symbol is read without a bit. -/
def Wordy (tree : HuffmanTree) : Prop := ∀ value, tree (0, value) = none

theorem yieldCode_halts {tree : HuffmanTree} (wordy : Wordy tree) :
    Halts (yieldCode stream tree) address (StaysIn stream (address + 1)) := by
  unfold Halts yieldCode
  cases read : HuffmanCode.new tree stream .littleEndian address with
  | error failure => exact nofun
  | ok code =>
      obtain ⟨found, inside⟩ := readFrom_inside read
      have positive : 0 < code.size := by
        refine Nat.pos_of_ne_zero fun none => ?_
        rw [none, wordy] at found
        cases found
      exact ⟨Nat.lt_add_of_pos_right positive, inside positive⟩

namespace DeflateBlock

theorem readNumber_halts {table : List (Nat × SymbolInfo)}
    (least : ∀ entry ∈ table, 0 < entry.2.least) (value : Nat)
    (inside : address ≤ 8 * stream.data.length) :
    Halts (readNumber stream table value) address fun number last =>
      0 < number ∧ StaysIn stream address number last := by
  unfold readNumber
  cases found : table.lookup value with
  | none => exact nofun
  | some info =>
      obtain ⟨before, after, whole, -⟩ := List.lookup_eq_some_iff.mp found
      have positive := least (value, info) (by simp [whole])
      dsimp only at positive ⊢
      split
      · exact ⟨positive, Nat.le_refl _, inside⟩
      · next some_ =>
          exact (yieldBits_halts stream (Nat.pos_of_ne_zero some_)).bind fun _ _ more =>
            ⟨Nat.add_pos_right _ positive, Nat.le_of_lt more.1, more.2⟩

theorem readCodeLengthCodes_halts (symbols lengths : List Nat) :
    Halts (readCodeLengthCodes stream symbols lengths) address fun _ last => address ≤ last := by
  induction symbols generalizing address lengths with
  | nil => exact Nat.le_refl _
  | cons symbol symbols induction =>
      refine (yieldBits_halts stream (by decide : 0 < 3)).bind fun _ _ more => ?_
      exact (induction _).mono fun _ _ rest => (Nat.le_of_lt more.1).trans rest

theorem readLengths_halts {tree : HuffmanTree} (wordy : Wordy tree) {numcodes fuel : Nat}
    (state : List Nat × Option Nat) (enough : numcodes ≤ state.1.length + fuel) :
    Halts (readLengths stream tree numcodes fuel state) address fun _ last => address ≤ last := by
  induction fuel generalizing address state with
  | zero =>
      rw [readLengths, if_neg (by omega)]
      exact Nat.le_refl _
  | succ fuel induction =>
      obtain ⟨lengths, prevValue⟩ := state
      dsimp only at enough
      rw [readLengths]
      split
      · refine (yieldCode_halts wordy).bind fun value last more => ?_
        have before := Nat.le_of_lt more.1
        split
        · exact (induction _ (by simp; omega)).mono fun _ _ rest => before.trans rest
        · split
          · exact nofun
          · refine (readNumber_halts (by decide) value more.2).bind fun repeats _ rest => ?_
            exact (induction _ (by simp; omega)).mono fun _ _ after =>
              (before.trans rest.2.1).trans after
      · exact Nat.le_refl _

theorem treeOf_halts (lengths : List Nat) :
    Halts (treeOf lengths) address fun tree last => Wordy tree ∧ address ≤ last := by
  unfold treeOf
  cases lengths with
  | nil => exact nofun
  | cons length lengths =>
      obtain ⟨tree, built, canonical⟩ := buildTree_spec (List.cons_ne_nil length lengths)
      rw [built]
      refine ⟨fun value => ?_, Nat.le_refl _⟩
      cases found : tree (0, value) with
      | none => rfl
      | some symbol => exact absurd rfl ((canonical _ _).mp found).1.2

theorem readTrees_halts : Halts (readTrees stream) address fun trees last =>
    (Wordy trees.1 ∧ Wordy trees.2) ∧ address ≤ last := by
  unfold readTrees
  refine (yieldBits_halts stream (by decide)).bind fun _ _ a => ?_
  refine (yieldBits_halts stream (by decide)).bind fun _ _ b => ?_
  refine (yieldBits_halts stream (by decide)).bind fun _ _ c => ?_
  refine (readCodeLengthCodes_halts _ _).bind fun _ _ d => ?_
  refine (treeOf_halts _).bind fun _ _ e => ?_
  refine (readLengths_halts e.1 _ (Nat.le_add_left ..)).bind fun _ _ f => ?_
  refine (readLengths_halts e.1 _ (Nat.le_add_left ..)).bind fun _ _ g => ?_
  refine (treeOf_halts _).bind fun _ _ h => ?_
  refine (treeOf_halts _).bind fun _ _ i => ?_
  exact ⟨⟨h.1, i.1⟩, by omega⟩

theorem extendData_halts (data : List UInt8) (length offset : Nat) :
    Halts (liftM (extendData data length offset) : Generator (List UInt8)) address fun _ last =>
      last = address := by
  unfold extendData
  split
  · split
    · exact nofun
    · rfl
  · rfl

/-- Every turn takes a bit, so the fuel is as good as the rest of the stream. -/
theorem readData_halts {trees : HuffmanTree × HuffmanTree} (wordy : Wordy trees.1 ∧ Wordy trees.2)
    {fuel : Nat} (positive : 0 < fuel) (enough : 8 * stream.data.length < address + fuel)
    (out : List UInt8) :
    Halts (readData stream trees fuel out) address (StaysIn stream address) := by
  induction fuel generalizing address out with
  | zero => cases positive
  | succ fuel induction =>
      rw [readData]
      refine (yieldCode_halts wordy.1).bind fun value last more => ?_
      split
      · exact (induction (by omega) (by omega) _).mono fun _ _ rest => by omega
      · split
        · exact ⟨Nat.le_of_lt more.1, more.2⟩
        · refine (readNumber_halts (by decide) value more.2).bind fun _ _ a => ?_
          refine (yieldCode_halts wordy.2).bind fun symbol _ b => ?_
          refine (readNumber_halts (by decide) symbol b.2).bind fun _ _ c => ?_
          refine (extendData_halts _ _ _).bind fun _ _ d => ?_
          subst d
          exact (induction (by omega) (by omega) _).mono fun _ _ rest => by omega

theorem readStored_halts : Halts (readStored stream) address (StaysIn stream address) := by
  have length (address : Nat) :
      Halts (yieldInt16 stream) address fun _ last => address < last :=
    (yieldBits_halts stream (by decide : 0 < 16)).bind fun _ _ more => more.1
  unfold readStored
  refine get_halts.bind fun _ _ a => ?_
  refine (yieldRaw_halts stream _).bind fun _ _ b => ?_
  refine (length _).bind fun len _ c => ?_
  refine (length _).bind fun nlen _ d => ?_
  split
  · exact nofun
  · split
    · exact nofun
    · exact (yieldRaw_halts stream _).mono fun _ _ rest => by omega

theorem wordy_treeOfEntries {entries : List ((Nat × Nat) × Nat)}
    (sized : ∀ entry ∈ entries, entry.1.1 ≠ 0) : Wordy (treeOfEntries entries) := by
  intro value
  refine List.lookup_eq_none_iff.mpr fun entry member => ?_
  exact bne_iff_ne.mpr fun same => sized entry member (congrArg Prod.fst same).symm

theorem createFields_halts (out : List UInt8) :
    Halts (createFields stream out) address (StaysIn stream (address + 1)) := by
  have data {trees : HuffmanTree × HuffmanTree} (wordy : Wordy trees.1 ∧ Wordy trees.2)
      (address : Nat) : Halts (readData stream trees (8 * stream.data.length + 1) out) address
        (StaysIn stream address) :=
    readData_halts wordy (Nat.succ_pos _) (by omega) out
  have fixed : Wordy (treeOfEntries fixedLengthEntries) ∧
      Wordy (treeOfEntries fixedDistanceEntries) :=
    ⟨wordy_treeOfEntries (by decide +kernel), wordy_treeOfEntries (by decide +kernel)⟩
  unfold createFields
  refine (yieldBits_halts stream (by decide : 0 < 1)).bind fun final _ a => ?_
  refine (yieldBits_halts stream (by decide : 0 < 2)).bind fun compressionType _ b => ?_
  split
  · exact readStored_halts.bind fun _ _ rest => ⟨by omega, rest.2⟩
  · split
    · exact (@data (_, _) fixed _).bind fun _ _ rest => ⟨by omega, rest.2⟩
    · split
      · refine readTrees_halts.bind fun _ _ c => ?_
        exact (data c.1 _).bind fun _ _ rest => ⟨by omega, rest.2⟩
      · exact nofun

end DeflateBlock

theorem DeflateData.blocks_halts {fuel : Nat} (positive : 0 < fuel)
    (enough : 8 * stream.data.length < address + fuel) (out : List UInt8) :
    Halts (DeflateData.blocks stream fuel out) address fun _ _ => True := by
  induction fuel generalizing address out with
  | zero => cases positive
  | succ fuel induction =>
      refine (DeflateBlock.createFields_halts out).bind fun result last more => ?_
      obtain ⟨final, out⟩ := result
      dsimp only
      split
      · trivial
      · exact induction (by omega) (by omega) out

/-- Whatever the stream has, the loops of the parser end. -/
theorem DeflateData.createFields_returns (stream : StringInputStream) (address : Nat) :
    DeflateData.createFields stream address ≠ .error .unfinished := by
  have halts : Halts (DeflateData.createFields stream) address fun _ _ => True := by
    unfold DeflateData.createFields
    refine (DeflateData.blocks_halts (Nat.succ_pos _) (by omega) []).bind fun _ _ _ => ?_
    refine get_halts.bind fun _ _ a => ?_
    exact (yieldRaw_halts stream _).bind fun _ _ _ => trivial
  intro unfinished
  rw [Halts, unfinished] at halts
  exact halts rfl

end Halts

end Segvault.Hachoir
