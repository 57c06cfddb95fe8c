import Segvault.CanonicalCode
import Segvault.Hachoir.BitFields

namespace Segvault.Hachoir

open BitString CanonicalCode

/-! The Huffman trees of the deflate parser and the fields that read their codes. -/

/-- A dictionary from lengths and codes to symbols. -/
abbrev HuffmanTree := Nat × Nat → Option Nat

def countLengths (maxLength : Nat) (lengths : List Nat) : List Nat :=
  lengths.foldl (fun bitCounts i => if i ≠ 0 then bitCounts.modify i (· + 1) else bitCounts)
    (List.replicate maxLength 0)

/-- The loop that finds the first code of each length, with the code before. -/
def nextCodes (bitCounts : List Nat) : List Nat → Nat → List Nat → List Nat
  | [], _, nextCode => nextCode
  | i :: rest, code, nextCode =>
      let code := (code + bitCounts.getD (i - 1) 0) <<< 1
      nextCodes bitCounts rest code (nextCode.set i code)

/-- The loop that hands the codes out to the symbols from `i` on. -/
def assignCodes : List Nat → Nat → List Nat → HuffmanTree → HuffmanTree
  | [], _, _, tree => tree
  | ln :: rest, i, nextCode, tree =>
      if ln ≠ 0 then
        let code := nextCode.getD ln 0
        assignCodes rest (i + 1) (nextCode.set ln (code + 1))
          (Function.update tree (ln, code) (some i))
      else assignCodes rest (i + 1) nextCode tree

/-- `none`: the list is empty and has no maximum, which raises `ValueError`. -/
def buildTree (lengths : List Nat) : Option HuffmanTree :=
  lengths.max?.map fun longest =>
    let maxLength := longest + 1
    let bitCounts := countLengths maxLength lengths
    let nextCode := nextCodes bitCounts (List.range' 1 (maxLength - 1)) 0
      (List.replicate maxLength 0)
    assignCodes lengths 0 nextCode fun _ => none

inductive HuffmanFailure
  | parserError (message : String)
  | streamError (failure : Failure)
  deriving DecidableEq, Repr

structure HuffmanCode where
  size : Nat
  huffvalue : Nat
  realvalue : Nat
  deriving DecidableEq, Repr

section Code

variable (tree : HuffmanTree) (stream : StringInputStream) (endian : Endian)

/-- The loop of the constructor. -/
def HuffmanCode.readFrom (addr size value : Nat) : Except HuffmanFailure HuffmanCode :=
  match tree (size, value) with
  | some realvalue => .ok { size, huffvalue := value, realvalue }
  | none =>
      if 256 < size then .error (.parserError "Huffman code too long!")
      else
        match stream.readBits addr 1 endian with
        | .error failure => .error (.streamError failure)
        | .ok bit => HuffmanCode.readFrom (addr + 1) (size + 1) (value <<< 1 + bit)
termination_by 257 - size

def HuffmanCode.new (absoluteAddress : Nat) : Except HuffmanFailure HuffmanCode :=
  HuffmanCode.readFrom tree stream endian absoluteAddress 0 0

/-- Fields one after the other, and the address behind the last. -/
def readCodes : Nat → Nat → Except HuffmanFailure (List HuffmanCode × Nat)
  | 0, address => .ok ([], address)
  | count + 1, address => do
      let field ← HuffmanCode.new tree stream endian address
      let (fields, last) ← readCodes count (address + field.size)
      .ok (field :: fields, last)

end Code

/-! The tree is the canonical code. -/

theorem countLengths_getD {maxLength : Nat} {lengths : List Nat} {length : Nat}
    (bound : length < maxLength) :
    (countLengths maxLength lengths).getD length 0 = words lengths length := by
  have step (bitCounts : List Nat) (inside : length < bitCounts.length) :
      (lengths.foldl (fun bitCounts i =>
        if i ≠ 0 then bitCounts.modify i (· + 1) else bitCounts) bitCounts).getD length 0 =
          bitCounts.getD length 0 + words lengths length := by
    induction lengths generalizing bitCounts with
    | nil => simp [words]
    | cons i rest induction =>
        rw [List.foldl_cons]
        by_cases none : i = 0
        · have same : words (i :: rest) length = words rest length := by
            unfold words
            split
            · rfl
            · rw [List.count_cons_of_ne (by omega)]
          rw [if_neg (not_not.mpr none), induction bitCounts inside, same]
        · rw [if_pos none, induction _ (by rwa [List.length_modify])]
          simp only [List.getD_eq_getElem?_getD, List.getElem?_modify]
          by_cases here : i = length
          · have more : words (i :: rest) length = words rest length + 1 := by
              unfold words
              rw [if_neg (by omega), if_neg (by omega), here, List.count_cons_self]
            simp only [if_pos here, more, List.getElem?_eq_getElem inside, Option.map_eq_map,
              Option.map_some, Option.getD_some]
            omega
          · have same : words (i :: rest) length = words rest length := by
              unfold words
              rw [List.count_cons_of_ne here]
            simp only [if_neg here, same, Option.map_eq_map, Option.map_id']
  rw [countLengths, step _ (by rwa [List.length_replicate])]
  simp

theorem nextCodes_spec {lengths : List Nat} {maxLength : Nat} (count start : Nat)
    (nextCode : List Nat) (room : start + count + 1 ≤ maxLength)
    (sized : nextCode.length = maxLength)
    (before : ∀ length, 1 ≤ length → length ≤ start →
      nextCode.getD length 0 = firstCode lengths length) :
    (nextCodes (countLengths maxLength lengths) (List.range' (start + 1) count)
        (firstCode lengths start) nextCode).length = maxLength ∧
      ∀ length, 1 ≤ length → length ≤ start + count →
        (nextCodes (countLengths maxLength lengths) (List.range' (start + 1) count)
          (firstCode lengths start) nextCode).getD length 0 = firstCode lengths length := by
  induction count generalizing start nextCode with
  | zero => exact ⟨sized, before⟩
  | succ count induction =>
      have code : (firstCode lengths start +
          (countLengths maxLength lengths).getD (start + 1 - 1) 0) <<< 1 =
            firstCode lengths (start + 1) := by
        rw [Nat.add_sub_cancel, countLengths_getD (by omega), firstCode, Nat.shiftLeft_eq,
          Nat.mul_comm]
      have more : start + (count + 1) = start + 1 + count := by omega
      rw [List.range'_succ, nextCodes, code, more]
      refine induction (start + 1) _ (by omega) (by rw [List.length_set, sized]) ?_
      intro length positive bound
      by_cases last : length = start + 1
      · rw [last, List.getD_eq_getElem?_getD, List.getElem?_set_self (by omega)]
        rfl
      · rw [List.getD_eq_getElem?_getD, List.getElem?_set_ne (Ne.symm last),
          ← List.getD_eq_getElem?_getD]
        exact before length positive (by omega)

/-- The loop over the symbols, when those before `symbol` have their codes. -/
theorem assignCodes_spec {lengths : List Nat} (rest : List Nat) (symbol : Nat)
    (nextCode : List Nat) (tree : HuffmanTree)
    (left : lengths.drop symbol = rest) (inside : ∀ length ∈ lengths, length < nextCode.length)
    (next : ∀ length, length ≠ 0 → length < nextCode.length →
      nextCode.getD length 0 = code lengths symbol length)
    (known : ∀ pair other, tree pair = some other ↔
      other < symbol ∧ Used lengths other pair.1 ∧ pair.2 = code lengths other pair.1)
    (pair : Nat × Nat) (other : Nat) :
    assignCodes rest symbol nextCode tree pair = some other ↔
      Used lengths other pair.1 ∧ pair.2 = code lengths other pair.1 := by
  induction rest generalizing symbol nextCode tree with
  | nil =>
      rw [assignCodes, known]
      have short := List.drop_eq_nil_iff.mp left
      constructor
      · rintro ⟨-, holds⟩
        exact holds
      · rintro ⟨used, same⟩
        have bound := (List.getElem?_eq_some_iff.mp used.1).1
        exact ⟨by omega, used, same⟩
  | cons ln rest induction =>
      have here : lengths[symbol]? = some ln := by
        have head := congrArg List.head? left
        rwa [List.head?_drop, List.head?_cons] at head
      have further : lengths.drop (symbol + 1) = rest := by
        rw [← List.drop_drop, left, List.drop_succ_cons, List.drop_zero]
      have grown (length : Nat) : code lengths (symbol + 1) length =
          code lengths symbol length + if ln = length then 1 else 0 := by
        rw [code, code, List.take_add_one, here, Option.toList_some, List.count_append,
          List.count_singleton, Nat.add_assoc]
        simp only [beq_iff_eq]
      rw [assignCodes]
      by_cases none : ln = 0
      · rw [if_neg (not_not.mpr none)]
        refine induction (symbol + 1) nextCode tree further inside ?_ ?_
        · intro length positive bound
          rw [next length positive bound, grown, if_neg (by omega), Nat.add_zero]
        · intro pair other
          rw [known]
          constructor
          · rintro ⟨before, holds⟩
            exact ⟨by omega, holds⟩
          · rintro ⟨before, used, same⟩
            refine ⟨Nat.lt_of_le_of_ne (Nat.lt_succ_iff.mp before) ?_, used, same⟩
            rintro rfl
            have zero := used.1
            rw [here] at zero
            exact used.2 ((Option.some.inj zero).symm.trans none)
      · have used : Used lengths symbol ln := ⟨here, none⟩
        have bound := inside ln (List.mem_of_getElem? here)
        rw [if_pos none, next ln none bound]
        refine induction (symbol + 1) _ _ further
          (fun length member => by rw [List.length_set]; exact inside length member) ?_ ?_
        · intro length positive room
          rw [List.length_set] at room
          rw [grown, List.getD_eq_getElem?_getD]
          by_cases same : ln = length
          · subst same
            rw [List.getElem?_set_self room, if_pos rfl]
            rfl
          · rw [List.getElem?_set_ne same, if_neg same, ← List.getD_eq_getElem?_getD,
              next length positive room, Nat.add_zero]
        · intro pair other
          rw [Function.update_apply]
          by_cases same : pair = (ln, code lengths symbol ln)
          · rw [if_pos same]
            subst same
            constructor
            · intro found
              cases found
              exact ⟨Nat.lt_succ_self symbol, used, rfl⟩
            · rintro ⟨-, third, equal⟩
              rw [third.code_injective used equal.symm]
          · rw [if_neg same, known]
            constructor
            · rintro ⟨before, holds⟩
              exact ⟨by omega, holds⟩
            · rintro ⟨before, third, equal⟩
              refine ⟨Nat.lt_of_le_of_ne (Nat.lt_succ_iff.mp before) ?_, third, equal⟩
              rintro rfl
              have length := Option.some.inj (third.1.symm.trans here)
              exact same (Prod.ext length (by rw [equal, length]))

theorem buildTree_spec {lengths : List Nat} (nonempty : lengths ≠ []) :
    ∃ tree, buildTree lengths = some tree ∧ ∀ pair symbol, tree pair = some symbol ↔
      Used lengths symbol pair.1 ∧ pair.2 = code lengths symbol pair.1 := by
  cases longest : lengths.max? with
  | none => exact absurd (List.max?_eq_none_iff.mp longest) nonempty
  | some maximum =>
      have bounded := (List.max?_eq_some_iff.mp longest).2
      refine ⟨_, by rw [buildTree, longest, Option.map_some], ?_⟩
      obtain ⟨sized, first⟩ := @nextCodes_spec lengths (maximum + 1)
        maximum 0 (List.replicate (maximum + 1) 0) (by omega) (List.length_replicate ..)
        (fun length positive bound => by omega)
      refine fun pair symbol => assignCodes_spec lengths 0 _ _ rfl ?_ ?_ ?_ pair symbol
      · intro length member
        rw [Nat.add_sub_cancel]
        refine lt_of_lt_of_eq (Nat.lt_succ_of_le (bounded length member)) sized.symm
      · intro length positive bound
        rw [Nat.add_sub_cancel] at bound ⊢
        have room := lt_of_lt_of_eq bound sized
        refine (first length (by omega) (by omega)).trans ?_
        simp [code]
      · intro pair symbol
        simp

theorem used_getD {lengths : List Nat} {symbol : Nat} (used : lengths.getD symbol 0 ≠ 0) :
    Used lengths symbol (lengths.getD symbol 0) := by
  refine ⟨?_, used⟩
  rw [List.getD_eq_getElem?_getD] at used ⊢
  cases here : lengths[symbol]? with
  | none =>
      rw [here] at used
      exact absurd rfl used
  | some length => rfl

/-! Reading codes. -/

/-- The bits that a stream gives from an address on, read one at a time. -/
def HasBits (stream : StringInputStream) (endian : Endian) (address : Nat)
    (string : List Bool) : Prop :=
  ∀ index bit, string[index]? = some bit →
    stream.readBits (address + index) 1 endian = .ok bit.toNat

section Reading

variable {stream : StringInputStream} {endian : Endian} {address : Nat}

theorem hasBits_between (standard : endian ≠ .middleEndian)
    {before string after : List Bool}
    (content : BitString.stream endian.order stream.data = before ++ string ++ after) :
    HasBits stream endian before.length string := by
  intro index bit here
  obtain ⟨bound, same⟩ := List.getElem?_eq_some_iff.mp here
  have split : string = string.take index ++ [bit] ++ string.drop (index + 1) := by
    rw [← same, List.append_assoc, List.singleton_append, List.cons_getElem_drop_succ,
      List.take_append_drop]
  have around : BitString.stream endian.order stream.data =
      (before ++ string.take index) ++ [bit] ++ (string.drop (index + 1) ++ after) := by
    rw [content]
    conv_lhs => rw [split]
    simp only [List.append_assoc]
  have read := readBits_between standard around rfl Nat.one_pos
    (by rw [List.length_singleton]; omega)
  rw [List.length_append, List.length_take, Nat.min_eq_left bound.le] at read
  refine read.trans (congrArg Except.ok ?_)
  cases endian.order <;> rfl

theorem HasBits.left {first second : List Bool}
    (bits : HasBits stream endian address (first ++ second)) :
    HasBits stream endian address first := by
  intro index bit here
  obtain ⟨bound, -⟩ := List.getElem?_eq_some_iff.mp here
  exact bits index bit (by rwa [List.getElem?_append_left bound])

theorem HasBits.right {first second : List Bool}
    (bits : HasBits stream endian address (first ++ second)) :
    HasBits stream endian (address + first.length) second := by
  intro index bit here
  rw [Nat.add_assoc]
  refine bits (first.length + index) bit ?_
  rwa [List.getElem?_append_right (Nat.le_add_right _ _), Nat.add_sub_cancel_left]

/-- The loop goes on as long as no code is the bits read so far. -/
theorem readFrom_spec {tree : HuffmanTree} {symbol : Nat} (left done : List Bool)
    (short : (done ++ left).length ≤ 256)
    (open_ : ∀ count < left.length, tree (done.length + count,
      decode .highFirst (done ++ left.take count)) = none)
    (closed : tree ((done ++ left).length, decode .highFirst (done ++ left)) = some symbol)
    (bits : HasBits stream endian address left) :
    HuffmanCode.readFrom tree stream endian address done.length (decode .highFirst done) =
      .ok
        { size := (done ++ left).length
          huffvalue := decode .highFirst (done ++ left)
          realvalue := symbol } := by
  induction left generalizing done address with
  | nil =>
      rw [List.append_nil] at closed ⊢
      rw [HuffmanCode.readFrom, closed]
  | cons bit left induction =>
      have now := open_ 0 (Nat.succ_pos _)
      rw [List.take_zero, List.append_nil, Nat.add_zero] at now
      rw [List.length_append, List.length_cons] at short
      have value : decode .highFirst done <<< 1 + bit.toNat =
          decode .highFirst (done ++ [bit]) := by
        rw [decode_highFirst_append, Nat.shiftLeft_eq, Nat.add_comm, Nat.mul_comm]
        cases bit <;> rfl
      have whole : done ++ bit :: left = done ++ [bit] ++ left := by
        rw [List.append_assoc, List.singleton_append]
      rw [HuffmanCode.readFrom, now]
      dsimp only
      have read : stream.readBits address 1 endian = .ok bit.toNat := bits 0 bit rfl
      rw [if_neg (by omega), read]
      dsimp only
      have more : done.length + 1 = (done ++ [bit]).length := by
        rw [List.length_append, List.length_singleton]
      rw [value, whole, more]
      rw [whole] at closed
      refine induction (done ++ [bit]) ?_ ?_ closed ?_
      · simp only [List.length_append, List.length_singleton]
        omega
      · intro count bound
        have later := open_ (count + 1) (Nat.succ_lt_succ bound)
        rw [List.take_succ_cons] at later
        rw [List.length_append, List.length_singleton, List.append_assoc, List.singleton_append,
          Nat.add_assoc, Nat.add_comm 1]
        exact later
      · intro index next here
        rw [Nat.add_assoc, Nat.add_comm 1]
        exact bits (index + 1) next here

variable {lengths : List Nat} {tree : HuffmanTree}

/-- One field reads the word of one symbol. -/
theorem new_spec (kraft : Kraft lengths 256)
    (canonical : ∀ pair symbol, tree pair = some symbol ↔
      Used lengths symbol pair.1 ∧ pair.2 = code lengths symbol pair.1)
    {symbol length : Nat} (used : Used lengths symbol length)
    (bits : HasBits stream endian address (word lengths symbol length)) :
    HuffmanCode.new tree stream endian address =
      .ok
        { size := length
          huffvalue := code lengths symbol length
          realvalue := symbol } := by
  have size : (word lengths symbol length).length = length := length_encode ..
  have value : decode .highFirst (word lengths symbol length) = code lengths symbol length := by
    rw [word, decode_encode, Nat.mod_eq_of_lt (kraft.code_lt used)]
  have read := @readFrom_spec stream endian address tree symbol (word lengths symbol length) []
    (by rw [List.nil_append, size]; exact kraft.bounded length (List.mem_of_getElem? used.1))
    (by
      intro count bound
      rw [size] at bound
      rw [List.nil_append, List.length_nil, Nat.zero_add]
      have front : (word lengths symbol length).take count <+: word lengths symbol length :=
        List.take_prefix _ _
      have taken : ((word lengths symbol length).take count).length = count := by
        rw [List.length_take, size, Nat.min_eq_left bound.le]
      by_contra present
      obtain ⟨other, found⟩ := Option.ne_none_iff_exists'.mp present
      obtain ⟨third, same⟩ := (canonical _ _).mp found
      have shorter : word lengths other count = (word lengths symbol length).take count := by
        have round := encode_decode .highFirst ((word lengths symbol length).take count)
        rw [taken] at round
        rw [word, ← round, ← same]
      rw [← shorter] at front
      have equal := kraft.eq_of_isPrefix third used front
      rw [equal] at third
      have lengths := Option.some.inj (third.1.symm.trans used.1)
      omega)
    ((canonical _ _).mpr (by
      rw [List.nil_append, size, value]
      exact ⟨used, rfl⟩)) bits
  rw [List.nil_append, size, value] at read
  exact read

/-- The codes of a list of symbols one after the other. -/
def encodeSymbols (lengths : List Nat) (symbols : List Nat) : List Bool :=
  symbols.flatMap fun symbol => word lengths symbol (lengths.getD symbol 0)

theorem readCodes_spec (kraft : Kraft lengths 256)
    (canonical : ∀ pair symbol, tree pair = some symbol ↔
      Used lengths symbol pair.1 ∧ pair.2 = code lengths symbol pair.1)
    (symbols : List Nat) (used : ∀ symbol ∈ symbols, lengths.getD symbol 0 ≠ 0)
    (bits : HasBits stream endian address (encodeSymbols lengths symbols)) :
    ∃ fields, readCodes tree stream endian symbols.length address =
        .ok (fields, address + (encodeSymbols lengths symbols).length) ∧
      fields.map HuffmanCode.realvalue = symbols ∧
      fields.map HuffmanCode.size = symbols.map fun symbol => lengths.getD symbol 0 := by
  induction symbols generalizing address with
  | nil => exact ⟨[], rfl, rfl, rfl⟩
  | cons symbol symbols induction =>
      have split : encodeSymbols lengths (symbol :: symbols) =
          word lengths symbol (lengths.getD symbol 0) ++ encodeSymbols lengths symbols :=
        List.flatMap_cons
      rw [split] at bits ⊢
      have first := new_spec kraft canonical (used_getD (used symbol (List.mem_cons_self ..)))
        bits.left
      have behind := bits.right
      generalize same : lengths.getD symbol 0 = length at first behind split ⊢
      have size : (word lengths symbol length).length = length := length_encode ..
      rw [size] at behind
      obtain ⟨fields, rest, values, sizes⟩ := induction
        (fun other member => used other (List.mem_cons_of_mem _ member)) behind
      refine ⟨⟨length, code lengths symbol length, symbol⟩ :: fields, ?_, ?_, ?_⟩
      · rw [List.length_cons, readCodes, first]
        change (readCodes tree stream endian symbols.length (address + length) >>= _) = _
        rw [rest, List.length_append, size, Nat.add_assoc]
        rfl
      · rw [List.map_cons, values]
      · rw [List.map_cons, List.map_cons, sizes, same]

end Reading

/-! The words of a tree. -/

def wordOf (pair : Nat × Nat) : List Bool := encode .highFirst pair.1 pair.2

/-- A tree for some lengths: every symbol that is used has one code, which fits its length, no
code begins another, the codes are ordered by length and symbol with those of one length in a
row, and what the codes of any symbols encode is read back. -/
structure Decodes (lengths : List Nat) (tree : HuffmanTree) : Prop where
  unique : ∀ symbol length, Used lengths symbol length →
    ∃ code < 2 ^ length, ∀ pair, tree pair = some symbol ↔ pair = (length, code)
  sound : ∀ pair symbol, tree pair = some symbol → Used lengths symbol pair.1
  free : ∀ pair symbol pair' symbol', tree pair = some symbol → tree pair' = some symbol' →
    wordOf pair <+: wordOf pair' → pair = pair'
  ordered : ∀ pair symbol pair' symbol', tree pair = some symbol → tree pair' = some symbol' →
    pair.1 < pair'.1 ∨ pair.1 = pair'.1 ∧ symbol < symbol' → wordOf pair < wordOf pair'
  consecutive : ∀ length symbol code symbol' code',
    tree (length, code) = some symbol → tree (length, code') = some symbol' →
    symbol ≤ symbol' →
    code' = code + ((lengths.take symbol').drop symbol).count length
  decodes : ∀ stream endian address (symbols : List Nat) (string : List (List Bool)),
    List.Forall₂ (fun symbol bits => ∃ pair, tree pair = some symbol ∧ bits = wordOf pair)
      symbols string →
    HasBits stream endian address string.flatten →
    ∃ fields, readCodes tree stream endian symbols.length address =
        .ok (fields, address + string.flatten.length) ∧
      fields.map HuffmanCode.realvalue = symbols ∧
      fields.map HuffmanCode.size = string.map List.length

theorem buildTree_decodes {lengths : List Nat} (kraft : Kraft lengths 256)
    (some_used : ∃ length ∈ lengths, length ≠ 0) :
    ∃ tree, buildTree lengths = some tree ∧ Decodes lengths tree := by
  obtain ⟨length, member, -⟩ := some_used
  obtain ⟨tree, built, canonical⟩ := buildTree_spec (List.ne_nil_of_mem member)
  have word_eq {pair : Nat × Nat} {symbol : Nat} (found : tree pair = some symbol) :
      wordOf pair = word lengths symbol pair.1 := by
    rw [wordOf, word, ← ((canonical pair symbol).mp found).2]
  refine ⟨tree, built, ?_, ?_, ?_, ?_, ?_, ?_⟩
  · intro symbol length used
    refine ⟨code lengths symbol length, kraft.code_lt used, fun pair => ?_⟩
    rw [canonical]
    constructor
    · rintro ⟨here, same⟩
      have equal := Option.some.inj (here.1.symm.trans used.1)
      exact Prod.ext equal (by rw [same, equal])
    · rintro rfl
      exact ⟨used, rfl⟩
  · intro pair symbol found
    exact ((canonical pair symbol).mp found).1
  · intro pair symbol pair' symbol' found found' front
    rw [word_eq found, word_eq found'] at front
    obtain ⟨used, same⟩ := (canonical pair symbol).mp found
    obtain ⟨used', same'⟩ := (canonical pair' symbol').mp found'
    obtain rfl := kraft.eq_of_isPrefix used used' front
    have equal := Option.some.inj (used.1.symm.trans used'.1)
    exact Prod.ext equal (by rw [same, same', equal])
  · intro pair symbol pair' symbol' found found' order
    rw [word_eq found, word_eq found']
    exact kraft.word_lt ((canonical pair symbol).mp found).1
      ((canonical pair' symbol').mp found').1 order
  · intro length symbol code symbol' code' found found' le
    have same := ((canonical _ _).mp found).2
    have same' := ((canonical _ _).mp found').2
    dsimp only at same same'
    rw [same, same', code_eq_add length le]
  · intro stream endian address symbols string words bits
    obtain ⟨used, encoded⟩ : (∀ symbol ∈ symbols, lengths.getD symbol 0 ≠ 0) ∧
        string = symbols.map fun symbol => word lengths symbol (lengths.getD symbol 0) := by
      clear bits
      induction words with
      | nil => exact ⟨fun symbol member => absurd member List.not_mem_nil, rfl⟩
      | cons head tail induction =>
          rename_i symbol bits symbols string
          obtain ⟨pair, found, rfl⟩ := head
          obtain ⟨here, fits⟩ := ((canonical pair symbol).mp found).1
          have length : lengths.getD symbol 0 = pair.1 := by
            rw [List.getD_eq_getElem?_getD, here]
            rfl
          refine ⟨List.forall_mem_cons.mpr ⟨by rwa [length], induction.1⟩, ?_⟩
          rw [List.map_cons, ← induction.2, word_eq found, length]
    have flat : string.flatten = encodeSymbols lengths symbols := by
      rw [encoded, encodeSymbols, List.flatMap_def]
    rw [flat] at bits ⊢
    obtain ⟨fields, read, values, sizes⟩ := readCodes_spec kraft canonical symbols used bits
    refine ⟨fields, read, values, sizes.trans ?_⟩
    rw [encoded, List.map_map]
    refine List.map_congr_left fun symbol _ => ?_
    exact (length_encode ..).symm

theorem buildTree_decodes_three :
    ∃ tree, buildTree [2, 1, 0, 2] = some tree ∧ Decodes [2, 1, 0, 2] tree :=
  buildTree_decodes ⟨by decide, by decide⟩ ⟨2, by decide, by decide⟩

end Segvault.Hachoir
