import Segvault.Hachoir.Deflate
import Segvault.OverlapCopy

namespace Segvault.Hachoir

open BitString CanonicalCode

/-! What the generators make of bits that lie in the stream. -/

/-- The stream has these bits at an address. -/
def Between (stream : StringInputStream) (address : Nat) (bits : List Bool) : Prop :=
  ∃ before after, BitString.stream .lowFirst stream.data = before ++ bits ++ after ∧
    before.length = address

/-- Where the stream has the bits, the generator takes all of them. -/
def Parses {α : Type} (stream : StringInputStream) (address : Nat) (generator : Generator α)
    (bits : List Bool) (value : α) : Prop :=
  Between stream address bits → generator address = .ok (value, address + bits.length)

section Reading

variable {stream : StringInputStream} {address : Nat} {bits rest : List Bool}

theorem Between.left (between : Between stream address (bits ++ rest)) :
    Between stream address bits := by
  obtain ⟨before, after, content, place⟩ := between
  exact ⟨before, rest ++ after, by rw [content]; simp only [List.append_assoc], place⟩

theorem Between.right (between : Between stream address (bits ++ rest)) :
    Between stream (address + bits.length) rest := by
  obtain ⟨before, after, content, place⟩ := between
  refine ⟨before ++ bits, after, by rw [content]; simp only [List.append_assoc], ?_⟩
  rw [List.length_append, place]

theorem Between.inside (between : Between stream address bits) :
    address + bits.length ≤ 8 * stream.data.length := by
  obtain ⟨before, after, content, place⟩ := between
  have whole := congrArg List.length content
  rw [length_stream] at whole
  simp only [List.length_append] at whole
  omega

variable {α β : Type} {generator : Generator α} {next : α → Generator β} {value : α} {result : β}

theorem parses_pure : Parses stream address (pure value) [] value := fun _ => rfl

theorem Parses.bind (first : Parses stream address generator bits value)
    (second : Parses stream (address + bits.length) (next value) rest result) :
    Parses stream address (generator >>= next) (bits ++ rest) result := by
  intro between
  rw [List.length_append, ← Nat.add_assoc, ← second between.right]
  change (generator address >>= fun pair => next pair.1 pair.2) = _
  rw [first between.left]
  rfl

/-- The last step that takes bits. -/
theorem Parses.bind_end (first : Parses stream address generator bits value)
    (second : Parses stream (address + bits.length) (next value) [] result) :
    Parses stream address (generator >>= next) bits result := by
  have both := first.bind second
  rwa [List.append_nil] at both

theorem Parses.bind_nil (first : Parses stream address generator [] value)
    (second : Parses stream address (next value) bits result) :
    Parses stream address (generator >>= next) bits result :=
  first.bind second

theorem yieldBits_parses {count number : Nat} (small : number < 2 ^ count) (positive : 0 < count)
    (narrow : count ≤ 248) :
    Parses stream address (yieldBits stream count) (encode .lowFirst count number) number := by
  rintro ⟨before, after, content, rfl⟩
  have read := @readBits_between .littleEndian (by decide) stream.data before _ after count
    content (length_encode ..) positive narrow
  rw [Endian.order, decode_encode, Nat.mod_eq_of_lt small] at read
  rw [yieldBits, read, length_encode]

theorem yieldRaw_parses : Parses stream address (yieldRaw stream bits.length) bits () := by
  intro between
  rw [yieldRaw, if_pos between.inside]

/-- The word of a symbol that is used. -/
def symbolBits (lengths : List Nat) (symbol : Nat) : List Bool :=
  word lengths symbol (lengths.getD symbol 0)

/-- A tree for a prefix code, whose codes are the words of some lengths. -/
structure Coded (lengths : List Nat) (tree : HuffmanTree) : Prop where
  kraft : Kraft lengths 256
  canonical : ∀ pair symbol, tree pair = some symbol ↔
    Used lengths symbol pair.1 ∧ pair.2 = code lengths symbol pair.1

theorem yieldCode_parses {lengths : List Nat} {tree : HuffmanTree} (coded : Coded lengths tree)
    {symbol : Nat} (used : lengths.getD symbol 0 ≠ 0) :
    Parses stream address (yieldCode stream tree) (symbolBits lengths symbol) symbol := by
  rintro ⟨before, after, content, rfl⟩
  have read := @hasBits_between stream .littleEndian (by decide) _ _ _ content
  rw [yieldCode, new_spec coded.kraft coded.canonical (used_getD used) read, symbolBits, word,
    length_encode]

end Reading

namespace DeflateBlock

/-! Numbers that are a symbol and extra bits. -/

structure Number (table : List (Nat × SymbolInfo)) where
  symbol : Nat
  info : SymbolInfo
  extra : Nat
  listed : (symbol, info) ∈ table
  small : extra < 2 ^ info.extra

section Numbers

variable {table : List (Nat × SymbolInfo)} (number : Number table)

def Number.value : Nat := number.extra + number.info.least

def Number.extraBits : List Bool := encode .lowFirst number.info.extra number.extra

def Number.encode (lengths : List Nat) : List Bool :=
  symbolBits lengths number.symbol ++ number.extraBits

theorem readNumber_parses {stream : StringInputStream} {address : Nat}
    (found : ∀ entry ∈ table, table.lookup entry.1 = some entry.2 ∧ entry.2.extra ≤ 248) :
    Parses stream address (readNumber stream table number.symbol) number.extraBits
      number.value := by
  obtain ⟨same, narrow⟩ := found _ number.listed
  have small := number.small
  rw [readNumber, same, Number.value, Number.extraBits]
  dsimp only
  split
  · next none =>
      rw [none, pow_zero, Nat.lt_one_iff] at small
      rw [none, small, Nat.zero_add]
      exact parses_pure
  · next some_ =>
      exact (yieldBits_parses small (Nat.pos_of_ne_zero some_) narrow).bind_end parses_pure

end Numbers

/-! The data of a block. -/

inductive Token
  | literal (byte : UInt8)
  | copy (length : Number lengthSymbols) (distance : Number distanceSymbols)

namespace Token

def encode (lengths distances : List Nat) : Token → List Bool
  | literal byte => symbolBits lengths byte.toNat
  | copy length distance => length.encode lengths ++ distance.encode distances

/-- The symbols of the token have codes, and the bytes that it copies are there. -/
def Valid (lengths distances : List Nat) (out : List UInt8) : Token → Prop
  | literal byte => lengths.getD byte.toNat 0 ≠ 0
  | copy length distance =>
      lengths.getD length.symbol 0 ≠ 0 ∧ distances.getD distance.symbol 0 ≠ 0 ∧
        distance.value ≤ out.length

/-- What the token stands for, byte by byte. -/
def expand (out : List UInt8) : Token → List UInt8
  | literal byte => out ++ [byte]
  | copy length distance => OverlapCopy.copy distance.value length.value out

def ValidAll (lengths distances : List Nat) : List UInt8 → List Token → Prop
  | _, [] => True
  | out, token :: tokens =>
      token.Valid lengths distances out ∧ ValidAll lengths distances (token.expand out) tokens

end Token

/-- The codes of the tokens, and the code that ends the block. -/
def encodeData (lengths distances : List Nat) (tokens : List Token) : List Bool :=
  tokens.flatMap (Token.encode lengths distances) ++ symbolBits lengths 256

theorem lengthSymbols_entry : ∀ entry ∈ lengthSymbols, 256 < entry.1 ∧
    lengthSymbols.lookup entry.1 = some entry.2 ∧ entry.2.extra ≤ 248 := by
  decide

theorem distanceSymbols_entry : ∀ entry ∈ distanceSymbols, 0 < entry.2.least ∧
    distanceSymbols.lookup entry.1 = some entry.2 ∧ entry.2.extra ≤ 248 := by
  decide

theorem extendData_eq {data : List UInt8} {length offset : Nat} (positive : 0 < offset)
    (inside : offset ≤ data.length) :
    extendData data length offset = .ok (OverlapCopy.copy offset length data) := by
  obtain ⟨front, last, rfl, rfl⟩ : ∃ front last, data = front ++ last ∧ last.length = offset :=
    ⟨data.take (data.length - offset), data.drop (data.length - offset),
      (List.take_append_drop ..).symm, by rw [List.length_drop]; omega⟩
  have place : (front ++ last).length - last.length = front.length := by
    rw [List.length_append, Nat.add_sub_cancel]
  have whole := Nat.div_add_mod length last.length
  rw [extendData, place, List.drop_left]
  split
  · have enough : length ≤ alignValue length last.length / last.length * last.length := by
      rw [alignValue]
      split
      · have less := Nat.mod_lt length positive
        have up : length + last.length - length % last.length =
            last.length * (length / last.length + 1) := by
          rw [Nat.mul_add]
          omega
        rw [up, Nat.mul_div_cancel_left _ positive, Nat.mul_comm]
        omega
      · rw [Nat.mul_comm]
        omega
    rw [if_neg positive.ne', OverlapCopy.copy_eq front _ enough]
  · have cut : (front ++ last).length + length - last.length = front.length + length := by
      rw [List.length_append]
      omega
    rw [cut, OverlapCopy.copy_eq front 1 (by omega), List.take_length_add_append, List.drop_left,
      List.replicate_one, List.flatten_singleton, List.append_assoc]

section Data

variable {stream : StringInputStream} {address : Nat} {lengths distances : List Nat}
  {trees : HuffmanTree × HuffmanTree}

theorem readData_parses (coded : Coded lengths trees.1) (codedDistances : Coded distances trees.2)
    (ends : lengths.getD 256 0 ≠ 0) (tokens : List Token) {out : List UInt8}
    (valid : Token.ValidAll lengths distances out tokens) {fuel : Nat}
    (enough : tokens.length < fuel) :
    Parses stream address (readData stream trees fuel out) (encodeData lengths distances tokens)
      (tokens.foldl Token.expand out) := by
  -- Each token takes one turn of the loop; the code that ends the block takes the last one.
  induction tokens generalizing address out fuel with
  | nil =>
      obtain ⟨fuel, rfl⟩ : ∃ less, fuel = less + 1 := ⟨fuel - 1, by omega⟩
      rw [readData]
      exact (yieldCode_parses coded ends).bind_end parses_pure
  | cons token tokens induction =>
      obtain ⟨fuel, rfl⟩ : ∃ less, fuel = less + 1 := ⟨fuel - 1, by omega⟩
      obtain ⟨here, others⟩ := valid
      have less := Nat.lt_of_succ_lt_succ enough
      have further (address : Nat) := @induction address _ others fuel less
      rw [readData, encodeData, List.flatMap_cons, List.append_assoc]
      cases token with
      | literal byte =>
          refine (yieldCode_parses coded here).bind ?_
          rw [if_pos byte.toNat_lt, UInt8.ofNat_toNat]
          exact further _
      | copy length distance =>
          have above := (lengthSymbols_entry _ length.listed).1
          have positive := (distanceSymbols_entry _ distance.listed).1
          dsimp only at above positive
          have extended := @extendData_eq out length.value distance.value
            (by rw [Number.value]; omega) here.2.2
          simp only [Token.encode, Number.encode, List.append_assoc]
          refine (yieldCode_parses coded here.1).bind ?_
          rw [if_neg (by omega), if_neg (by omega)]
          refine (readNumber_parses length fun entry member =>
            (lengthSymbols_entry entry member).2).bind ?_
          refine (yieldCode_parses codedDistances here.2.1).bind ?_
          refine (readNumber_parses distance fun entry member =>
            (distanceSymbols_entry entry member).2).bind ?_
          rw [extended]
          exact further _

theorem length_le_encodeData (tokens : List Token) {out : List UInt8}
    (valid : Token.ValidAll lengths distances out tokens) :
    tokens.length ≤ (encodeData lengths distances tokens).length := by
  induction tokens generalizing out with
  | nil => exact Nat.zero_le _
  | cons token tokens induction =>
      have rest := induction valid.2
      have bits : 0 < (token.encode lengths distances).length := by
        cases token with
        | literal byte =>
            rw [Token.encode, symbolBits, word, length_encode]
            exact Nat.pos_of_ne_zero valid.1
        | copy length distance =>
            have positive := Nat.pos_of_ne_zero valid.1.1
            simp only [Token.encode, Number.encode, symbolBits, word, List.length_append,
              length_encode]
            omega
      rw [encodeData, List.length_append] at rest ⊢
      rw [List.flatMap_cons, List.length_append, List.length_cons]
      omega

end Data

/-! The codes of a block with fixed codes. -/

def fixedLengths : List Nat :=
  List.replicate 144 8 ++ List.replicate 112 9 ++ List.replicate 24 7 ++ List.replicate 8 8

def fixedDistances : List Nat := List.replicate 32 5

theorem coded_treeOfEntries {lengths : List Nat} {entries : List ((Nat × Nat) × Nat)}
    (kraft : Kraft lengths 256)
    (sound : ∀ entry ∈ entries, lengths[entry.2]? = some entry.1.1 ∧ entry.1.1 ≠ 0 ∧
      entry.1.2 = code lengths entry.2 entry.1.1)
    (complete : ∀ symbol < lengths.length,
      let length := lengths.getD symbol 0
      length ≠ 0 → entries.lookup (length, code lengths symbol length) = some symbol) :
    Coded lengths (treeOfEntries entries) := by
  refine ⟨kraft, fun pair symbol => ⟨fun found => ?_, ?_⟩⟩
  · obtain ⟨before, after, whole, -⟩ := List.lookup_eq_some_iff.mp found
    obtain ⟨here, positive, same⟩ := sound (pair, symbol)
      (whole ▸ List.mem_append_right before (List.mem_cons_self ..))
    exact ⟨⟨here, positive⟩, same⟩
  · obtain ⟨length, number⟩ := pair
    rintro ⟨⟨here, positive⟩, same⟩
    dsimp only at here positive same
    subst same
    have below := (List.getElem?_eq_some_iff.mp here).1
    have found := complete symbol below
    rw [List.getD_eq_getElem?_getD, here, Option.getD_some] at found
    exact found positive

theorem coded_fixedLengths : Coded fixedLengths (treeOfEntries fixedLengthEntries) :=
  coded_treeOfEntries ⟨by decide +kernel, by decide +kernel⟩ (by decide +kernel)
    (by decide +kernel)

theorem coded_fixedDistances : Coded fixedDistances (treeOfEntries fixedDistanceEntries) :=
  coded_treeOfEntries ⟨by decide +kernel, by decide +kernel⟩ (by decide +kernel)
    (by decide +kernel)

/-! The tables of a block that describes its codes. -/

/-- A code length, or a symbol that repeats one. -/
inductive Command
  | length (value : Fin 16)
  | repeats (number : Number repeatSymbols)

namespace Command

def encode (alphabet : List Nat) : Command → List Bool
  | length value => symbolBits alphabet value.val
  | repeats number => number.encode alphabet

/-- The table with the length before once more, as often as a symbol says, or with zeros. -/
def expand (lengths : List Nat) : Command → List Nat
  | length value => lengths ++ [value.val]
  | repeats number =>
      lengths ++ List.replicate number.value (if number.symbol = 16 then lengths.getLastD 0 else 0)

def lastLength (prevValue : Option Nat) : Command → Option Nat
  | length value => some value.val
  | repeats _ => prevValue

/-- The symbol has a code, and what it copies is the last length that was not a repeat. -/
def Valid (alphabet lengths : List Nat) (prevValue : Option Nat) : Command → Prop
  | length value => alphabet.getD value.val 0 ≠ 0
  | repeats number =>
      alphabet.getD number.symbol 0 ≠ 0 ∧
        (number.symbol = 16 → prevValue = some (lengths.getLastD 0))

def ValidAll (alphabet : List Nat) : List Nat → Option Nat → List Command → Prop
  | _, _, [] => True
  | lengths, prevValue, command :: commands =>
      command.Valid alphabet lengths prevValue ∧
        ValidAll alphabet (command.expand lengths) (command.lastLength prevValue) commands

end Command

theorem repeatSymbols_entry : ∀ entry ∈ repeatSymbols, 16 ≤ entry.1 ∧ 0 < entry.2.least ∧
    repeatSymbols.lookup entry.1 = some entry.2 ∧ entry.2.extra ≤ 248 := by
  decide

theorem length_le_expand (commands : List Command) (lengths : List Nat) :
    lengths.length + commands.length ≤ (commands.foldl Command.expand lengths).length := by
  induction commands generalizing lengths with
  | nil => exact Nat.le_refl _
  | cons command commands induction =>
      have grown : lengths.length < (command.expand lengths).length := by
        cases command with
        | length value => simp [Command.expand]
        | repeats number =>
            have positive := (repeatSymbols_entry _ number.listed).2.1
            dsimp only at positive
            rw [Command.expand, List.length_append, List.length_replicate, Number.value]
            omega
      have rest := induction (command.expand lengths)
      rw [List.foldl_cons, List.length_cons]
      omega

section Tables

variable {stream : StringInputStream} {address : Nat}

theorem readLengths_parses {alphabet : List Nat} {tree : HuffmanTree} (coded : Coded alphabet tree)
    (commands : List Command) {lengths : List Nat} {prevValue : Option Nat}
    (valid : Command.ValidAll alphabet lengths prevValue commands) {numcodes fuel : Nat}
    (size : (commands.foldl Command.expand lengths).length = numcodes)
    (enough : numcodes ≤ lengths.length + fuel) :
    Parses stream address (readLengths stream tree numcodes fuel (lengths, prevValue))
      (commands.flatMap (Command.encode alphabet))
      (commands.foldl Command.expand lengths, commands.foldl Command.lastLength prevValue) := by
  -- The loop stops when the table is full, so no command may be left then.
  have growing := length_le_expand commands lengths
  induction commands generalizing address lengths prevValue fuel with
  | nil =>
      have full : ¬lengths.length < numcodes := by
        rw [← size]
        exact Nat.lt_irrefl _
      cases fuel with
      | zero =>
          rw [readLengths, if_neg full]
          exact parses_pure
      | succ fuel =>
          rw [readLengths, if_neg full]
          exact parses_pure
  | cons command commands induction =>
      rw [size, List.length_cons] at growing
      obtain ⟨fuel, rfl⟩ : ∃ less, fuel = less + 1 := ⟨fuel - 1, by omega⟩
      obtain ⟨here, others⟩ := valid
      have grown := length_le_expand [command] lengths
      have further (address : Nat) := @induction address _ _ others fuel size
        (by simp only [List.foldl_cons, List.foldl_nil, List.length_singleton] at grown; omega)
        (length_le_expand commands _)
      rw [readLengths, if_pos (by omega), List.flatMap_cons, List.foldl_cons, List.foldl_cons]
      cases command with
      | length value =>
          refine (yieldCode_parses coded here).bind ?_
          rw [if_pos value.isLt]
          exact further _
      | repeats number =>
          obtain ⟨above, -, found⟩ := repeatSymbols_entry _ number.listed
          obtain ⟨used, copies⟩ := here
          have value : (if number.symbol = 16 then prevValue.getD 0 else 0) =
              if number.symbol = 16 then lengths.getLastD 0 else 0 := by
            split
            · next copy => rw [copies copy, Option.getD_some]
            · rfl
          rw [Command.encode, Number.encode, List.append_assoc]
          refine (yieldCode_parses coded used).bind ?_
          rw [if_neg (by simpa using above), if_neg (by
            rintro ⟨copy, none⟩
            cases none.symm.trans (copies copy))]
          dsimp only
          rw [value]
          refine (readNumber_parses number fun entry member =>
            (repeatSymbols_entry entry member).2.2).bind ?_
          exact further _

theorem length_foldl_set (pairs : List (Nat × Nat)) (lengths : List Nat) :
    (pairs.foldl (fun lengths pair => lengths.set pair.1 pair.2) lengths).length =
      lengths.length := by
  induction pairs generalizing lengths with
  | nil => rfl
  | cons pair pairs induction => rw [List.foldl_cons, induction, List.length_set]

theorem readCodeLengthCodes_parses (symbols values lengths : List Nat)
    (same : symbols.length = values.length) (small : ∀ value ∈ values, value < 8) :
    Parses stream address (readCodeLengthCodes stream symbols lengths)
      (values.flatMap (BitString.encode .lowFirst 3))
      ((symbols.zip values).foldl (fun lengths pair => lengths.set pair.1 pair.2) lengths) := by
  induction symbols generalizing address values lengths with
  | nil =>
      rw [List.length_eq_zero_iff.mp same.symm]
      exact parses_pure
  | cons symbol symbols induction =>
      cases values with
      | nil => cases same
      | cons value values =>
          obtain ⟨here, others⟩ := List.forall_mem_cons.mp small
          exact (yieldBits_parses here (by decide) (by decide)).bind
            (induction values _ (Nat.succ.inj same) others)

theorem treeOf_parses {lengths : List Nat} (nonempty : lengths ≠ []) (kraft : Kraft lengths 256) :
    ∃ tree, Coded lengths tree ∧ ∀ address, Parses stream address (treeOf lengths) [] tree := by
  obtain ⟨tree, built, canonical⟩ := buildTree_spec nonempty
  refine ⟨tree, ⟨kraft, canonical⟩, fun address => ?_⟩
  rw [treeOf, built]
  exact parses_pure

end Tables

/-- The lengths of the codes for code lengths, in the order that the format lists them. -/
def alphabetOf (values : List Nat) : List Nat :=
  ((codeLengthOrder.take values.length).zip values).foldl
    (fun lengths pair => lengths.set pair.1 pair.2) (List.replicate 19 0)

/-- The description of the codes of a block. -/
structure Header where
  values : List Nat
  lengthCommands : List Command
  distanceCommands : List Command

namespace Header

variable (header : Header)

def lengths : List Nat := header.lengthCommands.foldl Command.expand []

def distances : List Nat := header.distanceCommands.foldl Command.expand []

def lastLength : Option Nat := header.lengthCommands.foldl Command.lastLength none

structure Valid : Prop where
  counted : 4 ≤ header.values.length ∧ header.values.length ≤ 19
  small : ∀ value ∈ header.values, value < 8
  lengthCount : 257 ≤ header.lengths.length ∧ header.lengths.length ≤ 288
  distanceCount : 1 ≤ header.distances.length ∧ header.distances.length ≤ 32
  lengthCommands : Command.ValidAll (alphabetOf header.values) [] none header.lengthCommands
  distanceCommands :
    Command.ValidAll (alphabetOf header.values) [] header.lastLength header.distanceCommands
  kraftAlphabet : Kraft (alphabetOf header.values) 256
  kraftLengths : Kraft header.lengths 256
  kraftDistances : Kraft header.distances 256

def encode : List Bool :=
  let commandBits := Command.encode (alphabetOf header.values)
  BitString.encode .lowFirst 5 (header.lengths.length - 257) ++
    (BitString.encode .lowFirst 5 (header.distances.length - 1) ++
      (BitString.encode .lowFirst 4 (header.values.length - 4) ++
        (header.values.flatMap (BitString.encode .lowFirst 3) ++
          (header.lengthCommands.flatMap commandBits ++
            header.distanceCommands.flatMap commandBits))))

variable {header}

set_option maxRecDepth 2000 in
theorem readTrees_parses {stream : StringInputStream} (valid : header.Valid) :
    ∃ trees, Coded header.lengths trees.1 ∧ Coded header.distances trees.2 ∧
      ∀ address, Parses stream address (readTrees stream) header.encode trees := by
  have ⟨enough, few⟩ := valid.counted
  have ⟨enoughLengths, fewLengths⟩ := valid.lengthCount
  have ⟨enoughDistances, fewDistances⟩ := valid.distanceCount
  have sized : (alphabetOf header.values).length = 19 := length_foldl_set ..
  obtain ⟨tree, coded, read⟩ := @treeOf_parses stream _
    (List.ne_nil_of_length_pos (by rw [sized]; decide)) valid.kraftAlphabet
  obtain ⟨first, codedFirst, readFirst⟩ := @treeOf_parses stream _
    (List.ne_nil_of_length_pos (by omega)) valid.kraftLengths
  obtain ⟨second, codedSecond, readSecond⟩ := @treeOf_parses stream _
    (List.ne_nil_of_length_pos (by omega)) valid.kraftDistances
  refine ⟨(first, second), codedFirst, codedSecond, fun address => ?_⟩
  have lengthSmall : header.lengths.length - 257 < 2 ^ 5 := by omega
  have distanceSmall : header.distances.length - 1 < 2 ^ 5 := by omega
  have countSmall : header.values.length - 4 < 2 ^ 4 := by omega
  rw [readTrees, encode]
  refine (yieldBits_parses lengthSmall (by decide) (by decide)).bind ?_
  refine (yieldBits_parses distanceSmall (by decide) (by decide)).bind ?_
  refine (yieldBits_parses countSmall (by decide) (by decide)).bind ?_
  rw [Nat.sub_add_cancel enough, Nat.sub_add_cancel enoughLengths,
    Nat.sub_add_cancel enoughDistances]
  refine (readCodeLengthCodes_parses _ header.values _
    (by rw [List.length_take]; exact Nat.min_eq_left few) valid.small).bind ?_
  refine (read _).bind_nil ?_
  refine (readLengths_parses coded _ valid.lengthCommands rfl (Nat.le_add_left ..)).bind ?_
  refine (readLengths_parses coded _ valid.distanceCommands rfl (Nat.le_add_left ..)).bind_end ?_
  exact (readFirst _).bind_nil ((readSecond _).bind_nil parses_pure)

end Header

/-! The blocks. -/

/-- What a block holds. -/
inductive Contents
  | stored (data : List UInt8)
  | fixed (tokens : List Token)
  | dynamic (header : Header) (tokens : List Token)

namespace Contents

def compressionType : Contents → Nat
  | stored _ => 0
  | fixed _ => 1
  | dynamic _ _ => 2

/-- The bits behind the type of a block, from an address on. -/
def bits (address : Nat) : Contents → List Bool
  | stored data =>
      List.replicate (paddingSize address 8) false ++
        (BitString.encode .lowFirst 16 data.length ++
          (BitString.encode .lowFirst 16 (65535 - data.length) ++
            BitString.stream .lowFirst data))
  | fixed tokens => encodeData fixedLengths fixedDistances tokens
  | dynamic header tokens => header.encode ++ encodeData header.lengths header.distances tokens

def encode (final : Bool) (address : Nat) (contents : Contents) : List Bool :=
  BitString.encode .lowFirst 1 final.toNat ++
    (BitString.encode .lowFirst 2 contents.compressionType ++ contents.bits (address + 3))

def Valid (out : List UInt8) : Contents → Prop
  | stored data => data.length < 2 ^ 15
  | fixed tokens => Token.ValidAll fixedLengths fixedDistances out tokens
  | dynamic header tokens =>
      header.Valid ∧ header.lengths.getD 256 0 ≠ 0 ∧
        Token.ValidAll header.lengths header.distances out tokens

/-- The data after the block. Stored data is lost. -/
def expand (out : List UInt8) : Contents → List UInt8
  | stored _ => out
  | fixed tokens => tokens.foldl Token.expand out
  | dynamic _ tokens => tokens.foldl Token.expand out

end Contents

section Blocks

variable {stream : StringInputStream} {address : Nat}

theorem readStored_parses {data : List UInt8} (small : data.length < 2 ^ 15) :
    Parses stream address (readStored stream) ((Contents.stored data).bits address) () := by
  have padding := @yieldRaw_parses stream address (List.replicate (paddingSize address 8) false)
  have bytes (address : Nat) := @yieldRaw_parses stream address (BitString.stream .lowFirst data)
  have length {address number : Nat} (small : number < 2 ^ 16) :
      Parses stream address (yieldInt16 stream) (BitString.encode .lowFirst 16 number)
        (if 2 ^ 15 ≤ number then (number : Int) - 2 ^ 16 else number) :=
    (yieldBits_parses small (by decide) (by decide)).bind_end parses_pure
  rw [List.length_replicate] at padding
  rw [length_stream] at bytes
  rw [readStored, Contents.bits]
  have here : Parses stream address (get : Generator Nat) [] address := fun _ => rfl
  -- The two lengths are signed, so the second one is negative.
  have low : ¬2 ^ 15 ≤ data.length := by omega
  have high : 2 ^ 15 ≤ 65535 - data.length := by omega
  refine here.bind_nil ?_
  refine padding.bind ((length (small.trans (by decide))).bind ((length (by omega)).bind ?_))
  rw [if_neg low, if_pos high, if_neg (by omega), if_neg (by omega), Int.toNat_natCast]
  exact bytes _

theorem createFields_parses {final : Bool} {contents : Contents} {out : List UInt8}
    (valid : contents.Valid out) :
    Parses stream address (createFields stream out) (contents.encode final address)
      (final, contents.expand out) := by
  have place : address + (BitString.encode .lowFirst 1 final.toNat).length +
      (BitString.encode .lowFirst 2 contents.compressionType).length = address + 3 := by
    rw [length_encode, length_encode]
  have value : decide (final.toNat = 1) = final := by cases final <;> rfl
  have dataParses {address : Nat} {lengths distances : List Nat}
      {trees : HuffmanTree × HuffmanTree} (coded : Coded lengths trees.1)
      (codedDistances : Coded distances trees.2) (ends : lengths.getD 256 0 ≠ 0)
      {tokens : List Token} (valid : Token.ValidAll lengths distances out tokens) :
      Parses stream address (readData stream trees (8 * stream.data.length + 1) out)
        (encodeData lengths distances tokens) (tokens.foldl Token.expand out) := by
    intro between
    have inside := between.inside
    have enough := length_le_encodeData tokens valid
    exact readData_parses coded codedDistances ends tokens valid (by omega) between
  rw [createFields, Contents.encode]
  refine (yieldBits_parses (Nat.lt_succ_of_le final.toNat_le) (by decide) (by decide)).bind ?_
  refine (yieldBits_parses (by cases contents <;> exact of_decide_eq_true rfl) (by decide)
    (by decide)).bind ?_
  rw [place, value]
  cases contents with
  | stored data => exact (readStored_parses valid).bind_end parses_pure
  | fixed tokens =>
      exact (dataParses coded_fixedLengths coded_fixedDistances (by decide +kernel)
        valid).bind_end parses_pure
  | dynamic header tokens =>
      obtain ⟨trees, coded, codedDistances, read⟩ := Header.readTrees_parses valid.1
      exact (read _).bind
        ((dataParses coded codedDistances valid.2.1 valid.2.2).bind_end parses_pure)

end Blocks

end DeflateBlock

namespace DeflateData

open DeflateBlock

/-- The bits of the blocks, the last of which is final. -/
def encode : Nat → List Contents → List Bool
  | _, [] => []
  | address, contents :: rest =>
      let bits := contents.encode rest.isEmpty address
      bits ++ encode (address + bits.length) rest

def ValidAll : List UInt8 → List Contents → Prop
  | _, [] => True
  | out, contents :: rest => contents.Valid out ∧ ValidAll (contents.expand out) rest

theorem length_le_encode (address : Nat) (blocks : List Contents) :
    blocks.length ≤ (encode address blocks).length := by
  induction blocks generalizing address with
  | nil => exact Nat.zero_le _
  | cons contents rest induction =>
      have more := induction (address + (contents.encode rest.isEmpty address).length)
      have bits : 1 ≤ (contents.encode rest.isEmpty address).length := by
        rw [Contents.encode, List.length_append, length_encode]
        omega
      rw [encode, List.length_append, List.length_cons]
      omega

theorem blocks_parses {stream : StringInputStream} {address fuel : Nat} {blocks : List Contents}
    (nonempty : blocks ≠ []) {out : List UInt8} (valid : ValidAll out blocks)
    (enough : blocks.length ≤ fuel) :
    Parses stream address (DeflateData.blocks stream fuel out) (encode address blocks)
      (blocks.foldl Contents.expand out) := by
  induction blocks generalizing address fuel out with
  | nil => exact absurd rfl nonempty
  | cons contents rest induction =>
      obtain ⟨fuel, rfl⟩ : ∃ less, fuel = less + 1 := ⟨fuel - 1, by
        rw [List.length_cons] at enough
        omega⟩
      refine (createFields_parses valid.1).bind ?_
      cases rest with
      | nil => exact parses_pure
      | cons next rest =>
          exact induction (List.cons_ne_nil next rest) valid.2 (Nat.le_of_succ_le_succ enough)

/-- The parser gives the data of the blocks in a stream, up to the next byte, whatever the encoder
made of them. Copies are made byte by byte, and stored blocks are left out. -/
theorem createFields_encode {data : List UInt8} {before after : List Bool}
    {blocks : List Contents} (nonempty : blocks ≠ []) (valid : ValidAll [] blocks)
    (content : BitString.stream .lowFirst data =
      before ++ encode before.length blocks ++ after) :
    DeflateData.createFields ⟨data⟩ before.length =
      .ok (blocks.foldl Contents.expand [],
        alignValue (before.length + (encode before.length blocks).length) 8) := by
  have between : Between ⟨data⟩ before.length (encode before.length blocks) :=
    ⟨before, after, content, rfl⟩
  have inside := between.inside
  have enough := length_le_encode before.length blocks
  have read := @blocks_parses ⟨data⟩ before.length (8 * data.length + 1) blocks nonempty [] valid
    (by dsimp only at inside; omega) between
  generalize before.length + (encode before.length blocks).length = last at inside read ⊢
  -- A stream is whole bytes, so it has the padding as well.
  dsimp only at inside
  have aligned : last + paddingSize last 8 = alignValue last 8 := by
    unfold paddingSize alignValue
    split <;> omega
  have fits : last + paddingSize last 8 ≤ 8 * data.length := by
    unfold paddingSize
    split <;> omega
  change (DeflateData.blocks ⟨data⟩ (8 * data.length + 1) [] before.length >>= _) = _
  rw [read]
  change (yieldRaw ⟨data⟩ (paddingSize last 8) last >>= _) = _
  rw [yieldRaw, if_pos fits, aligned]
  rfl

theorem createFields_encode_copy :
    DeflateData.createFields ⟨[0x4B, 4, 2, 0]⟩ 0 = .ok ([97, 97, 97, 97], 32) :=
  (@createFields_encode [0x4B, 4, 2, 0] [] [false, false]
    [.fixed [.literal 97, .copy ⟨257, ⟨3, 0⟩, 0, by decide, by decide⟩
      ⟨0, ⟨1, 0⟩, 0, by decide, by decide⟩]] (List.cons_ne_nil _ _)
    ⟨⟨(by decide +kernel : fixedLengths.getD 97 0 ≠ 0),
      ⟨by decide +kernel, by decide +kernel, by decide⟩, trivial⟩, trivial⟩
    (by decide +kernel)).trans (by decide +kernel)

end DeflateData

end Segvault.Hachoir
