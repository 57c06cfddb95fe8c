import Segvault.BitString
import Mathlib.Algebra.Order.BigOperators.Group.List

namespace Segvault.CanonicalCode

open BitString

/-! Canonical prefix codes. A code is given by the lengths of its words: the symbol `symbol` has
a word of length `lengths[symbol]`, and none if that is zero. Words of one length are numbered
in the order of their symbols, after all the words that begin with shorter ones. -/

variable (lengths : List Nat)

/-- How many words have some length. -/
def words (length : Nat) : Nat := if length = 0 then 0 else lengths.count length

/-- The number of the first word of some length. -/
def firstCode : Nat → Nat
  | 0 => 0
  | length + 1 => 2 * (firstCode length + words lengths length)

/-- The number after the last word of some length. -/
def reserved (length : Nat) : Nat := firstCode lengths length + words lengths length

def code (symbol length : Nat) : Nat :=
  firstCode lengths length + (lengths.take symbol).count length

def word (symbol length : Nat) : List Bool := encode .highFirst length (code lengths symbol length)

/-- A symbol that has a word, of this length. -/
def Used (symbol length : Nat) : Prop := lengths[symbol]? = some length ∧ length ≠ 0

/-- Kraft's inequality, the sum of `2 ^ -length` over the words is at most `1`, for lengths up to
a bound. -/
structure Kraft (bound : Nat) : Prop where
  bounded : ∀ length ∈ lengths, length ≤ bound
  inequality : ((lengths.filter (· ≠ 0)).map fun length => 2 ^ (bound - length)).sum ≤ 2 ^ bound

/-! The numbers that the shorter words take up. -/

/-- What a word of length `length` takes up of the words of length `bound`. -/
def weight (bound length : Nat) : Nat :=
  if length = 0 ∨ bound < length then 0 else 2 ^ (bound - length)

theorem weight_succ (bound length : Nat) :
    weight (bound + 1) length =
      2 * weight bound length + if length = bound + 1 then 1 else 0 := by
  unfold weight
  rcases Nat.lt_trichotomy length (bound + 1) with shorter | same | longer
  · by_cases none : length = 0
    · rw [if_pos (.inl none), if_pos (.inl none), if_neg (by omega)]
    · have power : bound + 1 - length = bound - length + 1 := by omega
      rw [if_neg (by omega), if_neg (by omega), if_neg (by omega), power, pow_succ']
      rfl
  · rw [if_neg (by omega), if_pos (by omega), if_pos same, same, Nat.sub_self, pow_zero,
      Nat.mul_zero, Nat.zero_add]
  · rw [if_pos (by omega), if_pos (by omega), if_neg (by omega)]

theorem reserved_eq (bound : Nat) :
    reserved lengths bound = (lengths.map (weight bound)).sum := by
  induction bound with
  | zero =>
      have none : lengths.map (weight 0) = List.replicate lengths.length 0 := by
        refine List.eq_replicate_iff.mpr ⟨List.length_map _, fun number member => ?_⟩
        obtain ⟨length, -, rfl⟩ := List.mem_map.mp member
        unfold weight
        split <;> omega
      rw [none, List.sum_replicate]
      rfl
  | succ bound induction =>
      have step (part : List Nat) : (part.map (weight (bound + 1))).sum =
          2 * (part.map (weight bound)).sum + part.count (bound + 1) := by
        induction part with
        | nil => rfl
        | cons length rest inner =>
            rw [List.map_cons, List.sum_cons, List.map_cons, List.sum_cons, inner,
              weight_succ, List.count_cons]
            simp only [beq_iff_eq]
            omega
      have top : words lengths (bound + 1) = lengths.count (bound + 1) :=
        if_neg (Nat.succ_ne_zero bound)
      rw [step, ← induction, reserved, firstCode, top]
      rfl

theorem reserved_mul_le {length longer : Nat} (le : length ≤ longer) :
    reserved lengths length * 2 ^ (longer - length) ≤ reserved lengths longer := by
  induction longer, le using Nat.le_induction with
  | base => rw [Nat.sub_self, pow_zero, Nat.mul_one]
  | succ longer le induction =>
      rw [Nat.sub_add_comm le, pow_succ', Nat.mul_left_comm]
      refine (Nat.mul_le_mul_left 2 induction).trans ?_
      exact Nat.le_add_right _ _

variable {lengths}

theorem Kraft.reserved_le {bound : Nat} (kraft : Kraft lengths bound) {length : Nat}
    (le : length ≤ bound) : reserved lengths length ≤ 2 ^ length := by
  have whole : reserved lengths bound ≤ 2 ^ bound := by
    refine le_trans (le_of_eq ?_) kraft.inequality
    rw [reserved_eq]
    have same (part : List Nat) (bounded : ∀ length ∈ part, length ≤ bound) :
        (part.map (weight bound)).sum =
          ((part.filter (· ≠ 0)).map fun length => 2 ^ (bound - length)).sum := by
      induction part with
      | nil => rfl
      | cons length rest induction =>
          have le := bounded length (List.mem_cons_self ..)
          have tail := induction fun other member =>
            bounded other (List.mem_cons_of_mem _ member)
          by_cases none : length = 0
          · rw [List.map_cons, List.sum_cons, tail, weight, if_pos (.inl none), Nat.zero_add,
              List.filter_cons_of_neg (by simpa using none)]
          · rw [List.map_cons, List.sum_cons, tail, weight, if_neg (by omega),
              List.filter_cons_of_pos (by simpa using none), List.map_cons, List.sum_cons]
    exact same lengths kraft.bounded
  have scaled := (reserved_mul_le lengths le).trans whole
  have power : 2 ^ bound = 2 ^ length * 2 ^ (bound - length) := by
    rw [← pow_add, Nat.add_sub_cancel' le]
  rw [power] at scaled
  exact Nat.le_of_mul_le_mul_right scaled (Nat.two_pow_pos _)

/-! The words of the symbols. -/

section Used

variable {first second length longer : Nat}

theorem Used.split (used : Used lengths first length) :
    lengths = lengths.take first ++ length :: lengths.drop (first + 1) := by
  obtain ⟨bound, here⟩ := List.getElem?_eq_some_iff.mp used.1
  rw [← here, List.cons_getElem_drop_succ, List.take_append_drop]

theorem Used.code_lt_reserved (used : Used lengths first length) :
    code lengths first length < reserved lengths length := by
  have whole := congrArg (List.count length) used.split
  rw [List.count_append, List.count_cons_self] at whole
  rw [code, reserved, words, if_neg used.2, whole]
  omega

theorem code_eq_add (length : Nat) (le : first ≤ second) :
    code lengths second length =
      code lengths first length + ((lengths.take second).drop first).count length := by
  have parts := List.take_append_drop first (lengths.take second)
  rw [List.take_take, Nat.min_eq_left le] at parts
  rw [code, code, ← parts, List.count_append, parts, Nat.add_assoc]

theorem Used.code_lt_code (used : Used lengths first length) (lt : first < second) :
    code lengths first length < code lengths second length := by
  obtain ⟨bound, here⟩ := List.getElem?_eq_some_iff.mp used.1
  have member : length ∈ (lengths.take second).drop first := by
    refine List.mem_of_getElem? (i := 0) ?_
    rw [List.getElem?_drop, Nat.add_zero, List.getElem?_take_of_lt lt, used.1]
  have positive := List.count_pos_iff.mpr member
  rw [code_eq_add length lt.le]
  omega

theorem Used.code_injective (used : Used lengths first length)
    (other : Used lengths second length)
    (same : code lengths first length = code lengths second length) : first = second := by
  rcases Nat.lt_trichotomy first second with before | here | after
  · have lt := used.code_lt_code before
    omega
  · exact here
  · have lt := other.code_lt_code after
    omega

/-- A longer word begins with a larger number than any shorter word is. -/
theorem Used.code_lt_div (used : Used lengths first length) (lt : length < longer)
    (symbol : Nat) :
    code lengths first length < code lengths symbol longer / 2 ^ (longer - length) := by
  obtain ⟨last, rfl⟩ : ∃ last, longer = last + 1 := ⟨longer - 1, by omega⟩
  refine used.code_lt_reserved.trans_le ?_
  rw [Nat.le_div_iff_mul_le (Nat.two_pow_pos _)]
  have grown := reserved_mul_le lengths (Nat.le_of_lt_succ lt)
  rw [Nat.sub_add_comm (Nat.le_of_lt_succ lt), pow_succ', Nat.mul_left_comm]
  refine (Nat.mul_le_mul_left 2 grown).trans ?_
  exact Nat.le_add_right _ _

theorem Kraft.code_lt {bound : Nat} (kraft : Kraft lengths bound)
    (used : Used lengths first length) : code lengths first length < 2 ^ length := by
  have le := kraft.bounded length (List.mem_of_getElem? used.1)
  exact used.code_lt_reserved.trans_le (kraft.reserved_le le)

/-- The first bits of a word, as many as a shorter word has. -/
theorem Kraft.code_div_lt {bound : Nat} (kraft : Kraft lengths bound)
    (used : Used lengths second longer) (le : length ≤ longer) :
    code lengths second longer / 2 ^ (longer - length) < 2 ^ length := by
  have power : 2 ^ longer = 2 ^ length * 2 ^ (longer - length) := by
    rw [← pow_add, Nat.add_sub_cancel' le]
  rw [Nat.div_lt_iff_lt_mul (Nat.two_pow_pos _), ← power]
  exact kraft.code_lt used

/-- The word of a symbol in two parts: as many bits as a shorter word has, and the rest. -/
theorem word_split (symbol : Nat) (le : length ≤ longer) :
    word lengths symbol longer =
      encode .highFirst length (code lengths symbol longer / 2 ^ (longer - length)) ++
        encode .highFirst (longer - length) (code lengths symbol longer) := by
  rw [word, ← encode_highFirst, Nat.add_sub_cancel' le]

/-- No word is the beginning of another. -/
theorem Kraft.eq_of_isPrefix {bound : Nat} (kraft : Kraft lengths bound)
    (used : Used lengths first length) (other : Used lengths second longer)
    (front : word lengths first length <+: word lengths second longer) : first = second := by
  have le : length ≤ longer := by
    have shorter := front.length_le
    rwa [word, word, length_encode, length_encode] at shorter
  have small := kraft.code_lt used
  have quotient := kraft.code_div_lt other le
  obtain ⟨rest, whole⟩ := front
  rw [word_split second le] at whole
  obtain ⟨heads, -⟩ := List.append_inj whole (by rw [word, length_encode, length_encode])
  have values := congrArg (decode .highFirst) heads
  rw [word, decode_encode, decode_encode, Nat.mod_eq_of_lt small,
    Nat.mod_eq_of_lt quotient] at values
  rcases Nat.lt_or_eq_of_le le with shorter | same
  · have lt := used.code_lt_div shorter second
    omega
  · subst same
    rw [Nat.sub_self, pow_zero, Nat.div_one] at values
    exact used.code_injective other values

/-! The lexicographic order of words is the order of their lengths and symbols. -/

omit lengths in
theorem lt_append_of_decode_lt {left right : List Bool} (same : left.length = right.length)
    (lt : decode .highFirst left < decode .highFirst right) (rest : List Bool) :
    left < right ++ rest := by
  induction left generalizing right with
  | nil =>
      rw [List.length_eq_zero_iff.mp same.symm] at lt
      exact absurd lt (Nat.lt_irrefl _)
  | cons bit left induction =>
      cases right with
      | nil => cases same
      | cons other right =>
          have length : left.length = right.length := Nat.succ.inj same
          have below := decode_lt .highFirst left
          have above := decode_lt .highFirst right
          rw [← List.singleton_append, ← List.singleton_append (l := right),
            decode_highFirst_append, decode_highFirst_append, ← length] at lt
          rw [← length] at above
          rw [List.cons_append, List.cons_lt_cons_iff]
          cases bit <;> cases other
          · refine .inr ⟨rfl, induction length ?_⟩
            exact Nat.lt_of_add_lt_add_right lt
          · exact .inl (by decide)
          · simp [decode, Order.arrange, number] at lt below above
            omega
          · refine .inr ⟨rfl, induction length ?_⟩
            exact Nat.lt_of_add_lt_add_right lt

theorem Kraft.word_lt {bound : Nat} (kraft : Kraft lengths bound)
    (used : Used lengths first length) (other : Used lengths second longer)
    (order : length < longer ∨ length = longer ∧ first < second) :
    word lengths first length < word lengths second longer := by
  have le : length ≤ longer := by omega
  have small := kraft.code_lt used
  have quotient := kraft.code_div_lt other le
  rw [word_split second le]
  apply lt_append_of_decode_lt
  · rw [word, length_encode, length_encode]
  · rw [word, decode_encode, decode_encode, Nat.mod_eq_of_lt small, Nat.mod_eq_of_lt quotient]
    rcases order with shorter | ⟨rfl, before⟩
    · exact used.code_lt_div shorter second
    · rw [Nat.sub_self, pow_zero, Nat.div_one]
      exact used.code_lt_code before

end Used

end Segvault.CanonicalCode
