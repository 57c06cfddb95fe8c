import Mathlib.Algebra.Ring.Nat
import Mathlib.Data.List.Basic

namespace Segvault.Segments

universe u

variable {α : Type u}

/-! A stream that arrives in pieces. One read takes what it asks for from the first piece, or as
much of it as there is. -/

def read (count : Nat) : List (List α) → List α × List (List α)
  | [] => ([], [])
  | piece :: pieces =>
      (piece.take count, if count < piece.length then piece.drop count :: pieces else pieces)

/-- No piece is empty: an empty answer is the end of the stream. -/
def Filled (pieces : List (List α)) : Prop := ∀ piece ∈ pieces, piece ≠ []

instance [DecidableEq α] (pieces : List (List α)) : Decidable (Filled pieces) :=
  inferInstanceAs (Decidable (∀ piece ∈ pieces, piece ≠ []))

theorem read_append (count : Nat) (pieces : List (List α)) :
    (read count pieces).1 ++ (read count pieces).2.flatten = pieces.flatten := by
  cases pieces with
  | nil => rfl
  | cons piece pieces =>
      simp only [read]
      split
      · rw [List.flatten_cons, ← List.append_assoc, List.take_append_drop, List.flatten_cons]
      · rename_i within
        rw [List.take_of_length_le (Nat.le_of_not_lt within), List.flatten_cons]

theorem length_read_le (count : Nat) (pieces : List (List α)) :
    (read count pieces).1.length ≤ count := by
  cases pieces with
  | nil => exact Nat.zero_le count
  | cons piece pieces => exact List.length_take_le count piece

theorem length_read_add (count : Nat) (pieces : List (List α)) :
    (read count pieces).1.length + (read count pieces).2.flatten.length =
      pieces.flatten.length := by
  rw [← List.length_append, read_append]

theorem Filled.tail {piece : List α} {pieces : List (List α)} (filled : Filled (piece :: pieces)) :
    Filled pieces :=
  fun other member => filled other (List.mem_cons_of_mem piece member)

theorem Filled.read {pieces : List (List α)} (filled : Filled pieces) (count : Nat) :
    Filled (read count pieces).2 := by
  cases pieces with
  | nil => exact filled
  | cons piece pieces =>
      simp only [Segments.read]
      split
      · rename_i within
        intro other member
        rcases List.mem_cons.mp member with rfl | inside
        · exact List.ne_nil_of_length_pos (by
            rw [List.length_drop]
            exact Nat.sub_pos_of_lt within)
        · exact filled.tail other inside
      · exact filled.tail

/-- A read that gets all it asked for got the first field. -/
theorem read_full {pieces : List (List α)} {field rest : List α}
    (stream : pieces.flatten = field ++ rest)
    (full : (read field.length pieces).1.length = field.length) :
    (read field.length pieces).1 = field ∧ (read field.length pieces).2.flatten = rest :=
  List.append_inj ((read_append field.length pieces).trans stream) full

/-! Fields and pieces: which reads are full. -/

/-- Every boundary between two pieces is one between two fields. -/
def Whole (fields pieces : List (List α)) : Prop :=
  ∀ before after, pieces = before ++ after →
    ∃ first rest, fields = first ++ rest ∧ first.flatten = before.flatten

variable {field : List α} {fields pieces : List (List α)}

theorem whole_nil (fields : List (List α)) : Whole fields [] := by
  intro before after split
  obtain ⟨rfl, -⟩ := List.append_eq_nil_iff.mp split.symm
  exact ⟨[], fields, rfl, rfl⟩

/-- The first piece begins with the first field, and the fields after it are whole in what is
left. -/
theorem Whole.cons (nonempty : field ≠ []) (filled : Filled pieces)
    (stream : pieces.flatten = field ++ fields.flatten) (whole : Whole (field :: fields) pieces) :
    (read field.length pieces).1 = field ∧ Whole fields (read field.length pieces).2 := by
  cases pieces with
  | nil => exact absurd (List.append_eq_nil_iff.mp stream.symm).1 nonempty
  | cons piece pieces =>
      have starts : ∀ before after, piece :: pieces = (piece :: before) ++ after →
          ∃ first rest, fields = first ++ rest ∧
            field ++ first.flatten = piece ++ before.flatten := by
        intro before after split
        obtain ⟨first, rest, same, flat⟩ := whole _ after split
        cases first with
        | nil =>
            have empty := (List.append_eq_nil_iff.mp flat.symm).1
            exact absurd empty (filled piece List.mem_cons_self)
        | cons head first =>
            rw [List.cons_append, List.cons.injEq] at same
            obtain ⟨rfl, rfl⟩ := same
            exact ⟨first, rest, rfl, flat⟩
      obtain ⟨first, rest, -, flat⟩ := starts [] pieces rfl
      rw [List.flatten_nil, List.append_nil] at flat
      have long : field.length ≤ piece.length := by
        rw [← flat, List.length_append]
        exact Nat.le_add_right _ _
      have head : piece.take field.length = field := by
        rw [← flat, List.take_left]
      have parts := List.take_append_drop field.length piece
      rw [head] at parts
      refine ⟨head, fun before after split => ?_⟩
      simp only [read] at split
      cases before with
      | nil => exact ⟨[], fields, rfl, rfl⟩
      | cons other before =>
          split at split
          · rw [List.cons_append, List.cons.injEq] at split
            obtain ⟨rfl, rfl⟩ := split
            obtain ⟨first, rest, same, flat⟩ := starts before after rfl
            refine ⟨first, rest, same, ?_⟩
            refine List.append_cancel_left (flat.trans ?_)
            rw [List.flatten_cons, ← List.append_assoc, parts]
          · rename_i short
            obtain ⟨first, rest, same, flat⟩ := starts (other :: before) after (by rw [split]; rfl)
            refine ⟨first, rest, same, List.append_cancel_left (flat.trans ?_)⟩
            have whole : piece = field := by
              rw [← head]
              exact (List.take_of_length_le (Nat.le_of_not_lt short)).symm
            rw [whole]

theorem whole_cons (head : (read field.length pieces).1 = field)
    (whole : Whole fields (read field.length pieces).2) : Whole (field :: fields) pieces := by
  cases pieces with
  | nil => exact whole_nil _
  | cons piece pieces =>
      intro before after split
      cases before with
      | nil => exact ⟨[], field :: fields, rfl, rfl⟩
      | cons other before =>
          rw [List.cons_append, List.cons.injEq] at split
          obtain ⟨rfl, rfl⟩ := split
          simp only [read] at head whole
          split at whole
          · obtain ⟨first, rest, same, flat⟩ := whole (piece.drop field.length :: before) after rfl
            refine ⟨field :: first, rest, by rw [same]; rfl, ?_⟩
            have parts := List.take_append_drop field.length piece
            rw [head] at parts
            rw [List.flatten_cons, flat, List.flatten_cons, ← List.append_assoc, parts,
              List.flatten_cons]
          · rename_i short
            obtain ⟨first, rest, same, flat⟩ := whole before after rfl
            refine ⟨field :: first, rest, by rw [same]; rfl, ?_⟩
            rw [List.flatten_cons, flat, List.flatten_cons]
            congr 1
            rw [← head]
            exact List.take_of_length_le (Nat.le_of_not_lt short)

/-! Several reads in turn. -/

def readFields : List Nat → List (List α) → List (List α) × List (List α)
  | [], pieces => ([], pieces)
  | count :: counts, pieces =>
      let (fields, rest) := readFields counts (read count pieces).2
      ((read count pieces).1 :: fields, rest)

theorem readFields_append (first second : List Nat) (pieces : List (List α)) :
    readFields (first ++ second) pieces =
      ((readFields first pieces).1 ++ (readFields second (readFields first pieces).2).1,
        (readFields second (readFields first pieces).2).2) := by
  induction first generalizing pieces with
  | nil => rfl
  | cons count first induction => simp only [List.cons_append, readFields, induction]

theorem length_readFields (counts : List Nat) (pieces : List (List α)) :
    (readFields counts pieces).1.length = counts.length := by
  induction counts generalizing pieces with
  | nil => rfl
  | cons count counts induction => simp only [readFields, List.length_cons, induction]

theorem Filled.readFields {pieces : List (List α)} (filled : Filled pieces) (counts : List Nat) :
    Filled (readFields counts pieces).2 := by
  induction counts generalizing pieces with
  | nil => exact filled
  | cons count counts induction => exact induction (filled.read count)

theorem readFields_append_flatten (counts : List Nat) (pieces : List (List α)) :
    (readFields counts pieces).1.flatten ++ (readFields counts pieces).2.flatten =
      pieces.flatten := by
  induction counts generalizing pieces with
  | nil => rfl
  | cons count counts induction =>
      simp only [readFields, List.flatten_cons, List.append_assoc, induction, read_append]

theorem le_readFields (counts : List Nat) (pieces : List (List α)) :
    pieces.flatten.length ≤ counts.sum + (readFields counts pieces).2.flatten.length := by
  induction counts generalizing pieces with
  | nil => exact Nat.le_add_left _ _
  | cons count counts induction =>
      have spent := length_read_add count pieces
      have few := length_read_le count pieces
      have rest := induction (read count pieces).2
      simp only [Segments.readFields, List.sum_cons]
      omega

/-- If no more is left than what comes after the fields, every read was full. -/
theorem readFields_full {fields pieces : List (List α)} {rest : List α}
    (stream : pieces.flatten = fields.flatten ++ rest)
    (few : (readFields (fields.map List.length) pieces).2.flatten.length ≤ rest.length) :
    (readFields (fields.map List.length) pieces).1 = fields ∧
      (readFields (fields.map List.length) pieces).2.flatten = rest := by
  induction fields generalizing pieces with
  | nil => exact ⟨rfl, stream⟩
  | cons field fields induction =>
      rw [List.flatten_cons, List.append_assoc] at stream
      simp only [List.map_cons, readFields] at few ⊢
      have total := congrArg List.length stream
      have spent := length_read_add field.length pieces
      have later := le_readFields (fields.map List.length) (read field.length pieces).2
      have atMost := length_read_le field.length pieces
      have sum : fields.flatten.length = (fields.map List.length).sum := List.length_flatten
      rw [List.length_append, List.length_append] at total
      have full : (read field.length pieces).1.length = field.length := by omega
      obtain ⟨head, tail⟩ := read_full stream full
      obtain ⟨same, left⟩ := induction tail few
      exact ⟨by rw [head, same], left⟩

/-- The reads are full where no boundary between two pieces lies inside a field. -/
theorem whole_iff {fields others pieces : List (List α)} (nonempty : ∀ field ∈ fields, field ≠ [])
    (filled : Filled pieces) (stream : pieces.flatten = fields.flatten ++ others.flatten) :
    Whole (fields ++ others) pieces ↔
      (readFields (fields.map List.length) pieces).1 = fields ∧
        Whole others (readFields (fields.map List.length) pieces).2 := by
  induction fields generalizing pieces with
  | nil => exact ⟨fun whole => ⟨rfl, whole⟩, And.right⟩
  | cons field fields induction =>
      obtain ⟨nonemptyField, nonempty⟩ := List.forall_mem_cons.mp nonempty
      rw [List.flatten_cons, List.append_assoc, ← List.flatten_append] at stream
      simp only [List.map_cons, readFields]
      constructor
      · intro whole
        obtain ⟨head, tail⟩ := whole.cons nonemptyField filled stream
        have rest := (read_full stream (by rw [head])).2
        rw [List.flatten_append] at rest
        obtain ⟨same, left⟩ := (induction nonempty (filled.read field.length) rest).mp tail
        exact ⟨by rw [head, same], left⟩
      · rintro ⟨same, left⟩
        rw [List.cons.injEq] at same
        obtain ⟨head, same⟩ := same
        have rest := (read_full stream (by rw [head])).2
        rw [List.flatten_append] at rest
        refine whole_cons head ?_
        exact (induction nonempty (filled.read field.length) rest).mpr ⟨same, left⟩

theorem Filled.eq_nil {pieces : List (List α)} (filled : Filled pieces)
    (empty : pieces.flatten = []) : pieces = [] := by
  cases pieces with
  | nil => rfl
  | cons piece pieces =>
      rw [List.flatten_cons] at empty
      exact absurd (List.append_eq_nil_iff.mp empty).1 (filled piece List.mem_cons_self)

/-- Where the fields are all there is, each is read whole and nothing is left. -/
theorem Whole.read {fields pieces : List (List α)} (nonempty : ∀ field ∈ fields, field ≠ [])
    (filled : Filled pieces) (stream : pieces.flatten = fields.flatten)
    (whole : Whole fields pieces) :
    (readFields (fields.map List.length) pieces).1 = fields ∧
      (readFields (fields.map List.length) pieces).2 = [] := by
  have streamNil : pieces.flatten = fields.flatten ++ ([] : List (List α)).flatten := by
    rw [stream, List.flatten_nil, List.append_nil]
  rw [← List.append_nil fields] at whole
  obtain ⟨same, -⟩ := (whole_iff nonempty filled streamNil).mp whole
  refine ⟨same, (filled.readFields _).eq_nil ?_⟩
  have left := readFields_append_flatten (fields.map List.length) pieces
  rw [same, stream] at left
  exact List.append_right_eq_self.mp left

/-- As many reads as there are fields, and no byte left, is each field read whole. -/
theorem whole_of_read {fields pieces : List (List α)} (nonempty : ∀ field ∈ fields, field ≠ [])
    (filled : Filled pieces) (stream : pieces.flatten = fields.flatten)
    (left : (readFields (fields.map List.length) pieces).2 = []) : Whole fields pieces := by
  have streamNil : pieces.flatten = fields.flatten ++ ([] : List (List α)).flatten := by
    rw [stream, List.flatten_nil, List.append_nil]
  obtain ⟨same, -⟩ := readFields_full streamNil (by simp [left])
  rw [← List.append_nil fields]
  exact (whole_iff nonempty filled streamNil).mpr ⟨same, by rw [left]; exact whole_nil []⟩

end Segvault.Segments
