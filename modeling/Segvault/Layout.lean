import Mathlib.Data.List.Basic

namespace Segvault.Layout

universe u v

variable {κ : Type u} {ι : Type v}

/-! A packet as a sequence of chunks, some of which open or close a named
block. -/

inductive Mark (κ : Type u)
  | plain
  | opens (key : κ)
  | closes (key : κ)
  deriving DecidableEq

def Mark.map (rename : κ → ι) : Mark κ → Mark ι
  | .plain => .plain
  | .opens key => .opens (rename key)
  | .closes key => .closes (rename key)

abbrev Segment (κ : Type u) := Mark κ × List UInt8

def size : List (Segment κ) → Nat
  | [] => 0
  | (_, chunk) :: rest => chunk.length + size rest

@[simp] theorem size_append (first second : List (Segment κ)) :
    size (first ++ second) = size first + size second := by
  induction first with
  | nil => simp [size]
  | cons segment first induction =>
      obtain ⟨mark, chunk⟩ := segment
      simp only [List.cons_append, size, induction]
      omega

def Opened (key : κ) (segments : List (Segment κ)) : Prop :=
  ∃ chunk, (Mark.opens key, chunk) ∈ segments

theorem opened_cons {key : κ} {mark : Mark κ} {chunk : List UInt8}
    {rest : List (Segment κ)} :
    Opened key ((mark, chunk) :: rest) ↔ mark = .opens key ∨ Opened key rest := by
  simp [Opened, eq_comm, exists_or]

section Blocks

variable [DecidableEq κ]

instance (key : κ) (segments : List (Segment κ)) :
    Decidable (Opened key segments) :=
  decidable_of_iff (∃ segment ∈ segments, segment.1 = .opens key) (by
    constructor
    · rintro ⟨⟨mark, chunk⟩, member, rfl⟩
      exact ⟨chunk, member⟩
    · rintro ⟨chunk, member⟩
      exact ⟨_, member, rfl⟩)

def untilClose (key : κ) : List (Segment κ) → Nat
  | [] => 0
  | (mark, chunk) :: rest =>
      if mark = .closes key then 0 else chunk.length + untilClose key rest

def blockLength (key : κ) : List (Segment κ) → Nat
  | [] => 0
  | (mark, _) :: rest =>
      if mark = .opens key then untilClose key rest else blockLength key rest

def blockOffset (key : κ) : List (Segment κ) → Nat
  | [] => 0
  | (mark, chunk) :: rest =>
      chunk.length + if mark = .opens key then 0 else blockOffset key rest

theorem untilClose_le_size (key : κ) (segments : List (Segment κ)) :
    untilClose key segments ≤ size segments := by
  induction segments with
  | nil => exact Nat.le_refl 0
  | cons segment rest induction =>
      obtain ⟨mark, chunk⟩ := segment
      simp only [untilClose, size]
      split <;> omega

theorem block_le_size (key : κ) (segments : List (Segment κ)) :
    blockOffset key segments + blockLength key segments ≤ size segments := by
  induction segments with
  | nil => exact Nat.le_refl 0
  | cons segment rest induction =>
      obtain ⟨mark, chunk⟩ := segment
      simp only [blockOffset, blockLength, size]
      split
      · have bound := untilClose_le_size key rest
        omega
      · omega

theorem blockLength_of_not_opened {key : κ} {segments : List (Segment κ)}
    (closed : ¬ Opened key segments) : blockLength key segments = 0 := by
  induction segments with
  | nil => rfl
  | cons segment rest induction =>
      obtain ⟨mark, chunk⟩ := segment
      rw [opened_cons, not_or] at closed
      rw [blockLength, if_neg closed.1, induction closed.2]

/-! A block is made of whole chunks: a chunk lies inside it or outside it. -/

private theorem untilClose_aligned (key : κ) (before after : List (Segment κ))
    (segment : Segment κ) :
    size before + segment.2.length ≤
        untilClose key (before ++ segment :: after) ∨
      untilClose key (before ++ segment :: after) ≤ size before := by
  induction before with
  | nil =>
      simp only [List.nil_append, untilClose, size]
      split <;> omega
  | cons head before induction =>
      obtain ⟨mark, chunk⟩ := head
      simp only [List.cons_append, untilClose, size]
      split <;> omega

theorem block_aligned (key : κ) (before after : List (Segment κ))
    (segment : Segment κ) {segments : List (Segment κ)}
    (shape : segments = before ++ segment :: after) :
    (blockOffset key segments ≤ size before ∧
        size before + segment.2.length ≤
          blockOffset key segments + blockLength key segments) ∨
      size before + segment.2.length ≤ blockOffset key segments ∨
      blockOffset key segments + blockLength key segments ≤ size before := by
  subst shape
  induction before with
  | nil =>
      simp only [List.nil_append, blockOffset, size]
      omega
  | cons head before induction =>
      obtain ⟨mark, chunk⟩ := head
      simp only [List.cons_append, blockOffset, blockLength, size]
      split
      · have aligned := untilClose_aligned key before after segment
        omega
      · omega

def InBlock (key : κ) (segments : List (Segment κ)) (position : Nat) : Prop :=
  blockOffset key segments ≤ position ∧
    position < blockOffset key segments + blockLength key segments

instance (key : κ) (segments : List (Segment κ)) (position : Nat) :
    Decidable (InBlock key segments position) :=
  inferInstanceAs (Decidable (_ ∧ _))

theorem apart_of_not_inBlock {key : κ} {before after : List (Segment κ)}
    (segment : Segment κ)
    (outside : ¬ InBlock key (before ++ segment :: after) (size before)) :
    size before + segment.2.length ≤
        blockOffset key (before ++ segment :: after) ∨
      blockOffset key (before ++ segment :: after) +
        blockLength key (before ++ segment :: after) ≤ size before := by
  have aligned := block_aligned key before after segment rfl
  unfold InBlock at outside
  omega

end Blocks

/-! Block ranges do not depend on how the blocks are named. -/

def rename (naming : κ → ι) (segments : List (Segment κ)) : List (Segment ι) :=
  segments.map fun segment => (segment.1.map naming, segment.2)

@[simp] theorem rename_nil (naming : κ → ι) : rename naming [] = [] := rfl

@[simp] theorem rename_cons (naming : κ → ι) (mark : Mark κ)
    (chunk : List UInt8) (rest : List (Segment κ)) :
    rename naming ((mark, chunk) :: rest) =
      (mark.map naming, chunk) :: rename naming rest := rfl

def Mark.key? : Mark κ → Option κ
  | .plain => none
  | .opens key => some key
  | .closes key => some key

section Rename

variable {naming : κ → ι} {known : κ → Prop} {key : κ}

private theorem map_eq_opens
    (injective : ∀ {first second}, known first → known second →
      naming first = naming second → first = second)
    (isKnown : known key) {mark : Mark κ}
    (marksKnown : ∀ other, mark.key? = some other → known other) :
    mark.map naming = .opens (naming key) ↔ mark = .opens key := by
  cases mark with
  | plain => simp [Mark.map]
  | closes other => simp [Mark.map]
  | opens other =>
      simp only [Mark.map, Mark.opens.injEq]
      exact ⟨injective (marksKnown other rfl) isKnown, congrArg naming⟩

private theorem map_eq_closes
    (injective : ∀ {first second}, known first → known second →
      naming first = naming second → first = second)
    (isKnown : known key) {mark : Mark κ}
    (marksKnown : ∀ other, mark.key? = some other → known other) :
    mark.map naming = .closes (naming key) ↔ mark = .closes key := by
  cases mark with
  | plain => simp [Mark.map]
  | opens other => simp [Mark.map]
  | closes other =>
      simp only [Mark.map, Mark.closes.injEq]
      exact ⟨injective (marksKnown other rfl) isKnown, congrArg naming⟩

variable {segments : List (Segment κ)}

@[simp] theorem size_rename : size (rename naming segments) = size segments := by
  induction segments with
  | nil => rfl
  | cons segment rest induction =>
      obtain ⟨mark, chunk⟩ := segment
      simp only [rename_cons, size, induction]

variable [DecidableEq κ] [DecidableEq ι]

theorem untilClose_rename
    (injective : ∀ {first second}, known first → known second →
      naming first = naming second → first = second)
    (isKnown : known key)
    (marksKnown : ∀ segment ∈ segments, ∀ other,
      segment.1.key? = some other → known other) :
    untilClose (naming key) (rename naming segments) =
      untilClose key segments := by
  induction segments with
  | nil => rfl
  | cons segment rest induction =>
      obtain ⟨mark, chunk⟩ := segment
      rw [rename_cons, untilClose, untilClose,
        induction fun other member =>
          marksKnown other (List.mem_cons_of_mem _ member)]
      simp only [map_eq_closes injective isKnown
        (marksKnown (mark, chunk) List.mem_cons_self)]

theorem block_rename
    (injective : ∀ {first second}, known first → known second →
      naming first = naming second → first = second)
    (isKnown : known key)
    (marksKnown : ∀ segment ∈ segments, ∀ other,
      segment.1.key? = some other → known other) :
    blockLength (naming key) (rename naming segments) =
        blockLength key segments ∧
      blockOffset (naming key) (rename naming segments) =
        blockOffset key segments ∧
      (Opened (naming key) (rename naming segments) ↔
        Opened key segments) := by
  induction segments with
  | nil => simp [blockLength, blockOffset, Opened]
  | cons segment rest induction =>
      obtain ⟨mark, chunk⟩ := segment
      have restKnown : ∀ segment ∈ rest, ∀ other,
          segment.1.key? = some other → known other :=
        fun other member => marksKnown other (List.mem_cons_of_mem _ member)
      obtain ⟨sameLength, sameOffset, sameOpened⟩ := induction restKnown
      have opens := map_eq_opens injective isKnown
        (marksKnown (mark, chunk) List.mem_cons_self)
      rw [rename_cons]
      refine ⟨?_, ?_, ?_⟩
      · simp only [blockLength, opens, sameLength,
          untilClose_rename injective isKnown restKnown]
      · simp only [blockOffset, opens, sameOffset]
      · rw [opened_cons, opened_cons, opens, sameOpened]

end Rename

end Segvault.Layout
