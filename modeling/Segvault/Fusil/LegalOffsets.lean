import Segvault.Fusil.IncrMangleOp

namespace Segvault.Fusil

/-! Random numbers that are drawn, and exceptions that are not. -/

theorem randint_reaches {low high value : Int} (above : low ≤ value) (below : value ≤ high)
    (draws : Draws) (drawn : draws 0 = (value - low).toNat) :
    randint low high draws = (.ok value, fun n => draws (n + 1)) := by
  have small : (value - low) % (high - low + 1) = value - low :=
    Int.emod_eq_of_lt (by omega) (by omega)
  rw [randint, if_neg (by omega), drawn, Int.toNat_of_nonneg (by omega), small]
  simp

theorem randint_empty {low high : Int} (empty : high < low) (draws : Draws) :
    randint low high draws = (.error .valueError, draws) :=
  if_pos empty

theorem randint_ok {low high : Int} (order : low ≤ high) (draws : Draws) :
    ∃ value, randint low high draws = (.ok value, fun n => draws (n + 1)) :=
  ⟨_, if_neg (by omega)⟩

theorem randint_split (low high : Int) (draws : Draws) :
    (high < low ∧ randint low high draws = (.error .valueError, draws)) ∨
      ∃ value, low ≤ value ∧ value ≤ high ∧
        randint low high draws = (.ok value, fun n => draws (n + 1)) := by
  rcases Int.lt_or_le high low with empty | order
  · exact .inl ⟨empty, randint_empty empty draws⟩
  · obtain ⟨value, drawn⟩ := randint_ok order draws
    have bounds := randint_bounds drawn
    exact .inr ⟨value, bounds.1, bounds.2, drawn⟩

theorem choice_ok {items : List α} (nonempty : items ≠ []) (draws : Draws) :
    ∃ item, items[draws 0 % items.length]? = some item ∧
      choice items draws = (.ok item, fun n => draws (n + 1)) := by
  have bound : draws 0 % items.length < items.length :=
    Nat.mod_lt _ (List.length_pos_iff.mpr nonempty)
  have found := List.getElem?_eq_getElem bound
  exact ⟨_, found, by rw [choice, found]⟩

/-! The window of a configuration. -/

namespace Agent

def first (agent : Agent) : Int :=
  match agent.minOffset with
  | none => 0
  | some offset => max offset 0

def last (agent : Agent) (datalen : Int) : Int :=
  match agent.maxOffset with
  | none => datalen - 1
  | some offset => min offset (datalen - 1)

end Agent

theorem first_le (agent : Agent) (value : Int) :
    agent.first ≤ value ↔ 0 ≤ value ∧ ∀ first ∈ agent.minOffset, first ≤ value := by
  unfold Agent.first
  cases agent.minOffset with
  | none => simp
  | some offset => simp [and_comm]

theorem first_nonneg (agent : Agent) : 0 ≤ agent.first :=
  ((first_le agent agent.first).mp (Int.le_refl _)).1

theorem le_last (agent : Agent) (datalen value : Int) :
    value ≤ agent.last datalen ↔
      value ≤ datalen - 1 ∧ ∀ last ∈ agent.maxOffset, value ≤ last := by
  unfold Agent.last
  cases agent.maxOffset with
  | none => simp
  | some offset => simp [and_comm]

theorem createByteOffset_eq (agent : Agent) (datalen : Int) :
    createByteOffset agent datalen = randint agent.first (agent.last datalen) := rfl

theorem createBitOffset_eq (agent : Agent) (datalen : Int) :
    createBitOffset agent datalen =
      randint (agent.first * 8) (agent.last datalen * 8 + 7) := by
  unfold createBitOffset Agent.first Agent.last
  cases agent.minOffset <;> cases agent.maxOffset <;> dsimp only <;> congr 1 <;> omega

/-! What the operation classes choose. -/

namespace OperationClass

/-- How many bytes wide the operation is: `SpecialValue` draws its bytes first. -/
def width (draws : Draws) : OperationClass → Nat
  | specialValue => (specialValues[draws 0 % specialValues.length]?.getD []).length
  | _ => 1

/-- An operation of that many bytes can begin at that byte. -/
def Chooses (cls : OperationClass) (agent : Agent) (datalen width offset : Nat) : Prop :=
  ∃ draws operation rest, cls.width draws = width ∧
    cls.create agent datalen draws = (.ok operation, rest) ∧ operation.offset / 8 = offset

/-- The choice of an operation of that many bytes can raise. -/
def Raises (cls : OperationClass) (agent : Agent) (datalen width : Nat) : Prop :=
  ∃ draws error rest, cls.width draws = width ∧
    cls.create agent datalen draws = (.error error, rest)

/-- How many numbers the class draws before its offset. -/
def drawsBefore : OperationClass → Nat
  | inverseBit => 0
  | replaceByte => 0
  | specialValue => 1
  | increment => 2

/-- The range of the offset, in bits for `InverseBit` and in bytes for the others. -/
def offsetRange (agent : Agent) (datalen width : Nat) : OperationClass → Int × Int
  | inverseBit => (agent.first * 8, agent.last datalen * 8 + 7)
  | _ => (agent.first, agent.last (datalen - width))

/-- The last byte that the class draws as the offset of an operation so wide. -/
def lastDrawn (agent : Agent) (datalen width : Nat) : OperationClass → Int
  | inverseBit => agent.last datalen
  | _ => agent.last (datalen - width)

end OperationClass

/-- The offsets of the operations that lie in the data and in the window. -/
structure Legal (agent : Agent) (datalen width offset : Nat) : Prop where
  afterFirst : ∀ first ∈ agent.minOffset, first ≤ offset
  beforeLast : ∀ last ∈ agent.maxOffset, (offset : Int) + width - 1 ≤ last
  inside : (offset : Int) + width - 1 ≤ datalen - 1

namespace OperationClass

variable {cls : OperationClass} {agent : Agent} {datalen width : Nat}

theorem create_error {draws : Draws}
    (empty : (cls.offsetRange agent datalen (cls.width draws)).2 <
      (cls.offsetRange agent datalen (cls.width draws)).1) :
    ∃ rest, cls.create agent datalen draws = (.error .valueError, rest) := by
  have raised := randint_empty empty
  cases cls with
  | inverseBit =>
      simp only [offsetRange] at raised
      exact ⟨draws, by simp only [create, createBitOffset_eq, raised]⟩
  | replaceByte =>
      simp only [offsetRange, width, Int.natCast_one] at raised
      exact ⟨draws, by simp only [create, createByteOffset_eq, raised]⟩
  | specialValue =>
      obtain ⟨bytes, found, chosen⟩ := choice_ok (by decide : specialValues ≠ []) draws
      simp only [offsetRange, width, found, Option.getD_some] at raised
      exact ⟨_, by simp only [create, createByteOffset_eq, chosen, raised]; rfl⟩
  | increment =>
      obtain ⟨incr, drawnIncr⟩ := randint_ok (by decide : (1 : Int) ≤ maxIncr) draws
      obtain ⟨sign, drawnSign⟩ := randint_ok (by decide : (0 : Int) ≤ 1) fun n => draws (n + 1)
      simp only [offsetRange, width, Int.natCast_one] at raised
      exact ⟨_, by simp only [create, createByteOffset_eq, drawnIncr, drawnSign, raised]; rfl⟩

theorem create_ok {draws rest : Draws} {value : Int}
    (drawn : randint (cls.offsetRange agent datalen (cls.width draws)).1
      (cls.offsetRange agent datalen (cls.width draws)).2
      (fun n => draws (n + cls.drawsBefore)) = (.ok value, rest)) :
    ∃ operation rest, cls.create agent datalen draws = (.ok operation, rest) ∧
      operation.offset / 8 = if cls = inverseBit then value.toNat / 8 else value.toNat := by
  cases cls with
  | inverseBit =>
      simp only [offsetRange, drawsBefore, Nat.add_zero] at drawn
      exact ⟨_, _, by simp only [create, createBitOffset_eq, drawn]; rfl, rfl⟩
  | replaceByte =>
      simp only [offsetRange, drawsBefore, width, Int.natCast_one, Nat.add_zero] at drawn
      obtain ⟨byte, drawnByte⟩ := randint_ok (by decide : (0 : Int) ≤ 255) rest
      exact ⟨_, _, by simp only [create, createByteOffset_eq, drawn, drawnByte]; rfl,
        Nat.mul_div_cancel _ (Nat.succ_pos 7)⟩
  | specialValue =>
      obtain ⟨bytes, found, chosen⟩ := choice_ok (by decide : specialValues ≠ []) draws
      simp only [offsetRange, drawsBefore, width, found, Option.getD_some] at drawn
      exact ⟨_, _, by simp only [create, createByteOffset_eq, chosen, drawn]; rfl,
        Nat.mul_div_cancel _ (Nat.succ_pos 7)⟩
  | increment =>
      obtain ⟨incr, drawnIncr⟩ := randint_ok (by decide : (1 : Int) ≤ maxIncr) draws
      obtain ⟨sign, drawnSign⟩ := randint_ok (by decide : (0 : Int) ≤ 1) fun n => draws (n + 1)
      simp only [offsetRange, drawsBefore, width, Int.natCast_one] at drawn
      exact ⟨_, _, by simp only [create, createByteOffset_eq, drawnIncr, drawnSign, drawn]; rfl,
        Nat.mul_div_cancel _ (Nat.succ_pos 7)⟩

/-- The range in bytes. -/
theorem offsetRange_bytes (cls : OperationClass) (agent : Agent) (datalen width : Nat)
    (value : Int) :
    (cls.offsetRange agent datalen width).1 ≤ value ∧
        value ≤ (cls.offsetRange agent datalen width).2 ↔
      agent.first ≤ (if cls = inverseBit then value / 8 else value) ∧
        (if cls = inverseBit then value / 8 else value) ≤ cls.lastDrawn agent datalen width := by
  cases cls with
  | inverseBit => simp only [offsetRange, lastDrawn, if_true]; omega
  | replaceByte | specialValue | increment => exact Iff.rfl

theorem offsetRange_empty (cls : OperationClass) (agent : Agent) (datalen width : Nat) :
    (cls.offsetRange agent datalen width).2 < (cls.offsetRange agent datalen width).1 ↔
      cls.lastDrawn agent datalen width < agent.first := by
  cases cls with
  | inverseBit => simp only [offsetRange, lastDrawn]; omega
  | replaceByte | specialValue | increment => exact Iff.rfl

theorem width_pos (cls : OperationClass) (draws : Draws) : 0 < cls.width draws := by
  cases cls with
  | specialValue =>
      obtain ⟨bytes, found, -⟩ := choice_ok (by decide : specialValues ≠ []) draws
      simp only [width, found, Option.getD_some]
      exact specialValues_nonempty bytes (List.mem_of_getElem? found)
  | inverseBit | replaceByte | increment => exact Nat.one_pos

theorem chooses_iff {before : Draws} {offset : Nat} :
    cls.Chooses agent datalen (cls.width before) offset ↔
      agent.first ≤ offset ∧ offset ≤ cls.lastDrawn agent datalen (cls.width before) := by
  have nonneg := first_nonneg agent
  constructor
  · rintro ⟨draws, operation, rest, sameWidth, created, rfl⟩
    rcases randint_split (cls.offsetRange agent datalen (cls.width draws)).1
      (cls.offsetRange agent datalen (cls.width draws)).2
      (fun n => draws (n + cls.drawsBefore)) with ⟨empty, -⟩ | ⟨value, above, below, drawn⟩
    · obtain ⟨rest, raised⟩ := create_error empty
      cases created.symm.trans raised
    · obtain ⟨operation, rest, made, place⟩ := create_ok drawn
      cases created.symm.trans made
      have bounds := (offsetRange_bytes cls agent datalen (cls.width draws) value).mp
        ⟨above, below⟩
      rw [← sameWidth, place]
      split at bounds
      · next isBit => rw [if_pos isBit]; omega
      · next notBit => rw [if_neg notBit]; omega
  · rintro ⟨above, below⟩
    -- The draw that gives the offset comes after those of the bytes.
    have known : ∃ value : Int, (cls.offsetRange agent datalen (cls.width before)).1 ≤ value ∧
        value ≤ (cls.offsetRange agent datalen (cls.width before)).2 ∧
        (if cls = inverseBit then value.toNat / 8 else value.toNat) = offset := by
      by_cases isBit : cls = inverseBit
      · have bounds := (offsetRange_bytes cls agent datalen (cls.width before) (offset * 8)).mpr
        simp only [isBit, if_true] at bounds below ⊢
        exact ⟨offset * 8, (bounds (by omega)).1, (bounds (by omega)).2, by omega⟩
      · have bounds := (offsetRange_bytes cls agent datalen (cls.width before) offset).mpr
        simp only [isBit, if_false] at bounds ⊢
        exact ⟨offset, (bounds ⟨above, below⟩).1, (bounds ⟨above, below⟩).2, by omega⟩
    obtain ⟨value, above, below, place⟩ := known
    let draws : Draws := fun n =>
      if n = cls.drawsBefore then
        (value - (cls.offsetRange agent datalen (cls.width before)).1).toNat
      else before n
    have same : cls.width draws = cls.width before := by
      cases cls <;> rfl
    have drawn := randint_reaches above below (fun n => draws (n + cls.drawsBefore))
      (by simp [draws])
    rw [← same] at drawn
    obtain ⟨operation, rest, made, placed⟩ := create_ok drawn
    exact ⟨draws, operation, rest, same, made, placed.trans place⟩

theorem raises_iff {before : Draws} :
    cls.Raises agent datalen (cls.width before) ↔
      cls.lastDrawn agent datalen (cls.width before) < agent.first := by
  rw [← offsetRange_empty]
  constructor
  · rintro ⟨draws, error, rest, sameWidth, raised⟩
    rw [← sameWidth]
    rcases randint_split (cls.offsetRange agent datalen (cls.width draws)).1
      (cls.offsetRange agent datalen (cls.width draws)).2
      (fun n => draws (n + cls.drawsBefore)) with ⟨empty, -⟩ | ⟨value, -, -, drawn⟩
    · exact empty
    · obtain ⟨operation, rest, made, -⟩ := create_ok drawn
      cases raised.symm.trans made
  · intro empty
    obtain ⟨rest, raised⟩ := create_error empty
    exact ⟨before, .valueError, rest, rfl, raised⟩

theorem legal_iff {offset : Nat} :
    Legal agent datalen width offset ↔
      agent.first ≤ offset ∧ (offset : Int) + width - 1 ≤ agent.last datalen := by
  rw [first_le, le_last]
  exact ⟨fun legal => ⟨⟨by omega, legal.afterFirst⟩, legal.inside, legal.beforeLast⟩,
    fun ⟨above, below⟩ => ⟨above.2, below.2, below.1⟩⟩

/-- Where the class draws the legal offsets, and raises only if there are none. -/
def Exact (cls : OperationClass) (agent : Agent) (datalen width : Nat) : Prop :=
  (∀ offset, cls.Chooses agent datalen width offset ↔ Legal agent datalen width offset) ∧
    ((∃ offset, Legal agent datalen width offset) → ¬ cls.Raises agent datalen width)

theorem exact_iff (before : Draws) :
    cls.Exact agent datalen (cls.width before) ↔
      (cls.lastDrawn agent datalen (cls.width before) =
          agent.last datalen - cls.width before + 1 ∨
        cls.lastDrawn agent datalen (cls.width before) < agent.first ∧
          agent.last datalen - cls.width before + 1 < agent.first) := by
  have nonneg := first_nonneg agent
  simp only [Exact, chooses_iff, raises_iff, legal_iff]
  constructor
  · rintro ⟨same, -⟩
    by_cases drawn : agent.first ≤ cls.lastDrawn agent datalen (cls.width before)
    · have drawnLast := same (cls.lastDrawn agent datalen (cls.width before)).toNat
      have legalLast := same (agent.last datalen - cls.width before + 1).toNat
      omega
    · have legalLast := same (agent.last datalen - cls.width before + 1).toNat
      omega
  · intro ends
    refine ⟨fun offset => ⟨by omega, by omega⟩, ?_⟩
    rintro ⟨offset, legal⟩
    omega

/-- Main result: `InverseBit` draws every legal offset. The other classes stop one offset short
of the end of the data and disregard their width in the window, so that they are right when
the window ends just before the last byte, when no offset is left, or, for a single byte,
when the window ends before the last byte. -/
theorem chooses_legal_iff (cls : OperationClass) (agent : Agent) (datalen width : Nat)
    (drawn : ∃ draws, cls.width draws = width) :
    cls.Exact agent datalen width ↔
      cls = inverseBit ∨
      (∃ last ∈ agent.maxOffset, last = (datalen : Int) - 2 ∨
        width = 1 ∧ last ≤ (datalen : Int) - 2) ∨
      (datalen : Int) < agent.first + width ∨
      ∃ last ∈ agent.maxOffset, last < agent.first ∨
        (datalen : Int) = agent.first + width ∧ last < agent.first + width - 1 := by
  obtain ⟨before, rfl⟩ := drawn
  have positive := cls.width_pos before
  rw [exact_iff]
  cases cls with
  | inverseBit =>
      refine iff_of_true (.inl ?_) (.inl rfl)
      simp only [lastDrawn, width]
      omega
  | replaceByte | specialValue | increment =>
      simp only [lastDrawn, reduceCtorEq, false_or]
      cases window : agent.maxOffset with
      | none =>
          simp only [Agent.last, window, Option.mem_def, reduceCtorEq, false_and, exists_false,
            false_or, or_false]
          omega
      | some last =>
          simp only [Agent.last, window, Option.mem_def, Option.some.injEq, exists_eq_left']
          omega

theorem chooses_legal_iff_default :
    (replaceByte.Exact {} 4 1 ↔
      replaceByte = inverseBit ∨
      (∃ last ∈ ({} : Agent).maxOffset, last = ((4 : Nat) : Int) - 2 ∨
        (1 : Nat) = 1 ∧ last ≤ ((4 : Nat) : Int) - 2) ∨
      ((4 : Nat) : Int) < ({} : Agent).first + (1 : Nat) ∨
      ∃ last ∈ ({} : Agent).maxOffset, last < ({} : Agent).first ∨
        ((4 : Nat) : Int) = ({} : Agent).first + (1 : Nat) ∧
          last < ({} : Agent).first + (1 : Nat) - 1) :=
  chooses_legal_iff replaceByte {} 4 1 ⟨fun _ => 0, rfl⟩

/-- The last of four bytes is never replaced. -/
theorem replaceByte_misses_last : ¬ replaceByte.Exact {} 4 1 := by
  rintro ⟨same, -⟩
  have legal : Legal {} 4 1 3 := ⟨nofun, nofun, by decide⟩
  have chosen := (same 3).mpr legal
  have drawn := (@chooses_iff replaceByte {} 4 (fun _ => 0) 3).mp chosen
  exact absurd drawn.2 (by decide)

end OperationClass

end Segvault.Fusil
