import Segvault.Fusil.LegalOffsets

namespace Segvault.Fusil

/-! `Mangle`. An array of bytes raises `OverflowError` when it is given another value. -/

inductive MangleFailure
  | random (error : MangleError)
  | invalidFirstOffset
  | indexError
  | overflowError
  deriving DecidableEq, Repr

def Mangling (α : Type) : Type := Draws → Except MangleFailure α × Draws

namespace Mangling

instance : Monad Mangling where
  pure value := fun draws => (.ok value, draws)
  bind first next := fun draws =>
    match first draws with
    | (.error failure, draws) => (.error failure, draws)
    | (.ok value, draws) => next value draws

def raise (failure : MangleFailure) : Mangling α := fun draws => (.error failure, draws)

def draw (random : Random α) : Mangling α := fun draws =>
  match random draws with
  | (.error error, draws) => (.error (.random error), draws)
  | (.ok value, draws) => (.ok value, draws)

end Mangling

/-- The names that `mangle_` is put before. -/
inductive OperationName
  | replace
  | bit
  | specialValue
  | increment
  | insertBytes
  | deleteBytes
  deriving DecidableEq, Repr

/-- No operations stand for None. -/
structure MangleConfig where
  minOp : Int := 1
  maxOp : Int := 100
  maxInsertBytes : Int := 4
  maxDeleteBytes : Int := 4
  maxIncr : Int := Fusil.maxIncr
  firstOffset : Nat := 0
  changeSize : Bool := false
  operations : List OperationName := []

namespace MangleConfig

open Mangling

def generateByte : Mangling Int := draw (randint 0 255)

def offset (config : MangleConfig) (data : List UInt8) (last : Nat) : Mangling Nat := do
  let first : Int := config.firstOffset
  let last : Int := data.length - last
  if last < first then raise .invalidFirstOffset
  else do
    let offset ← draw (randint first last)
    pure offset.toNat

/-- `data[offset] = value` -/
def setItem (data : List UInt8) (offset : Nat) (value : Int) : Mangling (List UInt8) :=
  if data.length ≤ offset then raise .indexError
  else if value < 0 ∨ 255 < value then raise .overflowError
  else pure (data.set offset (UInt8.ofNat value.toNat))

/-- `data[offset]` -/
def getItem (data : List UInt8) (offset : Nat) : Mangling Int :=
  match data[offset]? with
  | none => raise .indexError
  | some byte => pure byte.toNat

def mangleReplace (config : MangleConfig) (data : List UInt8) : Mangling (List UInt8) := do
  let byte ← generateByte
  let offset ← config.offset data 1
  setItem data offset byte

def mangleBit (config : MangleConfig) (data : List UInt8) : Mangling (List UInt8) := do
  let offset ← config.offset data 1
  let bit ← draw (randint 0 7)
  let mask := 1 <<< bit.toNat
  let side ← draw (randint 0 1)
  let value ← getItem data offset
  if side = 1 then setItem data offset (value.toNat ||| mask : Nat)
  -- `~mask & 0xFF`
  else setItem data offset (value.toNat &&& (0xFF - mask) : Nat)

def mangleSpecialValue (config : MangleConfig) (data : List UInt8) :
    Mangling (List UInt8) := do
  let text ← draw (choice specialValues)
  let offset ← config.offset data text.length
  pure (data.take offset ++ text ++ data.drop (offset + text.length))

def mangleIncrement (config : MangleConfig) (data : List UInt8) : Mangling (List UInt8) := do
  let incr ← draw (randint 1 config.maxIncr)
  let sign ← draw (randint 0 1)
  let incr := if sign = 1 then -incr else incr
  let offset ← config.offset data 1
  let value ← getItem data offset
  setItem data offset (minmax 0 (value + incr) 255)

/-- The loop over `xrange(count)`; `insert` takes the bytes that `setItem` does. -/
def insertLoop (offset : Nat) : Nat → List UInt8 → Mangling (List UInt8)
  | 0, data => pure data
  | count + 1, data => do
      let byte ← generateByte
      if byte < 0 ∨ 255 < byte then raise .overflowError
      else insertLoop offset count (data.insertIdx offset (UInt8.ofNat byte.toNat))

def mangleInsertBytes (config : MangleConfig) (data : List UInt8) : Mangling (List UInt8) := do
  let offset ← config.offset data 1
  let count ← draw (randint 1 config.maxInsertBytes)
  insertLoop offset count.toNat data

def mangleDeleteBytes (config : MangleConfig) (data : List UInt8) : Mangling (List UInt8) := do
  let offset ← config.offset data 2
  let count ← draw (randint 1 config.maxDeleteBytes)
  let count := min count (data.length - offset)
  pure (data.take offset ++ data.drop (offset + count.toNat))

/-- `getattr(self, "mangle_" + name)` -/
def operation (config : MangleConfig) : OperationName → List UInt8 → Mangling (List UInt8)
  | .replace => config.mangleReplace
  | .bit => config.mangleBit
  | .specialValue => config.mangleSpecialValue
  | .increment => config.mangleIncrement
  | .insertBytes => config.mangleInsertBytes
  | .deleteBytes => config.mangleDeleteBytes

def operationNames (config : MangleConfig) : List OperationName :=
  if config.operations = [] then
    [.replace, .bit, .specialValue] ++
      if config.changeSize then [.insertBytes, .deleteBytes] else []
  else config.operations

/-- One turn of the loop of `run`. -/
def turn (config : MangleConfig) (data : List UInt8) : Mangling (List UInt8) := do
  let name ← draw (choice config.operationNames)
  config.operation name data

/-- The loop of `run`: what it raises, and the data it leaves. -/
def applyOperations (config : MangleConfig) :
    Nat → List UInt8 → Draws → Except MangleFailure Unit × List UInt8
  | 0, data, _ => (.ok (), data)
  | count + 1, data, draws =>
      match config.turn data draws with
      | (.error failure, _) => (.error failure, data)
      | (.ok data, draws) => applyOperations config count data draws

/-- `run`: the number of operations or what it raises, and the data it leaves. -/
def run (config : MangleConfig) (data : List UInt8) (draws : Draws) :
    Except MangleFailure Int × List UInt8 :=
  if config.maxOp ≤ 0 then (.ok 0, data)
  else
    match draw (randint config.minOp config.maxOp) draws with
    | (.error failure, _) => (.error failure, data)
    | (.ok count, draws) =>
        let (outcome, data) := config.applyOperations count.toNat data draws
        (outcome.map fun _ => count, data)

end MangleConfig

/-! What holds of every outcome of a program. -/

namespace Mangling

def Meets (program : Mangling α) (post : Except MangleFailure α → Prop) : Prop :=
  ∀ draws, post (program draws).1

variable {program : Mangling α} {post weaker : Except MangleFailure α → Prop}

theorem Meets.imp (meets : program.Meets post) (implies : ∀ result, post result → weaker result) :
    program.Meets weaker :=
  fun draws => implies _ (meets draws)

theorem Meets.pure {value : α} (holds : post (.ok value)) : (Pure.pure value : Mangling α).Meets post :=
  fun _ => holds

theorem Meets.raise {failure : MangleFailure} (holds : post (.error failure)) :
    (Mangling.raise failure : Mangling α).Meets post :=
  fun _ => holds

theorem Meets.bind {next : α → Mangling β} {post : Except MangleFailure β → Prop}
    (first : program.Meets fun
      | .error failure => post (.error failure)
      | .ok value => (next value).Meets post) : (program >>= next).Meets post := by
  intro draws
  have holds := first draws
  change post (match program draws with
    | (.error failure, draws) => (Except.error failure, draws)
    | (.ok value, draws) => next value draws).1
  rcases same : program draws with ⟨_ | value, rest⟩ <;> rw [same] at holds
  · exact holds
  · exact holds rest

theorem Meets.draw {random : Random α} (raises : ∀ error draws rest,
      random draws = (.error error, rest) → post (.error (.random error)))
    (returns : ∀ value draws rest, random draws = (.ok value, rest) → post (.ok value)) :
    (Mangling.draw random).Meets post := by
  intro draws
  rcases same : random draws with ⟨error | value, rest⟩ <;> simp only [Mangling.draw, same]
  · exact raises error draws rest same
  · exact returns value draws rest same

theorem Meets.randint {low high : Int} {post : Except MangleFailure Int → Prop}
    (raises : high < low → post (.error (.random .valueError)))
    (returns : ∀ value, low ≤ value → value ≤ high → post (.ok value)) :
    (Mangling.draw (Fusil.randint low high)).Meets post := by
  refine .draw (fun error draws rest raised => ?_) fun value draws rest drawn =>
    returns value (randint_bounds drawn).1 (randint_bounds drawn).2
  rcases randint_split low high draws with ⟨empty, same⟩ | ⟨value, -, -, drawn⟩
  · cases raised.symm.trans same
    exact raises empty
  · cases raised.symm.trans drawn

theorem Meets.choice {items : List α} (nonempty : items ≠ [])
    (returns : ∀ item ∈ items, post (.ok item)) : (Mangling.draw (Fusil.choice items)).Meets post := by
  refine .draw (fun error draws rest raised => ?_) fun item draws rest chosen =>
    returns item (choice_mem chosen)
  obtain ⟨item, -, chosen⟩ := choice_ok nonempty draws
  cases raised.symm.trans chosen

end Mangling

def OperationName.changesSize : OperationName → Bool
  | .insertBytes | .deleteBytes => true
  | _ => false

/-- How many bytes an operation needs from its first offset on. -/
def OperationName.need : OperationName → Nat
  | .specialValue => 4
  | .deleteBytes => 2
  | _ => 1

namespace MangleConfig

open Mangling

variable {config : MangleConfig} {data : List UInt8}

theorem offset_meets {last : Nat} {post : Except MangleFailure Nat → Prop}
    (raises : data.length < config.firstOffset + last → post (.error .invalidFirstOffset))
    (returns : ∀ offset, config.firstOffset ≤ offset → offset + last ≤ data.length →
      post (.ok offset)) : (config.offset data last).Meets post := by
  unfold offset
  dsimp only
  split
  · exact .raise (raises (by omega))
  · next order =>
      refine .bind (.randint (fun empty => by omega) fun value above below => ?_)
      exact .pure (returns value.toNat (by omega) (by omega))

theorem setItem_meets {offset : Nat} {value : Int} {post : Except MangleFailure (List UInt8) → Prop}
    (inside : offset < data.length) (low : 0 ≤ value) (high : value ≤ 255)
    (returns : post (.ok (data.set offset (UInt8.ofNat value.toNat)))) :
    (setItem data offset value).Meets post := by
  rw [setItem, if_neg (by omega), if_neg (by omega)]
  exact .pure returns

theorem getItem_meets {offset : Nat} {post : Except MangleFailure Int → Prop}
    (inside : offset < data.length)
    (returns : ∀ byte : UInt8, post (.ok byte.toNat)) : (getItem data offset).Meets post := by
  rw [getItem, List.getElem?_eq_getElem inside]
  exact .pure (returns _)

/-! What one operation does. -/

/-- The ranges that the operation draws from are not empty. -/
def Drawable (config : MangleConfig) : OperationName → Prop
  | .increment => 1 ≤ config.maxIncr
  | .insertBytes => 1 ≤ config.maxInsertBytes
  | .deleteBytes => 1 ≤ config.maxDeleteBytes
  | _ => True

/-- The operation cannot raise on data of that length. -/
def Admits (config : MangleConfig) (name : OperationName) (datalen : Nat) : Prop :=
  config.firstOffset + name.need ≤ datalen ∧ config.Drawable name

/-- How many bytes the operation can take away. -/
def loss (config : MangleConfig) : OperationName → Nat
  | .deleteBytes => config.maxDeleteBytes.toNat
  | _ => 0

/-- The data before and after an operation. -/
structure Framed (config : MangleConfig) (name : OperationName) (data after : List UInt8) :
    Prop where
  kept : after.take config.firstOffset = data.take config.firstOffset
  sameLength : name.changesSize = false → after.length = data.length
  shrinks : data.length ≤ after.length + config.loss name

def Outcome (config : MangleConfig) (name : OperationName) (data : List UInt8) :
    Except MangleFailure (List UInt8) → Prop
  | .error failure => failure ≠ .overflowError ∧ ¬ config.Admits name data.length
  | .ok after => config.Framed name data after

variable {name : OperationName}

theorem Framed.set {offset : Nat} (above : config.firstOffset ≤ offset) (value : UInt8) :
    config.Framed name data (data.set offset value) where
  kept := by rw [List.take_set_of_le above]
  sameLength _ := List.length_set
  shrinks := by rw [List.length_set]; exact Nat.le_add_right _ _

theorem mangleReplace_meets :
    (config.mangleReplace data).Meets (config.Outcome .replace data) := by
  refine .bind (.randint (fun empty => absurd empty (by decide)) fun byte low high => ?_)
  refine .bind (offset_meets (fun short => ?_) fun offset above inside => ?_)
  · exact ⟨nofun, fun admits => absurd admits.1 (Nat.not_le.mpr short)⟩
  · exact setItem_meets inside low high (.set above _)

theorem mangleBit_meets : (config.mangleBit data).Meets (config.Outcome .bit data) := by
  refine .bind (offset_meets (fun short => ?_) fun offset above inside => ?_)
  · exact ⟨nofun, fun admits => absurd admits.1 (Nat.not_le.mpr short)⟩
  refine .bind (.randint (fun empty => absurd empty (by decide)) fun bit low high => ?_)
  refine .bind (.randint (fun empty => absurd empty (by decide)) fun side _ _ => ?_)
  refine .bind (getItem_meets inside fun byte => ?_)
  have small : byte.toNat < 2 ^ 8 := byte.toNat_lt
  dsimp only
  rw [Int.toNat_natCast]
  split
  · have mask : 1 <<< bit.toNat < 2 ^ 8 := by
      rw [Nat.one_shiftLeft]
      exact Nat.pow_lt_pow_right (by decide) (by omega)
    have both := Nat.or_lt_two_pow small mask
    exact setItem_meets inside (by omega) (by omega) (.set above _)
  · have both : byte.toNat &&& (0xFF - 1 <<< bit.toNat) ≤ byte.toNat := Nat.and_le_left
    exact setItem_meets inside (by omega) (by omega) (.set above _)

theorem mangleSpecialValue_meets :
    (config.mangleSpecialValue data).Meets (config.Outcome .specialValue data) := by
  refine .bind (.choice (by decide) fun text member => ?_)
  have short := specialValues_length text member
  refine .bind (offset_meets (fun tooShort => ?_) fun offset above inside => ?_)
  · exact ⟨nofun, fun admits => absurd admits.1 (by simp only [OperationName.need]; omega)⟩
  · refine .pure ⟨?_, fun _ => ?_, ?_⟩
    · rw [List.append_assoc, List.take_append_of_le_length (by rw [List.length_take]; omega),
        List.take_take, Nat.min_eq_left above]
    · simp only [List.length_append, List.length_take, List.length_drop]
      omega
    · simp only [List.length_append, List.length_take, List.length_drop]
      omega

theorem mangleIncrement_meets :
    (config.mangleIncrement data).Meets (config.Outcome .increment data) := by
  refine .bind (.randint (fun empty => ⟨nofun, fun admits => ?_⟩) fun incr _ _ => ?_)
  · exact absurd admits.2 (Int.not_le.mpr empty)
  refine .bind (.randint (fun empty => absurd empty (by decide)) fun sign _ _ => ?_)
  refine .bind (offset_meets (fun short => ?_) fun offset above inside => ?_)
  · exact ⟨nofun, fun admits => absurd admits.1 (Nat.not_le.mpr short)⟩
  · refine .bind (getItem_meets inside fun byte => ?_)
    exact setItem_meets inside (by unfold minmax; omega) (by unfold minmax; omega) (.set above _)

theorem insertLoop_meets {offset : Nat} (above : config.firstOffset ≤ offset) (count : Nat)
    {data : List UInt8} (inside : offset ≤ data.length) :
    (insertLoop offset count data).Meets fun
      | .error _ => False
      | .ok after => after.take config.firstOffset = data.take config.firstOffset ∧
          after.length = data.length + count := by
  induction count generalizing data with
  | zero => exact .pure ⟨rfl, rfl⟩
  | succ count induction =>
      refine .bind (.randint (fun empty => absurd empty (by decide)) fun byte low high => ?_)
      dsimp only
      rw [if_neg (by omega)]
      have longer : (data.insertIdx offset (UInt8.ofNat byte.toNat)).length = data.length + 1 :=
        List.length_insertIdx_of_le_length inside _
      refine (induction (by omega)).imp fun result holds => ?_
      cases result with
      | error failure => exact holds
      | ok after =>
          obtain ⟨kept, length⟩ := holds
          rw [List.take_insertIdx_eq_take_of_le _ _ _ _ above] at kept
          exact ⟨kept, by omega⟩

theorem mangleInsertBytes_meets :
    (config.mangleInsertBytes data).Meets (config.Outcome .insertBytes data) := by
  refine .bind (offset_meets (fun short => ?_) fun offset above inside => ?_)
  · exact ⟨nofun, fun admits => absurd admits.1 (Nat.not_le.mpr short)⟩
  refine .bind (.randint (fun empty => ⟨nofun, fun admits => ?_⟩) fun count _ _ => ?_)
  · exact absurd admits.2 (Int.not_le.mpr empty)
  refine (insertLoop_meets above count.toNat (by omega)).imp fun result holds => ?_
  cases result with
  | error failure => exact holds.elim
  | ok after => exact ⟨holds.1, nofun, by rw [holds.2]; omega⟩

theorem mangleDeleteBytes_meets :
    (config.mangleDeleteBytes data).Meets (config.Outcome .deleteBytes data) := by
  refine .bind (offset_meets (fun short => ?_) fun offset above inside => ?_)
  · exact ⟨nofun, fun admits => absurd admits.1 (Nat.not_le.mpr short)⟩
  refine .bind (.randint (fun empty => ⟨nofun, fun admits => ?_⟩) fun count low high => ?_)
  · exact absurd admits.2 (Int.not_le.mpr empty)
  refine .pure ⟨?_, nofun, ?_⟩
  · rw [List.take_append_of_le_length (by rw [List.length_take]; omega), List.take_take,
      Nat.min_eq_left above]
  · simp only [List.length_append, List.length_take, List.length_drop, loss]
    omega

theorem operation_meets (name : OperationName) :
    (config.operation name data).Meets (config.Outcome name data) := by
  cases name with
  | replace => exact mangleReplace_meets
  | bit => exact mangleBit_meets
  | specialValue => exact mangleSpecialValue_meets
  | increment => exact mangleIncrement_meets
  | insertBytes => exact mangleInsertBytes_meets
  | deleteBytes => exact mangleDeleteBytes_meets

/-! A whole run. -/

theorem operationNames_nonempty (config : MangleConfig) : config.operationNames ≠ [] := by
  unfold operationNames
  split
  · exact List.cons_ne_nil _ _
  · assumption

theorem turn_meets : (config.turn data).Meets fun result =>
    ∃ name ∈ config.operationNames, config.Outcome name data result := by
  refine .bind (.choice config.operationNames_nonempty fun name member => ?_)
  exact (operation_meets name).imp fun result holds => ⟨name, member, holds⟩

/-- What holds of the data at any turn, if each operation keeps it, holds after the loop. -/
theorem applyOperations_invariant (invariant : List UInt8 → Prop) (post : MangleFailure → Prop)
    (step : ∀ data, invariant data → (config.turn data).Meets fun
      | .error failure => post failure
      | .ok after => invariant after)
    (count : Nat) (holds : invariant data) (draws : Draws) :
    invariant (config.applyOperations count data draws).2 ∧
      ∀ failure, (config.applyOperations count data draws).1 = .error failure → post failure := by
  induction count generalizing data draws with
  | zero => exact ⟨holds, fun _ => nofun⟩
  | succ count induction =>
      have met := step data holds draws
      rw [applyOperations]
      rcases same : config.turn data draws with ⟨failure | after, rest⟩ <;> rw [same] at met
      · refine ⟨holds, fun other raised => ?_⟩
        cases raised
        exact met
      · exact induction met rest

theorem run_split (config : MangleConfig) (data : List UInt8) (draws : Draws) :
    (config.maxOp ≤ 0 ∧ config.run data draws = (.ok 0, data)) ∨
    (0 < config.maxOp ∧ config.maxOp < config.minOp ∧
      config.run data draws = (.error (.random .valueError), data)) ∨
    ∃ count, 0 < config.maxOp ∧ config.minOp ≤ count ∧ count ≤ config.maxOp ∧
      config.run data draws =
        ((config.applyOperations count.toNat data fun n => draws (n + 1)).1.map fun _ => count,
          (config.applyOperations count.toNat data fun n => draws (n + 1)).2) := by
  by_cases none : config.maxOp ≤ 0
  · exact .inl ⟨none, if_pos none⟩
  · rcases randint_split config.minOp config.maxOp draws with
      ⟨empty, drawn⟩ | ⟨count, above, below, drawn⟩
    · refine .inr (.inl ⟨by omega, empty, ?_⟩)
      rw [run, if_neg none, draw, drawn]
    · refine .inr (.inr ⟨count, by omega, above, below, ?_⟩)
      rw [run, if_neg none, draw, drawn]

/-- Main result: `run` changes no byte before the first offset and stores bytes only; without
operations that insert or delete it keeps the length. This also holds of what it leaves when it
raises. -/
theorem run_frame (config : MangleConfig) (data : List UInt8) (draws : Draws) :
    (config.run data draws).2.take config.firstOffset = data.take config.firstOffset ∧
      (config.run data draws).1 ≠ .error .overflowError ∧
      ((∀ name ∈ config.operationNames, name.changesSize = false) →
        (config.run data draws).2.length = data.length) := by
  have loop : ∀ count draws,
      ((config.applyOperations count data draws).2.take config.firstOffset =
          data.take config.firstOffset ∧
        ((∀ name ∈ config.operationNames, name.changesSize = false) →
          (config.applyOperations count data draws).2.length = data.length)) ∧
      ∀ failure, (config.applyOperations count data draws).1 = .error failure →
        failure ≠ .overflowError := by
    intro count draws
    refine applyOperations_invariant (fun after =>
      after.take config.firstOffset = data.take config.firstOffset ∧
        ((∀ name ∈ config.operationNames, name.changesSize = false) →
          after.length = data.length)) (· ≠ .overflowError) ?_ count ⟨rfl, fun _ => rfl⟩ draws
    rintro before ⟨kept, length⟩
    refine turn_meets.imp fun result => ?_
    rintro ⟨name, member, outcome⟩
    cases result with
    | error failure => exact outcome.1
    | ok after =>
        exact ⟨outcome.kept.trans kept, fun fixed =>
          (outcome.sameLength (fixed name member)).trans (length fixed)⟩
  rcases run_split config data draws with ⟨-, same⟩ | ⟨-, -, same⟩ | ⟨count, -, -, -, same⟩
  · rw [same]
    exact ⟨rfl, nofun, fun _ => rfl⟩
  · rw [same]
    exact ⟨rfl, nofun, fun _ => rfl⟩
  · obtain ⟨⟨kept, length⟩, raised⟩ := loop count.toNat fun n => draws (n + 1)
    rw [same]
    refine ⟨kept, fun overflow => ?_, length⟩
    cases outcome : (config.applyOperations count.toNat data fun n => draws (n + 1)).1 with
    | ok _ => simp only [outcome, Except.map, reduceCtorEq] at overflow
    | error failure =>
        simp only [outcome, Except.map, Except.error.injEq] at overflow
        exact raised failure outcome overflow

end MangleConfig

end Segvault.Fusil
