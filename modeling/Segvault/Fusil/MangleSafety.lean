import Segvault.Fusil.Mangle

namespace Segvault.Fusil

namespace MangleConfig

open Mangling

variable {config : MangleConfig} {data : List UInt8} {name : OperationName}

/-! When no sequence of draws makes `run` raise. -/

/-- How many bytes one operation of the configuration can take away. -/
def maxLoss (config : MangleConfig) : Nat :=
  if .deleteBytes ∈ config.operationNames then config.maxDeleteBytes.toNat else 0

/-- So many operations have the bytes that they need, also after as many deletions as can be. -/
def Roomy (config : MangleConfig) (count datalen : Nat) : Prop :=
  ∀ name ∈ config.operationNames, config.Drawable name ∧
    config.firstOffset + name.need + (count - 1) * config.maxLoss ≤ datalen

def Safe (config : MangleConfig) (datalen : Nat) : Prop :=
  config.maxOp ≤ 0 ∨ config.minOp ≤ config.maxOp ∧ config.Roomy config.maxOp.toNat datalen

theorem loss_le (member : name ∈ config.operationNames) : config.loss name ≤ config.maxLoss := by
  cases name with
  | deleteBytes => rw [maxLoss, if_pos member]; exact Nat.le_refl _
  | replace | bit | specialValue | increment | insertBytes => exact Nat.zero_le _

theorem Roomy.mono {count more datalen : Nat} (roomy : config.Roomy more datalen)
    (fewer : count ≤ more) : config.Roomy count datalen := by
  intro name member
  obtain ⟨drawable, room⟩ := roomy name member
  have less := Nat.mul_le_mul_right config.maxLoss (Nat.sub_le_sub_right fewer 1)
  exact ⟨drawable, by omega⟩

theorem Roomy.next {count : Nat} {after : List UInt8}
    (roomy : config.Roomy (count + 2) data.length) (member : name ∈ config.operationNames)
    (framed : config.Framed name data after) : config.Roomy (count + 1) after.length := by
  intro other otherIn
  obtain ⟨drawable, room⟩ := roomy other otherIn
  have shrinks := framed.shrinks
  have small := loss_le member
  rw [Nat.add_sub_assoc (by decide), Nat.succ_mul] at room
  exact ⟨drawable, by rw [Nat.add_sub_cancel]; omega⟩

theorem applyOperations_safe {count : Nat} (roomy : 0 < count → config.Roomy count data.length)
    (draws : Draws) : (config.applyOperations count data draws).1 = .ok () := by
  induction count generalizing data draws with
  | zero => rfl
  | succ count induction =>
      obtain ⟨name, member, outcome⟩ := @turn_meets config data draws
      rw [applyOperations]
      rcases same : config.turn data draws with ⟨failure | after, rest⟩ <;> rw [same] at outcome
      · obtain ⟨drawable, room⟩ := roomy (Nat.succ_pos count) name member
        exact absurd ⟨Nat.le_trans (Nat.le_add_right _ _) room, drawable⟩ outcome.2
      · refine induction (fun more => ?_) rest
        obtain ⟨fewer, rfl⟩ := Nat.exists_eq_succ_of_ne_zero (Nat.pos_iff_ne_zero.mp more)
        exact (roomy (Nat.succ_pos _)).next member outcome

/-! Draws that make an operation do something. -/

/-- A number that is drawn before the others. -/
def deal (number : Nat) (draws : Draws) : Draws
  | 0 => number
  | turn + 1 => draws turn

theorem bind_apply (program : Mangling α) (next : α → Mangling β) (draws : Draws) :
    (program >>= next) draws =
      match program draws with
      | (.error failure, draws) => (.error failure, draws)
      | (.ok value, draws) => next value draws := rfl

theorem bind_ok {program : Mangling α} {next : α → Mangling β} {draws rest : Draws} {value : α}
    (here : program draws = (.ok value, rest)) : (program >>= next) draws = next value rest := by
  rw [bind_apply, here]

theorem bind_error {program : Mangling α} {next : α → Mangling β} {draws rest : Draws}
    {failure : MangleFailure} (here : program draws = (.error failure, rest)) :
    (program >>= next) draws = (.error failure, rest) := by
  rw [bind_apply, here]

theorem draw_randint {low high value : Int} (above : low ≤ value) (below : value ≤ high)
    (draws : Draws) :
    draw (randint low high) (deal (value - low).toNat draws) = (.ok value, draws) := by
  rw [draw, randint_reaches above below _ rfl]
  rfl

theorem draw_choice {items : List α} {item : α} (member : item ∈ items) :
    ∃ number, ∀ draws, draw (choice items) (deal number draws) = (.ok item, draws) := by
  obtain ⟨index, bound, rfl⟩ := List.mem_iff_getElem.mp member
  refine ⟨index, fun draws => ?_⟩
  have same : deal index draws 0 % items.length = index := Nat.mod_eq_of_lt bound
  rw [draw, choice, same, List.getElem?_eq_getElem bound]
  rfl

def Fails (program : Mangling α) : Prop :=
  ∃ draws failure rest, program draws = (.error failure, rest)

theorem fails_of_meets {program : Mangling α}
    (meets : program.Meets fun
      | .error _ => True
      | .ok _ => False) : Fails program := by
  have failed := meets fun _ => 0
  rcases same : program fun _ => 0 with ⟨failure | value, rest⟩ <;> rw [same] at failed
  · exact ⟨_, failure, rest, same⟩
  · exact failed.elim

theorem offset_short {last : Nat} (short : data.length < config.firstOffset + last) :
    config.offset data last = raise .invalidFirstOffset :=
  if_pos (by omega)

theorem offset_first {last : Nat} (room : config.firstOffset + last ≤ data.length)
    (draws : Draws) :
    config.offset data last (deal ((config.firstOffset : Int) - config.firstOffset).toNat draws) =
      (.ok config.firstOffset, draws) := by
  have order : config.offset data last =
      draw (randint config.firstOffset (data.length - last)) >>= fun offset =>
        pure offset.toNat := if_neg (by omega)
  rw [order, bind_ok (draw_randint (Int.le_refl _) (by omega) draws), Int.toNat_natCast]
  rfl

theorem operation_fails (refused : ¬ config.Admits name data.length) :
    Fails (config.operation name data) := by
  cases name with
  | replace =>
      refine fails_of_meets (.bind (.randint (fun _ => trivial) fun byte _ _ => ?_))
      refine .bind (offset_meets (fun _ => trivial) fun offset above inside => ?_)
      exact absurd ⟨by simp only [OperationName.need]; omega, trivial⟩ refused
  | bit =>
      refine fails_of_meets (.bind (offset_meets (fun _ => trivial) fun offset above inside => ?_))
      exact absurd ⟨by simp only [OperationName.need]; omega, trivial⟩ refused
  | specialValue =>
      -- The widest special values need most.
      obtain ⟨number, chosen⟩ :=
        draw_choice (by decide : [0x7f, 0xff, 0xff, 0xff] ∈ specialValues)
      have short : data.length < config.firstOffset + 4 :=
        Nat.lt_of_not_le fun room => refused ⟨room, trivial⟩
      refine ⟨deal number fun _ => 0, .invalidFirstOffset, fun _ => 0, ?_⟩
      exact (bind_ok (chosen _)).trans (bind_error (congrFun (offset_short short) _))
  | increment =>
      refine fails_of_meets (.bind (.randint (fun _ => trivial) fun incr low high => ?_))
      refine .bind (.randint (fun _ => trivial) fun sign _ _ => ?_)
      refine .bind (offset_meets (fun _ => trivial) fun offset above inside => ?_)
      exact absurd ⟨by simp only [OperationName.need]; omega, low.trans high⟩ refused
  | insertBytes =>
      refine fails_of_meets (.bind (offset_meets (fun _ => trivial) fun offset above inside => ?_))
      refine .bind (.randint (fun _ => trivial) fun count low high => ?_)
      exact absurd ⟨by simp only [OperationName.need]; omega, low.trans high⟩ refused
  | deleteBytes =>
      refine fails_of_meets (.bind (offset_meets (fun _ => trivial) fun offset above inside => ?_))
      refine .bind (.randint (fun _ => trivial) fun count low high => ?_)
      exact absurd ⟨by simp only [OperationName.need]; omega, low.trans high⟩ refused

theorem turn_fails (member : name ∈ config.operationNames)
    (refused : ¬ config.Admits name data.length) : Fails (config.turn data) := by
  obtain ⟨number, chosen⟩ := draw_choice member
  obtain ⟨draws, failure, rest, failed⟩ := operation_fails refused
  exact ⟨deal number draws, failure, rest, (bind_ok (chosen draws)).trans failed⟩

/-- A deletion that takes away as much as it can. -/
theorem turn_deletes (member : .deleteBytes ∈ config.operationNames)
    (admitted : config.Admits .deleteBytes data.length) :
    ∃ after : List UInt8, after.length = max config.firstOffset (data.length - config.maxLoss) ∧
      ∀ draws, ∃ before, config.turn data before = (.ok after, draws) := by
  obtain ⟨room, drawable⟩ := admitted
  obtain ⟨number, chosen⟩ := draw_choice member
  simp only [OperationName.need, Drawable] at room drawable
  let count := (min config.maxDeleteBytes (data.length - config.firstOffset)).toNat
  refine ⟨data.take config.firstOffset ++ data.drop (config.firstOffset + count), ?_,
    fun draws => ⟨_, (bind_ok (chosen _)).trans ((bind_ok (offset_first room _)).trans
      ((bind_ok (draw_randint drawable (Int.le_refl _) draws)).trans rfl))⟩⟩
  simp only [List.length_append, List.length_take, List.length_drop, maxLoss, if_pos member,
    count]
  omega

theorem applyOperations_of_turn {count : Nat} {draws rest : Draws} {after : List UInt8}
    (here : config.turn data draws = (.ok after, rest)) :
    config.applyOperations (count + 1) data draws = config.applyOperations count after rest := by
  rw [applyOperations, here]

theorem applyOperations_fails {count : Nat} (refused : ¬ config.Roomy (count + 1) data.length) :
    ∃ draws failure, (config.applyOperations (count + 1) data draws).1 = .error failure := by
  induction count generalizing data with
  | zero =>
      simp only [Roomy, Nat.zero_add, Nat.sub_self, Nat.zero_mul, Nat.add_zero, not_forall] at refused
      obtain ⟨name, member, refused⟩ := refused
      obtain ⟨draws, failure, rest, failed⟩ :=
        turn_fails member fun admits => refused ⟨admits.2, admits.1⟩
      exact ⟨draws, failure, by rw [applyOperations, failed]⟩
  | succ count induction =>
      by_cases admitted : ∀ name ∈ config.operationNames, config.Admits name data.length
      · simp only [Roomy, not_forall, Nat.add_sub_cancel, Nat.succ_mul] at refused
        obtain ⟨name, member, refused⟩ := refused
        have short : data.length <
            config.firstOffset + name.need + (count * config.maxLoss + config.maxLoss) :=
          Nat.lt_of_not_le fun room => refused ⟨(admitted name member).2, room⟩
        have needs : 0 < name.need := by cases name <;> decide
        have room := (admitted name member).1
        have deletes : .deleteBytes ∈ config.operationNames := by
          by_contra never
          rw [maxLoss, if_neg never] at short
          omega
        obtain ⟨after, length, reached⟩ := turn_deletes deletes (admitted _ deletes)
        obtain ⟨draws, failure, failed⟩ := induction fun roomy : config.Roomy _ after.length => by
          have enough := (roomy name member).2
          rw [Nat.add_sub_cancel] at enough
          omega
        obtain ⟨before, turned⟩ := reached draws
        exact ⟨before, failure, by rw [applyOperations_of_turn turned, failed]⟩
      · simp only [not_forall] at admitted
        obtain ⟨name, member, refused⟩ := admitted
        obtain ⟨draws, failure, rest, failed⟩ := turn_fails member refused
        exact ⟨draws, failure, by rw [applyOperations, failed]⟩

/-- Main result: `run` never raises, whatever is drawn, exactly when each operation has the bytes
that it needs after as many deletions as can be, and draws from ranges that are not empty. -/
theorem run_returns_iff (config : MangleConfig) (data : List UInt8) :
    (∀ draws, ∃ count, (config.run data draws).1 = .ok count) ↔ config.Safe data.length := by
  constructor
  · intro returns
    by_contra risky
    simp only [Safe, not_or, not_and] at risky
    obtain ⟨positive, refused⟩ := risky
    by_cases order : config.minOp ≤ config.maxOp
    · obtain ⟨count, same⟩ := Nat.exists_eq_succ_of_ne_zero (by omega : config.maxOp.toNat ≠ 0)
      obtain ⟨draws, failure, failed⟩ := applyOperations_fails (same ▸ refused order)
      obtain ⟨value, returned⟩ := returns (deal (config.maxOp - config.minOp).toNat draws)
      rw [run, if_neg positive, draw_randint order (Int.le_refl _)] at returned
      simp only [same, failed, Except.map, reduceCtorEq] at returned
    · obtain ⟨value, returned⟩ := returns fun _ => 0
      rcases run_split config data fun _ => 0 with
        ⟨idle, -⟩ | ⟨-, -, same⟩ | ⟨count, -, above, below, -⟩
      · exact positive idle
      · rw [same] at returned
        cases returned
      · exact order (above.trans below)
  · intro safe draws
    rcases run_split config data draws with
      ⟨-, same⟩ | ⟨positive, empty, -⟩ | ⟨count, positive, above, below, same⟩
    · exact ⟨0, by rw [same]⟩
    · exact absurd safe (by simp only [Safe]; omega)
    · rcases safe with idle | ⟨-, roomy⟩
      · exact absurd idle (Int.not_le.mpr positive)
      · have done := applyOperations_safe (fun _ => roomy.mono (Int.toNat_le_toNat below))
          fun n => draws (n + 1)
        exact ⟨count, by rw [same, done]; rfl⟩

/-- A special value of two bytes does not fit in one byte. -/
theorem run_raises_one_byte : ({} : MangleConfig).firstOffset < [(0 : UInt8)].length ∧
    (({} : MangleConfig).run [0] fun draw => [0, 2, 1].getD draw 0) =
      (.error .invalidFirstOffset, [0]) := by
  decide +kernel

end MangleConfig

end Segvault.Fusil
