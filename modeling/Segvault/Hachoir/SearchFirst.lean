import Segvault.Hachoir.InputSubStream

namespace Segvault.Hachoir

/-! Searches in streams of known size. -/

/-- What a search from the byte `first` that ends at the byte `stop` is to find. -/
def FoundFirst (content needle : List UInt8) (first stop : Nat) : Option Nat → Prop
  | some address => ∃ place, address = 8 * place ∧ first ≤ place ∧
      place + needle.length ≤ stop ∧ Occurs content needle place ∧
      ∀ earlier, first ≤ earlier → earlier < place → ¬ Occurs content needle earlier
  | none => ∀ place, first ≤ place → place + needle.length ≤ stop →
      ¬ Occurs content needle place

theorem occurs_inside {content needle : List UInt8} {place : Nat} (nonempty : needle ≠ [])
    (occurs : Occurs content needle place) : place + needle.length ≤ content.length := by
  refine occurs.bounded (Nat.le_of_not_lt fun past => nonempty ?_)
  rw [← occurs, List.drop_eq_nil_of_le (Nat.le_of_lt past), List.take_nil]

theorem foundFirst_searched (content : List UInt8) {needle : List UInt8} (nonempty : needle ≠ [])
    (first stop : Nat) :
    FoundFirst content needle first stop
      ((searched content needle first (min content.length stop)).map fun place => 8 * place) := by
  have length : ∀ {last : Nat}, last ≤ content.length → first ≤ last →
      (slice content first (last - first)).length = last - first :=
    fun inside before => length_slice (by omega)
  have some := List.length_pos_of_ne_nil nonempty
  unfold searched
  by_cases past : min content.length stop ≤ first
  · rw [if_pos past, Option.map_none]
    intro place start fits occurs
    have inside := occurs_inside nonempty occurs
    omega
  rw [if_neg past]
  cases outcome : find (slice content first (min content.length stop - first)) needle with
  | none =>
      intro place start fits occurs
      have inside := occurs_inside nonempty occurs
      refine find_eq_none.mp outcome (place - first) ?_ ?_
      · rw [length (Nat.min_le_left _ _) (by omega)]
        omega
      · rw [slice, Occurs.in_window (by omega), Nat.add_sub_cancel' start]
        exact occurs
  | some index =>
      obtain ⟨bound, occurs, earliest⟩ := find_eq_some.mp outcome
      have fits := occurs.bounded bound
      rw [length (Nat.min_le_left _ _) (by omega)] at fits
      rw [slice, Occurs.in_window fits] at occurs
      refine ⟨first + index, rfl, by omega, by omega, occurs, fun earlier start early again => ?_⟩
      refine earliest (earlier - first) (by omega) ?_
      rw [slice, Occurs.in_window (by omega), Nat.add_sub_cancel' start]
      exact again

theorem nearestEnd_bytes {size length : Nat} (positive : 0 < size) (whole : size / 8 = length)
    (stop : Option Nat) :
    ∃ last, InputStream.nearestEnd (some size) (stop.map fun stop => 8 * stop) = some last ∧
      last / 8 = min length (stop.getD length) := by
  have known := truthy_some (Nat.pos_iff_ne_zero.mp positive)
  unfold InputStream.nearestEnd
  cases stop with
  | none => exact ⟨size, if_pos known, by rw [Option.getD_none, Nat.min_self, whole]⟩
  | some stop =>
      simp only [Option.map_some, known, Option.getD_some, Bool.true_and, decide_eq_true_eq]
      by_cases nearer : size < 8 * stop
      · exact ⟨size, if_pos nearer, by omega⟩
      · exact ⟨8 * stop, if_neg nearer, by omega⟩

/-! The streams that read their content. -/

theorem ByteReader.reads {content : List UInt8} {read : Reader} (reader : ByteReader content read)
    (size : Nat) :
    Reads content (fun address size => lift (read address size))
      (pure (some size) : Session Failure PUnit (Option Nat)) fun _ _ => True where
  chunk state start _ size positive inside := by
    have bytes : (8 * size + 8 * start % 8 + 7) / 8 = size := by omega
    rw [reader.inside _ _ (by omega) (by omega), bytes, Nat.mul_mod_right,
      Nat.mul_div_cancel_left _ (by decide)]
    exact ⟨state, trivial, rfl⟩
  size _ := ⟨_, rfl⟩

section Search

variable {σ : Type} {content needle : List UInt8} {read : Nat → Nat → Session Failure σ Chunk}
  {known : Session Failure σ (Option Nat)} {invariant : Nat → σ → Prop}

/-- A search from past the end reads nothing. -/
theorem searchLoop_past {first last turns size : Nat} (past : last / 8 ≤ first)
    (positive : 0 < size) (buffer : List UInt8) (state : σ) :
    Session.perform (InputStream.searchLoop read known needle (turns + 1) (8 * first) (some last)
      size buffer) state = (.ok none, state) := by
  have todo : (last - 8 * first) >>> 3 = 0 := by
    rw [Nat.shiftRight_eq_div_pow]
    omega
  rw [InputStream.searchLoop]
  dsimp only
  rw [todo, if_pos ⟨positive, rfl⟩]
  rfl

/-- `searchBytes` on any stream of known size that reads its content. -/
theorem searchBytes_first (reads : Reads content read known invariant) {size : Nat}
    (sized : ∀ state, Session.perform known state = (.ok (some size), state))
    (positive : 0 < size) (whole : size / 8 = content.length) (nonempty : needle ≠ [])
    {first turns : Nat} (enough : content.length + 1 < turns) {state : σ}
    (holds : invariant first state) (stop : Option Nat) :
    ∃ answer final,
      Session.perform (InputStream.searchBytes read known needle turns (8 * first)
        (stop.map fun stop => 8 * stop)) state = (.ok answer, final) ∧
      FoundFirst content needle first (stop.getD content.length) answer := by
  obtain ⟨last, nearest, bytes⟩ := nearestEnd_bytes positive whole stop
  have found := foundFirst_searched content nonempty first (stop.getD content.length)
  rw [← bytes] at found
  by_cases start : first ≤ content.length
  · have gives : Session.Gives _ (InputStream.searchBytes read known needle turns _ _) state _ :=
      reads.searchBytes enough start (by omega) holds (sized state) nearest
    obtain ⟨final, -, returned⟩ := gives
    exact ⟨_, final, returned, found⟩
  · obtain ⟨turns, rfl⟩ : ∃ less, turns = less + 1 := ⟨turns - 1, by omega⟩
    have nothing : searched content needle first (last / 8) = none := if_pos (by omega)
    rw [nothing] at found
    refine ⟨none, state, ?_, found⟩
    rw [InputStream.searchBytes, if_neg (by omega)]
    refine (Session.perform_bind_ok (sized state)).trans ?_
    rw [nearest]
    exact searchLoop_past (by omega) (by omega) [] state

end Search

theorem searchBytes_first_three_bytes :
    ∃ answer final,
      Session.perform (InputStream.searchBytes
        (fun address size => (lift ((StringInputStream.mk [1, 2, 3]).read address size) :
          Session Failure PUnit Chunk))
        (pure (some 24)) [2, 3] 5 (8 * 0) ((none : Option Nat).map fun stop => 8 * stop))
        PUnit.unit = (.ok answer, final) ∧
      FoundFirst [1, 2, 3] [2, 3] 0 ((none : Option Nat).getD 3) answer :=
  searchBytes_first ((StringInputStream.mk [1, 2, 3]).reader.reads 24) (fun _ => rfl) (by decide)
    (by decide) (by decide) (by decide) trivial none

end Segvault.Hachoir
