import Segvault.Occurrence
import Segvault.Hachoir.InputStream
import Segvault.Session

namespace Segvault.Hachoir

/-! `InputStream.searchBytes`. -/

def truthy (size : Option Nat) : Bool :=
  size.isSome && size != some 0

-- `buffer[len(buffer) - length + 1:]`, where a negative index counts from the end.
def lastBytes (buffer : List UInt8) (length : Nat) : List UInt8 :=
  if length ≤ buffer.length + 1 then buffer.drop (buffer.length + 1 - length)
  else buffer.drop (2 * buffer.length + 1 - length)

namespace InputStream

section

variable {m : Type → Type} [Monad m] [MonadExceptOf Failure m]
  (read : Nat → Nat → m Chunk) (known : m (Option Nat)) (needle : List UInt8)

def searchLoop : Nat → Nat → Option Nat → Nat → List UInt8 → m (Option Nat)
  | 0, _, _, _, _ => throw .unfinished
  | turns + 1, start, stop, size, buffer => do
      let todo := match stop with
        | some stop => (stop - start) >>> 3
        | none => size
      if todo < size ∧ todo = 0 then pure none
      else do
        let size := if todo < size then todo else size
        let data ← readBytes read start size
        let stream ← known
        let ended := stop.isNone && truthy stream
        let stop := if ended then stream else stop
        let rest := (stop.getD 0 - start) >>> 3
        if ended ∧ rest = 0 then throw .assertionError
        let size := if ended then rest else size
        let data := if ended then data.take rest else data
        let start := start + 8 * size
        let buffer := lastBytes buffer needle.length ++ data
        match find buffer needle with
        | some index => pure (some (start - (buffer.length - index) * 8))
        | none => searchLoop turns start stop size buffer

-- `if self._size and (end_address is None or self._size < end_address)`.
def nearestEnd (stream stop : Option Nat) : Option Nat :=
  match stop with
  | none => if truthy stream then stream else none
  | some stop =>
      if truthy stream && decide (stream.getD 0 < stop) then stream else some stop

def bitGranularity : String :=
  "Unable to search bytes with address with bit granularity"

def searchBytes (turns start : Nat) (stop : Option Nat) : m (Option Nat) := do
  if start % 8 ≠ 0 then throw (.inputStreamError bitGranularity)
  let size := max (3 * needle.length) 4096
  let stream ← known
  searchLoop read known needle turns start (nearestEnd stream stop) size []

end

end InputStream

-- The stream is its own state, which no method changes.
def StringInputStream.searchBytes (stream : StringInputStream) (needle : List UInt8)
    (turns start : Nat) (stop : Option Nat) : Except Failure (Option Nat) :=
  (Session.perform
    (InputStream.searchBytes (fun address size => lift (stream.read address size))
      (pure (some (8 * stream.data.length))) needle turns start stop) stream).1

/-! What a search finds: the first occurrence from `first` that ends at `stop`
at the latest. -/

def searched (content needle : List UInt8) (first stop : Nat) : Option Nat :=
  if stop ≤ first then none
  else (find (slice content first (stop - first)) needle).map fun index => first + index

theorem searched_eq_some {content needle : List UInt8} {first stop place : Nat}
    (later : first < stop) (inside : stop ≤ content.length) (start : first ≤ place)
    (fits : place + needle.length ≤ stop) (occurs : Occurs content needle place)
    (earliest : ∀ earlier, first ≤ earlier → earlier < place →
      ¬ Occurs content needle earlier) :
    searched content needle first stop = some place := by
  have index : first + (place - first) = place := by omega
  have length : (slice content first (stop - first)).length = stop - first := by
    rw [slice, List.length_take, List.length_drop]
    omega
  have found : find (slice content first (stop - first)) needle = some (place - first) := by
    refine find_eq_some.mpr ⟨by omega, ?_, ?_⟩
    · rw [slice, Occurs.in_window (by omega), index]
      exact occurs
    · intro earlier before again
      rw [slice, Occurs.in_window (by omega)] at again
      exact earliest (first + earlier) (by omega) (by omega) again
  rw [searched, if_neg (by omega), found, Option.map_some, index]

theorem searched_eq_none {content needle : List UInt8} {first stop : Nat}
    (inside : stop ≤ content.length)
    (absent : ∀ place, first ≤ place → place + needle.length ≤ stop → first < stop →
      ¬ Occurs content needle place) :
    searched content needle first stop = none := by
  unfold searched
  by_cases later : first < stop
  · have length : (slice content first (stop - first)).length = stop - first := by
      rw [slice, List.length_take, List.length_drop]
      omega
    have nothing : find (slice content first (stop - first)) needle = none := by
      refine find_eq_none.mpr fun index bound occurs => ?_
      have fits := occurs.bounded bound
      rw [slice, Occurs.in_window (by omega)] at occurs
      exact absent (first + index) (by omega) (by omega) later occurs
    rw [if_neg (by omega), nothing, Option.map_none]
  · rw [if_pos (by omega)]

/-! The buffer of the loop: the last bytes before `place`, enough of them to hold
the start of any occurrence that ends later. -/

structure Window (content needle : List UInt8) (first place : Nat)
    (buffer : List UInt8) : Prop where
  later : first ≤ place
  inside : place ≤ content.length
  bytes : ∃ low, first ≤ low ∧ low ≤ place ∧ buffer = slice content low (place - low) ∧
    (needle.length ≤ place - low + 1 ∨ place = first)
  absent : first < place → ∀ earlier, first ≤ earlier →
    earlier + needle.length ≤ place → ¬ Occurs content needle earlier

theorem length_slice {data : List UInt8} {start size : Nat}
    (inside : start + size ≤ data.length) : (slice data start size).length = size := by
  rw [slice, List.length_take, List.length_drop]
  omega

theorem slice_append (data : List UInt8) (start first second : Nat) :
    slice data start first ++ slice data (start + first) second =
      slice data start (first + second) := by
  rw [slice, slice, slice, List.take_add, List.drop_drop]

theorem Window.buffer_eq {content needle : List UInt8} {first place : Nat}
    {buffer : List UInt8} (window : Window content needle first place buffer)
    (count : Nat) :
    ∃ low, first ≤ low ∧ low ≤ place ∧
      lastBytes buffer needle.length ++ slice content place count =
        slice content low (place + count - low) ∧
      (low + (needle.length - 1) = place ∨ low = first ∧ place = first) := by
  obtain ⟨low, after, before, bytes, enough⟩ := window.bytes
  have inside := window.inside
  have length : buffer.length = place - low := by
    rw [bytes, length_slice (by omega)]
  cases enough with
  | inl long =>
      have kept : lastBytes buffer needle.length =
          slice content (place - (needle.length - 1)) (needle.length - 1) := by
        rw [lastBytes, if_pos (by omega)]
        by_cases empty : needle.length = 0
        · rw [List.drop_eq_nil_of_le (by omega), empty]
          exact List.take_zero.symm
        · rw [length, bytes, slice, slice, List.drop_take, List.drop_drop]
          congr 1
          · omega
          · congr 1
            omega
      refine ⟨place - (needle.length - 1), by omega, by omega, ?_, by omega⟩
      have joined := slice_append content (place - (needle.length - 1))
        (needle.length - 1) count
      have back : place - (needle.length - 1) + (needle.length - 1) = place := by omega
      rw [back] at joined
      rw [kept, joined]
      congr 1
      omega
  | inr initial =>
      have same : low = place := by omega
      have nothing : buffer = [] := List.eq_nil_of_length_eq_zero (by omega)
      refine ⟨place, by omega, Nat.le_refl _, ?_, by omega⟩
      rw [nothing, lastBytes]
      simp

-- One turn of the loop: what the longer buffer tells.
-- An occurrence that ends after `place` is in the longer buffer.
theorem Window.covers {content needle : List UInt8} {first place low earlier : Nat}
    {buffer : List UInt8} (window : Window content needle first place buffer)
    (overlap : low + (needle.length - 1) = place ∨ low = first ∧ place = first)
    (start : first ≤ earlier) (occurs : Occurs content needle earlier) :
    low ≤ earlier := by
  have later := window.later
  by_cases old : first < place ∧ earlier + needle.length ≤ place
  · exact absurd occurs (window.absent old.1 earlier start old.2)
  · omega

theorem Window.found {content needle : List UInt8} {first place count index : Nat}
    {buffer : List UInt8} (window : Window content needle first place buffer)
    (inside : place + count ≤ content.length)
    (found : find (lastBytes buffer needle.length ++ slice content place count) needle =
      some index) :
    ∃ result, first ≤ result ∧ result + needle.length ≤ place + count ∧
      Occurs content needle result ∧
      (∀ earlier, first ≤ earlier → earlier < result → ¬ Occurs content needle earlier) ∧
      8 * (place + count) -
          ((lastBytes buffer needle.length ++ slice content place count).length - index) *
            8 = 8 * result := by
  obtain ⟨low, after, before, bytes, overlap⟩ := window.buffer_eq count
  rw [bytes] at found ⊢
  have length := length_slice (by omega : low + (place + count - low) ≤ content.length)
  obtain ⟨bound, occurs, earliest⟩ := find_eq_some.mp found
  have fits := occurs.bounded bound
  rw [length] at bound fits
  rw [slice, Occurs.in_window fits] at occurs
  refine ⟨low + index, by omega, by omega, occurs, ?_, by rw [length]; omega⟩
  intro earlier start early again
  have covered := window.covers overlap start again
  refine earliest (earlier - low) (by omega) ?_
  rw [slice, Occurs.in_window (by omega), Nat.add_sub_cancel' covered]
  exact again

theorem Window.absent_next {content needle : List UInt8} {first place count : Nat}
    {buffer : List UInt8} (window : Window content needle first place buffer)
    (inside : place + count ≤ content.length)
    (missing : find (lastBytes buffer needle.length ++ slice content place count) needle =
      none) {earlier : Nat} (start : first ≤ earlier)
    (fits : earlier + needle.length ≤ place + count) :
    ¬ Occurs content needle earlier := by
  intro occurs
  obtain ⟨low, after, before, bytes, overlap⟩ := window.buffer_eq count
  have covered := window.covers overlap start occurs
  have length := length_slice (by omega : low + (place + count - low) ≤ content.length)
  rw [bytes] at missing
  refine find_eq_none.mp missing (earlier - low) (by omega) ?_
  rw [slice, Occurs.in_window (by omega), Nat.add_sub_cancel' covered]
  exact occurs

theorem Window.next {content needle : List UInt8} {first place count : Nat}
    {buffer : List UInt8} (window : Window content needle first place buffer)
    (inside : place + count ≤ content.length) (long : needle.length ≤ count)
    (missing : find (lastBytes buffer needle.length ++ slice content place count) needle =
      none) :
    Window content needle first (place + count)
      (lastBytes buffer needle.length ++ slice content place count) := by
  obtain ⟨low, after, before, bytes, overlap⟩ := window.buffer_eq count
  have later := window.later
  refine ⟨by omega, inside, ⟨low, after, by omega, bytes, .inl (by omega)⟩, ?_⟩
  exact fun _ earlier start fits => window.absent_next inside missing start fits

theorem window_initial {content : List UInt8} (needle : List UInt8) {first : Nat}
    (inside : first ≤ content.length) : Window content needle first first [] := by
  refine ⟨Nat.le_refl _, inside, ⟨first, Nat.le_refl _, Nat.le_refl _, ?_, .inr rfl⟩, ?_⟩
  · rw [Nat.sub_self]
    exact List.take_zero.symm
  · exact fun more => absurd more (Nat.lt_irrefl _)

/-! A search that stops at a given address, on any stream that reads the content
from `place` on while it keeps an invariant. -/

section Bounded

variable {σ : Type} {content needle : List UInt8} {read : Nat → Nat → Session Failure σ Chunk}
  {known : Session Failure σ (Option Nat)} {invariant : Nat → σ → Prop}

structure Reads (content : List UInt8) (read : Nat → Nat → Session Failure σ Chunk)
    (known : Session Failure σ (Option Nat)) (invariant : Nat → σ → Prop) : Prop where
  chunk : ∀ state start, invariant start state → ∀ size, 0 < size →
    start + size ≤ content.length →
    Session.Gives (invariant (start + size)) (read (8 * start) (8 * size)) state
      (.ok (0, slice content start size, false))
  size : ∀ state, ∃ size, Session.perform known state = (.ok size, state)

theorem Reads.readBytes (reads : Reads content read known invariant) {state : σ}
    {start size : Nat} (holds : invariant start state) (positive : 0 < size)
    (inside : start + size ≤ content.length) :
    Session.Gives (invariant (start + size))
      (InputStream.readBytes read (8 * start) size) state
      (.ok (slice content start size)) :=
  (reads.chunk state start holds size positive inside).bind fun _ holds =>
    Session.gives_pure holds _

theorem Reads.searchLoop (reads : Reads content read known invariant)
    {first stop : Nat} (inside : stop / 8 ≤ content.length) (turns : Nat) {state : σ}
    {place size : Nat} (holds : invariant place state) {buffer : List UInt8}
    (enough : stop / 8 - place < turns) (later : first ≤ place)
    (absent : first < place → ∀ earlier, first ≤ earlier →
      earlier + needle.length ≤ place → ¬ Occurs content needle earlier)
    (window : place < stop / 8 → Window content needle first place buffer)
    (long : place < stop / 8 → needle.length ≤ size) (positive : 0 < size) :
    Session.Gives (fun state => ∃ place, invariant place state)
      (InputStream.searchLoop read known needle turns (8 * place) (some stop) size buffer)
      state
      (.ok ((searched content needle first (stop / 8)).map fun place => 8 * place)) := by
  induction turns generalizing state place size buffer with
  | zero => omega
  | succ turns induction =>
      have todo : (stop - 8 * place) >>> 3 = stop / 8 - place := by
        rw [Nat.shiftRight_eq_div_pow]
        omega
      rw [InputStream.searchLoop]
      dsimp only
      rw [todo]
      by_cases done : stop / 8 ≤ place
      · have nothing : searched content needle first (stop / 8) = none :=
          searched_eq_none inside fun earlier start fits more =>
            absent (by omega) earlier start (by omega)
        rw [if_pos (by omega), nothing, Option.map_none]
        exact Session.gives_pure ⟨place, holds⟩ none
      · have here := window (by omega)
        rw [if_neg (by omega)]
        generalize countEq : (if stop / 8 - place < size then stop / 8 - place else size) =
          count
        have bounded : place + count ≤ stop / 8 := by
          split at countEq <;> omega
        have moved : 0 < count := by
          split at countEq <;> omega
        have whole : place + count < stop / 8 → count = size := by
          split at countEq <;> omega
        refine (reads.readBytes holds moved (by omega)).bind fun state holds => ?_
        obtain ⟨answer, asked⟩ := reads.size state
        refine Session.gives_bind_ok asked ?_
        simp only [Option.isNone_some, Bool.false_and, Bool.false_eq_true, false_and,
          if_false]
        rw [← Nat.mul_add]
        cases outcome : find (lastBytes buffer needle.length ++ slice content place count)
            needle with
        | some index =>
            obtain ⟨result, start, fits, occurs, earliest, value⟩ :=
              here.found (by omega) outcome
            have answer := searched_eq_some (by omega) inside start (by omega) occurs earliest
            dsimp only
            rw [value, answer]
            exact Session.gives_pure ⟨place + count, holds⟩ _
        | none =>
            refine induction holds (by omega) (by omega) ?_ ?_ ?_ moved
            · exact fun _ earlier start fits =>
                here.absent_next (by omega) outcome start fits
            · intro more
              refine here.next (by omega) ?_ outcome
              rw [whole more]
              exact long (by omega)
            · intro more
              rw [whole more]
              exact long (by omega)

theorem Reads.searchBytes (reads : Reads content read known invariant)
    {first stop turns : Nat} (enough : content.length + 1 < turns)
    (start : first ≤ content.length) (inside : stop / 8 ≤ content.length)
    {state : σ} (holds : invariant first state) {size given : Option Nat}
    (asked : Session.perform known state = (.ok size, state))
    (nearest : InputStream.nearestEnd size given = some stop) :
    Session.Gives (fun state => ∃ place, invariant place state)
      (InputStream.searchBytes read known needle turns (8 * first) given) state
      (.ok ((searched content needle first (stop / 8)).map fun place => 8 * place)) := by
  rw [InputStream.searchBytes, if_neg (by omega)]
  refine Session.gives_bind_ok asked ?_
  rw [nearest]
  exact reads.searchLoop inside turns holds (by omega) (Nat.le_refl _)
    (fun more => absurd more (Nat.lt_irrefl _)) (fun _ => window_initial needle start)
    (fun _ => by omega) (by omega)

end Bounded

theorem truthy_some {size : Nat} (positive : size ≠ 0) : truthy (some size) = true := by
  simp [truthy, positive]

theorem StringInputStream.reads (stream : StringInputStream) :
    Reads stream.data (fun address size => lift (stream.read address size))
      (pure (some (8 * stream.data.length))) (fun _ state => state = stream) where
  chunk := fun state start same size positive inside => by
    have bytes : (8 * size + 8 * start % 8 + 7) / 8 = size := by omega
    have place : 8 * start / 8 = start := by omega
    have aligned : 8 * start % 8 = 0 := by omega
    rw [read_eq (by omega), bytes, place, aligned]
    exact ⟨state, same, rfl⟩
  size := fun _ => ⟨_, rfl⟩

theorem nearestEnd_known {length : Nat} (positive : 0 < length) (stop : Option Nat) :
    ∃ last, InputStream.nearestEnd (some (8 * length)) stop = some last ∧
      last / 8 = min length (stop.getD (8 * length) / 8) := by
  have known := truthy_some (by omega : 8 * length ≠ 0)
  unfold InputStream.nearestEnd
  cases stop with
  | none => exact ⟨_, if_pos known, by rw [Option.getD_none]; omega⟩
  | some stop =>
      simp only [known, Option.getD_some, Bool.true_and, decide_eq_true_eq]
      by_cases nearer : 8 * length < stop
      · exact ⟨_, if_pos nearer, by omega⟩
      · exact ⟨_, if_neg nearer, by omega⟩

theorem StringInputStream.searchBytes_eq {stream : StringInputStream}
    (nonempty : stream.data ≠ []) (needle : List UInt8) {first turns : Nat}
    (start : first ≤ stream.data.length) (enough : stream.data.length + 1 < turns)
    (stop : Option Nat) :
    stream.searchBytes needle turns (8 * first) stop =
      .ok ((searched stream.data needle first
        (min stream.data.length (stop.getD (8 * stream.data.length) / 8))).map
          fun place => 8 * place) := by
  obtain ⟨last, nearest, same⟩ :=
    nearestEnd_known (List.length_pos_of_ne_nil nonempty) stop
  have gives : Session.Gives _ (InputStream.searchBytes _ _ needle turns _ stop) _ _ :=
    stream.reads.searchBytes enough start (by omega) rfl rfl nearest
  obtain ⟨final, -, returned⟩ := gives
  rw [StringInputStream.searchBytes, returned, same]

end Segvault.Hachoir
