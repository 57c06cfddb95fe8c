import Mathlib.Data.List.Nodup
import Segvault.Hachoir.Subfile

namespace Segvault.Hachoir

open Scan

variable {Parser : Type}

namespace SearchSubfile

/-! The occurrences of the patterns in the part of the stream that is searched. -/

structure Occurrence (search : SearchSubfile Parser) where
  first : Nat
  last : Nat
  index : Nat
  magic : Magic Parser
  listed : search.magics[index]? = some magic
  ordered : first ≤ last
  matched : magic.pattern.fullMatch (search.bytes first last) = true
  after : search.startOffset ≤ 8 * first
  before : 8 * last ≤ search.size

namespace Occurrence

variable {search : SearchSubfile Parser}

/-- Where the file begins, if the occurrence is its magic. -/
def fileOffset (occurrence : Occurrence search) : Int :=
  8 * occurrence.first - occurrence.magic.offset

/-- The candidate in the record. -/
def candidate (occurrence : Occurrence search) : Nat × Nat :=
  (8 * occurrence.first, occurrence.index)

/-- A file found earlier has moved `next_offset` past it. -/
def Skipped (found : List (Nat × Nat)) (occurrence : Occurrence search) : Prop :=
  ∃ entry ∈ found, entry.1 < 8 * occurrence.first ∧ occurrence.fileOffset < entry.2

theorem Skipped.mono {found more : List (Nat × Nat)} {occurrence : Occurrence search}
    (within : ∀ entry ∈ found, entry ∈ more) (skipped : occurrence.Skipped found) :
    occurrence.Skipped more := by
  obtain ⟨entry, member, earlier⟩ := skipped
  exact ⟨entry, within entry member, earlier⟩

end Occurrence

/-- No two occurrences overlap, the merged regex finds where some pattern occurs, and the files
that are skipped end with a byte. -/
structure Regular (search : SearchSubfile Parser) : Prop where
  slices : 0 < search.sliceBytes
  filled : ∀ magic ∈ search.magics, magic.pattern.fullMatch [] = false
  lengths : ∀ magic ∈ search.magics, ∀ text, magic.pattern.fullMatch text = true →
    text.length ≤ magic.pattern.maxLength
  compiled : ∀ first last start stop,
    search.compiledRegex (search.bytes first last) start = some stop ↔
      start ≤ stop ∧ stop ≤ (search.bytes first last).length ∧ ∃ magic ∈ search.magics,
        magic.pattern.fullMatch (((search.bytes first last).drop start).take (stop - start)) = true
  apart : ∀ one other : Occurrence search, one.last ≤ other.first ∨ other.last ≤ one.first ∨
    one.first = other.first ∧ one.last = other.last ∧ one.index = other.index
  within : ∀ magic ∈ search.magics, 0 ≤ magic.offset
  aligned : ∀ (occurrence : Occurrence search) (offset contentSize : Nat),
    occurrence.fileOffset = offset →
    search.guess offset occurrence.magic.parser = some ⟨some contentSize, true⟩ →
    8 ∣ offset + contentSize

/-! What is found in one slice. -/

theorem size_le (search : SearchSubfile Parser) : search.size ≤ 8 * search.stream.length := by
  unfold size
  split
  · exact Nat.min_le_left _ _
  · exact Nat.le_refl _

theorem size_mod (search : SearchSubfile Parser) : 8 ∣ search.size := by
  unfold size
  split <;> omega

theorem length_bytes {search : SearchSubfile Parser} {first last : Nat}
    (bounded : last ≤ search.stream.length) :
    (search.bytes first last).length = last - first := by
  rw [bytes, List.length_take, List.length_drop]
  omega

theorem bytes_bytes (search : SearchSubfile Parser) {first last start stop : Nat}
    (bounded : first + stop ≤ last) :
    ((search.bytes first last).drop start).take (stop - start) =
      search.bytes (first + start) (first + stop) := by
  rw [bytes, bytes, List.drop_take, List.take_take, List.drop_drop]
  congr 1
  omega

theorem exists_occurrence {search : SearchSubfile Parser} {first last start stop : Nat}
    {magic : Magic Parser} (after : search.startOffset ≤ 8 * first)
    (before : 8 * last ≤ search.size) (listed : magic ∈ search.magics) (ordered : start ≤ stop)
    (inside : first + stop ≤ last)
    (matched : magic.pattern.fullMatch
      (((search.bytes first last).drop start).take (stop - start)) = true) :
    ∃ occurrence : Occurrence search, occurrence.first = first + start ∧
      occurrence.last = first + stop ∧ occurrence.magic = magic := by
  obtain ⟨index, here⟩ := List.getElem?_of_mem listed
  rw [bytes_bytes search inside] at matched
  exact ⟨⟨first + start, first + stop, index, magic, here, Nat.add_le_add_left ordered _, matched,
    by omega, by omega⟩, rfl, rfl, rfl⟩

theorem le_maxLength (magics : List (Magic Parser)) (length : Nat) :
    length ≤ magics.foldl (fun length magic => max length magic.pattern.maxLength) length ∧
      ∀ magic ∈ magics, magic.pattern.maxLength ≤
        magics.foldl (fun length magic => max length magic.pattern.maxLength) length := by
  induction magics generalizing length with
  | nil => exact ⟨Nat.le_refl _, nofun⟩
  | cons head magics induction =>
      obtain ⟨grows, later⟩ := induction (max length head.pattern.maxLength)
      refine ⟨Nat.le_trans (Nat.le_max_left _ _) grows, List.forall_mem_cons.mpr ⟨?_, later⟩⟩
      exact Nat.le_trans (Nat.le_max_right _ _) grows

section Slice

variable {search : SearchSubfile Parser} (regular : Regular search)
include regular

theorem fileOffset_le (occurrence : Occurrence search) :
    occurrence.fileOffset ≤ 8 * occurrence.first := by
  have nonneg := regular.within occurrence.magic (List.mem_of_getElem? occurrence.listed)
  unfold Occurrence.fileOffset
  omega

theorem nonempty (occurrence : Occurrence search) : occurrence.first < occurrence.last := by
  refine Nat.lt_of_le_of_ne occurrence.ordered fun same => ?_
  have empty : search.bytes occurrence.first occurrence.last = [] := by
    rw [bytes, same, Nat.sub_self, List.take_zero]
  have matched := occurrence.matched
  rw [empty, regular.filled _ (List.mem_of_getElem? occurrence.listed)] at matched
  cases matched

theorem same_of_overlap (one other : Occurrence search) (overlap : one.first = other.first) :
    one.last = other.last ∧ one.index = other.index := by
  have nonemptyOne := nonempty regular one
  have nonemptyOther := nonempty regular other
  rcases regular.apart one other with apart | apart | same
  · omega
  · omega
  · exact same.2

theorem eq_of_overlap (one other : Occurrence search) (overlap : one.first = other.first) :
    one = other := by
  obtain ⟨ends, sameIndex⟩ := same_of_overlap regular one other overlap
  obtain ⟨first, last, index, magic, listed, _, _, _, _⟩ := one
  obtain ⟨otherFirst, otherLast, otherIndex, otherMagic, otherListed, _, _, _, _⟩ := other
  dsimp only at overlap ends sameIndex
  subst overlap ends sameIndex
  cases Option.some.inj (listed.symm.trans otherListed)
  rfl

theorem maxLength_ne_zero (occurrence : Occurrence search) : search.maxLength ≠ 0 := by
  have listed := List.mem_of_getElem? occurrence.listed
  have bound := regular.lengths _ listed _ occurrence.matched
  have total := search.size_le
  have inside := occurrence.before
  rw [length_bytes (by omega)] at bound
  have longer := nonempty regular occurrence
  have reached := (le_maxLength search.magics 0).2 _ listed
  unfold maxLength
  omega

/-- The pattern of a match is that of the occurrence. -/
theorem getPattern_bytes (occurrence : Occurrence search) :
    search.getPattern (search.bytes occurrence.first occurrence.last) = some occurrence.index := by
  have longer := nonempty regular occurrence
  have total := search.size_le
  have inside := occurrence.before
  have length := @length_bytes _ search occurrence.first occurrence.last (by omega)
  unfold getPattern
  split
  · rename_i index isString
    obtain ⟨bound, here, -⟩ := List.findIdx?_eq_some_iff_getElem.mp isString
    have matched : search.magics[index].pattern.fullMatch
        (search.bytes occurrence.first occurrence.last) = true := by
      cases kind : search.magics[index].pattern with
      | string text =>
          rw [kind] at here
          exact here
      | regex maxLength language =>
          rw [kind] at here
          cases here
    let other : Occurrence search := ⟨occurrence.first, occurrence.last, index,
      search.magics[index], List.getElem?_eq_getElem bound, occurrence.ordered, matched,
      occurrence.after, occurrence.before⟩
    rw [← (same_of_overlap regular other occurrence rfl).2]
  · rename_i noString
    have listed := List.mem_of_getElem? occurrence.listed
    have exists_match : (search.magics.findIdx? fun magic => magic.pattern.regexMatch
        (search.bytes occurrence.first occurrence.last)).isSome := by
      rw [List.findIdx?_isSome, List.any_eq_true]
      refine ⟨occurrence.magic, listed, ?_⟩
      have whole := occurrence.matched
      have notString := List.findIdx?_eq_none_iff.mp noString occurrence.magic listed
      cases kind : occurrence.magic.pattern with
      | string text =>
          rw [kind] at whole notString
          cases whole.symm.trans notString
      | regex maxLength language =>
          rw [kind] at whole
          refine List.any_eq_true.mpr ⟨_, List.mem_range.mpr (Nat.lt_succ_self _), ?_⟩
          rw [List.take_length]
          exact whole
    obtain ⟨index, found⟩ := Option.isSome_iff_exists.mp exists_match
    rw [found]
    obtain ⟨bound, here, -⟩ := List.findIdx?_eq_some_iff_getElem.mp found
    cases kind : search.magics[index].pattern with
    | string text =>
        rw [kind] at here
        cases here
    | regex maxLength language =>
        rw [kind] at here
        obtain ⟨count, few, begins⟩ := List.any_eq_true.mp here
        have atMost := Nat.le_of_lt_succ (List.mem_range.mp few)
        rw [length] at atMost
        have matched : search.magics[index].pattern.fullMatch
            (search.bytes occurrence.first (occurrence.first + count)) = true := by
          rw [kind]
          rw [bytes, List.take_take, Nat.min_eq_left (by omega)] at begins
          rw [bytes, Nat.add_sub_cancel_left]
          exact begins
        let other : Occurrence search := ⟨occurrence.first, occurrence.first + count, index,
          search.magics[index], List.getElem?_eq_getElem bound, Nat.le_add_right _ _, matched,
          occurrence.after, by omega⟩
        rw [← (same_of_overlap regular other occurrence rfl).2]

variable {first last : Nat} (after : search.startOffset ≤ 8 * first)
  (before : 8 * last ≤ search.size)
include after before

theorem compiledRegex_eq_some {start stop : Nat} (within : first ≤ last) :
    search.compiledRegex (search.bytes first last) start = some stop ↔
      ∃ occurrence : Occurrence search, occurrence.first = first + start ∧
        occurrence.last = first + stop ∧ occurrence.last ≤ last := by
  have bounded : last ≤ search.stream.length := by
    have total := search.size_le
    omega
  rw [regular.compiled, length_bytes bounded]
  constructor
  · rintro ⟨ordered, inside, magic, listed, matched⟩
    obtain ⟨occurrence, begins, ends, -⟩ := exists_occurrence after before listed ordered
      (by omega) matched
    exact ⟨occurrence, begins, ends, by omega⟩
  · rintro ⟨occurrence, begins, ends, inside⟩
    have ordered := occurrence.ordered
    refine ⟨by omega, by omega, occurrence.magic, List.mem_of_getElem? occurrence.listed, ?_⟩
    rw [bytes_bytes search (by omega), ← begins, ← ends]
    exact occurrence.matched

/-- The matches in a slice are the occurrences in it. -/
theorem mem_patternMatches {start stop : Nat} (within : first ≤ last) :
    (start, stop) ∈ search.patternMatches (search.bytes first last) ↔
      ∃ occurrence : Occurrence search, occurrence.first = first + start ∧
        occurrence.last = first + stop ∧ occurrence.last ≤ last := by
  unfold patternMatches
  constructor
  · intro reported
    split at reported
    · cases reported
    · exact (compiledRegex_eq_some regular after before within).mp (mem_finditer reported).1
  · intro occurs
    obtain ⟨occurrence, begins, ends, inside⟩ := occurs
    rw [if_neg (maxLength_ne_zero regular occurrence)]
    have bounded : last ≤ search.stream.length := by
      have total := search.size_le
      omega
    have longer := nonempty regular occurrence
    refine finditer_complete ((compiledRegex_eq_some regular after before within).mpr
      ⟨occurrence, begins, ends, inside⟩) (Nat.zero_le _) ?_ (by omega) ?_
    · rw [length_bytes bounded]
      omega
    · intro earlier stopped sooner found
      obtain ⟨other, otherBegins, otherEnds, -⟩ :=
        (compiledRegex_eq_some regular after before within).mp found
      rcases regular.apart other occurrence with apart | apart | same
      · omega
      · omega
      · omega

end Slice

/-! One match: the offset is refused, or the candidate is tried. -/

/-- `next_offset` is the largest offset on record. -/
structure Coherent (state : SearchState) : Prop where
  bound : ∀ entry ∈ state.found, ∃ next, state.nextOffset = some next ∧ entry.2 ≤ next
  reached : ∀ next, state.nextOffset = some next → ∃ entry ∈ state.found, entry.2 = next

theorem Coherent.skipsTo (state : SearchState) (position next : Nat)
    (grows : ∀ entry ∈ state.found, entry.2 ≤ next) : Coherent (state.skipsTo position next) := by
  constructor
  · intro entry member
    rcases List.mem_append.mp member with before | now
    · exact ⟨next, rfl, grows entry before⟩
    · rw [List.mem_singleton.mp now]
      exact ⟨next, rfl, Nat.le_refl _⟩
  · intro other same
    cases same
    exact ⟨(position, next), List.mem_append_right _ (List.mem_singleton.mpr rfl), rfl⟩

/-- What one match makes of the state. -/
inductive Tried (occurrence : Occurrence search) (stop : Nat) (state : SearchState) :
    SearchState × Bool → Prop
  | refused (outside : occurrence.fileOffset < 0 ∨
      ∃ entry ∈ state.found, occurrence.fileOffset < entry.2) :
      Tried occurrence stop state (state, false)
  | tried (nonneg : 0 ≤ occurrence.fileOffset) :
      Tried occurrence stop state (state.tries occurrence.candidate, false)
  | skips (next : Nat) (nonneg : 0 ≤ occurrence.fileOffset) (aligned : 8 ∣ next)
      (grows : ∀ entry ∈ state.found, entry.2 ≤ next) :
      Tried occurrence stop state
        ((state.tries occurrence.candidate).skipsTo (8 * occurrence.first) next,
          decide (stop ≤ next))

section Match

variable {search : SearchSubfile Parser} (regular : Regular search)
include regular

theorem findMagicMatch_returns {first last stop : Nat} (occurrence : Occurrence search)
    (begins : first ≤ occurrence.first) (ends : occurrence.last ≤ last) {state : SearchState}
    (coherent : Coherent state) :
    ∃ result, search.findMagicMatch (8 * first) stop (search.bytes first last)
        (occurrence.first - first) (occurrence.last - first) state = some result ∧
      Tried occurrence stop state result := by
  have ordered := occurrence.ordered
  have text : ((search.bytes first last).drop (occurrence.first - first)).take
      (occurrence.last - first - (occurrence.first - first)) =
        search.bytes occurrence.first occurrence.last := by
    rw [bytes_bytes search (by omega), Nat.add_sub_cancel' begins,
      Nat.add_sub_cancel' (Nat.le_trans begins ordered)]
  have offset : ((occurrence.first - first : Nat) : Int) * 8 - occurrence.magic.offset +
      ((8 * first : Nat) : Int) = occurrence.fileOffset := by
    unfold Occurrence.fileOffset
    omega
  have position : 8 * first + (occurrence.first - first) * 8 = 8 * occurrence.first := by omega
  unfold findMagicMatch
  rw [text, getPattern_bytes regular occurrence, Option.bind_eq_bind, Option.bind_some,
    occurrence.listed, Option.bind_eq_bind, Option.bind_some, offset, position]
  dsimp only
  by_cases negative : occurrence.fileOffset < 0
  · rw [if_pos negative]
    exact ⟨_, rfl, .refused (.inl negative)⟩
  rw [if_neg negative]
  by_cases skipped : state.nextOffset.any
      (fun next : Nat => decide (occurrence.fileOffset < next)) = true
  · rw [if_pos skipped]
    obtain ⟨next, isNext, earlier⟩ := (Option.any_eq_true _ _).mp skipped
    obtain ⟨entry, recorded, same⟩ := coherent.reached next isNext
    exact ⟨_, rfl, .refused (.inr ⟨entry, recorded, same ▸ of_decide_eq_true earlier⟩)⟩
  rw [if_neg skipped]
  have nonneg : 0 ≤ occurrence.fileOffset := Int.not_lt.mp negative
  have whole : (occurrence.fileOffset.toNat : Int) = occurrence.fileOffset :=
    Int.toNat_of_nonneg nonneg
  split
  · rename_i contentSize guessed
    refine ⟨_, rfl, .skips _ nonneg
      (regular.aligned occurrence _ contentSize whole.symm guessed) fun entry recorded => ?_⟩
    obtain ⟨next, isNext, atMost⟩ := coherent.bound entry recorded
    rw [isNext, Option.any_some, decide_eq_true_eq] at skipped
    omega
  · exact ⟨_, rfl, .tried nonneg⟩

/-! The matches of a slice, one after the other. -/

/-- The match of an occurrence in the slice that begins at the byte `first`. -/
def Occurrence.inSlice (occurrence : Occurrence search) (first : Nat) : Nat × Nat :=
  (occurrence.first - first, occurrence.last - first)

/-- What the matches make of the state: the candidates and the files to skip are added. -/
structure Scanned (search : SearchSubfile Parser) (first : Nat) (matched : List (Nat × Nat))
    (before after : SearchState) (candidates skips : List (Nat × Nat)) : Prop where
  currentOffset : after.currentOffset = before.currentOffset
  tried : after.tried = before.tried ++ candidates
  found : after.found = before.found ++ skips
  coherent : Coherent after
  listed : ∀ candidate ∈ candidates, ∃ occurrence : Occurrence search,
    first ≤ occurrence.first ∧ occurrence.inSlice first ∈ matched ∧
      candidate = occurrence.candidate ∧ 0 ≤ occurrence.fileOffset
  ordered : candidates.Pairwise fun earlier later => earlier.1 < later.1
  recorded : ∀ entry ∈ skips, 8 ∣ entry.2 ∧ ∃ one ∈ matched, entry.1 = 8 * (first + one.1)
  complete : ∀ occurrence : Occurrence search, first ≤ occurrence.first →
    occurrence.inSlice first ∈ matched → 0 ≤ occurrence.fileOffset →
      occurrence.Skipped after.found ∨ occurrence.candidate ∈ candidates

omit regular in
/-- No match is left, or those left are all skipped. -/
theorem Scanned.stopped {first : Nat} {matched : List (Nat × Nat)} {state : SearchState}
    (coherent : Coherent state)
    (skipped : ∀ occurrence : Occurrence search, first ≤ occurrence.first →
      occurrence.inSlice first ∈ matched → occurrence.Skipped state.found) :
    Scanned search first matched state state [] [] where
  currentOffset := rfl
  tried := (List.append_nil _).symm
  found := (List.append_nil _).symm
  coherent := coherent
  listed := nofun
  ordered := List.Pairwise.nil
  recorded := nofun
  complete := fun occurrence begins inside _ => .inl (skipped occurrence begins inside)

/-- One more match in front. -/
theorem Scanned.cons {first : Nat} {occurrence : Occurrence search} {matched : List (Nat × Nat)}
    {before middle after : SearchState} {here foundHere candidates found : List (Nat × Nat)}
    (begins : first ≤ occurrence.first)
    (later : ∀ one ∈ matched, occurrence.first - first < one.1)
    (currentOffset : middle.currentOffset = before.currentOffset)
    (tried : middle.tried = before.tried ++ here)
    (foundMiddle : middle.found = before.found ++ foundHere)
    (listed : ∀ candidate ∈ here, candidate = occurrence.candidate ∧ 0 ≤ occurrence.fileOffset)
    (single : here.length ≤ 1)
    (recorded : ∀ entry ∈ foundHere, 8 ∣ entry.2 ∧ entry.1 = 8 * occurrence.first)
    (complete : 0 ≤ occurrence.fileOffset →
      occurrence.Skipped before.found ∨ occurrence.candidate ∈ here)
    (rest : Scanned search first matched middle after candidates found) :
    Scanned search first (occurrence.inSlice first :: matched) before after (here ++ candidates)
      (foundHere ++ found) where
  currentOffset := rest.currentOffset.trans currentOffset
  tried := by rw [rest.tried, tried, List.append_assoc]
  found := by rw [rest.found, foundMiddle, List.append_assoc]
  coherent := rest.coherent
  listed := by
    intro candidate member
    rcases List.mem_append.mp member with now | afterwards
    · obtain ⟨same, nonneg⟩ := listed candidate now
      exact ⟨occurrence, begins, List.mem_cons_self, same, nonneg⟩
    · obtain ⟨other, otherBegins, inside, same, nonneg⟩ := rest.listed candidate afterwards
      exact ⟨other, otherBegins, List.mem_cons_of_mem _ inside, same, nonneg⟩
  ordered := by
    refine List.pairwise_append.mpr ⟨?_, rest.ordered, fun one now other afterwards => ?_⟩
    · match here, single with
      | [], _ => exact List.Pairwise.nil
      | [_], _ => exact List.pairwise_singleton _ _
    · obtain ⟨rfl, -⟩ := listed one now
      obtain ⟨found, otherBegins, inside, rfl, -⟩ := rest.listed other afterwards
      have after := later _ inside
      simp only [Occurrence.inSlice, Occurrence.candidate] at after ⊢
      omega
  recorded := by
    intro entry member
    rcases List.mem_append.mp member with now | afterwards
    · obtain ⟨aligned, position⟩ := recorded entry now
      refine ⟨aligned, _, List.mem_cons_self, ?_⟩
      simp only [Occurrence.inSlice]
      omega
    · obtain ⟨aligned, one, inside, position⟩ := rest.recorded entry afterwards
      exact ⟨aligned, one, List.mem_cons_of_mem _ inside, position⟩
  complete := by
    intro other otherBegins inside nonneg
    rcases List.mem_cons.mp inside with same | inside
    · simp only [Occurrence.inSlice, Prod.mk.injEq] at same
      have overlap : other.first = occurrence.first := by omega
      obtain rfl := eq_of_overlap regular other occurrence overlap
      rcases complete nonneg with skipped | now
      · refine .inl (skipped.mono fun entry member => ?_)
        rw [rest.found, foundMiddle]
        exact List.mem_append_left _ (List.mem_append_left _ member)
      · exact .inr (List.mem_append_left _ now)
    · rcases rest.complete other otherBegins inside nonneg with skipped | afterwards
      · exact .inl skipped
      · exact .inr (List.mem_append_right _ afterwards)

theorem findMagicLoop_returns {first last : Nat} {matched : List (Nat × Nat)}
    (occur : ∀ one ∈ matched, ∃ occurrence : Occurrence search,
      first ≤ occurrence.first ∧ occurrence.last ≤ last ∧ one = occurrence.inSlice first)
    (ordered : matched.Pairwise fun earlier later => earlier.1 < later.1) {state : SearchState}
    (coherent : Coherent state)
    (earlier : ∀ entry ∈ state.found, ∀ one ∈ matched, entry.1 < 8 * (first + one.1)) :
    ∃ after candidates found, search.findMagicLoop (8 * first) (8 * last)
        (search.bytes first last) matched state = some after ∧
      Scanned search first matched state after candidates found := by
  induction matched generalizing state with
  | nil => exact ⟨state, [], [], rfl, .stopped coherent nofun⟩
  | cons one matched induction =>
      obtain ⟨here, occurLater⟩ := List.forall_mem_cons.mp occur
      obtain ⟨occurrence, begins, ends, rfl⟩ := here
      obtain ⟨later, ordered⟩ := List.pairwise_cons.mp ordered
      obtain ⟨result, returned, tried⟩ :=
        @findMagicMatch_returns _ _ regular first last (8 * last) occurrence begins ends state
          coherent
      have unfolded : search.findMagicLoop (8 * first) (8 * last) (search.bytes first last)
          (occurrence.inSlice first :: matched) state =
            if result.2 then some result.1
            else search.findMagicLoop (8 * first) (8 * last) (search.bytes first last) matched
              result.1 := by
        rw [Occurrence.inSlice, findMagicLoop, returned]
        rfl
      have position : 8 * (first + (occurrence.inSlice first).1) = 8 * occurrence.first := by
        simp only [Occurrence.inSlice]
        omega
      have beforeHere : ∀ entry ∈ state.found, entry.1 < 8 * occurrence.first :=
        fun entry member => position ▸ earlier entry member _ List.mem_cons_self
      have beforeLater : ∀ entry ∈ state.found, ∀ one ∈ matched, entry.1 < 8 * (first + one.1) :=
        fun entry member one inside => earlier entry member one (List.mem_cons_of_mem _ inside)
      rw [unfolded]
      cases tried with
      | refused outside =>
          obtain ⟨after, candidates, found, returns, scanned⟩ :=
            induction occurLater ordered coherent beforeLater
          refine ⟨after, candidates, found, returns, ?_⟩
          refine @Scanned.cons _ _ regular first occurrence matched state state after [] [] _ _
            begins later rfl (List.append_nil _).symm (List.append_nil _).symm nofun
            (Nat.zero_le _) nofun (fun nonneg => ?_) scanned
          rcases outside with negative | ⟨entry, member, past⟩
          · omega
          · exact .inl ⟨entry, member, beforeHere entry member, past⟩
      | tried nonneg =>
          have stillCoherent : Coherent (state.tries occurrence.candidate) :=
            ⟨coherent.bound, coherent.reached⟩
          obtain ⟨after, candidates, found, returns, scanned⟩ :=
            induction occurLater ordered stillCoherent beforeLater
          refine ⟨after, occurrence.candidate :: candidates, found, returns, ?_⟩
          exact @Scanned.cons _ _ regular first occurrence matched state
            (state.tries occurrence.candidate) after [occurrence.candidate] [] _ _ begins later rfl
            rfl (List.append_nil _).symm
            (fun candidate member => ⟨List.mem_singleton.mp member, nonneg⟩) (Nat.le_refl _) nofun
            (fun _ => .inr (List.mem_singleton.mpr rfl)) scanned
      | skips next nonneg aligned grows =>
          have nowCoherent := Coherent.skipsTo (state.tries occurrence.candidate)
            (8 * occurrence.first) next grows
          have stillBefore : ∀ entry ∈ state.found ++ [(8 * occurrence.first, next)],
              ∀ one ∈ matched, entry.1 < 8 * (first + one.1) := by
            intro entry member one inside
            rcases List.mem_append.mp member with before | now
            · exact beforeLater entry before one inside
            · rw [List.mem_singleton.mp now, ← position]
              have after := later one inside
              simp only [Occurrence.inSlice]
              omega
          have cons := @Scanned.cons _ _ regular first occurrence matched state
            ((state.tries occurrence.candidate).skipsTo (8 * occurrence.first) next)
          have recorded : ∀ entry ∈ [(8 * occurrence.first, next)],
              8 ∣ entry.2 ∧ entry.1 = 8 * occurrence.first := by
            intro entry member
            rw [List.mem_singleton.mp member]
            exact ⟨aligned, rfl⟩
          by_cases past : 8 * last ≤ next
          · rw [if_pos (decide_eq_true past)]
            refine ⟨_, [occurrence.candidate], [(8 * occurrence.first, next)], rfl, ?_⟩
            refine @cons _ [occurrence.candidate] [(8 * occurrence.first, next)] [] [] begins later
              rfl rfl rfl (fun candidate member => ⟨List.mem_singleton.mp member, nonneg⟩)
              (Nat.le_refl _) recorded (fun _ => .inr (List.mem_singleton.mpr rfl)) ?_
            refine Scanned.stopped nowCoherent fun other otherBegins inside => ?_
            obtain ⟨found, _, within, same⟩ := occurLater _ inside
            have after := later _ inside
            have below := fileOffset_le regular other
            have longer := nonempty regular found
            simp only [Occurrence.inSlice, Prod.mk.injEq] at same after
            refine ⟨(8 * occurrence.first, next),
              List.mem_append_right _ (List.mem_singleton.mpr rfl), ?_, ?_⟩
            · dsimp only
              omega
            · dsimp only
              omega
          · obtain ⟨after, candidates, found, returns, scanned⟩ :=
              induction occurLater ordered nowCoherent stillBefore
            have goesOn : ¬ decide (8 * last ≤ next) = true := by simpa using past
            rw [if_neg goesOn]
            refine ⟨after, occurrence.candidate :: candidates,
              (8 * occurrence.first, next) :: found, returns, ?_⟩
            exact @cons after [occurrence.candidate] [(8 * occurrence.first, next)] _ _ begins later
              rfl rfl rfl (fun candidate member => ⟨List.mem_singleton.mp member, nonneg⟩)
              (Nat.le_refl _) recorded (fun _ => .inr (List.mem_singleton.mpr rfl)) scanned

end Match

/-! One slice. -/

/-- The state before a slice: the record is about what lies before it. -/
structure Ready (search : SearchSubfile Parser) (state : SearchState) : Prop where
  aligned : 8 ∣ state.currentOffset
  began : search.startOffset ≤ state.currentOffset
  coherent : Coherent state
  recorded : ∀ entry ∈ state.found, 8 ∣ entry.2 ∧ entry.1 < state.currentOffset
  ordered : state.tried.Pairwise fun earlier later => earlier.1 < later.1
  earlier : ∀ candidate ∈ state.tried, candidate.1 < state.currentOffset

/-- What one slice makes of the state. -/
structure Stepped (search : SearchSubfile Parser) (before after : SearchState)
    (candidates skips : List (Nat × Nat)) : Prop where
  tried : after.tried = before.tried ++ candidates
  found : after.found = before.found ++ skips
  listed : ∀ candidate ∈ candidates, ∃ occurrence : Occurrence search,
    before.currentOffset ≤ 8 * occurrence.first ∧
      8 * occurrence.last ≤ search.sliceEnd before.currentOffset ∧
      candidate = occurrence.candidate ∧ 0 ≤ occurrence.fileOffset
  recorded : ∀ entry ∈ skips, before.currentOffset ≤ entry.1
  complete : ∀ occurrence : Occurrence search, before.currentOffset ≤ 8 * occurrence.first →
    8 * occurrence.last ≤ search.sliceEnd before.currentOffset → 0 ≤ occurrence.fileOffset →
      occurrence.Skipped after.found ∨ occurrence.candidate ∈ candidates
  jumped : ∀ occurrence : Occurrence search,
    search.sliceEnd before.currentOffset ≤ 8 * occurrence.first →
      8 * occurrence.first < after.currentOffset → occurrence.Skipped after.found
  ready : Ready search after
  goesOn : before.currentOffset < after.currentOffset
  reaches : search.sliceEnd before.currentOffset ≤ after.currentOffset

theorem sliceSize_pos {search : SearchSubfile Parser} (slices : 0 < search.sliceBytes) :
    0 < search.sliceSize :=
  Nat.lt_of_lt_of_le (Nat.mul_pos slices (by decide)) (Nat.le_max_left _ _)

theorem sliceSize_mod (search : SearchSubfile Parser) : 8 ∣ search.sliceSize := by
  unfold sliceSize
  omega

theorem sliceEnd_mod (search : SearchSubfile Parser) {offset : Nat} (aligned : 8 ∣ offset) :
    8 ∣ search.sliceEnd offset := by
  have slice := search.sliceSize_mod
  have whole := search.size_mod
  unfold sliceEnd
  omega

theorem patternMatches_ordered (search : SearchSubfile Parser) (data : List UInt8) :
    (search.patternMatches data).Pairwise fun earlier later => earlier.1 < later.1 := by
  unfold patternMatches
  split
  · exact List.Pairwise.nil
  · exact pairwise_finditer

theorem searchStep_returns {search : SearchSubfile Parser} (regular : Regular search)
    {state : SearchState} (ready : Ready search state)
    (within : state.currentOffset < search.size) :
    ∃ after candidates skips, search.searchStep state = some after ∧
      Stepped search state after candidates skips := by
  obtain ⟨first, begins⟩ := ready.aligned
  obtain ⟨last, ends⟩ := search.sliceEnd_mod ready.aligned
  have slice := sliceSize_pos regular.slices
  have sliceMod := search.sliceSize_mod
  have sizeMod := search.size_mod
  have bounded : search.sliceEnd state.currentOffset ≤ search.size := Nat.min_le_right _ _
  have further : state.currentOffset < search.sliceEnd state.currentOffset := by
    unfold sliceEnd
    omega
  have after : search.startOffset ≤ 8 * first := begins ▸ ready.began
  have before : 8 * last ≤ search.size := ends ▸ bounded
  have ordered : first ≤ last := by omega
  have read : search.readBytes state.currentOffset
      ((search.sliceEnd state.currentOffset - state.currentOffset) / 8) =
        some (search.bytes first last) := by
    have even : ¬ state.currentOffset % 8 ≠ 0 := by omega
    rw [readBytes, if_neg even]
    congr 2
    · omega
    · omega
  have occur : ∀ one ∈ search.patternMatches (search.bytes first last),
      ∃ occurrence : Occurrence search,
        first ≤ occurrence.first ∧ occurrence.last ≤ last ∧ one = occurrence.inSlice first := by
    rintro ⟨start, stop⟩ member
    obtain ⟨occurrence, starts, stops, inside⟩ :=
      (mem_patternMatches regular after before ordered).mp member
    refine ⟨occurrence, by omega, inside, ?_⟩
    rw [Occurrence.inSlice, starts, stops, Nat.add_sub_cancel_left, Nat.add_sub_cancel_left]
  have earlier : ∀ entry ∈ state.found, ∀ one ∈ search.patternMatches (search.bytes first last),
      entry.1 < 8 * (first + one.1) := by
    intro entry member one _
    have position := (ready.recorded entry member).2
    omega
  obtain ⟨found, candidates, skips, looped, scanned⟩ := findMagicLoop_returns regular occur
    (search.patternMatches_ordered _) ready.coherent earlier
  have magic : search.findMagic state = some found := by
    rw [findMagic, read, Option.bind_eq_bind, Option.bind_some, ends, begins]
    exact looped
  have stepped : search.searchStep state =
      some { found with currentOffset := search.nextSlice found } := by
    rw [searchStep, magic]
    rfl
  have nextSlice : search.nextSlice found =
      min (max (state.currentOffset + search.sliceSize) (found.nextOffset.getD 0))
        search.size := by
    rw [nextSlice, scanned.currentOffset]
  have position : ∀ entry ∈ skips, state.currentOffset ≤ entry.1 ∧
      entry.1 < search.sliceEnd state.currentOffset ∧ 8 ∣ entry.2 := by
    intro entry member
    obtain ⟨aligned, one, inside, same⟩ := scanned.recorded entry member
    obtain ⟨occurrence, starts, stops, rfl⟩ := occur one inside
    have longer := nonempty regular occurrence
    simp only [Occurrence.inSlice] at same
    omega
  have listed : ∀ candidate ∈ candidates, ∃ occurrence : Occurrence search,
      state.currentOffset ≤ 8 * occurrence.first ∧
        8 * occurrence.last ≤ search.sliceEnd state.currentOffset ∧
        candidate = occurrence.candidate ∧ 0 ≤ occurrence.fileOffset := by
    intro candidate member
    obtain ⟨occurrence, starts, inside, same, nonneg⟩ := scanned.listed candidate member
    obtain ⟨other, otherStarts, otherStops, equal⟩ := occur _ inside
    simp only [Occurrence.inSlice, Prod.mk.injEq] at equal
    have longer := nonempty regular occurrence
    exact ⟨occurrence, by omega, by omega, same, nonneg⟩
  have wholeFound : ∀ entry ∈ found.found, 8 ∣ entry.2 ∧
      entry.1 < search.sliceEnd state.currentOffset := by
    intro entry member
    rw [scanned.found] at member
    rcases List.mem_append.mp member with old | new
    · have recorded := ready.recorded entry old
      exact ⟨recorded.1, by omega⟩
    · have recorded := position entry new
      exact ⟨recorded.2.2, recorded.2.1⟩
  have nextMod : 8 ∣ found.nextOffset.getD 0 := by
    cases isNext : found.nextOffset with
    | none => exact Nat.dvd_zero 8
    | some next =>
        obtain ⟨entry, member, rfl⟩ := scanned.coherent.reached next isNext
        exact (wholeFound entry member).1
  have reaches : search.sliceEnd state.currentOffset ≤ search.nextSlice found := by
    unfold sliceEnd
    omega
  refine ⟨_, candidates, skips, stepped, ?_⟩
  constructor
  · exact scanned.tried
  · exact scanned.found
  · exact listed
  · exact fun entry member => (position entry member).1
  · intro occurrence starts stops nonneg
    refine scanned.complete occurrence (by omega) ?_ nonneg
    exact (mem_patternMatches regular after before ordered).mpr
      ⟨occurrence, by omega, by have := occurrence.ordered; omega, by omega⟩
  · intro occurrence past reached
    have inside := occurrence.before
    have longer := nonempty regular occurrence
    have skipsIt : 8 * occurrence.first < found.nextOffset.getD 0 := by
      unfold sliceEnd at past
      dsimp only at reached
      omega
    cases isNext : found.nextOffset with
    | none =>
        rw [isNext] at skipsIt
        cases skipsIt
    | some next =>
        rw [isNext, Option.getD_some] at skipsIt
        obtain ⟨entry, member, rfl⟩ := scanned.coherent.reached next isNext
        have recorded := wholeFound entry member
        have below := fileOffset_le regular occurrence
        exact ⟨entry, member, by omega, by omega⟩
  · constructor
    · dsimp only
      omega
    · have began := ready.began
      dsimp only
      omega
    · exact ⟨scanned.coherent.bound, scanned.coherent.reached⟩
    · intro entry member
      have recorded := wholeFound entry member
      exact ⟨recorded.1, Nat.lt_of_lt_of_le recorded.2 reaches⟩
    · rw [scanned.tried]
      refine List.pairwise_append.mpr ⟨ready.ordered, scanned.ordered,
        fun old member new fresh => ?_⟩
      obtain ⟨occurrence, starts, -, rfl, -⟩ := listed new fresh
      exact Nat.lt_of_lt_of_le (ready.earlier old member) starts
    · intro candidate member
      refine Nat.lt_of_lt_of_le ?_ reaches
      rw [scanned.tried] at member
      rcases List.mem_append.mp member with old | new
      · exact Nat.lt_trans (ready.earlier candidate old) further
      · obtain ⟨occurrence, starts, stops, rfl, -⟩ := listed candidate new
        have longer := nonempty regular occurrence
        simp only [Occurrence.candidate]
        omega
  · exact Nat.lt_of_lt_of_le further reaches
  · exact reaches

/-! The whole search. -/

/-- The states of a search, before each slice and at the end. -/
inductive Reached (search : SearchSubfile Parser) : SearchState → Prop
  | start : Reached search { currentOffset := search.startOffset }
  | step {state after : SearchState} (reached : Reached search state)
      (within : state.currentOffset < search.size)
      (stepped : search.searchStep state = some after) : Reached search after

section Search

variable {search : SearchSubfile Parser} (regular : Regular search)
include regular

omit regular in
theorem ready_start : Ready search { currentOffset := search.startOffset } where
  aligned := Nat.dvd_mul_left 8 search.offset
  began := Nat.le_refl _
  coherent := ⟨nofun, nofun⟩
  recorded := nofun
  ordered := List.Pairwise.nil
  earlier := nofun

theorem stepped_of_searchStep {state after : SearchState} (ready : Ready search state)
    (within : state.currentOffset < search.size)
    (stepped : search.searchStep state = some after) :
    ∃ candidates skips, Stepped search state after candidates skips := by
  obtain ⟨other, candidates, skips, returned, spec⟩ := searchStep_returns regular ready within
  cases Option.some.inj (stepped.symm.trans returned)
  exact ⟨candidates, skips, spec⟩

theorem Reached.ready {state : SearchState} (reached : Reached search state) :
    Ready search state := by
  induction reached with
  | start => exact ready_start
  | step _ within stepped induction =>
      obtain ⟨candidates, skips, spec⟩ := stepped_of_searchStep regular induction within stepped
      exact spec.ready

omit regular in
theorem searchLoop_step {fuel : Nat} {state after : SearchState}
    (within : state.currentOffset < search.size)
    (stepped : search.searchStep state = some after) :
    search.searchLoop (fuel + 1) state = search.searchLoop fuel after := by
  rw [searchLoop, if_pos within, stepped]
  rfl

/-- The search ends: every slice goes on. -/
theorem searchLoop_returns {fuel : Nat} {state : SearchState} (ready : Ready search state)
    (enough : search.size < fuel + state.currentOffset) (some : 0 < fuel) :
    ∃ final, search.searchLoop fuel state = Option.some final := by
  induction fuel generalizing state with
  | zero => cases some
  | succ fuel induction =>
      by_cases within : state.currentOffset < search.size
      · obtain ⟨after, _, _, stepped, spec⟩ := searchStep_returns regular ready within
        rw [searchLoop_step within stepped]
        have further := spec.goesOn
        exact induction spec.ready (by omega) (by omega)
      · exact ⟨state, by rw [searchLoop, if_neg within]⟩

/-- From a state on, the record only gets entries of what lies after it. -/
theorem searchLoop_appends {fuel : Nat} {state final : SearchState} (ready : Ready search state)
    (looped : search.searchLoop fuel state = some final) :
    ∃ candidates skips, final.tried = state.tried ++ candidates ∧
      final.found = state.found ++ skips ∧
      (∀ candidate ∈ candidates, state.currentOffset ≤ candidate.1) ∧
      (∀ entry ∈ skips, state.currentOffset ≤ entry.1) ∧ Ready search final := by
  induction fuel generalizing state with
  | zero => cases looped
  | succ fuel induction =>
      by_cases within : state.currentOffset < search.size
      · obtain ⟨after, here, hereSkips, stepped, spec⟩ := searchStep_returns regular ready within
        rw [searchLoop_step within stepped] at looped
        obtain ⟨candidates, skips, tried, found, later, laterSkips, last⟩ :=
          induction spec.ready looped
        have further := spec.goesOn
        refine ⟨here ++ candidates, hereSkips ++ skips, ?_, ?_, ?_, ?_, last⟩
        · rw [tried, spec.tried, List.append_assoc]
        · rw [found, spec.found, List.append_assoc]
        · intro candidate member
          rcases List.mem_append.mp member with now | afterwards
          · obtain ⟨occurrence, starts, -, rfl, -⟩ := spec.listed candidate now
            exact starts
          · exact Nat.le_trans (Nat.le_of_lt further) (later candidate afterwards)
        · intro entry member
          rcases List.mem_append.mp member with now | afterwards
          · exact spec.recorded entry now
          · exact Nat.le_trans (Nat.le_of_lt further) (laterSkips entry afterwards)
      · rw [searchLoop, if_neg within] at looped
        cases looped
        exact ⟨[], [], (List.append_nil _).symm, (List.append_nil _).symm, nofun, nofun, ready⟩

omit regular in
theorem Reached.searchLoop {state final : SearchState} (reached : Reached search state)
    (searched : search.searchSubfiles = some final) :
    ∃ fuel, search.searchLoop fuel state = some final := by
  induction reached with
  | start => exact ⟨_, searched⟩
  | step _ within stepped induction =>
      obtain ⟨fuel, looped⟩ := induction
      cases fuel with
      | zero => cases looped
      | succ fuel =>
          rw [searchLoop_step within stepped] at looped
          exact ⟨fuel, looped⟩

/-- Every position is in some slice, or jumped over after one. -/
theorem exists_reached {fuel position : Nat} {state final : SearchState}
    (reached : Reached search state) (looped : search.searchLoop fuel state = some final)
    (after : state.currentOffset ≤ position) (inside : position < search.size) :
    ∃ before later, Reached search before ∧ before.currentOffset < search.size ∧
      search.searchStep before = some later ∧ before.currentOffset ≤ position ∧
      position < later.currentOffset := by
  induction fuel generalizing state with
  | zero => cases looped
  | succ fuel induction =>
      have within : state.currentOffset < search.size := Nat.lt_of_le_of_lt after inside
      obtain ⟨later, _, _, stepped, spec⟩ :=
        searchStep_returns regular (reached.ready regular) within
      rw [searchLoop_step within stepped] at looped
      by_cases past : later.currentOffset ≤ position
      · exact induction (.step reached within stepped) looped past
      · exact ⟨state, later, reached, within, stepped, after, Nat.lt_of_not_le past⟩

omit regular in
/-- A position is recorded once at most. -/
theorem count_candidate {state : SearchState} (ready : Ready search state)
    (candidate : Nat × Nat) : state.tried.count candidate = 1 ↔ candidate ∈ state.tried := by
  have unique : state.tried.Nodup := by
    refine ready.ordered.imp fun earlier same => ?_
    rw [same] at earlier
    exact Nat.lt_irrefl _ earlier
  constructor
  · intro once
    exact List.count_pos_iff.mp (once ▸ Nat.zero_lt_one)
  · exact fun member => List.count_eq_one_of_mem unique member

end Search

/-! A pattern of one byte, and one that lies across two slices. -/

def oneByte : SearchSubfile Unit where
  stream := [0x41, 0x42, 0x41, 0x41, 0x42]
  offset := 0
  limit := none
  sliceBytes := 2
  magics := [⟨.string [0x41], 0, ()⟩]
  compiledRegex := fun data position =>
    if (data.drop position).take 1 = [0x41] then some (position + 1) else none
  guess := fun offset _ => if offset = 0 then some ⟨some 24, true⟩ else some ⟨none, false⟩

theorem oneByte_magic (occurrence : Occurrence oneByte) :
    occurrence.index = 0 ∧ occurrence.magic = ⟨.string [0x41], 0, ()⟩ := by
  have listed := occurrence.listed
  cases found : occurrence.index with
  | zero =>
      rw [found] at listed
      exact ⟨rfl, (Option.some.inj listed).symm⟩
  | succ index =>
      rw [found] at listed
      cases listed

theorem oneByte_length (occurrence : Occurrence oneByte) :
    occurrence.last = occurrence.first + 1 := by
  have matched := occurrence.matched
  rw [(oneByte_magic occurrence).2] at matched
  have same := congrArg List.length (of_decide_eq_true matched)
  have bounded := occurrence.before
  have total := oneByte.size_le
  rw [length_bytes (by omega)] at same
  have ordered := occurrence.ordered
  simp only [List.length_singleton] at same
  omega

theorem oneByte_regular : Regular oneByte where
  slices := by decide
  filled := by decide
  lengths := by
    intro magic listed text matched
    obtain rfl := List.mem_singleton.mp listed
    rw [of_decide_eq_true matched]
    exact Nat.le_refl _
  compiled := by
    intro first last start stop
    change (if ((oneByte.bytes first last).drop start).take 1 = [0x41] then some (start + 1)
      else none) = some stop ↔ _
    constructor
    · intro found
      split at found
      · rename_i here
        cases found
        have length := congrArg List.length here
        rw [List.length_take, List.length_drop, List.length_singleton] at length
        refine ⟨Nat.le_succ _, by omega, _, List.mem_singleton.mpr rfl, ?_⟩
        rw [Nat.add_sub_cancel_left, here]
        rfl
      · cases found
    · rintro ⟨ordered, inside, magic, listed, matched⟩
      obtain rfl := List.mem_singleton.mp listed
      have here := of_decide_eq_true matched
      have length := congrArg List.length here
      rw [List.length_take, List.length_drop, List.length_singleton] at length
      obtain rfl : stop = start + 1 := by omega
      rw [Nat.add_sub_cancel_left] at here
      rw [if_pos here]
  apart := by
    intro one other
    rw [oneByte_length one, oneByte_length other, (oneByte_magic one).1, (oneByte_magic other).1]
    omega
  within := by decide
  aligned := by
    intro occurrence offset contentSize position guessed
    have found : (if offset = 0 then some (⟨some 24, true⟩ : Subfile) else some ⟨none, false⟩) =
      some ⟨some contentSize, true⟩ := guessed
    split at found
    · rename_i zero
      cases found
      omega
    · cases found

/-- The second and the third byte, one in each slice. -/
def acrossSlices : SearchSubfile Unit where
  stream := [0x30, 0x41, 0x42, 0x30]
  offset := 0
  limit := none
  sliceBytes := 2
  magics := [⟨.string [0x41, 0x42], 0, ()⟩]
  compiledRegex := fun data position =>
    if (data.drop position).take 2 = [0x41, 0x42] then some (position + 2) else none
  guess := fun _ _ => some ⟨none, false⟩

end SearchSubfile

end Segvault.Hachoir
