import Segvault.Hachoir.InputPipe

namespace Segvault.Hachoir.InputPipe

variable {κ : Type}

/-! The cached blocks and their links. -/

def bufferAt (buffers : List (Option Buffer)) (index : Nat) : Option Buffer :=
  buffers[index]?.join

def dataAt (buffers : List (Option Buffer)) (index : Nat) : Option (List UInt8) :=
  (bufferAt buffers index).map Buffer.data

def nextAt (buffers : List (Option Buffer)) (index : Nat) : Nat :=
  ((bufferAt buffers index).map Buffer.next).getD 0

def prevAt (buffers : List (Option Buffer)) (index : Nat) : Nat :=
  ((bufferAt buffers index).map Buffer.prev).getD 0

def Live (buffers : List (Option Buffer)) (index : Nat) : Prop :=
  (dataAt buffers index).isSome

structure Relinked (before after : List (Option Buffer)) (next prev : Nat → Nat) :
    Prop where
  length_eq : after.length = before.length
  data_eq : dataAt after = dataAt before
  next_eq : nextAt after = next
  prev_eq : prevAt after = prev

theorem bufferAt_alter (buffers : List (Option Buffer)) (index : Nat)
    (change : Buffer → Buffer) (other : Nat) :
    bufferAt (alter buffers index change) other =
      if other = index then (bufferAt buffers index).map change
      else bufferAt buffers other := by
  unfold bufferAt alter
  rw [List.getElem?_modify]
  by_cases same : other = index
  · subst same
    rw [if_pos rfl]
    cases buffers[other]? with
    | none => rfl
    | some slot => simp
  · rw [if_neg same]
    simp [Ne.symm same]

theorem live_bufferAt {buffers : List (Option Buffer)} {index : Nat}
    (live : Live buffers index) : ∃ buf, buffers[index]? = some (some buf) := by
  unfold Live dataAt bufferAt at live
  cases found : buffers[index]? with
  | none => simp [found] at live
  | some slot =>
      cases slot with
      | none => simp [found] at live
      | some buf => exact ⟨buf, rfl⟩

theorem relinked_next {buffers : List (Option Buffer)} {index : Nat}
    (live : Live buffers index) (value : Nat) :
    Relinked buffers (alter buffers index fun buf => { buf with next := value })
      (Function.update (nextAt buffers) index value) (prevAt buffers) := by
  obtain ⟨buf, found⟩ := live_bufferAt live
  have here : bufferAt buffers index = some buf := by rw [bufferAt, found]; rfl
  refine ⟨List.length_modify .., ?_, ?_, ?_⟩
  · funext other
    rw [dataAt, dataAt, bufferAt_alter]
    by_cases same : other = index
    · rw [if_pos same, same, Option.map_map]
      rfl
    · rw [if_neg same]
  · funext other
    rw [nextAt, bufferAt_alter]
    by_cases same : other = index
    · rw [if_pos same, same, here, Function.update_self]
      rfl
    · rw [if_neg same, Function.update_of_ne same, nextAt]
  · funext other
    rw [prevAt, prevAt, bufferAt_alter]
    by_cases same : other = index
    · rw [if_pos same, same, Option.map_map]
      rfl
    · rw [if_neg same]

theorem relinked_prev {buffers : List (Option Buffer)} {index : Nat}
    (live : Live buffers index) (value : Nat) :
    Relinked buffers (alter buffers index fun buf => { buf with prev := value })
      (nextAt buffers) (Function.update (prevAt buffers) index value) := by
  obtain ⟨buf, found⟩ := live_bufferAt live
  have here : bufferAt buffers index = some buf := by rw [bufferAt, found]; rfl
  refine ⟨List.length_modify .., ?_, ?_, ?_⟩
  · funext other
    rw [dataAt, dataAt, bufferAt_alter]
    by_cases same : other = index
    · rw [if_pos same, same, Option.map_map]
      rfl
    · rw [if_neg same]
  · funext other
    rw [nextAt, nextAt, bufferAt_alter]
    by_cases same : other = index
    · rw [if_pos same, same, Option.map_map]
      rfl
    · rw [if_neg same]
  · funext other
    rw [prevAt, bufferAt_alter]
    by_cases same : other = index
    · rw [if_pos same, same, here, Function.update_self]
      rfl
    · rw [if_neg same, Function.update_of_ne same, prevAt]

theorem Relinked.live {before after : List (Option Buffer)} {next prev : Nat → Nat}
    (relinked : Relinked before after next prev) {index : Nat}
    (live : Live before index) : Live after index := by
  rw [Live, relinked.data_eq]
  exact live

theorem perform_buffer {pipe : InputPipe κ} {index : Nat} {buf : Buffer}
    (found : pipe.buffers[index]? = some (some buf)) :
    Session.perform (buffer index) pipe = (.ok buf, pipe) := by
  rw [buffer, Session.perform_bind_ok (Session.perform_get pipe), found]
  rfl

theorem perform_setNext {pipe : InputPipe κ} {index : Nat}
    (live : Live pipe.buffers index) (value : Nat) :
    ∃ buffers,
      Session.perform (setNext index value) pipe =
        (.ok ⟨⟩, { pipe with buffers := buffers }) ∧
      Relinked pipe.buffers buffers
        (Function.update (nextAt pipe.buffers) index value) (prevAt pipe.buffers) := by
  obtain ⟨buf, found⟩ := live_bufferAt live
  refine ⟨_, ?_, relinked_next live value⟩
  rw [setNext, Session.perform_bind_ok (perform_buffer found)]
  rfl

theorem perform_setPrev {pipe : InputPipe κ} {index : Nat}
    (live : Live pipe.buffers index) (value : Nat) :
    ∃ buffers,
      Session.perform (setPrev index value) pipe =
        (.ok ⟨⟩, { pipe with buffers := buffers }) ∧
      Relinked pipe.buffers buffers
        (nextAt pipe.buffers) (Function.update (prevAt pipe.buffers) index value) := by
  obtain ⟨buf, found⟩ := live_bufferAt live
  refine ⟨_, ?_, relinked_prev live value⟩
  rw [setPrev, Session.perform_bind_ok (perform_buffer found)]
  rfl

theorem Relinked.trans {first second third : List (Option Buffer)}
    {next prev next' prev' : Nat → Nat} (one : Relinked first second next prev)
    (two : Relinked second third next' prev') : Relinked first third next' prev' :=
  ⟨two.length_eq.trans one.length_eq, two.data_eq.trans one.data_eq, two.next_eq,
    two.prev_eq⟩

/-! Moving a block to the end of the circular list. -/

theorem perform_touch {pipe : InputPipe κ} {before after : List Nat}
    {index last : Nat} {buf : Buffer}
    (ring : Ring (nextAt pipe.buffers) (prevAt pipe.buffers) (before ++ index :: after))
    (nodup : (before ++ index :: after).Nodup)
    (live : ∀ member ∈ before ++ index :: after, Live pipe.buffers member)
    (found : pipe.buffers[index]? = some (some buf))
    (lastEq : (before ++ after).getLast? = some last)
    (pointer : pipe.last = some last) :
    ∃ buffers next prev,
      Session.perform (touch index buf) pipe =
        (.ok ⟨⟩, { pipe with buffers := buffers, last := some index }) ∧
      Relinked pipe.buffers buffers next prev ∧
      Ring next prev (before ++ after ++ [index]) := by
  obtain ⟨input, start, address, slots, pointed, size, client⟩ := pipe
  dsimp only at ring live found pointer ⊢
  subst pointer
  have others : ∀ member ∈ before ++ after, Live slots member := by
    intro member inside
    refine live member ?_
    simp only [List.mem_append, List.mem_cons] at inside ⊢
    tauto
  have fields : bufferAt slots index = some buf := by rw [bufferAt, found]; rfl
  have bufNext : buf.next = nextAt slots index := by rw [nextAt, fields]; rfl
  have bufPrev : buf.prev = prevAt slots index := by rw [prevAt, fields]; rfl
  have member : index ∈ before ++ index :: after :=
    List.mem_append_right _ (List.mem_cons_self ..)
  have nonempty : before ++ after ≠ [] := List.ne_nil_of_mem (List.mem_of_getLast? lastEq)
  obtain ⟨first, headEq⟩ : ∃ first, (before ++ after).head? = some first :=
    ⟨_, List.head?_eq_some_head nonempty⟩
  obtain ⟨fresh, distinct⟩ := List.nodup_cons.mp (List.perm_middle.nodup_iff.mp nodup)
  have shorter := ring.remove nodup nonempty
  have closing := shorter.closed last lastEq first headEq
  have longer := shorter.insertLast distinct fresh headEq lastEq
  -- the six assignments, in order
  obtain ⟨buffers₁, run₁, links₁⟩ := @perform_setPrev κ
    ⟨input, start, address, slots, some last, size, client⟩ _ (live _ (ring.forward_mem member))
      (prevAt slots index)
  obtain ⟨buffers₂, run₂, links₂⟩ := @perform_setNext κ
    ⟨input, start, address, buffers₁, some last, size, client⟩ _
    (links₁.live (live _ (ring.backward_mem member))) (nextAt slots index)
  rw [links₁.next_eq, links₁.prev_eq] at links₂
  have twice := links₁.trans links₂
  obtain ⟨newest, newestFound⟩ :=
    live_bufferAt (twice.live (others last (List.mem_of_getLast? lastEq)))
  have newestNext : newest.next = first := by
    have read : nextAt buffers₂ last = newest.next := by
      rw [nextAt, bufferAt, newestFound]
      rfl
    rw [← read, twice.next_eq]
    exact closing.1
  obtain ⟨buffers₃, run₃, links₃⟩ := @perform_setNext κ
    ⟨input, start, address, buffers₂, some last, size, client⟩ _
    (twice.live (live index member)) first
  rw [twice.next_eq, twice.prev_eq] at links₃
  have thrice := twice.trans links₃
  obtain ⟨buffers₄, run₄, links₄⟩ := @perform_setPrev κ
    ⟨input, start, address, buffers₃, some last, size, client⟩ _
    (thrice.live (live index member)) last
  rw [thrice.next_eq, thrice.prev_eq] at links₄
  have fourth := thrice.trans links₄
  obtain ⟨buffers₅, run₅, links₅⟩ := @perform_setPrev κ
    ⟨input, start, address, buffers₄, some last, size, client⟩ _
    (fourth.live (others first (List.mem_of_head? headEq))) index
  rw [fourth.next_eq, fourth.prev_eq] at links₅
  have fifth := fourth.trans links₅
  obtain ⟨buffers₆, run₆, links₆⟩ := @perform_setNext κ
    ⟨input, start, address, buffers₅, some last, size, client⟩ _
    (fifth.live (others last (List.mem_of_getLast? lastEq))) index
  rw [fifth.next_eq, fifth.prev_eq] at links₆
  refine ⟨buffers₆, _, _, ?_, fifth.trans links₆, longer⟩
  rw [touch, bufNext, bufPrev, Session.perform_bind_ok run₁,
    Session.perform_bind_ok run₂, Session.perform_bind_ok (Session.perform_get _)]
  dsimp only
  rw [Session.perform_bind_ok (perform_buffer newestFound), newestNext,
    Session.perform_bind_ok run₃, Session.perform_bind_ok run₄,
    Session.perform_bind_ok run₅, Session.perform_bind_ok run₆, Session.perform_modify]

/-! The invariant: the live blocks are `first`, ..., up to the last block read,
each holds its part of the content, and the circular list visits them in the
given order, which ends at `last`. -/

def block (content : List UInt8) (index : Nat) : List UInt8 :=
  slice content (65536 * index) 65536

structure Cached (content : List UInt8) (pipe : InputPipe κ) (order : List Nat) :
    Prop where
  live_iff : ∀ index, Live pipe.buffers index ↔
    pipe.first ≤ index ∧ index < pipe.buffers.length
  data_eq : ∀ index data, dataAt pipe.buffers index = some data →
    data = block content index
  ring : Ring (nextAt pipe.buffers) (prevAt pipe.buffers) order
  nodup : order.Nodup
  mem_iff : ∀ index, index ∈ order ↔ pipe.first ≤ index ∧ index < pipe.buffers.length
  last_eq : pipe.last = order.getLast?
  kept : pipe.first = 0 ∨ pipe.first + bufferNbMin ≤ pipe.buffers.length

structure Valid (content : List UInt8) (pipe : InputPipe κ) (order : List Nat) :
    Prop extends Cached content pipe order where
  input_eq : pipe.input = content.drop (65536 * pipe.buffers.length)
  reached : ∀ index < pipe.buffers.length, 65536 * index < content.length

theorem new_valid (content : List UInt8) (client : κ) :
    Valid content (new content client) [] where
  live_iff := fun index => by simp [Live, dataAt, bufferAt, new]
  data_eq := fun index data found => by simp [dataAt, bufferAt, new] at found
  ring := ⟨List.isChain_nil, fun last lastEq => by simp at lastEq⟩
  nodup := List.nodup_nil
  mem_iff := fun index => by simp [new]
  last_eq := rfl
  kept := .inl rfl
  input_eq := rfl
  reached := fun index bound => absurd bound (Nat.not_lt_zero index)

theorem Cached.relink {content : List UInt8} {pipe : InputPipe κ}
    {order order' : List Nat} (cached : Cached content pipe order)
    {buffers : List (Option Buffer)} {next prev : Nat → Nat}
    (relinked : Relinked pipe.buffers buffers next prev) (ring : Ring next prev order')
    (same : order'.Perm order) {last : Option Nat} (lastEq : last = order'.getLast?) :
    Cached content { pipe with buffers := buffers, last := last } order' where
  live_iff := fun index => by
    rw [Live, relinked.data_eq]
    dsimp only
    rw [relinked.length_eq]
    exact cached.live_iff index
  data_eq := fun index data found => by
    rw [relinked.data_eq] at found
    exact cached.data_eq index data found
  ring := by
    dsimp only
    rw [relinked.next_eq, relinked.prev_eq]
    exact ring
  nodup := same.nodup_iff.mpr cached.nodup
  mem_iff := fun index => by
    rw [same.mem_iff]
    dsimp only
    rw [relinked.length_eq]
    exact cached.mem_iff index
  last_eq := lastEq
  kept := by
    dsimp only
    rw [relinked.length_eq]
    exact cached.kept

theorem Cached.dataAt_eq {content : List UInt8} {pipe : InputPipe κ} {order : List Nat}
    (cached : Cached content pipe order) {index : Nat} {buf : Buffer}
    (found : pipe.buffers[index]? = some (some buf)) :
    buf.data = block content index := by
  refine cached.data_eq index buf.data ?_
  rw [dataAt, bufferAt, found]
  rfl

/-! `_get`. -/

theorem perform_getBuffer_past {pipe : InputPipe κ} {index : Nat}
    (past : pipe.buffers.length ≤ index) :
    Session.perform (getBuffer index) pipe = (.ok [], pipe) := by
  rw [getBuffer, Session.perform_bind_ok (Session.perform_get pipe),
    List.getElem?_eq_none past]
  rfl

theorem Cached.getBuffer_discarded {content : List UInt8} {pipe : InputPipe κ}
    {order : List Nat} (cached : Cached content pipe order) {index : Nat}
    (old : index < pipe.first) (inside : index < pipe.buffers.length) :
    Session.perform (getBuffer index) pipe =
      (.error (.inputStreamError buffersTooSmall), pipe) := by
  have dead : ¬ Live pipe.buffers index := by
    rw [cached.live_iff]
    omega
  have slot : pipe.buffers[index]? = some none := by
    unfold Live dataAt bufferAt at dead
    rw [List.getElem?_eq_getElem inside] at dead ⊢
    cases content : pipe.buffers[index] with
    | none => rfl
    | some buf => simp [content] at dead
  rw [getBuffer, Session.perform_bind_ok (Session.perform_get pipe), slot]
  rfl

theorem Cached.getBuffer_live {content : List UInt8} {pipe : InputPipe κ}
    {order : List Nat} (cached : Cached content pipe order) {index : Nat}
    (kept : pipe.first ≤ index) (inside : index < pipe.buffers.length) :
    ∃ buffers,
      Session.perform (getBuffer index) pipe =
        (.ok (block content index),
          { pipe with buffers := buffers, last := some index }) ∧
      buffers.length = pipe.buffers.length ∧
      Cached content { pipe with buffers := buffers, last := some index }
        (order.erase index ++ [index]) := by
  have mem := (cached.mem_iff index).mpr ⟨kept, inside⟩
  obtain ⟨buf, found⟩ := live_bufferAt ((cached.live_iff index).mpr ⟨kept, inside⟩)
  have data := cached.dataAt_eq found
  obtain ⟨before, after, split⟩ := List.append_of_mem mem
  have nodup := cached.nodup
  rw [split] at nodup
  have notBefore : index ∉ before := by
    intro early
    exact (List.nodup_append.mp nodup).2.2 index early index (List.mem_cons_self ..) rfl
  have erased : order.erase index = before ++ after := by
    rw [split, List.erase_append_right _ notBefore, List.erase_cons_head]
  rw [erased]
  by_cases newest : pipe.last = some index
  · have only : after = [] := by
      have lastEq := cached.last_eq
      rw [newest, split, List.getLast?_append_of_ne_nil _ (List.cons_ne_nil _ _)] at lastEq
      cases after with
      | nil => rfl
      | cons second rest =>
          rw [List.getLast?_cons_cons] at lastEq
          have again := List.mem_of_getLast? lastEq.symm
          exact absurd again (List.nodup_cons.mp (List.nodup_append.mp nodup).2.1).1
    have same : { pipe with buffers := pipe.buffers, last := some index } = pipe := by
      rw [← newest]
    refine ⟨pipe.buffers, ?_, rfl, ?_⟩
    · rw [same, getBuffer, Session.perform_bind_ok (Session.perform_get pipe), found,
        ← data]
      simp only [newest, ne_eq, not_true_eq_false, if_false]
      rfl
    · subst only
      rw [same, List.append_nil, ← split]
      exact cached
  · obtain ⟨last, lastEq, pointer⟩ : ∃ last,
        (before ++ after).getLast? = some last ∧ pipe.last = some last := by
      have lastEq := cached.last_eq
      rw [split, List.getLast?_append_of_ne_nil _ (List.cons_ne_nil _ _)] at lastEq
      cases after with
      | nil => exact absurd lastEq newest
      | cons second rest =>
          rw [List.getLast?_cons_cons] at lastEq
          refine ⟨_, ?_, lastEq.trans (List.getLast?_eq_some_getLast (by simp))⟩
          rw [List.getLast?_append_of_ne_nil _ (List.cons_ne_nil _ _)]
          exact List.getLast?_eq_some_getLast (by simp)
    have ring := cached.ring
    have live : ∀ member ∈ order, Live pipe.buffers member :=
      fun member mem => (cached.live_iff member).mpr ((cached.mem_iff member).mp mem)
    rw [split] at ring live
    obtain ⟨buffers, next, prev, moved, relinked, newRing⟩ :=
      perform_touch ring nodup live found lastEq pointer
    refine ⟨buffers, ?_, relinked.length_eq, cached.relink relinked newRing ?_ ?_⟩
    · rw [getBuffer, Session.perform_bind_ok (Session.perform_get pipe), found, ← data]
      dsimp only
      rw [if_pos newest, Session.perform_bind_ok moved]
      rfl
    · rw [split, List.append_assoc]
      exact (List.perm_append_comm.append_left before)
    · rw [List.getLast?_concat]

/-! `_append`. -/

theorem bufferAt_concat (buffers : List (Option Buffer)) (buf : Buffer) (index : Nat) :
    bufferAt (buffers ++ [some buf]) index =
      if index = buffers.length then some buf else bufferAt buffers index := by
  unfold bufferAt
  by_cases last : index = buffers.length
  · rw [if_pos last, last, List.getElem?_concat_length]
    rfl
  · rw [if_neg last]
    by_cases early : index < buffers.length
    · rw [List.getElem?_append_left early]
    · have past : (buffers ++ [some buf]).length ≤ index := by
        rw [List.length_append, List.length_singleton]
        omega
      rw [List.getElem?_eq_none past, List.getElem?_eq_none (by omega)]

theorem nextAt_concat (buffers : List (Option Buffer)) (buf : Buffer) :
    nextAt (buffers ++ [some buf]) =
      Function.update (nextAt buffers) buffers.length buf.next := by
  funext index
  rw [nextAt, bufferAt_concat]
  by_cases last : index = buffers.length
  · rw [if_pos last, last, Function.update_self]
    rfl
  · rw [if_neg last, Function.update_of_ne last, nextAt]

theorem prevAt_concat (buffers : List (Option Buffer)) (buf : Buffer) :
    prevAt (buffers ++ [some buf]) =
      Function.update (prevAt buffers) buffers.length buf.prev := by
  funext index
  rw [prevAt, bufferAt_concat]
  by_cases last : index = buffers.length
  · rw [if_pos last, last, Function.update_self]
    rfl
  · rw [if_neg last, Function.update_of_ne last, prevAt]

theorem dataAt_concat (buffers : List (Option Buffer)) (buf : Buffer) (index : Nat) :
    dataAt (buffers ++ [some buf]) index =
      if index = buffers.length then some buf.data else dataAt buffers index := by
  rw [dataAt, bufferAt_concat]
  split
  · rfl
  · rfl

-- A block added after the last one, once the links in `buffers` are set.
theorem Cached.extend {content : List UInt8} {pipe : InputPipe κ} {order : List Nat}
    (cached : Cached content pipe order) {buffers : List (Option Buffer)} {buf : Buffer}
    (length : buffers.length = pipe.buffers.length)
    (data : dataAt buffers = dataAt pipe.buffers)
    (ring : Ring (nextAt (buffers ++ [some buf])) (prevAt (buffers ++ [some buf]))
      (order ++ [pipe.buffers.length]))
    (fresh : buf.data = block content pipe.buffers.length) :
    Cached content
      { pipe with
        buffers := buffers ++ [some buf]
        last := some pipe.buffers.length }
      (order ++ [pipe.buffers.length]) := by
  have bounded := cached.kept
  refine ⟨?_, ?_, ring, ?_, ?_, ?_, ?_⟩
  · intro index
    have old := cached.live_iff index
    rw [Live] at old ⊢
    rw [dataAt_concat, data]
    simp only [List.length_append, List.length_singleton, length]
    by_cases last : index = pipe.buffers.length
    · rw [if_pos last]
      simp only [Option.isSome_some, true_iff]
      omega
    · rw [if_neg last, old]
      omega
  · intro index bytes found
    rw [dataAt_concat, data, length] at found
    split at found
    · next last =>
        rw [last, ← fresh]
        exact (Option.some.inj found).symm
    · exact cached.data_eq index bytes found
  · rw [List.nodup_append]
    refine ⟨cached.nodup, List.nodup_singleton _, ?_⟩
    rintro index old other newest rfl
    have inside := (cached.mem_iff index).mp old
    rw [List.mem_singleton] at newest
    omega
  · intro index
    rw [List.mem_append, cached.mem_iff, List.mem_singleton]
    simp only [List.length_append, List.length_singleton, length]
    omega
  · rw [List.getLast?_concat]
  · simp only [List.length_append, List.length_singleton, length]
    omega

theorem Cached.perform_append {content : List UInt8} {pipe : InputPipe κ}
    {order : List Nat} (cached : Cached content pipe order) {data : List UInt8}
    (fresh : data = block content pipe.buffers.length) :
    ∃ buffers,
      Session.perform (append data) pipe =
        (.ok ⟨⟩, { pipe with
          buffers := buffers
          last := some pipe.buffers.length }) ∧
      buffers.length = pipe.buffers.length + 1 ∧
      Cached content { pipe with buffers := buffers, last := some pipe.buffers.length }
        (order ++ [pipe.buffers.length]) := by
  have bounded := cached.kept
  cases order using List.reverseRecOn with
  | nil =>
      have pointer : pipe.last = none := cached.last_eq
      have empty : pipe.buffers.length = 0 := by
        have none := (cached.mem_iff pipe.first).not.mp List.not_mem_nil
        simp only [bufferNbMin] at bounded
        omega
      have nothing := List.eq_nil_of_length_eq_zero empty
      refine ⟨pipe.buffers ++ [some (Buffer.mk data 0 0)], ?_, ?_, ?_⟩
      · rw [append, Session.perform_bind_ok (Session.perform_get pipe), pointer, empty]
        rfl
      · rw [List.length_append, List.length_singleton]
      · refine cached.extend rfl rfl ?_ fresh
        rw [List.nil_append, empty]
        refine Ring.singleton ?_ ?_
        · rw [nextAt_concat, empty, Function.update_self]
        · rw [prevAt_concat, empty, Function.update_self]
  | append_singleton order last =>
      obtain ⟨input, start, address, slots, pointed, size, client⟩ := pipe
      have pointer := cached.last_eq
      rw [List.getLast?_concat] at pointer
      dsimp only at pointer fresh bounded ⊢
      subst pointer
      have ring := cached.ring
      have alive : ∀ member ∈ order ++ [last], Live slots member := fun member mem =>
        (cached.live_iff member).mpr ((cached.mem_iff member).mp mem)
      have lastMem : last ∈ order ++ [last] := by simp
      obtain ⟨first, headEq⟩ : ∃ first, (order ++ [last]).head? = some first :=
        ⟨_, List.head?_eq_some_head (by simp)⟩
      have firstMem := List.mem_of_head? headEq
      have closing := ring.closed last List.getLast?_concat first headEq
      have new : slots.length ∉ order ++ [last] := fun mem =>
        Nat.lt_irrefl _ ((cached.mem_iff _).mp mem).2
      have longer := ring.insertLast cached.nodup new headEq List.getLast?_concat
      have notFirst : slots.length ≠ first := fun same => new (same ▸ firstMem)
      have notLast : slots.length ≠ last := fun same => new (same ▸ lastMem)
      obtain ⟨newest, found⟩ := live_bufferAt (alive last lastMem)
      have newestNext : newest.next = first := by
        have read : nextAt slots last = newest.next := by
          rw [nextAt, bufferAt, found]
          rfl
        rw [← read]
        exact closing.1
      obtain ⟨buffers₁, run₁, links₁⟩ := @perform_setPrev κ
        ⟨input, start, address, slots, some slots.length, size, client⟩ _
        (alive first firstMem) slots.length
      obtain ⟨buffers₂, run₂, links₂⟩ := @perform_setNext κ
        ⟨input, start, address, buffers₁, some slots.length, size, client⟩ _
        (links₁.live (alive last lastMem)) slots.length
      rw [links₁.next_eq, links₁.prev_eq] at links₂
      have twice := links₁.trans links₂
      refine ⟨buffers₂ ++ [some (Buffer.mk data first last)], ?_, ?_, ?_⟩
      · rw [append, Session.perform_bind_ok (Session.perform_get _)]
        dsimp only
        rw [Session.perform_bind_ok (perform_buffer found), newestNext,
          Session.perform_bind_ok (Session.perform_modify _ _),
          Session.perform_bind_ok run₁, Session.perform_bind_ok run₂,
          Session.perform_modify]
      · rw [List.length_append, List.length_singleton, twice.length_eq]
      · refine cached.extend twice.length_eq twice.data_eq ?_ fresh
        rw [nextAt_concat, prevAt_concat, twice.next_eq, twice.prev_eq,
          twice.length_eq, Function.update_comm notLast.symm,
          Function.update_comm notFirst.symm]
        exact longer

end Segvault.Hachoir.InputPipe
