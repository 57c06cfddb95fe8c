import Segvault.Hachoir.PipeCache

namespace Segvault.Hachoir.InputPipe

variable {κ : Type} {content : List UInt8}

/-! `_flush`. -/

theorem bufferAt_discard (buffers : List (Option Buffer)) (gone index : Nat) :
    bufferAt (buffers.set gone none) index =
      if index = gone then none else bufferAt buffers index := by
  unfold bufferAt
  rw [List.getElem?_set]
  by_cases same : index = gone
  · rw [if_pos same, if_pos same.symm]
    split
    · rfl
    · rfl
  · rw [if_neg same, if_neg (Ne.symm same)]

theorem Cached.discard {pipe : InputPipe κ} {rest : List Nat}
    (cached : Cached content pipe (pipe.first :: rest))
    (many : pipe.first + bufferNbMin + 1 ≤ pipe.buffers.length)
    {buffers : List (Option Buffer)} {next prev : Nat → Nat}
    (relinked : Relinked pipe.buffers buffers next prev) (ring : Ring next prev rest) :
    Cached content
      { pipe with
        buffers := buffers.set pipe.first none
        first := pipe.first + 1 } rest := by
  have distinct := List.nodup_cons.mp cached.nodup
  have other : ∀ member ∈ rest, member ≠ pipe.first := fun member mem same =>
    distinct.1 (same ▸ mem)
  have dataSet : ∀ index, dataAt (buffers.set pipe.first none) index =
      if index = pipe.first then none else dataAt pipe.buffers index := by
    intro index
    rw [← relinked.data_eq, dataAt, dataAt, bufferAt_discard]
    split
    · rfl
    · rfl
  have members : ∀ index, index ∈ rest ↔
      pipe.first + 1 ≤ index ∧ index < pipe.buffers.length := by
    intro index
    have whole := cached.mem_iff index
    rw [List.mem_cons] at whole
    by_cases same : index = pipe.first
    · rw [same]
      have gone := distinct.1
      constructor
      · exact fun mem => absurd mem gone
      · omega
    · rw [or_iff_right same] at whole
      rw [whole]
      omega
  refine ⟨?_, ?_, ?_, distinct.2, ?_, ?_, ?_⟩
  · intro index
    rw [Live, dataSet, List.length_set, relinked.length_eq]
    dsimp only
    have old := cached.live_iff index
    rw [Live] at old
    by_cases same : index = pipe.first
    · rw [if_pos same]
      simp only [Option.isSome_none, Bool.false_eq_true, false_iff]
      omega
    · rw [if_neg same, old]
      omega
  · intro index data found
    rw [dataSet] at found
    split at found
    · cases found
    · exact cached.data_eq index data found
  · refine ring.congr ?_ ?_
    · intro member mem
      rw [nextAt, bufferAt_discard, if_neg (other member mem), ← relinked.next_eq, nextAt]
    · intro member mem
      rw [prevAt, bufferAt_discard, if_neg (other member mem), ← relinked.prev_eq, prevAt]
  · intro index
    rw [List.length_set, relinked.length_eq]
    exact members index
  · have lastEq := cached.last_eq
    have second : pipe.first + 1 ∈ rest := by
      rw [members]
      simp only [bufferNbMin] at many
      omega
    cases rest with
    | nil => cases second
    | cons head tail => rwa [List.getLast?_cons_cons] at lastEq
  · right
    rw [List.length_set, relinked.length_eq]
    dsimp only
    omega

theorem Cached.filter_first {pipe : InputPipe κ} {order : List Nat}
    (cached : Cached content pipe order) :
    order.filter (fun index => pipe.first ≤ index) = order :=
  List.filter_eq_self.mpr fun index mem =>
    decide_eq_true ((cached.mem_iff index).mp mem).1

theorem Cached.perform_flushLoop (turns : Nat) {pipe : InputPipe κ} {order : List Nat}
    (cached : Cached content pipe order)
    (many : turns = 0 ∨ pipe.first + bufferNbMin + turns ≤ pipe.buffers.length) :
    ∃ buffers first,
      Session.perform (flushLoop turns) pipe =
        (.ok ⟨⟩, { pipe with buffers := buffers, first := first }) ∧
      buffers.length = pipe.buffers.length ∧ pipe.first ≤ first ∧
      Cached content { pipe with buffers := buffers, first := first }
        (order.filter fun index => first ≤ index) := by
  induction turns generalizing pipe order with
  | zero =>
      refine ⟨pipe.buffers, pipe.first, rfl, rfl, Nat.le_refl _, ?_⟩
      rw [cached.filter_first]
      exact cached
  | succ turns induction =>
      have room : pipe.first + bufferNbMin + (turns + 1) ≤ pipe.buffers.length := by omega
      have firstMem : pipe.first ∈ order := (cached.mem_iff _).mpr (by omega)
      obtain ⟨buf, found⟩ := live_bufferAt ((cached.live_iff pipe.first).mpr (by omega))
      cases order with
      | nil => cases firstMem
      | cons head rest =>
          have lastEq := List.getLast?_eq_some_getLast (List.cons_ne_nil head rest)
          generalize (head :: rest).getLast (List.cons_ne_nil _ _) = last at lastEq
          have pointer := cached.last_eq.trans lastEq
          have fields : bufferAt pipe.buffers pipe.first = some buf := by
            rw [bufferAt, found]
            rfl
          have bufNext : nextAt pipe.buffers pipe.first = buf.next := by
            rw [nextAt, fields]
            rfl
          have bufPrev : prevAt pipe.buffers pipe.first = buf.prev := by
            rw [prevAt, fields]
            rfl
          by_cases newest : buf.prev = last
          · have same := cached.ring.eq_head cached.nodup lastEq firstMem
              (bufPrev.trans newest)
            subst same
            have live : ∀ member ∈ pipe.first :: rest, Live pipe.buffers member :=
              fun member mem =>
                (cached.live_iff member).mpr ((cached.mem_iff member).mp mem)
            have second : pipe.first + 1 ∈ pipe.first :: rest :=
              (cached.mem_iff _).mpr ⟨by omega, by simp only [bufferNbMin] at room; omega⟩
            have others : [] ++ rest ≠ [] := by
              rw [List.nil_append]
              rintro rfl
              simp at second
            have shorter := @Ring.remove _ _ _ _ [] rest pipe.first cached.ring
              cached.nodup others
            rw [bufNext, bufPrev, newest, List.nil_append] at shorter
            obtain ⟨buffers₁, run₁, links₁⟩ := perform_setNext
              (live last (List.mem_of_getLast? lastEq)) buf.next
            obtain ⟨buffers₂, run₂, links₂⟩ := @perform_setPrev κ
              { pipe with buffers := buffers₁ } _
              (links₁.live (bufNext ▸ live _ (cached.ring.forward_mem firstMem))) last
            rw [links₁.next_eq, links₁.prev_eq] at links₂
            have twice := links₁.trans links₂
            have discarded := cached.discard (by omega) twice shorter
            have length : (buffers₂.set pipe.first none).length = pipe.buffers.length := by
              rw [List.length_set, twice.length_eq]
            obtain ⟨buffers, first, loop, sameLength, later, final⟩ :=
              induction discarded (by
                right
                dsimp only
                rw [length]
                omega)
            dsimp only at loop sameLength later final
            have past : ¬ first ≤ pipe.first := by omega
            refine ⟨buffers, first, ?_, sameLength.trans length, by omega, ?_⟩
            · rw [flushLoop, Session.perform_bind_ok (Session.perform_get pipe),
                Session.perform_bind_ok (perform_buffer found), pointer]
              dsimp only
              rw [if_neg (not_not_intro newest), Session.perform_bind_ok run₁,
                Session.perform_bind_ok run₂,
                Session.perform_bind_ok (Session.perform_modify _ _)]
              exact loop.trans (by rw [pointer])
            · rw [List.filter_cons_of_neg (by simpa using past)]
              exact final
          · refine ⟨pipe.buffers, pipe.first, ?_, rfl, Nat.le_refl _, ?_⟩
            on_goal 2 =>
              rw [cached.filter_first]
              exact cached
            rw [flushLoop, Session.perform_bind_ok (Session.perform_get pipe),
              Session.perform_bind_ok (perform_buffer found), pointer]
            dsimp only
            rw [if_pos newest, ← pointer]
            rfl

theorem Cached.perform_flush {pipe : InputPipe κ} {order : List Nat}
    (cached : Cached content pipe order) :
    ∃ buffers first,
      Session.perform flush pipe =
        (.ok ⟨⟩, { pipe with buffers := buffers, first := first }) ∧
      buffers.length = pipe.buffers.length ∧ pipe.first ≤ first ∧
      Cached content { pipe with buffers := buffers, first := first }
        (order.filter fun index => first ≤ index) := by
  rw [flush, Session.perform_bind_ok (Session.perform_get pipe)]
  exact cached.perform_flushLoop _ (by omega)

/-! Filling the cache. The callback is told at least the length of the content,
and exactly this length when the end of the input was not seen before. -/

def Quiet (content : List UInt8) (setSize : Option (SetSize κ)) (pipe : InputPipe κ) :
    Prop :=
  ∀ callback ∈ setSize, ∀ size (caller : InputPipe κ), caller.client = pipe.client →
    caller.size = some size → content.length ≤ size →
    (65536 * pipe.buffers.length ≤ content.length → size = content.length) →
    ∃ client, callback size caller = (.ok (), client)

def tell (setSize : Option (SetSize κ)) (size : Nat) (pipe : InputPipe κ) : κ :=
  match setSize with
  | none => pipe.client
  | some callback => (callback size pipe).2

theorem perform_notify {setSize : Option (SetSize κ)} {size : Nat} {pipe : InputPipe κ}
    (quiet : ∀ callback ∈ setSize, ∃ client, callback size pipe = (.ok (), client)) :
    Session.perform (notify setSize size) pipe =
      (.ok ⟨⟩, { pipe with client := tell setSize size pipe }) := by
  cases setSize with
  | none => rfl
  | some callback =>
      obtain ⟨client, answer⟩ := quiet callback rfl
      have told : tell (some callback) size pipe = client := by rw [tell, answer]
      rw [notify, Session.perform_bind_ok (Session.perform_get pipe), told, answer]
      rfl

theorem perform_readInput (pipe : InputPipe κ) (size : Nat) :
    Session.perform (readInput size) pipe =
      (.ok (pipe.input.take size), { pipe with input := pipe.input.drop size }) := rfl

theorem blockLength : 1 <<< bufferSize = 65536 := rfl

theorem shiftLeft_bufferSize (value : Nat) : value <<< bufferSize = value * 65536 :=
  Nat.shiftLeft_eq value 16

theorem shiftRight_bufferSize (value : Nat) : value >>> bufferSize = value / 65536 :=
  Nat.shiftRight_eq_div_pow value 16

-- What `fill` leaves: the blocks it added, and what the client was told.
structure Filled (content : List UInt8) (setSize : Option (SetSize κ)) (turns : Nat)
    (pipe : InputPipe κ) (order : List Nat) (filled : InputPipe κ) : Prop where
  longer : pipe.buffers.length ≤ filled.buffers.length
  valid : Valid content filled
    (order ++ List.range' pipe.buffers.length
      (filled.buffers.length - pipe.buffers.length))
  first_eq : filled.first = pipe.first
  address_eq : filled.address = pipe.address
  enough : pipe.buffers.length + turns ≤ filled.buffers.length ∨
    content.length ≤ 65536 * filled.buffers.length
  told : filled.client = pipe.client ∧
      filled.buffers.length = pipe.buffers.length + turns ∧
      (turns = 0 ∨ 65536 * (pipe.buffers.length + turns) ≤ content.length) ∨
    content.length < 65536 * (pipe.buffers.length + turns) ∧
      ∃ size caller, caller.client = pipe.client ∧ caller.size = some size ∧
        content.length ≤ size ∧
        (65536 * pipe.buffers.length ≤ content.length → size = content.length) ∧
        filled.client = tell setSize size caller

theorem Valid.perform_add {pipe : InputPipe κ} {order : List Nat}
    (valid : Valid content pipe order)
    (more : 65536 * pipe.buffers.length < content.length) (size : Option Nat)
    (client : κ) :
    ∃ buffers,
      Session.perform (append (block content pipe.buffers.length))
          { pipe with input := pipe.input.drop 65536, size := size, client := client } =
        (.ok ⟨⟩, { pipe with
          input := pipe.input.drop 65536
          size := size
          client := client
          buffers := buffers
          last := some pipe.buffers.length }) ∧
      buffers.length = pipe.buffers.length + 1 ∧
      Valid content
        { pipe with
          input := pipe.input.drop 65536
          size := size
          client := client
          buffers := buffers
          last := some pipe.buffers.length }
        (order ++ [pipe.buffers.length]) := by
  have before : Cached content
      { pipe with input := pipe.input.drop 65536, size := size, client := client }
      order := { valid.toCached with }
  obtain ⟨buffers, run, length, cached⟩ := before.perform_append rfl
  dsimp only at length
  refine ⟨buffers, run, length, { cached with input_eq := ?_, reached := ?_ }⟩
  · dsimp only
    rw [valid.input_eq, List.drop_drop, length]
    congr 1
  · intro index bound
    dsimp only at bound
    rw [length] at bound
    by_cases old : index < pipe.buffers.length
    · exact valid.reached index old
    · have newest : index = pipe.buffers.length := by omega
      rw [newest]
      exact more

theorem Valid.perform_fill {setSize : Option (SetSize κ)} (turns : Nat)
    {pipe : InputPipe κ} {order : List Nat} (valid : Valid content pipe order)
    (quiet : Quiet content setSize pipe) :
    ∃ filled, Session.perform (fill setSize turns) pipe = (.ok ⟨⟩, filled) ∧
      Filled content setSize turns pipe order filled := by
  induction turns generalizing pipe order with
  | zero =>
      refine ⟨pipe, rfl, Nat.le_refl _, ?_, rfl, rfl, .inl (Nat.le_refl _),
        .inl ⟨rfl, rfl, .inl rfl⟩⟩
      rw [Nat.sub_self, List.range'_zero, List.append_nil]
      exact valid
  | succ turns induction =>
      have data : pipe.input.take 65536 = block content pipe.buffers.length := by
        rw [valid.input_eq, block, slice]
      have dataLength : (block content pipe.buffers.length).length =
          min 65536 (content.length - 65536 * pipe.buffers.length) := by
        rw [block, slice, List.length_take, List.length_drop]
      by_cases short : (block content pipe.buffers.length).length < 65536
      · -- the end of the input
        have long : content.length ≤ (pipe.buffers.length <<< bufferSize) +
            (block content pipe.buffers.length).length := by
          rw [shiftLeft_bufferSize]
          omega
        have whole : 65536 * pipe.buffers.length ≤ content.length →
            (pipe.buffers.length <<< bufferSize) +
              (block content pipe.buffers.length).length = content.length := by
          rw [shiftLeft_bufferSize]
          omega
        generalize sizeEq : (pipe.buffers.length <<< bufferSize) +
          (block content pipe.buffers.length).length = size at long whole
        have told := @perform_notify κ setSize size
          { pipe with input := pipe.input.drop 65536, size := some size }
          fun callback mem => quiet callback mem size _ rfl rfl long whole
        generalize clientEq : tell setSize size
          { pipe with input := pipe.input.drop 65536, size := some size } =
            client at told
        have past : content.length < 65536 * (pipe.buffers.length + (turns + 1)) := by
          omega
        have caller : ∃ size caller, caller.client = pipe.client ∧
            caller.size = some size ∧ content.length ≤ size ∧
            (65536 * pipe.buffers.length ≤ content.length → size = content.length) ∧
            client = tell setSize size caller :=
          ⟨size, { pipe with input := pipe.input.drop 65536, size := some size }, rfl,
            rfl, long, whole, clientEq.symm⟩
        have run : Session.perform (fill setSize (turns + 1)) pipe =
            Session.perform
              (if block content pipe.buffers.length ≠ [] then
                append (block content pipe.buffers.length) else pure ⟨⟩)
              { pipe with
                input := pipe.input.drop 65536
                size := some size
                client := client } := by
          rw [fill, blockLength, Session.perform_bind_ok (perform_readInput pipe _),
            data, if_pos short, Session.perform_bind_ok (Session.perform_get _)]
          dsimp only
          rw [sizeEq, Session.perform_bind_ok (Session.perform_set _ _),
            Session.perform_bind_ok told]
        by_cases nothing : block content pipe.buffers.length = []
        · have none : (block content pipe.buffers.length).length = 0 := by
            rw [nothing, List.length_nil]
          have ended : content.length ≤ 65536 * pipe.buffers.length := by omega
          refine ⟨{ pipe with
              input := pipe.input.drop 65536
              size := some size
              client := client }, ?_, Nat.le_refl _, ?_, rfl, rfl, .inr ended,
            .inr ⟨past, caller⟩⟩
          · rw [run, if_neg (not_not_intro nothing)]
            rfl
          · have cached : Cached content
                { pipe with
                  input := pipe.input.drop 65536
                  size := some size
                  client := client } order := { valid.toCached with }
            rw [Nat.sub_self, List.range'_zero, List.append_nil]
            refine { cached with input_eq := ?_, reached := valid.reached }
            dsimp only
            rw [valid.input_eq, List.drop_drop, List.drop_eq_nil_of_le ended,
              List.drop_eq_nil_of_le (by omega)]
        · have present : 0 < (block content pipe.buffers.length).length :=
            List.length_pos_of_ne_nil nothing
          obtain ⟨buffers, added, length, filledValid⟩ :=
            valid.perform_add (by omega) (some size) client
          refine ⟨{ pipe with
              input := pipe.input.drop 65536
              size := some size
              client := client
              buffers := buffers
              last := some pipe.buffers.length }, ?_, ?_, ?_, rfl, rfl,
            .inr ?_, .inr ⟨past, caller⟩⟩
          · rw [run, if_pos nothing]
            exact added
          · dsimp only
            omega
          · dsimp only
            rw [length, Nat.add_sub_cancel_left]
            exact filledValid
          · dsimp only
            omega
      · -- a whole block
        have full : (block content pipe.buffers.length).length = 65536 := by omega
        obtain ⟨buffers, added, length, nextValid⟩ :=
          valid.perform_add (by omega) pipe.size pipe.client
        have nextQuiet : Quiet content setSize
            { pipe with
              input := pipe.input.drop 65536
              buffers := buffers
              last := some pipe.buffers.length } := by
          intro callback mem size caller client known long whole
          refine quiet callback mem size caller client known long fun _ => whole ?_
          dsimp only
          omega
        obtain ⟨filled, loop, longer, finalValid, first, address, enough, told⟩ :=
          induction nextValid nextQuiet
        dsimp only at longer finalValid first address enough told
        rw [length] at longer finalValid enough told
        refine ⟨filled, ?_, by omega, ?_, first, address, by omega, ?_⟩
        · rw [fill, blockLength, Session.perform_bind_ok (perform_readInput pipe _),
            data, if_neg short, Session.perform_bind_ok added]
          exact loop
        · have count : filled.buffers.length - pipe.buffers.length =
              (filled.buffers.length - (pipe.buffers.length + 1)) + 1 := by omega
          rw [count, List.range'_succ, List.append_cons]
          exact finalValid
        · cases told with
          | inl quiet => exact .inl ⟨quiet.1, by omega, .inr (by omega)⟩
          | inr ended =>
              obtain ⟨past, size, caller, client, known, long, whole, told⟩ := ended
              exact .inr ⟨by omega, size, caller, client, known, long,
                fun _ => whole (by omega), told⟩

end Segvault.Hachoir.InputPipe
