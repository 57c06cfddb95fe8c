import Segvault.Hachoir.PipeRuns

namespace Segvault.Hachoir.InputPipe

variable {κ : Type} {content : List UInt8}

/-! What joining the blocks and discarding old ones leaves alone, also when the join
raises. -/

structure SameEnd (content : List UInt8) (before after : InputPipe κ) : Prop where
  size_eq : after.size = before.size
  input_eq : after.input = before.input
  length_eq : after.buffers.length = before.buffers.length
  cached : ∃ order, Cached content after order

theorem SameEnd.trans {first second third : InputPipe κ} (one : SameEnd content first second)
    (two : SameEnd content second third) : SameEnd content first third :=
  ⟨two.size_eq.trans one.size_eq, two.input_eq.trans one.input_eq,
    two.length_eq.trans one.length_eq, two.cached⟩

theorem SameEnd.getBuffer {start pipe : InputPipe κ} (same : SameEnd content start pipe)
    (index : Nat) : Session.Leaves (SameEnd content start) (getBuffer index) pipe := by
  obtain ⟨order, cached⟩ := same.cached
  by_cases inside : index < pipe.buffers.length
  · by_cases live : pipe.first ≤ index
    · obtain ⟨buffers, got, length, moved⟩ := cached.getBuffer_live live inside
      exact Session.leaves_of got (same.trans ⟨rfl, rfl, length, _, moved⟩)
    · exact Session.leaves_of (cached.getBuffer_discarded (Nat.lt_of_not_le live) inside) same
  · exact Session.leaves_of (perform_getBuffer_past (Nat.le_of_not_lt inside)) same

theorem SameEnd.join (indices : List Nat) {start pipe : InputPipe κ}
    (same : SameEnd content start pipe) :
    Session.Leaves (SameEnd content start) (join indices) pipe := by
  induction indices generalizing pipe with
  | nil => exact same
  | cons index indices induction =>
      refine (same.getBuffer index).bind (fun _ kept => kept) fun _ _ got => ?_
      exact (induction got).bind (fun _ kept => kept) fun _ _ joined => joined

theorem SameEnd.flush {start pipe : InputPipe κ} (same : SameEnd content start pipe) :
    Session.Leaves (SameEnd content start) flush pipe := by
  obtain ⟨order, cached⟩ := same.cached
  obtain ⟨buffers, first, flushed, length, -, kept⟩ := cached.perform_flush
  exact Session.leaves_of flushed (same.trans ⟨rfl, rfl, length, _, kept⟩)

/-! How the pipe stands to the content: it has taken whole blocks so far, all of them
cached, or it has taken the last, shorter one, and knows the size. -/

inductive Taken (content : List UInt8) (pipe : InputPipe κ) : Prop
  | whole (input_eq : pipe.input = content.drop (65536 * pipe.buffers.length))
      (fits : 65536 * pipe.buffers.length ≤ content.length)
      (known : ∀ size ∈ pipe.size, size = content.length)
  | ended (input_eq : pipe.input = []) (known : pipe.size = some content.length)
      (short : 65536 * pipe.buffers.length ≠ content.length)

theorem Taken.of_sameEnd {before after : InputPipe κ} (taken : Taken content before)
    (same : SameEnd content before after) : Taken content after := by
  cases taken with
  | whole input fits known =>
      refine .whole ?_ ?_ ?_
      · rw [same.input_eq, same.length_eq, input]
      · rw [same.length_eq]
        exact fits
      · rw [same.size_eq]
        exact known
  | ended input known short =>
      refine .ended ?_ ?_ ?_
      · rw [same.input_eq, input]
      · rw [same.size_eq, known]
      · rw [same.length_eq]
        exact short

theorem Taken.known {pipe : InputPipe κ} (taken : Taken content pipe) :
    ∀ size ∈ pipe.size, size = content.length := by
  cases taken with
  | whole _ _ known => exact known
  | ended _ known _ =>
      intro size mem
      rw [known] at mem
      exact (Option.some.inj mem).symm

structure Tracked (content : List UInt8) (pipe : InputPipe κ) : Prop where
  cached : ∃ order, Cached content pipe order
  taken : Taken content pipe

theorem new_tracked (content : List UInt8) (client : κ) : Tracked content (new content client) where
  cached := ⟨[], (new_valid content client).toCached⟩
  taken := .whole rfl (Nat.zero_le _) (fun _ mem => nomatch mem)

/-! A call leaves the size as it was known before it. -/

structure Learned (content : List UInt8) (before after : InputPipe κ) : Prop where
  tracked : Tracked content after
  same : ∀ size ∈ before.size, after.size = some size

theorem Tracked.of_end {pipe : InputPipe κ} {order : List Nat}
    (cached : Cached content pipe order) (input : pipe.input = [])
    (fits : 65536 * pipe.buffers.length ≤ content.length)
    (known : pipe.size = some content.length) : Tracked content pipe := by
  refine ⟨⟨order, cached⟩, ?_⟩
  by_cases whole : 65536 * pipe.buffers.length = content.length
  · refine .whole ?_ fits ?_
    · rw [input, whole, List.drop_length]
    · intro size mem
      rw [known] at mem
      exact (Option.some.inj mem).symm
  · exact .ended input known whole

theorem notify_leaves (setSize : Option (SetSize κ)) (size : Nat) (pipe : InputPipe κ) :
    Session.Leaves (fun told => ∃ client, told = { pipe with client := client })
      (notify setSize size) pipe := by
  cases setSize with
  | none => exact ⟨pipe.client, rfl⟩
  | some callback =>
      refine Session.leaves_bind_ok (Session.perform_get pipe) ?_
      refine Session.leaves_bind_ok (Session.perform_set _ _) ?_
      cases (callback size pipe).1 with
      | ok _ => exact ⟨_, rfl⟩
      | error failure => exact ⟨_, rfl⟩

theorem fill_learned (setSize : Option (SetSize κ)) (turns : Nat) {start pipe : InputPipe κ}
    {order : List Nat} (cached : Cached content pipe order)
    (input : pipe.input = content.drop (65536 * pipe.buffers.length))
    (fits : 65536 * pipe.buffers.length ≤ content.length)
    (known : ∀ size ∈ pipe.size, size = content.length)
    (same : ∀ size ∈ start.size, pipe.size = some size) :
    Session.Leaves (Learned content start) (fill setSize turns) pipe := by
  induction turns generalizing pipe order with
  | zero => exact ⟨⟨⟨order, cached⟩, .whole input fits known⟩, same⟩
  | succ turns induction =>
      have data : pipe.input.take 65536 = block content pipe.buffers.length := by
        rw [input, block, slice]
      have dataLength : (block content pipe.buffers.length).length =
          min 65536 (content.length - 65536 * pipe.buffers.length) := by
        rw [block, slice, List.length_take, List.length_drop]
      have stays : ∀ size ∈ start.size, some content.length = some size := fun size mem =>
        congrArg some (known size (same size mem)).symm
      rw [fill]
      refine Session.leaves_bind_ok (perform_readInput _ _) ?_
      rw [blockLength, data]
      by_cases short : (block content pipe.buffers.length).length < 65536
      · -- the last chunk
        have whole : (pipe.buffers.length <<< bufferSize) +
            (block content pipe.buffers.length).length = content.length := by
          rw [shiftLeft_bufferSize]
          omega
        have empty : pipe.input.drop 65536 = [] := by
          rw [input, List.drop_drop]
          exact List.drop_eq_nil_of_le (by omega)
        rw [if_pos short]
        refine Session.leaves_bind_ok (Session.perform_get _) ?_
        dsimp only
        rw [whole]
        refine Session.leaves_bind_ok (Session.perform_set _ _) ?_
        have ended : ∀ client, Learned content start
            { pipe with
              input := pipe.input.drop 65536
              size := some content.length
              client := client } := fun client =>
          ⟨.of_end { cached with } empty fits rfl, stays⟩
        refine (notify_leaves setSize content.length _).bind ?_ ?_
        · rintro _ ⟨client, rfl⟩
          exact ended client
        · rintro _ _ ⟨client, rfl⟩
          by_cases nothing : block content pipe.buffers.length = []
          · rw [if_neg (not_not_intro nothing)]
            exact ended client
          · rw [if_pos nothing]
            have before : Cached content
                { pipe with
                  input := pipe.input.drop 65536
                  size := some content.length
                  client := client } order := { cached with }
            obtain ⟨buffers, run, length, added⟩ := before.perform_append rfl
            refine Session.leaves_of run ⟨⟨⟨_, added⟩, .ended empty rfl ?_⟩, stays⟩
            dsimp only at length ⊢
            omega
      · rw [if_neg short]
        have before : Cached content { pipe with input := pipe.input.drop 65536 } order :=
          { cached with }
        obtain ⟨buffers, run, length, added⟩ := before.perform_append rfl
        dsimp only at length
        refine Session.leaves_bind_ok run (induction added ?_ ?_ known same)
        · dsimp only
          rw [input, List.drop_drop, length]
          congr 1
        · dsimp only
          omega

/-! `read`: what comes after the loop over the missing blocks keeps the size. -/

theorem finish_sameEnd {filled : InputPipe κ} (cached : ∃ order, Cached content filled order)
    (indices : List Nat) (offset size : Nat) :
    Session.Leaves (SameEnd content filled) (do
      let data ← join indices
      let data := slice data offset size
      flush
      modify fun pipe => { pipe with address := pipe.address + data.length }
      pure data) filled := by
  have start : SameEnd content filled filled := ⟨rfl, rfl, rfl, cached⟩
  refine (start.join indices).bind (fun _ kept => kept) fun _ joined same => ?_
  refine same.flush.bind (fun _ kept => kept) fun _ flushed kept => ?_
  obtain ⟨order, last⟩ := kept.cached
  exact ⟨kept.size_eq, kept.input_eq, kept.length_eq, order, { last with }⟩

theorem Learned.of_sameEnd {start filled done : InputPipe κ}
    (learned : Learned content start filled) (same : SameEnd content filled done) :
    Learned content start done where
  tracked := ⟨same.cached, learned.tracked.taken.of_sameEnd same⟩
  same := fun size mem => by
    rw [same.size_eq]
    exact learned.same size mem

def Covered (content : List UInt8) (pipe : InputPipe κ) : Request → Prop
  | .seek _ => True
  | .read size =>
      (pipe.address + size) / 65536 + 1 ≤ pipe.buffers.length ∨
        65536 * pipe.buffers.length + pipe.input.length = content.length

theorem Tracked.read_learned (setSize : Option (SetSize κ)) {pipe : InputPipe κ}
    (tracked : Tracked content pipe) {size : Nat}
    (covered : Covered content pipe (.read size)) :
    Session.Leaves (Learned content pipe) (read setSize size) pipe := by
  have filled : Session.Leaves (Learned content pipe)
      (fill setSize ((pipe.address + size) / 65536 + 1 - pipe.buffers.length)) pipe := by
    obtain ⟨order, cached⟩ := tracked.cached
    cases tracked.taken with
    | whole input fits known =>
        exact fill_learned setSize _ cached input fits known fun _ mem => mem
    | ended input known short =>
        have inside : (pipe.address + size) / 65536 + 1 ≤ pipe.buffers.length := by
          refine covered.resolve_right ?_
          rw [input]
          exact short
        rw [Nat.sub_eq_zero_of_le inside]
        exact ⟨tracked, fun _ mem => mem⟩
  rw [read]
  refine Session.leaves_bind_ok (Session.perform_get _) ?_
  dsimp only
  rw [shiftRight_bufferSize]
  refine filled.bind (fun _ kept => kept) fun _ state learned => ?_
  have rest := finish_sameEnd learned.tracked.cached (blocks pipe.address size)
    (pipe.address % (1 <<< bufferSize)) size
  exact learned.of_sameEnd rest

-- The input has nothing more to give, and the size is counted from the blocks.
theorem Tracked.read_unlearned (setSize : Option (SetSize κ)) {pipe : InputPipe κ}
    (tracked : Tracked content pipe) {size : Nat}
    (uncovered : ¬ Covered content pipe (.read size)) :
    Session.Leaves (fun after => after.size = some (65536 * pipe.buffers.length) ∧
      65536 * pipe.buffers.length ≠ content.length) (read setSize size) pipe := by
  obtain ⟨order, cached⟩ := tracked.cached
  rw [Covered, not_or] at uncovered
  cases tracked.taken with
  | whole input fits known =>
      refine absurd ?_ uncovered.2
      rw [input, List.length_drop]
      omega
  | ended input known short =>
      obtain ⟨turns, more⟩ : ∃ turns,
          (pipe.address + size) / 65536 + 1 - pipe.buffers.length = turns + 1 :=
        ⟨(pipe.address + size) / 65536 - pipe.buffers.length, by omega⟩
      have filled : Session.Leaves (fun state => state.size = some (65536 * pipe.buffers.length) ∧
          ∃ order, Cached content state order) (fill setSize (turns + 1)) pipe := by
        rw [fill]
        refine Session.leaves_bind_ok (perform_readInput _ _) ?_
        rw [input, List.take_nil, if_pos (by decide)]
        refine Session.leaves_bind_ok (Session.perform_get _) ?_
        dsimp only
        have counted : (pipe.buffers.length <<< bufferSize) + ([] : List UInt8).length =
            65536 * pipe.buffers.length := by
          rw [shiftLeft_bufferSize, List.length_nil, Nat.add_zero, Nat.mul_comm]
        rw [counted]
        refine Session.leaves_bind_ok (Session.perform_set _ _) ?_
        refine (notify_leaves setSize _ _).bind ?_ ?_
        · rintro _ ⟨client, rfl⟩
          exact ⟨rfl, order, { cached with }⟩
        · rintro _ _ ⟨client, rfl⟩
          exact ⟨rfl, order, { cached with }⟩
      rw [read]
      refine Session.leaves_bind_ok (Session.perform_get _) ?_
      dsimp only
      rw [shiftRight_bufferSize, more]
      refine filled.bind (fun _ kept => ⟨kept.1, short⟩) fun _ state kept => ?_
      have rest := finish_sameEnd kept.2 (blocks pipe.address size)
        (pipe.address % (1 <<< bufferSize)) size
      exact ⟨rest.size_eq.trans kept.1, short⟩

/-! Runs of `seek` and `read`. -/

def seekRead (setSize : Option (SetSize κ)) (pipe : InputPipe κ) : Request → InputPipe κ
  | .seek address => (Session.perform (seek address) pipe).2
  | .read size => (Session.perform (read setSize size) pipe).2

structure LearnsSize (content : List UInt8) (setSize : Option (SetSize κ)) (pipe : InputPipe κ)
    (request : Request) : Prop where
  exact_size : ∀ size ∈ (seekRead setSize pipe request).size, size = content.length
  unchanged : ∀ size ∈ pipe.size, (seekRead setSize pipe request).size = some size

theorem Tracked.step (setSize : Option (SetSize κ)) {pipe : InputPipe κ}
    (tracked : Tracked content pipe) {request : Request}
    (covered : Covered content pipe request) :
    Learned content pipe (seekRead setSize pipe request) := by
  cases request with
  | seek address =>
      obtain ⟨order, cached⟩ := tracked.cached
      refine ⟨⟨⟨order, { cached with }⟩, ?_⟩, fun _ mem => mem⟩
      cases tracked.taken with
      | whole input fits known => exact .whole input fits known
      | ended input known short => exact .ended input known short
  | read size => exact tracked.read_learned setSize covered

theorem Tracked.learns_iff (setSize : Option (SetSize κ)) {pipe : InputPipe κ}
    (tracked : Tracked content pipe) (request : Request) :
    LearnsSize content setSize pipe request ↔ Covered content pipe request := by
  constructor
  · intro learns
    cases request with
    | seek address => trivial
    | read size =>
        refine Classical.byContradiction fun uncovered => ?_
        obtain ⟨size_eq, wrong⟩ := tracked.read_unlearned setSize uncovered
        exact wrong (learns.exact_size _ size_eq)
  · intro covered
    have learned := tracked.step setSize covered
    exact ⟨learned.tracked.taken.known, learned.same⟩

/-- The size is learned once in exactly the runs in which no read asks for a block past the
cached ones after the last, shorter chunk was taken from the input. -/
theorem learnsSize_iff (content : List UInt8) (client : κ) (setSize : Option (SetSize κ))
    (requests : List Request) :
    Transition.Guarded (seekRead setSize) (LearnsSize content setSize) (new content client)
        requests ↔
      Transition.Guarded (seekRead setSize) (Covered content) (new content client) requests :=
  Transition.guarded_congr (Tracked content)
    (fun _ request tracked => tracked.learns_iff setSize request)
    (fun _ _ tracked learns => (tracked.step setSize
      ((tracked.learns_iff setSize _).mp learns)).tracked)
    (new_tracked content client) requests

theorem learnsSize_fails :
    ¬ Transition.Guarded (seekRead none) (LearnsSize [1, 2, 3] none) (new [1, 2, 3] ())
      [.read 10, .seek 65536, .read 1] := by
  rintro ⟨-, -, learns, -⟩
  have wrong := learns.exact_size 65536 (by decide)
  cases wrong

end Segvault.Hachoir.InputPipe
