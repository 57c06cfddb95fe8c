import Mathlib.Data.List.Dedup
import Segvault.Transition
import Segvault.Hachoir.PipeRead

namespace Segvault.Hachoir.InputPipe

variable {κ : Type} {content : List UInt8}

/-! The blocks in the order of their last use. -/

def touchAll (order indices : List Nat) : List Nat :=
  indices.foldl (fun order index => order.erase index ++ [index]) order

theorem dedup_concat (uses : List Nat) (index : Nat) :
    (uses ++ [index]).dedup = uses.dedup.erase index ++ [index] := by
  induction uses with
  | nil => rfl
  | cons head uses induction =>
      rw [List.cons_append, List.dedup_cons, induction, List.dedup_cons]
      by_cases again : head ∈ uses
      · rw [if_pos again, if_pos (List.mem_append_left _ again)]
      · rw [if_neg again]
        by_cases same : head = index
        · subst same
          have absent : head ∉ uses.dedup := List.mem_dedup.not.mpr again
          rw [if_pos (by simp), List.erase_cons_head, List.erase_of_not_mem absent]
        · rw [if_neg (by simp [again, same]),
            List.erase_cons_tail (by simpa using same), List.cons_append]

def Recent (first : Nat) (uses : List Nat) : List Nat :=
  uses.dedup.filter fun index => first ≤ index

theorem recent_touchAll {first : Nat} (uses : List Nat) {indices : List Nat}
    (live : ∀ index ∈ indices, first ≤ index) :
    Recent first (uses ++ indices) = touchAll (Recent first uses) indices := by
  induction indices generalizing uses with
  | nil => rw [List.append_nil]; rfl
  | cons index indices induction =>
      have here : first ≤ index := live index (List.mem_cons_self ..)
      have step : Recent first (uses ++ [index]) =
          (Recent first uses).erase index ++ [index] := by
        rw [Recent, dedup_concat, List.filter_append, Recent,
          ← List.erase_filter]
        congr 1
        exact List.filter_eq_self.mpr (by simpa using here)
      rw [List.append_cons, induction _ fun other mem =>
        live other (List.mem_cons_of_mem _ mem), step]
      rfl

theorem recent_recent {first later : Nat} (uses : List Nat) (le : first ≤ later) :
    (Recent first uses).filter (fun index => later ≤ index) = Recent later uses := by
  rw [Recent, List.filter_filter, Recent]
  refine List.filter_congr fun index _ => ?_
  by_cases live : later ≤ index
  · simp [live, Nat.le_trans le live]
  · simp [live]

theorem touchAll_fresh {order : List Nat} {start count : Nat}
    (old : ∀ index ∈ order, index < start) :
    touchAll order (List.range' start count) = order ++ List.range' start count := by
  induction count generalizing order start with
  | zero => rw [List.range'_zero, List.append_nil]; rfl
  | succ count induction =>
      have absent : start ∉ order := fun mem => Nat.lt_irrefl _ (old start mem)
      rw [List.range'_succ, List.append_cons]
      rw [← @induction (order ++ [start]) (start + 1)]
      · rw [touchAll, List.foldl_cons, List.erase_of_not_mem absent]
        rfl
      · intro index mem
        rw [List.mem_append, List.mem_singleton] at mem
        cases mem with
        | inl early => exact Nat.lt_succ_of_lt (old index early)
        | inr newest => omega

/-! The blocks a read joins. -/

def piece (content : List UInt8) (count index : Nat) : List UInt8 :=
  if index < count then block content index else []

theorem Cached.perform_join (indices : List Nat) {pipe : InputPipe κ} {order : List Nat}
    (cached : Cached content pipe order) (kept : ∀ index ∈ indices, pipe.first ≤ index) :
    ∃ buffers last,
      Session.perform (join indices) pipe =
        (.ok (indices.flatMap (piece content pipe.buffers.length)),
          { pipe with buffers := buffers, last := last }) ∧
      buffers.length = pipe.buffers.length ∧
      Cached content { pipe with buffers := buffers, last := last }
        (touchAll order (indices.filter fun index => index < pipe.buffers.length)) := by
  induction indices generalizing pipe order with
  | nil => exact ⟨pipe.buffers, pipe.last, rfl, rfl, cached⟩
  | cons index indices induction =>
      have here := kept index (List.mem_cons_self ..)
      have later : ∀ other ∈ indices, pipe.first ≤ other := fun other mem =>
        kept other (List.mem_cons_of_mem _ mem)
      by_cases inside : index < pipe.buffers.length
      · obtain ⟨buffers, got, length, moved⟩ := cached.getBuffer_live here inside
        obtain ⟨final, last, joined, finalLength, finalCached⟩ := induction moved later
        dsimp only at joined finalLength finalCached
        rw [length] at joined finalLength finalCached
        refine ⟨final, last, ?_, finalLength, ?_⟩
        · rw [join, Session.perform_bind_ok got, Session.perform_bind_ok joined,
            Session.perform_pure, List.flatMap_cons]
          rw [piece, if_pos inside]
        · rw [List.filter_cons_of_pos (by simpa using inside)]
          exact finalCached
      · obtain ⟨final, last, joined, finalLength, finalCached⟩ := induction cached later
        refine ⟨final, last, ?_, finalLength, ?_⟩
        · rw [join, Session.perform_bind_ok (perform_getBuffer_past (by omega)),
            Session.perform_bind_ok joined, Session.perform_pure, List.flatMap_cons]
          rw [piece, if_neg inside]
        · rw [List.filter_cons_of_neg (by simpa using inside)]
          exact finalCached

theorem flatMap_block (start count : Nat) :
    (List.range' start count).flatMap (block content) =
      slice content (65536 * start) (65536 * count) := by
  induction count generalizing start with
  | zero => rw [List.range'_zero, List.flatMap_nil, Nat.mul_zero, slice, List.take_zero]
  | succ count induction =>
      have more : 65536 * (count + 1) = 65536 + 65536 * count := by omega
      have next : 65536 * (start + 1) = 65536 * start + 65536 := by omega
      rw [List.range'_succ, List.flatMap_cons, induction, block, slice, slice, slice,
        more, List.take_add, List.drop_drop, next]

theorem slice_zero (data : List UInt8) (start : Nat) : slice data start 0 = [] :=
  List.take_zero

theorem joined_blocks {count address size : Nat}
    (enough : (address + size) / 65536 + 1 ≤ count ∨ content.length ≤ 65536 * count) :
    slice ((blocks address size).flatMap (piece content count)) (address % 65536) size =
      slice content address size := by
  by_cases none : size = 0
  · rw [none, slice_zero, slice_zero]
  · have pieces : (blocks address size).flatMap (piece content count) =
        (blocks address size).flatMap (block content) := by
      refine List.flatMap_congr fun index mem => ?_
      rw [piece]
      split
      · rfl
      · next past =>
          simp only [blocks, if_neg (by omega : ¬ address + size = 0),
            shiftRight_bufferSize, List.mem_range'_1] at mem
          have bounded : content.length ≤ 65536 * index := by omega
          rw [block, slice, List.drop_eq_nil_of_le bounded, List.take_nil]
    rw [pieces, blocks, if_neg (by omega), flatMap_block, shiftRight_bufferSize,
      shiftRight_bufferSize, slice_slice _ (by omega)]
    congr 1
    omega

/-! `read`. -/

theorem Valid.of_cached {pipe after : InputPipe κ} {order order' : List Nat}
    (valid : Valid content pipe order) (cached : Cached content after order')
    (length : after.buffers.length = pipe.buffers.length)
    (input : after.input = pipe.input) : Valid content after order' :=
  { cached with
    input_eq := by rw [input, length]; exact valid.input_eq
    reached := by rw [length]; exact valid.reached }

theorem Valid.first_le {pipe : InputPipe κ} {order : List Nat}
    (valid : Valid content pipe order) : pipe.first ≤ pipe.buffers.length := by
  have kept := valid.kept
  omega

def tooSmall : Failure := .inputStreamError buffersTooSmall

structure ReadOk (content : List UInt8) (size : Nat) (pipe filled done : InputPipe κ)
    (order : List Nat) : Prop where
  valid : Valid content done
    ((touchAll order
      ((blocks pipe.address size).filter fun index => index < filled.buffers.length)).filter
        fun index => done.first ≤ index)
  length_eq : done.buffers.length = filled.buffers.length
  later : pipe.first ≤ done.first
  address_eq : done.address = pipe.address + (slice content pipe.address size).length
  client_eq : done.client = filled.client
  live : ∀ index ∈ blocks pipe.address size, pipe.first ≤ index
  kept : 0 < size → pipe.address + size ≤ content.length →
    done.first ≤ (pipe.address + size - 1) / 65536

theorem touchAll_last (order indices : List Nat) (index : Nat) :
    (touchAll order (indices ++ [index])).getLast? = some index := by
  rw [touchAll, List.foldl_append, List.foldl_cons, List.foldl_nil,
    List.getLast?_concat]

-- The last block of a read.
theorem blocks_concat {address size count : Nat} (positive : 0 < size)
    (cached : (address + size) / 65536 + 1 ≤ count ∨
      content.length ≤ 65536 * count) (inside : address + size ≤ content.length) :
    ∃ indices, (blocks address size).filter (fun index => index < count) =
      indices ++ [(address + size - 1) / 65536] := by
  have all : ∀ index ∈ blocks address size, index < count := by
    intro index mem
    rw [blocks, if_neg (by omega), shiftRight_bufferSize, shiftRight_bufferSize,
      List.mem_range'_1] at mem
    omega
  have length : (address + size - 1) / 65536 + 1 - address / 65536 =
      ((address + size - 1) / 65536 - address / 65536) + 1 := by
    omega
  refine ⟨List.range' (address / 65536)
    ((address + size - 1) / 65536 - address / 65536), ?_⟩
  rw [List.filter_eq_self.mpr (by simpa using all), blocks, if_neg (by omega),
    shiftRight_bufferSize, shiftRight_bufferSize, length, List.range'_concat]
  congr 2
  omega

theorem Valid.perform_read {setSize : Option (SetSize κ)} (size : Nat)
    {pipe : InputPipe κ} {order : List Nat} (valid : Valid content pipe order)
    (quiet : Quiet content setSize pipe) :
    ∃ filled,
      Filled content setSize
        ((pipe.address + size) / 65536 + 1 - pipe.buffers.length) pipe order filled ∧
      ((∃ done,
          Session.perform (read setSize size) pipe =
            (.ok (slice content pipe.address size), done) ∧
          ReadOk content size pipe filled done
            (order ++ List.range' pipe.buffers.length
              (filled.buffers.length - pipe.buffers.length))) ∨
        Session.perform (read setSize size) pipe = (.error tooSmall, filled) ∧
          pipe.address / 65536 < pipe.first) := by
  obtain ⟨filled, loop, spec⟩ := valid.perform_fill
    ((pipe.address + size) / 65536 + 1 - pipe.buffers.length) quiet
  refine ⟨filled, spec, ?_⟩
  have enough : (pipe.address + size) / 65536 + 1 ≤ filled.buffers.length ∨
      content.length ≤ 65536 * filled.buffers.length := by
    have longer := spec.longer
    have reached := spec.enough
    omega
  have start : ∀ {outcome : Except Failure (List UInt8) × InputPipe κ},
      Session.perform (do
        let data ← join (blocks pipe.address size)
        let data := slice data (pipe.address % 65536) size
        flush
        modify fun pipe => { pipe with address := pipe.address + data.length }
        pure data) filled = outcome →
      Session.perform (read setSize size) pipe = outcome := by
    intro outcome same
    rw [read, Session.perform_bind_ok (Session.perform_get pipe)]
    dsimp only
    rw [shiftRight_bufferSize, Session.perform_bind_ok loop]
    exact same
  by_cases live : ∀ index ∈ blocks pipe.address size, pipe.first ≤ index
  · left
    obtain ⟨buffers, last, joined, length, cached⟩ :=
      spec.valid.toCached.perform_join (blocks pipe.address size) (by
        rw [spec.first_eq]
        exact live)
    obtain ⟨kept, first, flushed, keptLength, later, flushedCached⟩ := cached.perform_flush
    dsimp only at flushed keptLength later flushedCached
    rw [spec.first_eq] at later
    have data := joined_blocks enough
    refine ⟨{ filled with
        buffers := kept
        first := first
        last := last
        address := filled.address + (slice content pipe.address size).length },
      start ?_, ?_, keptLength.trans length, later, ?_, rfl, live, ?_⟩
    · rw [Session.perform_bind_ok joined]
      dsimp only
      rw [data, Session.perform_bind_ok flushed,
        Session.perform_bind_ok (Session.perform_modify _ _), Session.perform_pure]
    · exact spec.valid.of_cached { flushedCached with } (keptLength.trans length) rfl
    · dsimp only
      rw [spec.address_eq]
    · intro positive inside
      obtain ⟨indices, shape⟩ := blocks_concat positive enough inside
      have before := cached.last_eq
      rw [shape, touchAll_last] at before
      have after := flushedCached.last_eq.symm.trans before
      simpa using List.of_mem_filter (List.mem_of_getLast? after)
  · right
    obtain ⟨index, mem, old⟩ : ∃ index ∈ blocks pipe.address size, index < pipe.first := by
      simpa using live
    have range := mem
    rw [blocks, shiftRight_bufferSize, List.mem_range'_1] at range
    refine ⟨start ?_, by omega⟩
    cases shape : blocks pipe.address size with
    | nil => rw [shape] at mem; cases mem
    | cons head rest =>
        have headEq : head = pipe.address / 65536 := by
          rw [blocks, shiftRight_bufferSize] at shape
          generalize (if pipe.address + size = 0 then 0
            else (pipe.address + size - 1) >>> bufferSize + 1) -
              pipe.address / 65536 = count at shape
          cases count with
          | zero => cases shape
          | succ count => exact (List.cons.inj shape).1.symm
        have firstLe := spec.valid.first_le
        rw [spec.first_eq] at firstLe
        have raised := spec.valid.toCached.getBuffer_discarded
          (by rw [spec.first_eq]; omega : head < filled.first) (by omega)
        rw [Session.perform_bind_error]
        rw [join, Session.perform_bind_error raised]
        rfl

/-! Runs of `seek` and `read`, with the blocks used so far: those read from the
input, and those a read that returns has joined. -/

inductive Request
  | seek (address : Nat)
  | read (size : Nat)
  deriving DecidableEq, Repr

structure Trace (κ : Type) where
  pipe : InputPipe κ
  uses : List Nat

def used (before after : InputPipe κ) (outcome : Except Failure (List UInt8))
    (size : Nat) : List Nat :=
  List.range' before.buffers.length (after.buffers.length - before.buffers.length) ++
    match outcome with
    | .ok _ =>
        (blocks before.address size).filter fun index => index < after.buffers.length
    | .error _ => []

theorem used_ok (before after : InputPipe κ) (data : List UInt8) (size : Nat) :
    used before after (.ok data) size =
      List.range' before.buffers.length (after.buffers.length - before.buffers.length) ++
        (blocks before.address size).filter fun index => index < after.buffers.length :=
  rfl

theorem used_error (before after : InputPipe κ) (failure : Failure) (size : Nat) :
    used before after (.error failure) size =
      List.range' before.buffers.length
        (after.buffers.length - before.buffers.length) :=
  List.append_nil _

def Trace.step (setSize : Option (SetSize κ)) (trace : Trace κ) : Request → Trace κ
  | .seek address => { trace with pipe := (Session.perform (seek address) trace.pipe).2 }
  | .read size =>
      let (outcome, pipe) := Session.perform (read setSize size) trace.pipe
      { pipe := pipe, uses := trace.uses ++ used trace.pipe pipe outcome size }

def NeverRaises (setSize : Option (SetSize κ)) : Prop :=
  ∀ callback ∈ setSize, ∀ size pipe, ∃ client, callback size pipe = (.ok (), client)

structure CacheInvariant (content : List UInt8) (setSize : Option (SetSize κ))
    (trace : Trace κ) : Prop where
  live_iff : ∀ index, Live trace.pipe.buffers index ↔
    trace.pipe.first ≤ index ∧ index < trace.pipe.buffers.length
  ring : Ring (nextAt trace.pipe.buffers) (prevAt trace.pipe.buffers)
    (Recent trace.pipe.first trace.uses)
  nodup : (Recent trace.pipe.first trace.uses).Nodup
  mem_iff : ∀ index,
    index ∈ Recent trace.pipe.first trace.uses ↔ Live trace.pipe.buffers index
  last_eq : trace.pipe.last = (Recent trace.pipe.first trace.uses).getLast?
  read_eq : ∀ size,
    (Session.perform (read setSize size) trace.pipe).1 =
        .ok (slice content trace.pipe.address size) ∨
      (Session.perform (read setSize size) trace.pipe).1 = .error tooSmall ∧
        trace.pipe.address / 65536 < trace.pipe.first

theorem quiet_of_neverRaises {setSize : Option (SetSize κ)}
    (never : NeverRaises setSize) (content : List UInt8) (pipe : InputPipe κ) :
    Quiet content setSize pipe :=
  fun callback mem size caller _ _ _ _ => never callback mem size caller

theorem Valid.recent_fill {pipe : InputPipe κ} {uses : List Nat}
    (valid : Valid content pipe (Recent pipe.first uses)) (count : Nat) :
    Recent pipe.first uses ++ List.range' pipe.buffers.length count =
      Recent pipe.first (uses ++ List.range' pipe.buffers.length count) := by
  have firstLe := valid.first_le
  rw [recent_touchAll, touchAll_fresh]
  · exact fun index mem => ((valid.mem_iff index).mp mem).2
  · intro index mem
    rw [List.mem_range'_1] at mem
    omega

def Trace.Sound (content : List UInt8) (trace : Trace κ) : Prop :=
  Valid content trace.pipe (Recent trace.pipe.first trace.uses)

theorem Trace.Sound.step {setSize : Option (SetSize κ)} (never : NeverRaises setSize)
    {trace : Trace κ} (sound : trace.Sound content) (request : Request) :
    (trace.step setSize request).Sound content := by
  cases request with
  | seek address => exact { sound with }
  | read size =>
      obtain ⟨filled, spec, result⟩ :=
        Valid.perform_read size sound (quiet_of_neverRaises never content _)
      have recent := Valid.recent_fill sound
        (filled.buffers.length - trace.pipe.buffers.length)
      cases result with
      | inl returned =>
          obtain ⟨done, run, ok⟩ := returned
          have final := ok.valid
          have live : ∀ index ∈ (blocks trace.pipe.address size).filter
              (fun index => index < filled.buffers.length), trace.pipe.first ≤ index :=
            fun index mem => ok.live index (List.mem_of_mem_filter mem)
          rw [recent, ← recent_touchAll _ live, recent_recent _ ok.later,
            List.append_assoc] at final
          rw [Trace.Sound, Trace.step, run]
          dsimp only
          rw [used_ok, ok.length_eq]
          exact final
      | inr raised =>
          have final := spec.valid
          rw [recent, ← spec.first_eq] at final
          rw [Trace.Sound, Trace.step, raised.1]
          dsimp only
          rw [used_error]
          exact final

end Segvault.Hachoir.InputPipe
