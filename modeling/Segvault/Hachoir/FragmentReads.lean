import Segvault.Transition
import Segvault.Hachoir.FragmentedStream

namespace Segvault.Hachoir

/-! `lowerBound` on a list whose first items meet the condition and the others do
not. -/

theorem lowerBoundLoop_eq {α : Type} {front back : List α} {cmpFunc : α → Bool}
    (below : ∀ item ∈ front, cmpFunc item = true)
    (above : ∀ item ∈ back, cmpFunc item = false) (turns : Nat) {f l : Nat}
    (enough : l ≤ turns) (start : f ≤ front.length) (stop : front.length ≤ f + l)
    (inside : f + l ≤ front.length + back.length) :
    lowerBoundLoop (front ++ back) cmpFunc turns f l = front.length := by
  induction turns generalizing f l with
  | zero =>
      rw [lowerBoundLoop]
      omega
  | succ turns induction =>
      rw [lowerBoundLoop]
      by_cases more : 0 < l
      · have half : l >>> 1 = l / 2 := Nat.shiftRight_eq_div_pow l 1
        rw [if_pos more]
        dsimp only
        rw [half]
        by_cases early : f + l / 2 < front.length
        · have meets : ((front ++ back)[f + l / 2]?).any cmpFunc = true := by
            rw [List.getElem?_append_left early, List.getElem?_eq_getElem early]
            exact below _ (List.getElem_mem early)
          rw [if_pos meets]
          exact induction (by omega) (by omega) (by omega) (by omega)
        · have place : f + l / 2 - front.length < back.length := by omega
          have fails : ((front ++ back)[f + l / 2]?).any cmpFunc = false := by
            rw [List.getElem?_append_right (by omega), List.getElem?_eq_getElem place]
            exact above _ (List.getElem_mem place)
          rw [fails, if_neg Bool.false_ne_true]
          exact induction (by omega) start (by omega) (by omega)
      · rw [if_neg more]
        omega

theorem lowerBound_eq {α : Type} {front back : List α} {cmpFunc : α → Bool}
    (below : ∀ item ∈ front, cmpFunc item = true)
    (above : ∀ item ∈ back, cmpFunc item = false) :
    lowerBound (front ++ back) cmpFunc = front.length := by
  have length : (front ++ back).length = front.length + back.length := List.length_append
  exact lowerBoundLoop_eq below above _ (Nat.le_refl _) (Nat.zero_le _) (by omega)
    (by omega)

/-! A stream that reads a content, while it keeps an invariant. -/

structure Readable {σ : Type} (content : List UInt8) (methods : StreamMethods σ)
    (holds : σ → Prop) : Prop where
  read : ∀ stream, holds stream → ∀ address size, 0 < size →
    address + size ≤ 8 * content.length →
    Session.Gives holds (methods.read address size) stream
      (.ok (address % 8,
        slice content (address / 8) ((size + address % 8 + 7) / 8), false))
  sizeGe : ∀ stream, holds stream → ∀ size, size ≤ 8 * content.length →
    Session.Gives holds (methods.sizeGe size) stream (.ok true)

theorem StringInputStream.readable (content : List UInt8) :
    Readable content StringInputStream.methods fun stream => stream.data = content where
  read := fun stream same address size _ inside => by
    refine ⟨stream, same, ?_⟩
    refine (Session.perform_bind_ok (Session.perform_get stream)).trans ?_
    rw [read_eq (by rw [same]; exact inside), same]
    rfl
  sizeGe := fun stream same size inside => by
    refine ⟨stream, same, ?_⟩
    have current : Session.perform
        (do let stream ← get; pure (8 * stream.data.length)) stream =
          ((.ok (8 * stream.data.length), stream) : Except Failure Nat × _) := rfl
    rw [StringInputStream.methods]
    dsimp only
    rw [InputStream.sizeGe, Session.perform_bind_ok current,
      if_pos (by rw [same]; exact inside)]
    rfl

namespace FragmentedStream

/-! The fragments one after the other. -/

def concatenation (content : List UInt8) (parts : List DataField) : List UInt8 :=
  parts.flatMap fun data => slice content (data.absoluteAddress / 8) (data.size / 8)

def totalSize (parts : List DataField) : Nat :=
  (parts.map DataField.size).sum

structure Aligned (content : List UInt8) (data : DataField) : Prop where
  address : data.absoluteAddress % 8 = 0
  size : data.size % 8 = 0
  positive : 0 < data.size
  inside : data.absoluteAddress + data.size ≤ 8 * content.length

def placed : Nat → List DataField → List (Nat × Nat × Nat)
  | _, [] => []
  | a, data :: rest =>
      (a, data.absoluteAddress, data.size) :: placed (a + data.size) rest

variable {σ : Type} {content : List UInt8} {parts : List DataField}

@[simp] theorem totalSize_nil : totalSize [] = 0 := rfl

@[simp] theorem totalSize_cons (data : DataField) (rest : List DataField) :
    totalSize (data :: rest) = data.size + totalSize rest := by
  rw [totalSize, List.map_cons, List.sum_cons]
  rfl

theorem totalSize_append (front back : List DataField) :
    totalSize (front ++ back) = totalSize front + totalSize back := by
  rw [totalSize, List.map_append, List.sum_append]
  rfl

theorem placed_append (a : Nat) (front back : List DataField) :
    placed a (front ++ back) = placed a front ++ placed (a + totalSize front) back := by
  induction front generalizing a with
  | nil => rfl
  | cons data rest induction =>
      rw [List.cons_append, placed, placed, induction, totalSize_cons, List.cons_append,
        Nat.add_assoc]

theorem length_placed (a : Nat) (parts : List DataField) :
    (placed a parts).length = parts.length := by
  induction parts generalizing a with
  | nil => rfl
  | cons data rest induction => rw [placed, List.length_cons, induction, List.length_cons]

theorem placed_range {a : Nat} {item : Nat × Nat × Nat}
    (aligned : ∀ data ∈ parts, Aligned content data) (mem : item ∈ placed a parts) :
    a ≤ item.1 ∧ item.1 < a + totalSize parts := by
  induction parts generalizing a with
  | nil => cases mem
  | cons data rest induction =>
      have positive := (aligned data (List.mem_cons_self ..)).positive
      rw [placed, List.mem_cons] at mem
      rw [totalSize_cons]
      cases mem with
      | inl here =>
          rw [here]
          omega
      | inr there =>
          have later := induction (fun data mem => aligned data (List.mem_cons_of_mem _ mem))
            there
          omega

theorem concatenation_cons (content : List UInt8) (data : DataField)
    (rest : List DataField) :
    concatenation content (data :: rest) =
      slice content (data.absoluteAddress / 8) (data.size / 8) ++
        concatenation content rest :=
  List.flatMap_cons

theorem concatenation_append (content : List UInt8) (front back : List DataField) :
    concatenation content (front ++ back) =
      concatenation content front ++ concatenation content back :=
  List.flatMap_append

theorem length_concatenation (aligned : ∀ data ∈ parts, Aligned content data) :
    8 * (concatenation content parts).length = totalSize parts := by
  induction parts with
  | nil => rfl
  | cons data rest induction =>
      have here := aligned data (List.mem_cons_self ..)
      have inside := here.inside
      have size := here.size
      have length := length_slice (by omega :
        data.absoluteAddress / 8 + data.size / 8 ≤ content.length)
      have later := induction fun data mem => aligned data (List.mem_cons_of_mem _ mem)
      rw [concatenation_cons, List.length_append, length, totalSize_cons]
      omega

theorem take_slice_append {content rest : List UInt8} {start count size : Nat}
    (inside : size ≤ count) (fits : start + count ≤ content.length) :
    (slice content start count ++ rest).take size = slice content start size := by
  have length := length_slice fits
  rw [List.take_append_of_le_length (by omega), slice, slice, List.take_take,
    Nat.min_eq_left inside]

/-! The `while` loop of `read`. -/

variable {methods : StreamMethods σ} {holds : σ → Prop}

theorem gives_onStream {α : Type} {action : Session Failure σ α}
    {fragmented : FragmentedStream σ} {value : α}
    (gives : Session.Gives holds action fragmented.stream (.ok value)) :
    ∃ stream, holds stream ∧
      Session.perform (onStream action) fragmented =
        (.ok value, { fragmented with stream := stream }) := by
  obtain ⟨stream, held, run⟩ := gives
  refine ⟨stream, held, ?_⟩
  rw [onStream, Session.perform_bind_ok (Session.perform_get fragmented), run]
  rfl

theorem perform_joinTurn (readable : Readable content methods holds)
    {fragmented : FragmentedStream σ} (held : holds fragmented.stream) {fa fs size : Nat}
    {s : Option Nat} (positive : 0 < size) (nonempty : 0 < fs)
    (inside : fa + fs ≤ 8 * content.length) (shift : s.isSome → fa % 8 = 0) :
    ∃ stream, holds stream ∧
      Session.perform (joinTurn methods fa fs size s) fragmented =
        (.ok (s.getD (fa % 8),
          slice content (fa / 8) ((min fs size + fa % 8 + 7) / 8), size - min fs size),
          { fragmented with stream := stream }) := by
  obtain ⟨stream, next, run⟩ := gives_onStream
    (readable.read fragmented.stream held fa (min fs size) (by omega) (by omega))
  refine ⟨stream, next, ?_⟩
  rw [joinTurn, Session.perform_bind_ok run]
  dsimp only
  rw [if_neg Bool.false_ne_true, if_neg (fun bad => bad.2 (shift bad.1))]
  rfl

theorem perform_joinLoop (readable : Readable content methods holds)
    (more : List DataField) (aligned : ∀ data ∈ more, Aligned content data)
    {fragmented : FragmentedStream σ} (held : holds fragmented.stream)
    {b fa fs size : Nat} {s : Option Nat} (positive : 0 < size) (nonempty : 0 < fs)
    (bounded : size ≤ fs + totalSize more) (boundary : (fa + fs) % 8 = 0)
    (inside : fa + fs ≤ 8 * content.length) (shift : s.isSome → fa % 8 = 0) :
    ∃ stream, holds stream ∧
      Session.perform (joinLoop methods (placed b more) fa fs size s) fragmented =
        (.ok (s.getD (fa % 8),
          (slice content (fa / 8) ((fs + fa % 8) / 8) ++
            concatenation content more).take ((size + fa % 8 + 7) / 8)),
          { fragmented with stream := stream }) := by
  induction more generalizing fragmented b fa fs size s with
  | nil =>
      obtain ⟨stream, next, run⟩ :=
        perform_joinTurn readable held positive nonempty inside shift
      rw [totalSize_nil] at bounded
      have whole : min fs size = size := by omega
      refine ⟨stream, next, ?_⟩
      rw [placed, joinLoop, Session.perform_bind_ok run]
      dsimp only
      rw [whole, if_pos (Nat.sub_self size), take_slice_append (by omega) (by omega)]
      rfl
  | cons data more induction =>
      obtain ⟨stream, next, run⟩ :=
        perform_joinTurn readable held positive nonempty inside shift
      rw [placed, joinLoop, Session.perform_bind_ok run]
      dsimp only
      by_cases last : size ≤ fs
      · have whole : min fs size = size := by omega
        refine ⟨stream, next, ?_⟩
        rw [whole, if_pos (Nat.sub_self size), take_slice_append (by omega) (by omega)]
        rfl
      · have here := aligned data (List.mem_cons_self ..)
        have start := here.address
        have length := here.size
        rw [totalSize_cons] at bounded
        obtain ⟨final, done, rest⟩ := @induction
          (fun data mem => aligned data (List.mem_cons_of_mem _ mem))
          { fragmented with stream := stream } next (b + data.size) data.absoluteAddress
          data.size (size - fs) (some (s.getD (fa % 8))) (by omega) here.positive
          (by omega) (by omega) here.inside (fun _ => start)
        have part : min fs size = fs := by omega
        have bytes : (fs + fa % 8 + 7) / 8 = (fs + fa % 8) / 8 := by omega
        have count : (size + fa % 8 + 7) / 8 =
            (fs + fa % 8) / 8 + (size - fs + 7) / 8 := by omega
        have sliced := length_slice (by omega :
          fa / 8 + (fs + fa % 8) / 8 ≤ content.length)
        have joined := @List.take_length_add_append _
          (slice content (fa / 8) ((fs + fa % 8) / 8))
          (concatenation content (data :: more)) ((size - fs + 7) / 8)
        rw [sliced, ← count] at joined
        refine ⟨final, done, ?_⟩
        rw [part, if_neg (by omega), Session.perform_bind_ok rest, bytes, start, joined,
          concatenation_cons]
        rfl

/-! What holds between two reads: the fragments fed so far, at their places, and
those still linked. -/

structure Fed (content : List UInt8) (parts : List DataField) (holds : σ → Prop)
    (fragmented : FragmentedStream σ) : Prop where
  held : holds fragmented.stream
  split : ∃ front last upcoming, parts = front ++ last :: upcoming ∧
    fragmented.fragments = placed 0 (front ++ [last]) ∧
    fragmented.next = upcoming.map some ∧
    totalSize front ≤ fragmented.currentSize ∧
    fragmented.currentSize ≤ totalSize front + last.size
  size_eq : fragmented.size = none ∨
    fragmented.size = some (totalSize parts) ∧ fragmented.currentSize = totalSize parts

theorem placed_split {parts : List DataField} {address : Nat}
    (inside : address < totalSize parts) :
    ∃ before data after, parts = before ++ data :: after ∧
      totalSize before ≤ address ∧ address < totalSize before + data.size := by
  induction parts generalizing address with
  | nil => cases inside
  | cons data rest induction =>
      by_cases here : address < data.size
      · exact ⟨[], data, rest, rfl, Nat.zero_le _, by rwa [totalSize_nil, Nat.zero_add]⟩
      · rw [totalSize_cons] at inside
        obtain ⟨before, found, after, shape, start, stop⟩ :=
          @induction (address - data.size) (by omega)
        refine ⟨data :: before, found, after, by rw [shape]; rfl, ?_, ?_⟩ <;>
          rw [totalSize_cons] <;> omega

-- The fragment that holds an address, and where the bytes from this address on are.
theorem concatenation_from {before after upcoming : List DataField} {data : DataField}
    (aligned : ∀ part ∈ before ++ data :: after, Aligned content part)
    {address bytes : Nat} (low : totalSize before ≤ address)
    (high : address < totalSize before + data.size)
    (inside : 8 * bytes ≤ totalSize (before ++ data :: after) - address + 7 + address % 8) :
    slice (concatenation content (before ++ data :: after ++ upcoming)) (address / 8) bytes =
      (slice content ((data.absoluteAddress + (address - totalSize before)) / 8)
        ((data.size - (address - totalSize before) +
          (data.absoluteAddress + (address - totalSize before)) % 8) / 8) ++
        concatenation content after).take bytes := by
  have here := aligned data (by simp)
  have early := length_concatenation fun part mem =>
    aligned part (List.mem_append_left _ mem)
  have late := @length_concatenation content after fun part mem =>
    aligned part (List.mem_append_right _ (List.mem_cons_of_mem _ mem))
  have start := here.address
  have size := here.size
  have fits := here.inside
  rw [totalSize_append, totalSize_cons] at inside
  have skip : address / 8 =
      (concatenation content before).length + (address - totalSize before) / 8 := by omega
  have place : (data.absoluteAddress + (address - totalSize before)) / 8 =
      data.absoluteAddress / 8 + (address - totalSize before) / 8 := by omega
  have count : (data.size - (address - totalSize before) +
      (data.absoluteAddress + (address - totalSize before)) % 8) / 8 =
      data.size / 8 - (address - totalSize before) / 8 := by omega
  have sliced := length_slice (by omega :
    data.absoluteAddress / 8 + data.size / 8 ≤ content.length)
  have part : (slice content (data.absoluteAddress / 8) (data.size / 8)).drop
      ((address - totalSize before) / 8) =
      slice content (data.absoluteAddress / 8 + (address - totalSize before) / 8)
        (data.size / 8 - (address - totalSize before) / 8) := by
    rw [slice, slice, List.drop_take, List.drop_drop]
  have dropped := congrArg List.length part
  rw [List.length_drop, sliced] at dropped
  rw [concatenation_append, concatenation_append, concatenation_cons, slice,
    List.append_assoc, List.append_assoc, skip, ← List.drop_drop, List.drop_left,
    List.drop_append_of_le_length (by omega), part, place, count, ← List.append_assoc,
    List.take_append_of_le_length (by rw [List.length_append]; omega)]

theorem Fed.perform_join (readable : Readable content methods holds)
    (aligned : ∀ data ∈ parts, Aligned content data) {fragmented : FragmentedStream σ}
    (fed : Fed content parts holds fragmented) {address size : Nat} (positive : 0 < size)
    (reached : address + size ≤ fragmented.currentSize) (missing : Bool) :
    Session.Gives (Fed content parts holds) (join methods address size missing) fragmented
      (.ok (address % 8,
        slice (concatenation content parts) (address / 8) ((size + address % 8 + 7) / 8),
        missing)) := by
  obtain ⟨front, last, upcoming, shape, fragments, next, start, stop⟩ := fed.split
  have whole : parts = (front ++ [last]) ++ upcoming := by
    rw [shape, List.append_assoc]
    rfl
  have total : totalSize (front ++ [last]) = totalSize front + last.size := by
    rw [totalSize_append, totalSize_cons, totalSize_nil, Nat.add_zero]
  obtain ⟨before, data, after, found, low, high⟩ :=
    placed_split (by omega : address < totalSize (front ++ [last]))
  rw [found] at whole total fragments
  have some : ∀ part ∈ before ++ data :: after, Aligned content part := by
    intro part mem
    rw [whole] at aligned
    exact aligned part (List.mem_append_left _ mem)
  have here := some data (by simp)
  have early := length_concatenation fun part mem =>
    some part (List.mem_append_left _ mem)
  have later : ∀ part ∈ after, Aligned content part := fun part mem =>
    some part (List.mem_append_right _ (List.mem_cons_of_mem _ mem))
  have laid : placed 0 (before ++ data :: after) =
      (placed 0 before ++ [(totalSize before, data.absoluteAddress, data.size)]) ++
        placed (totalSize before + data.size) after := by
    rw [placed_append, Nat.zero_add, placed, List.append_assoc]
    rfl
  have place : lowerBound fragmented.fragments (fun fragment => fragment.1 ≤ address) =
      before.length + 1 := by
    rw [fragments, laid, lowerBound_eq]
    · rw [List.length_append, length_placed]
      rfl
    · intro item mem
      rw [List.mem_append, List.mem_singleton] at mem
      cases mem with
      | inl mem =>
          have bounds := placed_range (fun part mem =>
            some part (List.mem_append_left _ mem)) mem
          simp only [decide_eq_true_eq]
          omega
      | inr same =>
          rw [same]
          simpa using low
    · intro item mem
      have bounds := placed_range later mem
      simp only [decide_eq_false_iff_not]
      omega
  have found : fragmented.fragments[before.length]? =
      .some (totalSize before, data.absoluteAddress, data.size) := by
    rw [fragments, laid, List.append_assoc, List.getElem?_append_right (by
      rw [length_placed]), length_placed, Nat.sub_self]
    rfl
  have rest : fragmented.fragments.drop (before.length + 1) =
      placed (totalSize before + data.size) after := by
    rw [fragments, laid, List.drop_left' (by rw [List.length_append, length_placed]; rfl)]
  have sizes := totalSize_append before (data :: after)
  rw [totalSize_cons] at sizes
  have start := here.address
  have length := here.size
  have fits := here.inside
  obtain ⟨stream, held, run⟩ := @perform_joinLoop _ _ _ _ readable after later fragmented
    fed.held (totalSize before + data.size)
    (data.absoluteAddress + (address - totalSize before))
    (data.size - (address - totalSize before)) size none positive (by omega) (by omega)
    (by omega) (by omega) (fun bad => by cases bad)
  have shift : (data.absoluteAddress + (address - totalSize before)) % 8 = address % 8 := by
    omega
  refine ⟨{ fragmented with stream := stream }, { fed with held := held }, ?_⟩
  rw [join, Session.perform_bind_ok (Session.perform_get _)]
  dsimp only
  rw [place, Nat.add_sub_cancel, found, rest]
  dsimp only
  rw [Session.perform_bind_ok run, whole,
    concatenation_from some low high (by omega), Option.getD_none, shift]
  rfl

/-! `_feed`. -/

theorem perform_setSize {fragmented : FragmentedStream σ}
    (unknown : fragmented.size = none) (positive : 0 < fragmented.currentSize) :
    Session.perform setSize fragmented =
      (.ok ⟨⟩, { fragmented with size := some fragmented.currentSize }) := by
  have nonzero : ¬ fragmented.currentSize = 0 := by omega
  rw [setSize, Session.perform_bind_ok (Session.perform_get _)]
  simp only [unknown, Option.any_none, Bool.false_eq_true, if_false, ne_eq, reduceCtorEq,
    not_false_eq_true, if_true]
  rw [Session.perform_bind_ok (Session.perform_set _ _), if_neg nonzero]
  rfl

theorem perform_ended {fragmented : FragmentedStream σ} (unknown : fragmented.size = none)
    {current : Nat} (positive : 0 < current) :
    Session.perform (ended current) fragmented =
      (.ok true,
        { fragmented with currentSize := current, size := some current }) := by
  have moved : Session.perform (setCurrent current) fragmented =
      (.ok ⟨⟩, { fragmented with currentSize := current }) := rfl
  rw [ended, Session.perform_bind_ok moved,
    Session.perform_bind_ok (@perform_setSize _
      { fragmented with currentSize := current } unknown positive)]
  rfl

theorem perform_feedTurn (readable : Readable content methods holds)
    {fragmented : FragmentedStream σ} (held : holds fragmented.stream)
    (unknown : fragmented.size = none) {stop a fa fs : Nat} (last : Bool)
    (inside : fa + fs ≤ 8 * content.length) (positive : 0 < stop) :
    ∃ stream, holds stream ∧
      Session.perform (feedTurn methods stop last a fa fs) fragmented =
        if stop ≤ a + fs then
          (.ok (some false),
            { fragmented with
              stream := stream
              currentSize := stop
              size := if a + fs = stop ∧ last then some stop else none })
        else (.ok none, { fragmented with stream := stream }) := by
  obtain ⟨stream, next, run⟩ := gives_onStream
    (readable.sizeGe fragmented.stream held (fa + min fs (stop - a)) (by omega))
  refine ⟨stream, next, ?_⟩
  rw [feedTurn, Session.perform_bind_ok run, if_pos rfl]
  by_cases enough : stop ≤ a + fs
  · have moved : Session.perform (setCurrent stop) { fragmented with stream := stream } =
        (.ok ⟨⟩, { fragmented with stream := stream, currentSize := stop }) := rfl
    rw [if_pos enough, if_pos enough, Session.perform_bind_ok moved]
    by_cases final : a + fs = stop ∧ last
    · rw [if_pos final, if_pos final,
        Session.perform_bind_ok (@perform_setSize _
          { fragmented with stream := stream, currentSize := stop } unknown positive)]
      rfl
    · rw [if_neg final, if_neg final, ← unknown]
      rfl
  · rw [if_neg enough, if_neg enough]
    rfl

def Reached (content : List UInt8) (parts : List DataField) (holds : σ → Prop)
    (stop : Nat) (final : FragmentedStream σ) : Prop :=
  Fed content parts holds final ∧ min stop (totalSize parts) ≤ final.currentSize ∧
    (totalSize parts < stop → final.size = some (totalSize parts))

-- The loop stops inside the last fragment fed, or at its end.
theorem Reached.stopped {front upcoming : List DataField} {last : DataField}
    (shape : parts = front ++ last :: upcoming) {stream : σ} (held : holds stream)
    {stop : Nat} (later : totalSize front < stop)
    (enough : stop ≤ totalSize front + last.size) {size : Option Nat}
    (known : size = none ∨ size = some (totalSize parts) ∧ stop = totalSize parts) :
    Reached content parts holds stop
        { stream := stream, fragments := placed 0 (front ++ [last])
          next := upcoming.map some, currentSize := stop, size := size } ∧
      ¬ totalSize parts < stop := by
  have total : totalSize parts = totalSize front + (last.size + totalSize upcoming) := by
    rw [shape, totalSize_append, totalSize_cons]
  have short : ¬ totalSize parts < stop := by omega
  refine ⟨⟨⟨held, ⟨front, last, upcoming, shape, rfl, rfl, Nat.le_of_lt later, enough⟩,
    known⟩, Nat.min_le_left _ _, fun past => absurd past short⟩, short⟩

theorem perform_feedLoop (readable : Readable content methods holds)
    (aligned : ∀ data ∈ parts, Aligned content data) (upcoming : List DataField)
    {front : List DataField} {last : DataField} (shape : parts = front ++ last :: upcoming)
    {before : σ} (held : holds before) {stop : Nat} (later : totalSize front < stop)
    (current : Nat) :
    Session.Gives (Reached content parts holds stop)
      (feedLoop methods stop (upcoming.map some) (totalSize front) last.absoluteAddress
        last.size)
      { stream := before, fragments := placed 0 (front ++ [last])
        next := upcoming.map some, currentSize := current, size := none }
      (.ok (decide (totalSize parts < stop))) := by
  have inside := (aligned last (by rw [shape]; simp)).inside
  have positive := (aligned last (by rw [shape]; simp)).positive
  induction upcoming generalizing front last before with
  | nil =>
      obtain ⟨stream, still, run⟩ := @perform_feedTurn _ _ _ _ readable
        ⟨before, placed 0 (front ++ [last]), [], current, none⟩ held rfl stop
        (totalSize front) _ _ true inside (by omega)
      have total : totalSize parts = totalSize front + last.size := by
        rw [shape, totalSize_append, totalSize_cons, totalSize_nil, Nat.add_zero]
      rw [List.map_nil, feedLoop, Session.Gives]
      by_cases enough : stop ≤ totalSize front + last.size
      · rw [if_pos enough] at run
        rw [Session.perform_bind_ok run]
        have known : (if totalSize front + last.size = stop ∧ true = true then some stop
            else none) = none ∨
            (if totalSize front + last.size = stop ∧ true = true then some stop
              else none) = some (totalSize parts) ∧ stop = totalSize parts := by
          rw [total]
          split
          · next whole => exact .inr ⟨by rw [whole.1], whole.1.symm⟩
          · exact .inl rfl
        obtain ⟨reached, short⟩ := Reached.stopped shape still later enough known
        exact ⟨_, reached, by rw [decide_eq_false short]; rfl⟩
      · rw [if_neg enough] at run
        rw [Session.perform_bind_ok run]
        have ending := @perform_ended _
          ⟨stream, placed 0 (front ++ [last]), [], current, none⟩ rfl
          (totalSize front + last.size) (by omega)
        refine ⟨⟨stream, placed 0 (front ++ [last]), [], totalSize front + last.size,
          some (totalSize front + last.size)⟩,
          ⟨⟨still, ⟨front, last, [], shape, rfl, rfl, ?_, Nat.le_refl _⟩,
          .inr ⟨?_, total.symm⟩⟩, ?_, fun _ => ?_⟩, ending.trans ?_⟩
        · exact Nat.le_add_right _ _
        · rw [total]
        · rw [total]
          exact Nat.min_le_right _ _
        · rw [total]
        · rw [decide_eq_true (by omega : totalSize parts < stop)]
  | cons data upcoming induction =>
      obtain ⟨stream, still, run⟩ := @perform_feedTurn _ _ _ _ readable
        ⟨before, placed 0 (front ++ [last]), (data :: upcoming).map some, current, none⟩
        held rfl stop (totalSize front) _ _ false inside (by omega)
      rw [List.map_cons, feedLoop, Session.Gives]
      by_cases enough : stop ≤ totalSize front + last.size
      · rw [if_pos enough] at run
        rw [List.map_cons] at run
        rw [Session.perform_bind_ok run]
        have other : ¬ (totalSize front + last.size = stop ∧ false = true) := by simp
        obtain ⟨reached, short⟩ := Reached.stopped shape still later enough
          (.inl (if_neg other))
        exact ⟨_, reached, by rw [decide_eq_false short]; rfl⟩
      · rw [if_neg enough] at run
        rw [List.map_cons] at run
        rw [Session.perform_bind_ok run]
        have grown : totalSize (front ++ [last]) = totalSize front + last.size := by
          rw [totalSize_append, totalSize_cons, totalSize_nil, Nat.add_zero]
        have linked := @induction (front ++ [last]) data
          (by rw [shape, List.append_assoc]; rfl) stream still (by omega)
          (aligned data (by rw [shape]; simp)).inside
          (aligned data (by rw [shape]; simp)).positive
        rw [placed_append _ (front ++ [last]), Nat.zero_add, grown] at linked
        exact linked

theorem Fed.feed (readable : Readable content methods holds)
    (aligned : ∀ data ∈ parts, Aligned content data) {fragmented : FragmentedStream σ}
    (fed : Fed content parts holds fragmented) (stop : Nat) :
    Session.Gives (Reached content parts holds stop) (feed methods stop) fragmented
        (.ok (decide (totalSize parts < stop))) ∨
      totalSize parts < stop ∧
        ∃ failure, Session.perform (FragmentedStream.feed methods stop) fragmented =
          (.error failure, fragmented) := by
  obtain ⟨held, ⟨front, last, upcoming, shape, fragments, next, start, stops⟩, known⟩ := fed
  obtain ⟨before, items, links, current, size⟩ := fragmented
  cases fragments
  cases next
  dsimp only at held start stops known
  have total : totalSize parts = totalSize front + (last.size + totalSize upcoming) := by
    rw [shape, totalSize_append, totalSize_cons]
  rw [FragmentedStream.feed, Session.Gives]
  by_cases more : current < stop
  · cases known with
    | inl unknown =>
        cases unknown
        left
        have looped := perform_feedLoop readable aligned upcoming shape held
          (Nat.lt_of_le_of_lt start more) current
        have newest : (placed 0 (front ++ [last])).getLast? =
            some (totalSize front, last.absoluteAddress, last.size) := by
          rw [placed_append, Nat.zero_add]
          exact List.getLast?_concat
        refine Session.gives_bind_ok (Session.perform_get _) ?_
        dsimp only
        rw [if_pos more, checked, if_neg (by simp), newest]
        exact looped
    | inr whole =>
        cases whole.1
        right
        refine ⟨by omega, .readStreamError (stop - current) current none, ?_⟩
        rw [Session.perform_bind_ok (Session.perform_get _)]
        dsimp only
        rw [if_pos more, checked, whole.2, if_pos (by simp)]
        rfl
  · left
    refine ⟨⟨before, placed 0 (front ++ [last]), upcoming.map some, current, size⟩,
      ⟨⟨held, ⟨front, last, upcoming, shape, rfl, rfl, start, stops⟩, known⟩, ?_, ?_⟩, ?_⟩
    · dsimp only
      omega
    · intro past
      omega
    · rw [Session.perform_bind_ok (Session.perform_get _), if_neg more,
        decide_eq_false (by omega)]
      rfl

/-! `read`. -/

theorem Fed.read (readable : Readable content methods holds)
    (aligned : ∀ data ∈ parts, Aligned content data) {fragmented : FragmentedStream σ}
    (fed : Fed content parts holds fragmented) {address size : Nat} (positive : 0 < size)
    (inside : address + size ≤ totalSize parts) :
    Session.Gives (Fed content parts holds) (read methods address size) fragmented
      (.ok (address % 8,
        slice (concatenation content parts) (address / 8) ((size + address % 8 + 7) / 8),
        false)) := by
  rw [FragmentedStream.read, if_neg (by omega)]
  cases fed.feed readable aligned (address + size) with
  | inr past => omega
  | inl gives =>
      refine gives.bind fun fragmented reached => ?_
      rw [decide_eq_false (by omega), if_neg Bool.false_ne_true]
      have enough := reached.2.1
      exact reached.1.perform_join readable aligned positive (by omega) false

-- Whatever is asked for, what holds between two reads holds again.
theorem Fed.after_read (readable : Readable content methods holds)
    (aligned : ∀ data ∈ parts, Aligned content data) {fragmented : FragmentedStream σ}
    (fed : Fed content parts holds fragmented) (address size : Nat) :
    Fed content parts holds
      (Session.perform (FragmentedStream.read methods address size) fragmented).2 := by
  by_cases zero : size = 0
  · rw [FragmentedStream.read, if_pos zero]
    exact fed
  · by_cases inside : address + size ≤ totalSize parts
    · obtain ⟨final, after, run⟩ := fed.read readable aligned (by omega) inside
      rw [run]
      exact after
    · rw [FragmentedStream.read, if_neg zero]
      cases fed.feed readable aligned (address + size) with
      | inr past =>
          obtain ⟨-, failure, raised⟩ := past
          rw [Session.perform_bind_error raised]
          exact fed
      | inl gives =>
          obtain ⟨full, reached, run⟩ := gives
          have whole := reached.2.2 (by omega)
          have enough := reached.2.1
          rw [Session.perform_bind_ok run, decide_eq_true (by omega), if_pos rfl,
            Session.perform_bind_ok (Session.perform_get _), whole]
          dsimp only
          by_cases outside : totalSize parts ≤ address
          · rw [if_pos outside]
            exact reached.1
          · rw [if_neg outside]
            obtain ⟨final, after, joined⟩ := reached.1.perform_join readable aligned
              (by omega : 0 < totalSize parts - address)
              (by omega : address + (totalSize parts - address) ≤ full.currentSize) true
            rw [joined]
            exact after

theorem new_fed {stream : σ} (held : holds stream) {first : DataField}
    {rest : List DataField} (positive : 0 < first.size) {fragmented : FragmentedStream σ}
    (opened : new stream first (rest.map some) = .ok fragmented) :
    Fed content (first :: rest) holds fragmented := by
  cases rest with
  | nil =>
      have set := @perform_setSize _
        ⟨stream, [(0, first.absoluteAddress, first.size)], [], first.size, none⟩ rfl positive
      rw [new, List.map_nil, if_pos rfl] at opened
      dsimp only at opened
      rw [set] at opened
      cases opened
      have total : totalSize [first] = first.size := by
        rw [totalSize_cons, totalSize_nil, Nat.add_zero]
      refine ⟨held, ⟨[], first, [], rfl, rfl, rfl, Nat.zero_le _, ?_⟩, .inr ⟨?_, ?_⟩⟩
      · rw [totalSize_nil, Nat.zero_add]
      · rw [total]
      · rw [total]
  | cons data rest =>
      rw [new, if_neg (by simp)] at opened
      cases opened
      exact ⟨held, ⟨[], first, data :: rest, rfl, rfl, rfl, Nat.le_refl _, Nat.zero_le _⟩,
        .inl rfl⟩

/-! Reads in any order: a request is an address and a size. -/

def step (methods : StreamMethods σ) (fragmented : FragmentedStream σ)
    (request : Nat × Nat) : FragmentedStream σ :=
  (Session.perform (FragmentedStream.read methods request.1 request.2) fragmented).2

theorem reads_concatenation (readable : Readable content methods holds) {stream : σ}
    (held : holds stream) {first : DataField} {rest : List DataField}
    (aligned : ∀ data ∈ first :: rest, Aligned content data)
    {fragmented : FragmentedStream σ}
    (opened : new stream first (rest.map some) = .ok fragmented)
    (history : List (Nat × Nat)) {address size : Nat} (positive : 0 < size)
    (inside : address + size ≤ totalSize (first :: rest)) :
    (Session.perform (FragmentedStream.read methods address size)
        (Transition.run (step methods) fragmented history)).1 =
      StringInputStream.read ⟨concatenation content (first :: rest)⟩ address size := by
  have start : Fed content (first :: rest) holds fragmented :=
    new_fed held (aligned first (List.mem_cons_self ..)).positive opened
  have fed : Fed content (first :: rest) holds
      (Transition.run (step methods) fragmented history) :=
    Transition.run_invariant (Fed content (first :: rest) holds)
      (fun _ request fed => fed.after_read readable aligned request.1 request.2)
      start history
  obtain ⟨final, -, run⟩ := fed.read readable aligned positive inside
  have length := length_concatenation aligned
  rw [run, read_eq (by rw [length]; exact inside)]

theorem reads_concatenation_swapped :
    (Session.perform (FragmentedStream.read StringInputStream.methods 4 8)
        (Transition.run (step StringInputStream.methods)
          ⟨⟨[1, 2, 3]⟩, [(0, 16, 8)], [some ⟨0, 8⟩], 0, none⟩ [(0, 8), (30, 1)])).1 =
      StringInputStream.read ⟨concatenation [1, 2, 3] [⟨16, 8⟩, ⟨0, 8⟩]⟩ 4 8 := by
  refine reads_concatenation (StringInputStream.readable [1, 2, 3])
    (rfl : (⟨[1, 2, 3]⟩ : StringInputStream).data = [1, 2, 3]) ?_ ?_
    [(0, 8), (30, 1)] (by decide) (by decide)
  · intro data mem
    simp only [List.mem_cons, List.not_mem_nil, or_false] at mem
    obtain rfl | rfl := mem <;> constructor <;> decide
  · rfl

-- A read of no bits is refused.
theorem empty_read_differs :
    new (⟨[1]⟩ : StringInputStream) ⟨0, 8⟩ [] =
        .ok ⟨⟨[1]⟩, [(0, 0, 8)], [], 8, some 8⟩ ∧
      0 + 0 ≤ totalSize [⟨0, 8⟩] ∧
      (Session.perform (FragmentedStream.read StringInputStream.methods 0 0)
          ⟨⟨[1]⟩, [(0, 0, 8)], [], 8, some 8⟩).1 ≠
        StringInputStream.read ⟨concatenation [1] [⟨0, 8⟩]⟩ 0 0 := by
  decide

end FragmentedStream

end Segvault.Hachoir
