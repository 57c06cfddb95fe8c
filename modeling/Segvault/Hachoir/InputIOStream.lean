import Segvault.Hachoir.PipeRuns
import Segvault.Hachoir.SearchBytes

namespace Segvault.Hachoir

/-! `InputIOStream` over an `InputPipe`, with no size given. The client of the pipe
is the `_size` of the stream. -/

abbrev PipeStream := InputPipe (Option Nat)

namespace PipeStream

-- The property `_current_size`.
def bitSize (pipe : PipeStream) : Nat :=
  if truthy pipe.client then pipe.client.getD 0
  else if truthy pipe.size then 8 * pipe.size.getD 0
  else 8 * InputPipe.currentSize pipe

-- `InputStream._setSize`, for a stream no client has asked the size of.
def setSize : SetSize (Option Nat) := fun _ pipe =>
  let current := bitSize pipe
  if pipe.client.isSome && decide (pipe.client.getD 0 < current) then
    (.error .assertionError, pipe.client)
  else if pipe.client ≠ some current then
    if current = 0 then (.error .nullStreamError, some current)
    else (.ok (), some current)
  else (.ok (), pipe.client)

def knownSize : Session Failure PipeStream (Option Nat) := do
  let pipe ← get
  pure pipe.client

def read (address size : Nat) : Session Failure PipeStream Chunk := do
  if size = 0 then throw .assertionError
  let known ← knownSize
  let shift := address % 8
  let address := address / 8
  InputPipe.seek address
  let size := (size + shift + 7) >>> 3
  let data ← InputPipe.read (some setSize) size
  let got := data.length
  let missing := decide (size ≠ got)
  let after ← knownSize
  if missing && decide (known = after) then
    throw (.readStreamError (8 * size) (8 * address) (some (8 * got)))
  pure (shift, data, missing)

def readBytes (address nbBytes : Nat) : Session Failure PipeStream (List UInt8) :=
  InputStream.readBytes read address nbBytes

def searchBytes (needle : List UInt8) (turns start : Nat) (stop : Option Nat) :
    Session Failure PipeStream (Option Nat) :=
  InputStream.searchBytes read knownSize needle turns start stop

/-! What holds of the stream between two requests. -/

structure Sound (content : List UInt8) (pipe : PipeStream) : Prop where
  valid : ∃ order, InputPipe.Valid content pipe order
  size_eq : pipe.client = none ∧ 65536 * pipe.buffers.length ≤ content.length ∨
    pipe.client = some (8 * content.length)

variable {content : List UInt8}

theorem setSize_known {size : Nat} {pipe : PipeStream} (nonempty : content ≠ [])
    (known : pipe.client = some (8 * content.length)) :
    setSize size pipe = (.ok (), some (8 * content.length)) := by
  have positive : 0 < content.length := List.length_pos_of_ne_nil nonempty
  have current : bitSize pipe = 8 * content.length := by
    rw [bitSize, known, if_pos (truthy_some (by omega)), Option.getD_some]
  simp only [setSize, current, known]
  simp

theorem setSize_found {size : Nat} {pipe : PipeStream} (nonempty : content ≠ [])
    (unknown : pipe.client = none) (ended : pipe.size = some content.length) :
    setSize size pipe = (.ok (), some (8 * content.length)) := by
  have positive : 0 < content.length := List.length_pos_of_ne_nil nonempty
  have current : bitSize pipe = 8 * content.length := by
    rw [bitSize, unknown, if_neg (by decide), ended,
      if_pos (truthy_some (by omega)), Option.getD_some]
  have nonzero : 8 * content.length ≠ 0 := by omega
  simp only [setSize, current, unknown]
  simp [nonzero]

theorem Sound.quiet {pipe : PipeStream} (sound : Sound content pipe)
    (nonempty : content ≠ []) : InputPipe.Quiet content (some setSize) pipe := by
  intro callback mem size caller client known long whole
  cases Option.mem_some_iff.mp mem
  cases sound.size_eq with
  | inl unknown =>
      rw [whole unknown.2] at known
      exact ⟨_, setSize_found nonempty (client.trans unknown.1) known⟩
  | inr found => exact ⟨_, setSize_known nonempty (client.trans found)⟩

theorem tell_known {size : Nat} {pipe : PipeStream} (nonempty : content ≠ [])
    (known : pipe.client = some (8 * content.length)) :
    InputPipe.tell (some setSize) size pipe = some (8 * content.length) := by
  rw [InputPipe.tell, setSize_known nonempty known]

theorem tell_found {size : Nat} {pipe : PipeStream} (nonempty : content ≠ [])
    (unknown : pipe.client = none) (ended : pipe.size = some content.length) :
    InputPipe.tell (some setSize) size pipe = some (8 * content.length) := by
  rw [InputPipe.tell, setSize_found nonempty unknown ended]

-- Whether reading up to `stop` meets the end of the input.
def Reaches (content : List UInt8) (stop : Nat) : Prop :=
  content.length < 65536 * (stop / 65536 + 1)

instance (content : List UInt8) (stop : Nat) : Decidable (Reaches content stop) :=
  inferInstanceAs (Decidable (_ < _))

theorem Sound.filled {pipe filled : PipeStream} {order : List Nat} {stop : Nat}
    (sound : Sound content pipe) (nonempty : content ≠ [])
    (spec : InputPipe.Filled content (some setSize)
      (stop / 65536 + 1 - pipe.buffers.length) pipe order filled) :
    (filled.client = none ∧ 65536 * filled.buffers.length ≤ content.length ∨
        filled.client = some (8 * content.length)) ∧
      (filled.client = none ↔ pipe.client = none ∧ ¬ Reaches content stop) := by
  unfold Reaches
  have longer := spec.longer
  cases sound.size_eq with
  | inl unknown =>
      cases spec.told with
      | inl silent =>
          have same := silent.1.trans unknown.1
          refine ⟨.inl ⟨same, by omega⟩, ?_⟩
          simp only [same, unknown.1, true_and, true_iff]
          omega
      | inr told =>
          obtain ⟨past, size, caller, client, known, -, whole, told⟩ := told
          rw [whole unknown.2] at known
          rw [tell_found nonempty (client.trans unknown.1) known] at told
          refine ⟨.inr told, ?_⟩
          simp only [told, unknown.1, true_and, reduceCtorEq, false_iff]
          omega
  | inr found =>
      have same : filled.client = some (8 * content.length) := by
        cases spec.told with
        | inl silent => exact silent.1.trans found
        | inr told =>
            obtain ⟨-, size, caller, client, -, -, -, told⟩ := told
            rw [told, tell_known nonempty (client.trans found)]
      refine ⟨.inr same, ?_⟩
      simp [same, found]

theorem Sound.read {pipe : PipeStream} (sound : Sound content pipe)
    (nonempty : content ≠ []) {address size : Nat} (positive : 0 < size)
    (inside : address + size ≤ 8 * content.length)
    (cached : pipe.first ≤ address / 8 / 65536) :
    ∃ final, Sound content final ∧
      final.first ≤ (address / 8 + (size + address % 8 + 7) / 8) / 65536 ∧
      (final.client = none ↔ pipe.client = none ∧
        ¬ Reaches content (address / 8 + (size + address % 8 + 7) / 8)) ∧
      Session.perform (read address size) pipe =
        (.ok (address % 8,
          slice content (address / 8) ((size + address % 8 + 7) / 8), false), final) := by
  obtain ⟨order, valid⟩ := sound.valid
  have sought : Sound content { pipe with address := address / 8 } :=
    ⟨⟨order, { valid with }⟩, sound.size_eq⟩
  have validSought : InputPipe.Valid content { pipe with address := address / 8 } order :=
    { valid with }
  have bytes : (size + address % 8 + 7) >>> 3 = (size + address % 8 + 7) / 8 :=
    Nat.shiftRight_eq_div_pow _ 3
  have bounded : address / 8 + (size + address % 8 + 7) / 8 ≤ content.length := by omega
  have some : 0 < (size + address % 8 + 7) / 8 := by omega
  have length := length_slice bounded
  rw [← bytes] at length bounded some ⊢
  obtain ⟨filled, spec, result⟩ := validSought.perform_read
    ((size + address % 8 + 7) >>> 3) (sought.quiet nonempty)
  have known := sought.filled nonempty spec
  cases result with
  | inl returned =>
      obtain ⟨done, run, ok⟩ := returned
      have kept := ok.kept some bounded
      refine ⟨done, ⟨⟨_, ok.valid⟩, ?_⟩, by dsimp only at kept; omega, ?_, ?_⟩
      · rw [ok.client_eq, ok.length_eq]
        exact known.1
      · rw [ok.client_eq]
        exact known.2
      · rw [PipeStream.read, if_neg (by omega)]
        refine (Session.perform_bind_ok (Session.perform_get pipe)).trans ?_
        refine (Session.perform_bind_ok (Session.perform_modify _ _)).trans ?_
        refine (Session.perform_bind_ok run).trans ?_
        simp only [length]
        refine (Session.perform_bind_ok (Session.perform_get done)).trans ?_
        simp
  | inr raised => exact absurd raised.2 (Nat.not_lt.mpr cached)

/-! The stream reads the content from a place on while the blocks from this place
are cached. -/

def From (content : List UInt8) (place : Nat) (pipe : PipeStream) : Prop :=
  Sound content pipe ∧ pipe.first ≤ place / 65536

theorem From.read {pipe : PipeStream} {start : Nat} (cached : From content start pipe)
    (nonempty : content ≠ []) {size : Nat} (positive : 0 < size)
    (inside : start + size ≤ content.length) :
    ∃ final, From content (start + size) final ∧
      (final.client = none ↔ pipe.client = none ∧ ¬ Reaches content (start + size)) ∧
      Session.perform (PipeStream.read (8 * start) (8 * size)) pipe =
        (.ok (0, slice content start size, false), final) := by
  have bytes : (8 * size + 8 * start % 8 + 7) / 8 = size := by omega
  have place : 8 * start / 8 = start := by omega
  have aligned : 8 * start % 8 = 0 := by omega
  obtain ⟨final, sound, kept, known, run⟩ := cached.1.read nonempty
    (by omega : 0 < 8 * size) (by omega : 8 * start + 8 * size ≤ 8 * content.length)
    (by rw [place]; exact cached.2)
  rw [bytes, place] at kept known run
  rw [aligned] at run
  exact ⟨final, ⟨sound, kept⟩, known, run⟩

theorem reads (nonempty : content ≠ []) :
    Reads content PipeStream.read knownSize (From content) where
  chunk := fun pipe start cached size positive inside => by
    obtain ⟨final, later, -, run⟩ := cached.read nonempty positive inside
    exact ⟨final, later, run⟩
  size := fun pipe => ⟨pipe.client, rfl⟩

theorem From.readBytes {pipe : PipeStream} {start : Nat} (cached : From content start pipe)
    (nonempty : content ≠ []) {size : Nat} (positive : 0 < size)
    (inside : start + size ≤ content.length) :
    ∃ final, From content (start + size) final ∧
      (final.client = none ↔ pipe.client = none ∧ ¬ Reaches content (start + size)) ∧
      Session.perform (InputStream.readBytes PipeStream.read (8 * start) size) pipe =
        (.ok (slice content start size), final) := by
  obtain ⟨final, later, known, run⟩ := cached.read nonempty positive inside
  exact ⟨final, later, known, Session.perform_bind_ok run⟩

/-! A search while the size is not known. The chunk that ends at `stop` is the
first one that meets the end of the input; the chunks before it, `more` of them, do
not. -/

def FoundWell (content needle : List UInt8) (first size stop : Nat) : Prop :=
  searched content needle first (stop - size) ≠ none ∨ stop = content.length ∨
    stop < content.length ∧ searched content needle first content.length = none

instance (content needle : List UInt8) (first size stop : Nat) :
    Decidable (FoundWell content needle first size stop) :=
  inferInstanceAs (Decidable (_ ∨ _ ∨ _))

theorem searchLoop_ended {needle : List UInt8} (turns : Nat) {size : Nat}
    (positive : 0 < size) (buffer : List UInt8) (pipe : PipeStream) :
    Session.perform
      (InputStream.searchLoop PipeStream.read knownSize needle (turns + 1)
        (8 * content.length) (some (8 * content.length)) size buffer) pipe =
      (.ok none, pipe) := by
  rw [InputStream.searchLoop]
  dsimp only
  rw [Nat.sub_self, Nat.zero_shiftRight, if_pos ⟨positive, rfl⟩]
  rfl

theorem searchLoop_unknown {needle data buffer : List UInt8} {turns place size : Nat}
    {pipe final : PipeStream}
    (returned : Session.perform (InputStream.readBytes PipeStream.read (8 * place) size)
      pipe = (.ok data, final)) (unknown : final.client = none) :
    Session.perform
      (InputStream.searchLoop PipeStream.read knownSize needle (turns + 1) (8 * place) none
        size buffer) pipe =
      match find (lastBytes buffer needle.length ++ data) needle with
      | some index =>
          (.ok (some (8 * (place + size) -
            ((lastBytes buffer needle.length ++ data).length - index) * 8)), final)
      | none =>
          Session.perform
            (InputStream.searchLoop PipeStream.read knownSize needle turns
              (8 * (place + size)) none size
              (lastBytes buffer needle.length ++ data)) final := by
  have asked : Session.perform knownSize final = (.ok none, final) := by
    rw [← unknown]
    rfl
  rw [InputStream.searchLoop]
  dsimp only
  rw [if_neg (by omega), if_neg (Nat.lt_irrefl size), Session.perform_bind_ok returned,
    Session.perform_bind_ok asked]
  dsimp only [Option.isNone_none]
  rw [if_neg (by simp [truthy])]
  simp only [truthy, Option.isSome_none, Bool.false_and, Bool.and_false,
    Bool.false_eq_true, if_false, ← Nat.mul_add]
  cases find (lastBytes buffer needle.length ++ data) needle <;> rfl

theorem searchLoop_told {needle data buffer : List UInt8} {turns place size : Nat}
    {pipe final : PipeStream}
    (returned : Session.perform (InputStream.readBytes PipeStream.read (8 * place) size)
      pipe = (.ok data, final)) (told : final.client = some (8 * content.length))
    (inside : place < content.length) :
    Session.perform
      (InputStream.searchLoop PipeStream.read knownSize needle (turns + 1) (8 * place) none
        size buffer) pipe =
      match find (lastBytes buffer needle.length ++ data.take (content.length - place))
        needle with
      | some index =>
          (.ok (some (8 * content.length -
            ((lastBytes buffer needle.length ++
              data.take (content.length - place)).length - index) * 8)), final)
      | none =>
          Session.perform
            (InputStream.searchLoop PipeStream.read knownSize needle turns
              (8 * content.length) (some (8 * content.length)) (content.length - place)
              (lastBytes buffer needle.length ++
                data.take (content.length - place))) final := by
  have asked : Session.perform knownSize final =
      (.ok (some (8 * content.length)), final) := by
    rw [← told]
    rfl
  have known := truthy_some (by omega : 8 * content.length ≠ 0)
  have rest : (8 * content.length - 8 * place) >>> 3 = content.length - place := by
    rw [Nat.shiftRight_eq_div_pow]
    omega
  have whole : 8 * place + 8 * (content.length - place) = 8 * content.length := by omega
  rw [InputStream.searchLoop]
  dsimp only
  rw [if_neg (by omega), if_neg (Nat.lt_irrefl size), Session.perform_bind_ok returned,
    Session.perform_bind_ok asked]
  simp only [Option.isNone_none, known, Bool.and_self, if_true, Option.getD_some, rest,
    whole]
  rw [if_neg (by omega)]
  cases find (lastBytes buffer needle.length ++ data.take (content.length - place))
    needle <;> rfl

-- The turn that meets the end of the input.
theorem From.searchLoop_last (nonempty : content ≠ []) {needle : List UInt8}
    {first size place turns : Nat} (positive : 0 < size) (enough : 1 < turns)
    (well : FoundWell content needle first size (place + size))
    (meets : 65536 * (content.length / 65536) ≤ place + size)
    {pipe : PipeStream} (cached : From content place pipe)
    {buffer : List UInt8} (window : Window content needle first place buffer) :
    Session.Gives (Sound content)
      (InputStream.searchLoop PipeStream.read knownSize needle turns (8 * place) none size
        buffer) pipe
      (.ok ((searched content needle first content.length).map fun place => 8 * place)) := by
  have later := window.later
  have missing : searched content needle first (place + size - size) = none := by
    rw [Nat.add_sub_cancel]
    exact searched_eq_none window.inside fun earlier start fits more =>
      window.absent more earlier start fits
  have fits : place + size ≤ content.length := by
    obtain found | whole | short := well
    · exact absurd missing found
    · exact Nat.le_of_eq whole
    · exact Nat.le_of_lt short.1
  obtain ⟨final, after, known, returned⟩ := cached.readBytes nonempty positive fits
  have told : final.client = some (8 * content.length) := by
    have reached : Reaches content (place + size) := by
      unfold Reaches
      omega
    cases after.1.size_eq with
    | inl still => exact absurd reached (known.mp still.1).2
    | inr told => exact told
  have length := length_slice fits
  have whole : (slice content place size).take (content.length - place) =
      slice content place size := List.take_of_length_le (by omega)
  obtain ⟨turns, rfl⟩ : ∃ fewer, turns = fewer + 2 := ⟨turns - 2, by omega⟩
  refine ⟨final, after.1, ?_⟩
  rw [searchLoop_told returned told (by omega), whole]
  cases outcome : find (lastBytes buffer needle.length ++ slice content place size)
      needle with
  | some index =>
      obtain ⟨result, start, inside, occurs, earliest, value⟩ := window.found fits outcome
      have answer : searched content needle first content.length = some result :=
        searched_eq_some (by omega) (Nat.le_refl _) start (by omega) occurs earliest
      have exact_end : place + size = content.length := by
        obtain found | whole | short := well
        · exact absurd missing found
        · exact whole
        · rw [short.2] at answer
          cases answer
      dsimp only
      rw [← exact_end, value, exact_end, answer]
      rfl
  | none =>
      have answer : searched content needle first content.length = none := by
        obtain found | whole | short := well
        · exact absurd missing found
        · refine searched_eq_none (Nat.le_refl _) fun earlier start inside _ => ?_
          exact window.absent_next fits outcome start (by omega)
        · exact short.2
      dsimp only
      rw [searchLoop_ended turns (by omega), answer]
      rfl

theorem From.searchLoop (nonempty : content ≠ []) {needle : List UInt8}
    {first size stop : Nat} (long : needle.length ≤ size) (positive : 0 < size)
    (well : FoundWell content needle first size stop)
    (meets : 65536 * (content.length / 65536) ≤ stop) (more : Nat) {turns : Nat}
    (enough : more + 1 < turns) {place : Nat} (ends : place + size * (more + 1) = stop)
    (before : 0 < more → place + size * more < 65536 * (content.length / 65536))
    {pipe : PipeStream} (cached : From content place pipe) (unknown : pipe.client = none)
    {buffer : List UInt8} (window : Window content needle first place buffer) :
    Session.Gives (Sound content)
      (InputStream.searchLoop PipeStream.read knownSize needle turns (8 * place) none size
        buffer) pipe
      (.ok ((searched content needle first content.length).map fun place => 8 * place)) := by
  induction more generalizing turns place pipe buffer with
  | zero =>
      have whole : place + size = stop := by omega
      rw [← whole] at well meets
      exact cached.searchLoop_last nonempty positive (by omega) well meets window
  | succ more induction =>
      have shorter := before (Nat.succ_pos more)
      rw [Nat.mul_succ] at shorter
      have fits : place + size ≤ content.length := by omega
      obtain ⟨final, after, known, returned⟩ := cached.readBytes nonempty positive fits
      have silent : final.client = none := by
        refine known.mpr ⟨unknown, ?_⟩
        unfold Reaches
        omega
      obtain ⟨turns, rfl⟩ : ∃ fewer, turns = fewer + 1 := ⟨turns - 1, by omega⟩
      rw [Session.Gives, searchLoop_unknown returned silent]
      cases outcome : find (lastBytes buffer needle.length ++ slice content place size)
          needle with
      | some index =>
          obtain ⟨result, start, inside, occurs, earliest, value⟩ :=
            window.found fits outcome
          have later := window.later
          have answer : searched content needle first content.length = some result :=
            searched_eq_some (by omega) (Nat.le_refl _) start (by omega) occurs earliest
          refine ⟨final, after.1, ?_⟩
          dsimp only
          rw [value, answer]
          rfl
      | none =>
          refine induction (by omega) ?_ ?_ after silent (window.next fits long outcome)
          · rw [← ends, Nat.mul_succ size (more + 1)]
            omega
          · intro positive
            omega

end PipeStream

end Segvault.Hachoir
