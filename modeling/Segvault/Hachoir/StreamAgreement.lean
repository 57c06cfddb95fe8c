import Segvault.Hachoir.InputIOStream

namespace Segvault.Hachoir

/-! Requests to an `InputIOStream` over an `InputPipe`, and to a `StringInputStream`
over the same bytes. -/

namespace StreamRequest

inductive Request
  | readBytes (address nbBytes : Nat)
  | searchBytes (needle : List UInt8) (startAddress : Nat) (endAddress : Option Nat)
  deriving DecidableEq, Repr

inductive Answer
  | bytes (data : List UInt8)
  | address (place : Option Nat)
  deriving DecidableEq, Repr

def ofPipe (turns : Nat) : Request → Session Failure PipeStream Answer
  | .readBytes address nbBytes => do
      let data ← PipeStream.readBytes address nbBytes
      pure (.bytes data)
  | .searchBytes needle startAddress endAddress => do
      let place ← PipeStream.searchBytes needle turns startAddress endAddress
      pure (.address place)

def ofString (stream : StringInputStream) (turns : Nat) : Request → Except Failure Answer
  | .readBytes address nbBytes => do
      let data ← stream.readBytes address nbBytes
      pure (.bytes data)
  | .searchBytes needle startAddress endAddress => do
      let place ← stream.searchBytes needle turns startAddress endAddress
      pure (.address place)

-- The answers of the pipe to requests made one after the other.
def answers (turns : Nat) : PipeStream → List Request → List (Except Failure Answer)
  | _, [] => []
  | pipe, request :: requests =>
      let (answer, pipe) := Session.perform (ofPipe turns request) pipe
      answer :: answers turns pipe requests

def step (turns : Nat) (pipe : PipeStream) (request : Request) : PipeStream :=
  (Session.perform (ofPipe turns request) pipe).2

/-! The requests the claim is about, and those that both streams answer alike. -/

def Inside (content : List UInt8) : Request → Prop
  | .readBytes address nbBytes => address + 8 * nbBytes ≤ 8 * content.length
  | .searchBytes _ startAddress endAddress =>
      startAddress ≤ 8 * content.length ∧
        ∀ address ∈ endAddress, address ≤ 8 * content.length

-- The block a request starts in is not discarded.
def Cached (pipe : PipeStream) : Request → Prop
  | .readBytes address _ => pipe.first ≤ address / 8 / 65536
  | .searchBytes _ startAddress _ => pipe.first ≤ startAddress / 8 / 65536

-- Where the first chunk of a search ends that meets the end of the input.
def chunkEnd (content : List UInt8) (size first : Nat) : Nat :=
  first + size * ((65536 * (content.length / 65536) - first - 1) / size + 1)

def EndsWell (content needle : List UInt8) (first : Nat) : Prop :=
  PipeStream.FoundWell content needle first (max (3 * needle.length) 4096)
    (chunkEnd content (max (3 * needle.length) 4096) first)

instance (content needle : List UInt8) (first : Nat) :
    Decidable (EndsWell content needle first) :=
  inferInstanceAs (Decidable (PipeStream.FoundWell ..))

def Agreeable (content : List UInt8) (pipe : PipeStream) : Request → Prop
  | .readBytes _ nbBytes => 0 < nbBytes
  | .searchBytes needle startAddress endAddress =>
      endAddress.isSome ∨ pipe.client.isSome ∨ startAddress % 8 ≠ 0 ∨
        EndsWell content needle (startAddress / 8)

def Guard (content : List UInt8) (pipe : PipeStream) (request : Request) : Prop :=
  Inside content request ∧ Cached pipe request ∧ Agreeable content pipe request

instance (content : List UInt8) : DecidablePred (Inside content)
  | .readBytes address nbBytes =>
      inferInstanceAs (Decidable (address + 8 * nbBytes ≤ 8 * content.length))
  | .searchBytes _ startAddress endAddress =>
      inferInstanceAs (Decidable (startAddress ≤ 8 * content.length ∧
        ∀ address ∈ endAddress, address ≤ 8 * content.length))

instance (pipe : PipeStream) : DecidablePred (Cached pipe)
  | .readBytes address _ => inferInstanceAs (Decidable (pipe.first ≤ address / 8 / 65536))
  | .searchBytes _ startAddress _ =>
      inferInstanceAs (Decidable (pipe.first ≤ startAddress / 8 / 65536))

instance (content : List UInt8) (pipe : PipeStream) : DecidablePred (Agreeable content pipe)
  | .readBytes _ nbBytes => inferInstanceAs (Decidable (0 < nbBytes))
  | .searchBytes needle startAddress endAddress =>
      inferInstanceAs (Decidable (endAddress.isSome ∨ pipe.client.isSome ∨
        startAddress % 8 ≠ 0 ∨ EndsWell content needle (startAddress / 8)))

instance (content : List UInt8) (pipe : PipeStream) : DecidablePred (Guard content pipe) :=
  fun request => inferInstanceAs (Decidable (Inside content request ∧ _ ∧ _))

/-! One request. -/

open PipeStream

variable {content : List UInt8}

theorem readBytes_agrees {stream : StringInputStream} (nonempty : stream.data ≠ [])
    {pipe : PipeStream} (sound : Sound stream.data pipe) {address nbBytes : Nat}
    (inside : address + 8 * nbBytes ≤ 8 * stream.data.length)
    (cached : pipe.first ≤ address / 8 / 65536) (positive : 0 < nbBytes) :
    Session.Gives (Sound stream.data) (PipeStream.readBytes address nbBytes) pipe
      (stream.readBytes address nbBytes) := by
  obtain ⟨final, after, -, -, run⟩ :=
    sound.read nonempty (by omega : 0 < 8 * nbBytes) inside cached
  refine ⟨final, after, ?_⟩
  rw [PipeStream.readBytes, InputStream.readBytes, Session.perform_bind_ok run,
    StringInputStream.readBytes, InputStream.readBytes, read_eq inside]
  by_cases aligned : address % 8 = 0
  · simp only [aligned]
    rfl
  · simp only [bind, Except.bind]
    rw [if_pos aligned, if_pos aligned]
    rfl

theorem searchLoop_agrees (nonempty : content ≠ []) {turns : Nat}
    (enough : content.length + 1 < turns) {needle : List UInt8} {first : Nat}
    (start : first ≤ content.length) {pipe : PipeStream} (cached : From content first pipe)
    (unknown : pipe.client = none) (well : EndsWell content needle first) :
    Session.Gives (Sound content)
      (InputStream.searchLoop PipeStream.read knownSize needle turns (8 * first)
        (InputStream.nearestEnd none none) (max (3 * needle.length) 4096) []) pipe
      (.ok ((searched content needle first content.length).map fun place => 8 * place)) := by
  have long : needle.length ≤ max (3 * needle.length) 4096 := by omega
  have positive : 0 < max (3 * needle.length) 4096 := by omega
  unfold EndsWell chunkEnd at well
  generalize max (3 * needle.length) 4096 = size at long positive well ⊢
  have last := Nat.lt_mul_div_succ (65536 * (content.length / 65536) - first - 1) positive
  have chunks := Nat.mul_div_le (65536 * (content.length / 65536) - first - 1) size
  have few := Nat.div_le_self (65536 * (content.length / 65536) - first - 1) size
  generalize (65536 * (content.length / 65536) - first - 1) / size = more
    at well last chunks few
  have some : 0 < content.length := List.length_pos_of_ne_nil nonempty
  have many : 0 < more → 0 < size * more := Nat.mul_pos positive
  exact cached.searchLoop nonempty long positive well (by omega) more (by omega) rfl
    (by omega) unknown (window_initial needle start)

theorem searchBytes_agrees {stream : StringInputStream} (nonempty : stream.data ≠ [])
    {turns : Nat} (enough : stream.data.length + 1 < turns) {pipe : PipeStream}
    (sound : Sound stream.data pipe) {needle : List UInt8} {startAddress : Nat}
    {endAddress : Option Nat}
    (inside : Inside stream.data (.searchBytes needle startAddress endAddress))
    (cached : pipe.first ≤ startAddress / 8 / 65536)
    (agreeable : Agreeable stream.data pipe
      (.searchBytes needle startAddress endAddress)) :
    Session.Gives (Sound stream.data)
      (PipeStream.searchBytes needle turns startAddress endAddress) pipe
      (stream.searchBytes needle turns startAddress endAddress) := by
  obtain ⟨before, limited⟩ := inside
  by_cases aligned : startAddress % 8 = 0
  · obtain ⟨first, rfl⟩ : ∃ first, startAddress = 8 * first := ⟨startAddress / 8, by omega⟩
    have place : 8 * first / 8 = first := by omega
    rw [place] at cached
    have start : first ≤ stream.data.length := by omega
    rw [StringInputStream.searchBytes_eq nonempty needle start enough]
    by_cases bounded : endAddress.isSome ∨ pipe.client.isSome
    · have nearest : ∃ last, InputStream.nearestEnd pipe.client endAddress = some last ∧
          last / 8 = min stream.data.length
            (endAddress.getD (8 * stream.data.length) / 8) := by
        cases sound.size_eq with
        | inr found =>
            rw [found]
            exact nearestEnd_known (List.length_pos_of_ne_nil nonempty) endAddress
        | inl unknown =>
            cases endAddress with
            | none => simp [unknown.1] at bounded
            | some last =>
                have limit := limited last rfl
                refine ⟨last, by rw [unknown.1]; rfl, ?_⟩
                rw [Option.getD_some]
                omega
      obtain ⟨last, nearest, same⟩ := nearest
      obtain ⟨final, ⟨place, after⟩, run⟩ :=
        (PipeStream.reads nonempty).searchBytes enough start (by omega)
          (⟨sound, cached⟩ : From stream.data first pipe) rfl nearest
      rw [same] at run
      exact ⟨final, after.1, run⟩
    · have unknown : pipe.client = none := by
        cases given : pipe.client with
        | none => rfl
        | some size => simp [given] at bounded
      have whole : endAddress = none := by
        cases endAddress with
        | none => rfl
        | some last => simp at bounded
      subst whole
      have well : EndsWell stream.data needle (8 * first / 8) := by
        obtain given | known | shifted | well := agreeable
        · exact absurd (.inl given) bounded
        · exact absurd (.inr known) bounded
        · exact absurd aligned shifted
        · exact well
      rw [place] at well
      rw [Option.getD_none, Nat.mul_div_cancel_left _ (by decide : 0 < 8), Nat.min_self,
        PipeStream.searchBytes, InputStream.searchBytes, if_neg (not_not_intro aligned)]
      have asked : Session.perform knownSize pipe = (.ok none, pipe) := by
        rw [← unknown]
        rfl
      refine Session.gives_bind_ok asked ?_
      exact searchLoop_agrees nonempty enough start ⟨sound, cached⟩ unknown well
  · rw [PipeStream.searchBytes, InputStream.searchBytes, if_pos aligned,
      StringInputStream.searchBytes, InputStream.searchBytes, if_pos aligned]
    exact Session.gives_throw sound _

theorem request_agrees {stream : StringInputStream} (nonempty : stream.data ≠ [])
    {turns : Nat} (enough : stream.data.length + 1 < turns) {pipe : PipeStream}
    (sound : Sound stream.data pipe) {request : Request}
    (guard : Guard stream.data pipe request) :
    Session.Gives (Sound stream.data) (ofPipe turns request) pipe
      (ofString stream turns request) := by
  obtain ⟨inside, cached, agreeable⟩ := guard
  cases request with
  | readBytes address nbBytes =>
      have same := readBytes_agrees nonempty sound inside cached agreeable
      exact same.answered Answer.bytes
  | searchBytes needle startAddress endAddress =>
      have same := searchBytes_agrees nonempty enough sound inside cached agreeable
      exact same.answered Answer.address

/-! Runs. -/

theorem fresh_sound (content : List UInt8) :
    Sound content (InputPipe.new content none) :=
  ⟨⟨[], InputPipe.new_valid content none⟩, .inl ⟨rfl, Nat.zero_le _⟩⟩

theorem answers_agree {content : List UInt8} {stream : StringInputStream}
    (opened : StringInputStream.new content = .ok stream) {turns : Nat}
    (enough : content.length + 1 < turns) {requests : List Request}
    (guarded : Transition.Guarded (step turns) (Guard content)
      (InputPipe.new content none) requests) :
    answers turns (InputPipe.new content none) requests =
      requests.map (ofString stream turns) := by
  unfold StringInputStream.new at opened
  split at opened
  · cases opened
  · next nonempty =>
      cases opened
      have sound := fresh_sound content
      generalize InputPipe.new content none = pipe at guarded sound ⊢
      induction requests generalizing pipe with
      | nil => rfl
      | cons request requests induction =>
          obtain ⟨final, after, run⟩ :=
            @request_agrees ⟨content⟩ nonempty turns enough pipe sound request guarded.1
          have rest := guarded.2
          rw [step, run] at rest
          rw [answers, run, List.map_cons]
          dsimp only
          rw [induction final rest after]

theorem answers_agree_two_bytes :
    answers 4 (InputPipe.new [97, 98] none)
        [.readBytes 0 2, .searchBytes [98] 0 none, .readBytes 4 1] =
      [Request.readBytes 0 2, .searchBytes [98] 0 none, .readBytes 4 1].map
        (ofString ⟨[97, 98]⟩ 4) :=
  answers_agree (rfl : StringInputStream.new [97, 98] = .ok ⟨[97, 98]⟩) (by decide)
    (by decide)

theorem search_differs_two_bytes :
    StringInputStream.new [97, 98] = .ok ⟨[97, 98]⟩ ∧
      Transition.Guarded (step 4)
        (fun pipe request => Inside [97, 98] request ∧ Cached pipe request)
        (InputPipe.new [97, 98] none) [.searchBytes [98] 0 none] ∧
      answers 4 (InputPipe.new [97, 98] none) [.searchBytes [98] 0 none] ≠
        [Request.searchBytes [98] 0 none].map (ofString ⟨[97, 98]⟩ 4) := by
  decide

end StreamRequest

end Segvault.Hachoir
