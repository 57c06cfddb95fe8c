import Segvault.Ptrace.Memory
import Segvault.Transition

namespace Segvault.Ptrace

open Bytes Transition

/-! The software breakpoints of a process. -/

structure Breakpoint where
  address : Nat
  size : Nat
  oldBytes : List UInt8
  installed : Bool
  deriving DecidableEq, Repr

def Breakpoint.Covers (self : Breakpoint) (address : Nat) : Prop :=
  self.address ≤ address ∧ address < self.address + self.size

instance Breakpoint.decidableCovers (self : Breakpoint) :
    DecidablePred self.Covers := fun _ =>
  inferInstanceAs (Decidable (_ ∧ _))

/-- A process with every breakpoint that was ever made for it; `breakpoints` is the dictionary
from addresses to places in `made`. -/
structure Process where
  running : Bool
  memory : Memory
  instrPointer : Nat
  made : List Breakpoint
  breakpoints : List (Nat × Nat)

section Code

variable (cpu : CpuInfo)

def Breakpoint.new (memory : Memory) (address size : Nat) :
    Except Failure (Breakpoint × Memory) := do
  let size := if cpu.powerPC then cpu.wordSize else size
  let oldBytes ← _readBytes cpu memory address size
  let newBytes ← if cpu.powerPC then word2bytes cpu 0x0cc00000
    else .ok (List.replicate size 0xCC)
  let memory ← writeBytes cpu (_readBytes cpu) memory address newBytes
  .ok ({ address, size, oldBytes, installed := true }, memory)

namespace Process

def values (self : Process) : List Breakpoint :=
  self.breakpoints.filterMap fun entry => self.made[entry.2]?

def findBreakpoint (self : Process) (address : Nat) : Option Breakpoint :=
  self.values.find? fun bp => bp.Covers address

def createBreakpoint (self : Process) (address size : Nat) : Except Failure Process :=
  match self.findBreakpoint address with
  | some _ => .error .processError
  | none => do
      let (bp, memory) ← Breakpoint.new cpu self.memory address size
      .ok
        { self with
          memory
          made := self.made ++ [bp]
          breakpoints := self.breakpoints.filter (·.1 ≠ address) ++
            [(address, self.made.length)] }

def removeBreakpoint (self : Process) (breakpoint : Breakpoint) : Except Failure Process :=
  if self.breakpoints.any (·.1 = breakpoint.address) then
    .ok { self with breakpoints := self.breakpoints.filter (·.1 ≠ breakpoint.address) }
  else .error .keyError

/-- `desinstall` of the breakpoint made as number `index`. -/
def desinstall (self : Process) (index : Nat) (setIp : Bool) : Except Failure Process :=
  match self.made[index]? with
  | none => .ok self
  | some bp =>
      if bp.installed = false then .ok self
      else do
        let made := self.made.set index { bp with installed := false }
        let memory ← if self.running then
            writeBytes cpu (_readBytes cpu) self.memory bp.address bp.oldBytes
          else .ok self.memory
        let instrPointer := if setIp then bp.address else self.instrPointer
        removeBreakpoint { self with memory, made, instrPointer } bp

end Process

inductive BreakpointCall
  | create (address size : Nat) (positive : 0 < size)
  | desinstall (index : Nat) (setIp : Bool)

/-- A call that raises leaves the process as it is. -/
def Process.call (self : Process) (event : BreakpointCall) : Process :=
  let result := match event with
    | .create address size _ => self.createBreakpoint cpu address size
    | .desinstall index setIp => self.desinstall cpu index setIp
  match result with
  | .ok after => after
  | .error _ => self

end Code

def Process.fresh (memory : Memory) (instrPointer : Nat) : Process :=
  { running := true, memory, instrPointer, made := [], breakpoints := [] }

/-! What the installed breakpoints keep of the original memory. -/

def Installed (process : Process) (index : Nat) (bp : Breakpoint) : Prop :=
  process.made[index]? = some bp ∧ bp.installed = true

structure NoTrace (original : Memory) (process : Process) : Prop where
  disjoint : ∀ first second bp other, Installed process first bp → Installed process second other →
    first ≠ second → Apart bp.address bp.size other.address other.size
  outside : ∀ address, (∀ index bp, Installed process index bp → ¬ bp.Covers address) →
    process.memory address = original address
  removed : (∀ index bp, ¬ Installed process index bp) → process.memory = original

structure Kept (original : Memory) (process : Process) : Prop where
  running : process.running = true
  registered : ∀ address index, (address, index) ∈ process.breakpoints ↔
    ∃ bp, Installed process index bp ∧ bp.address = address
  positive : ∀ index bp, Installed process index bp → 0 < bp.size
  saved : ∀ index bp, Installed process index bp →
    bp.oldBytes = read original bp.address bp.size
  disjoint : ∀ first second bp other, Installed process first bp → Installed process second other →
    first ≠ second → Apart bp.address bp.size other.address other.size
  outside : ∀ address, (∀ index bp, Installed process index bp → ¬ bp.Covers address) →
    process.memory address = original address

/-- A new breakpoint that is accepted covers the address of no other. -/
def Clear (process : Process) : BreakpointCall → Prop
  | .create address size _ => process.findBreakpoint address = none →
      ∀ bp ∈ process.values, ¬ (address ≤ bp.address ∧ bp.address < address + size)
  | .desinstall _ _ => True

namespace Kept

variable {original : Memory} {process : Process}

theorem noTrace (kept : Kept original process) : NoTrace original process where
  disjoint := kept.disjoint
  outside := kept.outside
  removed := fun none => funext fun address =>
    kept.outside address fun index bp installed => absurd installed (none index bp)

theorem fresh (memory : Memory) (instrPointer : Nat) :
    Kept memory (.fresh memory instrPointer) := by
  have none (index : Nat) (bp : Breakpoint) :
      ¬ Installed (.fresh memory instrPointer) index bp := by
    rintro ⟨made, -⟩
    cases made
  refine ⟨rfl, fun address index => ?_, fun index bp installed => ?_,
    fun index bp installed => ?_, fun first second bp other installed => ?_, fun _ _ => rfl⟩
  · refine iff_of_false List.not_mem_nil ?_
    rintro ⟨bp, installed, -⟩
    exact none index bp installed
  · exact absurd installed (none index bp)
  · exact absurd installed (none index bp)
  · exact absurd installed (none first bp)

theorem mem_values (kept : Kept original process) {bp : Breakpoint} :
    bp ∈ process.values ↔ ∃ index, Installed process index bp := by
  rw [Process.values, List.mem_filterMap]
  constructor
  · rintro ⟨⟨address, index⟩, member, found⟩
    obtain ⟨other, ⟨made, installed⟩, -⟩ := (kept.registered address index).mp member
    rw [made] at found
    cases found
    exact ⟨index, made, installed⟩
  · rintro ⟨index, installed⟩
    exact ⟨(bp.address, index), (kept.registered _ _).mpr ⟨bp, installed, rfl⟩, installed.1⟩

theorem findBreakpoint_eq_none (kept : Kept original process) {address : Nat} :
    process.findBreakpoint address = none ↔
      ∀ index bp, Installed process index bp → ¬ bp.Covers address := by
  rw [Process.findBreakpoint, List.find?_eq_none]
  constructor
  · intro none index bp installed covers
    exact none bp (kept.mem_values.mpr ⟨index, installed⟩) (decide_eq_true covers)
  · intro none bp member covers
    obtain ⟨index, installed⟩ := kept.mem_values.mp member
    exact none index bp installed (of_decide_eq_true covers)

end Kept

/-! Making a breakpoint. -/

section Create

variable (cpu : CpuInfo) {original : Memory} {process : Process} {address size : Nat}

/-- The process with one more breakpoint. -/
def Process.installedAt (process : Process) (address size : Nat) : Process :=
  { process with
    memory := write process.memory address (List.replicate size 0xCC)
    made := process.made ++
      [{ address, size, oldBytes := read process.memory address size, installed := true }]
    breakpoints := process.breakpoints.filter (·.1 ≠ address) ++ [(address, process.made.length)] }

theorem createBreakpoint_spec (notPowerPC : cpu.powerPC = false)
    (free : process.findBreakpoint address = none) :
    process.createBreakpoint cpu address size = .ok (process.installedAt address size) := by
  unfold Process.createBreakpoint Breakpoint.new
  rw [free, notPowerPC]
  simp only [Bool.false_eq_true, if_false, _readBytes_spec,
    writeBytes_spec cpu (fullSlices_readBytes cpu), bind, Except.bind]
  rfl

theorem installed_installedAt {index : Nat} {bp : Breakpoint} :
    Installed (process.installedAt address size) index bp ↔
      Installed process index bp ∨ index = process.made.length ∧
        bp = { address, size, oldBytes := read process.memory address size, installed := true } := by
  unfold Installed Process.installedAt
  dsimp only
  rcases Nat.lt_trichotomy index process.made.length with before | here | after
  · rw [List.getElem?_append_left before]
    constructor
    · exact .inl
    · rintro (old | ⟨here, -⟩)
      · exact old
      · omega
  · rw [here, List.getElem?_concat_length, List.getElem?_eq_none le_rfl]
    constructor
    · rintro ⟨same, -⟩
      cases same
      exact .inr ⟨rfl, rfl⟩
    · rintro (⟨old, -⟩ | ⟨-, rfl⟩)
      · cases old
      · exact ⟨rfl, rfl⟩
  · rw [List.getElem?_eq_none (by rw [List.length_append, List.length_singleton]; omega),
      List.getElem?_eq_none after.le]
    constructor
    · rintro ⟨absent, -⟩
      cases absent
    · rintro (⟨absent, -⟩ | ⟨here, -⟩)
      · cases absent
      · omega

theorem Kept.installedAt (kept : Kept original process) (positive : 0 < size)
    (free : process.findBreakpoint address = none)
    (clear : ∀ bp ∈ process.values, ¬ (address ≤ bp.address ∧ bp.address < address + size)) :
    Kept original (process.installedAt address size) := by
  have uncovered := kept.findBreakpoint_eq_none.mp free
  have apart (index : Nat) (bp : Breakpoint) (installed : Installed process index bp) :
      Apart bp.address bp.size address size := by
    have away := uncovered index bp installed
    have behind := clear bp (kept.mem_values.mpr ⟨index, installed⟩)
    unfold Breakpoint.Covers at away
    unfold Apart
    omega
  have fresh (index : Nat) (bp : Breakpoint) (installed : Installed process index bp) :
      index ≠ process.made.length := by
    have bound := (List.getElem?_eq_some_iff.mp installed.1).1
    omega
  refine ⟨kept.running, fun other index => ?_, fun index bp installed => ?_,
    fun index bp installed => ?_, fun first second bp other one two different => ?_,
    fun other none => ?_⟩
  · have elsewhere : ∀ index, (other, index) ∈ process.breakpoints → other ≠ address := by
      rintro index member rfl
      obtain ⟨bp, installed, rfl⟩ := (kept.registered other index).mp member
      exact uncovered index bp installed
        ⟨le_rfl, Nat.lt_add_of_pos_right (kept.positive index bp installed)⟩
    simp only [installed_installedAt, or_and_right, exists_or]
    rw [← kept.registered, Process.installedAt]
    simp only [List.mem_append, List.mem_filter, List.mem_singleton, Prod.mk.injEq,
      decide_eq_true_eq, and_assoc, exists_and_left, exists_eq_left]
    constructor
    · rintro (⟨old, -⟩ | ⟨rfl, rfl⟩)
      · exact .inl old
      · exact .inr ⟨rfl, rfl⟩
    · rintro (old | ⟨rfl, rfl⟩)
      · exact .inl ⟨old, elsewhere index old⟩
      · exact .inr ⟨rfl, rfl⟩
  · obtain old | ⟨-, rfl⟩ := installed_installedAt.mp installed
    · exact kept.positive index bp old
    · exact positive
  · obtain old | ⟨-, rfl⟩ := installed_installedAt.mp installed
    · exact kept.saved index bp old
    · refine read_congr fun place above below => kept.outside place ?_
      rintro index bp old ⟨start, stop⟩
      have away := apart index bp old
      unfold Apart at away
      omega
  · obtain old | ⟨here, rfl⟩ := installed_installedAt.mp one <;>
      obtain older | ⟨there, rfl⟩ := installed_installedAt.mp two
    · exact kept.disjoint first second bp other old older different
    · exact apart first bp old
    · exact (apart second other older).symm
    · exact absurd (here.trans there.symm) different
  · have notNew := none process.made.length _ (installed_installedAt.mpr (.inr ⟨rfl, rfl⟩))
    have same : (process.installedAt address size).memory other = process.memory other := by
      refine write_outside process.memory ?_
      rw [List.length_replicate]
      unfold Breakpoint.Covers at notNew
      dsimp only at notNew
      omega
    rw [same]
    exact kept.outside other fun index bp old =>
      none index bp (installed_installedAt.mpr (.inl old))

/-- A breakpoint that covers the address of another overlaps it. -/
theorem overlap_of_not_clear (kept : Kept original process)
    {bp : Breakpoint} (member : bp ∈ process.values) (above : address ≤ bp.address)
    (below : bp.address < address + size) :
    ¬ NoTrace original (process.installedAt address size) := by
  intro noTrace
  obtain ⟨index, installed⟩ := kept.mem_values.mp member
  have bound := (List.getElem?_eq_some_iff.mp installed.1).1
  have apart := noTrace.disjoint index process.made.length bp _
    (installed_installedAt.mpr (.inl installed))
    (installed_installedAt.mpr (.inr ⟨rfl, rfl⟩)) (by omega)
  have wide := kept.positive index bp installed
  unfold Apart at apart
  dsimp only at apart
  omega

end Create

/-! Removing a breakpoint. -/

section Remove

variable (cpu : CpuInfo) {original : Memory} {process : Process} {index : Nat} {bp : Breakpoint}

/-- The process without its breakpoint number `index`. -/
def Process.removedAt (process : Process) (index : Nat) (bp : Breakpoint) (setIp : Bool) :
    Process :=
  { process with
    memory := write process.memory bp.address bp.oldBytes
    made := process.made.set index { bp with installed := false }
    instrPointer := if setIp then bp.address else process.instrPointer
    breakpoints := process.breakpoints.filter (·.1 ≠ bp.address) }

theorem desinstall_spec (kept : Kept original process) (installed : Installed process index bp)
    (setIp : Bool) :
    process.desinstall cpu index setIp = .ok (process.removedAt index bp setIp) := by
  have entry := (kept.registered bp.address index).mpr ⟨bp, installed, rfl⟩
  have present : process.breakpoints.any (·.1 = bp.address) = true :=
    List.any_eq_true.mpr ⟨_, entry, decide_eq_true rfl⟩
  unfold Process.desinstall Process.removeBreakpoint
  rw [installed.1]
  simp only [installed.2, kept.running, Bool.true_eq_false, if_false, if_true,
    writeBytes_spec cpu (fullSlices_readBytes cpu), bind, Except.bind]
  rw [if_pos present, Process.removedAt, kept.running]

theorem installed_removedAt (installed : Installed process index bp) {setIp : Bool}
    {other : Nat} {left : Breakpoint} :
    Installed (process.removedAt index bp setIp) other left ↔
      Installed process other left ∧ other ≠ index := by
  have bound := (List.getElem?_eq_some_iff.mp installed.1).1
  unfold Installed Process.removedAt
  dsimp only
  by_cases same : other = index
  · rw [same, List.getElem?_set_self bound]
    constructor
    · rintro ⟨gone, still⟩
      cases gone
      cases still
    · rintro ⟨-, different⟩
      exact absurd rfl different
  · rw [List.getElem?_set_ne (Ne.symm same)]
    exact (and_iff_left same).symm

theorem Kept.removedAt (kept : Kept original process) (installed : Installed process index bp)
    (setIp : Bool) : Kept original (process.removedAt index bp setIp) := by
  have old {other : Nat} {left : Breakpoint}
      (still : Installed (process.removedAt index bp setIp) other left) :
      Installed process other left :=
    ((installed_removedAt installed).mp still).1
  refine ⟨kept.running, fun address other => ?_, fun other left still => ?_,
    fun other left still => ?_, fun first second one two left right different => ?_,
    fun address none => ?_⟩
  · rw [Process.removedAt]
    simp only [List.mem_filter, decide_eq_true_eq]
    rw [kept.registered]
    constructor
    · rintro ⟨⟨left, still, rfl⟩, different⟩
      refine ⟨left, (installed_removedAt installed).mpr ⟨still, ?_⟩, rfl⟩
      rintro rfl
      rw [Option.some.inj (still.1.symm.trans installed.1)] at different
      exact different rfl
    · rintro ⟨left, still, rfl⟩
      obtain ⟨before, different⟩ := (installed_removedAt installed).mp still
      refine ⟨⟨left, before, rfl⟩, fun same => ?_⟩
      have apart := kept.disjoint other index left bp before installed different
      have wide := kept.positive other left before
      have room := kept.positive index bp installed
      unfold Apart at apart
      omega
  · exact kept.positive other left (old still)
  · exact kept.saved other left (old still)
  · exact kept.disjoint first second one two (old left) (old right) different
  · have saved := kept.saved index bp installed
    have length : bp.oldBytes.length = bp.size := by rw [saved, length_read]
    by_cases inside : bp.Covers address
    · obtain ⟨place, rfl⟩ := Nat.le.dest inside.1
      have bound : place < bp.oldBytes.length := by
        have below := inside.2
        omega
      refine (write_inside process.memory bound).trans ?_
      simp [saved, Bytes.read]
    · refine (write_outside process.memory ?_).trans (kept.outside address ?_)
      · unfold Breakpoint.Covers at inside
        omega
      · intro other left still
        by_cases same : other = index
        · subst same
          rwa [Option.some.inj (still.1.symm.trans installed.1)]
        · exact none other left ((installed_removedAt installed).mpr ⟨still, same⟩)

end Remove

/-! Runs of calls. -/

section Calls

variable (cpu : CpuInfo) {original : Memory} {process : Process}

theorem Kept.call (kept : Kept original process) (notPowerPC : cpu.powerPC = false)
    {event : BreakpointCall} (clear : Clear process event) :
    Kept original (process.call cpu event) := by
  cases event with
  | create address size positive =>
      unfold Process.call
      dsimp only
      cases found : process.findBreakpoint address with
      | none =>
          rw [createBreakpoint_spec cpu notPowerPC found]
          exact kept.installedAt positive found (clear found)
      | some bp =>
          unfold Process.createBreakpoint
          rw [found]
          exact kept
  | desinstall index setIp =>
      unfold Process.call
      dsimp only
      cases here : process.made[index]? with
      | none =>
          unfold Process.desinstall
          rw [here]
          exact kept
      | some bp =>
          cases set : bp.installed with
          | false =>
              unfold Process.desinstall
              rw [here]
              dsimp only
              rw [if_pos set]
              exact kept
          | true =>
              rw [desinstall_spec cpu kept ⟨here, set⟩ setIp]
              exact kept.removedAt ⟨here, set⟩ setIp

theorem not_noTrace_call (kept : Kept original process) (notPowerPC : cpu.powerPC = false)
    {event : BreakpointCall} (blocked : ¬ Clear process event) :
    ¬ NoTrace original (process.call cpu event) := by
  cases event with
  | create address size positive =>
      simp only [Clear, not_forall, not_not] at blocked
      obtain ⟨free, bp, member, above, below⟩ := blocked
      unfold Process.call
      dsimp only
      rw [createBreakpoint_spec cpu notPowerPC free]
      exact overlap_of_not_clear kept member above below
  | desinstall index setIp => exact absurd trivial blocked

/-- No trace is left at any time of a run of calls exactly if no accepted breakpoint covers the
address of another. -/
theorem breakpoints_leave_no_trace_iff (notPowerPC : cpu.powerPC = false) (original : Memory)
    (instrPointer : Nat) (calls : List BreakpointCall) :
    (∀ before, before <+: calls →
        NoTrace original (run (Process.call cpu) (.fresh original instrPointer) before)) ↔
      Guarded (Process.call cpu) Clear (.fresh original instrPointer) calls :=
  guarded_iff_throughout (Kept original) (NoTrace original)
    (fun _ kept => kept.noTrace)
    (fun _ _ kept clear => kept.call cpu notPowerPC clear)
    (fun _ _ kept blocked => not_noTrace_call cpu kept notPowerPC blocked)
    (.fresh original instrPointer) calls

theorem breakpoints_leave_no_trace_one :
    (∀ before, before <+: [.create 8 4 (by decide), .desinstall 0 true] →
        NoTrace (fun _ => 0x90) (run (Process.call ⟨true, false⟩)
          (.fresh (fun _ => 0x90) 8) before)) ↔
      Guarded (Process.call ⟨true, false⟩) Clear (.fresh (fun _ => 0x90) 8)
        [.create 8 4 (by decide), .desinstall 0 true] :=
  breakpoints_leave_no_trace_iff ⟨true, false⟩ rfl (fun _ => 0x90) 8
    [.create 8 4 (by decide), .desinstall 0 true]

/-- A larger breakpoint over a smaller one. -/
theorem breakpoints_overlap :
    ¬ ∀ before, before <+: [.create 8 1 (by decide), .create 6 4 (by decide)] →
        NoTrace (fun _ => 0x90) (run (Process.call ⟨true, false⟩)
          (.fresh (fun _ => 0x90) 8) before) := by
  intro throughout
  have noTrace := throughout _ (List.prefix_refl _)
  rw [run_cons, run_cons, run_nil] at noTrace
  have free : (Process.fresh (fun _ => 0x90) 8).findBreakpoint 8 = none := rfl
  have first : (Process.fresh (fun _ => 0x90) 8).call ⟨true, false⟩
      (.create 8 1 (by decide)) = (Process.fresh (fun _ => 0x90) 8).installedAt 8 1 := by
    unfold Process.call
    dsimp only
    rw [createBreakpoint_spec ⟨true, false⟩ rfl free]
  have kept : Kept (fun _ => 0x90) ((Process.fresh (fun _ => 0x90) 8).installedAt 8 1) :=
    (Kept.fresh (fun _ => 0x90) 8).installedAt (by decide) free fun bp member => by
      cases member
  rw [first] at noTrace
  refine not_noTrace_call ⟨true, false⟩ kept rfl (fun clear => ?_) noTrace
  exact clear rfl _ (List.mem_singleton.mpr rfl) (by decide)

end Calls

end Segvault.Ptrace
