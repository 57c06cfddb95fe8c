import Segvault.Ptrace.Memory

namespace Segvault.Ptrace

/-! The backtrace of a process, along the chain of its frame pointers. A word of the stack
that cannot be read is `none`; reading it raises a `PtraceError`. -/

structure BacktraceFrame where
  ip : Nat
  name : String
  arguments : List Nat
  deriving DecidableEq, Repr

structure Backtrace where
  frames : List BacktraceFrame
  truncated : Bool
  deriving DecidableEq, Repr

def CpuInfo.maxUint (cpu : CpuInfo) : Nat :=
  if cpu.bits64 then 0xffffffffffffffff else 0xffffffff

section Code

variable (cpu : CpuInfo) (readWord : Nat → Option Nat)

/-- The loop of `getBacktraceFrame`; a word that cannot be read ends it. -/
def readArguments : Nat → Nat → List Nat
  | 0, _ => []
  | nargs + 1, address =>
      let address := address + cpu.wordSize
      match readWord address with
      | none => []
      | some word => word :: readArguments nargs address

def getBacktraceFrame (ip fp nargs : Nat) : BacktraceFrame where
  ip
  name := "???"
  arguments := readArguments cpu readWord nargs (fp + cpu.wordSize)

/-- How many arguments a frame is guessed to have. -/
def guessArguments (maxArgs fp nextfp : Nat) : Nat :=
  if fp ≠ 0 ∧ nextfp ≠ 0 then
    (min (((nextfp : Int) - fp) / cpu.wordSize - 2) maxArgs).toNat
  else 0

/-- What reading the next frame pointer gives, with `0` for `None`: both end the stack. -/
def readNext (fp : Nat) : Nat :=
  match readWord fp with
  | none => 0
  | some nextfp => nextfp

def getBacktraceFrom (maxArgs maxDepth depth ip fp : Nat) (frames : List BacktraceFrame) :
    Except Failure Backtrace :=
  if maxDepth ≤ depth then .ok { frames, truncated := true }
  else
    let nextfp := readNext readWord fp
    let nargs := guessArguments cpu maxArgs fp nextfp
    let frames := frames ++ [getBacktraceFrame cpu readWord ip fp nargs]
    if nextfp = 0 then .ok { frames, truncated := false }
    else
      match readWord (fp + cpu.wordSize) with
      | none => .error .ptraceError
      | some ip =>
          if ip = cpu.maxUint then .ok { frames, truncated := false }
          else getBacktraceFrom maxArgs maxDepth (depth + 1) ip nextfp frames
termination_by maxDepth - depth

/-- The process gives its instruction pointer and its frame pointer. -/
def getBacktrace (ip fp maxArgs maxDepth : Nat) : Except Failure Backtrace :=
  getBacktraceFrom cpu readWord maxArgs maxDepth 0 ip fp []

end Code

/-! The chain of frames, without regard to what is read in the course of it. -/

structure Link where
  ip : Nat
  fp : Nat
  deriving DecidableEq, Repr

section Chain

variable (cpu : CpuInfo) (readWord : Nat → Option Nat)

/-- The frame that called this one: its frame pointer is what this one points to, its
instruction pointer is the return address above. -/
def Link.caller (link : Link) : Option Link :=
  match readWord link.fp, readWord (link.fp + cpu.wordSize) with
  | some fp, some ip => if fp = 0 ∨ ip = cpu.maxUint then none else some { ip, fp }
  | _, _ => none

def chain (first : Link) : Nat → Option Link
  | 0 => some first
  | depth + 1 => (chain first depth).bind (Link.caller cpu readWord)

/-- The frame of a link, with as many of the guessed arguments as can be read. -/
def Link.frame (maxArgs : Nat) (link : Link) : BacktraceFrame :=
  getBacktraceFrame cpu readWord link.ip link.fp
    (guessArguments cpu maxArgs link.fp (readNext readWord link.fp))

/-- The first `maxDepth` frames of the chain, and whether there are more. -/
def BacktraceExact (first : Link) (maxArgs maxDepth : Nat)
    (result : Except Failure Backtrace) : Prop :=
  ∃ backtrace, result = .ok backtrace ∧
    backtrace.frames = (List.range maxDepth).filterMap (fun depth =>
      (chain cpu readWord first depth).map (Link.frame cpu readWord maxArgs)) ∧
    (backtrace.truncated = true ↔ chain cpu readWord first maxDepth ≠ none)

/-- The return address of a link can be read, or its frame pointer ends the stack. -/
def Link.Returns (link : Link) : Prop :=
  readNext readWord link.fp = 0 ∨ readWord (link.fp + cpu.wordSize) ≠ none

variable {cpu readWord} {first : Link}

theorem chain_none {depth : Nat} (ended : chain cpu readWord first depth = none) (more : Nat) :
    chain cpu readWord first (depth + more) = none := by
  induction more with
  | zero => exact ended
  | succ more induction => rw [← Nat.add_assoc, chain, induction]; rfl

/-- The frames of a stretch of the chain. -/
def framesFrom (cpu : CpuInfo) (readWord : Nat → Option Nat) (first : Link)
    (maxArgs depth count : Nat) : List BacktraceFrame :=
  (List.range' depth count).filterMap fun depth =>
    (chain cpu readWord first depth).map (Link.frame cpu readWord maxArgs)

theorem framesFrom_ended (maxArgs : Nat) {depth : Nat}
    (ended : chain cpu readWord first depth = none) (count : Nat) :
    framesFrom cpu readWord first maxArgs depth count = [] := by
  refine List.filterMap_eq_nil_iff.mpr fun other member => ?_
  obtain ⟨more, -, rfl⟩ := List.mem_range'.mp member
  rw [Nat.one_mul, chain_none ended]
  rfl

theorem framesFrom_succ (maxArgs : Nat) {depth : Nat} {link : Link}
    (here : chain cpu readWord first depth = some link) (count : Nat) :
    framesFrom cpu readWord first maxArgs depth (count + 1) =
      link.frame cpu readWord maxArgs ::
        framesFrom cpu readWord first maxArgs (depth + 1) count := by
  rw [framesFrom, List.range'_succ, List.filterMap_cons, here]
  rfl

/-- The loop from some link of the chain on. -/
theorem getBacktraceFrom_spec (maxArgs : Nat) (left : Nat) {maxDepth depth : Nat} {link : Link}
    (frames : List BacktraceFrame) (ahead : maxDepth = depth + left)
    (here : chain cpu readWord first depth = some link) :
    (∃ backtrace, getBacktraceFrom cpu readWord maxArgs maxDepth depth link.ip link.fp frames =
        .ok backtrace ∧
        backtrace.frames = frames ++ framesFrom cpu readWord first maxArgs depth left ∧
        (backtrace.truncated = true ↔ chain cpu readWord first maxDepth ≠ none) ∧
        ∀ other, depth ≤ other → other < maxDepth → ∀ visited,
          chain cpu readWord first other = some visited → visited.Returns cpu readWord) ∨
      ∃ failure, getBacktraceFrom cpu readWord maxArgs maxDepth depth link.ip link.fp frames =
        .error failure ∧
        ∃ other visited, depth ≤ other ∧ other < maxDepth ∧
          chain cpu readWord first other = some visited ∧ ¬ visited.Returns cpu readWord := by
  induction left generalizing depth link frames with
  | zero =>
      refine .inl ⟨_, by rw [getBacktraceFrom, if_pos (by omega)], ?_, ?_, ?_⟩
      · simp [framesFrom]
      · rw [ahead, Nat.add_zero, here]
        simp
      · intro other above below
        omega
  | succ left induction =>
      have more : ¬ maxDepth ≤ depth := by omega
      have stretch := framesFrom_succ maxArgs here left
      have next : chain cpu readWord first (depth + 1) = link.caller cpu readWord := by
        rw [chain, here]
        rfl
      -- the chain ends behind this link
      have last (ended : link.caller cpu readWord = none)
          (returns : link.Returns cpu readWord) :
          frames ++ [link.frame cpu readWord maxArgs] =
              frames ++ framesFrom cpu readWord first maxArgs depth (left + 1) ∧
            chain cpu readWord first maxDepth = none ∧
            ∀ other, depth ≤ other → other < maxDepth → ∀ visited,
              chain cpu readWord first other = some visited →
                visited.Returns cpu readWord := by
        rw [ended] at next
        refine ⟨?_, ?_, ?_⟩
        · rw [stretch, framesFrom_ended maxArgs next]
        · rw [ahead, Nat.add_comm left, ← Nat.add_assoc]
          exact chain_none next left
        · intro other above below visited reached
          obtain ⟨further, rfl⟩ := Nat.le.dest above
          cases further with
          | zero =>
              rw [Nat.add_zero, here] at reached
              cases reached
              exact returns
          | succ further =>
              rw [Nat.add_comm further, ← Nat.add_assoc, chain_none next] at reached
              cases reached
      rw [getBacktraceFrom, if_neg more]
      dsimp only
      by_cases stop : readNext readWord link.fp = 0
      · have ended : link.caller cpu readWord = none := by
          unfold Link.caller
          unfold readNext at stop
          split
          · rename_i fp ip readFp readIp
            rw [readFp] at stop
            exact if_pos (.inl stop)
          · rfl
        obtain ⟨same, none, returns⟩ := last ended (.inl stop)
        exact .inl ⟨_, if_pos stop, same, by simp [none], returns⟩
      · rw [if_neg stop]
        cases address : readWord (link.fp + cpu.wordSize) with
        | none =>
            refine .inr ⟨.ptraceError, rfl, depth, link, le_rfl, by omega, here, ?_⟩
            rintro (zero | readable)
            · exact stop zero
            · exact readable address
        | some ip =>
            have returns : link.Returns cpu readWord := .inr (by rw [address]; simp)
            dsimp only
            have caller : link.caller cpu readWord =
                if ip = cpu.maxUint then none
                else some { ip, fp := readNext readWord link.fp } := by
              unfold Link.caller
              unfold readNext at stop ⊢
              cases pointer : readWord link.fp with
              | none =>
                  rw [pointer] at stop
                  exact absurd rfl stop
              | some fp =>
                  rw [pointer] at stop
                  rw [address]
                  simp only [or_iff_right (show ¬ fp = 0 from stop)]
            by_cases final : ip = cpu.maxUint
            · obtain ⟨same, none, visited⟩ := last (by rw [caller, if_pos final]) returns
              exact .inl ⟨_, if_pos final, same, by simp [none], visited⟩
            · rw [if_neg final]
              rw [caller, if_neg final] at next
              obtain ⟨backtrace, walked, walkedFrames, flag, visited⟩ |
                  ⟨failure, walked, other, visited, above, below, reached, broken⟩ :=
                induction (frames ++ [link.frame cpu readWord maxArgs]) (by omega) next
              · refine .inl ⟨backtrace, walked, ?_, flag, ?_⟩
                · rw [walkedFrames, stretch, List.append_assoc, List.singleton_append]
                · intro other above below link' reached
                  by_cases same : other = depth
                  · rw [same, here] at reached
                    cases reached
                    exact returns
                  · exact visited other (by omega) below link' reached
              · exact .inr ⟨failure, walked, other, visited, by omega, below, reached, broken⟩

/-- The backtrace is exact when the return address of every visited frame that has a caller can
be read. -/
theorem getBacktrace_exact_iff (cpu : CpuInfo) (readWord : Nat → Option Nat)
    (ip fp maxArgs maxDepth : Nat) :
    BacktraceExact cpu readWord ⟨ip, fp⟩ maxArgs maxDepth
        (getBacktrace cpu readWord ip fp maxArgs maxDepth) ↔
      ∀ depth < maxDepth, ∀ link, chain cpu readWord ⟨ip, fp⟩ depth = some link →
        link.Returns cpu readWord := by
  have start : chain cpu readWord ⟨ip, fp⟩ 0 = some ⟨ip, fp⟩ := rfl
  unfold BacktraceExact getBacktrace
  obtain ⟨backtrace, walked, frames, flag, visited⟩ |
      ⟨failure, walked, other, visited, above, below, reached, broken⟩ :=
    getBacktraceFrom_spec maxArgs maxDepth [] (Nat.zero_add maxDepth).symm start
  · rw [List.nil_append, framesFrom, ← List.range_eq_range'] at frames
    refine iff_of_true ⟨backtrace, walked, frames, flag⟩ ?_
    exact fun depth bound => visited depth (Nat.zero_le depth) bound
  · refine iff_of_false ?_ fun returns => broken (returns other below visited reached)
    rintro ⟨backtrace, same, -⟩
    rw [walked] at same
    cases same

/-- A frame pointer that can be read and a return address that cannot. -/
theorem getBacktrace_not_exact :
    ¬ BacktraceExact ⟨false, false⟩
      (fun address => if address = 16 then some 32 else none) ⟨1, 16⟩ 6 20
      (getBacktrace ⟨false, false⟩
        (fun address => if address = 16 then some 32 else none) 1 16 6 20) := by
  rintro ⟨backtrace, same, -⟩
  simp [getBacktrace, getBacktraceFrom, readNext, CpuInfo.wordSize] at same

end Chain

end Segvault.Ptrace
