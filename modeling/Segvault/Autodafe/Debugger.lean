import Segvault.Bytes
import Segvault.Segments

namespace Segvault.Autodafe

open Bytes Segments

/-! The protocol between the fuzzer and the debugger: `proto.h`. -/

def majorVersion : Nat := 0
def minorVersion : Nat := 1

def inetVersionAMsg : UInt8 := 0x00
def inetAckMsg : UInt8 := 0x01
def inetStartAMsg : UInt8 := 0x02
def inetStringAMsg : UInt8 := 0x03
def inetSigsegvMsg : UInt8 := 0x04
def inetWeightMsg : UInt8 := 0x05
def inetExitMsg : UInt8 := 0x06

/-- The messages that the fuzzer sends, each answered by `INET_ACK_MSG`. -/
inductive FuzzerMessage
  | version
  | string (id : UInt32) (content : List UInt8)
  | start
  deriving DecidableEq, Repr

/-- The messages that the debugger sends once the fuzzer has started. -/
inductive DebuggerMessage
  | sigsegv
  | weight (id : UInt32)
  | exit
  deriving DecidableEq, Repr

/-! The fuzzer writes: `dbg.c`. -/

/-- The parts of the buffer that `dbg_send_msg` fills. -/
def FuzzerMessage.fields : FuzzerMessage → List (List UInt8)
  | .version => [[inetVersionAMsg], bigEndian32 majorVersion, bigEndian32 minorVersion]
  | .string id content =>
      [[inetStringAMsg], bigEndian32 id.toNat, bigEndian32 content.length, content]
  | .start => [[inetStartAMsg]]

/-- The size of the write, `1+4+4+size`, is an unsigned int. -/
def dbgSendMsg (message : FuzzerMessage) : List UInt8 :=
  message.fields.flatten.take (message.fields.flatten.length % 2 ^ 32)

/-- The strings of the script, and the start of the fuzzing. -/
def stringMessages : List (UInt32 × List UInt8) → List FuzzerMessage
  | [] => [.start]
  | (id, content) :: strings => .string id content :: stringMessages strings

/-- What the fuzzer says from `dbg_connection` on. -/
def fuzzerMessages (strings : List (UInt32 × List UInt8)) : List FuzzerMessage :=
  .version :: stringMessages strings

/-! The debugger reads: `network.c`. -/

/-- `strings` are the monitored strings, `output` what has been written to the fuzzer. -/
structure Debugger where
  input : List (List UInt8)
  strings : List (UInt32 × List UInt8) := []
  output : List UInt8 := []

/-- An answer of no bytes ends the debugger; a short one is not noticed. -/
def inetRead (count : Nat) (dbg : Debugger) : Option (List UInt8 × Debugger) :=
  if (read count dbg.input).1 = [] then none
  else some ((read count dbg.input).1, { dbg with input := (read count dbg.input).2 })

/-- A zeroed buffer after a read. -/
def zeroed (count : Nat) (bytes : List UInt8) : List UInt8 :=
  bytes ++ List.replicate (count - bytes.length) 0

/-- An integer that was 0, after the read and `ntohl`. -/
def inetReadInt (dbg : Debugger) : Option (Nat × Debugger) := do
  let (bytes, dbg) ← inetRead 4 dbg
  return (ofBigEndian (zeroed 4 bytes), dbg)

def inetFetchMsg (dbg : Debugger) : Option (UInt8 × Debugger) := do
  let (bytes, dbg) ← inetRead 1 dbg
  return (bytes.headD 0, dbg)

/-- The entry at the end of the list, unless the string is monitored already. -/
def Debugger.monitor (dbg : Debugger) (id : UInt32) (string : List UInt8) : Debugger :=
  if id ∈ dbg.strings.map Prod.fst then dbg
  else { dbg with strings := dbg.strings ++ [(id, string)] }

def Debugger.sendAck (dbg : Debugger) : Debugger :=
  { dbg with output := dbg.output ++ [inetAckMsg] }

/-- `none` stands for `exit(-1)`. -/
def inetDecodeMsg (opcode : UInt8) (dbg : Debugger) : Option (FuzzerMessage × Debugger) :=
  if opcode = inetVersionAMsg then do
    let (major, dbg) ← inetReadInt dbg
    let (minor, dbg) ← inetReadInt dbg
    if major ≠ majorVersion ∨ minor ≠ minorVersion then none
    else return (.version, dbg.sendAck)
  else if opcode = inetStartAMsg then
    return (.start, dbg.sendAck)
  else if opcode = inetStringAMsg then do
    let (id, dbg) ← inetReadInt dbg
    let (size, dbg) ← inetReadInt dbg
    let (bytes, dbg) ← inetRead size dbg
    let string := zeroed size bytes
    return (.string (UInt32.ofNat id) string, (dbg.monitor (UInt32.ofNat id) string).sendAck)
  else none

/-- The loop of `inet_connection`, up to the start message. -/
def inetMsgs : Nat → Debugger → Option (List FuzzerMessage × Debugger)
  | 0, _ => none
  | fuel + 1, dbg => do
      let (opcode, dbg) ← inetFetchMsg dbg
      let (message, dbg) ← inetDecodeMsg opcode dbg
      if opcode = inetStartAMsg then return ([message], dbg)
      else
        let (messages, dbg) ← inetMsgs fuel dbg
        return (message :: messages, dbg)

/-- Every round of the loop takes a byte at least. -/
def inetConnection (dbg : Debugger) : Option (List FuzzerMessage × Debugger) := do
  let (opcode, dbg) ← inetFetchMsg dbg
  if opcode ≠ inetVersionAMsg then none
  else
    let (message, dbg) ← inetDecodeMsg opcode dbg
    let (messages, dbg) ← inetMsgs (dbg.input.flatten.length + 1) dbg
    return (message :: messages, dbg)

/-! The debugger writes. -/

/-- `inet_send_msg` writes the fields one after the other. -/
def DebuggerMessage.fields : DebuggerMessage → List (List UInt8)
  | .sigsegv => [[inetSigsegvMsg]]
  | .weight id => [[inetWeightMsg], bigEndian32 id.toNat]
  | .exit => [[inetExitMsg]]

def inetSendMsg (message : DebuggerMessage) : List UInt8 := message.fields.flatten

/-- The debugger ends with a segmentation fault or the exit of the program. -/
inductive LastMessage
  | sigsegv
  | exit
  deriving DecidableEq, Repr

def LastMessage.message : LastMessage → DebuggerMessage
  | .sigsegv => .sigsegv
  | .exit => .exit

/-- What the debugger says while the program runs. -/
def debuggerMessages (weights : List UInt32) (last : Option LastMessage) : List DebuggerMessage :=
  weights.map .weight ++ (last.map LastMessage.message).toList

/-! The fuzzer reads. -/

/-- `fuzz` has the id and the weight of each entry. -/
structure Fuzzer where
  input : List (List UInt8)
  fuzz : List (UInt32 × Int)

/-- `none` stands for -1: no bytes. A short answer is not noticed. -/
def dbgRead (count : Nat) (fuzzer : Fuzzer) : Option (List UInt8) × Fuzzer :=
  (if (read count fuzzer.input).1 = [] then none else some (read count fuzzer.input).1,
    { fuzzer with input := (read count fuzzer.input).2 })

def dbgWaitForAck (fuzzer : Fuzzer) : Option Fuzzer :=
  match dbgRead 1 fuzzer with
  | (none, _) => none
  | (some bytes, fuzzer) => if bytes.headD 0 ≠ inetAckMsg then none else some fuzzer

/-- The weight of the first entry with this id grows. -/
def increaseWeight (id : UInt32) : List (UInt32 × Int) → Option (List (UInt32 × Int))
  | [] => none
  | (other, weight) :: fuzz =>
      if other = id then some ((other, weight + 1) :: fuzz)
      else (increaseWeight id fuzz).map ((other, weight) :: ·)

/-- The result 1 ends the fuzzing. -/
def DebuggerMessage.quits : DebuggerMessage → Bool
  | .weight _ => false
  | .sigsegv | .exit => true

/-- `id` is not initialised: the bytes that a short read leaves are those of `stale`. Whether the
read fails is not asked. -/
def dbgReadMsg (stale : UInt32) (fuzzer : Fuzzer) : Option (DebuggerMessage × Fuzzer) :=
  match dbgRead 1 fuzzer with
  | (none, _) => none
  | (some opcode, fuzzer) =>
      if opcode.headD 0 = inetSigsegvMsg then some (.sigsegv, fuzzer)
      else if opcode.headD 0 = inetWeightMsg then
        let (bytes, fuzzer) := dbgRead 4 fuzzer
        let bytes := bytes.getD []
        let id := UInt32.ofNat
          (ofBigEndian (bytes ++ (bigEndian32 stale.toNat).drop bytes.length))
        (increaseWeight id fuzzer.fuzz).map fun fuzz => (.weight id, { fuzzer with fuzz })
      else if opcode.headD 0 = inetExitMsg then some (.exit, fuzzer)
      else none

def dbgWaitForAcks : Nat → Fuzzer → Option Fuzzer
  | 0, fuzzer => some fuzzer
  | acks + 1, fuzzer => do
      let fuzzer ← dbgWaitForAck fuzzer
      dbgWaitForAcks acks fuzzer

/-- After each packet the fuzzer reads one message if there is something to read. -/
def dbgReadMsgs (stale : Nat → UInt32) : Nat → Fuzzer → Option (List DebuggerMessage × Fuzzer)
  | 0, fuzzer => some ([], fuzzer)
  | packets + 1, fuzzer =>
      if fuzzer.input = [] then some ([], fuzzer)
      else do
        let (message, fuzzer) ← dbgReadMsg (stale packets) fuzzer
        if message.quits then return ([message], fuzzer)
        else
          let (messages, fuzzer) ← dbgReadMsgs stale packets fuzzer
          return (message :: messages, fuzzer)

/-- The acknowledgements of the fuzzer's messages, then what the debugger says. -/
def dbgSession (stale : Nat → UInt32) (acks packets : Nat) (fuzzer : Fuzzer) :
    Option (List DebuggerMessage × Fuzzer) := do
  let fuzzer ← dbgWaitForAcks acks fuzzer
  dbgReadMsgs stale packets fuzzer

end Segvault.Autodafe
