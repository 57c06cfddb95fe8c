import Segvault.Fusil.IncrMangleOp
import Segvault.Transition

namespace Segvault.Fusil

/-! The version tree of `IncrMangle`.  A version object is the list position it
is stored at: every version is appended once and the list never holds the same
object twice, so `list.index` and `list.remove` find exactly that position. -/

inductive VersionClass where
  | originalVersion
  | modifiedVersion
  deriving DecidableEq, Repr

structure DataVersion where
  cls : VersionClass
  data : Option (List UInt8)
  operations : List Operation
  version : Nat
  dirtyBits : Finset Nat
  deriving DecidableEq

def maxTry : Nat := 25000

namespace DataVersion

def clearCache (version : DataVersion) : DataVersion :=
  match version.cls with
  | .originalVersion => version
  | .modifiedVersion => { version with data := none }

/-! `if version.data:` is also false on an empty string. -/

def cached? (version : DataVersion) : Option (List UInt8) :=
  match version.data with
  | none => none
  | some [] => none
  | some (byte :: bytes) => some (byte :: bytes)

def createOperation (agent : Agent) (datalen : Nat) (dirtyBits : Finset Nat) :
    Random (Option Operation) := fun draws =>
  match choice agent.operations draws with
  | (.error error, draws) => (.error error, draws)
  | (.ok operationClass, draws) =>
      match operationClass.create agent datalen draws with
      | (.error error, draws) => (.error error, draws)
      | (.ok operation, draws) =>
          if (operation.bits ∩ dirtyBits).Nonempty then (.ok none, draws)
          else (.ok (some operation), draws)

/-! One successful turn of the `while` loop of `createVersion`: tries until an
operation touches no dirty bit.  `tries` is `MAX_TRY - nb_try`. -/

def nextOperation (agent : Agent) (datalen : Nat) (dirtyBits : Finset Nat) :
    Nat → Random Operation
  | 0 => fun draws => (.error .incrMangleError, draws)
  | tries + 1 => fun draws =>
      match createOperation agent datalen dirtyBits draws with
      | (.error error, draws) => (.error error, draws)
      | (.ok none, draws) => nextOperation agent datalen dirtyBits tries draws
      | (.ok (some operation), draws) => (.ok operation, draws)

/-! The loop: `missing` is `wanted_len - len(operations)`. -/

def addOperations (agent : Agent) (datalen : Nat) :
    Nat → List Operation → Finset Nat →
      Random (List Operation × Finset Nat)
  | 0, operations, dirtyBits => fun draws =>
      (.ok (operations, dirtyBits), draws)
  | missing + 1, operations, dirtyBits => fun draws =>
      match nextOperation agent datalen dirtyBits maxTry draws with
      | (.error error, draws) => (.error error, draws)
      | (.ok operation, draws) =>
          addOperations agent datalen missing (operations ++ [operation])
            (dirtyBits ∪ operation.bits) draws

def createVersion (previous : DataVersion) (number : Nat) (agent : Agent)
    (datalen : Nat) : Random DataVersion := fun draws =>
  match randint 1 agent.operationPerVersion draws with
  | (.error error, draws) => (.error error, draws)
  | (.ok missing, draws) =>
      match addOperations agent datalen missing.toNat previous.operations
          previous.dirtyBits draws with
      | (.error error, draws) => (.error error, draws)
      | (.ok (operations, dirtyBits), draws) =>
          (.ok {
            cls := .modifiedVersion
            data := none
            operations := operations
            version := number
            dirtyBits := dirtyBits }, draws)

end DataVersion

abbrev DataVersions := List DataVersion

namespace DataVersions

def getVersionNumber (versions : DataVersions) : Nat := versions.length + 1

/-! `self.versions[:-2]` is every version but the last two. -/

def addVersion (versions : DataVersions) (version : DataVersion) :
    DataVersions :=
  let versions := versions ++ [version]
  (versions.take (versions.length - 2)).map DataVersion.clearCache ++
    versions.drop (versions.length - 2)

def removeVersion (versions : DataVersions) (index : Nat) : DataVersions :=
  versions.eraseIdx index

/-! `self.versions[index - 1]`: the position before the first is the last. -/

def getPrevious (versions : DataVersions) (index : Nat) : Nat :=
  if index = 0 then versions.length - 1 else index - 1

def rollback (versions : DataVersions) (number : Nat) : DataVersions :=
  versions.take number

/-! The `while True` search of `createData` for a previous version that has its
data.  After one full turn round the list it would go on for ever. -/

def findPrevious (versions : DataVersions) :
    Nat → Nat → Option (DataVersion × List UInt8)
  | 0, _ => none
  | turns + 1, index =>
      let previous := getPrevious versions index
      match versions[previous]? with
      | none => none
      | some version =>
          match version.cached? with
          | some data => some (version, data)
          | none => findPrevious versions turns previous

end DataVersions

def replay (operations : List Operation) (data : List UInt8) :
    Except MangleError (List UInt8) :=
  operations.foldlM (fun data operation => operation.call data) data

/-! `createData` also stores its result in the version it is called on. -/

def createData (versions : DataVersions) (index : Nat) :
    Except MangleError (List UInt8) × DataVersions :=
  match versions[index]? with
  | none => (.error .indexError, versions)
  | some version =>
      match version.cls with
      | .originalVersion => (.ok (version.data.getD []), versions)
      | .modifiedVersion =>
          match version.cached? with
          | some data => (.ok data, versions)
          | none =>
              match versions.findPrevious versions.length index with
              | none => (.error .endless, versions)
              | some (previous, data) =>
                  match replay
                      (version.operations.drop previous.operations.length)
                      data with
                  | .error error => (.error error, versions)
                  | .ok data =>
                      (.ok data,
                        versions.set index { version with data := some data })

/-! The agent.  Scores are compared and subtracted only. -/

inductive PreviousSession where
  | init
  | error
  | success
  | normal
  deriving DecidableEq, Repr

structure IncrMangle where
  versions : DataVersions := []
  previousScore : Option Rat := none
  previousSession : PreviousSession := .init
  scoreDiff : Option Rat := none

namespace IncrMangle

def onSessionDone (self : IncrMangle) (agent : Agent) (score : Rat) :
    IncrMangle :=
  if score < 0 then
    { self with scoreDiff := none, previousSession := .error }
  else if agent.successScore ≤ score then
    { self with scoreDiff := none, previousSession := .success }
  else
    { self with
      scoreDiff := self.previousScore.map (score - ·)
      previousSession := .normal
      previousScore := some score }

/-! `version.revert()`: the original version stays. -/

def revert (versions : DataVersions) (index : Nat) : DataVersions :=
  match versions[index]? with
  | none => versions
  | some version =>
      match version.cls with
      | .originalVersion => versions
      | .modifiedVersion => versions.removeVersion index

def rollbackLast (versions : DataVersions) : Random DataVersions := fun draws =>
  match versions.getLast? with
  | none => (.error .indexError, draws)
  | some last =>
      match randint 1 last.version draws with
      | (.error error, draws) => (.error error, draws)
      | (.ok number, draws) => (.ok (versions.rollback number.toNat), draws)

/-! Called on the last version.  What it returns is the last version of the
list it leaves. -/

def checkPreviousVersion (self : IncrMangle) (agent : Agent)
    (version : DataVersion) : Random DataVersions := fun draws =>
  if self.previousSession = .success then
    (.ok (self.versions.rollback 1), draws)
  else if self.previousSession = .error then
    (.ok (revert self.versions (self.versions.length - 1)), draws)
  else if self.scoreDiff.any (· < 0) then
    (.ok (revert self.versions (self.versions.length - 1)), draws)
  else if agent.maxVersion < version.version then
    rollbackLast self.versions draws
  else
    (.ok self.versions, draws)

def originalVersion (versions : DataVersions) (data : List UInt8) :
    DataVersion where
  cls := .originalVersion
  data := some data
  operations := []
  version := versions.getVersionNumber
  dirtyBits := ∅

/-! The version `mangleData` starts from: the first session creates it. -/

def currentVersions (self : IncrMangle) (agent : Agent) (data : List UInt8) :
    Random DataVersions := fun draws =>
  match self.versions.getLast? with
  | some version => self.checkPreviousVersion agent version draws
  | none =>
      (.ok (self.versions.addVersion (originalVersion self.versions data)), draws)

/-! `createVersion` and `addVersion`; only `IncrMangleError` is caught. -/

def newVersion (versions : DataVersions) (agent : Agent) (datalen : Nat) :
    Random DataVersions := fun draws =>
  match versions.getLast? with
  | none => (.error .indexError, draws)
  | some previous =>
      match previous.createVersion versions.getVersionNumber agent datalen
          draws with
      | (.ok version, draws) => (.ok (versions.addVersion version), draws)
      | (.error .incrMangleError, draws) => rollbackLast versions draws
      | (.error error, draws) => (.error error, draws)

/-! An exception leaves the list as the steps before it made it. -/

def mangleData (self : IncrMangle) (agent : Agent) (data : List UInt8)
    (draws : Draws) : Except MangleError (List UInt8) × IncrMangle :=
  match self.currentVersions agent data draws with
  | (.error error, _) => (.error error, self)
  | (.ok versions, draws) =>
      match newVersion versions agent data.length draws with
      | (.error error, _) => (.error error, { self with versions := versions })
      | (.ok versions, _) =>
          let result := createData versions (versions.length - 1)
          (result.1, { self with versions := result.2 })

end IncrMangle

/-! `MangleAgent.readData`: an empty input file is refused, `max_size` cuts. -/

def readData (agent : Agent) (content : List UInt8) :
    Except MangleError (List UInt8) :=
  if content = [] then .error .valueError
  else
    match agent.maxSize with
    | none => .ok content
    | some 0 => .ok content
    | some (size + 1) => .ok (content.take (size + 1))

/-! The events of a fuzzing history: a session starts on the content of its
input file, a session ends with a score. -/

inductive SessionEvent where
  | start (content : List UInt8) (draws : Draws)
  | done (score : Rat)

namespace IncrMangle

def onSessionStart (self : IncrMangle) (agent : Agent) (content : List UInt8)
    (draws : Draws) : Except MangleError (List UInt8) × IncrMangle :=
  match readData agent content with
  | .error error => (.error error, self)
  | .ok data => self.mangleData agent data draws

def step (agent : Agent) (self : IncrMangle) : SessionEvent → IncrMangle
  | .start content draws => (self.onSessionStart agent content draws).2
  | .done score => self.onSessionDone agent score

def history (agent : Agent) (events : List SessionEvent) : IncrMangle :=
  Transition.run (step agent) {} events

end IncrMangle

end Segvault.Fusil
