import MakeBelieve.Coordinator.State
import MakeBelieve.Tree.Data

namespace MakeBelieve.Tree

open Coordinator (AttemptId)

structure File where
  bytes : Bytes
  mtime : Int64
  deriving DecidableEq

structure Attempts where
  current : Option AttemptId := none
  next : Option AttemptId := none
  invalidationsAtStart : Nat := 0
  deriving DecidableEq

structure Launch where
  output : Path
  attempt : AttemptId
  command : Command
  deriving DecidableEq

/-- The tree's structure, with what `m_mutex` guards, and the attempts made so far: each one's
output and the attempt it waits behind. A set is a list or a predicate, a map a function. -/
structure State where
  /-- `m_structure` -/
  files : Path → Option File := fun _ => none
  commands : Commands := {}
  stale : Path → Bool := fun _ => false
  inFlight : Path → Bool := fun _ => false
  attempts : Path → Option Attempts := fun _ => none
  reads : Path → Option (List Path) := fun _ => none
  materialized : Path → Bool := fun _ => false
  materializeAll : Bool := false
  dependencies : Path → Option (List Path) := fun _ => none
  dependents : Path → Option (List Path) := fun _ => none
  invalidations : Path → Nat := fun _ => 0
  hashes : Path → Option Hash := fun _ => none
  attemptCount : Nat := 0
  attemptOutput : AttemptId → Path := fun _ => []
  attemptPredecessor : AttemptId → Option AttemptId := fun _ => none

namespace State

def declared (s : State) (output : Path) : Bool := (s.commands.find output).isSome

/-- What is in the set the map holds for `key`: nothing where it holds none. -/
def membersOf (sets : Path → Option (List Path)) (key : Path) : List Path := (sets key).getD []

def markStale (s : State) (output : Path) : State :=
  { s with stale := Function.update s.stale output true }

def writeFile (s : State) (output : Path) (file : File) : State :=
  { s with files := Function.update s.files output (some file) }

def createAttempt (s : State) (output : Path) (predecessor : Option AttemptId) : State :=
  { s with
    attemptCount := s.attemptCount + 1
    attemptOutput := Function.update s.attemptOutput s.attemptCount output
    attemptPredecessor := Function.update s.attemptPredecessor s.attemptCount predecessor }

/-- Takes `output` out of the dependents of `input`, whose set goes once empty. -/
def dropDependent (output : Path) (dependents : Path → Option (List Path)) (input : Path) :
    Path → Option (List Path) :=
  match dependents input with
  | none => dependents
  | some readers =>
    let readers := readers.filter fun reader => reader ≠ output
    Function.update dependents input (if readers = [] then none else some readers)

def addDependent (output : Path) (dependents : Path → Option (List Path)) (input : Path) :
    Path → Option (List Path) :=
  Function.update dependents input (some ((membersOf dependents input).insert output))

def updateDependents (s : State) (output : Path) (inputs : List Path) : State :=
  let dropped := (membersOf s.dependencies output).foldl (dropDependent output) s.dependents
  { s with
    dependents := inputs.foldl (addDependent output) dropped
    dependencies := Function.update s.dependencies output (some inputs) }

def addReads (s : State) (output : Path) (inputs : List Path) : List Path :=
  inputs ++ membersOf s.reads output

def recordRead (s : State) (reader output : Path) : State :=
  match s.reads reader with
  | none => s
  | some reads =>
    { s with reads := Function.update s.reads reader (some (reads.insert (asInput output))) }

/-- The attempt `claim_build` takes: the one an open is already waiting on, or one made here. -/
def claimedAttempt (s : State) (output : Path) : AttemptId :=
  (((s.attempts output).getD {}).next).getD s.attemptCount

def claimBuild (s : State) (output : Path) : State :=
  let attempts := (s.attempts output).getD {}
  let made := match attempts.next with
    | some _ => s
    | none => s.createAttempt output none
  { made with
    attempts := Function.update s.attempts output (some
      { current := some (s.claimedAttempt output)
        next := none
        invalidationsAtStart := s.invalidations output })
    stale := Function.update s.stale output false
    inFlight := Function.update s.inFlight output true
    reads := Function.update s.reads output (some (membersOf s.reads output)) }

/-- What `claim_build` returns, which is called only for a declared output. -/
def launch (s : State) (output : Path) : Launch where
  output := output
  attempt := s.claimedAttempt output
  command := (s.commands.find output).getD { output }

end State

end MakeBelieve.Tree
