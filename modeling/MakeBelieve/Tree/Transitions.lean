import MakeBelieve.Library.Worklist
import MakeBelieve.Tree.State

namespace MakeBelieve.Tree

open Coordinator (AttemptId)

/-- `BuildResult`: the output built and the inputs read, or why it failed and what it read. -/
inductive BuildResult
  | built (bytes : Bytes) (inputs : List Path)
  | failed (error : ErrorCode) (inputs : List Path)
  deriving DecidableEq

namespace BuildResult

def error : BuildResult → ErrorCode
  | built _ _ => .success
  | failed error _ => error

def isBuilt : BuildResult → Bool
  | built _ _ => true
  | failed _ _ => false

/-- A build that was stopped, as when the tree is going. -/
def stopped (result : BuildResult) : Bool :=
  decide (result.error = .operationCanceled) && !result.isBuilt

end BuildResult

/-- A successful build to keep in the cache, as `finish_build` found it. -/
structure Keep where
  command : Command
  inputs : List Path
  mtime : Int64
  invalidationsAtStart : Nat
  deriving DecidableEq

namespace State

/-- What `bring_up_to_date` makes of its lookup `m_attempts[output]`, and of a trace. -/
def opened (s : State) (output : Path) (command : Command) : State :=
  { s with
    materialized := Function.update s.materialized output true
    stale := if command.action = .tracing ∧ s.inFlight output = false
      then Function.update s.stale output true else s.stale
    attempts := Function.update s.attempts output (some ((s.attempts output).getD {})) }

/-- The next attempt at an output in flight and stale, made if no open waits on it yet. -/
def nextAttempt (s : State) (output : Path) : AttemptId × State :=
  let attempts := (s.attempts output).getD {}
  match attempts.next with
  | some next => (next, s)
  | none =>
    (s.attemptCount,
      { s.createAttempt output attempts.current with
        attempts := Function.update s.attempts output
          (some { attempts with next := some s.attemptCount }) })

/-- What a request of the tree comes to: the attempt to wait on, if any, and a build to launch. -/
structure Asked where
  target : Option AttemptId := none
  launch : Option Launch := none
  deriving DecidableEq

def bringUpToDate (s : State) (output : Path) : Asked × State :=
  match s.commands.find output with
  | none => ({}, s)
  | some command =>
    let s := s.opened output command
    if s.inFlight output then
      if s.stale output then
        let (next, s) := s.nextAttempt output
        ({ target := some next }, s)
      else ({ target := ((s.attempts output).getD {}).current }, s)
    else if s.stale output then
      ({ target := some (s.claimedAttempt output), launch := some (s.launch output) },
        s.claimBuild output)
    else ({}, s)

def startBuild (s : State) (output : Path) : Option Launch × State :=
  if s.stale output = false ∨ s.inFlight output ∨ s.declared output = false then (none, s)
  else (some (s.launch output), s.claimBuild output)

/-- The outputs every one of which counts as opened from now on. -/
def untraced (commands : Commands) : List Path :=
  (commands.entries.filter fun command => command.action ≠ .tracing).map Command.output

def materialize (s : State) : List Path × State :=
  let outputs := untraced s.commands
  (outputs, { s with
    materializeAll := true
    materialized := fun output => s.materialized output || decide (output ∈ outputs) })

section

variable (contentHash : Bytes → Hash) (cached : Bool)

/-- `finish_build` before the content is written, for an output still declared. -/
def publish (s : State) (output : Path) (command : Command) (bytes : Bytes) (inputs : List Path)
    (builtAt : Int64) : Option Keep × State :=
  let inputs := s.addReads output inputs
  let hashed := if cached then
      { s with hashes := Function.update s.hashes output (some (contentHash bytes)) }
    else s
  let keep : Keep :=
    { command, inputs, mtime := builtAt
      invalidationsAtStart := ((s.attempts output).getD {}).invalidationsAtStart }
  (if cached ∧ command.action ≠ .tracing then some keep else none,
    hashed.updateDependents output inputs)

end

/-- What `finish_build` does under the layout's lock: the content goes in, with what to keep of it,
if there is any and its output is still declared. -/
def finishContent (contentHash : Bytes → Hash) (cached : Bool) (s : State) (output : Path)
    (builtAt : Int64) : BuildResult → Option Keep × State
  | .failed _ _ => (none, s)
  | .built bytes inputs =>
    match s.commands.find output with
    | none => (none, s)
    | some command =>
      let (keep, s) := s.publish contentHash cached output command bytes inputs builtAt
      (keep, s.writeFile output ⟨bytes, builtAt⟩)

/-- What a build leaves to do once its output is no longer in flight. -/
structure Settled where
  next : Option Launch := none
  orphaned : Option AttemptId := none
  deriving DecidableEq

/-- A failure's reads, which take the place of its output's inputs unless it read nothing. -/
def recordFailure (s : State) (output : Path) : BuildResult → State
  | .built _ _ => s
  | .failed _ inputs =>
    if s.declared output then
      let inputs := s.addReads output inputs
      if inputs = [] then s else s.updateDependents output inputs
    else s

/-- The second half of `finish_build` under `m_mutex`. -/
def settle (s : State) (output : Path) (result : BuildResult) : Settled × State :=
  let s := s.recordFailure output result
  let s := { s with
    inFlight := Function.update s.inFlight output false
    reads := Function.update s.reads output none }
  let next := ((s.attempts output).getD {}).next
  if s.declared output = false then
    ({ orphaned := next }, { s with attempts := Function.update s.attempts output none })
  else
    let changed := s.stale output
    let stopped := decide (result.error = .operationCanceled) && !result.isBuilt
    let s := if result.isBuilt then s else s.markStale output
    if next.isSome || (changed && !stopped && s.materialized output) then
      ({ next := some (s.launch output) }, s.claimBuild output)
    else ({}, s)

/-- What `apply_rules` has found to come, go or change. -/
structure Changes where
  removed : List Path := []
  added : List Path := []
  changed : List Path := []
  deriving DecidableEq

def changesTo (s : State) (commands : Commands) : Changes where
  removed := (s.commands.entries.map Command.output).filter fun output =>
    (commands.find output).isNone
  added := (commands.entries.map Command.output).filter fun output => s.declared output = false
  changed := (commands.entries.filter fun command =>
    match s.commands.find command.output with
    | none => s.materializeAll ∧ command.action ≠ .tracing
    | some before => before ≠ command).map Command.output

def addOutput (s : State) (command : Command) : State :=
  if s.declared command.output then s
  else
    { s.markStale command.output with
      materialized := if s.materializeAll ∧ command.action ≠ .tracing
        then Function.update s.materialized command.output true else s.materialized }

def removeOutput (s : State) (output : Path) : State :=
  let s := { s with
    stale := Function.update s.stale output false
    materialized := Function.update s.materialized output false
    hashes := Function.update s.hashes output none
    invalidations := Function.update s.invalidations output (s.invalidations output + 1)
    attempts := if s.inFlight output then s.attempts
      else Function.update s.attempts output none }
  let s := s.updateDependents output []
  { s with dependencies := Function.update s.dependencies output none }

/-- The bookkeeping of `apply_rules`, under both locks. -/
def takeCommands (s : State) (commands : Commands) : Changes × State :=
  let changes := s.changesTo commands
  let s := commands.entries.foldl addOutput s
  let s := changes.removed.foldl removeOutput s
  (changes, { s with commands })

def removeFile (s : State) (output : Path) : State :=
  { s with files := Function.update s.files output none }

/-- `k_placeholder_content`: a single null byte. -/
def placeholder (mtime : Int64) : File := ⟨[0], mtime⟩

/-- The readers, as last recorded, of each of `outputs`. -/
def readersOf (s : State) (outputs : List Path) : List Path :=
  outputs.flatMap fun output => membersOf s.dependents (asInput output)

/-- The outputs a source change affects. -/
def affected (s : State) (everythingDirty : Bool) (entriesChanged : List Path) : List Path :=
  if everythingDirty then s.commands.entries.map Command.output
  else entriesChanged.flatMap fun path => membersOf s.dependents path

/-- What `invalidate` keeps as it goes: the outputs marked, and those to rebuild eagerly. -/
structure Marking where
  state : State
  seen : List Path := []
  eager : List Path := []

def Marking.done (m : Marking) (output : Path) : Bool :=
  m.state.declared output = false || output ∈ m.seen

def Marking.mark (m : Marking) (output : Path) : Marking where
  state :=
    { m.state.markStale output with
      invalidations :=
        Function.update m.state.invalidations output (m.state.invalidations output + 1) }
  seen := output :: m.seen
  eager := if m.state.materialized output && !m.state.inFlight output
    then m.eager ++ [output] else m.eager

/-- As `outputs.back()` is the list's head, the readers go in front, the last of them first. -/
def Marking.next (m : Marking) (output : Path) : List Path :=
  (membersOf m.state.dependents (asInput output)).reverse

/-- Every push the walk can make: each declared output's readers, pushed once. -/
def walkFuel (s : State) (outputs : List Path) : Nat :=
  outputs.length + (s.readersOf (s.commands.entries.map Command.output)).length

/-- The marking of `invalidate`, under `m_mutex`. -/
def invalidate (s : State) (outputs : List Path) : Marking :=
  Library.Worklist.loop Marking.done Marking.mark Marking.next (s.walkFuel outputs)
    { state := s } outputs.reverse

/-- What `keep_in_cache` finds under `m_mutex`: a hash for each output read, if the build still
describes the output. -/
def outputStamps (s : State) : List Path → Option (List Input)
  | [] => some []
  | input :: inputs =>
    match outputNamedBy input with
    | none => outputStamps s inputs
    | some read =>
      match s.hashes read, outputStamps s inputs with
      | some hash, some stamps => some ({ path := input, hash } :: stamps)
      | _, _ => none

def stampOutputs (s : State) (output : Path) (keep : Keep) : Option (List Input) :=
  if s.invalidations output = keep.invalidationsAtStart then s.outputStamps keep.inputs else none

end State

end MakeBelieve.Tree
