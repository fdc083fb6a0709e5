import MakeBelieve.Coordinator.Turns
import MakeBelieve.Tree.Cycle
import MakeBelieve.Tree.Restore

namespace MakeBelieve.Tree

open Coordinator (AttemptId System)
open Library

/-- Builds are numbered in the order they are claimed. -/
abbrev BuildId := Nat

/-- How far a build has come since it was claimed: `launch_build` has it run or finishes it there
and then, and `finish_build` records its outcome, releases its waiters and keeps it in the cache. -/
inductive Stage
  | claimed
  | working
  | finishing (result : BuildResult)
  /-- Under the layout's lock, with the content still to go in. -/
  | writing (result : BuildResult) (builtAt : Int64) (keep : Option Keep)
  | published (result : BuildResult) (keep : Option Keep)
  | settled (result : BuildResult) (keep : Option Keep) (orphaned : Option AttemptId)
  | released (result : BuildResult) (keep : Option Keep) (orphaned : AttemptId)
  | keeping (bytes : Bytes) (keep : Keep)
  /-- Under the cache's lock, with source files still to be stamped. -/
  | stamping (bytes : Bytes) (keep : Keep) (left : List Path) (stamps : Option (List Input))
  | over
  deriving DecidableEq

structure Build where
  launch : Launch
  stage : Stage := .claimed
  /-- The build whose `finish_build` claimed this one, and launches it last of all. -/
  behind : Option BuildId := none
  /-- How often its output had been invalidated by the time it was claimed. -/
  claimedAt : Nat := 0

/-- Who holds `m_layout_mutex`. -/
inductive Holder
  | build (b : BuildId)
  | callback
  deriving DecidableEq

/-- What `on_source_change` has yet to do, one step of it for each section under a lock. -/
inductive Task
  | applyRules (commands : Commands)
  | removeFile (output : Path)
  | writePlaceholder (output : Path)
  | leaveLayout
  | collectReaders (changes : State.Changes)
  | forget (outputs : List Path)
  | collectAffected (everythingDirty : Bool) (entriesChanged : List Path)
  | invalidate (outputs : List Path)
  | startBuild (output : Path)

/-- Where the content served for an output comes from. -/
inductive Origin
  | placeholder
  | restored
  | build (b : BuildId)
  deriving DecidableEq

/-- The tree with everything that runs in it: the builds and how far each has come, the callback
under way, the builds `materialize_all` has yet to start, and who holds which lock. -/
structure World where
  tree : State := {}
  cache : Cache := {}
  source : Source := fun _ => none
  system : System := {}
  builds : BuildId → Build := fun _ => { launch := ⟨[], 0, { output := [] }⟩, stage := .over }
  buildCount : Nat := 0
  layout : Option Holder := none
  cacheHolder : Option BuildId := none
  todo : List Task := []
  starting : List Path := []
  origin : Path → Option Origin := fun _ => none
  lastResult : Path → Option BuildResult := fun _ => none

/-- How `launch_build` ends: the build is served there and then, runs, or cannot be run. -/
inductive Start
  | traced (bytes : Bytes)
  | ran
  | threw (error : ErrorCode)

inductive Event
  | bringUpToDate (output : Path)
  | recordRead (reader output : Path)
  | materializeAll
  | startNext (output : Path)
  | launch (b : BuildId) (start : Start)
  | endWork (b : BuildId) (result : BuildResult)
  | publish (b : BuildId) (builtAt : Int64)
  | write (b : BuildId)
  | settle (b : BuildId)
  | complete (b : BuildId)
  | completeOrphaned (b : BuildId)
  | beginKeeping (b : BuildId)
  | stamp (b : BuildId)
  | store (b : BuildId) (ok : Bool)
  | editSource (source : Source)
  | sourceChange (everythingDirty : Bool) (entriesChanged : List Path) (rules : Option Commands)
  | resume (now : Int64) (ok : Bool)
  | coordinator (e : Coordinator.Event)

/-- Whether `launch_build` may end this way for the command. -/
def Start.fits (command : Command) : Start → Prop
  | .traced _ => command.action = .tracing
  | _ => command.action ≠ .tracing

/-- The locks the callback's next step takes. -/
def Task.Free (w : World) : Task → Prop
  | .applyRules _ => w.layout = none
  -- With nothing to forget it is not the cache's turn.
  | .forget outputs => outputs = [] ∨ w.cacheHolder = none
  | _ => True

namespace World

variable (contentHash : Bytes → Hash) (cached : Bool) (w : World)

def setStage (b : BuildId) (stage : Stage) : World :=
  { w with builds := Function.update w.builds b { w.builds b with stage } }

/-- The tree after a step under `m_mutex`, with any attempt it made made by the coordinator. -/
def enter (tree : State) : World :=
  { w with
    tree
    system := if w.tree.attemptCount < tree.attemptCount
      then w.system.step (.createAttempt (tree.attemptOutput w.tree.attemptCount)
        (tree.attemptPredecessor w.tree.attemptCount))
      else w.system }

/-- The build just claimed, if one was. -/
def addBuild (launch : Option Launch) (behind : Option BuildId) : World :=
  match launch with
  | none => w
  | some launch =>
    { w with
      builds := Function.update w.builds w.buildCount
        { launch, behind, claimedAt := w.tree.invalidations launch.output }
      buildCount := w.buildCount + 1 }

def bringUpToDate (output : Path) : World :=
  let (asked, tree) := w.tree.bringUpToDate output
  (w.enter tree).addBuild asked.launch none

def startBuild (output : Path) : World :=
  let (launch, tree) := w.tree.startBuild output
  (w.enter tree).addBuild launch none

/-- `launch_build` -/
def launch (b : BuildId) : Start → World
  | .traced bytes => w.setStage b (.finishing (.built bytes []))
  | .ran =>
    { w.setStage b .working with system := w.system.step (.run (w.builds b).launch.attempt) }
  | .threw error => w.setStage b (.finishing (.failed error []))

/-- What is left of `finish_build` once the waiters are released. -/
def afterRelease : BuildResult → Option Keep → Stage
  | .built bytes _, some keep => .keeping bytes keep
  | _, _ => .over

def publish (b : BuildId) (builtAt : Int64) : World :=
  let output := (w.builds b).launch.output
  match (w.builds b).stage with
  | .finishing (.built bytes inputs) =>
    match w.tree.commands.find output with
    | none => w.setStage b (.published (.built bytes inputs) none)
    | some command =>
      let (keep, tree) := w.tree.publish contentHash cached output command bytes inputs builtAt
      { (w.setStage b (.writing (.built bytes inputs) builtAt keep)) with
        tree, layout := some (.build b) }
  | _ => w

def write (b : BuildId) : World :=
  let output := (w.builds b).launch.output
  match (w.builds b).stage with
  | .writing (.built bytes inputs) builtAt keep =>
    { (w.setStage b (.published (.built bytes inputs) keep)) with
      tree := w.tree.writeFile output ⟨bytes, builtAt⟩
      layout := none
      origin := Function.update w.origin output (some (.build b)) }
  | _ => w

/-- The second part of `finish_build` under `m_mutex`, given what the build came to. -/
def settleWith (b : BuildId) (result : BuildResult) (keep : Option Keep) : World :=
  let output := (w.builds b).launch.output
  let (settled, tree) := w.tree.settle output result
  let w := { w with lastResult := Function.update w.lastResult output (some result) }
  ((w.setStage b (.settled result keep settled.orphaned)).enter tree).addBuild settled.next (some b)

def settle (b : BuildId) : World :=
  match (w.builds b).stage with
  | .finishing result => w.settleWith b result none
  | .published result keep => w.settleWith b result keep
  | _ => w

def complete (b : BuildId) : World :=
  match (w.builds b).stage with
  | .settled result keep orphaned =>
    { w.setStage b (match orphaned with
        | some orphaned => .released result keep orphaned
        | none => afterRelease result keep) with
      system := w.system.step (.complete (w.builds b).launch.attempt result.error) }
  | _ => w

def completeOrphaned (b : BuildId) : World :=
  match (w.builds b).stage with
  | .released result keep orphaned =>
    { w.setStage b (afterRelease result keep) with
      system := w.system.step (.complete orphaned .noSuchFileOrDirectory) }
  | _ => w

/-- The part of `keep_in_cache` under `m_mutex`. -/
def beginKeeping (b : BuildId) : World :=
  match (w.builds b).stage with
  | .keeping bytes keep =>
    { w.setStage b (.stamping bytes keep
        (keep.inputs.filter fun input => (outputNamedBy input).isNone)
        (w.tree.stampOutputs (w.builds b).launch.output keep)) with
      cacheHolder := some b }
  | _ => w

def stamp (b : BuildId) : World :=
  match (w.builds b).stage with
  | .stamping bytes keep (input :: left) (some stamps) =>
    w.setStage b (.stamping bytes keep left
      ((stampSource w.source input).map fun stamp => stamps ++ [stamp]))
  | _ => w

/-- The end of `keep_in_cache`, whose call of the cache may fail. -/
def store (b : BuildId) (ok : Bool) : World :=
  match (w.builds b).stage with
  | .stamping bytes keep _ stamps =>
    { w.setStage b .over with
      cacheHolder := none
      cache := if ok then
          match stamps with
          | some stamps => w.cache.store contentHash keep.command bytes keep.mtime stamps
          | none => w.cache.forget [(w.builds b).launch.output]
        else w.cache }
  | _ => w

/-- The callback's next step. -/
def resume (now : Int64) (ok : Bool) : World :=
  match w.todo with
  | [] => w
  | .applyRules commands :: todo =>
    let (changes, tree) := w.tree.takeCommands commands
    { w with
      tree
      layout := some .callback
      todo := changes.removed.map Task.removeFile ++ changes.added.map Task.writePlaceholder ++
        .leaveLayout :: .collectReaders changes :: todo }
  | .removeFile output :: todo =>
    { w with
      tree := w.tree.removeFile output, todo
      origin := Function.update w.origin output none }
  | .writePlaceholder output :: todo =>
    { w with
      tree := w.tree.writeFile output (State.placeholder now), todo
      origin := Function.update w.origin output (some .placeholder) }
  | .leaveLayout :: todo => { w with layout := none, todo }
  | .collectReaders changes :: todo =>
    { w with
      todo := .forget changes.removed ::
        .invalidate (changes.changed ++ w.tree.readersOf (changes.removed ++ changes.added)) ::
        todo }
  | .forget outputs :: todo =>
    { w with todo, cache := if ok then w.cache.forget outputs else w.cache }
  | .collectAffected everythingDirty entriesChanged :: todo =>
    { w with todo := .invalidate (w.tree.affected everythingDirty entriesChanged) :: todo }
  | .invalidate outputs :: todo =>
    let marking := w.tree.invalidate outputs
    { w with
      tree := marking.state
      todo := .forget marking.seen :: marking.eager.map Task.startBuild ++ todo }
  | .startBuild output :: todo => { w with todo }.startBuild output

def step : Event → World
  | .bringUpToDate output => w.bringUpToDate output
  | .recordRead reader output => { w with tree := w.tree.recordRead reader output }
  | .materializeAll =>
    let (outputs, tree) := w.tree.materialize
    { w with tree, starting := w.starting ++ outputs }
  | .startNext output => { w with starting := w.starting.erase output }.startBuild output
  | .launch b start => w.launch b start
  | .endWork b result => w.setStage b (.finishing
      (Coordinator.runResult (w.system.coord.attempts (w.builds b).launch.attempt).toControl result))
  | .publish b builtAt => w.publish contentHash cached b builtAt
  | .write b => w.write b
  | .settle b => w.settle b
  | .complete b => w.complete b
  | .completeOrphaned b => w.completeOrphaned b
  | .beginKeeping b => w.beginKeeping b
  | .stamp b => w.stamp b
  | .store b ok => w.store contentHash b ok
  | .editSource source => { w with source }
  | .sourceChange everythingDirty entriesChanged rules =>
    { w with todo := (rules.map Task.applyRules).toList ++
        [.collectAffected everythingDirty entriesChanged] }
  | .resume now ok => w.resume now ok
  | .coordinator e => { w with system := w.system.step e }

/-- What of the coordinator goes on by itself, or at the asking of opens and builds under way. -/
def Proceeds (w : World) : Coordinator.Event → Prop
  | .createAttempt _ _ => False
  | .run _ => False
  | .complete _ _ => False
  | .onPermit a => ∃ b, (w.builds b).stage = .working ∧ (w.builds b).launch.attempt = a
  | _ => True

def enabled (w : World) : Event → Prop
  | .bringUpToDate _ => True
  | .recordRead _ _ => True
  | .materializeAll => True
  | .startNext output => output ∈ w.starting
  | .launch b start => (w.builds b).stage = .claimed ∧
      (∀ c, (w.builds b).behind = some c → (w.builds c).stage = .over) ∧
      start.fits (w.builds b).launch.command
  -- Its work is over, or was stopped before it had a permit.
  | .endWork b result => (w.builds b).stage = .working ∧
      ((w.system.coord.attempts (w.builds b).launch.attempt).phase = .ended ∨
        (w.system.coord.attempts (w.builds b).launch.attempt).phase = .queued ∧
          result.isBuilt = false)
  | .publish b _ => w.layout = none ∧
      ∃ bytes inputs, (w.builds b).stage = .finishing (.built bytes inputs)
  | .write b => ∃ result builtAt keep, (w.builds b).stage = .writing result builtAt keep
  | .settle b => (∃ error inputs, (w.builds b).stage = .finishing (.failed error inputs)) ∨
      ∃ result keep, (w.builds b).stage = .published result keep
  | .complete b => ∃ result keep orphaned, (w.builds b).stage = .settled result keep orphaned
  | .completeOrphaned b => ∃ result keep orphaned,
      (w.builds b).stage = .released result keep orphaned
  | .beginKeeping b => w.cacheHolder = none ∧ ∃ bytes keep, (w.builds b).stage = .keeping bytes keep
  | .stamp b => ∃ bytes keep input left stamps,
      (w.builds b).stage = .stamping bytes keep (input :: left) (some stamps)
  | .store b _ => ∃ bytes keep left stamps, (w.builds b).stage = .stamping bytes keep left stamps ∧
      (left = [] ∨ stamps = none)
  | .editSource _ => True
  -- The gate lets one change through at a time.
  | .sourceChange _ _ _ => w.todo = []
  | .resume _ _ => ∃ task todo, w.todo = task :: todo ∧ task.Free w
  | .coordinator e => w.Proceeds e ∧ w.system.enabled e

/-- What the constructor leaves: every output declared, and those the cache still holds served. -/
def Starts (w : World) : Prop :=
  ∃ commands mtime source cache tree,
    (if cached then ∃ (before : Cache) (n : Nat), before.records.length < n ∧
        restoreFromCache source contentHash before n (constructed commands mtime) =
          some (cache, tree)
      else cache = {} ∧ tree = constructed commands mtime) ∧
    w = { tree, cache, source
          origin := fun output => if tree.declared output then
            some (if tree.stale output then .placeholder else .restored) else none }

/-- The tree under any interleaving of opens, builds, source changes and rule changes. -/
def machine : Machine World Event where
  init := Starts contentHash cached
  enabled := enabled
  step := step contentHash cached

end World

end MakeBelieve.Tree
