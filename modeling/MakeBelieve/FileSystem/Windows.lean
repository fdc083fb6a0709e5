import MakeBelieve.FileSystem.Notify

namespace MakeBelieve.FileSystem.Windows

open Library
open MakeBelieve.Snapshots (DirectoryTreeDiff)

abbrev HandleId := Nat

/-- A `cleanup` or a `close` under way. -/
abbrev OperationId := Nat

/-- How far `open` has come with a handle, and whether `close` has been called for it. -/
inductive HandleStage
  | opening
  /-- In `m_known`, and about to be counted. -/
  | remembered
  | opened
  | closing
  deriving DecidableEq

structure OpenFile where
  path : Path
  directory : Bool := false
  counted : Bool := false
  stage : HandleStage := .opening
  deriving DecidableEq

/-- How far `uncount` has come: each lock it takes is a step. -/
inductive OperationStage
  | uncounting
  /-- Its handle was the last on the path. -/
  | releasing
  | done
  deriving DecidableEq

structure Operation where
  handle : HandleId
  close : Bool := false
  stage : OperationStage := .uncounting
  deriving DecidableEq

/-- Where a pass of the notifier is, `m_notifying` being false where it is idle. -/
inductive Pass
  | idle
  /-- About to look, under the lock, for what is queued. -/
  | looping
  /-- In `send_notifications`, telling what is open of a batch from what is not. -/
  | testing (left closed deferred : Changes)
  /-- In `park`, past the merge. -/
  | listing (closed : Changes)
  | checking (left : List Path) (closed : Changes)
  | releasing (path : Path) (left : List Path) (closed : Changes)
  | announcing (batch : Changes)
  deriving DecidableEq

structure State where
  handles : HandleId → OpenFile := fun _ => { path := [], stage := .closing }
  handleCount : Nat := 0
  operations : OperationId → Operation := fun _ => { handle := 0, stage := .done }
  operationCount : Nat := 0
  known : List Path := []
  openCounts : Path → Option Int := fun _ => none
  pending : Changes := []
  deferred : Changes := []
  everythingDirty : Bool := false
  stopping : Bool := false
  pass : Pass := .idle
  -- Every handle taken out of `m_open_counts`, in order.
  uncounted : List HandleId := []

inductive Event
  | openFile (path : Path) (directory : Bool)
  | remember (h : HandleId)
  | count (h : HandleId)
  | cleanup (h : HandleId)
  | close (h : HandleId)
  | uncount (o : OperationId)
  | release (o : OperationId) (spawned : Bool)
  | treeChanged (diff : DirectoryTreeDiff) (spawned : Bool)
  | look
  | test
  | park
  | listParked
  | check
  | releaseParked
  | announce (present : Bool)
  /-- The announcements cannot be begun, in as many attempts as there are. -/
  | giveUp
  | stop

namespace State

variable (s : State)

def isOpen (path : Path) : Bool := (s.openCounts path).isSome

def setStage (h : HandleId) (stage : HandleStage) : State :=
  { s with handles := Function.update s.handles h { s.handles h with stage } }

def setOperation (o : OperationId) (stage : OperationStage) : State :=
  { s with operations := Function.update s.operations o { s.operations o with stage } }

def openFile (path : Path) (directory : Bool) : State :=
  { s with
    handles := Function.update s.handles s.handleCount
      { path, directory, stage := if directory then .opened else .opening }
    handleCount := s.handleCount + 1 }

def remember (h : HandleId) : State :=
  { s.setStage h .remembered with known := s.known.insert (s.handles h).path }

def count (h : HandleId) : State :=
  let path := (s.handles h).path
  { s with
    handles := Function.update s.handles h { s.handles h with counted := true, stage := .opened }
    openCounts := Function.update s.openCounts path (some ((s.openCounts path).getD 0 + 1)) }

def begin (h : HandleId) (close : Bool) : State :=
  { s.setStage h (if close then .closing else .opened) with
    operations := Function.update s.operations s.operationCount { handle := h, close }
    operationCount := s.operationCount + 1 }

/-- `start_notifying`, whose spawn may fail. -/
def startNotifying (spawned : Bool) : State :=
  if s.pass = .idle ∧ s.stopping = false ∧ spawned = true then { s with pass := .looping } else s

def releaseDeferred (path : Path) (spawned : Bool) : State :=
  match s.deferred.find? fun change => change.1 = path with
  | none => s
  | some change =>
    if s.stopping then s
    else ({ s with
      pending := mergeChanges s.pending [change]
      deferred := s.deferred.filter fun change => change.1 ≠ path } : State).startNotifying spawned

/-- `uncount`, as far as `m_open_mutex` is held. -/
def uncount (o : OperationId) : State :=
  let h := (s.operations o).handle
  let path := (s.handles h).path
  if (s.handles h).counted then
    let s := { s with
      handles := Function.update s.handles h { s.handles h with counted := false }
      uncounted := s.uncounted ++ [h] }
    match s.openCounts path with
    | none => s.setOperation o .done
    | some n =>
      if n - 1 ≤ 0 then
        { s.setOperation o .releasing with
          openCounts := Function.update s.openCounts path none }
      else
        { s.setOperation o .done with
          openCounts := Function.update s.openCounts path (some (n - 1)) }
  else s.setOperation o .done

def release (o : OperationId) (spawned : Bool) : State :=
  (s.setOperation o .done).releaseDeferred (s.handles (s.operations o).handle).path spawned

/-- `on_tree_changed` -/
def treeChanged (diff : DirectoryTreeDiff) (spawned : Bool) : State :=
  if s.stopping then s
  else if diff.everythingDirty then
    ({ s with everythingDirty := true } : State).startNotifying spawned
  else
    ({ s with pending := mergeChanges s.pending (changesOf diff) } : State).startNotifying spawned

/-- The loop of `notify_pending`, under the lock. -/
def look : State :=
  if s.stopping ∨ s.everythingDirty = false ∧ s.pending = [] then { s with pass := .idle }
  else if s.everythingDirty then
    { s with
      everythingDirty := false
      pending := []
      pass := .testing (s.known.map fun path => (path, .modified)) [] [] }
  else { s with pending := [], pass := .testing s.pending [] [] }

def test : State :=
  match s.pass with
  | .testing (change :: left) closed deferred =>
    if s.isOpen change.1 then { s with pass := .testing left closed (deferred ++ [change]) }
    else { s with pass := .testing left (closed ++ [change]) deferred }
  | _ => s

/-- What is left of `send_notifications` once the changes to open files are parked. -/
def afterPark (closed : Changes) : Pass :=
  if closed = [] then .looping else .announcing closed

/-- `park`, up to its own check. -/
def park : State :=
  match s.pass with
  | .testing [] closed deferred =>
    if deferred = [] ∨ s.stopping then { s with pass := afterPark closed }
    else { s with deferred := mergeChanges s.deferred deferred, pass := .listing closed }
  | _ => s

def listParked : State :=
  match s.pass with
  | .listing closed => { s with pass := .checking (s.deferred.map Prod.fst) closed }
  | _ => s

def check : State :=
  match s.pass with
  | .checking [] closed => { s with pass := afterPark closed }
  | .checking (path :: left) closed =>
    if s.isOpen path then { s with pass := .checking left closed }
    else { s with pass := .releasing path left closed }
  | _ => s

-- The pass it would start is the one that is under way.
def releaseParked : State :=
  match s.pass with
  | .releasing path left closed =>
    { s.releaseDeferred path false with pass := .checking left closed }
  | _ => s

/-- `notify`, which forgets a path that is gone. -/
def announce (present : Bool) : State :=
  match s.pass with
  | .announcing (change :: batch) =>
    { s with
      pass := afterPark batch
      known := if present then s.known else s.known.filter fun path => path ≠ change.1 }
  | _ => s

def step : Event → State
  | .openFile path directory => s.openFile path directory
  | .remember h => s.remember h
  | .count h => s.count h
  | .cleanup h => s.begin h false
  | .close h => s.begin h true
  | .uncount o => s.uncount o
  | .release o spawned => s.release o spawned
  | .treeChanged diff spawned => s.treeChanged diff spawned
  | .look => s.look
  | .test => s.test
  | .park => s.park
  | .listParked => s.listParked
  | .check => s.check
  | .releaseParked => s.releaseParked
  | .announce present => s.announce present
  | .giveUp => { s with pass := .looping }
  | .stop => { s with stopping := true }

def enabled : Event → Prop
  | .openFile _ _ => True
  | .remember h => h < s.handleCount ∧ (s.handles h).stage = .opening
  | .count h => h < s.handleCount ∧ (s.handles h).stage = .remembered
  -- A handle may be cleaned up more than once, and closed while that goes on.
  | .cleanup h => h < s.handleCount ∧ (s.handles h).stage = .opened
  | .close h => h < s.handleCount ∧ (s.handles h).stage = .opened
  | .uncount o => o < s.operationCount ∧ (s.operations o).stage = .uncounting
  | .release o _ => o < s.operationCount ∧ (s.operations o).stage = .releasing
  | .treeChanged _ _ => True
  | .look => s.pass = .looping
  | .test => ∃ change left closed deferred, s.pass = .testing (change :: left) closed deferred
  | .park => ∃ closed deferred, s.pass = .testing [] closed deferred
  | .listParked => ∃ closed, s.pass = .listing closed
  | .check => ∃ left closed, s.pass = .checking left closed
  | .releaseParked => ∃ path left closed, s.pass = .releasing path left closed
  | .announce _ => ∃ batch, s.pass = .announcing batch
  | .giveUp => ∃ batch, s.pass = .announcing batch
  | .stop => True

end State

/-- The notifications of a mount under any interleaving of its operations, changes and passes. -/
def machine : Machine State Event where
  init s := s = {}
  enabled := State.enabled
  step := State.step

namespace State

/-- No operation is in progress, and no pass. -/
structure Quiet (s : State) : Prop where
  opens : ∀ h < s.handleCount, (s.handles h).stage = .opened ∨ (s.handles h).stage = .closing
  operations : ∀ o < s.operationCount, (s.operations o).stage = .done
  pass : s.pass = .idle

/-- How many handles on a path are counted. -/
def countedOn (s : State) (path : Path) : Nat :=
  (List.range s.handleCount).countP fun h => (s.handles h).counted && (s.handles h).path = path

end State

end MakeBelieve.FileSystem.Windows
