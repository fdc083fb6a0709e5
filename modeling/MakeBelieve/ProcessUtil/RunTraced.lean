import MakeBelieve.ProcessUtil.Reads

namespace MakeBelieve.ProcessUtil.RunTraced

open Library

abbrev Bytes := List UInt8

/-! ### The parties -/

/-- `Handoff`, with the device where setup succeeded. -/
inductive Handoff
  | ok
  | failed (error : Errno)
  deriving DecidableEq

/-- The child: setting up, waiting to be released, running its command as init, gone with all it
started, reaped. -/
inductive Child
  | unborn
  | setup
  | parked
  | running
  | exited (status : Nat)
  | reaped (status : Nat)
  deriving DecidableEq

def Child.alive : Child → Bool
  | .setup | .parked | .running => true
  | _ => false

/-- Whether its pid is its own: it is there, or has yet to be reaped. -/
def Child.own : Child → Bool
  | .unborn | .reaped _ => false
  | _ => true

def Child.status : Child → Nat
  | .exited status | .reaped status => status
  | _ => 0

/-- A stop callback that kills the child. It runs on the thread that requests the stop, or where it
is made if that was before, and its destruction waits until it has run. -/
inductive Callback
  | absent
  | armed
  | running
  | spent
  deriving DecidableEq

def Callback.live : Callback → Bool
  | .armed | .running => true
  | _ => false

structure Supervision where
  output : Bytes := []
  error : Option Errno := none
  canceled : Bool := false
  exitStatus : Nat := 0
  deriving DecidableEq

/-- Where `supervise_then_end` is. -/
inductive Supervise
  | arming
  | armingAbort
  | waiting (isOpen : Bool)
  | draining
  | waitFailed (isOpen : Bool)
  | disarming (abortGone isOpen : Bool)
  | reaping (isOpen : Bool)
  | lastDrain
  | judging
  | threw (abortGone : Bool)
  | ending (supervision : Supervision)
  | done
  deriving DecidableEq

/-- Where `serve_or_abort` is. It sees whether the session has ended before it receives each
request. -/
inductive Serve
  | waiting
  | processing
  | receiving
  | failing (error : Errno)
  | aborting
  | done
  deriving DecidableEq

/-- `ProcessUtil::Result`, or what an exception leaves. -/
inductive Result
  | output (standardOutput : Bytes) (inputs : List Path) (exitStatus : Nat)
  | error (error : Errno)
  | thrown
  deriving DecidableEq

/-- Where `run_task` is, and `run_traced` in it: each step of it, `terminate`, the two tasks side by
side, and at last its destructors. -/
inductive Phase
  | starting
  | piping
  | preparing
  | cloning
  | launching
  | attaching
  | opening
  | adding
  | releasing
  | terminating (error : Errno)
  | awaitingExit (error : Errno)
  | reaping (error : Errno)
  | tasks
  | destroyingSession (result : Result)
  | destroyingChild (result : Result)
  | reapingChild (result : Result)
  | removing (result : Result)
  | returned (result : Result)
  deriving DecidableEq

structure State where
  phase : Phase := .starting
  child : Child := .unborn
  /-- Whether the child was killed while it was there. -/
  killed : Bool := false
  /-- Whether a pid that was not the child's was signalled or waited for. -/
  misdirected : Bool := false
  holdsChildEnd : Bool := false
  parentEnd : Bool := false
  handoff : Option Handoff := none
  ack : Bool := false
  /-- Whether the build process tracker has the command's record. -/
  record : Bool := false
  addedAs : Bool := false
  stop : Bool := false
  abort : Bool := false
  stopServing : Bool := false
  onStop : Callback := .absent
  onAbort : Callback := .absent
  supervise : Supervise := .arming
  waitError : Option Errno := none
  serve : Serve := .waiting
  supervision : Option Supervision := none
  failure : Option Errno := none
  sessionEnded : Bool := false
  /-- The mount: its tracer, and what that was answered with. -/
  mount : Option (ProcessUtil.State × Notes) := none
  /-- The requests waiting at the mount's device, which fails once the mount has gone. -/
  requests : Nat := 0
  gone : Bool := false
  /-- All that was written to the standard output, what of it is in the pipe, and what was read. -/
  written : Bytes := []
  pipe : Bytes := []
  output : Bytes := []
  writers : Bool := false
  /-- Whether reading the pipe has failed. -/
  lossy : Bool := false

namespace State

/-- `ChildProcess::signal`. -/
def signal (s : State) : State :=
  { s with
    killed := s.killed || s.child.alive
    misdirected := s.misdirected || !s.child.own }

/-- `ChildProcess::reap`, of a child that has exited. -/
def reap (s : State) : State :=
  { s with
    child := .reaped s.child.status
    misdirected := s.misdirected || !s.child.own }

/-- The child gone, with everything that could write to its output. -/
def exits (s : State) (status : Nat) : State :=
  { s with child := .exited status, writers := false }

/-- How `run_traced` ends once both tasks have. -/
def conclusion (s : State) : Result :=
  match s.failure, s.supervision with
  | some error, _ => .error error
  | none, none => .thrown
  | none, some supervision =>
    match supervision.error with
    | some error => .error error
    | none =>
      if supervision.canceled then .error .ECANCELED
      else
        match s.mount with
        | none => .thrown
        | some mount =>
          match mount.1.tracer.takeInputs with
          | .error error => .error error
          | .ok inputs => .output supervision.output inputs supervision.exitStatus

end State

/-! ### Steps -/

inductive Event
  -- `run_task`
  | start
  | pipe (failed : Option Errno)
  | prepare (failed : Option Errno)
  | clone (failed : Option Errno)
  | launched
  | receive (interrupted : Bool)
  | openSession (opened : Except Errno ProcessUtil.State)
  | add (failed : Option Errno)
  | release
  | terminate (error : Errno)
  | exitSeen (error : Errno) (failed : Bool)
  | reapTerminated (error : Errno)
  | throws
  | conclude
  | destroySession (result : Result)
  | destroyChild (result : Result)
  | reapChild (result : Result)
  | removeRecord (result : Result)
  -- `supervise_then_end`
  | arm
  | armAbort
  /-- Waiting for the child may fail as output is found. -/
  | outputReady (failed : Option Errno)
  | childExited (isOpen : Bool)
  | waitFails (isOpen : Bool) (error : Errno)
  | read (count : Nat)
  | readEnds
  | readFails
  | signalFailed (isOpen : Bool)
  | disarmAbort (isOpen : Bool)
  | disarmStop (isOpen : Bool)
  | reap (isOpen : Bool)
  | lastRead (count : Nat)
  | lastReadEnds
  | lastReadFails
  | superviseThrows
  | lastReadThrows
  | unwindAbort
  | unwindStop
  | judge
  | endServing (supervision : Supervision)
  -- `serve_or_abort`
  | deviceReady
  | serveWaitFails (error : Errno)
  | serveStopped
  | serveGoesOn
  | serveRequest (r : FuseRequest) (c : Calls) (delivered : Bool)
  | serveMore
  | serveEnded
  | serveFails (error : Errno)
  | requestAbort (error : Errno)
  | abortKills
  -- another thread
  | requestStop
  | stopKills
  -- the child
  | childFails (error : Errno) (sent : Bool)
  | childHandsOff (sent : Bool)
  | childReleased
  | childAbandoned
  | childDies
  | childExits (status : Nat)
  | childWrites (bytes : Bytes)
  | childCloses
  | childAsks
  -- the host
  | mountGoes
  | host (e : ProcessUtil.Event)

/-- The rest of the host changes around a mount. -/
def ofHost : ProcessUtil.Event → Bool
  | .world _ | .opens _ _ | .closes _ => true
  | _ => false

def enabled (root : Path) (s : State) : Event → Prop
  | .start => s.phase = .starting
  | .pipe _ => s.phase = .piping
  | .prepare _ => s.phase = .preparing
  | .clone _ => s.phase = .cloning
  | .launched => s.phase = .launching
  | .receive interrupted =>
    s.phase = .attaching ∧
      (interrupted = true ∨ s.handoff.isSome = true ∨
        s.holdsChildEnd = false ∧ s.child.alive = false)
  | .openSession opened => s.phase = .opening ∧ ∀ mount, opened = .ok mount → Starts root mount
  | .add _ => s.phase = .adding
  | .release => s.phase = .releasing
  | .terminate error => s.phase = .terminating error
  | .exitSeen error failed =>
    s.phase = .awaitingExit error ∧ (failed = true ∨ s.child.alive = false)
  | .reapTerminated error => s.phase = .reaping error ∧ s.child.alive = false
  | .throws => s.phase = .opening ∨ s.phase = .adding ∨ ∃ error, s.phase = .awaitingExit error
  | .conclude => s.phase = .tasks ∧ s.supervise = .done ∧ s.serve = .done
  | .destroySession result => s.phase = .destroyingSession result
  | .destroyChild result => s.phase = .destroyingChild result
  | .reapChild result => s.phase = .reapingChild result ∧ s.child.alive = false
  | .removeRecord result => s.phase = .removing result
  | .arm => s.phase = .tasks ∧ s.supervise = .arming
  | .armAbort => s.phase = .tasks ∧ s.supervise = .armingAbort
  | .outputReady _ =>
    s.phase = .tasks ∧ s.supervise = .waiting true ∧ (s.pipe ≠ [] ∨ s.writers = false)
  | .childExited isOpen =>
    s.phase = .tasks ∧ s.supervise = .waiting isOpen ∧ s.child.alive = false
  | .waitFails isOpen _ => s.phase = .tasks ∧ s.supervise = .waiting isOpen
  | .read _ => s.phase = .tasks ∧ s.supervise = .draining ∧ s.pipe ≠ []
  | .readEnds => s.phase = .tasks ∧ s.supervise = .draining ∧ s.pipe = []
  | .readFails => s.phase = .tasks ∧ s.supervise = .draining
  | .signalFailed isOpen => s.phase = .tasks ∧ s.supervise = .waitFailed isOpen
  | .disarmAbort isOpen =>
    s.phase = .tasks ∧ s.supervise = .disarming false isOpen ∧ s.onAbort ≠ .running
  | .disarmStop isOpen =>
    s.phase = .tasks ∧ s.supervise = .disarming true isOpen ∧ s.onStop ≠ .running
  | .reap isOpen => s.phase = .tasks ∧ s.supervise = .reaping isOpen ∧ s.child.alive = false
  | .lastRead _ => s.phase = .tasks ∧ s.supervise = .lastDrain ∧ s.pipe ≠ []
  | .lastReadEnds => s.phase = .tasks ∧ s.supervise = .lastDrain ∧ s.pipe = []
  | .lastReadFails | .lastReadThrows => s.phase = .tasks ∧ s.supervise = .lastDrain
  | .superviseThrows =>
    s.phase = .tasks ∧ ((∃ isOpen, s.supervise = .waiting isOpen) ∨ s.supervise = .draining)
  | .unwindAbort => s.phase = .tasks ∧ s.supervise = .threw false ∧ s.onAbort ≠ .running
  | .unwindStop => s.phase = .tasks ∧ s.supervise = .threw true ∧ s.onStop ≠ .running
  | .judge => s.phase = .tasks ∧ s.supervise = .judging
  | .endServing supervision => s.phase = .tasks ∧ s.supervise = .ending supervision
  | .deviceReady => s.phase = .tasks ∧ s.serve = .waiting ∧ (0 < s.requests ∨ s.gone = true)
  | .serveWaitFails _ => s.phase = .tasks ∧ s.serve = .waiting
  | .serveStopped => s.phase = .tasks ∧ s.serve = .waiting ∧ s.stopServing = true
  | .serveGoesOn => s.phase = .tasks ∧ s.serve = .processing ∧ s.sessionEnded = false
  | .serveRequest r c delivered =>
    s.phase = .tasks ∧ s.serve = .receiving ∧ 0 < s.requests ∧
      ∃ mount, s.mount = some mount ∧ mount.1.enabled (.request r c delivered)
  | .serveMore =>
    s.phase = .tasks ∧ s.serve = .receiving ∧ s.requests = 0 ∧ s.gone = false
  | .serveEnded =>
    s.phase = .tasks ∧
      (s.sessionEnded = true ∧ (s.serve = .processing ∨ s.serve = .receiving) ∨
        s.gone = true ∧ s.serve = .receiving)
  | .serveFails _ =>
    s.phase = .tasks ∧ (s.serve = .waiting ∨ s.serve = .processing ∨ s.serve = .receiving)
  | .requestAbort error => s.phase = .tasks ∧ s.serve = .failing error
  | .abortKills => s.phase = .tasks ∧ s.onAbort = .running
  | .requestStop => s.stop = false
  | .stopKills => s.onStop = .running
  | .childFails _ _ => s.child = .setup
  | .childHandsOff _ => s.child = .setup
  | .childReleased => s.child = .parked ∧ s.ack = true
  | .childAbandoned => s.child = .parked ∧ s.ack = false ∧ s.parentEnd = false
  | .childDies => s.child.alive = true ∧ s.killed = true
  | .childExits _ => s.child = .running
  | .childWrites _ => s.child = .running ∧ s.writers = true
  | .childCloses => s.child = .running
  | .childAsks => s.child = .running
  | .mountGoes => s.child.alive = false ∧ s.child ≠ .unborn
  | .host e => ofHost e = true ∧ ∃ mount, s.mount = some mount ∧ mount.1.enabled e

/-- One step of a mount, with what it is answered with. -/
def mountStep (root : Path) (s : State) (e : ProcessUtil.Event) : State :=
  { s with mount := s.mount.map fun mount => (tracing root).step mount e }

/-- It goes on where a call succeeds, and otherwise returns its error as `leave` does. -/
def State.proceed (s : State) (failed : Option Errno) (leave : Errno → Phase) (next : Phase) :
    State :=
  { s with phase := failed.elim next leave }

def step (root : Path) (s : State) : Event → State
  | .start =>
    { s with phase := if s.stop then .removing (.error .ECANCELED) else .piping }
  | .pipe failed => s.proceed failed (fun error => .removing (.error error)) .preparing
  | .prepare failed => s.proceed failed (fun error => .removing (.error error)) .cloning
  | .clone (some error) => { s with phase := .removing (.error error) }
  | .clone none =>
    { s with
      phase := .launching
      child := .setup
      holdsChildEnd := true
      parentEnd := true
      writers := true }
  | .launched => { s with phase := .attaching, holdsChildEnd := false }
  | .receive true => { s with phase := .terminating .EPROTO }
  | .receive false =>
    match s.handoff with
    | some .ok => { s with phase := .opening, handoff := none }
    | some (.failed error) => { s with phase := .terminating error, handoff := none }
    | none => { s with phase := .terminating .EPROTO }
  | .openSession (.error error) => { s with phase := .terminating error }
  | .openSession (.ok mount) => { s with phase := .adding, mount := some (mount, {}) }
  | .add (some error) => { s with phase := .terminating error }
  | .add none => { s with phase := .releasing, record := true, addedAs := true }
  | .release => { s with phase := .tasks, ack := true, parentEnd := false }
  | .terminate error => { s.signal with phase := .awaitingExit error }
  | .exitSeen error _ => { s with phase := .reaping error }
  | .reapTerminated error => { s.reap with phase := .destroyingSession (.error error) }
  | .throws => { s with phase := .destroyingSession .thrown }
  | .conclude => { s with phase := .destroyingSession s.conclusion }
  | .destroySession result =>
    { mountStep root s .destroy with phase := .destroyingChild result }
  | .destroyChild result =>
    match s.child with
    | .reaped _ => { s with phase := .removing result }
    | _ => { s.signal with phase := .reapingChild result }
  | .reapChild result => { s.reap with phase := .removing result }
  | .removeRecord result =>
    { s with phase := .returned result, record := s.record && !s.addedAs }
  | .arm =>
    if s.stop then { s.signal with supervise := .armingAbort, onStop := .spent }
    else { s with supervise := .armingAbort, onStop := .armed }
  | .armAbort =>
    if s.abort then { s.signal with supervise := .waiting true, onAbort := .spent }
    else { s with supervise := .waiting true, onAbort := .armed }
  | .outputReady failed =>
    { s with supervise := .draining, waitError := failed.or s.waitError }
  | .childExited isOpen =>
    { s with
      supervise := if s.waitError.isSome then .waitFailed isOpen else .disarming false isOpen }
  | .waitFails isOpen error =>
    { s with supervise := .waitFailed isOpen, waitError := some error }
  | .read count | .lastRead count =>
    { s with
      output := s.output ++ s.pipe.take (min (count + 1) 4096)
      pipe := s.pipe.drop (min (count + 1) 4096) }
  | .readEnds => { s with supervise := .waiting s.writers }
  | .readFails => { s with supervise := .waiting false, lossy := true }
  | .signalFailed isOpen => { s.signal with supervise := .disarming false isOpen }
  | .disarmAbort isOpen => { s with supervise := .disarming true isOpen, onAbort := .absent }
  | .disarmStop isOpen => { s with supervise := .reaping isOpen, onStop := .absent }
  | .reap isOpen => { s.reap with supervise := if isOpen then .lastDrain else .judging }
  | .lastReadEnds => { s with supervise := .judging }
  | .lastReadFails => { s with supervise := .judging, lossy := true }
  | .superviseThrows => { s with supervise := .threw false }
  | .lastReadThrows => { s with supervise := .ending { error := some .ENOMEM } }
  | .unwindAbort => { s with supervise := .threw true, onAbort := .absent }
  | .unwindStop => { s with supervise := .ending { error := some .ENOMEM }, onStop := .absent }
  | .judge =>
    { s with
      supervise := .ending
        { output := s.output, error := s.waitError, canceled := s.waitError.isNone && s.stop
          exitStatus := s.child.status } }
  | .endServing supervision =>
    { s with
      supervise := .done
      supervision := some supervision
      sessionEnded := true
      stopServing := true }
  | .deviceReady => { s with serve := .processing }
  | .serveWaitFails error | .serveFails error => { s with serve := .failing error }
  | .serveStopped | .serveEnded => { s with serve := .done }
  | .serveGoesOn => { s with serve := .receiving }
  | .serveRequest r c delivered =>
    { mountStep root s (.request r c delivered) with
      serve := .processing
      requests := s.requests - 1 }
  | .serveMore => { s with serve := .waiting }
  | .requestAbort error =>
    if s.onAbort = .armed then
      { s with failure := some error, abort := true, onAbort := .running, serve := .aborting }
    else { s with failure := some error, abort := true, serve := .done }
  | .abortKills => { s.signal with onAbort := .spent, serve := .done }
  | .requestStop =>
    { s with stop := true, onStop := if s.onStop = .armed then .running else s.onStop }
  | .stopKills => { s.signal with onStop := .spent }
  | .childFails error sent =>
    { s.exits 125 with handoff := if sent then some (.failed error) else none }
  | .childHandsOff sent =>
    { s with child := .parked, handoff := if sent then some .ok else none }
  | .childReleased => { s with child := .running }
  | .childAbandoned => s.exits 125
  | .childDies => s.exits 137
  | .childExits status => s.exits status
  | .childWrites bytes => { s with written := s.written ++ bytes, pipe := s.pipe ++ bytes }
  | .childCloses => { s with writers := false }
  | .childAsks => { s with requests := s.requests + 1 }
  | .mountGoes => { s with gone := true }
  | .host e => mountStep root s e

/-- A run of `run_traced` on a root, beside the child it launches, the threads that stop it and the
host. -/
def machine (root : Path) : Machine State Event where
  init s := s = {}
  enabled := enabled root
  step := step root

end MakeBelieve.ProcessUtil.RunTraced
