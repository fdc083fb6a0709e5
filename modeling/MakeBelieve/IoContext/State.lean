import Mathlib.Logic.Function.Basic
import MakeBelieve.Library.Machine

namespace MakeBelieve.IoContext

open Library

abbrev ThreadId := Nat

abbrev ErrorCode := Nat

/-- A wait, by the operation state it is a part of. -/
abbrev Wait := Nat

/-- A task, by the operation state it is a part of: one of the scheduler's, or a wait's, which is
started by being queued. -/
inductive Task
  | schedule (operation : Nat)
  | wait (w : Wait)
  deriving DecidableEq

/-- How far a call of `submit` has come on another thread, from the head it has loaded. -/
inductive Submit
  | idle
  | pushing (task : Task) (head : Option Task)
  | waking
  deriving DecidableEq

/-- How far a wait, begun, and its stop callback have come. -/
inductive Stage
  | idle
  | armed
  /-- In `cancel`, with the head it has loaded. -/
  | cancelling (head : Option Wait)
  /-- Pushed onto an empty stack, and about to wake the poller. -/
  | waking
  | cancelled
  | disarmed
  deriving DecidableEq

/-- What a wait is completed with. -/
inductive Resolution
  | ready
  | failed (error : ErrorCode)
  | stopped
  deriving DecidableEq

/-- Where a wait is finished from, and what the thread goes on with then. -/
inductive Caller
  | beginWait (tasks : List Task)
  | cancellations
  | batch (waits : List Wait)
  deriving DecidableEq

/-- How far `finish` has come. -/
inductive Finish
  | disarm
  | takeCancels
  | complete
  deriving DecidableEq

/-- Where the context's thread is. -/
inductive Phase
  | top
  | taking
  | running (tasks : List Task)
  /-- In `begin_wait`, past `arm`. -/
  | adding (w : Wait) (tasks : List Task)
  | stopping
  | polling
  | reporting (waits : List Wait)
  | rearming (w : Wait) (waits : List Wait)
  | finishing (w : Wait) (resolution : Resolution) (stage : Finish) (caller : Caller)
  | exited
  deriving DecidableEq

def Caller.resume : Caller → Phase
  | beginWait tasks => .running tasks
  | cancellations => .stopping
  | batch waits => .reporting waits

structure State where
  /-- `m_tasks` and `m_cancels`, newest first. -/
  tasks : List Task := []
  cancels : List Wait := []
  stopping : Bool := false
  /-- The wakes the poller has not returned for, and the waits whose handles it has. -/
  wakes : Nat := 0
  polled : Wait → Bool := fun _ => false
  phase : Phase := .top
  /-- What `run` last loaded of `m_stopping`. -/
  seen : Bool := false
  registered : List Wait := []
  cancelled : List Wait := []
  submits : ThreadId → Submit := fun _ => .idle
  stages : Wait → Stage := fun _ => .idle
  -- Every task pushed and run, and every wait begun and completed, in order.
  pushed : List Task := []
  ran : List Task := []
  begun : List Wait := []
  completed : List (Wait × Resolution) := []

inductive Event
  -- Other threads.
  | load (i : ThreadId) (task : Task)
  | push (i : ThreadId)
  /-- The compare-and-exchange fails, as it may without cause. -/
  | reload (i : ThreadId)
  | wake (i : ThreadId)
  | loadCancel (w : Wait)
  | pushCancel (w : Wait)
  | reloadCancel (w : Wait)
  | wakeCancel (w : Wait)
  | destroy (i : ThreadId)
  -- The context's thread.
  | loadStopping
  | takeTasks
  | execute (stopped : Bool)
  | add (failure : Option ErrorCode)
  | takeCancels
  | stopNext
  | poll (waits : List Wait) (wakes : Nat)
  | handleReady (done : Bool)
  | rearm (failure : Option ErrorCode)
  | disarm
  | finishTake
  | complete
  | nextPass

/-- The most handles the poller reports at once. -/
def maxReady : Nat := 64

namespace State

variable (s : State)

/-- The tasks taken and not yet run. -/
def taken : List Task :=
  match s.phase with
  | .running tasks | .adding _ tasks | .finishing _ _ _ (.beginWait tasks) => tasks
  | _ => []

def setSubmit (i : ThreadId) (submit : Submit) : State :=
  { s with submits := Function.update s.submits i submit }

def setStage (w : Wait) (stage : Stage) : State :=
  { s with stages := Function.update s.stages w stage }

/-- `submit`, past the compare-and-exchange. -/
def push (i : ThreadId) : State :=
  match s.submits i with
  | .pushing task head =>
    { s.setSubmit i (if head = none then .waking else .idle) with
      tasks := task :: s.tasks
      pushed := s.pushed ++ [task] }
  | _ => s

def reload (i : ThreadId) : State :=
  match s.submits i with
  | .pushing task _ => s.setSubmit i (.pushing task s.tasks.head?)
  | _ => s

/-- `cancel`, past the compare-and-exchange. -/
def pushCancel (w : Wait) : State :=
  match s.stages w with
  | .cancelling head =>
    { s.setStage w (if head = none then .waking else .cancelled) with cancels := w :: s.cancels }
  | _ => s

/-- The loop that reverses what was taken of the queue. -/
def reverseOnto : List Task → List Task → List Task
  | [], tasks => tasks
  | task :: pushed, tasks => reverseOnto pushed (task :: tasks)

def takeTasks : State :=
  { s with
    tasks := []
    phase := .running (reverseOnto s.tasks []) }

/-- `execute` of the next task. A wait is begun unless a stop is requested already. -/
def execute (stopped : Bool) : State :=
  match s.phase with
  | .running (task :: tasks) =>
    let t := { s with ran := s.ran ++ [task] }
    match task, stopped with
    | .wait w, false =>
      { t.setStage w .armed with
        phase := .adding w tasks
        begun := s.begun ++ [w] }
    | _, _ => { t with phase := .running tasks }
  | _ => s

/-- `begin_wait`, once the poller has taken the handle or has not. -/
def add (failure : Option ErrorCode) : State :=
  match s.phase, failure with
  | .adding w tasks, none =>
    { s with
      polled := Function.update s.polled w true
      registered := s.registered ++ [w]
      phase := .running tasks }
  | .adding w tasks, some error =>
    { s with phase := .finishing w (.failed error) .disarm (.beginWait tasks) }
  | _, _ => s

/-- `remove` and `insert_before` of one wait. -/
def cancelOne (w : Wait) : State :=
  { s with
    registered := s.registered.erase w
    cancelled := s.cancelled.erase w ++ [w] }

def takeCancels : State := s.cancels.foldl cancelOne { s with cancels := [] }

def unregister (w : Wait) : State := { s with polled := Function.update s.polled w false }

/-- The loop that stops what is cancelled, and what it leads to. -/
def stopNext : State :=
  match s.cancelled with
  | w :: _ => { s.unregister w with phase := .finishing w .stopped .disarm .cancellations }
  | [] => { s with phase := if s.seen then .exited else .polling }

def handleReady (done : Bool) : State :=
  match s.phase with
  | .reporting (w :: waits) =>
    if done then { s.unregister w with phase := .finishing w .ready .disarm (.batch waits) }
    else { s with phase := .rearming w waits }
  | _ => s

def rearm (failure : Option ErrorCode) : State :=
  match s.phase, failure with
  | .rearming _ waits, none => { s with phase := .reporting waits }
  | .rearming w waits, some error =>
    { s.unregister w with phase := .finishing w (.failed error) .disarm (.batch waits) }
  | _, _ => s

def disarm : State :=
  match s.phase with
  | .finishing w resolution _ caller =>
    { s.setStage w .disarmed with phase := .finishing w resolution .takeCancels caller }
  | _ => s

def finishTake : State :=
  match s.phase with
  | .finishing w resolution _ caller =>
    { s.takeCancels with phase := .finishing w resolution .complete caller }
  | _ => s

/-- The end of `finish`: `remove` of the wait, and its completion. -/
def complete : State :=
  match s.phase with
  | .finishing w resolution _ caller =>
    { s.setStage w .idle with
      registered := s.registered.erase w
      cancelled := s.cancelled.erase w
      completed := s.completed ++ [(w, resolution)]
      phase := caller.resume }
  | _ => s

/-- An operation state that may be started: one that is not under way. -/
def Startable : Task → Prop
  | task => task ∉ s.taken ++ s.tasks ∧ (∀ i head, s.submits i ≠ .pushing task head) ∧
    ∀ w, task = .wait w → s.stages w = .idle

/-- Nothing waits on the context, or is queued on its scheduler. -/
def Quiet : Prop :=
  s.taken ++ s.tasks = [] ∧ (∀ i task head, s.submits i ≠ .pushing task head) ∧
    ∀ w, s.stages w = .idle

def enabled : Event → Prop
  | .load i task => s.submits i = .idle ∧ s.stopping = false ∧ s.Startable task
  | .push i => ∃ task, s.submits i = .pushing task s.tasks.head?
  | .reload i => ∃ task head, s.submits i = .pushing task head
  | .wake i => s.submits i = .waking
  | .loadCancel w => s.stages w = .armed
  | .pushCancel w => s.stages w = .cancelling s.cancels.head?
  | .reloadCancel w => ∃ head, s.stages w = .cancelling head
  | .wakeCancel w => s.stages w = .waking
  | .destroy i => s.submits i = .idle ∧ s.Quiet
  | .loadStopping => s.phase = .top
  | .takeTasks => s.phase = .taking
  | .execute _ => ∃ task tasks, s.phase = .running (task :: tasks)
  | .add _ => ∃ w tasks, s.phase = .adding w tasks
  | .takeCancels => s.phase = .running []
  | .stopNext => s.phase = .stopping
  | .poll waits wakes => s.phase = .polling ∧ waits.length ≤ maxReady ∧ waits.Nodup ∧
    (∀ w ∈ waits, s.polled w = true) ∧ wakes ≤ s.wakes
  | .handleReady _ => ∃ w waits, s.phase = .reporting (w :: waits)
  | .rearm _ => ∃ w waits, s.phase = .rearming w waits
  | .disarm => ∃ w resolution caller, s.phase = .finishing w resolution .disarm caller ∧
    (∀ head, s.stages w ≠ .cancelling head) ∧ s.stages w ≠ .waking
  | .finishTake => ∃ w resolution caller, s.phase = .finishing w resolution .takeCancels caller
  | .complete => ∃ w resolution caller, s.phase = .finishing w resolution .complete caller
  | .nextPass => s.phase = .reporting []

def step : Event → State
  | .load i task => s.setSubmit i (.pushing task s.tasks.head?)
  | .push i => s.push i
  | .reload i => s.reload i
  | .wake i => { s.setSubmit i .idle with wakes := s.wakes + 1 }
  | .loadCancel w => s.setStage w (.cancelling s.cancels.head?)
  | .pushCancel w => s.pushCancel w
  | .reloadCancel w => s.setStage w (.cancelling s.cancels.head?)
  | .wakeCancel w => { s.setStage w .cancelled with wakes := s.wakes + 1 }
  | .destroy i => { s.setSubmit i .waking with stopping := true }
  | .loadStopping =>
    { s with
      seen := s.stopping
      phase := .taking }
  | .takeTasks => s.takeTasks
  | .execute stopped => s.execute stopped
  | .add failure => s.add failure
  | .takeCancels => { s.takeCancels with phase := .stopping }
  | .stopNext => s.stopNext
  | .poll waits wakes =>
    { s with
      wakes
      phase := .reporting waits }
  | .handleReady done => s.handleReady done
  | .rearm failure => s.rearm failure
  | .disarm => s.disarm
  | .finishTake => s.finishTake
  | .complete => s.complete
  | .nextPass => { s with phase := .top }

end State

def machine : Machine State Event where
  init s := s = {}
  enabled := State.enabled
  step := State.step

end MakeBelieve.IoContext
