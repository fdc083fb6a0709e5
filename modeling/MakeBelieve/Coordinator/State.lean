import Mathlib.Logic.Function.Basic
import MakeBelieve.Path

namespace MakeBelieve.Coordinator

/-- An attempt's address. Its ticket is named by the attempt too. -/
abbrev AttemptId := Nat

/-- A wait's address: the coroutine frame of one call of `wait`. -/
abbrev WaitId := Nat

inductive Phase
  | pending
  | queued
  | running
  | ended
  deriving DecidableEq, Repr

inductive Permit
  | none
  | held
  | released
  | reacquiring
  deriving DecidableEq, Repr

inductive WaitState
  | blocked
  | ready
  | done
  deriving DecidableEq, Repr

/-- The fields of `Attempt` other than the lists and counts of waits. -/
structure Control where
  output : Path := []
  phase : Phase := .pending
  permit : Permit := .none
  stopping : Bool := false
  doomed : Bool := false
  hurried : Bool := false
  result : Option ErrorCode := none
  predecessor : Option AttemptId := none
  /-- Whether `lease`, `reacquire` and `drain` are set. -/
  lease : Bool := false
  reacquire : Bool := false
  reacquireOutstanding : Bool := false
  drain : Bool := false

structure Attempt extends Control where
  waitsByMe : List WaitId := []
  waitsOnMe : List WaitId := []
  edgesOut : AttemptId → Option Nat := fun _ => none

structure Wait where
  target : AttemptId
  requester : Option AttemptId := none
  state : WaitState := .blocked
  result : ErrorCode := .success

/-- What a transition needs done once the lock is released. -/
structure Effects where
  stopReacquires : List AttemptId := []
  stopAttempts : List AttemptId := []
  reacquires : List AttemptId := []
  drains : List AttemptId := []
  answered : List WaitId := []

/-- What a transition asks of the permit provider while the lock is held. -/
inductive PermitCall
  | release (a : AttemptId)
  | promote (a : AttemptId)
  deriving DecidableEq, Repr

/-- Everything `m_mutex` guards, and what the transition under way has gathered so far. Attempts
and waits are numbered in the order they are made. -/
structure State where
  attempts : AttemptId → Attempt := fun _ => {}
  attemptCount : Nat := 0
  requests : WaitId → Wait := fun _ => { target := 0 }
  waitCount : Nat := 0
  /-- `m_running` -/
  running : Path → Option AttemptId := fun _ => none
  /-- `m_waits` -/
  waits : List WaitId := []
  effects : Effects := {}
  calls : List PermitCall := []

namespace State

variable (s : State)

/-- A transition starts with no effects of its own. -/
def start : State := { s with effects := {}, calls := [] }

def setAttempt (a : AttemptId) (f : Attempt → Attempt) : State :=
  { s with attempts := Function.update s.attempts a (f (s.attempts a)) }

def setWait (w : WaitId) (f : Wait → Wait) : State :=
  { s with requests := Function.update s.requests w (f (s.requests w)) }

/-- An edge of the graph `path_to` follows: a blocked wait's target or, before the attempt has
started, the attempt it waits behind. -/
def WaitsFor (a b : AttemptId) : Prop :=
  ((s.attempts a).edgesOut b).isSome ∨
    ((s.attempts a).phase = .pending ∧ (s.attempts a).predecessor = some b)

end State

end MakeBelieve.Coordinator
