import MakeBelieve.Coordinator.State
import MakeBelieve.Library.Search
import MakeBelieve.Library.Worklist

namespace MakeBelieve.Coordinator

open Library

/-- `--it->second == 0 ? erase : keep`, on one entry of `edges_out`. -/
def decrement : Option Nat → Option Nat
  | none => none
  | some n => if n - 1 = 0 then none else some (n - 1)

/-- `++edges_out[to]` -/
def increment (entry : Option Nat) : Option Nat := some (entry.getD 0 + 1)

namespace State

variable (s : State)

def createAttempt (output : Path) (predecessor : Option AttemptId) : State :=
  let s := s.start
  -- A predecessor already over cannot hold this one up.
  let predecessor := predecessor.filter (fun p => (s.attempts p).phase ≠ .ended)
  { s with
    attempts := Function.update s.attempts s.attemptCount
      { output := output, predecessor := predecessor }
    attemptCount := s.attemptCount + 1 }

def removeEdge (a b : AttemptId) : State :=
  s.setAttempt a fun x => { x with edgesOut := Function.update x.edgesOut b (decrement (x.edgesOut b)) }

def unlink (w : WaitId) : State :=
  let target := (s.requests w).target
  let s : State := match (s.requests w).requester with
    | none => s
    | some r => s.setAttempt r fun x => { x with waitsByMe := x.waitsByMe.erase w }
  let s := s.setAttempt target fun x => { x with waitsOnMe := x.waitsOnMe.erase w }
  { s with waits := s.waits.erase w }

def answer (w : WaitId) (result : ErrorCode) : State :=
  let s : State := match (s.requests w).requester with
    | none => s
    | some r =>
      if (s.requests w).state = .blocked then s.removeEdge r (s.requests w).target else s
  let s := s.unlink w
  let s := s.setWait w fun x => { x with result := result, state := .done }
  { s with effects := { s.effects with answered := s.effects.answered ++ [w] } }

def giveBack (a : AttemptId) : State :=
  let s := s.setAttempt a fun x => { x with permit := .released }
  if (s.attempts a).lease then { s with calls := s.calls ++ [.release a] } else s

def giveBackIfWaiting (a : AttemptId) : State :=
  if (s.attempts a).permit = .held ∧ (s.attempts a).stopping = false ∧
      (s.attempts a).waitsByMe.any (fun w => (s.requests w).state = .blocked) then
    s.giveBack a
  else s

def block (requester : AttemptId) : State :=
  if (s.attempts requester).permit = .held then s.giveBack requester else s

def reacquire (requester : AttemptId) : State :=
  let s := s.setAttempt requester fun x =>
    { x with permit := .reacquiring, reacquire := true, reacquireOutstanding := true }
  { s with effects := { s.effects with reacquires := s.effects.reacquires ++ [requester] } }

/-- The end of `ready`: the wait no longer blocks, and its answer is kept for when its requester
has a permit. -/
def makeReady (w : WaitId) (r : AttemptId) (result : ErrorCode) : State :=
  let target := (s.requests w).target
  let s := s.removeEdge r target
  let s := s.setAttempt target fun x => { x with waitsOnMe := x.waitsOnMe.erase w }
  s.setWait w fun x => { x with result := result, state := .ready }

def ready (w : WaitId) (result : ErrorCode) : State :=
  match (s.requests w).requester with
  | none => s.answer w result
  | some r =>
    if (s.attempts r).stopping then s.answer w canceled
    else match (s.attempts r).permit with
      | .held => (s.answer w result).giveBackIfWaiting r
      | .released => (s.reacquire r).makeReady w r result
      | .reacquiring => s.makeReady w r result
      | .none => s.answer w canceled

/-- One round of the loop of `on_reacquired`. -/
def answerReady (a : AttemptId) (granted : Bool) (w : WaitId) : State :=
  if (s.requests w).state = .ready then
    s.answer w (if granted && !(s.attempts a).stopping then (s.requests w).result else canceled)
  else s

def onReacquired (a : AttemptId) (granted : Bool) : State :=
  let s := s.start
  let s := s.setAttempt a fun x =>
    { x with reacquireOutstanding := false, permit := if granted then .held else .released }
  let s := (s.attempts a).waitsByMe.foldl (fun s w => s.answerReady a granted w) s
  let s := s.giveBackIfWaiting a
  if (s.attempts a).drain then
    let s := s.setAttempt a fun x => { x with drain := false }
    { s with effects := { s.effects with drains := s.effects.drains ++ [a] } }
  else s

def cancelWaitsOf (a : AttemptId) : State :=
  (s.attempts a).waitsByMe.foldl (fun s w => s.answer w canceled) s

/-- `effects.stop_reacquires.push_back` and `effects.stop_attempts.push_back` -/
def pushStopReacquire (a : AttemptId) : State :=
  { s with effects := { s.effects with stopReacquires := s.effects.stopReacquires ++ [a] } }

def pushStopAttempt (a : AttemptId) : State :=
  { s with effects := { s.effects with stopAttempts := s.effects.stopAttempts ++ [a] } }

def stopAttempt (a : AttemptId) : State :=
  let s := s.setAttempt a fun x => { x with stopping := true }
  let s := s.cancelWaitsOf a
  let s := if (s.attempts a).reacquireOutstanding then s.pushStopReacquire a else s
  s.pushStopAttempt a

def onOuterStop (a : AttemptId) : State :=
  let s := s.start
  if (s.attempts a).phase = .running ∧ (s.attempts a).stopping = false then s.stopAttempt a
  else s.pushStopAttempt a

/-- What `path_to` and `hurry` visit from `node`, in the order they push it; `order` is the order
in which `edges_out` of each attempt iterates. -/
def nexts (order : AttemptId → List AttemptId) (node : AttemptId) : List AttemptId :=
  order node ++
    if (s.attempts node).phase = .pending then (s.attempts node).predecessor.toList else []

/-- `path_to`: a path from `goal` back to `source`, or empty if there is none. -/
def pathTo (order : AttemptId → List AttemptId) (source goal : AttemptId) : List AttemptId :=
  (Search.search (s.nexts order) goal s.attemptCount [(source, none)] [source]).getD []

/-- Marks `node` hurried and promotes its ticket. -/
def markHurried (node : AttemptId) : State :=
  let s := s.setAttempt node fun x => { x with hurried := true }
  { s with calls := s.calls ++ [.promote node] }

/-- Enough rounds for `hurry`: each attempt pushes what it waits for at most once. -/
def hurryFuel (order : AttemptId → List AttemptId) : Nat :=
  1 + ((List.range s.attemptCount).map (fun a => (s.nexts order a).length)).sum

def hurry (order : AttemptId → List AttemptId) (a : AttemptId) : State :=
  Worklist.loop (fun s node => (s.attempts node).hurried) markHurried
    (fun s node => (s.nexts order node).reverse) (s.hurryFuel order) s [a]

/-- One round of `wait`'s loop over a cycle. A generation not yet started has run nothing to
stop. -/
def doom (a : AttemptId) : State :=
  if (s.attempts a).phase = .running ∧ (s.attempts a).stopping = false then
    (s.setAttempt a fun x => { x with doomed := true }).stopAttempt a
  else s

/-- Enters a wait into `m_waits`, its target's and its requester's lists. -/
def enter (w : WaitId) (target : AttemptId) (requester : Option AttemptId) : State :=
  let s := s.setWait w fun x => { x with target := target, requester := requester }
  let s := { s with waits := s.waits ++ [w] }
  let s := s.setAttempt target fun x => { x with waitsOnMe := x.waitsOnMe ++ [w] }
  match requester with
  | none => s
  | some r => s.setAttempt r fun x =>
      { x with
        waitsByMe := x.waitsByMe ++ [w]
        edgesOut := Function.update x.edgesOut target (increment (x.edgesOut target)) }

/-- `wait` once nothing answers it at once. -/
def suspend (later : AttemptId → List AttemptId) (w : WaitId) (target : AttemptId)
    (requester : Option AttemptId) : State :=
  let s := s.enter w target requester
  match requester with
  | none => s.hurry later target
  | some r => (if (s.attempts r).hurried then s.hurry later target else s).block r

/-- `wait` up to where its coroutine suspends, for a request found to come from the attempt
running at `requester`. Also what it returns if it does not suspend. `order` is how `edges_out`
iterates as the wait starts, and `later` once it has been entered. -/
def wait (order later : AttemptId → List AttemptId) (target : AttemptId) (requester : Option Path)
    (stopRequested : Bool) : State × Option ErrorCode :=
  let w := s.waitCount
  let s := { s.start with waitCount := w + 1 }
  if stopRequested then (s, some canceled)
  else match (s.attempts target).result with
    | some result => (s, some result)
    | none =>
      match requester.bind s.running with
      | none => (s.suspend later w target none, none)
      | some r =>
        if (s.attempts r).stopping then (s, some canceled)
        else
          let cycle := s.pathTo order target r
          if cycle = [] then (s.suspend later w target (some r), none)
          else (cycle.foldl doom s, some dependencyCycle)

def cancelWait (w : WaitId) : State :=
  let s := s.start
  if (s.requests w).state = .done then s
  else
    let s := s.answer w canceled
    match (s.requests w).requester with
    | none => s
    | some r =>
      if (s.attempts r).stopping = false ∧ (s.attempts r).waitsByMe = [] ∧
          (s.attempts r).permit = .released then
        s.reacquire r
      else s

/-- The wait is answered, and its requester takes back its permit if that was its last. -/
theorem cancelWait_unanswered {s : State} {w : WaitId} (u : State)
    (h : (s.start.requests w).state ≠ .done) (hu : u = s.start.answer w canceled) :
    s.cancelWait w =
      match (u.requests w).requester with
      | none => u
      | some r =>
        if (u.attempts r).stopping = false ∧ (u.attempts r).waitsByMe = [] ∧
            (u.attempts r).permit = .released then u.reacquire r
        else u := by
  subst hu
  exact if_neg h

def complete (a : AttemptId) (result : ErrorCode) : State :=
  let s := s.start
  let s := s.setAttempt a fun x => { x with result := some result, predecessor := none }
  (s.attempts a).waitsOnMe.foldl (fun s w => s.ready w result) s

/-- The part of `run` done at once; the rest is the permit provider's. -/
def run (a : AttemptId) : State :=
  s.start.setAttempt a fun x => { x with phase := .queued, predecessor := none }

def onPermit (a : AttemptId) : State :=
  let s := s.start
  let s := s.setAttempt a fun x => { x with phase := .running, permit := .held, lease := true }
  let output := (s.attempts a).output
  -- `emplace` leaves an entry already there alone.
  if (s.running output).isNone then
    { s with running := Function.update s.running output (some a) }
  else s

def finish (a : AttemptId) : State :=
  let s := s.start
  let s := s.setAttempt a fun x => { x with phase := .ended, stopping := true }
  let s := { s with running := Function.update s.running (s.attempts a).output none }
  let s := s.cancelWaitsOf a
  if (s.attempts a).reacquireOutstanding then
    (s.setAttempt a fun x => { x with drain := true }).pushStopReacquire a
  else { s with effects := { s.effects with drains := s.effects.drains ++ [a] } }

end State

end MakeBelieve.Coordinator
