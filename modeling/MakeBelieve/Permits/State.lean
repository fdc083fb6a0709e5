import MakeBelieve.Coordinator.Permits
import MakeBelieve.Queue.Conserved

namespace MakeBelieve.Permits

open Library
open Coordinator (AttemptId PermitCall)
open Queue (OpId)

/-- A coordinator whose permits come from a queue, as `permits_from` ties the two, and what is left
to do of what the coordinator's transitions asked for. -/
structure State where
  coordinator : Coordinator.System := {}
  queue : Queue.State
  /-- Whether a transition holds `m_mutex`, and what it has yet to ask of the queue under it. -/
  locked : Bool := false
  calls : List PermitCall := []
  /-- The operation each attempt's work takes its first slot with, which names its lease too. -/
  first : AttemptId → Option OpId := fun _ => none
  /-- The operation each attempt's lease takes its slot back with, until its answer is passed on. -/
  takeBack : AttemptId → Option OpId := fun _ => none
  /-- Whether the stop source of the attempt's `reacquire` has been asked to stop. -/
  stopAsked : AttemptId → Bool := fun _ => false
  stopReacquires : List AttemptId := []
  reacquires : List AttemptId := []
  drains : List AttemptId := []
  /-- Attempts drained whose lease has yet to be released for good. -/
  ending : List AttemptId := []

namespace State

variable (s : State)

/-- A transition of the coordinator, up to what it asks of the queue. What it needs done after is
left for when the lock is released. -/
def transition (e : Coordinator.Event) : State :=
  let coordinator := s.coordinator.step e
  { s with
    coordinator
    locked := true
    calls := coordinator.coord.calls
    stopAsked := fun a => s.stopAsked a && !coordinator.coord.effects.reacquires.contains a }

def releaseLease (a : AttemptId) : State :=
  match s.first a with
  | none => s
  | some i => { s with queue := s.queue.step (.releaseLease i) }

/-- The next thing the transition under way asks of the queue. -/
def call : State :=
  match s.calls with
  | [] => s
  | .release a :: calls => { s with calls }.releaseLease a
  | .promote a :: calls => { s with calls, queue := s.queue.step (.promote a) }

/-- The lock is released, and what the transition needs done is left to the thread it ran on. -/
def unlock : State :=
  let effects := s.coordinator.coord.effects
  { s with
    locked := false
    stopReacquires := s.stopReacquires ++ effects.stopReacquires
    reacquires := s.reacquires ++ effects.reacquires
    drains := s.drains ++ effects.drains }

/-- The sender `run` returned is connected: the attempt's work, under its own ticket. -/
def schedule (a : AttemptId) : State :=
  { s with
    queue := s.queue.step (.connect (.first (some a)))
    first := Function.update s.first a (some s.queue.opCount) }

def stopReacquire (a : AttemptId) : State :=
  { s with
    stopReacquires := s.stopReacquires.erase a
    stopAsked := Function.update s.stopAsked a true
    queue := match s.takeBack a with
      | none => s.queue
      | some i => s.queue.step (.requestStop i) }

/-- `lease->reacquire(*reacquire)`: connects the lease's take-back and starts it. -/
def reacquire (a : AttemptId) : State :=
  match s.first a with
  | none => s
  | some lease =>
    let i := s.queue.opCount
    let queue := s.queue.step (.connect (.reacquire lease))
    let queue := if s.stopAsked a then queue.step (.requestStop i) else queue
    { s with
      reacquires := s.reacquires.erase a
      takeBack := Function.update s.takeBack a (some i)
      queue := queue.step (.start i) }

end State

inductive Event
  | transition (e : Coordinator.Event)
  | call
  | unlock
  | schedule (a : AttemptId)
  | queue (e : Queue.Event)
  | onPermit (a : AttemptId)
  | stopReacquire (a : AttemptId)
  | reacquire (a : AttemptId)
  /-- Taking the permit back throws, which turns it down. -/
  | reacquireThrows (a : AttemptId)
  | onReacquired (a : AttemptId) (granted : Bool)
  | drained (a : AttemptId)
  | released (a : AttemptId)

/-- The transitions the coordinator's users start, the permit provider's callbacks apart. -/
def Started : Coordinator.Event → Prop
  | .onPermit _ | .onReacquired _ _ => False
  | _ => True

namespace State

def step (s : State) : Event → State
  | .transition e => s.transition e
  | .call => s.call
  | .unlock => s.unlock
  | .schedule a => s.schedule a
  | .queue e => { s with queue := s.queue.step e }
  | .onPermit a => s.transition (.onPermit a)
  | .stopReacquire a => s.stopReacquire a
  | .reacquire a => s.reacquire a
  | .reacquireThrows a =>
    { s with reacquires := s.reacquires.erase a }.transition (.onReacquired a false)
  | .onReacquired a granted =>
    { s with takeBack := Function.update s.takeBack a none }.transition (.onReacquired a granted)
  | .drained a => { s with drains := s.drains.erase a, ending := s.ending ++ [a] }
  | .released a => { s with ending := s.ending.erase a }.releaseLease a

/-- What the queue's operations do of their own accord, on whatever thread. A stop of what runs an
attempt may be asked for at any time. -/
def Own (s : State) : Queue.Event → Prop
  | .start _ | .enter _ | .onStop _ | .handOn _ _ | .resume _ _ | .shutDown _ _ | .complete _ _
  | .takeLease _ | .releaseSlot _ => True
  | .requestStop i => ∃ ticket, (s.queue.ops i).kind = .first ticket
  | .connect _ | .releaseLease _ | .promote _ => False

def enabled (s : State) : Event → Prop
  | .transition e => s.locked = false ∧ Started e ∧ s.coordinator.enabled e
  | .call => s.calls ≠ []
  | .unlock => s.locked = true ∧ s.calls = []
  | .schedule a => (s.coordinator.coord.attempts a).phase = .queued ∧ s.first a = none
  | .queue e => s.Own e ∧ s.queue.enabled e
  | .onPermit a => s.locked = false ∧ (s.coordinator.coord.attempts a).phase = .queued ∧
      ∃ i, s.first a = some i ∧ (s.queue.ops i).lease = some true
  | .stopReacquire a => a ∈ s.stopReacquires
  | .reacquire a => a ∈ s.reacquires
  | .reacquireThrows a => s.locked = false ∧ a ∈ s.reacquires
  | .onReacquired a granted => s.locked = false ∧
      ∃ i, s.takeBack a = some i ∧ (s.queue.ops i).phase = .completed granted
  | .drained a => a ∈ s.drains
  | .released a => a ∈ s.ending

end State

/-- The coordinator and a queue of `slots` slots under any interleaving of what is done with the
two. -/
def machine (slots : Nat) : Machine State Event where
  init s := s = { queue := { free := slots } }
  enabled := State.enabled
  step := State.step

end MakeBelieve.Permits
