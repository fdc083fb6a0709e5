import Mathlib.Logic.Function.Basic
import MakeBelieve.Library.Machine

namespace MakeBelieve.ConsoleInterrupt

open Library

/-! ### State -/

/-- A `ConsoleInterruptHandler`. -/
abbrev HandlerId := Nat

/-- A run of `handle_signal`. -/
abbrev SignalId := Nat

inductive Signal
  | int
  | term
  deriving DecidableEq

/-- Where a handler is in its constructor and destructor. -/
inductive Phase
  | unborn
  | slotted
  | watching
  | intInstalled
  | installed
  | intRestored
  | restored
  | stopping
  | joined
  | drained
  | ended
  | threw
  deriving DecidableEq

/-- It is in `g_source`. -/
def Phase.holds : Phase → Bool
  | .unborn | .ended | .threw => false
  | _ => true

/-- Its watch reports the pipe. -/
def Phase.watches : Phase → Bool
  | .watching | .intInstalled | .installed | .intRestored | .restored => true
  | _ => false

/-- What is in the pipe is yet to be read for it. -/
def Phase.awaits : Phase → Bool
  | .watching | .intInstalled | .installed | .intRestored | .restored | .stopping | .joined => true
  | _ => false

/-- The signals it has installed itself for. -/
def Phase.handles : Phase → Signal → Bool
  | .intInstalled, .int | .installed, _ | .intRestored, .term => true
  | _, _ => false

/-- A run of `handle_signal`, by the handler that was there as the signal came. -/
inductive Run
  | unborn
  | entered (h : HandlerId)
  | returned (h : HandlerId)

/-- The watch's callback: in `drain_pipe`, and about to request the stop. -/
inductive Watch
  | idle
  | draining (got : List SignalId)
  | stopping (got : List SignalId)

def Watch.got : Watch → List SignalId
  | .idle => []
  | .draining got | .stopping got => got

structure State where
  source : Option HandlerId := none
  phase : HandlerId → Phase := fun _ => .unborn
  /-- Whether `handle_signal` is installed. -/
  handled : Signal → Bool := fun _ => false
  /-- The bytes in the pipe, by who wrote them. -/
  pipe : List SignalId := []
  watch : Watch := .idle
  stopRequested : HandlerId → Bool := fun _ => false
  runs : SignalId → Run := fun _ => .unborn

namespace State

variable (s : State)

def setPhase (h : HandlerId) (phase : Phase) : State :=
  { s with phase := Function.update s.phase h phase }

def setRun (r : SignalId) (run : Run) : State :=
  { s with runs := Function.update s.runs r run }

def install (signal : Signal) (handled : Bool) : State :=
  { s with handled := Function.update s.handled signal handled }

end State

/-! ### Steps -/

inductive Event
  -- the constructor
  | takesSlot (h : HandlerId)
  | refused (h : HandlerId)
  | fails (h : HandlerId)
  | watches (h : HandlerId)
  | installsInt (h : HandlerId)
  | installsTerm (h : HandlerId)
  | installFails (h : HandlerId)
  -- the destructor
  | restoresInt (h : HandlerId)
  | restoresTerm (h : HandlerId)
  | stopsWatch (h : HandlerId)
  | joins (h : HandlerId)
  | drains (h : HandlerId)
  | releases (h : HandlerId)
  -- `handle_signal`
  | signals (r : SignalId) (signal : Signal)
  /-- A full pipe drops the byte. -/
  | writes (r : SignalId) (dropped : Bool)
  -- the watch
  | ready
  | reads (count : Nat)
  /-- A read finds nothing more, or fails. -/
  | readsNone (failed : Bool)
  | requestsStop

def enabled (s : State) : Event → Prop
  | .takesSlot h => s.phase h = .unborn ∧ s.source = none
  | .refused h => s.phase h = .unborn ∧ s.source ≠ none
  | .fails h | .watches h => s.phase h = .slotted
  | .installsInt h => s.phase h = .watching
  | .installsTerm h => s.phase h = .intInstalled
  | .installFails h => s.phase h = .watching ∨ s.phase h = .intInstalled
  | .restoresInt h => s.phase h = .installed
  | .restoresTerm h => s.phase h = .intRestored
  | .stopsWatch h => s.phase h = .restored
  | .joins h => s.phase h = .stopping ∧ s.watch = .idle
  | .drains h => s.phase h = .joined
  | .releases h => s.phase h = .drained
  | .signals r signal => (∃ h, s.source = some h) ∧ s.handled signal = true ∧ s.runs r = .unborn
  | .writes r dropped => ∃ h, s.runs r = .entered h ∧ (dropped = true → s.pipe ≠ [])
  | .ready =>
    (∃ h, s.source = some h ∧ (s.phase h).watches = true) ∧ s.watch = .idle ∧ s.pipe ≠ []
  | .reads count =>
    (∃ got, s.watch = .draining got) ∧ 0 < count ∧ count ≤ 64 ∧ count ≤ s.pipe.length
  | .readsNone failed => (∃ got, s.watch = .draining got) ∧ (failed = false → s.pipe = [])
  | .requestsStop => ∃ got, s.watch = .stopping got

def step (s : State) : Event → State
  | .takesSlot h => { s.setPhase h .slotted with source := some h }
  | .refused h => s.setPhase h .threw
  | .fails h => { s.setPhase h .threw with source := none }
  | .watches h => s.setPhase h .watching
  | .installsInt h => (s.setPhase h .intInstalled).install .int true
  | .installsTerm h => (s.setPhase h .installed).install .term true
  | .installFails h => (s.setPhase h .restored).install .int false
  | .restoresInt h => (s.setPhase h .intRestored).install .int false
  | .restoresTerm h => (s.setPhase h .restored).install .term false
  | .stopsWatch h => s.setPhase h .stopping
  | .joins h => s.setPhase h .joined
  | .drains h => { s.setPhase h .drained with pipe := [] }
  | .releases h => { s.setPhase h .ended with source := none }
  | .signals r _ =>
    match s.source with
    | some h => s.setRun r (.entered h)
    | none => s
  | .writes r dropped =>
    match s.runs r with
    | .entered h =>
      { s.setRun r (.returned h) with pipe := if dropped then s.pipe else s.pipe ++ [r] }
    | _ => s
  | .ready => { s with watch := .draining [] }
  | .reads count =>
    { s with watch := .draining (s.watch.got ++ s.pipe.take count), pipe := s.pipe.drop count }
  | .readsNone _ => { s with watch := if s.watch.got = [] then .idle else .stopping s.watch.got }
  | .requestsStop =>
    match s.source with
    | some h =>
      { s with
        watch := .idle
        stopRequested := Function.update s.stopRequested h true }
    | none => { s with watch := .idle }

def machine : Machine State Event where
  init s := s = {}
  enabled := enabled
  step := step

end MakeBelieve.ConsoleInterrupt
