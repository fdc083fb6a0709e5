import MakeBelieve.Library.IntrusiveList
import MakeBelieve.Library.Machine

namespace MakeBelieve.Queue

open Library IntrusiveList

/-- A `SlotOperation`'s address, which is its waiter's too. A lease is named by the operation whose
slot it took over. -/
abbrev OpId := Nat

abbrev TicketId := Nat

/-- The three queues of waiters. -/
inductive Line
  | reacquiring
  | promoted
  | waiting
  deriving DecidableEq, Repr

/-- What an operation waits for: its work's first slot, under its ticket if it has one, or the slot
a lease gave back. -/
inductive Kind
  | first (ticket : Option TicketId)
  | reacquire (lease : OpId)
  deriving DecidableEq, Repr

/-- How far an operation has come. `given` says whether it was given a slot or stopped. -/
inductive Phase
  | idle
  /-- Its stop callback is registered; `start` has yet to take the lock. -/
  | starting
  | queued
  /-- Off its line, by `release` or by a stop, and yet to be passed to the handoff. -/
  | handed (given : Bool)
  /-- Scheduled on the handoff. -/
  | resuming (given : Bool)
  /-- About to complete: within `start`, or after the handoff shut down. -/
  | completing (given : Bool)
  | completed (given : Bool)
  deriving DecidableEq, Repr

structure Op where
  kind : Kind := .first none
  phase : Phase := .idle
  stopRequested : Bool := false
  /-- Whether `on_stop` has run. -/
  calledBack : Bool := false
  stoppedEarly : Bool := false
  /-- Whether the `Slot` it completed with is still one. -/
  slot : Bool := false
  /-- `m_held` of the `Lease` made of that slot. -/
  lease : Option Bool := none
  deriving DecidableEq

structure Ticket where
  promoted : Bool := false
  waiter : Option OpId := none
  deriving DecidableEq

/-- The queue with the operations, tickets and leases used with it, and how each operation that
has completed did. -/
structure State where
  free : Nat
  next : Links OpId := fun _ => none
  lines : Line → Ends OpId := fun _ => {}
  ops : OpId → Op := fun _ => {}
  opCount : Nat := 0
  tickets : TicketId → Ticket := fun _ => {}
  completions : List (OpId × Bool) := []

namespace State

variable (s : State)

def setOp (i : OpId) (f : Op → Op) : State :=
  { s with ops := Function.update s.ops i (f (s.ops i)) }

def setPhase (i : OpId) (phase : Phase) : State := s.setOp i fun op => { op with phase }

def pushLine (line : Line) (i : OpId) : State :=
  let (next, ends) := push s.next (s.lines line) i
  { s with next, lines := Function.update s.lines line ends }

def popLine (line : Line) : Option OpId × State :=
  let (popped, ends) := pop s.next (s.lines line)
  (popped, { s with lines := Function.update s.lines line ends })

/-- `none` if `i` is not in that line. -/
def removeLine (line : Line) (i : OpId) : Option State :=
  (remove s.opCount s.next (s.lines line) i).map fun (next, ends) =>
    { s with next, lines := Function.update s.lines line ends }

/-- `try_take`: `none` if no slot is free. -/
def tryTake : Option State := if s.free = 0 then none else some { s with free := s.free - 1 }

def setWaiter (ticket : TicketId) (waiter : Option OpId) : State :=
  { s with tickets := Function.update s.tickets ticket { s.tickets ticket with waiter } }

def enqueue (i : OpId) : State :=
  match (s.ops i).kind with
  | .reacquire _ => s.pushLine .reacquiring i
  | .first none => s.pushLine .waiting i
  | .first (some ticket) =>
    (s.setWaiter ticket (some i)).pushLine
      (if (s.tickets ticket).promoted then .promoted else .waiting) i

def leftLine (i : OpId) : State :=
  match (s.ops i).kind with
  | .first (some ticket) => s.setWaiter ticket none
  | _ => s

/-- `dequeue`: `none` if `i` is in no line. -/
def dequeue (i : OpId) : Option State :=
  match (s.ops i).kind with
  | .reacquire _ => s.removeLine .reacquiring i
  | .first _ =>
    match s.removeLine .promoted i with
    | some s => some (s.leftLine i)
    | none => (s.removeLine .waiting i).map fun s => s.leftLine i

/-- `release`, up to the call of the waiter it hands the slot to. -/
def release : State :=
  match s.popLine .reacquiring with
  | (some i, s) => s.setPhase i (.handed true)
  | (none, s) =>
    match s.popLine .promoted with
    | (some i, s) => (s.leftLine i).setPhase i (.handed true)
    | (none, s) =>
      match s.popLine .waiting with
      | (some i, s) => (s.leftLine i).setPhase i (.handed true)
      | (none, s) => { s with free := s.free + 1 }

def promote (ticket : TicketId) : State :=
  if (s.tickets ticket).promoted then s
  else
    let s := { s with
      tickets := Function.update s.tickets ticket { s.tickets ticket with promoted := true } }
    match (s.tickets ticket).waiter with
    | none => s
    | some i =>
      match s.removeLine .waiting i with
      | none => s
      | some s => s.pushLine .promoted i

def onStop (i : OpId) : State :=
  let s := s.setOp i fun op => { op with calledBack := true }
  match s.dequeue i with
  | none => s.setOp i fun op => { op with stoppedEarly := true }
  | some s => s.setPhase i (.handed false)

/-- Promoting a ticket for the first time, given what becomes of its waiter. -/
theorem promote_unpromoted {s : State} {ticket : TicketId} (marked : State)
    (h : (s.tickets ticket).promoted = false)
    (hm : marked = { s with
      tickets := Function.update s.tickets ticket { s.tickets ticket with promoted := true } }) :
    s.promote ticket =
      match (s.tickets ticket).waiter with
      | none => marked
      | some i =>
        match marked.removeLine .waiting i with
        | none => marked
        | some s => s.pushLine .promoted i := by
  subst hm
  simp [promote, h]

theorem onStop_eq (s : State) (i : OpId) : s.onStop i =
    match (s.setOp i fun op => { op with calledBack := true }).dequeue i with
    | none => (s.setOp i fun op => { op with calledBack := true }).setOp i
        fun op => { op with stoppedEarly := true }
    | some s => s.setPhase i (.handed false) := rfl

/-- What `start` does under the lock. -/
def enter (i : OpId) : State :=
  if (s.ops i).stoppedEarly then s.setPhase i (.completing false)
  else
    match s.tryTake with
    | some s => s.setPhase i (.completing true)
    | none => (s.enqueue i).setPhase i .queued

/-- `complete_given` and `complete_stopped`. -/
def complete (i : OpId) (given : Bool) : State :=
  let s := { s.setPhase i (.completed given) with completions := s.completions ++ [(i, given)] }
  if given then
    match (s.ops i).kind with
    | .first _ => s.setOp i fun op => { op with slot := true }
    | .reacquire lease => s.setOp lease fun op => { op with lease := some true }
  else s

theorem complete_given (s : State) (i : OpId) : s.complete i true =
    let done := { s.setPhase i (.completed true) with completions := s.completions ++ [(i, true)] }
    match (done.ops i).kind with
    | .first _ => done.setOp i fun op => { op with slot := true }
    | .reacquire lease => done.setOp lease fun op => { op with lease := some true } := rfl

/-- `Resume::set_stopped`: a slot the waiter was given goes straight back. -/
def shutDown (i : OpId) (given : Bool) : State :=
  let s := s.setPhase i (.completing false)
  if given then s.release else s

def takeLease (i : OpId) : State :=
  s.setOp i fun op => { op with slot := false, lease := some true }

def releaseSlot (i : OpId) : State := (s.setOp i fun op => { op with slot := false }).release

def releaseLease (i : OpId) : State :=
  if (s.ops i).lease = some true then
    (s.setOp i fun op => { op with lease := some false }).release
  else s

end State

inductive Event
  | connect (kind : Kind)
  | start (i : OpId)
  | enter (i : OpId)
  | requestStop (i : OpId)
  | onStop (i : OpId)
  | handOn (i : OpId) (given : Bool)
  | resume (i : OpId) (given : Bool)
  | shutDown (i : OpId) (given : Bool)
  | complete (i : OpId) (given : Bool)
  | takeLease (i : OpId)
  | releaseSlot (i : OpId)
  | releaseLease (i : OpId)
  | promote (ticket : TicketId)

namespace State

def step (s : State) : Event → State
  | .connect kind =>
    { s with ops := Function.update s.ops s.opCount { kind }, opCount := s.opCount + 1 }
  | .start i => s.setPhase i .starting
  | .enter i => s.enter i
  | .requestStop i => s.setOp i fun op => { op with stopRequested := true }
  | .onStop i => s.onStop i
  | .handOn i given => s.setPhase i (.resuming given)
  | .resume i given => s.complete i given
  | .shutDown i given => s.shutDown i given
  | .complete i given => s.complete i given
  | .takeLease i => s.takeLease i
  | .releaseSlot i => s.releaseSlot i
  | .releaseLease i => s.releaseLease i
  | .promote ticket => s.promote ticket

/-- What may be connected: work under a ticket no other work uses, or a lease holding no slot and
taking none back already. -/
def Connectable (s : State) : Kind → Prop
  | .first ticket => ∀ t, ticket = some t → ∀ i, (s.ops i).kind ≠ .first (some t)
  | .reacquire lease => (s.ops lease).lease = some false ∧
      ∀ i, (s.ops i).kind = .reacquire lease → ∃ given, (s.ops i).phase = .completed given

/-- Whether `on_stop` of this operation may run: from `start` until it completes, once a stop is
requested. -/
def Stoppable (s : State) (i : OpId) : Prop :=
  (s.ops i).stopRequested = true ∧ (s.ops i).calledBack = false ∧ (s.ops i).phase ≠ .idle ∧
    ∀ given, (s.ops i).phase ≠ .completed given

def enabled (s : State) : Event → Prop
  | .connect kind => s.Connectable kind
  | .start i => i < s.opCount ∧ (s.ops i).phase = .idle
  | .enter i => (s.ops i).phase = .starting
  | .requestStop i => i < s.opCount
  | .onStop i => s.Stoppable i
  | .handOn i given => (s.ops i).phase = .handed given
  | .resume i given => (s.ops i).phase = .resuming given
  | .shutDown i given => (s.ops i).phase = .resuming given
  | .complete i given => (s.ops i).phase = .completing given
  | .takeLease i => (s.ops i).slot = true
  | .releaseSlot i => (s.ops i).slot = true
  | .releaseLease i => (s.ops i).lease.isSome
  | .promote _ => True

end State

/-- A queue of `slots` slots under any interleaving of what is done with it. -/
def machine (slots : Nat) : Machine State Event where
  init s := s = { free := slots }
  enabled := State.enabled
  step := State.step

end MakeBelieve.Queue
