import MakeBelieve.Tracer.Events

namespace MakeBelieve.Tracer

open Library

structure State where
  origin : Int
  capacity : Nat
  sliceSize : Nat
  /-- Rendered events, none of them split across slices, and the bytes held. -/
  slices : List ByteString := []
  size : Nat := 0
  /-- The rendered events naming each process and each row. -/
  processNames : List (UInt32 × ByteString) := []
  rowNames : List (TraceLane × ByteString) := []

/-- The newest slice takes an event it has room for, and a new slice any other. -/
def pack (sliceSize : Nat) (slices : List ByteString) (event : ByteString) : List ByteString :=
  match slices.getLast? with
  | some back =>
    if sliceSize < back.length + event.length then slices ++ [event]
    else slices.dropLast ++ [back ++ event]
  | none => [event]

/-- The oldest slices are dropped to stay within capacity, but never the newest. -/
def evict (capacity : Nat) : List ByteString → Nat → List ByteString × Nat
  | front :: next :: slices, size =>
    if capacity < size then evict capacity (next :: slices) (size - front.length)
    else (front :: next :: slices, size)
  | slices, size => (slices, size)

/-- What is put before a name: the names lead, and are separated. -/
def appendName (trace event : ByteString) : ByteString :=
  (if 1 < trace.length then trace ++ ascii "," else trace) ++ event

namespace State

def record (s : State) (event : ByteString) : State :=
  let held := evict s.capacity (pack s.sliceSize s.slices event) (s.size + event.length)
  { s with
    slices := held.1
    size := held.2 }

/-- The first name a process is given sticks. -/
def nameProcess (s : State) (id : UInt32) (name : ByteString) : State :=
  if name = [] ∨ id ∈ s.processNames.map Prod.fst then s
  else { s with processNames := s.processNames ++ [(id, processName id name)] }

def nameRow (s : State) (row : TraceLane) (name : ByteString) : State :=
  { s with
    rowNames := s.rowNames.filter (fun entry => entry.1 ≠ row) ++ [(row, rowName row name)] }

/-- A tracer holding up to about `capacity` bytes of events, which names its own process. -/
def make (self : UInt32) (capacity : Nat) (origin : Int) : State :=
  nameProcess { origin, capacity, sliceSize := max (capacity / 16) 1 } self (ascii "makebelieve")

/-- The trace, for the order in which the names happen to be iterated over. -/
def snapshot (s : State) (processes : List (UInt32 × ByteString)) (rows : List (TraceLane × ByteString)) :
    ByteString :=
  let trace := (processes.map Prod.snd).foldl appendName (ascii "[")
  let trace := (rows.map Prod.snd).foldl appendName trace
  s.slices.foldl (· ++ ·) trace ++ ascii "]\n"

end State

/-- What a tracer is asked to note. -/
inductive Call
  | record (e : Event)
  | nameProcess (id : UInt32) (name : ByteString)
  | nameRow (row : TraceLane) (name : ByteString)

def State.call (s : State) : Call → State
  | .record e => s.record (e.render s.origin)
  | .nameProcess id name => s.nameProcess id name
  | .nameRow row name => s.nameRow row name

/-- A tracer after the calls made of it. -/
def State.after (self : UInt32) (capacity : Nat) (origin : Int) (calls : List Call) : State :=
  calls.foldl State.call (State.make self capacity origin)

end MakeBelieve.Tracer
