import Mathlib.Logic.Function.Basic
import MakeBelieve.Library.Machine
import MakeBelieve.Path

namespace MakeBelieve.ProcessTracker

open Library

/-! ### Processes -/

/-- The id of a thread, and so of the process whose first thread it is. -/
abbrev Pid := Nat

/-- A process, whose id may be another's once it is gone. -/
abbrev Process := Nat

/-- What the kernel keeps. -/
structure Host where
  /-- The process that has a thread of an id. -/
  threads : Pid → Option Process
  /-- When the last thread to have an id started. -/
  startTime : Pid → Nat
  born : Process → Bool
  pid : Process → Pid
  started : Process → Nat
  parent : Process → Option Process
  /-- The command whose pid namespace it is in, as its init or below it. -/
  command : Process → Option Process
  now : Nat

namespace Host

variable (h : Host)

/-- It has its id: it runs, or was not reaped yet. -/
def There (p : Process) : Prop := h.threads (h.pid p) = some p

def Gone (p : Process) : Prop := ∀ id, h.threads id ≠ some p

/-- A thread takes an id. -/
def take (id : Pid) (p : Process) : Host :=
  { h with
    threads := Function.update h.threads id (some p)
    startTime := Function.update h.startTime id h.now }

def free (id : Pid) : Host := { h with threads := Function.update h.threads id none }

def birth (child : Process) (id : Pid) (parent : Process) (command : Option Process) : Host :=
  { h.take id child with
    born := Function.update h.born child true
    pid := Function.update h.pid child id
    started := Function.update h.started child h.now
    parent := Function.update h.parent child (some parent)
    command := Function.update h.command child command }

/-- The children it has are `reaper`'s from now on. -/
def reparent (p reaper : Process) : Host :=
  { h with parent := fun q => if h.parent q = some p then some reaper else h.parent q }

/-- An id that was not anyone's in this tick. -/
def Unused (id : Pid) : Prop := 1 < id ∧ h.threads id = none ∧ h.startTime id < h.now

end Host

/-! ### The tracker -/

structure Stat where
  parent : Pid
  startTime : Nat

structure Record where
  output : Path
  pid : Pid
  startTime : Nat

abbrev Token := Nat

def maxDepth : Nat := 4096

/-- Why nothing was found: `gone` is a read of `/proc` that failed. -/
inductive Miss
  | empty
  | gone
  | top
  | deep

/-- A call of `find`. -/
inductive Find
  | unborn
  | asked (thread : Pid)
  | started (thread : Pid)
  | climbing (pid : Pid) (depth : Nat)
  | comparing (pid : Pid) (stat : Stat) (depth : Nat)
  | found (output : Path)
  | missed (why : Miss)

abbrev FindId := Nat

structure State where
  host : Host
  lastToken : Token := 0
  records : List (Token × Record) := []
  finds : FindId → Find := fun _ => .unborn
  /-- The process a find is for. -/
  requester : FindId → Process := fun _ => 0
  /-- The command a record was added for. -/
  addedFor : Token → Process := fun _ => 0
  /-- The output that a command was added for. -/
  output : Process → Option Path := fun _ => none

namespace State

variable (s : State)

def setFind (f : FindId) (find : Find) : State :=
  { s with finds := Function.update s.finds f find }

/-- `/proc/<pid>/stat`: there is none for an id that is nobody's. -/
def statOf (pid : Pid) : Option Stat :=
  (s.host.threads pid).map fun p =>
    ⟨((s.host.parent p).map s.host.pid).getD 0, s.host.startTime pid⟩

/-- `/proc/<thread>/status`. -/
def processOf (thread : Pid) : Option Pid := (s.host.threads thread).map s.host.pid

def add (command : Process) (output : Path) : State :=
  let token := s.lastToken + 1
  let record : Record := ⟨output, s.host.pid command, s.host.startTime (s.host.pid command)⟩
  { s with
    lastToken := token
    records := (token, record) :: s.records
    addedFor := Function.update s.addedFor token command
    output := Function.update s.output command (some output) }

def remove (token : Token) : State :=
  { s with records := s.records.filter fun entry => entry.1 ≠ token }

end State

def Record.Matches (record : Record) (pid : Pid) (stat : Stat) : Prop :=
  record.pid = pid ∧ record.startTime = stat.startTime

inductive Event
  -- the kernel
  | ticks
  | forks (p child : Process) (id : Pid)
  /-- Makebelieve launches a command, as the init of a pid namespace. -/
  | launches (child : Process) (id : Pid)
  | clones (p : Process) (id : Pid)
  | threadEnds (p : Process) (id : Pid)
  | exits (p reaper : Process)
  | reaps (p : Process)
  -- the tracker
  | adds (command : Process) (output : Path)
  | removes (token : Token)
  -- `find`
  | asks (f : FindId) (p : Process) (thread : Pid)
  | begins (f : FindId)
  | readsStatus (f : FindId) (fails : Bool)
  | readsStat (f : FindId) (fails : Bool)
  | compares (f : FindId) (entry : Option (Token × Record))

section

variable (self : Process)

def enabled (s : State) : Event → Prop
  | .ticks => True
  | .forks p child id => s.host.There p ∧ s.host.born child = false ∧ s.host.Unused id
  | .launches child id => s.host.born child = false ∧ s.host.Unused id
  | .clones p id => s.host.There p ∧ s.host.Unused id
  | .threadEnds p id => s.host.threads id = some p ∧ id ≠ s.host.pid p
  | .exits p reaper =>
    p ≠ self ∧ s.host.There reaper ∧ ∀ q, s.host.born q = true → s.host.parent q = some p →
      s.host.command reaper = s.host.command q
  | .reaps p =>
    p ≠ self ∧ s.host.There p ∧ (∀ id, s.host.threads id = some p → id = s.host.pid p) ∧
      ∀ q, s.host.born q = true → s.host.parent q ≠ some p
  | .adds command _ =>
    s.host.There command ∧ s.host.command command = some command ∧ s.output command = none
  | .removes _ => True
  | .asks f p thread =>
    (match s.finds f with | .unborn => True | _ => False) ∧ s.host.threads thread = some p
  | .begins f => ∃ thread, s.finds f = .asked thread
  | .readsStatus f _ => ∃ thread, s.finds f = .started thread
  | .readsStat f _ => ∃ pid depth, s.finds f = .climbing pid depth
  | .compares f entry =>
    ∃ pid stat depth, s.finds f = .comparing pid stat depth ∧
      match entry with
      | some entry => entry ∈ s.records ∧ entry.2.Matches pid stat
      | none => ∀ entry ∈ s.records, ¬ entry.2.Matches pid stat

def State.begin (s : State) (f : FindId) : State :=
  match s.finds f with
  | .asked thread => s.setFind f (if s.records = [] then .missed .empty else .started thread)
  | _ => s

def State.readStatus (s : State) (f : FindId) (fails : Bool) : State :=
  match s.finds f with
  | .started thread =>
    match s.processOf thread, fails with
    | some pid, false => s.setFind f (.climbing pid 0)
    | _, _ => s.setFind f (.missed .gone)
  | _ => s

def State.readStat (s : State) (f : FindId) (fails : Bool) : State :=
  match s.finds f with
  | .climbing pid depth =>
    if pid ≤ 1 ∨ pid = s.host.pid self then s.setFind f (.missed .top)
    else if maxDepth ≤ depth then s.setFind f (.missed .deep)
    else
      match s.statOf pid, fails with
      | some stat, false => s.setFind f (.comparing pid stat depth)
      | _, _ => s.setFind f (.missed .gone)
  | _ => s

def State.compare (s : State) (f : FindId) (entry : Option (Token × Record)) : State :=
  match s.finds f with
  | .comparing _ stat depth =>
    match entry with
    | some (_, record) => s.setFind f (.found record.output)
    | none => s.setFind f (.climbing stat.parent (depth + 1))
  | _ => s

def step (s : State) : Event → State
  | .ticks => { s with host := { s.host with now := s.host.now + 1 } }
  | .forks p child id => { s with host := s.host.birth child id p (s.host.command p) }
  | .launches child id => { s with host := s.host.birth child id self (some child) }
  | .clones p id => { s with host := s.host.take id p }
  | .threadEnds _ id => { s with host := s.host.free id }
  | .exits p reaper => { s with host := s.host.reparent p reaper }
  | .reaps p => { s with host := s.host.free (s.host.pid p) }
  | .adds command output => s.add command output
  | .removes token => s.remove token
  | .asks f p thread =>
    { s.setFind f (.asked thread) with requester := Function.update s.requester f p }
  | .begins f => s.begin f
  | .readsStatus f fails => s.readStatus f fails
  | .readsStat f fails => s.readStat self f fails
  | .compares f entry => s.compare f entry

end

end MakeBelieve.ProcessTracker
