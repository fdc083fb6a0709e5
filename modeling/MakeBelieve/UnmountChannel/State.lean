import Mathlib.Data.UInt
import Mathlib.Logic.Function.Basic
import MakeBelieve.Library.Machine

namespace MakeBelieve.UnmountChannel

open Library

/-! ### Endpoints -/

/-- The native bytes of a mountpoint's canonical path. -/
abbrev Key := List UInt8

def fnv1a (data : List UInt8) : UInt64 :=
  data.foldl (fun hash byte => (hash ^^^ byte.toUInt64) * 0x100000001b3) 0xcbf29ce484222325

/-- As `%016llx` writes it. -/
def hexDigits (hash : UInt64) : List Char :=
  (List.range 16).map fun i => Nat.digitChar (hash.toNat / 16 ^ (15 - i) % 16)

def endpointId (key : Key) : List Char := hexDigits (fnv1a key)

/-- The name of the control socket in the user's runtime directory. -/
abbrev Endpoint := List Char

/-! ### The parties -/

/-- A process that runs `mount`, which makes one channel. -/
abbrev Daemon := Nat

/-- A call of `request_unmount`. -/
abbrev Client := Nat

/-- A connection, by whose end of it connects: `request_unmount`'s, or `bind_endpoint`'s. -/
inductive Conn
  | client (c : Client)
  | probe (d : Daemon)
  deriving DecidableEq

/-- Where a daemon is in `mount`: its channel's constructor, the wait to stop, its mount's teardown
and its channel's destructor. -/
inductive Phase
  | unborn
  | mounted
  | binding
  | probing
  | removing
  | rebinding
  | bound
  | listening
  | serving
  | unmounting
  | unmounted
  | stopping
  | unlinking
  | closing
  | releasing
  | destroyed
  /-- It serves without an endpoint. -/
  | disabled
  /-- `listen` threw, which unwinds the rest. -/
  | failed
  | exited
  deriving DecidableEq

/-- Its socket accepts connections. -/
def Phase.listens : Phase → Bool
  | .listening | .serving | .unmounting | .unmounted | .stopping | .unlinking | .closing => true
  | _ => false

/-- Its mount is there. -/
def Phase.mount : Phase → Bool
  | .unborn | .unmounted | .stopping | .unlinking | .closing | .releasing | .destroyed | .exited =>
    false
  | _ => true

structure Channel where
  phase : Phase := .unborn
  endpoint : Endpoint := []
  /-- What waits to be accepted. -/
  backlog : List Conn := []
  /-- Whether the watch is in `accept_pokes`, and what it has accepted there. -/
  accepting : Bool := false
  taken : Option Conn := none
  /-- `m_clients`, and those it had no memory for. -/
  clients : List Conn := []
  untracked : List Conn := []
  /-- Whether a stop was requested. -/
  asked : Bool := false

namespace Channel

/-- It has its end of a connection open. -/
def Holds (ch : Channel) (conn : Conn) : Prop :=
  conn ∈ ch.backlog ∨ ch.taken = some conn ∨ conn ∈ ch.clients ∨ conn ∈ ch.untracked

/-- Its process is no more, and with it each end that it had open. -/
def exit (ch : Channel) : Channel :=
  { ch with
    phase := .exited
    backlog := []
    accepting := false
    taken := none
    clients := []
    untracked := [] }

end Channel

/-- Where `request_unmount` is. -/
inductive Request
  | unborn
  | connecting (endpoint : Endpoint)
  | waiting (endpoint : Endpoint) (d : Daemon)
  | ok (endpoint : Endpoint) (d : Daemon)
  | notMounted
  | threw
  deriving DecidableEq

structure State where
  channels : Daemon → Channel := fun _ => {}
  requests : Client → Request := fun _ => .unborn
  /-- Whose socket each name is of, the socket there or not. -/
  files : Endpoint → Option Daemon := fun _ => none

namespace State

def setChannel (s : State) (d : Daemon) (ch : Channel) : State :=
  { s with channels := Function.update s.channels d ch }

@[simp] theorem setChannel_self (s : State) (d : Daemon) (ch : Channel) :
    (s.setChannel d ch).channels d = ch := by
  simp [setChannel]

theorem setChannel_of_ne (s : State) {d other : Daemon} (ch : Channel) (hne : other ≠ d) :
    (s.setChannel d ch).channels other = s.channels other := by
  simp [setChannel, Function.update_of_ne hne]

def setPhase (s : State) (d : Daemon) (phase : Phase) : State :=
  s.setChannel d { s.channels d with phase }

@[simp] theorem setPhase_self (s : State) (d : Daemon) (phase : Phase) :
    ((s.setPhase d phase).channels d).phase = phase := by
  simp [setPhase]

theorem setPhase_of_ne (s : State) {d other : Daemon} (phase : Phase) (hne : other ≠ d) :
    (s.setPhase d phase).channels other = s.channels other :=
  s.setChannel_of_ne _ hne

@[simp] theorem setPhase_endpoint (s : State) (d other : Daemon) (phase : Phase) :
    ((s.setPhase d phase).channels other).endpoint = (s.channels other).endpoint := by
  by_cases heq : other = d
  · simp [heq, setPhase]
  · rw [setPhase_of_ne s phase heq]

def setRequest (s : State) (c : Client) (request : Request) : State :=
  { s with requests := Function.update s.requests c request }

/-- The daemon a connection to the endpoint reaches. -/
def reaches (s : State) (endpoint : Endpoint) : Option Daemon :=
  (s.files endpoint).filter fun d => (s.channels d).phase.listens

def queue (s : State) (d : Daemon) (conn : Conn) : State :=
  s.setChannel d { s.channels d with backlog := (s.channels d).backlog ++ [conn] }

end State

/-! ### Steps -/

inductive Event
  -- `mount`
  | mounts (d : Daemon)
  | finds (d : Daemon) (key : Key)
  | disables (d : Daemon)
  | binds (d : Daemon)
  | probes (d : Daemon)
  /-- There is no socket to connect with, or connecting fails although it could succeed. -/
  | probeFails (d : Daemon)
  | removes (d : Daemon)
  | rebinds (d : Daemon)
  | listens (d : Daemon)
  | watches (d : Daemon)
  | listenThrows (d : Daemon)
  /-- `asked` is whether that is why it stops: an interrupt or a failed watch is as good. -/
  | stops (d : Daemon) (asked : Bool)
  | unmounts (d : Daemon)
  | stopsWatch (d : Daemon)
  | joins (d : Daemon)
  | unlinks (d : Daemon)
  | closes (d : Daemon)
  | releases (d : Daemon)
  | released (d : Daemon)
  | unwinds (d : Daemon)
  | exits (d : Daemon)
  | dies (d : Daemon)
  -- its watch
  | ready (d : Daemon)
  | accepts (d : Daemon)
  | keeps (d : Daemon) (tracked : Bool)
  | drained (d : Daemon)
  | acceptFails (d : Daemon)
  -- `request_unmount`
  | asks (c : Client) (key : Key)
  /-- There is no runtime directory for it, or its path is too long. -/
  | asksNowhere (c : Client)
  | connects (c : Client)
  | refused (c : Client)
  | connectFails (c : Client)
  | returns (c : Client)
  | recvFails (c : Client)

def Phase.constructs : Phase → Bool
  | .mounted | .binding | .probing | .removing | .rebinding | .bound | .listening => true
  | _ => false

def enabled (s : State) : Event → Prop
  | .mounts d => (s.channels d).phase = .unborn
  | .finds d _ | .disables d => (s.channels d).phase = .mounted
  | .binds d => (s.channels d).phase = .binding
  | .probes d | .probeFails d => (s.channels d).phase = .probing
  | .removes d => (s.channels d).phase = .removing
  | .rebinds d => (s.channels d).phase = .rebinding
  | .listens d => (s.channels d).phase = .bound
  | .watches d => (s.channels d).phase = .listening
  | .listenThrows d => (s.channels d).phase.constructs = true
  | .stops d asked =>
    (s.channels d).phase = .serving ∧ (asked = true → (s.channels d).asked = true)
  | .unmounts d => (s.channels d).phase = .unmounting
  | .stopsWatch d => (s.channels d).phase = .unmounted
  | .joins d => (s.channels d).phase = .stopping ∧ (s.channels d).accepting = false
  | .unlinks d => (s.channels d).phase = .unlinking
  | .closes d => (s.channels d).phase = .closing
  | .releases d => (s.channels d).phase = .releasing ∧ (s.channels d).clients ≠ []
  | .released d => (s.channels d).phase = .releasing ∧ (s.channels d).clients = []
  | .unwinds d => (s.channels d).phase = .failed ∨ (s.channels d).phase = .disabled
  | .exits d => (s.channels d).phase = .destroyed
  | .dies d => (s.channels d).phase ≠ .unborn ∧ (s.channels d).phase ≠ .exited
  | .ready d =>
    ((s.channels d).phase = .serving ∨ (s.channels d).phase = .unmounting ∨
        (s.channels d).phase = .unmounted) ∧
      (s.channels d).accepting = false ∧ (s.channels d).backlog ≠ []
  | .accepts d =>
    (s.channels d).accepting = true ∧ (s.channels d).taken = none ∧ (s.channels d).backlog ≠ []
  | .keeps d _ => (s.channels d).taken.isSome = true
  | .drained d =>
    (s.channels d).accepting = true ∧ (s.channels d).taken = none ∧ (s.channels d).backlog = []
  | .acceptFails d => (s.channels d).accepting = true ∧ (s.channels d).taken = none
  | .asks c _ | .asksNowhere c => s.requests c = .unborn
  | .connects c =>
    ∃ endpoint, s.requests c = .connecting endpoint ∧ (s.reaches endpoint).isSome = true
  | .refused c => ∃ endpoint, s.requests c = .connecting endpoint ∧ s.reaches endpoint = none
  | .connectFails c => ∃ endpoint, s.requests c = .connecting endpoint
  | .returns c =>
    ∃ endpoint d, s.requests c = .waiting endpoint d ∧ ¬ (s.channels d).Holds (.client c)
  | .recvFails c => ∃ endpoint d, s.requests c = .waiting endpoint d

/-- `listen` threw, which closes its socket but leaves the name it has bound. -/
def Channel.fail (ch : Channel) : Channel := { ch with phase := .failed, backlog := [] }

/-- Whether binding finds the name free. -/
def State.bind (s : State) (d : Daemon) (taken : Phase) : State :=
  let endpoint := (s.channels d).endpoint
  match s.files endpoint with
  | none =>
    { s.setPhase d .bound with files := Function.update s.files endpoint (some d) }
  | some _ => s.setPhase d taken

def State.unlink (s : State) (d : Daemon) (phase : Phase) : State :=
  { s.setPhase d phase with files := Function.update s.files (s.channels d).endpoint none }

def step (s : State) : Event → State
  | .mounts d => s.setPhase d .mounted
  | .finds d key =>
    s.setChannel d { s.channels d with phase := .binding, endpoint := endpointId key }
  | .disables d => s.setPhase d .disabled
  | .binds d => s.bind d .probing
  | .probes d =>
    match s.reaches (s.channels d).endpoint with
    | some other => (s.setChannel d (s.channels d).fail).queue other (.probe d)
    | none => s.setPhase d .removing
  | .probeFails d => s.setPhase d .removing
  | .removes d => s.unlink d .rebinding
  | .rebinds d => s.bind d .failed
  | .listens d => s.setPhase d .listening
  | .watches d => s.setPhase d .serving
  | .listenThrows d => s.setChannel d (s.channels d).fail
  | .stops d _ => s.setPhase d .unmounting
  | .unmounts d => s.setPhase d .unmounted
  | .stopsWatch d => s.setPhase d .stopping
  | .joins d => s.setPhase d .unlinking
  | .unlinks d => s.unlink d .closing
  | .closes d => s.setChannel d { s.channels d with phase := .releasing, backlog := [] }
  | .releases d => s.setChannel d { s.channels d with clients := (s.channels d).clients.tail }
  | .released d => s.setPhase d .destroyed
  | .unwinds d | .exits d | .dies d => s.setChannel d (s.channels d).exit
  | .ready d => s.setChannel d { s.channels d with accepting := true }
  | .accepts d =>
    s.setChannel d
      { s.channels d with
        taken := (s.channels d).backlog.head?
        backlog := (s.channels d).backlog.tail }
  | .keeps d tracked =>
    let ch := { s.channels d with taken := none, asked := true }
    s.setChannel d
      (if tracked then { ch with clients := ch.clients ++ (s.channels d).taken.toList }
      else { ch with untracked := ch.untracked ++ (s.channels d).taken.toList })
  | .drained d => s.setChannel d { s.channels d with accepting := false }
  | .acceptFails d => s.setChannel d { s.channels d with accepting := false, asked := true }
  | .asks c key => s.setRequest c (.connecting (endpointId key))
  | .connects c =>
    match s.requests c with
    | .connecting endpoint =>
      match s.reaches endpoint with
      | some d => (s.setRequest c (.waiting endpoint d)).queue d (.client c)
      | none => s
    | _ => s
  | .asksNowhere c | .refused c => s.setRequest c .notMounted
  | .connectFails c | .recvFails c => s.setRequest c .threw
  | .returns c =>
    match s.requests c with
    | .waiting endpoint d => s.setRequest c (.ok endpoint d)
    | _ => s

/-- Any number of daemons and of requests, of any mountpoints. -/
def machine : Machine State Event where
  init s := s = {}
  enabled := enabled
  step := step

end MakeBelieve.UnmountChannel
