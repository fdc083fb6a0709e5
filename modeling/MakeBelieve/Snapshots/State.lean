import Mathlib.Data.List.Basic
import Mathlib.Logic.Function.Basic
import MakeBelieve.Library.Machine
import MakeBelieve.Tree.Data

namespace MakeBelieve.Snapshots

open Library
open MakeBelieve.Tree (Bytes)

structure FileInfo where
  size : Nat
  mtime : Int64
  deriving DecidableEq

def same (a b : FileInfo) : Bool := a.size = b.size && a.mtime = b.mtime

theorem same_iff {a b : FileInfo} : same a b = true ↔ a = b := by
  obtain ⟨size, mtime⟩ := a
  obtain ⟨size', mtime'⟩ := b
  simp [same]

structure DirectoryTreeDiff where
  everythingDirty : Bool := false
  entriesChanged : List Path := []
  childListsChanged : List Path := []

/-- `std::errc::is_a_directory` -/
def isADirectory : ErrorCode := .other 21

/-- What a tree has at a path. -/
inductive Entry
  | missing
  | directory
  | file (bytes : Bytes) (mtime : Int64)
  deriving DecidableEq

def Entry.fileStatus : Entry → Except ErrorCode FileInfo
  | .missing => .error .noSuchFileOrDirectory
  | .directory => .error isADirectory
  | .file bytes mtime => .ok { size := bytes.length, mtime }

def Entry.readWhole : Entry → Except ErrorCode (Bytes × Int64)
  | .missing => .error .noSuchFileOrDirectory
  | .directory => .error isADirectory
  | .file bytes mtime => .ok (bytes, mtime)

structure FileSnapshot where
  path : Path
  bytes : Bytes
  mtime : Int64
  generation : Nat

def FileSnapshot.info (snapshot : FileSnapshot) : FileInfo :=
  { size := snapshot.bytes.length, mtime := snapshot.mtime }

/-- Which of all the snapshots ever taken. -/
abbrev SnapshotId := Nat

/-- Where in memory, which a snapshot taken later may have again. -/
abbrev Address := Nat

/-- `Current::Entry`, whose reference is a weak one. -/
structure Current where
  snapshot : SnapshotId
  address : Address

abbrev TakeId := Nat

/-- How far a take has come. -/
inductive Phase
  | begun
  | statused (info : FileInfo)
  | looked (info : FileInfo) (held : Option SnapshotId)
  | reading
  | whole (bytes : Bytes) (mtime : Int64)
  | returned (result : Except ErrorCode SnapshotId)

structure Take where
  path : Path
  before : Nat
  phase : Phase

/-- A tree, with all that each path of it has been, and the snapshots of it. -/
structure State where
  history : Path → List Entry
  clock : Nat := 0
  everything : Nat := 0
  generations : Path → Option Nat := fun _ => none
  snapshots : List FileSnapshot := []
  -- Of those not deleted yet.
  addresses : SnapshotId → Option Address := fun _ => none
  -- The strong references there are, each as often as it is held.
  refs : List SnapshotId := []
  current : Path → Option Current := fun _ => none
  takes : TakeId → Option Take := fun _ => none
  nextTake : TakeId := 0

namespace State

def entry (s : State) (path : Path) : Entry := (s.history path).getLast?.getD .missing

def generation (s : State) (path : Path) : Nat := max s.everything ((s.generations path).getD 0)

def latest (s : State) : Nat := s.clock

def changedEntry (s : State) (path : Path) : State :=
  { s with
    clock := s.clock + 1
    generations := Function.update s.generations path (some (s.clock + 1))
    current := Function.update s.current path none }

def changed (s : State) (diff : DirectoryTreeDiff) : State :=
  if diff.everythingDirty then
    { s with
      clock := s.clock + 1
      everything := s.clock + 1
      generations := fun _ => none
      current := fun _ => none }
  else diff.entriesChanged.foldl changedEntry s

/-- `weak_ptr::lock` -/
def lock (s : State) (id : SnapshotId) : Option SnapshotId := if id ∈ s.refs then some id else none

def setPhase (s : State) (id : TakeId) (phase : Phase) : State :=
  { s with takes := Function.update s.takes id ((s.takes id).map fun take => { take with phase }) }

def begin (s : State) (path : Path) : State :=
  { s with
    takes := Function.update s.takes s.nextTake
      (some { path, before := s.generation path, phase := .begun })
    nextTake := s.nextTake + 1 }

/-- What the tree says of a path, or that it cannot. -/
def answer {α : Type} (fails : Option ErrorCode) (result : Except ErrorCode α) :
    Except ErrorCode α :=
  match fails with
  | some error => .error error
  | none => result

def status (s : State) (id : TakeId) (take : Take) (fails : Option ErrorCode) : State :=
  match answer fails (s.entry take.path).fileStatus with
  | .ok info => s.setPhase id (.statused info)
  | .error error => s.setPhase id (.returned (.error error))

def look (s : State) (id : TakeId) (take : Take) (info : FileInfo) : State :=
  let held := (s.current take.path).bind fun entry => s.lock entry.snapshot
  { s.setPhase id (.looked info held) with refs := held.toList ++ s.refs }

def compare (s : State) (id : TakeId) (take : Take) (info : FileInfo)
    (held : Option SnapshotId) : State :=
  match held with
  | none => s.setPhase id .reading
  | some snapshot =>
    if (s.snapshots[snapshot]?).any fun held =>
        held.generation = take.before && same held.info info then
      s.setPhase id (.returned (.ok snapshot))
    else { s.setPhase id .reading with refs := s.refs.erase snapshot }

def read (s : State) (id : TakeId) (take : Take) (fails : Option ErrorCode) : State :=
  match answer fails (s.entry take.path).readWhole with
  | .ok (bytes, mtime) => s.setPhase id (.whole bytes mtime)
  | .error error => s.setPhase id (.returned (.error error))

/-- The snapshot made and put where the next take of its path looks. -/
def insert (s : State) (id : TakeId) (take : Take) (bytes : Bytes) (mtime : Int64)
    (address : Address) : State :=
  let snapshot := s.snapshots.length
  { s.setPhase id (.returned (.ok snapshot)) with
    snapshots := s.snapshots ++
      [{ path := take.path, bytes, mtime, generation := take.before }]
    addresses := Function.update s.addresses snapshot (some address)
    refs := snapshot :: s.refs
    current := Function.update s.current take.path (some { snapshot, address }) }

/-- The take's result given up. -/
def release (s : State) (id : TakeId) (result : Except ErrorCode SnapshotId) : State :=
  { s with
    takes := Function.update s.takes id none
    refs := match result with
      | .ok snapshot => s.refs.erase snapshot
      | .error _ => s.refs }

/-- `Forget`, which runs once no reference is left. -/
def forget (s : State) (id : SnapshotId) (snapshot : FileSnapshot) (address : Address) : State :=
  { s with
    current := match s.current snapshot.path with
      | some entry =>
        if entry.address = address then Function.update s.current snapshot.path none else s.current
      | none => s.current
    addresses := Function.update s.addresses id none }

end State

inductive Event
  | write (path : Path) (entry : Entry)
  | report (diff : DirectoryTreeDiff)
  | begin (path : Path)
  | status (id : TakeId) (fails : Option ErrorCode)
  | look (id : TakeId)
  | compare (id : TakeId)
  | read (id : TakeId) (fails : Option ErrorCode)
  | insert (id : TakeId) (address : Address)
  | stop (id : TakeId)
  | release (id : TakeId)
  | forget (id : SnapshotId)

namespace State

def step (s : State) : Event → State
  | .write path entry =>
    { s with history := Function.update s.history path (s.history path ++ [entry]) }
  | .report diff => s.changed diff
  | .begin path => s.begin path
  | .status id fails =>
    match s.takes id with
    | some take => s.status id take fails
    | none => s
  | .look id =>
    match s.takes id with
    | some { path, before, phase := .statused info } =>
      s.look id { path, before, phase := .statused info } info
    | _ => s
  | .compare id =>
    match s.takes id with
    | some { path, before, phase := .looked info held } =>
      s.compare id { path, before, phase := .looked info held } info held
    | _ => s
  | .read id fails =>
    match s.takes id with
    | some take => s.read id take fails
    | none => s
  | .insert id address =>
    match s.takes id with
    | some { path, before, phase := .whole bytes mtime } =>
      s.insert id { path, before, phase := .whole bytes mtime } bytes mtime address
    | _ => s
  | .stop id => { s with takes := Function.update s.takes id none }
  | .release id =>
    match s.takes id with
    | some { phase := .returned result, .. } => s.release id result
    | _ => s
  | .forget id =>
    match s.snapshots[id]?, s.addresses id with
    | some snapshot, some address => s.forget id snapshot address
    | _, _ => s

/-- Whether a take has come to a phase. -/
def At (s : State) (id : TakeId) (phase : Phase) : Prop :=
  ∃ take, s.takes id = some take ∧ take.phase = phase

def enabled (s : State) : Event → Prop
  | .write _ _ => True
  | .report _ => True
  | .begin _ => True
  | .status id _ => s.At id .begun
  | .look id => ∃ info, s.At id (.statused info)
  | .compare id => ∃ info held, s.At id (.looked info held)
  | .read id _ => s.At id .reading
  | .insert id address => (∃ bytes mtime, s.At id (.whole bytes mtime)) ∧
      ∀ other, s.addresses other ≠ some address
  | .stop id => s.At id .reading
  | .release id => ∃ result, s.At id (.returned result)
  | .forget id => id ∉ s.refs ∧ (s.addresses id).isSome = true

end State

/-- Snapshots of a tree that anything may happen to, at whatever time. -/
def machine : Machine State Event where
  init s := ∃ entries : Path → Entry, s = { history := fun path => [entries path] }
  enabled := State.enabled
  step := State.step

/-- No two files that a path has been are of one size and time. -/
def Differ : Entry → Entry → Prop
  | .file bytes mtime, .file bytes' mtime' => (bytes.length, mtime) ≠ (bytes'.length, mtime')
  | _, _ => True

/-- A write leaves a version that differs in size or time from each there has been. -/
def Distinguished (s : State) : Event → Prop
  | .write path entry => ∀ old ∈ s.history path, Differ old entry
  | _ => True

/-- What an enabled step can do. -/
inductive Stepped (s : State) : Event → State → Prop
  | write (path : Path) (entry : Entry) :
      Stepped s (.write path entry)
        { s with history := Function.update s.history path (s.history path ++ [entry]) }
  | report (diff : DirectoryTreeDiff) : Stepped s (.report diff) (s.changed diff)
  | begin (path : Path) : Stepped s (.begin path) (s.begin path)
  | status {id : TakeId} {take : Take} (fails : Option ErrorCode)
      (htake : s.takes id = some take) (hphase : take.phase = .begun) :
      Stepped s (.status id fails) (s.status id take fails)
  | look {id : TakeId} {take : Take} {info : FileInfo} (htake : s.takes id = some take)
      (hphase : take.phase = .statused info) : Stepped s (.look id) (s.look id take info)
  | compare {id : TakeId} {take : Take} {info : FileInfo} {held : Option SnapshotId}
      (htake : s.takes id = some take) (hphase : take.phase = .looked info held) :
      Stepped s (.compare id) (s.compare id take info held)
  | read {id : TakeId} {take : Take} (fails : Option ErrorCode)
      (htake : s.takes id = some take) (hphase : take.phase = .reading) :
      Stepped s (.read id fails) (s.read id take fails)
  | insert {id : TakeId} {take : Take} {bytes : Bytes} {mtime : Int64} {address : Address}
      (htake : s.takes id = some take) (hphase : take.phase = .whole bytes mtime)
      (hfree : ∀ other, s.addresses other ≠ some address) :
      Stepped s (.insert id address) (s.insert id take bytes mtime address)
  | stop {id : TakeId} {take : Take} (htake : s.takes id = some take)
      (hphase : take.phase = .reading) :
      Stepped s (.stop id) { s with takes := Function.update s.takes id none }
  | release {id : TakeId} {take : Take} {result : Except ErrorCode SnapshotId}
      (htake : s.takes id = some take) (hphase : take.phase = .returned result) :
      Stepped s (.release id) (s.release id result)
  | forget {id : SnapshotId} {snapshot : FileSnapshot} {address : Address} (hrefs : id ∉ s.refs)
      (hsnapshot : s.snapshots[id]? = some snapshot) (haddress : s.addresses id = some address) :
      Stepped s (.forget id) (s.forget id snapshot address)
  | lost {id : SnapshotId} (hsnapshot : s.snapshots[id]? = none) : Stepped s (.forget id) s

theorem State.stepped {s : State} {e : Event} (he : s.enabled e) : Stepped s e (s.step e) := by
  unfold State.step
  cases e with
  | write path entry => exact .write path entry
  | report diff => exact .report diff
  | begin path => exact .begin path
  | status id fails =>
    obtain ⟨take, htake, hphase⟩ := he
    dsimp only
    rw [htake]
    exact .status fails htake hphase
  | look id =>
    obtain ⟨info, ⟨path, before, _⟩, htake, rfl⟩ := he
    dsimp only
    rw [htake]
    exact .look htake rfl
  | compare id =>
    obtain ⟨info, held, ⟨path, before, _⟩, htake, rfl⟩ := he
    dsimp only
    rw [htake]
    exact .compare htake rfl
  | read id fails =>
    obtain ⟨take, htake, hphase⟩ := he
    dsimp only
    rw [htake]
    exact .read fails htake hphase
  | insert id address =>
    obtain ⟨⟨bytes, mtime, ⟨path, before, _⟩, htake, rfl⟩, hfree⟩ := he
    dsimp only
    rw [htake]
    exact .insert htake rfl hfree
  | stop id =>
    obtain ⟨take, htake, hphase⟩ := he
    exact .stop htake hphase
  | release id =>
    obtain ⟨result, ⟨path, before, _⟩, htake, rfl⟩ := he
    dsimp only
    rw [htake]
    exact .release htake rfl
  | forget id =>
    obtain ⟨hrefs, haddress⟩ := he
    obtain ⟨address, haddress⟩ := Option.isSome_iff_exists.mp haddress
    dsimp only
    cases hsnapshot : s.snapshots[id]? with
    | none => exact .lost hsnapshot
    | some snapshot =>
      rw [haddress]
      exact .forget hrefs hsnapshot haddress

end MakeBelieve.Snapshots
