import MakeBelieve.Library.Fair
import MakeBelieve.Snapshots.Generations

namespace MakeBelieve.FileSystem

open Library
open MakeBelieve.Snapshots (DirectoryTreeDiff SnapshotId)

inductive ChangeKind
  | modified
  | added
  deriving DecidableEq

/-- A path's change, in a map with one for each path. -/
abbrev Changes := List (Path × ChangeKind)

/-- `try_emplace`, where an addition dominates. -/
def mergeChange (into : Changes) (change : Path × ChangeKind) : Changes :=
  if into.any fun other => other.1 = change.1 then
    into.map fun other =>
      if other.1 = change.1 && change.2 = .added then (other.1, .added) else other
  else into ++ [change]

def mergeChanges (into changes : Changes) : Changes := changes.foldl mergeChange into

/-- What a diff queues. -/
def changesOf (diff : DirectoryTreeDiff) : Changes :=
  diff.entriesChanged.dedup.map fun path =>
    (path, if path.dropLast ∈ diff.childListsChanged then .added else .modified)

/-- An open that is not replied to yet, told from others by its number. -/
structure HeldOpen where
  number : Nat
  path : Path
  generation : Nat
  deriving DecidableEq

/-- A change about to be announced, and the generation that its announcement covers. -/
structure Announcement where
  path : Path
  kind : ChangeKind
  generation : Nat

/-- Where a pass of the notifier is. -/
inductive Pass
  -- `m_notifying` is false.
  | idle
  -- Unlocked within a batch, with opens to reply to before it goes on.
  | announcing (ready : List HeldOpen) (batch : List Announcement) (everything : Option Nat)
  -- About to look, under the lock, for what is queued.
  | looping (ready : List HeldOpen)

namespace Pass

def ready : Pass → List HeldOpen
  | .idle => []
  | .announcing ready _ _ => ready
  | .looping ready => ready

def batch : Pass → List Announcement
  | .announcing _ batch _ => batch
  | _ => []

def everything : Pass → Option Nat
  | .announcing _ _ everything => everything
  | _ => none

end Pass

structure State where
  snapshots : Snapshots.State
  pending : Changes := []
  everythingDirty : Bool := false
  stopping : Bool := false
  announcedPaths : Path → Option Nat := fun _ => none
  announcedEverything : Nat := 0
  heldOpens : List HeldOpen := []
  pass : Pass := .idle
  -- Taken out of the held opens, or never in them, by what is not a pass any more.
  leaving : List HeldOpen := []
  -- All that `reply_when_announced` has been given, and all replied to.
  given : List HeldOpen := []
  replied : List HeldOpen := []

inductive Event
  | snapshots (e : Snapshots.Event)
  | treeChanged (diff : DirectoryTreeDiff)
  | replyWhenAnnounced (snapshot : SnapshotId)
  -- The pass looks for what is queued, the kernel having seen `known` so far.
  | proceed (known : List Path)
  | announce (announcement : Announcement)
  | announceEverything
  | reply
  | replyLeaving (number : Nat)
  | stop
  | replyHeld

namespace State

def announced (s : State) (path : Path) : Nat :=
  max s.announcedEverything ((s.announcedPaths path).getD 0)

/-- `start_notifying`, where a pass can be spawned. -/
def startNotifying (s : State) : State :=
  match s.pass with
  | .idle => if s.stopping then s else { s with pass := .looping [] }
  | _ => s

def onTreeChanged (s : State) (diff : DirectoryTreeDiff) : State :=
  let changed := { s with snapshots := s.snapshots.changed diff }
  if s.stopping then changed
  else if diff.everythingDirty then startNotifying { changed with everythingDirty := true }
  else startNotifying { changed with pending := mergeChanges s.pending (changesOf diff) }

def replyWhenAnnounced (s : State) (path : Path) (generation : Nat) : State :=
  let asked : HeldOpen := { number := s.given.length, path, generation }
  let s := { s with given := s.given ++ [asked] }
  if s.stopping = false ∧ s.announced path < generation then
    startNotifying { s with heldOpens := s.heldOpens ++ [asked] }
  else { s with leaving := s.leaving ++ [asked] }

/-- The held opens that what has been announced lets go, and the others. -/
def split (s : State) : List HeldOpen × List HeldOpen :=
  (s.heldOpens.filter fun held => held.generation ≤ s.announced held.path,
    s.heldOpens.filter fun held => s.announced held.path < held.generation)

def markAnnounced (s : State) (path : Option Path) (generation : Nat) : State × List HeldOpen :=
  let s := match path with
    | some path =>
      { s with
        announcedPaths := Function.update s.announcedPaths path
          (some (max ((s.announcedPaths path).getD 0) generation)) }
    | none => { s with announcedEverything := max s.announcedEverything generation }
  ({ s with heldOpens := s.split.2 }, s.split.1)

/-- What announcing a change covers: under the lock, all that has been reported of its path. -/
def announcement (s : State) (path : Path) (kind : ChangeKind) : Announcement :=
  { path, kind, generation := s.snapshots.generation path }

def proceed (s : State) (known : List Path) : State :=
  if s.stopping = false ∧ (s.everythingDirty = true ∨ s.pending ≠ []) then
    if s.everythingDirty then
      { s with
        everythingDirty := false
        pending := []
        pass := .announcing [] (known.map fun path => s.announcement path .modified)
          (some s.snapshots.latest) }
    else
      { s with
        pending := []
        pass := .announcing [] (s.pending.map fun change => s.announcement change.1 change.2) none }
  else { s with heldOpens := [], leaving := s.leaving ++ s.heldOpens, pass := .idle }

def announce (s : State) (announcement : Announcement) (batch : List Announcement)
    (everything : Option Nat) : State :=
  let (s, ready) := s.markAnnounced (some announcement.path) announcement.generation
  { s with
    pass := .announcing ready (batch.filter fun other => other.path ≠ announcement.path) everything }

def announceEverything (s : State) (everything : Nat) : State :=
  let (s, ready) := s.markAnnounced none everything
  { s with pass := .looping ready }

def reply (s : State) : State :=
  match s.pass with
  | .announcing (ready :: rest) batch everything =>
    { s with pass := .announcing rest batch everything, replied := s.replied ++ [ready] }
  | .looping (ready :: rest) => { s with pass := .looping rest, replied := s.replied ++ [ready] }
  | _ => s

def replyLeaving (s : State) (number : Nat) : State :=
  { s with
    leaving := s.leaving.filter fun held => held.number ≠ number
    replied := s.replied ++ s.leaving.filter fun held => held.number = number }

def step (s : State) : Event → State
  | .snapshots e => { s with snapshots := s.snapshots.step e }
  | .treeChanged diff => s.onTreeChanged diff
  | .replyWhenAnnounced snapshot =>
    match s.snapshots.snapshots[snapshot]? with
    | some snapshot => s.replyWhenAnnounced snapshot.path snapshot.generation
    | none => s
  | .proceed known => s.proceed known
  | .announce announcement =>
    match s.pass with
    | .announcing _ batch everything => s.announce announcement batch everything
    | _ => s
  | .announceEverything =>
    match s.pass with
    | .announcing _ _ (some everything) => s.announceEverything everything
    | _ => s
  | .reply => s.reply
  | .replyLeaving number => s.replyLeaving number
  | .stop => { s with stopping := true }
  | .replyHeld => { s with heldOpens := [], leaving := s.leaving ++ s.heldOpens }

def enabled (s : State) : Event → Prop
  | .snapshots e => s.snapshots.enabled e ∧ ∀ diff, e ≠ .report diff
  | .treeChanged _ => True
  | .replyWhenAnnounced snapshot => ∃ taken, s.snapshots.snapshots[snapshot]? = some taken
  | .proceed known => (s.pass = .looping [] ∨ s.pass = .announcing [] [] none) ∧ known.Nodup
  | .announce announcement => ∃ batch everything, s.pass = .announcing [] batch everything ∧
      announcement ∈ batch
  | .announceEverything => ∃ everything, s.pass = .announcing [] [] (some everything)
  | .reply => s.pass.ready ≠ []
  | .replyLeaving number => ∃ held ∈ s.leaving, held.number = number
  | .stop => True
  -- The destructor's, once no pass is under way.
  | .replyHeld => s.stopping = true ∧ s.pass = .idle

end State

/-- The change announcements of a filesystem from when it is made, where each pass can be spawned
and nothing runs out of memory. -/
def machine : Machine State Event where
  init s := ∃ snapshots, Snapshots.machine.init snapshots ∧ s = { snapshots }
  enabled := State.enabled
  step := State.step

end MakeBelieve.FileSystem
