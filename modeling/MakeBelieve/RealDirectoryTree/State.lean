import MakeBelieve.Library.Disk
import MakeBelieve.Tree.Recorded

namespace MakeBelieve.RealDirectoryTree

open Library
open MakeBelieve.Tree (Bytes Commands Hash World)

/-- The disk the source directory is on, its root at `root`. Each version of a file has a number. -/
abbrev SourceDisk := Disk Name Nat

/-- A watch descriptor. -/
abbrev Wd := Nat

/-- What an `inotify_event` says of a name: of `IN_MODIFY`, `IN_ATTRIB` and `IN_CLOSE_WRITE` only
that it is one of them. -/
inductive Mask
  | create
  | delete
  | movedFrom
  | movedTo
  | modify
  deriving DecidableEq

/-- An `inotify_event`. -/
inductive InotifyEvent
  | overflow
  | ignored (wd : Wd)
  -- On the directory itself, with no child named.
  | itself (wd : Wd)
  | named (wd : Wd) (mask : Mask) (isDirectory : Bool) (name : Name)
  deriving DecidableEq

/-- What of `add_watch` is still to be done: a directory to watch, or one to look for others in. -/
inductive Target
  | watch (relative : Path)
  | iterate (relative : Path)
  deriving DecidableEq

/-- The disk with what the kernel watches of it and has queued, what the `RealDirectoryTree` makes of
that, and the build tree that reads from it. -/
structure State where
  disk : SourceDisk
  watches : Inode → Option Wd
  nextWd : Wd
  queue : List InotifyEvent := []
  watchDescriptors : Wd → Option Path
  targets : List Target := []
  files : List Path := []
  directories : List Path := []
  overflowed : Bool := false
  tree : World

inductive Event
  -- A change, whose events may be lost for want of room in the queue.
  | change (c : Change Name Nat) (lost : Bool)
  | attributes (directory : Inode) (name : Name)
  | readEvent
  | addWatch
  | iterate (names : List Name)
  -- What the change makes of the rules is up to the manifest.
  | notify (rules : Option Commands)
  | tree (e : Tree.Event)

namespace State

variable (contentHash : Bytes → Hash) (cached : Bool) (s : State)

def lookup (path : Path) : Option (Entry Nat) := s.disk.find Disk.root path

def isDirectory : Option (Entry Nat) → Bool
  | some (.directory _) => true
  | _ => false

/-- The event that a watch of a directory has of a name in it. -/
def named (mask : Mask) (directory : Inode) (isDirectory : Bool) (name : Name) :
    List InotifyEvent :=
  ((s.watches directory).map fun wd => .named wd mask isDirectory name).toList

/-- What a change has the kernel report. A directory that moves is reported by its own names, and
nothing is of what is beneath it. -/
def reported : Change Name Nat → List InotifyEvent
  | .write i n _ =>
    (if (s.disk.entries i n).isNone then s.named .create i false n else []) ++
      s.named .modify i false n
  | .makeDirectory i n => s.named .create i true n
  | .remove i n => s.named .delete i (isDirectory (s.disk.entries i n)) n
  | .rename i n j m =>
    s.named .movedFrom i (isDirectory (s.disk.entries i n)) n ++
      s.named .movedTo j (isDirectory (s.disk.entries i n)) m

/-- A directory's watch goes with it. -/
def unwatched (c : Change Name Nat) : List InotifyEvent :=
  (((s.disk.removed c).bind s.watches).map InotifyEvent.ignored).toList

def change (c : Change Name Nat) (lost : Bool) : State :=
  { s with
    disk := s.disk.apply c
    watches := match s.disk.removed c with
      | some k => Function.update s.watches k none
      | none => s.watches
    queue := s.queue ++ if lost then [.overflow] else s.reported c ++ s.unwatched c }

def attributes (directory : Inode) (name : Name) : State :=
  let itself := match s.disk.entries directory name with
    | some (.directory k) => ((s.watches k).map InotifyEvent.itself).toList
    | _ => []
  { s with
    queue := s.queue ++ s.named .modify directory (isDirectory (s.disk.entries directory name)) name ++
      itself }

/-- What `drain_events` does of the next event. -/
def readEvent : State :=
  match s.queue with
  | [] => s
  | .overflow :: queue => { s with queue, overflowed := true }
  | .ignored wd :: queue =>
    { s with queue, watchDescriptors := Function.update s.watchDescriptors wd none }
  | .itself _ :: queue => { s with queue }
  | .named wd mask isDirectory name :: queue =>
    match s.watchDescriptors wd with
    | none => { s with queue }
    | some directory =>
      let relative := directory ++ [name]
      { s with
        queue
        files := s.files.insert relative
        directories := if mask = .modify then s.directories else s.directories.insert directory
        targets := if isDirectory && (mask = .create || mask = .movedTo) then
          .watch relative :: s.targets else s.targets }

/-- The first part of `add_watch`. A directory watched already keeps its watch descriptor. -/
def addWatch : State :=
  match s.targets with
  | .watch relative :: targets =>
    match s.lookup relative with
    | some (.directory i) =>
      let wd := (s.watches i).getD s.nextWd
      { s with
        watches := Function.update s.watches i (some wd)
        nextWd := if (s.watches i).isSome then s.nextWd else s.nextWd + 1
        watchDescriptors := Function.update s.watchDescriptors wd (some relative)
        targets := .iterate relative :: targets }
    | _ => { s with targets := .iterate relative :: targets }
  | _ => s

/-- The rest of `add_watch`, with the directories that it comes upon. -/
def iterate (names : List Name) : State :=
  match s.targets with
  | .iterate relative :: targets =>
    { s with targets := names.map (fun name => .watch (relative ++ [name])) ++ targets }
  | _ => s

/-- `notify_subscribers` -/
def notify (rules : Option Commands) : State :=
  { s with
    files := []
    directories := []
    overflowed := false
    tree := s.tree.step contentHash cached (.sourceChange s.overflowed s.files rules) }

def step : Event → State
  | .change c lost => s.change c lost
  | .attributes directory name => s.attributes directory name
  | .readEvent => s.readEvent
  | .addWatch => s.addWatch
  | .iterate names => s.iterate names
  | .notify rules => s.notify contentHash cached rules
  | .tree e => { s with tree := s.tree.step contentHash cached e }

/-- Whether a directory holds another by such a name. -/
def Holds (relative : Path) (name : Name) : Prop :=
  ∃ i k, s.lookup relative = some (.directory i) ∧ s.disk.entries i name = some (.directory k)

def enabled : Event → Prop
  | .change c _ => s.disk.Allows c
  | .attributes directory name => s.disk.entries directory name ≠ none
  | .readEvent => s.queue ≠ [] ∧ s.targets = [] ∧ s.tree.todo = []
  | .addWatch => ∃ relative targets, s.targets = .watch relative :: targets
  | .iterate names => ∃ relative targets, s.targets = .iterate relative :: targets ∧
      ∀ name, name ∈ names ↔ s.Holds relative name
  | .notify _ => s.targets = [] ∧ (s.overflowed = true ∨ s.files ≠ [] ∨ s.directories ≠ []) ∧
      s.tree.todo = []
  -- The tree hears of changes by way of the watch alone.
  | .tree e => (∀ d p r, e ≠ .sourceChange d p r) ∧ s.tree.enabled e

/-- What `start_watcher` leaves: every directory watched by the path it has. -/
structure Begins : Prop where
  rooted : s.disk.Rooted
  watched : ∀ path i, s.lookup path = some (.directory i) →
    ∃ wd, s.watches i = some wd ∧ s.watchDescriptors wd = some path
  numbered : ∀ i wd, s.watches i = some wd → wd < s.nextWd
  apart : ∀ i j wd, s.watches i = some wd → s.watches j = some wd → i = j
  queue : s.queue = []
  targets : s.targets = []
  files : s.files = []
  directories : s.directories = []
  overflowed : s.overflowed = false

end State

/-- The build tree over a source directory that anything may happen to. -/
def machine (contentHash : Bytes → Hash) (cached : Bool) : Machine State Event where
  init s := s.Begins ∧ World.Starts contentHash cached s.tree
  enabled := State.enabled
  step := State.step contentHash cached

/-- A note of the outputs whose last build ended before a source path that it read changed. -/
def noteOutdated (s : State) (e : Event) (outdated : Path → Bool) : Path → Bool :=
  match e with
  | .change c _ => fun output => outdated output || (s.tree.readBy output).any fun path =>
      decide ((s.disk.apply c).find Disk.root path ≠ s.lookup path)
  | .tree (.settle b) => Function.update outdated (s.tree.builds b).launch.output false
  | _ => outdated

/-- The machine, with the outputs noted whose last build is outdated. -/
def outdating (contentHash : Bytes → Hash) (cached : Bool) : Machine (State × (Path → Bool)) Event :=
  (machine contentHash cached).noting (fun _ _ => false) noteOutdated

namespace State

variable (s : State)

/-- Whether every queued event has been drained and the build tree has processed the diffs. -/
structure Drained : Prop where
  queue : s.queue = []
  targets : s.targets = []
  files : s.files = []
  overflowed : s.overflowed = false
  todo : s.tree.todo = []

/-- Whether an output is recorded to have read a path. -/
def Read (path : Path) : Prop :=
  ∃ output, path ∈ Tree.State.membersOf s.tree.tree.dependencies output

/-- Whether the directory a path is in is watched, by the path it has. -/
def Watched (path : Path) : Prop :=
  ∃ directory name i wd, path = directory ++ [name] ∧ s.lookup directory = some (.directory i) ∧
    s.watches i = some wd ∧ s.watchDescriptors wd = some directory

/-- Whether a change whose events are not lost moves no directory that something beneath, by its old
name or its new one, is recorded to have been read of, and changes nothing that is so recorded but
where it is watched. -/
def Followed : Event → Prop
  | .change c lost => lost = true ∨
      (s.disk.Moves c → ∀ path, s.Read path → ∀ before i name rest, (i, name) ∈ Disk.touched c →
        path = before ++ name :: rest → s.lookup before = some (.directory i) → rest = []) ∧
      ∀ path, s.Read path → (s.disk.apply c).find Disk.root path ≠ s.lookup path → s.Watched path
  | _ => True

end State

end MakeBelieve.RealDirectoryTree
