import MakeBelieve.Snapshots.Fresh

namespace MakeBelieve.Inodes

open Library
open MakeBelieve.Snapshots (Entry FileInfo FileSnapshot SnapshotId TakeId same)

abbrev Ino := Nat

/-- `FUSE_ROOT_ID` -/
def rootId : Ino := 1

def estale : ErrorCode := .other 116

/-- An inode, which is one version of its file once an open has read it. -/
structure Node where
  path : Path
  lookups : Nat := 0
  opened : Option FileInfo := none
  generation : Nat := 0
  -- Held weakly.
  snapshot : Option SnapshotId := none

/-- Whether a name's inode so far is still what the name is. -/
def Node.stays (node : Node) (file : Option FileInfo) (generation : Nat) : Bool :=
  node.opened.isNone || file.any fun file =>
    node.generation = generation && node.opened.any fun opened => same opened file

/-- A handle of a file opened to be read, by which inode. -/
structure FileHandle where
  ino : Ino
  path : Path
  snapshot : SnapshotId

/-- An `open_file` under way: still waiting for the tree, or taking the file. -/
structure Open where
  ino : Ino
  path : Path
  take : Option TakeId := none

/-- What an open of an inode, live by then or not, has been answered. -/
structure Answer where
  ino : Ino
  live : Bool
  result : Except ErrorCode SnapshotId

structure State where
  snapshots : Snapshots.State
  ids : Path → Option Ino := Function.update (fun _ => none) [] (some rootId)
  paths : Ino → Option Node :=
    Function.update (fun _ => none) rootId (some { path := [], lookups := 1 })
  nextInode : Ino := rootId
  handles : Nat → Option FileHandle := fun _ => none
  lastHandle : Nat := 0
  opens : Nat → Option Open := fun _ => none
  nextOpen : Nat := 0
  answers : List Answer := []

inductive Event
  | snapshots (e : Snapshots.Event)
  -- A lookup, with the file it found there and the generation of that, each at its own time.
  | lookup (name : Path) (file : Option FileInfo) (generation : Nat)
  | forget (ino : Ino) (count : Nat)
  | open (ino : Ino)
  | treeOpened (id : Nat) (fails : Option ErrorCode)
  | cancel (id : Nat) (error : ErrorCode)
  | finish (id : Nat)
  | release (handle : Nat)

namespace State

def newInode (s : State) (name : Path) : State :=
  { s with
    paths := Function.update s.paths (s.nextInode + 1) (some { path := name, lookups := 1 })
    ids := Function.update s.ids name (some (s.nextInode + 1))
    nextInode := s.nextInode + 1 }

/-- `inode` -/
def inode (s : State) (name : Path) (file : Option FileInfo) (generation : Nat) : State :=
  match s.ids name with
  | none => s.newInode name
  | some id =>
    match s.paths id with
    | none => s
    | some node =>
      if node.stays file generation then
        { s with paths := Function.update s.paths id (some { node with lookups := node.lookups + 1 }) }
      else s.newInode name

def forgetInode (s : State) (ino : Ino) (count : Nat) : State :=
  match s.paths ino with
  | none => s
  | some node =>
    if ino = rootId then s
    else if node.lookups - min count node.lookups = 0 then
      { s with
        ids := if s.ids node.path = some ino then Function.update s.ids node.path none else s.ids
        paths := Function.update s.paths ino none }
    else
      { s with
        paths := Function.update s.paths ino
          (some { node with lookups := node.lookups - min count node.lookups }) }

/-- `version_for`: the snapshot that an open which has taken `current` serves, if its inode's
version is not gone, and whose reference to it is kept. -/
def versionFor (s : State) (ino : Ino) (id : SnapshotId) (current : FileSnapshot) :
    State × Option SnapshotId :=
  match s.paths ino with
  | none => (s, some id)
  | some node =>
    let drop := { s.snapshots with refs := s.snapshots.refs.erase id }
    match node.opened with
    | none =>
      ({ s with
         paths := Function.update s.paths ino (some { node with
           opened := some current.info, generation := current.generation, snapshot := some id }) },
       some id)
    | some opened =>
      match node.snapshot.bind s.snapshots.lock with
      | some held => ({ s with snapshots := { drop with refs := held :: drop.refs } }, some held)
      | none =>
        if node.generation = current.generation && same opened current.info then
          ({ s with
             paths := Function.update s.paths ino (some { node with snapshot := some id }) }, some id)
        else ({ s with snapshots := drop }, none)

def answer (s : State) (id : Nat) (ino : Ino) (result : Except ErrorCode SnapshotId) : State :=
  { s with
    opens := Function.update s.opens id none
    answers := s.answers ++ [{ ino, live := (s.paths ino).isSome, result }] }

/-- The end of an open that the tree has opened and taken the file for. -/
def finish (s : State) (id : Nat) (open' : Open) (take : TakeId)
    (result : Except ErrorCode SnapshotId) : State :=
  let s := { s with
    snapshots := { s.snapshots with takes := Function.update s.snapshots.takes take none } }
  match result with
  | .error error => s.answer id open'.ino (.error error)
  | .ok taken =>
    match s.snapshots.snapshots[taken]? with
    | none => s
    | some current =>
      match s.versionFor open'.ino taken current with
      | (s, none) => s.answer id open'.ino (.error estale)
      | (s, some version) =>
        { s.answer id open'.ino (.ok version) with
          handles := Function.update s.handles (s.lastHandle + 1)
            (some { ino := open'.ino, path := open'.path, snapshot := version })
          lastHandle := s.lastHandle + 1 }

/-- `attributes`, as any but the notifier is told them. -/
def attributes (s : State) (path : Path) : Except ErrorCode (Option FileInfo) :=
  match s.snapshots.entry path with
  | .missing => .error .noSuchFileOrDirectory
  | .directory => .ok none
  | .file bytes mtime => .ok (some { size := bytes.length, mtime })

/-- `getattr`: the file's size and time, or none for a directory. -/
def getattr (s : State) (ino : Ino) (handle : Option Nat) : Except ErrorCode (Option FileInfo) :=
  let file := handle.bind s.handles
  let fixed := (file.bind fun file => s.snapshots.snapshots[file.snapshot]?).map FileSnapshot.info
  match fixed.or ((s.paths ino).bind Node.opened) with
  | some info => .ok (some info)
  | none =>
    match (file.map FileHandle.path).or ((s.paths ino).map Node.path) with
    | some name => s.attributes name
    | none => .error (.other 5)

def step (s : State) : Event → State
  | .snapshots e => { s with snapshots := s.snapshots.step e }
  | .lookup name file generation => s.inode name file generation
  | .forget ino count => s.forgetInode ino count
  | .open ino =>
    match s.paths ino with
    | some node =>
      { s with
        opens := Function.update s.opens s.nextOpen (some { ino, path := node.path })
        nextOpen := s.nextOpen + 1 }
    | none => s
  | .treeOpened id fails =>
    match s.opens id, fails with
    | some open', some error => s.answer id open'.ino (.error error)
    | some open', none =>
      { s with
        opens := Function.update s.opens id
          (some { open' with take := some s.snapshots.nextTake })
        snapshots := s.snapshots.begin open'.path }
    | none, _ => s
  | .cancel id error =>
    match s.opens id with
    | some open' => s.answer id open'.ino (.error error)
    | none => s
  | .finish id =>
    match s.opens id with
    | some { ino, path, take := some take } =>
      match s.snapshots.takes take with
      | some { phase := .returned result, .. } =>
        s.finish id { ino, path, take := some take } take result
      | _ => s
    | _ => s
  | .release handle =>
    match s.handles handle with
    | some file =>
      { s with
        handles := Function.update s.handles handle none
        snapshots := { s.snapshots with refs := s.snapshots.refs.erase file.snapshot } }
    | none => s

/-- Whether an open under way has a take. -/
def Taken (s : State) (take : TakeId) : Prop :=
  ∃ id open', s.opens id = some open' ∧ open'.take = some take

def enabled (s : State) : Event → Prop
  -- What an open has taken it gives up itself.
  | .snapshots e => s.snapshots.enabled e ∧ ∀ take, s.Taken take → e ≠ .release take
  | .lookup _ _ _ => True
  | .forget _ _ => True
  | .open ino => (s.paths ino).isSome = true
  | .treeOpened id _ => ∃ open', s.opens id = some open' ∧ open'.take = none
  | .cancel id _ => (s.opens id).isSome = true
  | .finish id => ∃ open' take result, s.opens id = some open' ∧ open'.take = some take ∧
      s.snapshots.At take (.returned result)
  | .release handle => (s.handles handle).isSome = true

end State

/-- The inodes of a filesystem over a tree that anything may happen to, with opens of any number of
them under way at once. -/
def machine : Machine State Event where
  init s := ∃ snapshots, Snapshots.machine.init snapshots ∧ s = { snapshots }
  enabled := State.enabled
  step := State.step

/-- No two versions of a file are of one size and time. -/
def Distinguished (s : State) : Event → Prop
  | .snapshots e => Snapshots.Distinguished s.snapshots e
  | _ => True

end MakeBelieve.Inodes
