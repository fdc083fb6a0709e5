import Mathlib.Data.List.Destutter
import Mathlib.Data.Char
import Mathlib.Data.List.Lex
import Mathlib.Logic.Function.Basic
import MakeBelieve.ProcessUtil.Listing

namespace MakeBelieve.ProcessUtil

/-- `fuse_ino_t`. -/
abbrev FuseIno := Nat

/-- `FUSE_ROOT_ID`. -/
def rootId : FuseIno := 1

abbrev Fd := Nat

/-- A `DIR*`. -/
abbrev Dir := Nat

/-- `st_dev` and `st_ino`, which tell one file from another. -/
structure FileId where
  dev : Nat
  ino : Nat
  deriving DecidableEq, Repr

/-- The path `"."`. -/
def dot : Path := [['.']]

/-! ### The host -/

/-- Whose a descriptor is: the tracer's, or the rest of the process's. -/
inductive Owner
  | tracer
  | rest
  deriving DecidableEq

structure OpenFile where
  file : FileId
  owner : Owner
  deriving DecidableEq

/-- The file system beneath the root: what each path names, following no symlink, and what each file
holds. -/
structure World where
  names : Path → Option FileId
  contents : FileId → List UInt8

/-- The process's descriptors and streams, with what each descriptor the tracer has closed was open
on when it did. -/
structure Host where
  world : World
  fds : Fd → Option OpenFile
  streams : Dir → Option (Fd × Stream)
  closed : List (Option OpenFile) := []

/-- Where a request can run out of memory. -/
inductive Allocation
  | childPath
  | byDevIno
  | inode
  | readFile
  | openFile
  | openDirectory
  | replyBuffer
  deriving DecidableEq

/-- What the system answers the calls of one request with: the descriptor and the stream it opens,
if it does, and the errors of those that fail. -/
structure Calls where
  fd : Fd
  dir : Dir := 0
  stream : Stream := .empty
  openError : Option Errno := none
  statError : Option Errno := none
  streamError : Option Errno := none
  readError : Option Errno := none
  entriesError : Option (Nat × Errno) := none
  link : Except Errno (List UInt8) := .error (.other 22)
  throws : Allocation → Bool := fun _ => false

namespace Host

/-- `open_beneath`. -/
def openBeneath (h : Host) (c : Calls) (relative : Path) : Except Errno FileId :=
  match c.openError with
  | some error => .error error
  | none =>
    match h.world.names relative with
    | none => .error .ENOENT
    | some id => .ok id

def opened (h : Host) (fd : Fd) (file : OpenFile) : Host :=
  { h with fds := Function.update h.fds fd (some file) }

def close (h : Host) (fd : Fd) : Host :=
  { h with fds := Function.update h.fds fd none, closed := h.closed ++ [h.fds fd] }

def fdopendir (h : Host) (dir : Dir) (fd : Fd) (stream : Stream) : Host :=
  { h with streams := Function.update h.streams dir (some (fd, stream)) }

def closedir (h : Host) (dir : Dir) : Host :=
  match h.streams dir with
  | some (fd, _) => { h.close fd with streams := Function.update h.streams dir none }
  | none => { h with closed := h.closed ++ [none] }

end Host

/-! ### The tracer -/

structure Inode where
  /-- To the root; `dot` for the root itself. -/
  relative : Path
  realPath : Path
  id : FileId

structure Tracer where
  readFiles : List Path := []
  failed : Bool := false
  root : Fd
  inodes : FuseIno → Option Inode
  byDevIno : FileId → Option FuseIno := fun _ => none
  nextIno : FuseIno := rootId + 1
  openFiles : List Fd := []
  openDirectories : List Dir := []

inductive Reply
  | err (error : Errno)
  | done
  | entry (ino : FuseIno) (attr : FileId)
  | attr (attr : FileId)
  | opened (fh : Fd)
  | openedDir (fh : Dir)
  | buf (data : List UInt8)
  | entries (entries : List (Name × Nat))
  | readlink (target : List UInt8)

/-- A request as far as it got: without a reply, it threw. -/
structure Served where
  tracer : Tracer
  host : Host
  reply : Option Reply

namespace Tracer

/-- The constructor, given a descriptor open on the root. -/
def new (rootFd : Fd) (root : Path) (id : FileId) : Tracer where
  root := rootFd
  inodes := Function.update (fun _ => none) rootId (some ⟨dot, root, id⟩)

/-- `reopen`, giving the file it has opened, which is the inode's. -/
def reopen (h : Host) (c : Calls) (n : Inode) : Except Errno FileId :=
  match h.openBeneath c n.relative with
  | .error error => .error error
  | .ok id =>
    match c.statError with
    | some error => .error error
    | none => if id ≠ n.id then .error .ESTALE else .ok id

/-- `m_inodes.try_emplace`. -/
def emplaceInode (t : Tracer) (ino : FuseIno) (n : Inode) : Tracer :=
  if (t.inodes ino).isSome then t
  else { t with inodes := Function.update t.inodes ino (some n) }

def lookup (t : Tracer) (h : Host) (c : Calls) (parent : FuseIno) (name : Name) : Served :=
  match t.inodes parent with
  | none => ⟨t, h, some (.err Errno.EIO)⟩
  | some p =>
    if c.throws .childPath then ⟨t, h, none⟩
    else
      let child := if parent = rootId then [name] else p.relative ++ [name]
      match h.openBeneath c child with
      | .error error => ⟨t, h, some (.err error)⟩
      | .ok id =>
        match c.statError, t.byDevIno id with
        | some error, _ => ⟨t, h, some (.err error)⟩
        | none, some ino => ⟨t, h, some (.entry ino id)⟩
        | none, none =>
          if c.throws .byDevIno then ⟨t, h, none⟩
          else
            let ino := t.nextIno
            let t :=
              { t with byDevIno := Function.update t.byDevIno id (some ino), nextIno := ino + 1 }
            if c.throws .inode then ⟨t, h, none⟩
            else ⟨t.emplaceInode ino ⟨child, p.realPath ++ [name], id⟩, h, some (.entry ino id)⟩

def getattr (t : Tracer) (h : Host) (c : Calls) (ino : FuseIno) : Served :=
  match t.inodes ino with
  | none => ⟨t, h, some (.err Errno.EIO)⟩
  | some n =>
    match reopen h c n with
    | .error error => ⟨t, h, some (.err error)⟩
    | .ok id => ⟨t, h, some (.attr id)⟩

/-- `open`; `readOnly` is `(fi->flags & O_ACCMODE) == O_RDONLY`. -/
def «open» (t : Tracer) (h : Host) (c : Calls) (ino : FuseIno) (readOnly : Bool) : Served :=
  match t.inodes ino with
  | none => ⟨t, h, some (.err Errno.EIO)⟩
  | some n =>
    if !readOnly then ⟨t, h, some (.err .EROFS)⟩
    else
      match reopen h c n with
      | .error error => ⟨t, h, some (.err error)⟩
      | .ok id =>
        -- The descriptor is closed again where this throws, but not after its release below.
        if c.throws .readFile then ⟨t, h, none⟩
        else
          let t := { t with readFiles := t.readFiles ++ [n.realPath] }
          let h := h.opened c.fd ⟨id, .tracer⟩
          if c.throws .openFile then ⟨t, h, none⟩
          else ⟨{ t with openFiles := t.openFiles.insert c.fd }, h, some (.opened c.fd)⟩

def read (t : Tracer) (h : Host) (c : Calls) (fh : Fd) (size off : Nat) : Served :=
  if c.throws .replyBuffer then ⟨t, h, none⟩
  else
    match c.readError, h.fds fh with
    | some error, _ => ⟨t, h, some (.err error)⟩
    | none, none => ⟨t, h, some (.err (.other 9))⟩
    | none, some file => ⟨t, h, some (.buf (((h.world.contents file.file).drop off).take size))⟩

def release (t : Tracer) (h : Host) (fh : Fd) : Served :=
  ⟨{ t with openFiles := t.openFiles.erase fh }, h.close fh, some .done⟩

def opendir (t : Tracer) (h : Host) (c : Calls) (ino : FuseIno) : Served :=
  match t.inodes ino with
  | none => ⟨t, h, some (.err Errno.EIO)⟩
  | some n =>
    match reopen h c n, c.streamError with
    | .error error, _ => ⟨t, h, some (.err error)⟩
    | .ok _, some error => ⟨t, h, some (.err error)⟩
    | .ok id, none =>
      let h := (h.opened c.fd ⟨id, .tracer⟩).fdopendir c.dir c.fd c.stream
      if c.throws .openDirectory then ⟨t, h, none⟩
      else
        ⟨{ t with openDirectories := t.openDirectories.insert c.dir }, h, some (.openedDir c.dir)⟩

def readdir (t : Tracer) (h : Host) (c : Calls) (fh : Dir) (size off : Nat) : Served :=
  match h.streams fh with
  | none => ⟨t, h, some (.err (.other 9))⟩
  | some (fd, stream) =>
    if c.throws .replyBuffer then
      let stream := if off = 0 then stream.rewinddir else stream.seekdir off
      ⟨t, h.fdopendir fh fd stream, none⟩
    else
      let (stream, reply) := stream.readdir size off c.entriesError
      let h := h.fdopendir fh fd stream
      match reply with
      | .error error => ⟨t, h, some (.err error)⟩
      | .ok entries => ⟨t, h, some (.entries entries)⟩

def releasedir (t : Tracer) (h : Host) (fh : Dir) : Served :=
  ⟨{ t with openDirectories := t.openDirectories.erase fh }, h.closedir fh, some .done⟩

/-- The size of the buffer of `readlink`. -/
def linkSize : Nat := 4096 + 1

def readlink (t : Tracer) (h : Host) (c : Calls) (ino : FuseIno) : Served :=
  match t.inodes ino with
  | none => ⟨t, h, some (.err Errno.EIO)⟩
  | some n =>
    match reopen h c n, c.link with
    | .error error, _ => ⟨t, h, some (.err error)⟩
    | .ok _, .error error => ⟨t, h, some (.err error)⟩
    | .ok _, .ok target =>
      let target := target.take linkSize
      if target.length = linkSize then ⟨t, h, some (.err .ENAMETOOLONG)⟩
      else ⟨t, h, some (.readlink target)⟩

/-- The destructor, and that of the root's descriptor. -/
def destroy (t : Tracer) (h : Host) : Host :=
  (t.openDirectories.foldl Host.closedir (t.openFiles.foldl Host.close h)).close t.root

/-- `take_read_files`. -/
def takeReadFiles (t : Tracer) : Except Errno (List Path) :=
  if t.failed then .error Errno.EIO else .ok t.readFiles

/-- `TracingSession::take_inputs`. -/
def takeInputs (t : Tracer) : Except Errno (List Path) :=
  t.takeReadFiles.map fun inputs =>
    (inputs.mergeSort fun a b => decide (a ≤ b)).destutter (· ≠ ·)

end Tracer

/-- `Trampoline::call`. -/
def Served.trampoline (s : Served) : Tracer × Host × Reply :=
  match s.reply with
  | some reply => (s.tracer, s.host, reply)
  | none => ({ s.tracer with failed := true }, s.host, .err Errno.EIO)

/-! ### The kernel's side -/

/-- What the kernel asks of the mount, after what it was told before. -/
inductive FuseRequest
  | lookup (parent : FuseIno) (name : Name)
  | getattr (ino : FuseIno)
  | readlink (ino : FuseIno)
  | «open» (ino : FuseIno) (readOnly : Bool)
  | read (fh : Fd) (size off : Nat)
  | release (fh : Fd)
  | opendir (ino : FuseIno)
  | readdir (fh : Dir) (size off : Nat)
  | releasedir (fh : Dir)

/-- `k_ops`. -/
def serve (t : Tracer) (h : Host) (c : Calls) (r : FuseRequest) : Tracer × Host × Reply :=
  Served.trampoline <|
    match r with
    | .lookup parent name => t.lookup h c parent name
    | .getattr ino => t.getattr h c ino
    | .readlink ino => t.readlink h c ino
    | .open ino readOnly => t.open h c ino readOnly
    | .read fh size off => t.read h c fh size off
    | .release fh => t.release h fh
    | .opendir ino => t.opendir h c ino
    | .readdir fh size off => t.readdir h c fh size off
    | .releasedir fh => t.releasedir h fh

end MakeBelieve.ProcessUtil
