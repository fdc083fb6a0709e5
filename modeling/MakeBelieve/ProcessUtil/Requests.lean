import MakeBelieve.ProcessUtil.Tracer

namespace MakeBelieve.ProcessUtil

/-- Replies that give the kernel nothing to come back to. -/
def Reply.Quiet : Reply → Prop
  | .entry _ _ | .opened _ | .openedDir _ => False
  | _ => True

/-- The path of a lookup, by its parent's. -/
def childOf (parent : FuseIno) (p : Inode) (name : Name) : Path :=
  if parent = rootId then [name] else p.relative ++ [name]

/-- What a request can do, and what it then replies. -/
inductive Does (t : Tracer) (h : Host) (c : Calls) :
    FuseRequest → Tracer × Host × Reply → Prop
  | nothing {r : FuseRequest} {reply : Reply} (hquiet : reply.Quiet) : Does t h c r (t, h, reply)
  | threw {r : FuseRequest} : Does t h c r ({ t with failed := true }, h, .err Errno.EIO)
  | known {parent : FuseIno} {name : Name} {id : FileId} {ino : FuseIno} {p : Inode}
      (hp : t.inodes parent = some p)
      (hnamed : h.world.names (childOf parent p name) = some id) (hino : t.byDevIno id = some ino) :
      Does t h c (.lookup parent name) (t, h, .entry ino id)
  | numbered {parent : FuseIno} {name : Name} {id : FileId} (hnew : t.byDevIno id = none) :
      Does t h c (.lookup parent name)
        ({ t with
            byDevIno := Function.update t.byDevIno id (some t.nextIno)
            nextIno := t.nextIno + 1
            failed := true }, h, .err Errno.EIO)
  | added {parent : FuseIno} {name : Name} {id : FileId} {p : Inode}
      (hp : t.inodes parent = some p)
      (hnamed : h.world.names (childOf parent p name) = some id) (hnew : t.byDevIno id = none) :
      Does t h c (.lookup parent name)
        (Tracer.emplaceInode
          { t with
            byDevIno := Function.update t.byDevIno id (some t.nextIno)
            nextIno := t.nextIno + 1 }
          t.nextIno ⟨childOf parent p name, p.realPath ++ [name], id⟩, h, .entry t.nextIno id)
  | openThrew {ino : FuseIno} {n : Inode} :
      Does t h c (.open ino true)
        ({ t with readFiles := t.readFiles ++ [n.realPath], failed := true },
          h.opened c.fd ⟨n.id, .tracer⟩, .err Errno.EIO)
  | opened {ino : FuseIno} {n : Inode} (hn : t.inodes ino = some n)
      (hnamed : h.world.names n.relative = some n.id) :
      Does t h c (.open ino true)
        ({ t with
            readFiles := t.readFiles ++ [n.realPath]
            openFiles := t.openFiles.insert c.fd }, h.opened c.fd ⟨n.id, .tracer⟩, .opened c.fd)
  | released {fh : Fd} :
      Does t h c (.release fh) ({ t with openFiles := t.openFiles.erase fh }, h.close fh, .done)
  | opendirThrew {ino : FuseIno} {id : FileId} :
      Does t h c (.opendir ino)
        ({ t with failed := true },
          (h.opened c.fd ⟨id, .tracer⟩).fdopendir c.dir c.fd c.stream, .err Errno.EIO)
  | openedDir {ino : FuseIno} {id : FileId} :
      Does t h c (.opendir ino)
        ({ t with openDirectories := t.openDirectories.insert c.dir },
          (h.opened c.fd ⟨id, .tracer⟩).fdopendir c.dir c.fd c.stream, .openedDir c.dir)
  | moved {fh : Dir} {size off : Nat} {fd : Fd} {stream stream' : Stream} {threw : Bool}
      {reply : Reply} (hstream : h.streams fh = some (fd, stream)) (hquiet : reply.Quiet) :
      Does t h c (.readdir fh size off)
        ({ t with failed := t.failed || threw }, h.fdopendir fh fd stream', reply)
  | releasedDir {fh : Dir} :
      Does t h c (.releasedir fh)
        ({ t with openDirectories := t.openDirectories.erase fh }, h.closedir fh, .done)

variable {t : Tracer} {h : Host} {c : Calls}

theorem openBeneath_ok {relative : Path} {id : FileId} (hok : h.openBeneath c relative = .ok id) :
    h.world.names relative = some id := by
  unfold Host.openBeneath at hok
  split at hok
  · simp at hok
  · split at hok
    · simp at hok
    · next hnames =>
      obtain rfl := Except.ok.inj hok
      exact hnames

/-- What `reopen` gives is the inode's file, which its path names now. -/
theorem reopen_ok {n : Inode} {id : FileId} (hok : Tracer.reopen h c n = .ok id) :
    id = n.id ∧ h.world.names n.relative = some n.id := by
  unfold Tracer.reopen at hok
  split at hok
  · simp at hok
  · next hopened =>
    split at hok
    · simp at hok
    · split at hok
      · simp at hok
      · next hid =>
        obtain rfl := Except.ok.inj hok
        have heq := of_not_not hid
        exact ⟨heq, heq ▸ openBeneath_ok hopened⟩

theorem lookup_does (parent : FuseIno) (name : Name) :
    Does t h c (.lookup parent name) (t.lookup h c parent name).trampoline := by
  unfold Tracer.lookup
  split
  · exact .nothing trivial
  · next p hp =>
    split
    · exact .threw
    · dsimp only
      split
      · exact .nothing trivial
      · next id hopened =>
        have hnamed : h.world.names (childOf parent p name) = some id := openBeneath_ok hopened
        split
        · exact .nothing trivial
        · next hino => exact .known hp hnamed hino
        · next hnew =>
          split
          · exact .threw
          · split
            · exact .numbered hnew
            · exact .added hp hnamed hnew

theorem open_does (ino : FuseIno) (readOnly : Bool) :
    Does t h c (.open ino readOnly) (t.open h c ino readOnly).trampoline := by
  unfold Tracer.open
  split
  · exact .nothing trivial
  · next n hn =>
    cases readOnly with
    | false => exact .nothing trivial
    | true =>
      rw [if_neg (by simp)]
      split
      · exact .nothing trivial
      · next id hopened =>
        obtain ⟨rfl, hnamed⟩ := reopen_ok hopened
        split
        · exact .threw
        · split
          · exact .openThrew
          · exact .opened hn hnamed

theorem opendir_does (ino : FuseIno) :
    Does t h c (.opendir ino) (t.opendir h c ino).trampoline := by
  unfold Tracer.opendir
  split
  · exact .nothing trivial
  · split
    · exact .nothing trivial
    · exact .nothing trivial
    · dsimp only
      split
      · exact .opendirThrew
      · exact .openedDir

theorem readdir_does (fh : Dir) (size off : Nat) :
    Does t h c (.readdir fh size off) (t.readdir h c fh size off).trampoline := by
  unfold Tracer.readdir
  split
  · exact .nothing trivial
  · next fd stream hstream =>
    split
    · have hmoved : Does t h c (.readdir fh size off)
          ({ t with failed := t.failed || true },
            h.fdopendir fh fd (if off = 0 then stream.rewinddir else stream.seekdir off),
            .err Errno.EIO) := .moved hstream trivial
      rw [Bool.or_true] at hmoved
      exact hmoved
    · have hmoved : ∀ reply : Reply, reply.Quiet → Does t h c (.readdir fh size off)
          (t, h.fdopendir fh fd (stream.readdir size off c.entriesError).1, reply) := by
        intro reply hquiet
        have hdoes : Does t h c (.readdir fh size off)
            ({ t with failed := t.failed || false },
              h.fdopendir fh fd (stream.readdir size off c.entriesError).1, reply) :=
          .moved hstream hquiet
        rw [Bool.or_false] at hdoes
        exact hdoes
      dsimp only
      split
      · exact hmoved _ trivial
      · exact hmoved _ trivial

theorem getattr_does (ino : FuseIno) :
    Does t h c (.getattr ino) (t.getattr h c ino).trampoline := by
  unfold Tracer.getattr
  split
  · exact .nothing trivial
  · split
    · exact .nothing trivial
    · exact .nothing trivial

theorem readlink_does (ino : FuseIno) :
    Does t h c (.readlink ino) (t.readlink h c ino).trampoline := by
  unfold Tracer.readlink
  split
  · exact .nothing trivial
  · split
    · exact .nothing trivial
    · exact .nothing trivial
    · dsimp only
      split
      · exact .nothing trivial
      · exact .nothing trivial

theorem read_does (fh : Fd) (size off : Nat) :
    Does t h c (.read fh size off) (t.read h c fh size off).trampoline := by
  unfold Tracer.read
  split
  · exact .threw
  · split
    · exact .nothing trivial
    · exact .nothing trivial
    · exact .nothing trivial

/-- Every request does one of these. -/
theorem serve_does (t : Tracer) (h : Host) (c : Calls) (r : FuseRequest) :
    Does t h c r (serve t h c r) := by
  cases r with
  | lookup parent name => exact lookup_does parent name
  | getattr ino => exact getattr_does ino
  | readlink ino => exact readlink_does ino
  | «open» ino readOnly => exact open_does ino readOnly
  | read fh size off => exact read_does fh size off
  | release fh => exact .released
  | opendir ino => exact opendir_does ino
  | readdir fh size off => exact readdir_does fh size off
  | releasedir fh => exact .releasedDir

end MakeBelieve.ProcessUtil
