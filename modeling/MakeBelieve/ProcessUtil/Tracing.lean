import MakeBelieve.Library.Machine
import MakeBelieve.ProcessUtil.Requests

namespace MakeBelieve.ProcessUtil

open Library

/-! ### One command's mount -/

/-- A tracer, the host around it, and what the kernel knows of the mount: the inodes it was told of
and the handles it holds. -/
structure State where
  tracer : Tracer
  host : Host
  known : FuseIno → Bool := Function.update (fun _ => false) rootId true
  handles : Fd → Bool := fun _ => false
  dirs : Dir → Bool := fun _ => false
  live : Bool := true

inductive Event
  /-- `delivered` is whether the reply reaches the kernel: an interrupted request gets none. -/
  | request (r : FuseRequest) (c : Calls) (delivered : Bool)
  | world (w : World)
  /-- The rest of the process opens a file, or closes one of its own. -/
  | opens (fd : Fd) (file : FileId)
  | closes (fd : Fd)
  | destroy

/-- What the kernel lets go of as it asks. -/
def State.asked (s : State) : FuseRequest → State
  | .release fh => { s with handles := Function.update s.handles fh false }
  | .releasedir fh => { s with dirs := Function.update s.dirs fh false }
  | _ => s

/-- What a reply gives the kernel. -/
def State.told (s : State) : Reply → State
  | .entry ino _ => { s with known := Function.update s.known ino true }
  | .opened fh => { s with handles := Function.update s.handles fh true }
  | .openedDir fh => { s with dirs := Function.update s.dirs fh true }
  | _ => s

def State.served (s : State) (r : FuseRequest) (delivered : Bool) :
    Tracer × Host × Reply → State
  | (t, h, reply) =>
    let s := { s.asked r with tracer := t, host := h }
    if delivered then s.told reply else s

def State.step (s : State) : Event → State
  | .request r c delivered => s.served r delivered (serve s.tracer s.host c r)
  | .world w => { s with host := { s.host with world := w } }
  | .opens fd file => { s with host := s.host.opened fd ⟨file, .rest⟩ }
  | .closes fd => { s with host := { s.host with fds := Function.update s.host.fds fd none } }
  | .destroy =>
    { s with
      host := s.tracer.destroy s.host
      handles := fun _ => false
      dirs := fun _ => false
      live := false }

/-- The kernel asks about the inodes it was told of, and with the handles it holds; it resolves
`"."` itself. -/
def State.Asks (s : State) : FuseRequest → Prop
  | .lookup parent name => s.known parent = true ∧ name ≠ ['.']
  | .getattr ino | .readlink ino | .open ino _ | .opendir ino => s.known ino = true
  | .read fh _ _ | .release fh => s.handles fh = true
  | .readdir fh _ _ | .releasedir fh => s.dirs fh = true

/-- Descriptors and streams are given numbers that are free. -/
def State.enabled (s : State) : Event → Prop
  | .request r c _ =>
    s.live = true ∧ s.Asks r ∧ s.host.fds c.fd = none ∧ s.host.streams c.dir = none
  | .world _ => True
  | .opens fd _ => s.host.fds fd = none
  | .closes fd => ∃ file, s.host.fds fd = some ⟨file, .rest⟩
  | .destroy => s.live = true

/-- A tracer that has just been made, whose one descriptor is the root's. -/
def Starts (root : Path) (s : State) : Prop :=
  ∃ rootFd id h,
    s = { tracer := .new rootFd root id, host := h } ∧ h.fds rootFd = some ⟨id, .tracer⟩ ∧
      (∀ fd file, h.fds fd = some ⟨file, .tracer⟩ → fd = rootFd) ∧
      (∀ dir, h.streams dir = none) ∧ h.closed = []

/-! ### What was handed out -/

/-- An open answered with a descriptor: the file it is open on, and what every path named then. -/
structure Opening where
  file : FileId
  names : Path → Option FileId

/-- The opens answered with a descriptor, the file of each handle the kernel got, and the inodes
that lookups were answered with. -/
structure Notes where
  opened : List Opening := []
  held : Fd → Option FileId := fun _ => none
  given : List (FuseIno × FileId) := []

def Notes.replied (n : Notes) (before after : Host) (reply : Reply) (delivered : Bool) : Notes :=
  match reply with
  | .entry ino id => { n with given := n.given ++ [(ino, id)] }
  | .opened fh =>
    match after.fds fh with
    | some file =>
      { n with
        opened := n.opened ++ [⟨file.file, before.world.names⟩]
        held := if delivered then Function.update n.held fh (some file.file) else n.held }
    | none => n
  | _ => n

def note (s : State) : Event → Notes → Notes
  | .request r c delivered, n =>
    let (_, h, reply) := serve s.tracer s.host c r
    n.replied s.host h reply delivered
  | _, n => n

def tracing (root : Path) : Machine (State × Notes) Event :=
  Machine.noting ⟨Starts root, State.enabled, State.step⟩ (fun _ => {}) note

/-! ### The inode table -/

/-- The path the tracer has for what is `relative` to the root. -/
def under (root relative : Path) : Path := if relative = dot then root else root ++ relative

/-- The two maps number files one to one, and agree unless a request threw between them. -/
structure Table (root : Path) (t : Tracer) (known : FuseIno → Bool)
    (given : List (FuseIno × FileId)) : Prop where
  rooted : ∃ id, t.inodes rootId = some ⟨dot, root, id⟩
  next : rootId < t.nextIno
  below : ∀ ino n, t.inodes ino = some n → ino < t.nextIno
  numbered : ∀ id ino, t.byDevIno id = some ino → rootId < ino ∧ ino < t.nextIno
  one : ∀ id id' ino, t.byDevIno id = some ino → t.byDevIno id' = some ino → id = id'
  indexed : ∀ ino n, ino ≠ rootId → t.inodes ino = some n → t.byDevIno n.id = some ino
  kept : t.failed = false → ∀ id ino, t.byDevIno id = some ino →
    ∃ n, t.inodes ino = some n ∧ n.id = id
  paths : ∀ ino n, t.inodes ino = some n → n.realPath = under root n.relative
  proper : ∀ ino n, ino ≠ rootId → t.inodes ino = some n → n.relative ≠ [] ∧ n.relative ≠ dot
  known : t.failed = false → ∀ ino, known ino = true → (t.inodes ino).isSome = true
  given : ∀ ino id, (ino, id) ∈ given → t.byDevIno id = some ino

namespace Table

variable {root : Path} {t t' : Tracer} {known : FuseIno → Bool} {given : List (FuseIno × FileId)}
  {id : FileId} {ino parent : FuseIno} {name : Name} {p : Inode}

theorem start (rootFd : Fd) (root : Path) (id : FileId) :
    Table root (.new rootFd root id) (Function.update (fun _ => false) rootId true) [] := by
  have hinodes : ∀ ino n, (Tracer.new rootFd root id).inodes ino = some n →
      ino = rootId ∧ n = ⟨dot, root, id⟩ := by
    intro ino n hn
    by_cases heq : ino = rootId
    · subst heq
      simp only [Tracer.new, Function.update_self, Option.some.injEq] at hn
      exact ⟨rfl, hn.symm⟩
    · simp [Tracer.new, Function.update_of_ne heq] at hn
  constructor
  · exact ⟨id, by simp [Tracer.new]⟩
  · exact Nat.lt_succ_self rootId
  · intro ino n hn
    rw [(hinodes ino n hn).1]
    exact Nat.lt_succ_self rootId
  · intro id' ino hino
    simp [Tracer.new] at hino
  · intro id id' ino hino
    simp [Tracer.new] at hino
  · intro ino n hne hn
    exact absurd (hinodes ino n hn).1 hne
  · intro _ id' ino hino
    simp [Tracer.new] at hino
  · intro ino n hn
    rw [(hinodes ino n hn).2]
    simp [under]
  · intro ino n hne hn
    exact absurd (hinodes ino n hn).1 hne
  · intro _ ino hino
    by_cases heq : ino = rootId
    · subst heq
      simp [Tracer.new]
    · simp [Function.update_of_ne heq] at hino
  · intro ino id' hmem
    simp at hmem

/-- What leaves the maps alone keeps them. -/
theorem frame (h : Table root t known given) (hinodes : t'.inodes = t.inodes)
    (hids : t'.byDevIno = t.byDevIno) (hnext : t'.nextIno = t.nextIno)
    (hfailed : t'.failed = false → t.failed = false) : Table root t' known given := by
  constructor
  · rw [hinodes]; exact h.rooted
  · rw [hnext]; exact h.next
  · rw [hinodes, hnext]; exact h.below
  · rw [hids, hnext]; exact h.numbered
  · rw [hids]; exact h.one
  · rw [hinodes, hids]; exact h.indexed
  · intro hok
    rw [hinodes, hids]
    exact h.kept (hfailed hok)
  · rw [hinodes]; exact h.paths
  · rw [hinodes]; exact h.proper
  · intro hok
    rw [hinodes]
    exact h.known (hfailed hok)
  · rw [hids]; exact h.given

theorem fail (h : Table root t known given) :
    Table root { t with failed := true } known given :=
  h.frame rfl rfl rfl (by simp)

/-- The next number has been given to nothing, so that its inode can be added. -/
theorem unused (h : Table root t known given) : t.inodes t.nextIno = none := by
  rw [← Option.not_isSome_iff_eq_none]
  intro hsome
  obtain ⟨n, hn⟩ := Option.isSome_iff_exists.mp hsome
  exact Nat.lt_irrefl _ (h.below _ n hn)

/-- A number given to a new file. -/
theorem ids (h : Table root t known given) (hnew : t.byDevIno id = none) :
    (∀ id' ino, Function.update t.byDevIno id (some t.nextIno) id' = some ino →
      rootId < ino ∧ ino < t.nextIno + 1) ∧
    (∀ id' id'' ino, Function.update t.byDevIno id (some t.nextIno) id' = some ino →
      Function.update t.byDevIno id (some t.nextIno) id'' = some ino → id' = id'') ∧
    (∀ id' ino, t.byDevIno id' = some ino →
      Function.update t.byDevIno id (some t.nextIno) id' = some ino) := by
  have hcases : ∀ id' ino, Function.update t.byDevIno id (some t.nextIno) id' = some ino →
      id' = id ∧ ino = t.nextIno ∨ id' ≠ id ∧ t.byDevIno id' = some ino := by
    intro id' ino hino
    by_cases heq : id' = id
    · rw [heq, Function.update_self] at hino
      exact .inl ⟨heq, (Option.some.inj hino).symm⟩
    · rw [Function.update_of_ne heq] at hino
      exact .inr ⟨heq, hino⟩
  refine ⟨?_, ?_, ?_⟩
  · intro id' ino hino
    obtain ⟨_, rfl⟩ | ⟨_, hold⟩ := hcases id' ino hino
    · exact ⟨h.next, Nat.lt_succ_self _⟩
    · have hlt := h.numbered id' ino hold
      exact ⟨hlt.1, Nat.lt_succ_of_lt hlt.2⟩
  · intro id' id'' ino hino hino'
    obtain ⟨rfl, rfl⟩ | ⟨_, hold⟩ := hcases id' ino hino
    · obtain ⟨rfl, _⟩ | ⟨_, hold'⟩ := hcases id'' _ hino'
      · rfl
      · exact absurd (h.numbered id'' _ hold').2 (Nat.lt_irrefl _)
    · obtain ⟨rfl, rfl⟩ | ⟨_, hold'⟩ := hcases id'' ino hino'
      · exact absurd (h.numbered id' _ hold).2 (Nat.lt_irrefl _)
      · exact h.one id' id'' ino hold hold'
  · intro id' ino hino
    have hne : id' ≠ id := by
      intro heq
      rw [heq, hnew] at hino
      simp at hino
    rw [Function.update_of_ne hne]
    exact hino

/-- A request that threw after numbering a file: the file has no inode, and the run has failed. -/
theorem number (h : Table root t known given) (hnew : t.byDevIno id = none) :
    Table root
      { t with
        byDevIno := Function.update t.byDevIno id (some t.nextIno)
        nextIno := t.nextIno + 1
        failed := true } known given := by
  obtain ⟨hnumbered, hone, hold⟩ := h.ids hnew
  constructor
  · exact h.rooted
  · exact Nat.lt_succ_of_lt h.next
  · exact fun ino n hn => Nat.lt_succ_of_lt (h.below ino n hn)
  · exact hnumbered
  · exact hone
  · exact fun ino n hne hn => hold n.id ino (h.indexed ino n hne hn)
  · intro hok
    simp at hok
  · exact h.paths
  · exact h.proper
  · intro hok
    simp at hok
  · exact fun ino id' hmem => hold id' ino (h.given ino id' hmem)

theorem under_child (h : Table root t known given) (hp : t.inodes parent = some p)
    (hname : name ≠ ['.']) :
    p.realPath ++ [name] = under root (childOf parent p name) ∧
      childOf parent p name ≠ [] ∧ childOf parent p name ≠ dot := by
  have hpath := h.paths parent p hp
  unfold childOf
  by_cases hroot : parent = rootId
  · obtain ⟨id, hinode⟩ := h.rooted
    rw [hroot, hinode] at hp
    obtain rfl := Option.some.inj hp
    have hdot : [name] ≠ dot := by
      intro heq
      exact hname (List.cons.inj heq).1
    rw [if_pos hroot, under, if_neg hdot]
    exact ⟨rfl, List.cons_ne_nil _ _, hdot⟩
  · obtain ⟨hnil, hdot⟩ := h.proper parent p hroot hp
    have hchild : p.relative ++ [name] ≠ dot := by
      intro heq
      have hlen := congrArg List.length heq
      have hpos := List.length_pos_iff.mpr hnil
      simp [dot] at hlen
      exact hnil hlen
    rw [if_neg hroot, hpath, under, if_neg hdot, under, if_neg hchild, List.append_assoc]
    exact ⟨rfl, by simp, hchild⟩

/-- A new file's inode. -/
theorem add (h : Table root t known given) (hp : t.inodes parent = some p)
    (hname : name ≠ ['.']) (hnew : t.byDevIno id = none) :
    Table root
      (Tracer.emplaceInode
        { t with
          byDevIno := Function.update t.byDevIno id (some t.nextIno)
          nextIno := t.nextIno + 1 }
        t.nextIno ⟨childOf parent p name, p.realPath ++ [name], id⟩)
      (Function.update known t.nextIno true) (given ++ [(t.nextIno, id)]) := by
  obtain ⟨hnumbered, hone, hold⟩ := h.ids hnew
  obtain ⟨hpath, hnil, hdot⟩ := h.under_child hp hname
  have hroot : rootId ≠ t.nextIno := Nat.ne_of_lt h.next
  have hadded : ∀ {P : FuseIno → Inode → Prop},
      P t.nextIno ⟨childOf parent p name, p.realPath ++ [name], id⟩ →
      (∀ ino n, ino ≠ t.nextIno → t.inodes ino = some n → P ino n) →
      ∀ ino n, Function.update t.inodes t.nextIno
        (some ⟨childOf parent p name, p.realPath ++ [name], id⟩) ino = some n → P ino n := by
    intro P hself hother ino n hn
    by_cases heq : ino = t.nextIno
    · rw [heq, Function.update_self] at hn
      rw [heq, ← Option.some.inj hn]
      exact hself
    · rw [Function.update_of_ne heq] at hn
      exact hother ino n heq hn
  unfold Tracer.emplaceInode
  rw [if_neg (by simp [h.unused])]
  constructor
  · obtain ⟨id', hinode⟩ := h.rooted
    refine ⟨id', ?_⟩
    dsimp only
    rw [Function.update_of_ne hroot]
    exact hinode
  · exact Nat.lt_succ_of_lt h.next
  · apply hadded
    · exact Nat.lt_succ_self _
    · exact fun ino n _ hn => Nat.lt_succ_of_lt (h.below ino n hn)
  · exact hnumbered
  · exact hone
  · intro ino n hne hn
    exact hadded (P := fun ino n => ino ≠ rootId →
        Function.update t.byDevIno id (some t.nextIno) n.id = some ino)
      (fun _ => Function.update_self ..)
      (fun ino n _ hn hne => hold n.id ino (h.indexed ino n hne hn)) ino n hn hne
  · intro hok id' ino hino
    dsimp only at hino ⊢
    by_cases heq : id' = id
    · rw [heq, Function.update_self] at hino
      obtain rfl := Option.some.inj hino
      rw [Function.update_self]
      exact ⟨_, rfl, heq.symm⟩
    · rw [Function.update_of_ne heq] at hino
      rw [Function.update_of_ne (Nat.ne_of_lt (h.numbered id' ino hino).2)]
      exact h.kept hok id' ino hino
  · apply hadded
    · exact hpath
    · exact fun ino n _ hn => h.paths ino n hn
  · intro ino n hne hn
    exact hadded (P := fun ino n => ino ≠ rootId → n.relative ≠ [] ∧ n.relative ≠ dot)
      (fun _ => ⟨hnil, hdot⟩) (fun ino n _ hn hne => h.proper ino n hne hn) ino n hn hne
  · intro hok ino hino
    dsimp only
    by_cases heq : ino = t.nextIno
    · rw [heq, Function.update_self]
      rfl
    · rw [Function.update_of_ne heq] at hino ⊢
      exact h.known hok ino hino
  · intro ino id' hmem
    dsimp only
    rw [List.mem_append, List.mem_singleton] at hmem
    obtain hmem | heq := hmem
    · exact hold id' ino (h.given ino id' hmem)
    · obtain ⟨rfl, rfl⟩ := Prod.mk.inj heq
      exact Function.update_self ..

/-- What the kernel is told again of a file it may know of. -/
theorem give (h : Table root t known given) (hino : t.byDevIno id = some ino) :
    Table root t (Function.update known ino true) (given ++ [(ino, id)]) := by
  refine ⟨h.rooted, h.next, h.below, h.numbered, h.one, h.indexed, h.kept, h.paths, h.proper,
    ?_, ?_⟩
  · intro hok other hother
    by_cases heq : other = ino
    · obtain ⟨n, hn, _⟩ := h.kept hok id ino hino
      rw [heq, hn]
      rfl
    · rw [Function.update_of_ne heq] at hother
      exact h.known hok other hother
  · intro other id' hmem
    rw [List.mem_append, List.mem_singleton] at hmem
    obtain hmem | heq := hmem
    · exact h.given other id' hmem
    · obtain ⟨rfl, rfl⟩ := Prod.mk.inj heq
      exact hino

/-- The kernel may not be told. -/
theorem untold {known' : FuseIno → Bool} (h : Table root t known' given)
    (hknown : ∀ ino, known ino = true → known' ino = true) : Table root t known given :=
  ⟨h.rooted, h.next, h.below, h.numbered, h.one, h.indexed, h.kept, h.paths, h.proper,
    fun hok ino hino => h.known hok ino (hknown ino hino), h.given⟩

end Table

end MakeBelieve.ProcessUtil
