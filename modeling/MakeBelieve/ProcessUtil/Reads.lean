import MakeBelieve.ProcessUtil.Inputs

namespace MakeBelieve.ProcessUtil

open Library

variable {root : Path} {s : State} {n : Notes}

/-! ### A run -/

instance (s : State) (r : FuseRequest) : Decidable (s.Asks r) := by
  unfold State.Asks
  cases r <;> infer_instance

def fires (s : State × Notes) : Event → Bool
  | .request r c _ =>
    s.1.live && decide (s.1.Asks r) && (s.1.host.fds c.fd).isNone && (s.1.host.streams c.dir).isNone
  | .world _ => true
  | .opens fd _ => (s.1.host.fds fd).isNone
  | .closes fd =>
    match s.1.host.fds fd with
    | some ⟨_, .rest⟩ => true
    | _ => false
  | .destroy => s.1.live

theorem enabled_of_fires (s : State × Notes) (e : Event) (h : fires s e = true) :
    (tracing root).enabled s e ∧ True := by
  refine ⟨?_, trivial⟩
  change s.1.enabled e
  unfold fires at h
  cases e with
  | request r c delivered =>
    simp only [Bool.and_eq_true, decide_eq_true_eq, Option.isNone_iff_eq_none] at h
    exact ⟨h.1.1.1, h.1.1.2, h.1.2, h.2⟩
  | world w => trivial
  | opens fd file => exact Option.isNone_iff_eq_none.mp h
  | closes fd =>
    dsimp only at h
    split at h
    · next file hfile => exact ⟨file, hfile⟩
    · simp at h
  | destroy => exact h

/-- A directory in which `a` and `b` are one file, until `a` is removed and `c` is added. -/
def linked (removed : Bool) : World where
  names path :=
    if path = [['a']] then if removed then none else some ⟨1, 10⟩
    else if path = [['b']] then some ⟨1, 10⟩
    else if path = [['c']] then if removed then some ⟨1, 11⟩ else none
    else none
  contents id := if id = ⟨1, 10⟩ then [7, 8, 9] else []

def linkedStart : State where
  tracer := .new 3 [['r']] ⟨1, 1⟩
  host :=
    { world := linked false
      fds := Function.update (fun _ => none) 3 (some ⟨⟨1, 1⟩, .tracer⟩)
      streams := fun _ => none }

/-- Both names are looked up and the file is opened, and then `c` while `a` goes. -/
def opensLinked : List Event :=
  [.request (.lookup 1 ['b']) { fd := 4 } true,
    .request (.lookup 1 ['a']) { fd := 4 } true,
    .request (.open 2 true) { fd := 4 } true,
    .opens 5 ⟨1, 20⟩,
    .world (linked true),
    .request (.lookup 1 ['c']) { fd := 6 } true,
    .request (.open 3 true) { fd := 6 } false,
    .request (.read 4 2 1) { fd := 7 } true]

def releasesLinked : List Event :=
  [.request (.release 4) { fd := 7 } true, .closes 5, .destroy]

theorem linkedStart_starts : Starts [['r']] linkedStart := by
  refine ⟨3, ⟨1, 1⟩, _, rfl, by simp, ?_, fun _ => rfl, rfl⟩
  intro fd file hfd
  by_cases heq : fd = 3
  · exact heq
  · simp [Function.update_of_ne heq] at hfd

theorem linked_starts : (tracing [['r']]).Reachable (fun _ _ => True) (linkedStart, {}) :=
  .start ⟨linkedStart_starts, rfl⟩

theorem opensLinked_reachable : (tracing [['r']]).Reachable (fun _ _ => True)
    ((tracing [['r']]).runs (linkedStart, {}) opensLinked) :=
  linked_starts.runs_of_allPass enabled_of_fires _ (by decide +kernel)

theorem releasesLinked_reachable : (tracing [['r']]).Reachable (fun _ _ => True)
    ((tracing [['r']]).runs (linkedStart, {}) (opensLinked ++ releasesLinked)) :=
  linked_starts.runs_of_allPass enabled_of_fires _ (by decide +kernel)

/-! ### Results -/

/-- Sorting and dropping repeats leaves the same paths, each once. -/
theorem takeInputs_ok {t : Tracer} {inputs : List Path} (hok : t.takeInputs = .ok inputs) :
    t.failed = false ∧ inputs.Pairwise (· < ·) ∧ ∀ path, path ∈ inputs ↔ path ∈ t.readFiles := by
  unfold Tracer.takeInputs Tracer.takeReadFiles at hok
  split at hok
  · simp [Except.map] at hok
  · next hfailed =>
    obtain rfl := Except.ok.inj hok
    have hsorted : (t.readFiles.mergeSort fun a b => decide (a ≤ b)).Pairwise (· ≤ ·) := by
      have hpairwise : (t.readFiles.mergeSort fun a b => decide (a ≤ b)).Pairwise
          fun a b => decide (a ≤ b) = true := by
        apply List.pairwise_mergeSort
        · intro a b c hab hbc
          simpa using le_trans (of_decide_eq_true hab) (of_decide_eq_true hbc)
        · intro a b
          simpa using le_total a b
      exact hpairwise.imp of_decide_eq_true
    dsimp only
    rw [hsorted.destutter_eq_dedup]
    refine ⟨by simpa using hfailed, ?_, ?_⟩
    · have hle := hsorted.sublist (List.dedup_sublist _)
      have hne := List.nodup_dedup (t.readFiles.mergeSort fun a b => decide (a ≤ b))
      exact (hle.and hne).imp fun h => lt_of_le_of_ne h.1 h.2
    · intro path
      rw [List.mem_dedup]
      exact (List.mergeSort_perm _ _).mem_iff

theorem takeInputs_isOk {t : Tracer} (hok : t.failed = false) :
    ∃ inputs, t.takeInputs = .ok inputs := by
  unfold Tracer.takeInputs Tracer.takeReadFiles
  rw [hok]
  exact ⟨_, rfl⟩

/-- However the command's opens interleave with changes to the files and with the descriptors of
the rest of the process, the inputs a run reports are the paths of the files it was handed: each
file handed out is among them by a path that named it at its open, none is there that was not, and
they are sorted without repeats. A run in which a request threw reports none. -/
theorem inputs_are_reads (h : (tracing root).Reachable (fun _ _ => True) (s, n))
    {inputs : List Path} (hok : s.tracer.takeInputs = .ok inputs) :
    inputs.Pairwise (· < ·) ∧
      (∀ o ∈ n.opened, ∃ relative, o.names relative = some o.file ∧ under root relative ∈ inputs) ∧
      ∀ path ∈ inputs, ∃ o ∈ n.opened, ∃ relative,
        under root relative = path ∧ o.names relative = some o.file := by
  have hrecorded := (inv_reachable h).recorded
  obtain ⟨hfailed, hsorted, hmem⟩ := takeInputs_ok hok
  refine ⟨hsorted, ?_, ?_⟩
  · intro o ho
    obtain ⟨relative, hnamed, hread⟩ := hrecorded.recorded o ho
    exact ⟨relative, hnamed, (hmem _).mpr hread⟩
  · intro path hpath
    exact hrecorded.read hfailed path ((hmem path).mp hpath)

theorem inputs_are_reads_linked :
    let s := (tracing [['r']]).runs (linkedStart, {}) opensLinked
    ∃ inputs, s.1.tracer.takeInputs = .ok inputs ∧ inputs.Pairwise (· < ·) ∧
      ∃ o ∈ s.2.opened, o.file = ⟨1, 10⟩ ∧
        ∃ relative, o.names relative = some o.file ∧ under [['r']] relative ∈ inputs := by
  intro s
  have hfailed : s.1.tracer.failed = false := by decide +kernel
  have hopened : s.2.opened.head?.map Opening.file = some ⟨1, 10⟩ := by decide +kernel
  obtain ⟨o, ho, hfile⟩ := Option.map_eq_some_iff.mp hopened
  obtain ⟨inputs, hinputs⟩ := takeInputs_isOk hfailed
  have hreads := inputs_are_reads opensLinked_reachable hinputs
  exact ⟨inputs, hinputs, hreads.1, o, List.mem_of_mem_head? ho, hfile,
    hreads.2.1 o (List.mem_of_mem_head? ho)⟩

/-- Whatever has happened since its open, a handle the kernel holds reads the very file its open
was recorded for, as that file is now. -/
theorem reads_as_recorded (h : (tracing root).Reachable (fun _ _ => True) (s, n)) {fh : Fd}
    (hheld : s.handles fh = true) {c : Calls} (hthrows : c.throws .replyBuffer = false)
    (herror : c.readError = none) (size off : Nat) :
    ∃ o ∈ n.opened, n.held fh = some o.file ∧
      (∃ relative, o.names relative = some o.file ∧ under root relative ∈ s.tracer.readFiles) ∧
      (s.tracer.read s.host c fh size off).reply =
        some (.buf (((s.host.world.contents o.file).drop off).take size)) := by
  have hrecorded := (inv_reachable h).recorded
  obtain ⟨file, hnote, hfile, o, ho, rfl⟩ := hrecorded.held fh hheld
  refine ⟨o, ho, hnote, hrecorded.recorded o ho, ?_⟩
  unfold Tracer.read
  rw [if_neg (by simp [hthrows]), herror, hfile]

theorem reads_as_recorded_linked :
    let s := (tracing [['r']]).runs (linkedStart, {}) opensLinked
    ∃ o ∈ s.2.opened, (s.1.tracer.read s.1.host { fd := 7 } 4 2 1).reply =
      some (.buf (((s.1.host.world.contents o.file).drop 1).take 2)) := by
  intro s
  have hheld : s.1.handles 4 = true := by decide +kernel
  obtain ⟨o, ho, _, _, hread⟩ :=
    reads_as_recorded opensLinked_reachable hheld (c := { fd := 7 }) rfl rfl 2 1
  exact ⟨o, ho, hread⟩

/-- Lookups number files one to one for a whole run: the same file has the same inode by any of its
names, and no two share one. The next number is never taken, as the tracer asserts; and until a
request throws, what the kernel was told of is in the table, at the path its number stands for. -/
theorem inodes_one_to_one (h : (tracing root).Reachable (fun _ _ => True) (s, n)) :
    (∀ a ∈ n.given, ∀ b ∈ n.given, a.1 = b.1 ↔ a.2 = b.2) ∧
      s.tracer.inodes s.tracer.nextIno = none ∧
      (s.tracer.failed = false → ∀ ino, s.known ino = true → ∃ inode,
        s.tracer.inodes ino = some inode ∧ inode.realPath = under root inode.relative ∧
          (ino ≠ rootId → s.tracer.byDevIno inode.id = some ino)) := by
  have htable := (inv_reachable h).table
  refine ⟨?_, htable.unused, ?_⟩
  · intro a ha b hb
    have hina := htable.given a.1 a.2 ha
    have hinb := htable.given b.1 b.2 hb
    constructor
    · intro heq
      rw [← heq] at hinb
      exact htable.one a.2 b.2 a.1 hina hinb
    · intro heq
      rw [← heq, hina] at hinb
      exact Option.some.inj hinb
  · intro hok ino hknown
    obtain ⟨inode, hinode⟩ := Option.isSome_iff_exists.mp (htable.known hok ino hknown)
    exact ⟨inode, hinode, htable.paths ino inode hinode,
      fun hne => htable.indexed ino inode hne hinode⟩

theorem inodes_one_to_one_linked :
    let s := (tracing [['r']]).runs (linkedStart, {}) opensLinked
    s.2.given = [(2, ⟨1, 10⟩), (2, ⟨1, 10⟩), (3, ⟨1, 11⟩)] ∧
      s.1.tracer.inodes s.1.tracer.nextIno = none :=
  ⟨by decide +kernel, (inodes_one_to_one opensLinked_reachable).2.1⟩

/-- A tracer closes what it opened and nothing else, never twice: whatever it closes is open as its
own. Its handles stay open while the kernel holds them, and once it is gone it has left nothing
open, unless a request threw. -/
theorem descriptors_closed_once (h : (tracing root).Reachable (fun _ _ => True) (s, n)) :
    (∀ file ∈ s.host.closed, ∃ id, file = some ⟨id, .tracer⟩) ∧
      (∀ fh, s.handles fh = true → ∃ id, s.host.fds fh = some ⟨id, .tracer⟩) ∧
      (s.live = false → s.tracer.failed = false →
        ∀ fd id, s.host.fds fd ≠ some ⟨id, .tracer⟩) := by
  have hinv := inv_reachable h
  refine ⟨?_, ?_, ?_⟩
  · cases hlive : s.live with
    | true => exact (hinv.handed hlive).owned.closed
    | false => exact (hinv.gone hlive).1.closed
  · intro fh hfh
    obtain ⟨file, _, hfile, _⟩ := hinv.recorded.held fh hfh
    exact ⟨file, hfile⟩
  · intro hdead hok
    exact (hinv.gone hdead).1.none_left hok

theorem descriptors_closed_once_linked :
    let s := (tracing [['r']]).runs (linkedStart, {}) (opensLinked ++ releasesLinked)
    s.1.host.closed.length = 3 ∧ ∀ fd id, s.1.host.fds fd ≠ some ⟨id, .tracer⟩ := by
  intro s
  have hlive : s.1.live = false := by decide +kernel
  have hfailed : s.1.tracer.failed = false := by decide +kernel
  exact ⟨by decide +kernel,
    (descriptors_closed_once releasesLinked_reachable).2.2 hlive hfailed⟩

end MakeBelieve.ProcessUtil
