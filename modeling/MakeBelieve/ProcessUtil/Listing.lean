import MakeBelieve.FuseDirent

namespace MakeBelieve.ProcessUtil

open Library

/-- The `errno`s the program gives itself, and those of the system's that it passes on. -/
inductive Errno
  | EIO
  | EROFS
  | ESTALE
  | ENAMETOOLONG
  | ENOENT
  | EPROTO
  | ECANCELED
  | ENOMEM
  | other (value : Nat)
  deriving DecidableEq, Repr

/-- A stream of `opendir`: what it reads, each entry with what `telldir` gives after it, and how far
it has read. -/
structure Stream where
  entries : List (Name × Nat)
  position : Nat := 0
  nonzero : ∀ entry ∈ entries, entry.2 ≠ 0
  distinct : (entries.map Prod.snd).Nodup

namespace Stream

def empty : Stream := ⟨[], 0, by simp, by simp⟩

def rewinddir (dir : Stream) : Stream := { dir with position := 0 }

def seekdir (dir : Stream) (offset : Nat) : Stream :=
  { dir with position := dir.entries.findIdx (fun entry => entry.2 = offset) + 1 }

/-- The error of reading the stream at a position, if it fails there. -/
def errorAt (fails : Option (Nat × Errno)) (position : Nat) : Option Errno :=
  fails.bind fun (failing, error) => if failing = position then some error else none

/-- The loop of `Tracer::readdir` from here on, with `used` of `size` bytes taken. It leaves the
stream after the last entry it read, even one it had no room for. -/
def readLoop (size : Nat) (fails : Option (Nat × Errno)) :
    List (Name × Nat) → Nat → Nat → Nat × Except Errno (List (Name × Nat))
  | entries, position, used =>
    match errorAt fails position, entries with
    | some error, _ => (position, if used = 0 then .error error else .ok [])
    | none, [] => (position, .ok [])
    | none, entry :: entries =>
      let needed := fuseAddDirentry entry.1
      if needed > size - used then (position + 1, .ok [])
      else
        let (position, reply) := readLoop size fails entries (position + 1) (used + needed)
        (position, reply.map (entry :: ·))

/-- `Tracer::readdir`. -/
def readdir (dir : Stream) (size offset : Nat) (fails : Option (Nat × Errno)) :
    Stream × Except Errno (List (Name × Nat)) :=
  let dir := if offset = 0 then dir.rewinddir else dir.seekdir offset
  let (position, reply) := readLoop size fails (dir.entries.drop dir.position) dir.position 0
  ({ dir with position }, reply)

/-- A request for entries: the size of its reply, where reading fails, and how many entries more
than one its reader keeps. -/
structure Request where
  size : Nat
  fails : Option (Nat × Errno) := none
  keep : Nat := 0

/-- A reader of the stream asks for what follows what it has. -/
def reads (x : Stream × Reading Name) (r : Request) : Stream × Reading Name :=
  let (dir, reply) := x.1.readdir r.size (offsetAfter x.2.read) r.fails
  (dir, x.2.got reply.toOption r.keep)

variable {dir : Stream} {size position used : Nat} {fails : Option (Nat × Errno)}
  {entries page : List (Name × Nat)}

theorem map_eq_ok {β γ : Type} {x : Except Errno β} {f : β → γ} {c : γ} (h : x.map f = .ok c) :
    ∃ b, x = .ok b ∧ f b = c := by
  cases x with
  | error _ => simp [Except.map] at h
  | ok b => exact ⟨b, rfl, Except.ok.inj h⟩

theorem readLoop_of_fails {error : Errno} (h : errorAt fails position = some error) :
    readLoop size fails entries position used =
      (position, if used = 0 then .error error else .ok []) := by
  unfold readLoop
  cases entries with
  | nil => rw [h]
  | cons entry entries => rw [h]

theorem eq_nil_of_fails {error : Errno} (hfails : errorAt fails position = some error)
    (h : (readLoop size fails entries position used).2 = .ok page) : page = [] := by
  rw [readLoop_of_fails hfails] at h
  dsimp only at h
  split at h
  · simp at h
  · exact (Except.ok.inj h).symm

theorem readLoop_nil (h : errorAt fails position = none) :
    readLoop size fails [] position used = (position, .ok []) := by
  simp only [readLoop, h]

theorem readLoop_cons (h : errorAt fails position = none) (entry : Name × Nat) :
    readLoop size fails (entry :: entries) position used =
      if fuseAddDirentry entry.1 > size - used then (position + 1, .ok [])
      else
        let rest := readLoop size fails entries (position + 1) (used + fuseAddDirentry entry.1)
        (rest.1, rest.2.map (entry :: ·)) := by
  simp only [readLoop, h]

theorem readLoop_prefix (h : (readLoop size fails entries position used).2 = .ok page) :
    page <+: entries := by
  induction entries generalizing position used page with
  | nil =>
    cases hfails : errorAt fails position with
    | some error => exact eq_nil_of_fails hfails h ▸ List.nil_prefix
    | none =>
      rw [readLoop_nil hfails] at h
      obtain rfl := Except.ok.inj h
      exact List.nil_prefix
  | cons entry entries ih =>
    cases hfails : errorAt fails position with
    | some error => exact eq_nil_of_fails hfails h ▸ List.nil_prefix
    | none =>
      rw [readLoop_cons hfails] at h
      split at h
      · obtain rfl := Except.ok.inj h
        exact List.nil_prefix
      · obtain ⟨rest, hrest, rfl⟩ := map_eq_ok h
        exact (List.prefix_cons_inj entry).mpr (ih hrest)

/-- The reply is empty only at the end: what fails first is told. -/
theorem readLoop_ends (hfits : Fits size entries)
    (h : (readLoop size fails entries position 0).2 = .ok []) : entries = [] := by
  cases hfails : errorAt fails position with
  | some error => simp [readLoop_of_fails hfails] at h
  | none =>
    cases entries with
    | nil => rfl
    | cons entry entries =>
      have hroom := hfits entry List.mem_cons_self
      rw [readLoop_cons hfails, if_neg (by omega)] at h
      obtain ⟨rest, _, hrest⟩ := map_eq_ok h
      simp at hrest

/-- Where a request finds the stream: after what its reader has. -/
theorem drop_sought (dir : Stream) {read rest : List (Name × Nat)}
    (h : read ++ rest = dir.entries) :
    let sought := if offsetAfter read = 0 then dir.rewinddir else dir.seekdir (offsetAfter read)
    sought.entries.drop sought.position = rest := by
  intro sought
  induction read using List.reverseRecOn with
  | nil => exact h.symm
  | append_singleton read entry =>
    have hmem : entry ∈ dir.entries := by
      rw [← h]
      simp
    have hnonzero : offsetAfter (read ++ [entry]) ≠ 0 := by
      rw [offsetAfter_concat]
      exact dir.nonzero entry hmem
    have hsought : sought = dir.seekdir entry.2 := by
      unfold sought
      rw [if_neg hnonzero, offsetAfter_concat]
    have hdistinct := dir.distinct
    rw [← h, List.append_assoc, List.map_append, List.map_append] at hdistinct
    have hbefore : ∀ other ∈ read, other.2 ≠ entry.2 := by
      intro other hother heq
      have hdisjoint := (List.nodup_append.mp hdistinct).2.2
      exact hdisjoint other.2 (List.mem_map_of_mem hother) entry.2 (by simp) heq
    have hindex : dir.entries.findIdx (fun other => other.2 = entry.2) = read.length := by
      rw [← h, List.append_assoc, List.findIdx_append]
      have hnone : read.findIdx (fun other => decide (other.2 = entry.2)) = read.length := by
        apply List.findIdx_eq_length.mpr
        intro other hother
        simpa using hbefore other hother
      rw [hnone, if_neg (Nat.lt_irrefl _)]
      simp [List.findIdx_cons]
    rw [hsought]
    unfold seekdir
    dsimp only
    rw [hindex, ← h]
    exact List.drop_left' (by simp)

/-- Wherever it was left, a stream's replies are pages of what it reads. -/
theorem readdir_follows (dir : Stream) (x : Reading Name) (hfits : Fits size dir.entries) :
    x.Follows dir.entries (dir.readdir size (offsetAfter x.read) fails).2.toOption := by
  have hreply : ∀ page, (dir.readdir size (offsetAfter x.read) fails).2.toOption = some page →
      (dir.readdir size (offsetAfter x.read) fails).2 = .ok page := by
    intro page hpage
    cases hreply : (dir.readdir size (offsetAfter x.read) fails).2 with
    | error error => simp [hreply, Except.toOption] at hpage
    | ok page' =>
      rw [hreply] at hpage
      rw [Option.some.inj hpage]
  constructor
  · intro rest page hrest hpage
    have hok := hreply page hpage
    unfold readdir at hok
    dsimp only at hok
    rw [drop_sought dir hrest] at hok
    exact readLoop_prefix hok
  · intro rest hrest hpage
    have hok := hreply [] hpage
    unfold readdir at hok
    dsimp only at hok
    rw [drop_sought dir hrest] at hok
    apply readLoop_ends _ hok
    intro entry hentry
    apply hfits
    rw [← hrest]
    exact List.mem_append_right _ hentry

end Stream

end MakeBelieve.ProcessUtil
