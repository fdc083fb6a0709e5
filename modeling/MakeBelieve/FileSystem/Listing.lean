import Mathlib.Logic.Function.Basic
import MakeBelieve.FuseDirent
import MakeBelieve.Library.Machine

namespace MakeBelieve.FileSystem.Listing

open Library

abbrev HandleId := Nat

/-- `FileHandle`: the path it was opened for and, for a directory, the names it lists. -/
structure FileHandle where
  path : Path
  names : List Name

/-- The handles of the filesystem, of files and of directories alike. -/
structure State where
  lastHandle : HandleId := 0
  handles : HandleId → Option FileHandle := fun _ => none

def State.retain (s : State) (handle : FileHandle) : State × HandleId :=
  let result := s.lastHandle + 1
  ({ lastHandle := result
     handles :=
       if (s.handles result).isSome then s.handles
       else Function.update s.handles result (some handle) }, result)

def State.drop (s : State) (handle : HandleId) : State :=
  { s with handles := Function.update s.handles handle none }

/-- What a directory lists before what the tree has in it. -/
def dots : List Name := [['.'], ['.', '.']]

/-- `opendir`, given what `ls` has of the path; without a handle, its error is the reply. A reply
that does not reach the kernel has its handle dropped. -/
def State.opendir (s : State) (path : Path) (entries : Except ErrorCode (List Name))
    (delivered : Bool) : State × Option HandleId :=
  match entries with
  | .error _ => (s, none)
  | .ok names =>
    let (s, handle) := s.retain { path, names := dots ++ names }
    if delivered then (s, some handle) else (s.drop handle, none)

/-- What an open does with its handle. -/
def State.openFile (s : State) (path : Path) (delivered : Bool) : State × Option HandleId :=
  let (s, handle) := s.retain { path, names := [] }
  if delivered then (s, some handle) else (s.drop handle, none)

/-- The reply of `readdir`, or none where there is no such handle. -/
def State.readdir (s : State) (handle : HandleId) (size offset : Nat) :
    Option (List (Name × Nat)) :=
  (s.handles handle).map fun directory =>
    fillReply size ((directory.names.zipIdx 1).drop offset) 0

inductive Event
  | opendir (path : Path) (entries : Except ErrorCode (List Name)) (delivered : Bool)
  | openFile (path : Path) (delivered : Bool)
  /-- The reader of a directory asks for what follows what it has, in a reply of this size, and
  takes one entry of it and up to `keep` more. -/
  | readdir (handle : HandleId) (size keep : Nat)
  | rewind (handle : HandleId)
  | release (handle : HandleId)

def State.step (s : State) : Event → State
  | .opendir path entries delivered => (s.opendir path entries delivered).1
  | .openFile path delivered => (s.openFile path delivered).1
  | .readdir _ _ _ => s
  | .rewind _ => s
  | .release handle => s.drop handle

/-- The handles the kernel holds: for a directory's, what `ls` had when it was opened, and what its
reader has got. -/
abbrev Held := HandleId → Option (Option (List Name × Reading Name))

def noteHeld (s : State) : Event → Held → Held
  | .opendir path entries delivered, held =>
    match (s.opendir path entries delivered).2, entries with
    | some handle, .ok names => Function.update held handle (some (some (names, {})))
    | _, _ => held
  | .openFile path delivered, held =>
    match (s.openFile path delivered).2 with
    | some handle => Function.update held handle (some none)
    | none => held
  | .readdir handle size keep, held =>
    match held handle with
    | some (some (names, x)) =>
      let reply := s.readdir handle size (offsetAfter x.read)
      Function.update held handle (some (some (names, x.got reply keep)))
    | _ => held
  | .rewind handle, held =>
    match held handle with
    | some (some (names, _)) => Function.update held handle (some (some (names, {})))
    | _ => held
  | .release handle, held => Function.update held handle none

/-- The kernel releases and reads what it holds, with room for any one entry in each reply. -/
def enabled (s : State × Held) : Event → Prop
  | .opendir _ _ _ | .openFile _ _ => True
  | .readdir handle size _ =>
    ∃ directory, s.1.handles handle = some directory ∧ Fits size (directory.names.zipIdx 1) ∧
      ∃ entry, s.2 handle = some (some entry)
  | .rewind handle => ∃ entry, s.2 handle = some (some entry)
  | .release handle => (s.2 handle).isSome = true

def machine : Machine (State × Held) Event where
  init s := s = ({}, fun _ => none)
  enabled := enabled
  step s e := (s.1.step e, noteHeld s.1 e s.2)

variable {s : State} {held : Held}

/-- What follows what a reader has, at the offset it asks for. -/
theorem drop_offsetAfter {names : List Name} {read rest : List (Name × Nat)}
    (h : read ++ rest = names.zipIdx 1) : (names.zipIdx 1).drop (offsetAfter read) = rest := by
  have hoffset : offsetAfter read = read.length := by
    induction read using List.reverseRecOn with
    | nil => simp
    | append_singleton read entry =>
      rw [offsetAfter_concat]
      have hentry : (names.zipIdx 1)[read.length]? = some entry := by
        rw [← h]
        simp
      rw [List.getElem?_zipIdx, Option.map_eq_some_iff] at hentry
      obtain ⟨name, _, rfl⟩ := hentry
      simp [Nat.add_comm]
  rw [hoffset, ← h, List.drop_left]

/-- A directory's replies are pages of its names. -/
theorem readdir_follows {handle : HandleId} {directory : FileHandle} {size : Nat}
    {x : Reading Name} (hdirectory : s.handles handle = some directory)
    (hfits : Fits size (directory.names.zipIdx 1)) :
    x.Follows (directory.names.zipIdx 1) (s.readdir handle size (offsetAfter x.read)) := by
  unfold State.readdir
  rw [hdirectory, Option.map_some]
  constructor
  · intro rest page hrest hpage
    rw [drop_offsetAfter hrest] at hpage
    obtain rfl := Option.some.inj hpage
    exact fillReply_prefix size rest
  · intro rest hrest hpage
    rw [drop_offsetAfter hrest] at hpage
    have hrestFits : Fits size rest := by
      intro entry hentry
      apply hfits
      rw [← hrest]
      exact List.mem_append_right _ hentry
    exact fillReply_eq_nil hrestFits (Option.some.inj hpage)

/-- What is held is there, with a number given out already, and lists what it was opened on. -/
structure Kept (s : State) (held : Held) : Prop where
  numbered : ∀ handle, (s.handles handle).isSome = true → handle ≤ s.lastHandle
  there : ∀ handle, (held handle).isSome = true → (s.handles handle).isSome = true
  lists : ∀ handle names x, held handle = some (some (names, x)) →
    (s.handles handle).map FileHandle.names = some (dots ++ names) ∧
      x.Right ((dots ++ names).zipIdx 1)

theorem Kept.unused (h : Kept s held) : s.handles (s.lastHandle + 1) = none := by
  rw [← Option.not_isSome_iff_eq_none]
  intro hsome
  exact Nat.not_succ_le_self _ (h.numbered _ hsome)

theorem Kept.unheld (h : Kept s held) : held (s.lastHandle + 1) = none := by
  rw [← Option.not_isSome_iff_eq_none]
  intro hsome
  have hthere := h.there _ hsome
  rw [h.unused] at hthere
  simp at hthere

theorem Kept.retain_fst (h : Kept s held) (handle : FileHandle) :
    (s.retain handle).1 =
      { lastHandle := s.lastHandle + 1
        handles := Function.update s.handles (s.lastHandle + 1) (some handle) } := by
  unfold State.retain
  simp [h.unused]

/-- A handle given out, with what is noted of it. -/
theorem Kept.retain (h : Kept s held) (handle : FileHandle)
    (entry : Option (List Name × Reading Name))
    (hentry : ∀ names x, entry = some (names, x) →
      handle.names = dots ++ names ∧ x.Right ((dots ++ names).zipIdx 1)) :
    Kept (s.retain handle).1 (Function.update held (s.lastHandle + 1) (some entry)) := by
  rw [h.retain_fst]
  constructor
  · intro other hother
    dsimp only at hother ⊢
    by_cases heq : other = s.lastHandle + 1
    · exact Nat.le_of_eq heq
    · rw [Function.update_of_ne heq] at hother
      exact Nat.le_succ_of_le (h.numbered _ hother)
  · intro other hother
    dsimp only
    by_cases heq : other = s.lastHandle + 1
    · rw [heq, Function.update_self]
      rfl
    · rw [Function.update_of_ne heq] at hother ⊢
      exact h.there _ hother
  · intro other names x hother
    dsimp only
    by_cases heq : other = s.lastHandle + 1
    · rw [heq, Function.update_self] at hother ⊢
      obtain ⟨hnames, hright⟩ := hentry names x (Option.some.inj hother)
      rw [Option.map_some, hnames]
      exact ⟨rfl, hright⟩
    · rw [Function.update_of_ne heq] at hother ⊢
      exact h.lists _ _ _ hother

/-- A handle dropped, of which nothing is held. -/
theorem Kept.drop (h : Kept s held) (handle : HandleId) :
    Kept (s.drop handle) (Function.update held handle none) := by
  unfold State.drop
  constructor
  · intro other hother
    dsimp only at hother ⊢
    by_cases heq : other = handle
    · rw [heq, Function.update_self] at hother
      simp at hother
    · rw [Function.update_of_ne heq] at hother
      exact h.numbered _ hother
  · intro other hother
    dsimp only
    by_cases heq : other = handle
    · rw [heq, Function.update_self] at hother
      simp at hother
    · rw [Function.update_of_ne heq] at hother ⊢
      exact h.there _ hother
  · intro other names x hother
    dsimp only
    by_cases heq : other = handle
    · rw [heq, Function.update_self] at hother
      simp at hother
    · rw [Function.update_of_ne heq] at hother ⊢
      exact h.lists _ _ _ hother

/-- A handle the kernel never comes to hold. -/
theorem Kept.lost (h : Kept s held) (handle : FileHandle) :
    Kept ((s.retain handle).1.drop (s.lastHandle + 1)) held := by
  have hkept := (h.retain handle none (by simp)).drop (s.lastHandle + 1)
  have hheld : Function.update held (s.lastHandle + 1) none = held := by
    apply Function.update_eq_self_iff.mpr
    exact h.unheld.symm
  rw [Function.update_idem, hheld] at hkept
  exact hkept

/-- A reader that gets a reply, or begins again. -/
theorem Kept.reads (h : Kept s held) {handle : HandleId} {names : List Name} {x y : Reading Name}
    (hheld : held handle = some (some (names, x))) (hy : y.Right ((dots ++ names).zipIdx 1)) :
    Kept s (Function.update held handle (some (some (names, y)))) := by
  constructor
  · exact h.numbered
  · intro other hother
    by_cases heq : other = handle
    · apply h.there
      rw [heq, hheld]
      rfl
    · rw [Function.update_of_ne heq] at hother
      exact h.there _ hother
  · intro other names' x' hother
    by_cases heq : other = handle
    · rw [heq, Function.update_self] at hother
      simp only [Option.some.injEq, Prod.mk.injEq] at hother
      obtain ⟨rfl, rfl⟩ := hother
      rw [heq]
      exact ⟨(h.lists _ _ _ hheld).1, hy⟩
    · rw [Function.update_of_ne heq] at hother
      exact h.lists _ _ _ hother

theorem Kept.step (h : Kept s held) {e : Event} (he : enabled (s, held) e) :
    Kept (s.step e) (noteHeld s e held) := by
  cases e with
  | opendir path entries delivered =>
    cases entries with
    | error _ => exact h
    | ok names =>
      cases delivered with
      | false => exact h.lost _
      | true =>
        apply h.retain
        intro names' x heq
        simp only [Option.some.injEq, Prod.mk.injEq] at heq
        obtain ⟨rfl, rfl⟩ := heq
        exact ⟨rfl, .start⟩
  | openFile path delivered =>
    cases delivered with
    | false => exact h.lost _
    | true =>
      apply h.retain
      intro names x heq
      simp at heq
  | readdir handle size keep =>
    obtain ⟨directory, hdirectory, hfits, ⟨names, x⟩, hheld⟩ := he
    have hlists := h.lists _ _ _ hheld
    have hnames : directory.names = dots ++ names := by
      rw [hdirectory] at hlists
      exact Option.some.inj hlists.1
    have hfollows := readdir_follows (x := x) hdirectory hfits
    rw [hnames] at hfollows
    dsimp only at hheld
    dsimp only [State.step, noteHeld]
    rw [hheld]
    exact h.reads hheld (hlists.2.got hfollows keep)
  | rewind handle =>
    obtain ⟨⟨names, x⟩, hheld⟩ := he
    dsimp only at hheld
    dsimp only [State.step, noteHeld]
    rw [hheld]
    exact h.reads hheld .start
  | release handle => exact h.drop handle

def fires (s : State × Held) : Event → Bool
  | .opendir _ _ _ | .openFile _ _ => true
  | .readdir handle size _ =>
    match s.1.handles handle, s.2 handle with
    | some directory, some (some _) => decide (Fits size (directory.names.zipIdx 1))
    | _, _ => false
  | .rewind handle =>
    match s.2 handle with
    | some (some _) => true
    | _ => false
  | .release handle => (s.2 handle).isSome

theorem enabled_of_fires (s : State × Held) (e : Event) (h : fires s e = true) :
    enabled s e ∧ True := by
  refine ⟨?_, trivial⟩
  unfold fires at h
  cases e with
  | opendir | openFile => trivial
  | readdir handle size keep =>
    dsimp only at h
    split at h
    · next directory entry hdirectory hheld =>
      exact ⟨directory, hdirectory, of_decide_eq_true h, entry, hheld⟩
    · simp at h
  | rewind handle =>
    dsimp only at h
    split at h
    · next entry hheld => exact ⟨entry, hheld⟩
    · simp at h
  | release handle => exact h

end MakeBelieve.FileSystem.Listing
