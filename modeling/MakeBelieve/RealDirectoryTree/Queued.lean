import MakeBelieve.RealDirectoryTree.State

namespace MakeBelieve.RealDirectoryTree

open Library
open MakeBelieve.Tree (Bytes Commands Hash)

namespace State

variable {contentHash : Bytes → Hash} {cached : Bool}
variable {s : State} {e : Event} {c : Change Name Nat} {lost : Bool} {path : Path} {wd : Wd}

/-! ### Watches -/

/-- Watch descriptors are numbered as they are made, each for one directory, and none is used again
once the kernel has queued that its watch is gone. -/
structure Wired (s : State) : Prop where
  rooted : s.disk.Rooted
  numbered : ∀ i wd, s.watches i = some wd → wd < s.nextWd
  apart : ∀ i j wd, s.watches i = some wd → s.watches j = some wd → i = j
  ignored : ∀ wd, .ignored wd ∈ s.queue → wd < s.nextWd ∧ ∀ i, s.watches i ≠ some wd

theorem Begins.wired (h : s.Begins) : s.Wired :=
  ⟨h.rooted, h.numbered, h.apart, fun wd hwd => by
    rw [h.queue] at hwd
    simp at hwd⟩

/-- A change adds no watch, and what it removes is not watched after. -/
theorem change_watches {i : Inode} (h : (s.change c lost).watches i = some wd) :
    s.watches i = some wd ∧ s.disk.removed c ≠ some i := by
  cases hk : s.disk.removed c with
  | none =>
    simp only [State.change, hk] at h
    exact ⟨h, by simp⟩
  | some k =>
    simp only [State.change, hk, Function.update_apply] at h
    split at h
    · simp at h
    · next hne => exact ⟨h, fun heq => hne (Option.some.inj heq).symm⟩

theorem named_ignored {mask : Mask} {i : Inode} {isDirectory : Bool} {name : Name} :
    .ignored wd ∉ s.named mask i isDirectory name := by
  unfold State.named
  cases s.watches i <;> simp

theorem reported_ignored : .ignored wd ∉ s.reported c := by
  cases c with
  | write i n version =>
    show _ ∉ (if (s.disk.entries i n).isNone then s.named .create i false n else []) ++ _
    split
    · simp [named_ignored]
    · simp [named_ignored]
  | makeDirectory | remove => exact named_ignored
  | rename => simp [State.reported, named_ignored]

theorem Wired.change (h : s.Wired) (ha : s.disk.Allows c) : (s.change c lost).Wired := by
  refine ⟨h.rooted.apply ha, fun i wd hwd => h.numbered i wd (change_watches hwd).1,
    fun i j wd hi hj => h.apart i j wd (change_watches hi).1 (change_watches hj).1,
    fun wd hwd => ?_⟩
  have hqueue : (s.change c lost).queue =
      s.queue ++ if lost then [.overflow] else s.reported c ++ s.unwatched c := rfl
  rw [hqueue] at hwd
  obtain hwd | hwd := List.mem_append.mp hwd
  · obtain ⟨hlt, hnone⟩ := h.ignored wd hwd
    exact ⟨hlt, fun i hi => hnone i (change_watches hi).1⟩
  · split at hwd
    · simp at hwd
    · obtain hwd := (List.mem_append.mp hwd).resolve_left reported_ignored
      unfold State.unwatched at hwd
      simp only [Option.mem_toList, Option.map_eq_some_iff, Option.bind_eq_some_iff,
        InotifyEvent.ignored.injEq, exists_eq_right] at hwd
      obtain ⟨k, hk, hwatched⟩ := hwd
      refine ⟨h.numbered k wd hwatched, fun i hi => ?_⟩
      obtain ⟨hi, hremoved⟩ := change_watches hi
      exact hremoved (h.apart k i wd hwatched hi ▸ hk)

/-- What a directory is watched by once `add_watch` has come to it. -/
theorem addWatch_cases (s : State) :
    ((s.addWatch).watches = s.watches ∧ (s.addWatch).nextWd = s.nextWd ∧
      (s.addWatch).watchDescriptors = s.watchDescriptors) ∨
    ∃ relative i wd, s.lookup relative = some (.directory i) ∧
      (s.addWatch).watches = Function.update s.watches i (some wd) ∧
      (s.addWatch).watchDescriptors = Function.update s.watchDescriptors wd (some relative) ∧
      (s.watches i = some wd ∧ (s.addWatch).nextWd = s.nextWd ∨
        wd = s.nextWd ∧ (s.addWatch).nextWd = s.nextWd + 1) := by
  unfold State.addWatch
  split
  · next relative targets _ =>
    split
    · next i hi =>
      refine .inr ⟨relative, i, (s.watches i).getD s.nextWd, hi, rfl, rfl, ?_⟩
      cases hwatched : s.watches i with
      | none => exact .inr ⟨rfl, rfl⟩
      | some wd => exact .inl ⟨rfl, rfl⟩
    · exact .inl ⟨rfl, rfl, rfl⟩
  · exact .inl ⟨rfl, rfl, rfl⟩

theorem addWatch_queue (s : State) : (s.addWatch).queue = s.queue ∧ (s.addWatch).disk = s.disk ∧
    (s.addWatch).files = s.files ∧ (s.addWatch).overflowed = s.overflowed ∧
    (s.addWatch).tree = s.tree := by
  unfold State.addWatch
  split
  · split <;> exact ⟨rfl, rfl, rfl, rfl, rfl⟩
  · exact ⟨rfl, rfl, rfl, rfl, rfl⟩

theorem Wired.addWatch (h : s.Wired) : (s.addWatch).Wired := by
  obtain ⟨hqueue, hdisk, _⟩ := s.addWatch_queue
  obtain ⟨hwatches, hnext, _⟩ | ⟨_, i, wd, _, hwatches, _, hwd⟩ := s.addWatch_cases
  · refine ⟨hdisk ▸ h.rooted, ?_, ?_, ?_⟩
    · rw [hwatches, hnext]
      exact h.numbered
    · rw [hwatches]
      exact h.apart
    · rw [hqueue, hwatches, hnext]
      exact h.ignored
  · have hle : s.nextWd ≤ (s.addWatch).nextWd := by
      obtain ⟨_, hnext⟩ | ⟨_, hnext⟩ := hwd
      · exact Nat.le_of_eq hnext.symm
      · exact hnext ▸ Nat.le_succ _
    have hlt : wd < (s.addWatch).nextWd := by
      obtain ⟨hold, hnext⟩ | ⟨rfl, hnext⟩ := hwd
      · rw [hnext]
        exact h.numbered i wd hold
      · rw [hnext]
        exact Nat.lt_succ_self _
    -- No other directory has the watch.
    have halone : ∀ j, s.watches j = some wd → j = i := by
      intro j hj
      obtain ⟨hold, _⟩ | ⟨rfl, _⟩ := hwd
      · exact h.apart j i wd hj hold
      · exact absurd (h.numbered j _ hj) (Nat.lt_irrefl _)
    have hcases : ∀ j wd', (s.addWatch).watches j = some wd' →
        j = i ∧ wd' = wd ∨ s.watches j = some wd' ∧ wd' ≠ wd := by
      intro j wd' hj
      rw [hwatches, Function.update_apply] at hj
      split at hj
      · next heq => exact .inl ⟨heq, (Option.some.inj hj).symm⟩
      · next hne => exact .inr ⟨hj, fun heq => hne (halone j (heq ▸ hj))⟩
    refine ⟨hdisk ▸ h.rooted, fun j wd' hj => ?_, fun j k wd' hj hk => ?_, fun wd' hignored => ?_⟩
    · obtain ⟨_, rfl⟩ | ⟨hj, _⟩ := hcases j wd' hj
      · exact hlt
      · exact Nat.lt_of_lt_of_le (h.numbered j wd' hj) hle
    · obtain ⟨rfl, rfl⟩ | ⟨hj, hne⟩ := hcases j wd' hj
      · obtain ⟨rfl, _⟩ | ⟨_, hne⟩ := hcases k _ hk
        · rfl
        · exact absurd rfl hne
      · obtain ⟨_, heq⟩ | ⟨hk, _⟩ := hcases k wd' hk
        · exact absurd heq hne
        · exact h.apart j k wd' hj hk
    · rw [hqueue] at hignored
      obtain ⟨hlt', hnone⟩ := h.ignored wd' hignored
      refine ⟨Nat.lt_of_lt_of_le hlt' hle, fun j hj => ?_⟩
      obtain ⟨_, rfl⟩ | ⟨hj, _⟩ := hcases j wd' hj
      · obtain ⟨hold, _⟩ | ⟨rfl, _⟩ := hwd
        · exact hnone i hold
        · exact absurd hlt' (Nat.lt_irrefl _)
      · exact hnone j hj

theorem readEvent_frame (s : State) : (s.readEvent).disk = s.disk ∧
    (s.readEvent).watches = s.watches ∧ (s.readEvent).nextWd = s.nextWd ∧
    (s.readEvent).queue = s.queue.tail ∧ (s.readEvent).tree = s.tree := by
  unfold State.readEvent
  split
  on_goal 5 =>
    next hqueue => split <;> exact ⟨rfl, rfl, rfl, by rw [hqueue]; rfl, rfl⟩
  all_goals next hqueue => exact ⟨rfl, rfl, rfl, by rw [hqueue]; rfl, rfl⟩

theorem iterate_frame (s : State) (names : List Name) :
    ∃ targets, s.iterate names = { s with targets } := by
  unfold State.iterate
  split
  · exact ⟨_, rfl⟩
  · exact ⟨s.targets, rfl⟩

/-- Attributes change nothing but what is queued. -/
theorem attributes_frame (s : State) (i : Inode) (n : Name) : ∃ new,
    s.attributes i n = { s with queue := s.queue ++ new } ∧ ∀ wd, .ignored wd ∉ new := by
  unfold State.attributes
  dsimp only
  rw [List.append_assoc]
  refine ⟨_, rfl, fun wd hwd => ?_⟩
  replace hwd := (List.mem_append.mp hwd).resolve_left named_ignored
  split at hwd
  · simp at hwd
  · simp at hwd

theorem Wired.step (h : s.Wired) (he : s.enabled e) : (s.step contentHash cached e).Wired := by
  cases e with
  | change c lost => exact h.change he
  | attributes i n =>
    obtain ⟨new, heq, hnew⟩ := s.attributes_frame i n
    show (s.attributes i n).Wired
    rw [heq]
    exact ⟨h.rooted, h.numbered, h.apart, fun wd hwd =>
      h.ignored wd ((List.mem_append.mp hwd).resolve_right (hnew wd))⟩
  | readEvent =>
    obtain ⟨hdisk, hwatches, hnext, hqueue, _⟩ := s.readEvent_frame
    show (s.readEvent).Wired
    refine ⟨hdisk ▸ h.rooted, ?_, ?_, fun wd hwd => ?_⟩
    · rw [hwatches, hnext]
      exact h.numbered
    · rw [hwatches]
      exact h.apart
    · rw [hqueue] at hwd
      rw [hwatches, hnext]
      exact h.ignored wd (List.mem_of_mem_tail hwd)
  | addWatch => exact h.addWatch
  | iterate names =>
    obtain ⟨targets, heq⟩ := s.iterate_frame names
    show (s.iterate names).Wired
    rw [heq]
    exact ⟨h.rooted, h.numbered, h.apart, h.ignored⟩
  | notify rules => exact ⟨h.rooted, h.numbered, h.apart, h.ignored⟩
  | tree e => exact ⟨h.rooted, h.numbered, h.apart, h.ignored⟩

/-! ### Events queued -/

/-- Whether an event is queued that says a path has changed: one of the watch of its directory, which
stays where it is until the event is read. -/
def Queued (s : State) (path : Path) : Prop :=
  ∃ before after wd mask isDirectory name directory,
    s.queue = before ++ .named wd mask isDirectory name :: after ∧
    path = directory ++ [name] ∧ s.watchDescriptors wd = some directory ∧
    .ignored wd ∉ before ∧ wd < s.nextWd ∧
    ∀ i, s.watches i = some wd → s.lookup directory = some (.directory i)

/-- A watched directory that a recorded path is in stays where it is. -/
theorem lookup_kept {directory : Path} {name : Name} {i : Inode} (hr : s.disk.Rooted)
    (ha : s.disk.Allows c) (hread : s.Read (directory ++ [name])) (hok : s.Followed (.change c false))
    (hwatched : (s.change c lost).watches i = some wd)
    (hfind : s.lookup directory = some (.directory i)) :
    (s.change c lost).lookup directory = some (.directory i) := by
  refine Disk.find_directory hr ha hfind (change_watches hwatched).2 ?_
  intro hmoves before j n rest hmem heq hbefore
  obtain ⟨hstays, _⟩ := hok.resolve_left Bool.false_ne_true
  have hnil := hstays hmoves _ hread before j n (rest ++ [name]) hmem (by simp [heq]) hbefore
  simp at hnil

theorem Queued.change (h : s.Queued path) (hr : s.disk.Rooted) (ha : s.disk.Allows c)
    (hread : s.Read path) (hok : s.Followed (.change c false)) : (s.change c lost).Queued path := by
  obtain ⟨before, after, wd, mask, isDirectory, name, directory, hqueue, rfl, hwd, hignored, hlt,
    hlookup⟩ := h
  let new := if lost then [.overflow] else s.reported c ++ s.unwatched c
  refine ⟨before, after ++ new, wd, mask, isDirectory, name, directory, ?_, rfl, hwd, hignored, hlt,
    fun i hi => lookup_kept hr ha hread hok hi (hlookup i (change_watches hi).1)⟩
  show s.queue ++ new = _
  rw [hqueue, List.append_assoc, List.cons_append]

/-- A change of a watched path is reported, if nothing above the path moves. -/
theorem change_queued (h : s.Wired) (ha : s.disk.Allows c) (hread : s.Read path)
    (hok : s.Followed (.change c false))
    (hne : (s.disk.apply c).find Disk.root path ≠ s.lookup path) :
    (s.change c false).Queued path := by
  obtain ⟨hstays, hwatched⟩ := hok.resolve_left Bool.false_ne_true
  obtain ⟨directory, name, i, wd, rfl, hdirectory, hwatch, hwd⟩ := hwatched path hread hne
  -- What has changed is the name itself.
  have htouched : (i, name) ∈ Disk.touched c := by
    obtain ⟨before, j, n, rest, hmem, heq, hbefore, hrest⟩ := Disk.find_apply h.rooted ha hne
    have hnil : rest = [] := hrest.elim id fun hmoves =>
      hstays hmoves _ hread before j n rest hmem heq hbefore
    subst hnil
    obtain ⟨rfl, hn⟩ := List.append_inj' heq rfl
    obtain rfl : name = n := List.head_eq_of_cons_eq hn
    unfold State.lookup at hdirectory
    rw [hdirectory] at hbefore
    obtain rfl := Entry.directory.inj (Option.some.inj hbefore)
    exact hmem
  have hreported : ∃ mask isDirectory, .named wd mask isDirectory name ∈ s.reported c := by
    have hnamed : ∀ mask isDirectory,
        InotifyEvent.named wd mask isDirectory name ∈ s.named mask i isDirectory name := by
      intro mask isDirectory
      simp [State.named, hwatch]
    cases c with
    | write j n version =>
      obtain ⟨rfl, rfl⟩ := Prod.mk.inj (List.mem_singleton.mp htouched)
      exact ⟨_, _, List.mem_append_right _ (hnamed _ _)⟩
    | makeDirectory j n | remove j n =>
      obtain ⟨rfl, rfl⟩ := Prod.mk.inj (List.mem_singleton.mp htouched)
      exact ⟨_, _, hnamed _ _⟩
    | rename j n j' n' =>
      simp only [Disk.touched, List.mem_cons, List.not_mem_nil, or_false, Prod.mk.injEq] at htouched
      obtain ⟨rfl, rfl⟩ | ⟨rfl, rfl⟩ := htouched
      · exact ⟨_, _, List.mem_append_left _ (hnamed _ _)⟩
      · exact ⟨_, _, List.mem_append_right _ (hnamed _ _)⟩
  obtain ⟨mask, isDirectory, hmem⟩ := hreported
  obtain ⟨before, after, hsplit⟩ := List.append_of_mem hmem
  refine ⟨s.queue ++ before, after ++ s.unwatched c, wd, mask, isDirectory, name, directory, ?_, rfl,
    hwd, ?_, h.numbered i wd hwatch, fun j hj => ?_⟩
  · show s.queue ++ (s.reported c ++ s.unwatched c) = _
    rw [hsplit]
    simp
  · intro hignored
    obtain hignored | hignored := List.mem_append.mp hignored
    · exact (h.ignored wd hignored).2 i hwatch
    · refine reported_ignored (?_ : InotifyEvent.ignored wd ∈ s.reported c)
      rw [hsplit]
      exact List.mem_append_left _ hignored
  · obtain rfl := h.apart j i wd (change_watches hj).1 hwatch
    exact lookup_kept h.rooted ha hread hok hj hdirectory

/-- An event that says a path has changed is read, or stays queued. -/
theorem Queued.readEvent (h : s.Queued path) :
    path ∈ (s.readEvent).files ∨ (s.readEvent).Queued path := by
  obtain ⟨before, after, wd, mask, isDirectory, name, directory, hqueue, rfl, hwd, hignored, hlt,
    hlookup⟩ := h
  cases before with
  | nil =>
    left
    simp [State.readEvent, hqueue, hwd]
  | cons event before =>
    right
    obtain ⟨hdisk, hwatches, hnext, htail, _⟩ := s.readEvent_frame
    have hwd' : (s.readEvent).watchDescriptors wd = some directory := by
      rw [← hwd]
      unfold State.readEvent
      rw [hqueue, List.cons_append]
      cases event with
      | ignored wd' =>
        refine Function.update_of_ne ?_ ..
        rintro rfl
        exact hignored List.mem_cons_self
      | named wd' mask' isDirectory' name' =>
        dsimp only
        split <;> rfl
      | _ => rfl
    refine ⟨before, after, wd, mask, isDirectory, name, directory, ?_, rfl, hwd',
      fun hmem => hignored (List.mem_cons_of_mem _ hmem), hnext ▸ hlt, fun i hi => ?_⟩
    · rw [htail, hqueue]
      rfl
    · unfold State.lookup
      rw [hdisk]
      exact hlookup i (hwatches ▸ hi)

/-- A directory that is watched anew has a new watch, or the one it has by the path it has. -/
theorem Queued.addWatch (h : s.Queued path) (hw : s.Wired) : (s.addWatch).Queued path := by
  obtain ⟨before, after, wd, mask, isDirectory, name, directory, hqueue, rfl, hwd, hignored, hlt,
    hlookup⟩ := h
  obtain ⟨hqueue', hdisk, _⟩ := s.addWatch_queue
  have hlookup' : ∀ path, (s.addWatch).lookup path = s.lookup path := by
    intro path
    unfold State.lookup
    rw [hdisk]
  obtain ⟨hwatches, hnext, hdescriptors⟩ | ⟨relative, i, wd', hfind, hwatches, hdescriptors, hwd'⟩ :=
    s.addWatch_cases
  · exact ⟨before, after, wd, mask, isDirectory, name, directory, hqueue' ▸ hqueue, rfl,
      hdescriptors ▸ hwd, hignored, hnext ▸ hlt, fun i hi => by
        rw [hlookup']
        exact hlookup i (hwatches ▸ hi)⟩
  · -- The watch is the event's only if the directory is.
    have hsame : wd' = wd → relative = directory := by
      rintro rfl
      obtain ⟨hold, _⟩ | ⟨rfl, _⟩ := hwd'
      · exact hw.rooted.find_inj hfind (hlookup i hold)
      · exact absurd hlt (Nat.lt_irrefl _)
    refine ⟨before, after, wd, mask, isDirectory, name, directory, hqueue' ▸ hqueue, rfl, ?_, hignored,
      ?_, fun j hj => ?_⟩
    · rw [hdescriptors, Function.update_apply]
      split
      · next heq => rw [hsame heq.symm]
      · exact hwd
    · obtain ⟨_, hnext⟩ | ⟨_, hnext⟩ := hwd'
      · exact hnext ▸ hlt
      · exact hnext ▸ Nat.lt_succ_of_lt hlt
    · rw [hlookup']
      rw [hwatches, Function.update_apply] at hj
      split at hj
      · next heq =>
        rw [heq, ← hsame (Option.some.inj hj)]
        exact hfind
      · exact hlookup j hj

end State

end MakeBelieve.RealDirectoryTree
