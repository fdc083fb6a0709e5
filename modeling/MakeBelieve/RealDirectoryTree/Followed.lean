import MakeBelieve.RealDirectoryTree.Queued
import MakeBelieve.Tree.Fires

namespace MakeBelieve.RealDirectoryTree

open Library
open MakeBelieve.Tree (Bytes Commands Hash World)
open MakeBelieve.Tree.World (declaresTwo ends)

namespace State

variable {contentHash : Bytes → Hash} {cached : Bool}
variable {s : State} {e : Event} {c : Change Name Nat} {o path : Path}

/-! ### The build tree -/

/-- What an event does is nothing to the build tree, or one event of it. -/
theorem step_tree (he : s.enabled e) : (s.step contentHash cached e).tree = s.tree ∨
    ∃ e', s.tree.enabled e' ∧
      (s.step contentHash cached e).tree = s.tree.step contentHash cached e' ∧
      ∀ b, e' = .settle b → e = .tree (.settle b) := by
  cases e with
  | change | attributes => exact .inl rfl
  | readEvent => exact .inl s.readEvent_frame.2.2.2.2
  | addWatch => exact .inl s.addWatch_queue.2.2.2.2
  | iterate names =>
    obtain ⟨targets, heq⟩ := s.iterate_frame names
    exact .inl (show (s.iterate names).tree = s.tree from by rw [heq])
  | notify rules =>
    exact .inr ⟨.sourceChange s.overflowed s.files rules, he.2.2, rfl, fun _ h => by simp at h⟩
  | tree e => exact .inr ⟨e, he.2, rfl, fun _ h => by rw [h]⟩

theorem reachable_tree {ok : State → Event → Prop} (h : (machine contentHash cached).Reachable ok s) :
    (World.machine contentHash cached).Reachable (fun _ _ => True) s.tree := by
  induction h with
  | start h => exact .start h.2
  | @next s e _ he _ ih =>
    obtain heq | ⟨e', he', heq, _⟩ := @step_tree contentHash cached s e he
    · exact heq ▸ ih
    · exact heq ▸ ih.next he' trivial

theorem wired {ok : State → Event → Prop} (h : (machine contentHash cached).Reachable ok s) :
    s.Wired :=
  h.invariant (P := State.Wired) (fun _ (hinit : _ ∧ _) => hinit.1.wired) fun _ _ hw he _ => hw.step he

/-! ### What becomes of a change -/

/-- Whether it is on its way to the build tree that a path has changed. -/
def OnItsWay (s : State) (path : Path) : Prop :=
  s.tree.ToCollect path ∨ s.overflowed = true ∨ .overflow ∈ s.queue ∨ path ∈ s.files ∨ s.Queued path

/-- Whether an output is due, or will be once what is on its way arrives. -/
def Bound (s : State) (output : Path) : Prop :=
  s.tree.Due output ∨
    ∃ path ∈ Tree.State.membersOf s.tree.tree.dependencies output, s.OnItsWay path

theorem OnItsWay.change (h : s.OnItsWay path) (hw : s.Wired) (ha : s.disk.Allows c) (lost : Bool)
    (hread : s.Read path) (hok : s.Followed (.change c lost)) : (s.change c lost).OnItsWay path := by
  obtain hcollect | hoverflowed | hoverflow | hfile | hqueued := h
  · exact .inl hcollect
  · exact .inr (.inl hoverflowed)
  · exact .inr (.inr (.inl (List.mem_append_left _ hoverflow)))
  · exact .inr (.inr (.inr (.inl hfile)))
  · cases lost with
    | true => exact .inr (.inr (.inl (List.mem_append_right _ List.mem_cons_self)))
    | false => exact .inr (.inr (.inr (.inr (hqueued.change hw.rooted ha hread hok))))

theorem OnItsWay.attributes (h : s.OnItsWay path) {i : Inode} {n : Name} :
    (s.attributes i n).OnItsWay path := by
  obtain ⟨new, heq, _⟩ := s.attributes_frame i n
  rw [heq]
  obtain hcollect | hoverflowed | hoverflow | hfile | hqueued := h
  · exact .inl hcollect
  · exact .inr (.inl hoverflowed)
  · exact .inr (.inr (.inl (List.mem_append_left _ hoverflow)))
  · exact .inr (.inr (.inr (.inl hfile)))
  · refine .inr (.inr (.inr (.inr ?_)))
    obtain ⟨before, after, wd, mask, isDirectory, name, directory, hqueue, rest⟩ := hqueued
    refine ⟨before, after ++ new, wd, mask, isDirectory, name, directory, ?_, rest⟩
    show s.queue ++ new = _
    rw [hqueue, List.append_assoc, List.cons_append]

theorem OnItsWay.addWatch (h : s.OnItsWay path) (hw : s.Wired) : (s.addWatch).OnItsWay path := by
  obtain ⟨hqueue, _, hfiles, hoverflowed, htree⟩ := s.addWatch_queue
  unfold OnItsWay
  rw [hqueue, hfiles, hoverflowed, htree]
  exact h.imp_right (Or.imp_right (Or.imp_right (Or.imp_right fun hqueued => hqueued.addWatch hw)))

/-- What has been read of the queue goes to the build tree, and what has not stays. -/
theorem OnItsWay.notify (h : s.OnItsWay path) {rules : Option Commands}
    (he : s.enabled (.notify rules)) : (s.notify contentHash cached rules).OnItsWay path := by
  have hcollected : s.overflowed = true ∨ path ∈ s.files →
      (s.notify contentHash cached rules).tree.ToCollect path := fun hor =>
    ⟨s.overflowed, s.files, List.mem_append_right _ List.mem_cons_self, hor⟩
  obtain hcollect | hoverflowed | hoverflow | hfile | hqueued := h
  · obtain ⟨_, _, hmem, _⟩ := hcollect
    rw [he.2.2] at hmem
    simp at hmem
  · exact .inl (hcollected (.inl hoverflowed))
  · exact .inr (.inr (.inl hoverflow))
  · exact .inl (hcollected (.inr hfile))
  · exact .inr (.inr (.inr (.inr hqueued)))

theorem OnItsWay.readEvent (h : s.OnItsWay path) : (s.readEvent).OnItsWay path := by
  obtain hcollect | hoverflowed | hoverflow | hfile | hqueued := h
  · exact .inl (s.readEvent_frame.2.2.2.2 ▸ hcollect)
  · refine .inr (.inl ?_)
    unfold State.readEvent
    split
    on_goal 5 => split
    all_goals first | exact hoverflowed | rfl
  · obtain ⟨event, queue, hqueue⟩ := List.exists_cons_of_ne_nil (List.ne_nil_of_mem hoverflow)
    rw [hqueue] at hoverflow
    obtain rfl | hoverflow := List.mem_cons.mp hoverflow
    · refine .inr (.inl ?_)
      unfold State.readEvent
      rw [hqueue]
    · refine .inr (.inr (.inl ?_))
      rw [s.readEvent_frame.2.2.2.1, hqueue]
      exact hoverflow
  · refine .inr (.inr (.inr (.inl ?_)))
    unfold State.readEvent
    split
    on_goal 5 => split
    on_goal 6 => exact List.mem_insert_of_mem hfile
    all_goals exact hfile
  · obtain hfile | hqueued := hqueued.readEvent
    · exact .inr (.inr (.inr (.inl hfile)))
    · exact .inr (.inr (.inr (.inr hqueued)))

/-- An output that is bound to be due stays so until a build of it ends. -/
theorem Bound.step (h : s.Bound o) (hw : s.Wired) (hs : World.Sound s.tree)
    (ho : World.Orderly s.tree) (hi : s.tree.tree.Inverse) (he : s.enabled e) (hok : s.Followed e)
    (hsettle : ∀ b, e = .tree (.settle b) → (s.tree.builds b).launch.output ≠ o) :
    (s.step contentHash cached e).Bound o := by
  obtain hdue | ⟨path, hmem, hway⟩ := h
  · left
    obtain heq | ⟨e', he', heq, hsettled⟩ := @step_tree contentHash cached s e he
    · exact heq ▸ hdue
    · rw [heq]
      exact hdue.step hs ho he' fun b hb => hsettle b (hsettled b hb)
  · cases e with
    | change c lost =>
      exact .inr ⟨path, hmem, hway.change hw he lost ⟨o, hmem⟩ hok⟩
    | attributes i n => exact .inr ⟨path, hmem, hway.attributes⟩
    | readEvent =>
      refine .inr ⟨path, ?_, hway.readEvent⟩
      show path ∈ Tree.State.membersOf (s.readEvent).tree.tree.dependencies o
      rw [s.readEvent_frame.2.2.2.2]
      exact hmem
    | addWatch =>
      refine .inr ⟨path, ?_, hway.addWatch hw⟩
      show path ∈ Tree.State.membersOf (s.addWatch).tree.tree.dependencies o
      rw [s.addWatch_queue.2.2.2.2]
      exact hmem
    | iterate names =>
      obtain ⟨targets, heq⟩ := s.iterate_frame names
      show (s.iterate names).Bound o
      rw [heq]
      exact .inr ⟨path, hmem, hway⟩
    | notify rules => exact .inr ⟨path, hmem, hway.notify he⟩
    | tree e =>
      obtain hmem' | hdue := @World.Sound.dependencies_kept contentHash cached s.tree o path e hs he.2
        hmem fun b hb => hsettle b (by rw [hb])
      · obtain hcollect | hrest := hway
        · obtain hcollect | hdue := @World.ToCollect.step contentHash cached s.tree o path e hcollect hi
            he.2 hmem
          · exact .inr ⟨path, hmem', .inl hcollect⟩
          · exact .inl hdue
        · exact .inr ⟨path, hmem', .inr hrest⟩
      · exact .inl hdue

/-- An output whose last build a change leaves outdated is bound to be due. -/
theorem change_bound (hw : s.Wired) (hr : World.Recorded s.tree) (ha : s.disk.Allows c) (lost : Bool)
    (hok : s.Followed (.change c lost)) (hread : path ∈ s.tree.readBy o)
    (hne : (s.disk.apply c).find Disk.root path ≠ s.lookup path) : (s.change c lost).Bound o := by
  by_cases hdue : s.tree.Due o
  · exact .inl hdue
  · obtain ⟨hcurrent, hidle, _⟩ : ¬World.OutOfDate s.tree.tree o ∧ _ ∧ _ := by
      simpa [World.Due, not_or] using hdue
    have hdeclared : s.tree.tree.declared o = true ∧ s.tree.tree.stale o = false := by
      simpa [World.OutOfDate] using hcurrent
    have hmem := hr.idle o hdeclared.1 hdeclared.2 hidle path hread
    refine .inr ⟨path, hmem, ?_⟩
    cases lost with
    | true => exact .inr (.inr (.inl (List.mem_append_right _ List.mem_cons_self)))
    | false => exact .inr (.inr (.inr (.inr (change_queued hw ha ⟨o, hmem⟩ hok hne))))

/-- Nothing is on its way once all is drained. -/
theorem Bound.due (h : s.Bound o) (hdrained : s.Drained) : s.tree.Due o := by
  obtain hdue | ⟨path, _, hcollect | hoverflowed | hoverflow | hfile | hqueued⟩ := h
  · exact hdue
  · obtain ⟨_, _, hmem, _⟩ := hcollect
    rw [hdrained.todo] at hmem
    simp at hmem
  · rw [hdrained.overflowed] at hoverflowed
    simp at hoverflowed
  · rw [hdrained.queue] at hoverflow
    simp at hoverflow
  · rw [hdrained.files] at hfile
    simp at hfile
  · obtain ⟨before, _, _, _, _, _, _, hqueue, _⟩ := hqueued
    rw [hdrained.queue] at hqueue
    simp at hqueue

end State

variable {contentHash : Bytes → Hash} {cached : Bool} {s : State × (Path → Bool)} {o : Path}

theorem outdated_bound
    (h : (outdating contentHash cached).Reachable (fun s e => s.1.Followed e) s) :
    ∀ o, s.2 o = true → s.1.Bound o := by
  refine h.invariant_under (P := fun s => ∀ o, s.2 o = true → s.1.Bound o)
    (Q := fun s => (machine contentHash cached).Reachable (fun _ _ => True) s.1)
    (fun _ h => h.unnoted) ?_ ?_
  · intro s hinit o ho
    rw [hinit.2] at ho
    simp at ho
  · intro s e hreach hbound he hok o ho
    have hw := State.wired hreach
    have htree := State.reachable_tree hreach
    have hkept : s.2 o = true →
        (∀ b, e = .tree (.settle b) → (s.1.tree.builds b).launch.output ≠ o) →
        (s.1.step contentHash cached e).Bound o := fun ho hsettle =>
      (hbound o ho).step hw (World.sound htree) (World.orderly htree) (World.inverse htree) he hok
        hsettle
    change noteOutdated s.1 e s.2 o = true at ho
    unfold noteOutdated at ho
    split at ho
    · next c lost =>
      rw [Bool.or_eq_true] at ho
      obtain ho | ho := ho
      · exact hkept ho fun b heq => by simp at heq
      · obtain ⟨path, hread, hne⟩ := List.any_eq_true.mp ho
        exact State.change_bound hw (World.recorded htree) he lost hok hread (of_decide_eq_true hne)
    · next b =>
      rw [Function.update_apply] at ho
      split at ho
      · simp at ho
      · next hne =>
        refine hkept ho fun c heq => ?_
        obtain rfl := Tree.Event.settle.inj (Event.tree.inj heq)
        exact Ne.symm hne
    · next hnot => exact hkept ho fun b heq => absurd heq (hnot b)

/-- Once every change is drained, what is idle of a build that one has outdated is stale, as long as
no directory that something was read beneath moves and what was read changes only where it is
watched. -/
theorem changes_followed (h : (outdating contentHash cached).Reachable (fun s e => s.1.Followed e) s)
    (hdrained : s.1.Drained) (hd : s.1.tree.tree.declared o = true)
    (hidle : s.1.tree.tree.inFlight o = false) (ho : s.2 o = true) :
    s.1.tree.tree.stale o = true := by
  obtain hout | hflight | ⟨_, _, hmem, _⟩ := (outdated_bound h o ho).due hdrained
  · exact hout hd
  · rw [hidle] at hflight
    simp at hflight
  · rw [hdrained.todo] at hmem
    simp at hmem

/-! ### Runs -/

namespace State

variable {s : State} {e : Event} {c : Change Name Nat} {lost : Bool}

/-- While every directory is watched by the path it has, a change that moves none is followed. -/
theorem followed_of_watched (hr : s.disk.Rooted) (ha : s.disk.Allows c)
    (hall : ∀ path i, s.lookup path = some (.directory i) →
      ∃ wd, s.watches i = some wd ∧ s.watchDescriptors wd = some path)
    (hstays : ¬s.disk.Moves c) : s.Followed (.change c lost) := by
  refine .inr ⟨fun hmoves => absurd hmoves hstays, fun path _ hne => ?_⟩
  obtain ⟨before, j, n, rest, _, rfl, hbefore, hrest⟩ := Disk.find_apply hr ha hne
  obtain rfl := hrest.resolve_right hstays
  obtain ⟨wd, hwatch, hwd⟩ := hall before j hbefore
  exact ⟨before, n, j, wd, rfl, hbefore, hwatch, hwd⟩

/-- Whether a step of the watch or of the build tree is seen to be enabled. -/
def fires (s : State) : Event → Bool
  | .readEvent => !s.queue.isEmpty && s.targets.isEmpty && s.tree.todo.isEmpty
  | .notify _ => s.targets.isEmpty &&
      (s.overflowed || !s.files.isEmpty || !s.directories.isEmpty) && s.tree.todo.isEmpty
  | .tree (.sourceChange ..) => false
  | .tree e => s.tree.fires e
  | _ => false

theorem enabled_of_fires (h : s.fires e = true) : s.enabled e := by
  cases e with
  | readEvent => simpa [fires, enabled, and_assoc] using h
  | notify rules => simpa [fires, enabled, and_assoc, or_assoc] using h
  | tree e =>
    cases e with
    | sourceChange => simp [fires] at h
    | _ => exact ⟨fun d p r heq => by simp at heq, World.enabled_of_fires h⟩
  | _ => simp [fires] at h

def allFire (contentHash : Bytes → Hash) (cached : Bool) : State → List Event → Bool
  | _, [] => true
  | s, e :: es => s.fires e && allFire contentHash cached (s.step contentHash cached e) es

end State

theorem fires_of_allFire {ok : State × (Path → Bool) → Event → Prop} {s : State × (Path → Bool)}
    {es : List Event} (hok : ∀ s e, s.1.fires e = true → ok s e)
    (h : s.1.allFire contentHash cached es = true) : (outdating contentHash cached).Fires ok s es := by
  induction es generalizing s with
  | nil => trivial
  | cons e es ih =>
    rw [State.allFire, Bool.and_eq_true] at h
    exact ⟨State.enabled_of_fires h.1, hok s e h.1, ih h.2⟩

theorem runs_disk {s : State × (Path → Bool)} {es : List Event}
    (h : s.1.allFire contentHash cached es = true) :
    ((outdating contentHash cached).runs s es).1.disk = s.1.disk := by
  induction es generalizing s with
  | nil => rfl
  | cons e es ih =>
    rw [State.allFire, Bool.and_eq_true] at h
    refine (@ih ((outdating contentHash cached).step s e) h.2).trans ?_
    show (s.1.step contentHash cached e).disk = _
    cases e with
    | readEvent => exact s.1.readEvent_frame.1
    | notify | tree => rfl
    | _ => simp [State.fires] at h

/-- A source directory with one file in a directory, both watched, and a build tree. There is a
directory elsewhere. -/
def holdsX (tree : World) : State where
  disk :=
    { entries := fun i n => if i = 0 ∧ n = ['d'] then some (.directory 1) else
        if i = 1 ∧ n = ['x'] then some (.file 0) else none
      live := fun i => i < 3
      nextInode := 3 }
  watches i := if i < 2 then some i else none
  nextWd := 2
  watchDescriptors wd := if wd = 0 then some [] else if wd = 1 then some [['d']] else none
  tree

theorem holdsX_begins (tree : World) : (holdsX tree).Begins := by
  refine ⟨⟨?_, ?_, ?_, ?_, Nat.zero_lt_succ 2, ?_⟩, ?_, ?_, ?_, rfl, rfl, rfl, rfl, rfl⟩
  · intro i n j m k hi hj
    simp only [holdsX] at hi hj
    grind
  · intro i n hi
    simp only [holdsX] at hi
    grind [Disk.root]
  · intro i n k hi
    simp only [holdsX] at hi ⊢
    grind
  · intro i hi
    simpa [holdsX] using hi
  · intro i hi n
    simp only [holdsX] at hi ⊢
    grind
  · intro path i hfind
    unfold State.lookup at hfind
    match path with
    | [] =>
      obtain rfl := Entry.directory.inj (Option.some.inj hfind)
      exact ⟨0, rfl, rfl⟩
    | n :: path =>
      by_cases hn : n = ['d']
      · subst hn
        match path with
        | [] =>
          obtain rfl := Entry.directory.inj (Option.some.inj hfind)
          exact ⟨1, rfl, rfl⟩
        | m :: path =>
          by_cases hm : m = ['x']
          · subst hm
            cases path <;> simp [Disk.find, holdsX, Disk.root] at hfind
          · simp [Disk.find, holdsX, Disk.root, hm] at hfind
      · simp [Disk.find, holdsX, Disk.root, hn] at hfind
  · intro i wd hwd
    simp only [holdsX] at hwd ⊢
    grind
  · intro i j wd hi hj
    simp only [holdsX] at hi hj
    grind

theorem holdsX_reachable {ok : State × (Path → Bool) → Event → Prop} {tree : World}
    (h : World.Starts contentHash cached tree) :
    (outdating contentHash cached).Reachable ok (holdsX tree, fun _ => false) :=
  .start ⟨⟨holdsX_begins tree, h⟩, rfl⟩

/-- `a` is built from the file. -/
def buildsA : List Event :=
  ([.bringUpToDate [['a']], .launch 0 .ran, .coordinator (.onPermit 0)] ++
    ends 0 0 [[['d'], ['x']]] : List Tree.Event).map .tree

/-- What is queued is read and processed. -/
def drains : List Event :=
  [.readEvent, .notify none, .tree (.resume 0 true), .tree (.resume 0 true), .tree (.resume 0 true)]

theorem movesD_allowed (tree : World) : (holdsX tree).disk.Allows (.rename 0 ['d'] 2 ['d']) := by
  refine ⟨rfl, by decide, .directory 1, rfl, trivial, fun k hk path hfind => ?_⟩
  obtain rfl := Entry.directory.inj hk
  match path with
  | [] => simp [Disk.find] at hfind
  | n :: path =>
    by_cases hn : n = ['x']
    · subst hn
      cases path <;> simp [Disk.find, holdsX] at hfind
    · simp [Disk.find, holdsX, hn] at hfind

/-- When the directory is moved away, all that is reported is its name, and `a` is as it was though
the file that it was built from is gone. -/
theorem moved_unfollowed : ∃ s, (outdating (fun _ => []) false).Reachable
    (fun _ e => ∀ c, e ≠ .change c true) s ∧ s.1.Drained ∧
      s.1.tree.tree.declared [['a']] = true ∧ s.1.tree.tree.inFlight [['a']] = false ∧
      s.2 [['a']] = true ∧ s.1.tree.tree.stale [['a']] = false := by
  have hkept : ∀ {es s}, s.1.allFire (fun _ => []) false es = true →
      (outdating (fun _ => []) false).Fires (fun _ e => ∀ c, e ≠ .change c true) s es :=
    fires_of_allFire fun s e hfires c heq => by simp [heq, State.fires] at hfires
  have hbuilt := (holdsX_reachable World.declaresTwo_starts).runs
    (hkept (by decide +kernel : (holdsX declaresTwo).allFire (fun _ => []) false buildsA = true))
  have hdisk : ((outdating (fun _ => []) false).runs (holdsX declaresTwo, fun _ => false)
      buildsA).1.disk = (holdsX declaresTwo).disk := runs_disk (by decide +kernel)
  have hmoves : (outdating (fun _ => []) false).enabled
      ((outdating (fun _ => []) false).runs (holdsX declaresTwo, fun _ => false) buildsA)
      (.change (.rename 0 ['d'] 2 ['d']) false) := by
    show ((outdating (fun _ => []) false).runs (holdsX declaresTwo, fun _ => false)
      buildsA).1.disk.Allows (.rename 0 ['d'] 2 ['d'])
    rw [hdisk]
    exact movesD_allowed declaresTwo
  have hmoved := hbuilt.next hmoves (by simp)
  have hdrained := hmoved.runs (@hkept drains _ (by decide +kernel))
  exact ⟨_, hdrained, ⟨by decide +kernel, by decide +kernel, by decide +kernel, by decide +kernel,
    by decide +kernel⟩, by decide +kernel⟩


/-- A cache that holds `a`, built from the file. -/
def keptA : Tree.Cache where
  records := [⟨{ output := [['a']] }, List.replicate 32 '0', 0,
    [{ path := [['d'], ['x']], size := 1 }]⟩]
  objects := fun _ => some [1]

/-- A tree with `a` restored. -/
def restoresA : World :=
  let source : Tree.Source := fun path => if path = [['d'], ['x']] then some (.file 1 0) else none
  let restored := Tree.restoreFromCache source (fun _ => List.replicate 32 '0') keptA 2
    (Tree.constructed (.only { output := [['a']] }) 0)
  let tree := (restored.map Prod.snd).getD {}
  { tree
    cache := (restored.map Prod.fst).getD {}
    source
    origin := fun output => if tree.declared output then
      some (if tree.stale output then .placeholder else .restored) else none }

theorem restoresA_starts : World.Starts (fun _ => List.replicate 32 '0') true restoresA := by
  refine ⟨.only { output := [['a']] }, 0, _, _, _, ⟨keptA, 2, by decide, ?_⟩, rfl⟩
  exact rfl

/-- When the file that `a` was built from in an earlier run is written to, `a` is stale. -/
theorem changes_followed_written :
    let s := (outdating (fun _ => List.replicate 32 '0') true).runs
      (holdsX restoresA, fun _ => false) (.change (.write 1 ['x'] 1) false :: drains)
    s.2 [['a']] = true ∧ s.1.tree.tree.stale [['a']] = true := by
  have hchange : (holdsX restoresA).disk.Allows (.write 1 ['x'] 1) := ⟨rfl, by simp [holdsX]⟩
  have hwritten := (@holdsX_reachable _ _ (fun s e => s.1.Followed e) _ restoresA_starts).next
    (show (outdating (fun _ => List.replicate 32 '0') true).enabled (holdsX restoresA, fun _ => false)
      (.change (.write 1 ['x'] 1) false) from hchange)
    (State.followed_of_watched (holdsX_begins restoresA).rooted hchange
      (holdsX_begins restoresA).watched id)
  have hfollowed : ∀ (s : State × (Path → Bool)) e, s.1.fires e = true → s.1.Followed e := by
    intro s e hfires
    cases e with
    | change => simp [State.fires] at hfires
    | _ => trivial
  have hdrained := hwritten.runs (@fires_of_allFire _ _ _ _ drains hfollowed (by decide +kernel))
  exact ⟨by decide +kernel, changes_followed hdrained ⟨by decide +kernel, by decide +kernel,
    by decide +kernel, by decide +kernel, by decide +kernel⟩ (by decide +kernel) (by decide +kernel)
    (by decide +kernel)⟩

end MakeBelieve.RealDirectoryTree
