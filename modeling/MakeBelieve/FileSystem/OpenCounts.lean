import MakeBelieve.FileSystem.Announced
import MakeBelieve.FileSystem.Windows
import MakeBelieve.Library.Count

namespace MakeBelieve.FileSystem

/-! ### Merged changes -/

theorem mergeChange_keys {into : Changes} (h : (into.map Prod.fst).Nodup)
    (change : Path × ChangeKind) : ((mergeChange into change).map Prod.fst).Nodup := by
  unfold mergeChange
  split
  · rw [List.map_map]
    have hsame : (Prod.fst ∘ fun other : Path × ChangeKind =>
        if other.1 = change.1 && change.2 = .added then (other.1, ChangeKind.added) else other) =
          Prod.fst := by
      funext other
      dsimp only [Function.comp_apply]
      split <;> rfl
    rw [hsame]
    exact h
  · next hany =>
    rw [List.map_append, List.map_singleton]
    refine List.nodup_append.mpr ⟨h, List.nodup_singleton _, fun path hpath path' hpath' => ?_⟩
    rintro rfl
    obtain ⟨other, hmem, rfl⟩ := List.mem_map.mp hpath
    rw [List.mem_singleton] at hpath'
    exact hany (List.any_eq_true.mpr ⟨other, hmem, by simpa using hpath'⟩)

theorem mergeChanges_keys {into : Changes} (h : (into.map Prod.fst).Nodup) (changes : Changes) :
    ((mergeChanges into changes).map Prod.fst).Nodup := by
  unfold mergeChanges
  induction changes generalizing into with
  | nil => exact h
  | cons change changes ih => exact ih (mergeChange_keys h change)

/-- An addition dominates, merged into or merged. -/
theorem mergeChange_added {into : Changes} {change : Path × ChangeKind} {path : Path}
    (h : (path, .added) ∈ into ∨ change = (path, .added)) :
    (path, .added) ∈ mergeChange into change := by
  unfold mergeChange
  split
  · next hany =>
    refine List.mem_map.mpr ?_
    obtain h | rfl := h
    · refine ⟨_, h, ?_⟩
      split <;> rfl
    · obtain ⟨other, hmem, heq⟩ := List.any_eq_true.mp hany
      have heq : other.1 = path := of_decide_eq_true heq
      exact ⟨other, hmem, by simp [heq]⟩
  · obtain h | rfl := h
    · exact List.mem_append_left _ h
    · exact List.mem_append_right _ (List.mem_singleton_self _)

theorem mergeChanges_added {into changes : Changes} {path : Path}
    (h : (path, .added) ∈ into ∨ (path, .added) ∈ changes) :
    (path, .added) ∈ mergeChanges into changes := by
  unfold mergeChanges
  induction changes generalizing into with
  | nil => exact h.resolve_right (List.not_mem_nil)
  | cons change changes ih =>
    rw [List.mem_cons] at h
    refine ih ?_
    obtain h | rfl | h := h
    · exact .inl (mergeChange_added (.inl h))
    · exact .inl (mergeChange_added (.inr rfl))
    · exact .inr h

/-- A path has one kind of change. -/
theorem kind_unique {changes : Changes} (h : (changes.map Prod.fst).Nodup) {path : Path}
    {kind kind' : ChangeKind} (hk : (path, kind) ∈ changes) (hk' : (path, kind') ∈ changes) :
    kind = kind' :=
  congrArg Prod.snd (List.inj_on_of_nodup_map h hk hk' rfl)

namespace Windows

open Library
open MakeBelieve.Snapshots (DirectoryTreeDiff)

variable {s s' : State} {e : Event} {h k : HandleId} {o : OperationId} {p : Path}

/-- The steps of a pass that change nothing but where it is, and what is known. -/
def Event.aside : Event → Bool
  | .test | .listParked | .check | .announce _ | .giveUp | .stop => true
  | _ => false

namespace State

/-- A path whose change `park` has yet to look at again. -/
def checks (s : State) (path : Path) : Prop :=
  match s.pass with
  | .listing _ => True
  | .checking left _ => path ∈ left
  | .releasing path' left _ => path = path' ∨ path ∈ left
  | _ => False

/-- Whether a handle has been counted. -/
def taken (s : State) (h : HandleId) : Bool :=
  !(s.handles h).directory &&
    ((s.handles h).stage = .opened || (s.handles h).stage = .closing)

/-- Handles, counts and operations agree. -/
structure Counted (s : State) : Prop where
  counts : ∀ p, s.openCounts p = if s.countedOn p = 0 then none else some (s.countedOn p : Int)
  once : ∀ h < s.handleCount,
    s.uncounted.count h + (s.handles h).counted.toNat = (s.taken h).toNat
  unmade : ∀ h ≥ s.handleCount, s.uncounted.count h = 0
  files : ∀ h < s.handleCount, (s.handles h).stage = .opening ∨ (s.handles h).stage = .remembered →
    (s.handles h).directory = false
  operation : ∀ o < s.operationCount, (s.operations o).handle < s.handleCount ∧
    ((s.handles (s.operations o).handle).stage = .opened ∨
      (s.handles (s.operations o).handle).stage = .closing)
  passed : ∀ o < s.operationCount, (s.operations o).stage ≠ .uncounting →
    (s.handles (s.operations o).handle).counted = false

/-! ### What a step leaves alone -/

/-- Nothing that is counted differs. -/
structure SameCounts (s s' : State) : Prop where
  handles : s'.handles = s.handles
  handleCount : s'.handleCount = s.handleCount
  operations : s'.operations = s.operations
  operationCount : s'.operationCount = s.operationCount
  openCounts : s'.openCounts = s.openCounts
  uncounted : s'.uncounted = s.uncounted

theorem Counted.same (hs : s.Counted) (h : SameCounts s s') : s'.Counted := by
  obtain ⟨h1, h2, h3, h4, h5, h6⟩ := h
  have hon : ∀ p, s'.countedOn p = s.countedOn p := fun p => by
    unfold countedOn
    rw [h1, h2]
  have htaken : ∀ k, s'.taken k = s.taken k := fun k => by
    unfold taken
    rw [h1]
  refine ⟨fun p => ?_, fun k hk => ?_, fun k hk => ?_, fun k hk => ?_, fun o ho => ?_,
    fun o ho => ?_⟩
  · rw [h5, hon]
    exact hs.counts p
  · rw [h6, h1, htaken]
    exact hs.once k (h2 ▸ hk)
  · rw [h6]
    exact hs.unmade k (h2 ▸ hk)
  · rw [h1]
    exact hs.files k (h2 ▸ hk)
  · rw [h1, h2, h3]
    exact hs.operation o (h4 ▸ ho)
  · rw [h1, h3]
    exact hs.passed o (h4 ▸ ho)

theorem startNotifying_cases (s : State) (spawned : Bool) :
    s.startNotifying spawned = s ∨
      s.pass = .idle ∧ s.startNotifying spawned = { s with pass := .looping } := by
  unfold startNotifying
  split
  · next hc => exact .inr ⟨hc.1, rfl⟩
  · exact .inl rfl

theorem startNotifying_same (s : State) (spawned : Bool) :
    SameCounts s (s.startNotifying spawned) := by
  obtain heq | ⟨_, heq⟩ := s.startNotifying_cases spawned <;> rw [heq] <;>
    exact ⟨rfl, rfl, rfl, rfl, rfl, rfl⟩

/-- All that is done to let a parked change out. -/
structure Released (s s' : State) (path : Path) : Prop where
  same : SameCounts s s'
  stopping : s'.stopping = s.stopping
  deferred : s.stopping = false → s'.deferred = s.deferred.filter fun change => change.1 ≠ path
  stopped : s.stopping = true → s'.deferred = s.deferred
  pending : ∃ changes, s'.pending = mergeChanges s.pending changes
  moved : (s.deferred.map Prod.fst).Nodup → ∀ p, (p, ChangeKind.added) ∈ s.deferred →
    (p, .added) ∈ s'.deferred ∨ (p, .added) ∈ s'.pending
  checks : ∀ path, s.checks path → s'.checks path

theorem Released.sublist {path : Path} (hr : Released s s' path) :
    List.Sublist s'.deferred s.deferred := by
  cases hstop : s.stopping with
  | true => rw [hr.stopped hstop]
  | false =>
    rw [hr.deferred hstop]
    exact List.filter_sublist

theorem releaseDeferred_released (s : State) (path : Path) (spawned : Bool) :
    Released s (s.releaseDeferred path spawned) path := by
  have hself : s.deferred.find? (fun change => change.1 = path) = none ∨ s.stopping = true →
      Released s s path := by
    intro hor
    refine ⟨⟨rfl, rfl, rfl, rfl, rfl, rfl⟩, rfl, fun hrun => ?_, fun _ => rfl, ⟨[], rfl⟩,
      fun _ _ hin => .inl hin, fun _ hc => hc⟩
    obtain hnone | hstop := hor
    · refine (List.filter_eq_self.mpr fun change hmem => ?_).symm
      simpa using List.find?_eq_none.mp hnone change hmem
    · rw [hrun] at hstop
      simp at hstop
  unfold releaseDeferred
  split
  · next hnone => exact hself (.inl hnone)
  · split
    · next hstop => exact hself (.inr hstop)
    · next change hfind hrun =>
      let moved : State := { s with
        pending := mergeChanges s.pending [change]
        deferred := s.deferred.filter fun change => change.1 ≠ path }
      have hpath : change.1 = path := by simpa using List.find?_some hfind
      have hmoved : (s.deferred.map Prod.fst).Nodup → ∀ p, (p, ChangeKind.added) ∈ s.deferred →
          (p, .added) ∈ moved.deferred ∨ (p, .added) ∈ moved.pending := by
        intro hnodup p hin
        by_cases hp : p = path
        · subst hp
          obtain rfl := List.inj_on_of_nodup_map hnodup (List.mem_of_find?_eq_some hfind) hin hpath
          exact .inr (mergeChanges_added (.inr (List.mem_singleton_self _)))
        · exact .inl (List.mem_filter.mpr ⟨hin, by simpa using hp⟩)
      obtain heq | ⟨hidle, heq⟩ := moved.startNotifying_cases spawned
      all_goals
        rw [show (moved.startNotifying spawned) = _ from heq]
        refine ⟨⟨rfl, rfl, rfl, rfl, rfl, rfl⟩, rfl, fun _ => rfl, fun hstop => absurd hstop hrun,
          ⟨[change], rfl⟩, hmoved, fun path hc => ?_⟩
      · exact hc
      · have hidle : s.pass = .idle := hidle
        unfold checks at hc
        rw [hidle] at hc
        exact hc.elim

/-- Nothing that is counted, queued or parked differs. -/
structure Aside (s s' : State) : Prop where
  counts : SameCounts s s'
  pending : s'.pending = s.pending
  deferred : s'.deferred = s.deferred

theorem step_aside (h : e.aside = true) : Aside s (s.step e) := by
  have hrefl : Aside s s := ⟨⟨rfl, rfl, rfl, rfl, rfl, rfl⟩, rfl, rfl⟩
  cases e with
  | test =>
    show Aside s s.test
    unfold State.test
    split
    · split <;> exact ⟨⟨rfl, rfl, rfl, rfl, rfl, rfl⟩, rfl, rfl⟩
    · exact hrefl
  | listParked =>
    show Aside s s.listParked
    unfold State.listParked
    split
    · exact ⟨⟨rfl, rfl, rfl, rfl, rfl, rfl⟩, rfl, rfl⟩
    · exact hrefl
  | check =>
    show Aside s s.check
    unfold State.check
    split
    · exact ⟨⟨rfl, rfl, rfl, rfl, rfl, rfl⟩, rfl, rfl⟩
    · split <;> exact ⟨⟨rfl, rfl, rfl, rfl, rfl, rfl⟩, rfl, rfl⟩
    · exact hrefl
  | announce present =>
    show Aside s (s.announce present)
    unfold State.announce
    split
    · exact ⟨⟨rfl, rfl, rfl, rfl, rfl, rfl⟩, rfl, rfl⟩
    · exact hrefl
  | giveUp | stop => exact ⟨⟨rfl, rfl, rfl, rfl, rfl, rfl⟩, rfl, rfl⟩
  | _ => simp [Event.aside] at h

theorem uncount_queues (s : State) (o : OperationId) :
    (s.uncount o).pending = s.pending ∧ (s.uncount o).deferred = s.deferred := by
  unfold State.uncount
  dsimp only
  split
  · split
    · exact ⟨rfl, rfl⟩
    · split <;> exact ⟨rfl, rfl⟩
  · exact ⟨rfl, rfl⟩

/-- All that a change to the tree comes to. -/
theorem treeChanged_queued (s : State) (diff : DirectoryTreeDiff) (spawned : Bool) :
    SameCounts s (s.treeChanged diff spawned) ∧
      (∃ changes, (s.treeChanged diff spawned).pending = mergeChanges s.pending changes) ∧
      (s.treeChanged diff spawned).deferred = s.deferred := by
  have hnotify : ∀ (s : State), SameCounts s (s.startNotifying spawned) ∧
      (s.startNotifying spawned).pending = s.pending ∧
      (s.startNotifying spawned).deferred = s.deferred := fun s => by
    refine ⟨s.startNotifying_same spawned, ?_⟩
    obtain heq | ⟨_, heq⟩ := s.startNotifying_cases spawned <;> rw [heq] <;> exact ⟨rfl, rfl⟩
  unfold State.treeChanged
  split
  · exact ⟨⟨rfl, rfl, rfl, rfl, rfl, rfl⟩, ⟨[], rfl⟩, rfl⟩
  · split
    · obtain ⟨⟨h1, h2, h3, h4, h5, h6⟩, hpending, hdeferred⟩ :=
        hnotify { s with everythingDirty := true }
      exact ⟨⟨h1, h2, h3, h4, h5, h6⟩, ⟨[], hpending⟩, hdeferred⟩
    · obtain ⟨⟨h1, h2, h3, h4, h5, h6⟩, hpending, hdeferred⟩ :=
        hnotify { s with pending := mergeChanges s.pending (changesOf diff) }
      exact ⟨⟨h1, h2, h3, h4, h5, h6⟩, ⟨_, hpending⟩, hdeferred⟩

theorem look_taken (s : State) : SameCounts s s.look ∧
    (s.look.pending = s.pending ∨ s.look.pending = []) ∧ s.look.deferred = s.deferred := by
  unfold State.look
  split
  · exact ⟨⟨rfl, rfl, rfl, rfl, rfl, rfl⟩, .inl rfl, rfl⟩
  · split <;> exact ⟨⟨rfl, rfl, rfl, rfl, rfl, rfl⟩, .inr rfl, rfl⟩

theorem park_parked (s : State) : SameCounts s s.park ∧ s.park.pending = s.pending ∧
    ∃ changes, s.park.deferred = mergeChanges s.deferred changes := by
  unfold State.park
  split
  · split
    · exact ⟨⟨rfl, rfl, rfl, rfl, rfl, rfl⟩, rfl, [], rfl⟩
    · exact ⟨⟨rfl, rfl, rfl, rfl, rfl, rfl⟩, rfl, _, rfl⟩
  · exact ⟨⟨rfl, rfl, rfl, rfl, rfl, rfl⟩, rfl, [], rfl⟩

theorem releaseParked_released (s : State) : SameCounts s s.releaseParked ∧
    (∃ changes, s.releaseParked.pending = mergeChanges s.pending changes) ∧
    List.Sublist s.releaseParked.deferred s.deferred ∧
    ((s.deferred.map Prod.fst).Nodup → ∀ p, (p, ChangeKind.added) ∈ s.deferred →
      (p, .added) ∈ s.releaseParked.deferred ∨ (p, .added) ∈ s.releaseParked.pending) := by
  unfold State.releaseParked
  split
  · next path left closed _ =>
    have hr := releaseDeferred_released s path false
    obtain ⟨h1, h2, h3, h4, h5, h6⟩ := hr.same
    exact ⟨⟨h1, h2, h3, h4, h5, h6⟩, hr.pending, hr.sublist, hr.moved⟩
  · exact ⟨⟨rfl, rfl, rfl, rfl, rfl, rfl⟩, ⟨[], rfl⟩, .refl _, fun _ _ hin => .inl hin⟩

/-! ### Handles and counts -/

theorem countedOn_congr (hcount : s'.handleCount = s.handleCount)
    (hsame : ∀ h < s.handleCount, (s'.handles h).counted = (s.handles h).counted ∧
      (s'.handles h).path = (s.handles h).path) (p : Path) : s'.countedOn p = s.countedOn p := by
  unfold countedOn
  rw [hcount]
  refine List.countP_congr fun h hh => ?_
  obtain ⟨hcounted, hpath⟩ := hsame h (List.mem_range.mp hh)
  rw [hcounted, hpath]

/-- A handle that starts to count is one more on its path. -/
theorem countedOn_flip (hcount : s'.handleCount = s.handleCount) (hh : h < s.handleCount)
    (hfalse : (s.handles h).counted = false) (htrue : (s'.handles h).counted = true)
    (hpath : (s'.handles h).path = (s.handles h).path)
    (hother : ∀ k, k ≠ h → s'.handles k = s.handles k) (p : Path) :
    s'.countedOn p = s.countedOn p + if (s.handles h).path = p then 1 else 0 := by
  unfold countedOn
  rw [hcount]
  have hmem := List.mem_range.mpr hh
  by_cases hp : (s.handles h).path = p
  · rw [if_pos hp]
    refine (countP_flip List.nodup_range hmem ?_ ?_ fun k _ hk => ?_).symm
    · simp [htrue, hpath, hp]
    · simp [hfalse]
    · rw [hother k hk]
  · rw [if_neg hp, Nat.add_zero]
    refine List.countP_congr fun k _ => ?_
    by_cases hk : k = h
    · rw [hk, hpath]
      simp [hp]
    · rw [hother k hk]

theorem Counted.openFile (hs : s.Counted) (path : Path) (directory : Bool) :
    (s.openFile path directory).Counted := by
  have hold : ∀ k < s.handleCount, (s.openFile path directory).handles k = s.handles k :=
    fun k hk => Function.update_of_ne (Nat.ne_of_lt hk) ..
  have hnew : (s.openFile path directory).handles s.handleCount =
      { path, directory, stage := if directory then .opened else .opening } :=
    Function.update_self ..
  refine ⟨fun p => ?_, fun k hk => ?_, fun k hk => hs.unmade k (Nat.le_of_succ_le hk),
    fun k hk => ?_, fun o ho => ?_, fun o ho => ?_⟩
  · have hon : (s.openFile path directory).countedOn p = s.countedOn p := by
      unfold countedOn
      show (List.range (s.handleCount + 1)).countP _ = _
      rw [List.range_succ, List.countP_append, List.countP_singleton, hnew]
      refine List.countP_congr fun k hk => ?_
      rw [hold k (List.mem_range.mp hk)]
    rw [hon]
    exact hs.counts p
  · obtain hk | rfl := Nat.lt_succ_iff_lt_or_eq.mp hk
    · unfold taken
      rw [hold k hk]
      exact hs.once k hk
    · unfold taken
      rw [hnew]
      show s.uncounted.count s.handleCount + _ = _
      rw [hs.unmade _ (Nat.le_refl _)]
      cases directory <;> rfl
  · obtain hk | rfl := Nat.lt_succ_iff_lt_or_eq.mp hk
    · rw [hold k hk]
      exact hs.files k hk
    · rw [hnew]
      cases directory <;> simp
  · obtain ⟨hlt, hstage⟩ := hs.operation o ho
    have heq := congrArg OpenFile.stage (hold _ hlt)
    exact ⟨Nat.lt_succ_of_lt hlt, hstage.imp heq.trans heq.trans⟩
  · intro hstage
    show ((s.openFile path directory).handles (s.operations o).handle).counted = false
    rw [hold _ (hs.operation o ho).1]
    exact hs.passed o ho hstage

/-- A handle whose `open` is not over is not counted. -/
theorem Counted.uncounted_of_stage (hs : s.Counted) (hh : h < s.handleCount)
    (hstage : (s.handles h).stage = .opening ∨ (s.handles h).stage = .remembered) :
    (s.handles h).counted = false ∧ s.uncounted.count h = 0 := by
  have honce := hs.once h hh
  have htaken : s.taken h = false := by
    unfold taken
    obtain hstage | hstage := hstage <;> simp [hstage]
  rw [htaken] at honce
  cases hc : (s.handles h).counted with
  | false =>
    rw [hc] at honce
    exact ⟨rfl, honce⟩
  | true =>
    rw [hc] at honce
    simp at honce

/-- A handle that changes, while no operation does. -/
theorem Counted.updated (hs : s.Counted) (hh : h < s.handleCount) {file : OpenFile}
    (hhandles : s'.handles = Function.update s.handles h file)
    (hcount : s'.handleCount = s.handleCount) (hoperations : s'.operations = s.operations)
    (hoperationCount : s'.operationCount = s.operationCount)
    (hcounts : ∀ p, s'.openCounts p =
      if s'.countedOn p = 0 then none else some (s'.countedOn p : Int))
    (honce : s'.uncounted.count h + file.counted.toNat = (s'.taken h).toNat)
    (hothers : ∀ k, k ≠ h → s'.uncounted.count k = s.uncounted.count k)
    (hfile : file.stage = .opening ∨ file.stage = .remembered → file.directory = false)
    (hopen : (s.handles h).stage = .opened ∨ (s.handles h).stage = .closing →
      (file.stage = .opened ∨ file.stage = .closing) ∧
        (file.counted = true → (s.handles h).counted = true)) : s'.Counted := by
  have hself : s'.handles h = file := by rw [hhandles, Function.update_self]
  have hother : ∀ k, k ≠ h → s'.handles k = s.handles k := fun k hk => by
    rw [hhandles, Function.update_of_ne hk]
  refine ⟨hcounts, fun k hk => ?_, fun k hk => ?_, fun k hk => ?_, fun o ho => ?_,
    fun o ho hstage => ?_⟩
  · by_cases heq : k = h
    · rw [heq, hself]
      exact honce
    · unfold taken
      rw [hothers k heq, hother k heq]
      exact hs.once k (hcount ▸ hk)
  · have hk : s.handleCount ≤ k := hcount ▸ hk
    rw [hothers k (Nat.ne_of_gt (Nat.lt_of_lt_of_le hh hk))]
    exact hs.unmade k hk
  · by_cases heq : k = h
    · rw [heq, hself]
      exact hfile
    · rw [hother k heq]
      exact hs.files k (hcount ▸ hk)
  · rw [hoperations, hcount]
    obtain ⟨hlt, hstage⟩ := hs.operation o (hoperationCount ▸ ho)
    refine ⟨hlt, ?_⟩
    by_cases heq : (s.operations o).handle = h
    · rw [heq, hself]
      exact (hopen (heq ▸ hstage)).1
    · rw [hother _ heq]
      exact hstage
  · rw [hoperations] at hstage ⊢
    have ho := hoperationCount ▸ ho
    have hfalse := hs.passed o ho hstage
    by_cases heq : (s.operations o).handle = h
    · rw [heq] at hfalse ⊢
      rw [hself]
      by_contra htrue
      have := (hopen (heq ▸ (hs.operation o ho).2)).2 (by simpa using htrue)
      simp [hfalse] at this
    · rw [hother _ heq]
      exact hfalse

theorem Counted.remember (hs : s.Counted) (he : s.enabled (.remember h)) :
    (s.remember h).Counted := by
  obtain ⟨hh, hstage⟩ := he
  obtain ⟨hfalse, hzero⟩ := hs.uncounted_of_stage hh (.inl hstage)
  have hself : (s.remember h).handles h = { s.handles h with stage := .remembered } :=
    Function.update_self ..
  refine hs.updated hh rfl rfl rfl rfl (fun p => ?_) ?_ (fun _ _ => rfl)
    (fun _ => hs.files h hh (.inl hstage)) (fun hopen => by simp [hstage] at hopen)
  · have hon : (s.remember h).countedOn p = s.countedOn p := by
      refine @countedOn_congr s (s.remember h) rfl (fun k _ => ?_) p
      by_cases hk : k = h
      · rw [hk, hself]
        exact ⟨rfl, rfl⟩
      · rw [show (s.remember h).handles k = s.handles k from Function.update_of_ne hk ..]
        exact ⟨rfl, rfl⟩
    rw [hon]
    exact hs.counts p
  · unfold taken
    rw [hself]
    show s.uncounted.count h + (s.handles h).counted.toNat = _
    rw [hzero, hfalse]
    simp

theorem Counted.count (hs : s.Counted) (he : s.enabled (.count h)) : (s.count h).Counted := by
  obtain ⟨hh, hstage⟩ := he
  obtain ⟨hfalse, hzero⟩ := hs.uncounted_of_stage hh (.inr hstage)
  have hself : (s.count h).handles h = { s.handles h with counted := true, stage := .opened } :=
    Function.update_self ..
  refine hs.updated hh rfl rfl rfl rfl (fun p => ?_) ?_ (fun _ _ => rfl) (by simp)
    (fun hopen => by simp [hstage] at hopen)
  · have hon := @countedOn_flip s (s.count h) h rfl hh hfalse (by rw [hself]) (by rw [hself])
      (fun k hk => Function.update_of_ne hk ..) p
    have hcounts := hs.counts p
    show Function.update s.openCounts (s.handles h).path _ p = _
    by_cases hp : p = (s.handles h).path
    · subst hp
      rw [if_pos rfl] at hon
      rw [Function.update_self, hcounts, hon, if_neg (Nat.succ_ne_zero _)]
      split
      · next hnone => simp [hnone]
      · simp
    · rw [if_neg (Ne.symm hp), Nat.add_zero] at hon
      rw [Function.update_of_ne hp, hon]
      exact hcounts
  · unfold taken
    rw [hself]
    show s.uncounted.count h + 1 = _
    rw [hzero]
    simp [hs.files h hh (.inr hstage)]

theorem setOperation_handle (s : State) (o o' : OperationId) (stage : OperationStage) :
    ((s.setOperation o stage).operations o').handle = (s.operations o').handle := by
  show (Function.update s.operations o _ o').handle = _
  by_cases heq : o' = o
  · rw [heq, Function.update_self]
  · rw [Function.update_of_ne heq]

theorem Counted.setOperation (hs : s.Counted) (ho : o < s.operationCount) {stage : OperationStage}
    (hstage : stage ≠ .uncounting → (s.handles (s.operations o).handle).counted = false) :
    (s.setOperation o stage).Counted := by
  have hhandle := fun o' => setOperation_handle s o o' stage
  refine ⟨hs.counts, hs.once, hs.unmade, hs.files, fun o' ho' => ?_, fun o' ho' hstage' => ?_⟩
  · rw [hhandle]
    exact hs.operation o' ho'
  · rw [hhandle]
    by_cases heq : o' = o
    · subst heq
      refine hstage fun hun => hstage' ?_
      show (Function.update s.operations o' _ o').stage = _
      rw [Function.update_self]
      exact hun
    · refine hs.passed o' ho' fun hun => hstage' ?_
      show (Function.update s.operations o _ o').stage = _
      rw [Function.update_of_ne heq]
      exact hun

theorem Counted.setStage (hs : s.Counted) (hh : h < s.handleCount)
    (hopened : (s.handles h).stage = .opened) {stage : HandleStage}
    (hstage : stage = .opened ∨ stage = .closing) : (s.setStage h stage).Counted := by
  have hself : (s.setStage h stage).handles h = { s.handles h with stage } :=
    Function.update_self ..
  refine hs.updated hh rfl rfl rfl rfl (fun p => ?_) ?_ (fun _ _ => rfl) (fun hearly => ?_)
    (fun _ => ⟨hstage, id⟩)
  · have hon : (s.setStage h stage).countedOn p = s.countedOn p := by
      refine @countedOn_congr s (s.setStage h stage) rfl (fun k _ => ?_) p
      by_cases hk : k = h
      · rw [hk, hself]
        exact ⟨rfl, rfl⟩
      · rw [show (s.setStage h stage).handles k = s.handles k from Function.update_of_ne hk ..]
        exact ⟨rfl, rfl⟩
    rw [hon]
    exact hs.counts p
  · have honce := hs.once h hh
    unfold taken at honce ⊢
    rw [hself]
    rw [hopened] at honce
    show s.uncounted.count h + (s.handles h).counted.toNat = _
    rw [honce]
    obtain rfl | rfl := hstage <;> simp
  · have hearly : stage = .opening ∨ stage = .remembered := hearly
    obtain rfl | rfl := hstage <;> simp at hearly

theorem Counted.begin (hs : s.Counted) (hh : h < s.handleCount)
    (hopened : (s.handles h).stage = .opened) (close : Bool) : (s.begin h close).Counted := by
  let stage : HandleStage := if close then .closing else .opened
  have hstage : stage = .opened ∨ stage = .closing := by
    cases close
    · exact .inl rfl
    · exact .inr rfl
  have hset := hs.setStage hh hopened hstage
  have hself : (s.setStage h stage).handles h = { s.handles h with stage } :=
    Function.update_self ..
  refine ⟨hset.counts, hset.once, hset.unmade, hset.files, fun o ho => ?_, fun o ho hun => ?_⟩
  · show (Function.update s.operations s.operationCount _ o).handle < _ ∧
      (((s.setStage h stage).handles (Function.update s.operations s.operationCount _ o).handle).stage
        = .opened ∨ ((s.setStage h stage).handles
          (Function.update s.operations s.operationCount _ o).handle).stage = .closing)
    obtain ho | rfl := Nat.lt_succ_iff_lt_or_eq.mp ho
    · rw [Function.update_of_ne (Nat.ne_of_lt ho)]
      exact hset.operation o ho
    · rw [Function.update_self]
      refine ⟨hh, ?_⟩
      rw [hself]
      exact hstage
  · show ((s.setStage h stage).handles
      (Function.update s.operations s.operationCount _ o).handle).counted = false
    have hun : (Function.update s.operations s.operationCount { handle := h, close } o).stage ≠
      .uncounting := hun
    obtain ho | rfl := Nat.lt_succ_iff_lt_or_eq.mp ho
    · rw [Function.update_of_ne (Nat.ne_of_lt ho)] at hun ⊢
      exact hset.passed o ho hun
    · rw [Function.update_self] at hun
      simp at hun

/-- The handle taken out of the counts, its operation not yet past the lock. -/
def takenOut (s : State) (h : HandleId) : State :=
  { s with
    handles := Function.update s.handles h { s.handles h with counted := false }
    uncounted := s.uncounted ++ [h]
    openCounts := Function.update s.openCounts (s.handles h).path
      (if s.countedOn (s.handles h).path = 1 then none
        else some (s.countedOn (s.handles h).path - 1)) }

theorem Counted.takenOut (hs : s.Counted) (hh : h < s.handleCount)
    (hcounted : (s.handles h).counted = true)
    (hopen : (s.handles h).stage = .opened ∨ (s.handles h).stage = .closing) :
    (s.takenOut h).Counted ∧ 0 < s.countedOn (s.handles h).path := by
  have hself : (s.takenOut h).handles h = { s.handles h with counted := false } :=
    Function.update_self ..
  have hon : ∀ p, s.countedOn p =
      (s.takenOut h).countedOn p + if (s.handles h).path = p then 1 else 0 := by
    intro p
    have hflip := @countedOn_flip (s.takenOut h) s h rfl hh (by rw [hself]) hcounted (by rw [hself])
      (fun k hk => (Function.update_of_ne hk ..).symm) p
    rwa [hself] at hflip
  have hhere := hon (s.handles h).path
  rw [if_pos rfl] at hhere
  refine ⟨hs.updated hh rfl rfl rfl rfl (fun p => ?_) ?_ (fun k hk => ?_) (fun hearly => ?_)
    (fun _ => ⟨hopen, nofun⟩), by omega⟩
  · show Function.update s.openCounts _ _ p = _
    by_cases hp : p = (s.handles h).path
    · subst hp
      rw [Function.update_self, hhere]
      by_cases hzero : (s.takenOut h).countedOn (s.handles h).path = 0
      · rw [if_pos (by omega), if_pos hzero]
      · rw [if_neg (by omega), if_neg hzero]
        simp
    · have hp' := hon p
      rw [if_neg (Ne.symm hp), Nat.add_zero] at hp'
      rw [Function.update_of_ne hp, ← hp']
      exact hs.counts p
  · have honce := hs.once h hh
    rw [hcounted] at honce
    have htaken : (s.takenOut h).taken h = s.taken h := by
      unfold taken
      rw [hself]
    rw [htaken, ← honce]
    show (s.uncounted ++ [h]).count h + 0 = _
    simp
  · show (s.uncounted ++ [h]).count k = _
    simp [List.count_append, Ne.symm hk]
  · exact hs.files h hh hearly

/-- What `uncount` comes to under its lock. -/
theorem uncount_cases (hs : s.Counted) (ho : o < s.operationCount) :
    ((s.handles (s.operations o).handle).counted = false ∧ s.uncount o = s.setOperation o .done) ∨
      (s.handles (s.operations o).handle).counted = true ∧
        s.uncount o = (s.takenOut (s.operations o).handle).setOperation o
          (if s.countedOn (s.handles (s.operations o).handle).path = 1 then .releasing else .done) := by
  obtain ⟨hh, hopen⟩ := hs.operation o ho
  unfold State.uncount
  generalize (s.operations o).handle = h at hh hopen
  cases hcounted : (s.handles h).counted with
  | false => exact .inl ⟨rfl, by simp [hcounted]⟩
  | true =>
    refine .inr ⟨rfl, ?_⟩
    have hpos := (hs.takenOut hh hcounted hopen).2
    have hcounts := hs.counts (s.handles h).path
    rw [if_neg (Nat.ne_of_gt hpos)] at hcounts
    simp only [hcounted, if_true, hcounts]
    unfold State.takenOut setOperation
    by_cases hone : s.countedOn (s.handles h).path = 1
    · simp [hone]
    · rw [if_neg (by omega)]
      simp [hone]

theorem Counted.uncount (hs : s.Counted) (ho : o < s.operationCount) : (s.uncount o).Counted := by
  obtain ⟨hfalse, heq⟩ | ⟨hcounted, heq⟩ := uncount_cases hs ho
  · rw [heq]
    exact hs.setOperation ho fun _ => hfalse
  · obtain ⟨hh, hopen⟩ := hs.operation o ho
    rw [heq]
    refine (hs.takenOut hh hcounted hopen).1.setOperation ho fun _ => ?_
    show (Function.update s.handles _ _ (s.operations o).handle).counted = false
    rw [Function.update_self]

theorem Counted.step (hs : s.Counted) (he : s.enabled e) : (s.step e).Counted := by
  cases e with
  | openFile path directory => exact hs.openFile path directory
  | remember h => exact hs.remember he
  | count h => exact hs.count he
  | cleanup h => exact hs.begin he.1 he.2 false
  | close h => exact hs.begin he.1 he.2 true
  | uncount o => exact hs.uncount he.1
  | release o spawned =>
    obtain ⟨ho, hstage⟩ := he
    have hdone : (s.setOperation o .done).Counted :=
      hs.setOperation ho fun _ => hs.passed o ho (by simp [hstage])
    exact hdone.same (releaseDeferred_released _ _ spawned).same
  | treeChanged diff spawned => exact hs.same (treeChanged_queued s diff spawned).1
  | look => exact hs.same s.look_taken.1
  | park => exact hs.same s.park_parked.1
  | releaseParked => exact hs.same s.releaseParked_released.1
  | test | listParked | check | announce | giveUp | stop => exact hs.same (step_aside rfl).counts

/-- A path that is open has a handle counted on it. -/
theorem Counted.exists_counted (hs : s.Counted) (hopen : s.isOpen p = true) :
    ∃ h < s.handleCount, (s.handles h).path = p ∧ (s.handles h).counted = true := by
  unfold isOpen at hopen
  rw [hs.counts p] at hopen
  have hpos : 0 < s.countedOn p := by
    by_contra hzero
    rw [if_pos (by omega)] at hopen
    simp at hopen
  obtain ⟨h, hmem, hh⟩ := List.countP_pos_iff.mp hpos
  rw [Bool.and_eq_true, decide_eq_true_eq] at hh
  exact ⟨h, List.mem_range.mp hmem, hh.2, hh.1⟩

/-! ### Handles that are closed -/

/-- A `close` has been called for every handle that is being closed. -/
def Closing (s : State) : Prop :=
  ∀ h < s.handleCount, (s.handles h).stage = .closing →
    ∃ o < s.operationCount, (s.operations o).handle = h

theorem Closing.keep (hs : s.Closing) (hcount : s'.handleCount = s.handleCount)
    (hoperationCount : s.operationCount ≤ s'.operationCount)
    (hstage : ∀ h, (s'.handles h).stage = .closing → (s.handles h).stage = .closing)
    (hhandle : ∀ o < s.operationCount, (s'.operations o).handle = (s.operations o).handle) :
    s'.Closing := by
  intro h hh hclosing
  obtain ⟨o, ho, heq⟩ := hs h (hcount ▸ hh) (hstage h hclosing)
  exact ⟨o, Nat.lt_of_lt_of_le ho hoperationCount, (hhandle o ho).trans heq⟩

theorem Closing.same (hs : s.Closing) (h : SameCounts s s') : s'.Closing :=
  hs.keep h.handleCount (Nat.le_of_eq h.operationCount.symm) (fun k hk => h.handles ▸ hk)
    (fun o _ => by rw [h.operations])

/-- A handle that changes, if not to be closed. -/
theorem Closing.updated (hs : s.Closing) {file : OpenFile}
    (hhandles : s'.handles = Function.update s.handles h file)
    (hcount : s'.handleCount = s.handleCount) (hoperations : s'.operations = s.operations)
    (hoperationCount : s'.operationCount = s.operationCount)
    (hfile : file.stage = .closing → (s.handles h).stage = .closing) : s'.Closing := by
  refine hs.keep hcount (Nat.le_of_eq hoperationCount.symm) (fun k hk => ?_) fun o _ => by
    rw [hoperations]
  rw [hhandles] at hk
  by_cases heq : k = h
  · rw [heq, Function.update_self] at hk
    exact heq ▸ hfile hk
  · rwa [Function.update_of_ne heq] at hk

theorem Closing.begin (hs : s.Closing) (h : HandleId) (close : Bool) : (s.begin h close).Closing := by
  intro k hk hclosing
  by_cases heq : k = h
  · refine ⟨s.operationCount, Nat.lt_succ_self _, ?_⟩
    show (Function.update s.operations s.operationCount _ s.operationCount).handle = _
    rw [Function.update_self, heq]
  · have hclosing : (Function.update s.handles h _ k).stage = .closing := hclosing
    rw [Function.update_of_ne heq] at hclosing
    obtain ⟨o, ho, hhandle⟩ := hs k hk hclosing
    refine ⟨o, Nat.lt_succ_of_lt ho, ?_⟩
    show (Function.update s.operations s.operationCount _ o).handle = _
    rwa [Function.update_of_ne (Nat.ne_of_lt ho)]

theorem Closing.openFile (hs : s.Closing) (path : Path) (directory : Bool) :
    (s.openFile path directory).Closing := by
  intro k hk hclosing
  have hclosing : (Function.update s.handles s.handleCount _ k).stage = .closing := hclosing
  obtain hk | rfl := Nat.lt_succ_iff_lt_or_eq.mp hk
  · rw [Function.update_of_ne (Nat.ne_of_lt hk)] at hclosing
    exact hs k hk hclosing
  · rw [Function.update_self] at hclosing
    cases directory <;> simp at hclosing

theorem Closing.step (hs : s.Closing) (hc : s.Counted) (he : s.enabled e) :
    (s.step e).Closing := by
  have hset : ∀ {s : State} (o : OperationId) (stage : OperationStage), s.Closing →
      (s.setOperation o stage).Closing := fun o stage hs =>
    hs.keep rfl (Nat.le_refl _) (fun _ => id) fun o' _ => setOperation_handle _ o o' stage
  cases e with
  | openFile path directory => exact hs.openFile path directory
  | remember h => exact hs.updated (h := h) rfl rfl rfl rfl nofun
  | count h => exact hs.updated (h := h) rfl rfl rfl rfl nofun
  | cleanup h => exact hs.begin h false
  | close h => exact hs.begin h true
  | uncount o =>
    show (s.uncount o).Closing
    obtain ⟨_, heq⟩ | ⟨_, heq⟩ := uncount_cases hc he.1
    · rw [heq]
      exact hset o _ hs
    · rw [heq]
      exact hset o _ (hs.updated (h := (s.operations o).handle) rfl rfl rfl rfl id)
  | release o spawned => exact (hset o .done hs).same (releaseDeferred_released _ _ spawned).same
  | treeChanged diff spawned => exact hs.same (treeChanged_queued s diff spawned).1
  | look => exact hs.same s.look_taken.1
  | park => exact hs.same s.park_parked.1
  | releaseParked => exact hs.same s.releaseParked_released.1
  | test | listParked | check | announce | giveUp | stop => exact hs.same (step_aside rfl).counts

end State

end Windows

end MakeBelieve.FileSystem
