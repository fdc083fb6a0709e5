import MakeBelieve.FileSystem.OpenCounts

namespace MakeBelieve.FileSystem.Windows

open Library
open MakeBelieve.Snapshots (DirectoryTreeDiff)

variable {s s' : State} {e : Event} {h : HandleId} {o : OperationId} {p : Path}

namespace State

/-- An operation is about to let out what is parked on a path. -/
def Releasing (s : State) (p : Path) : Prop :=
  ∃ o < s.operationCount, (s.operations o).stage = .releasing ∧
    (s.handles (s.operations o).handle).path = p

/-- What is parked is on its way out, or its file is open. -/
structure Parked (s : State) : Prop where
  pendingKeys : (s.pending.map Prod.fst).Nodup
  deferredKeys : (s.deferred.map Prod.fst).Nodup
  parked : s.stopping = false → ∀ p ∈ s.deferred.map Prod.fst,
    s.isOpen p = true ∨ s.Releasing p ∨ s.checks p

/-! ### What is parked -/

theorem Releasing.keep (hr : s.Releasing p) (hcount : s.operationCount ≤ s'.operationCount)
    (hsame : ∀ o < s.operationCount, (s.operations o).stage = .releasing →
      (s'.operations o).stage = .releasing ∧ (s'.handles (s'.operations o).handle).path =
        (s.handles (s.operations o).handle).path) : s'.Releasing p := by
  obtain ⟨o, ho, hstage, hpath⟩ := hr
  obtain ⟨hstage', hpath'⟩ := hsame o ho hstage
  exact ⟨o, Nat.lt_of_lt_of_le ho hcount, hstage', hpath'.trans hpath⟩

/-- A step that parks nothing, and lets nothing out. -/
theorem Parked.keep (hp : s.Parked) (hpending : s'.pending = s.pending)
    (hdeferred : s'.deferred = s.deferred) (hstopping : s'.stopping = s.stopping)
    (hopen : ∀ p, s.isOpen p = true → s'.isOpen p = true ∨ s'.Releasing p ∨ s'.checks p)
    (hreleasing : ∀ p, s.Releasing p → s'.Releasing p)
    (hchecks : ∀ p, s.checks p → s'.checks p ∨ s'.isOpen p = true) : s'.Parked := by
  refine ⟨hpending ▸ hp.pendingKeys, hdeferred ▸ hp.deferredKeys, fun hstop p hin => ?_⟩
  rw [hdeferred] at hin
  obtain h | h | h := hp.parked (hstopping ▸ hstop) p hin
  · exact hopen p h
  · exact .inr (.inl (hreleasing p h))
  · exact (hchecks p h).elim (fun h => .inr (.inr h)) .inl

/-- Handles change, but for their paths. -/
theorem Releasing.of_paths (hr : s.Releasing p) (hoperations : s'.operations = s.operations)
    (hcount : s'.operationCount = s.operationCount)
    (hpath : ∀ o < s.operationCount, (s'.handles (s.operations o).handle).path =
      (s.handles (s.operations o).handle).path) : s'.Releasing p := by
  refine hr.keep (Nat.le_of_eq hcount.symm) fun o ho hstage => ?_
  rw [hoperations]
  exact ⟨hstage, hpath o ho⟩

theorem path_update (s : State) (h : HandleId) {file : OpenFile} (k : HandleId)
    (hpath : file.path = (s.handles h).path) :
    (Function.update s.handles h file k).path = (s.handles k).path := by
  by_cases hk : k = h
  · rw [hk, Function.update_self, hpath]
  · rw [Function.update_of_ne hk]

theorem Parked.openFile (hp : s.Parked) (hs : s.Counted) (path : Path) (directory : Bool) :
    (s.openFile path directory).Parked := by
  refine hp.keep rfl rfl rfl (fun _ h => .inl h) (fun p hr => ?_) (fun _ h => .inl h)
  refine hr.of_paths rfl rfl fun o ho => ?_
  show (Function.update s.handles s.handleCount _ _).path = _
  rw [Function.update_of_ne (Nat.ne_of_lt (hs.operation o ho).1)]

theorem Parked.remember (hp : s.Parked) (h : HandleId) : (s.remember h).Parked :=
  hp.keep rfl rfl rfl (fun _ h => .inl h)
    (fun _ hr => hr.of_paths rfl rfl fun _ _ => path_update s h _ rfl) (fun _ h => .inl h)

theorem Parked.count (hp : s.Parked) (h : HandleId) : (s.count h).Parked := by
  refine hp.keep rfl rfl rfl (fun p hopen => .inl ?_)
    (fun _ hr => hr.of_paths rfl rfl fun _ _ => path_update s h _ rfl) (fun _ h => .inl h)
  show (Function.update s.openCounts _ _ p).isSome = true
  rw [Function.update_apply]
  split
  · rfl
  · exact hopen

theorem Parked.begin (hp : s.Parked) (h : HandleId) (close : Bool) : (s.begin h close).Parked := by
  refine hp.keep rfl rfl rfl (fun _ h => .inl h) (fun p hr => ?_) (fun _ h => .inl h)
  refine hr.keep (Nat.le_succ _) fun o ho hstage => ?_
  show (Function.update s.operations s.operationCount _ o).stage = _ ∧
    (Function.update s.handles h _ (Function.update s.operations s.operationCount _ o).handle).path = _
  rw [Function.update_of_ne (Nat.ne_of_lt ho)]
  exact ⟨hstage, path_update s h _ rfl⟩

/-- An operation other than these goes on as it was. -/
theorem Releasing.setOperation (hr : s.Releasing p) (ho : (s.operations o).stage = .uncounting)
    (stage : OperationStage) : (s.setOperation o stage).Releasing p := by
  refine hr.keep (Nat.le_refl _) fun o' _ hstage => ?_
  have hne : o' ≠ o := by
    rintro rfl
    simp [ho] at hstage
  show (Function.update s.operations o _ o').stage = _ ∧
    (s.handles (Function.update s.operations o _ o').handle).path = _
  rw [Function.update_of_ne hne]
  exact ⟨hstage, rfl⟩

/-- The last handle on a path leaves its operation to let out what is parked there. -/
theorem Parked.uncount (hp : s.Parked) (hs : s.Counted) (he : s.enabled (.uncount o)) :
    (s.uncount o).Parked := by
  obtain ⟨ho, hstage⟩ := he
  obtain ⟨_, heq⟩ | ⟨hcounted, heq⟩ := uncount_cases hs ho
  · rw [heq]
    exact hp.keep rfl rfl rfl (fun _ h => .inl h) (fun _ hr => hr.setOperation hstage _)
      (fun _ h => .inl h)
  · generalize hh : (s.operations o).handle = h at heq
    have hpath : ∀ k, ((s.takenOut h).handles k).path = (s.handles k).path :=
      fun k => path_update s h k rfl
    have hout : ∀ p, s.Releasing p → (s.takenOut h).Releasing p := fun _ hr =>
      hr.of_paths rfl rfl fun _ _ => hpath _
    rw [heq]
    refine hp.keep rfl rfl rfl (fun p hopen => ?_)
      (fun p hr => (hout p hr).setOperation hstage _) (fun _ h => .inl h)
    show (Function.update s.openCounts (s.handles h).path _ p).isSome = true ∨ _
    by_cases hp' : p = (s.handles h).path
    · subst hp'
      rw [Function.update_self]
      by_cases hone : s.countedOn (s.handles h).path = 1
      · rw [if_pos hone]
        refine .inr (.inl ⟨o, ho, ?_, ?_⟩)
        · show (Function.update s.operations o _ o).stage = _
          rw [Function.update_self]
          exact if_pos (hh ▸ hone)
        · show (Function.update s.handles h _ (Function.update s.operations o _ o).handle).path = _
          rw [Function.update_self]
          exact (hpath _).trans (congrArg (fun k => (s.handles k).path) hh)
      · rw [if_neg hone]
        exact .inl rfl
    · rw [Function.update_of_ne hp']
      exact .inl hopen

/-- What was parked on a path is let out, and nothing else there is parked. -/
theorem Parked.released (hp : s.Parked) {path : Path} (hkeys : (s'.pending.map Prod.fst).Nodup)
    (hstopping : s'.stopping = s.stopping)
    (hdeferred : s.stopping = false → s'.deferred = s.deferred.filter fun change => change.1 ≠ path)
    (hstopped : s.stopping = true → s'.deferred = s.deferred)
    (hopen : s'.openCounts = s.openCounts)
    (hreleasing : ∀ p, p ≠ path → s.Releasing p → s'.Releasing p)
    (hchecks : ∀ p, p ≠ path → s.checks p → s'.checks p) : s'.Parked := by
  refine ⟨hkeys, ?_, fun hstop p hin => ?_⟩
  · cases hstop : s.stopping with
    | true => exact hstopped hstop ▸ hp.deferredKeys
    | false =>
      rw [hdeferred hstop]
      exact hp.deferredKeys.sublist (List.filter_sublist.map _)
  · rw [hstopping] at hstop
    rw [hdeferred hstop] at hin
    obtain ⟨change, hmem, rfl⟩ := List.mem_map.mp hin
    obtain ⟨hmem, hne⟩ := List.mem_filter.mp hmem
    have hne : change.1 ≠ path := of_decide_eq_true hne
    obtain h | h | h := hp.parked hstop change.1 (List.mem_map_of_mem hmem)
    · refine .inl ?_
      unfold isOpen
      rw [hopen]
      exact h
    · exact .inr (.inl (hreleasing _ hne h))
    · exact .inr (.inr (hchecks _ hne h))

theorem Released.keys {path : Path} (hr : Released s s' path)
    (h : (s.pending.map Prod.fst).Nodup) : (s'.pending.map Prod.fst).Nodup := by
  obtain ⟨changes, heq⟩ := hr.pending
  rw [heq]
  exact mergeChanges_keys h changes

theorem Released.releasing {path : Path} (hr : Released s s' path) (h : s.Releasing p) :
    s'.Releasing p := by
  obtain ⟨hsame, hcount, hoperations, hoperationCount, _, _⟩ := hr.same
  exact h.of_paths hoperations hoperationCount fun o _ => by rw [hsame]

theorem Parked.release (hp : s.Parked) (o : OperationId) (spawned : Bool) :
    (s.release o spawned).Parked := by
  have hr := (s.setOperation o .done).releaseDeferred_released
    (s.handles (s.operations o).handle).path spawned
  refine hp.released (hr.keys hp.pendingKeys) hr.stopping hr.deferred hr.stopped hr.same.openCounts
    (fun p hne hreleasing => hr.releasing ?_) (fun p _ hc => hr.checks p hc)
  obtain ⟨o', ho', hstage, hpath⟩ := hreleasing
  have hne' : o' ≠ o := by
    rintro rfl
    exact hne hpath.symm
  refine ⟨o', ho', ?_, ?_⟩
  · show (Function.update s.operations o _ o').stage = _
    rwa [Function.update_of_ne hne']
  · show (s.handles (Function.update s.operations o _ o').handle).path = _
    rwa [Function.update_of_ne hne']

theorem Parked.releaseParked (hp : s.Parked) (he : s.enabled .releaseParked) :
    s.releaseParked.Parked := by
  obtain ⟨path, left, closed, hpass⟩ := he
  have hr := s.releaseDeferred_released path false
  unfold State.releaseParked
  rw [hpass]
  refine @Parked.released _ _ hp path (hr.keys hp.pendingKeys) hr.stopping hr.deferred hr.stopped
    hr.same.openCounts (fun p _ h => hr.releasing h) (fun p hne hc => ?_)
  unfold checks at hc
  rw [hpass] at hc
  exact hc.resolve_left hne

theorem Parked.notify (hp : s.Parked) (spawned : Bool) : (s.startNotifying spawned).Parked := by
  obtain heq | ⟨hidle, heq⟩ := s.startNotifying_cases spawned
  · rwa [heq]
  · rw [heq]
    refine hp.keep rfl rfl rfl (fun _ h => .inl h) (fun _ h => h) (fun p hc => ?_)
    unfold checks at hc
    rw [hidle] at hc
    exact hc.elim

theorem Parked.treeChanged (hp : s.Parked) (diff : DirectoryTreeDiff) (spawned : Bool) :
    (s.treeChanged diff spawned).Parked := by
  unfold State.treeChanged
  split
  · exact hp
  · split
    · refine Parked.notify (s := { s with everythingDirty := true }) ?_ spawned
      exact hp.keep rfl rfl rfl (fun _ h => .inl h) (fun _ h => h) (fun _ h => .inl h)
    · refine Parked.notify (s := { s with pending := mergeChanges s.pending (changesOf diff) }) ?_ spawned
      exact ⟨mergeChanges_keys hp.pendingKeys _, hp.deferredKeys, hp.parked⟩

/-- A step of a pass that is not at its check. -/
theorem Parked.pass (hp : s.Parked) {pass : Pass}
    (hchecks : ∀ p, s.checks p → State.checks { s with pass } p ∨ s.isOpen p = true) :
    Parked { s with pass } :=
  hp.keep rfl rfl rfl (fun _ h => .inl h) (fun _ h => h) hchecks

theorem Parked.look (hp : s.Parked) (he : s.enabled .look) : s.look.Parked := by
  have hpass : s.pass = .looping := he
  have hnone : ∀ p, ¬s.checks p := fun p hc => by
    unfold checks at hc
    rw [hpass] at hc
    exact hc
  unfold State.look
  split
  · exact hp.pass fun p hc => absurd hc (hnone p)
  · split
    all_goals
      refine ⟨List.nodup_nil, hp.deferredKeys, fun hstop p hin => ?_⟩
      obtain h | h | h := hp.parked hstop p hin
      · exact .inl h
      · exact .inr (.inl h)
      · exact absurd h (hnone p)

theorem Parked.park (hp : s.Parked) (he : s.enabled .park) : s.park.Parked := by
  obtain ⟨closed, deferred, hpass⟩ := he
  have hnone : ∀ p, ¬s.checks p := fun p hc => by
    unfold checks at hc
    rw [hpass] at hc
    exact hc
  unfold State.park
  rw [hpass]
  dsimp only
  split
  · exact hp.pass fun p hc => absurd hc (hnone p)
  · exact ⟨hp.pendingKeys, mergeChanges_keys hp.deferredKeys _, fun _ _ _ => .inr (.inr trivial)⟩

theorem Parked.listParked (hp : s.Parked) (he : s.enabled .listParked) : s.listParked.Parked := by
  obtain ⟨closed, hpass⟩ := he
  unfold State.listParked
  rw [hpass]
  exact ⟨hp.pendingKeys, hp.deferredKeys, fun _ p hin => .inr (.inr hin)⟩

/-- A path that is found open needs no release. -/
theorem Parked.check (hp : s.Parked) (he : s.enabled .check) : s.check.Parked := by
  obtain ⟨left, closed, hpass⟩ := he
  have hleft : ∀ p, s.checks p → p ∈ left := fun p hc => by
    unfold checks at hc
    rw [hpass] at hc
    exact hc
  unfold State.check
  rw [hpass]
  cases left with
  | nil => exact hp.pass fun p hc => by simpa using hleft p hc
  | cons path left =>
    dsimp only
    split
    · next hopen =>
      refine hp.pass fun p hc => ?_
      obtain rfl | hin := List.mem_cons.mp (hleft p hc)
      · exact .inr hopen
      · exact .inl hin
    · exact hp.pass fun p hc => .inl (List.mem_cons.mp (hleft p hc))

theorem Parked.step (hp : s.Parked) (hs : s.Counted) (he : s.enabled e) : (s.step e).Parked := by
  have hnone : ∀ {p}, (∃ batch, s.pass = .announcing batch) → ¬s.checks p := by
    rintro p ⟨batch, hpass⟩ hc
    unfold checks at hc
    rw [hpass] at hc
    exact hc
  cases e with
  | openFile path directory => exact hp.openFile hs path directory
  | remember h => exact hp.remember h
  | count h => exact hp.count h
  | cleanup h => exact hp.begin h false
  | close h => exact hp.begin h true
  | uncount o => exact hp.uncount hs he
  | release o spawned => exact hp.release o spawned
  | treeChanged diff spawned => exact hp.treeChanged diff spawned
  | look => exact hp.look he
  | test =>
    obtain ⟨change, left, closed, deferred, hpass⟩ := he
    show s.test.Parked
    unfold State.test
    rw [hpass]
    dsimp only
    split <;>
      · refine hp.pass fun p hc => ?_
        unfold checks at hc
        rw [hpass] at hc
        exact hc.elim
  | park => exact hp.park he
  | listParked => exact hp.listParked he
  | check => exact hp.check he
  | releaseParked => exact hp.releaseParked he
  | announce present =>
    show (s.announce present).Parked
    unfold State.announce
    split
    · next change batch hpass =>
      exact hp.keep rfl rfl rfl (fun _ h => .inl h) (fun _ h => h) fun p hc =>
        absurd hc (hnone ⟨_, hpass⟩)
    · exact hp
  | giveUp => exact hp.pass fun p hc => absurd hc (hnone he)
  | stop => exact ⟨hp.pendingKeys, hp.deferredKeys, nofun⟩

/-! ### What is kept over runs -/

structure Kept (s : State) : Prop where
  counted : s.Counted
  parked : s.Parked
  closing : s.Closing

theorem kept (h : machine.Reachable (fun _ _ => True) s) : s.Kept := by
  refine h.invariant ?_ fun s e hs he _ => ⟨hs.counted.step he, hs.parked.step hs.counted he,
    hs.closing.step hs.counted he⟩
  rintro _ rfl
  exact ⟨⟨fun _ => rfl, nofun, fun _ _ => rfl, nofun, nofun, nofun⟩, ⟨.nil, .nil, nofun⟩, nofun⟩

/-- A step merges changes into what is queued, or takes all of it. -/
theorem step_pending (s : State) (e : Event) : (s.step e).pending = [] ∨
    ∃ changes, (s.step e).pending = mergeChanges s.pending changes := by
  cases e with
  | openFile | remember | count | cleanup | close => exact .inr ⟨[], rfl⟩
  | uncount o => exact .inr ⟨[], (s.uncount_queues o).1⟩
  | release o spawned => exact .inr (releaseDeferred_released _ _ spawned).pending
  | treeChanged diff spawned => exact .inr (s.treeChanged_queued diff spawned).2.1
  | look => exact s.look_taken.2.1.symm.imp id fun heq => ⟨[], heq⟩
  | park => exact .inr ⟨[], s.park_parked.2.1⟩
  | releaseParked => exact .inr s.releaseParked_released.2.1
  | test | listParked | check | announce | giveUp | stop =>
    exact .inr ⟨[], (step_aside rfl).pending⟩

/-- A step merges changes into what is parked, or lets some of it out. -/
theorem step_deferred (s : State) (e : Event) : List.Sublist (s.step e).deferred s.deferred ∨
    ∃ changes, (s.step e).deferred = mergeChanges s.deferred changes := by
  cases e with
  | openFile | remember | count | cleanup | close => exact .inr ⟨[], rfl⟩
  | uncount o => exact .inr ⟨[], (s.uncount_queues o).2⟩
  | release o spawned => exact .inl (releaseDeferred_released _ _ spawned).sublist
  | treeChanged diff spawned => exact .inr ⟨[], (s.treeChanged_queued diff spawned).2.2⟩
  | look => exact .inr ⟨[], s.look_taken.2.2⟩
  | park => exact .inr s.park_parked.2.2
  | releaseParked => exact .inl s.releaseParked_released.2.2.1
  | test | listParked | check | announce | giveUp | stop =>
    exact .inr ⟨[], (step_aside rfl).deferred⟩

/-- An addition that is parked stays parked as one, or is queued as one. -/
theorem step_released (hp : s.Parked) (e : Event) {p : Path} (hin : (p, .added) ∈ s.deferred) :
    (p, .added) ∈ (s.step e).deferred ∨ (p, .added) ∈ (s.step e).pending := by
  cases e with
  | openFile | remember | count | cleanup | close => exact .inl hin
  | uncount o => exact .inl ((s.uncount_queues o).2 ▸ hin)
  | release o spawned =>
    exact (releaseDeferred_released (s.setOperation o .done) _ spawned).moved hp.deferredKeys p hin
  | treeChanged diff spawned => exact .inl ((s.treeChanged_queued diff spawned).2.2 ▸ hin)
  | look => exact .inl (s.look_taken.2.2 ▸ hin)
  | park =>
    obtain ⟨changes, heq⟩ := s.park_parked.2.2
    refine .inl ?_
    show (p, ChangeKind.added) ∈ s.park.deferred
    rw [heq]
    exact mergeChanges_added (.inl hin)
  | releaseParked => exact s.releaseParked_released.2.2.2 hp.deferredKeys p hin
  | test | listParked | check | announce | giveUp | stop =>
    left
    rw [(step_aside rfl).deferred]
    exact hin

/-- A change queued or parked as an addition is never a modification for what is merged with it,
and a parked one is let out as an addition. -/
structure KeepsAdded (s : State) (e : Event) : Prop where
  pending : ∀ p, (p, ChangeKind.added) ∈ s.pending → (p, .modified) ∉ (s.step e).pending
  deferred : ∀ p, (p, ChangeKind.added) ∈ s.deferred → (p, .modified) ∉ (s.step e).deferred
  released : ∀ p, (p, ChangeKind.added) ∈ s.deferred →
    (p, .added) ∈ (s.step e).deferred ∨ (p, .added) ∈ (s.step e).pending
  merged : ∀ p (into changes : Changes), (into = s.pending ∨ into = s.deferred) →
    (p, ChangeKind.added) ∈ into ∨ (p, .added) ∈ changes →
      (p, .added) ∈ mergeChanges into changes ∧ (p, .modified) ∉ mergeChanges into changes

theorem keepsAdded (hp : s.Parked) (e : Event) : s.KeepsAdded e := by
  have hkeys : ∀ {into : Changes} (changes : Changes) {p}, (into.map Prod.fst).Nodup →
      (p, ChangeKind.added) ∈ into ∨ (p, .added) ∈ changes →
        (p, ChangeKind.modified) ∉ mergeChanges into changes := fun changes p hnodup hin hmodified =>
    nomatch kind_unique (mergeChanges_keys hnodup changes) (mergeChanges_added hin) hmodified
  refine ⟨fun p hin => ?_, fun p hin => ?_, fun p => step_released hp e,
    fun p into changes hinto hin => ⟨mergeChanges_added hin, ?_⟩⟩
  · obtain hnone | ⟨changes, heq⟩ := s.step_pending e
    · rw [hnone]
      exact List.not_mem_nil
    · rw [heq]
      exact hkeys changes hp.pendingKeys (.inl hin)
  · obtain hsub | ⟨changes, heq⟩ := s.step_deferred e
    · exact fun hmodified => nomatch kind_unique hp.deferredKeys hin (hsub.subset hmodified)
    · rw [heq]
      exact hkeys changes hp.deferredKeys (.inl hin)
  · obtain rfl | rfl := hinto
    · exact hkeys changes hp.pendingKeys hin
    · exact hkeys changes hp.deferredKeys hin

/-- Where no operation and no pass is in progress, every parked path has a handle open on it; the
counts are of the handles still counted; and each handle is uncounted once. -/
structure Unstranded (s : State) : Prop where
  parked : s.stopping = false → s.Quiet → ∀ p ∈ s.deferred.map Prod.fst,
    ∃ h < s.handleCount, (s.handles h).path = p ∧ (s.handles h).counted = true ∧
      (s.handles h).stage = .opened
  counts : ∀ p, s.openCounts p = if s.countedOn p = 0 then none else some (s.countedOn p : Int)
  once : ∀ h, s.uncounted.count h ≤ 1
  counted : ∀ h < s.handleCount, (s.handles h).counted = true → s.uncounted.count h = 0
  closed : ∀ o < s.operationCount, (s.operations o).stage ≠ .uncounting →
    (s.handles (s.operations o).handle).directory = false →
      s.uncounted.count (s.operations o).handle = 1

/-- No parked change is stranded, counts and handles agree, and an addition stays one, in every run
of opens, cleanups, closes, changes to the tree and passes. -/
theorem no_change_stranded (h : machine.Reachable (fun _ _ => True) s) :
    s.Unstranded ∧ ∀ e, s.enabled e → s.KeepsAdded e := by
  obtain ⟨hs, hp, hclosing⟩ := kept h
  have honce : ∀ h < s.handleCount, s.uncounted.count h + (s.handles h).counted.toNat ≤ 1 :=
    fun h hh => by
      rw [hs.once h hh]
      exact Bool.toNat_le _
  refine ⟨⟨fun hrun hquiet p hin => ?_, hs.counts, fun h => ?_, fun h hh hcounted => ?_,
    fun o ho hstage hfile => ?_⟩, fun e _ => keepsAdded hp e⟩
  · obtain hopen | ⟨o, ho, hstage, _⟩ | hchecks := hp.parked hrun p hin
    · obtain ⟨h, hh, hpath, hcounted⟩ := hs.exists_counted hopen
      refine ⟨h, hh, hpath, hcounted, (hquiet.opens h hh).resolve_right fun hclosed => ?_⟩
      -- Its close would be over, and have uncounted it.
      obtain ⟨o, ho, rfl⟩ := hclosing h hh hclosed
      have hfalse := hs.passed o ho (by simp [hquiet.operations o ho])
      simp [hcounted] at hfalse
    · rw [hquiet.operations o ho] at hstage
      simp at hstage
    · unfold checks at hchecks
      rw [hquiet.pass] at hchecks
      exact hchecks.elim
  · by_cases hh : h < s.handleCount
    · exact Nat.le_trans (Nat.le_add_right _ _) (honce h hh)
    · rw [hs.unmade h (Nat.le_of_not_lt hh)]
      exact Nat.zero_le 1
  · have hle := honce h hh
    rw [hcounted] at hle
    exact Nat.le_zero.mp (Nat.le_of_succ_le_succ hle)
  · obtain ⟨hh, hopen⟩ := hs.operation o ho
    have heq := hs.once _ hh
    have htaken : s.taken (s.operations o).handle = true := by
      unfold taken
      obtain hopen | hopen := hopen <;> simp [hfile, hopen]
    rwa [hs.passed o ho hstage, htaken] at heq

/-- A file is opened, and changes while it is open. -/
def changesOpened : List Event :=
  [.openFile [['a']] false, .remember 0, .count 0,
    .treeChanged { entriesChanged := [[['a']]] } true, .look, .test, .park, .listParked, .check,
    .check, .look]

theorem changesOpened_fires : machine.Fires (fun _ _ => True) {} changesOpened :=
  ⟨trivial, trivial, ⟨by decide, rfl⟩, trivial, ⟨by decide, rfl⟩, trivial, trivial, trivial, rfl,
    trivial, ⟨_, _, _, _, rfl⟩, trivial, ⟨_, _, rfl⟩, trivial, ⟨_, rfl⟩, trivial, ⟨_, _, rfl⟩,
    trivial, ⟨_, _, rfl⟩, trivial, rfl, trivial, trivial⟩

theorem no_change_stranded_opened :
    ∃ h < (machine.runs {} changesOpened).handleCount,
      ((machine.runs {} changesOpened).handles h).path = [['a']] ∧
        ((machine.runs {} changesOpened).handles h).counted = true ∧
        ((machine.runs {} changesOpened).handles h).stage = .opened :=
  (no_change_stranded ((Machine.Reachable.start rfl).runs changesOpened_fires)).1.parked rfl
    ⟨by decide +kernel, by decide +kernel, rfl⟩ [['a']] (by decide +kernel)

end State

end MakeBelieve.FileSystem.Windows
