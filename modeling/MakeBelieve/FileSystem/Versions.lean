import MakeBelieve.FileSystem.Inodes

namespace MakeBelieve.Inodes

open Library
open MakeBelieve.Snapshots (FileInfo FileSnapshot SnapshotId TakeId Versioned same_iff)

variable {s s' : State} {e : Event}

/-- Every snapshot an inode has been opened to is of the one version that its node says. -/
structure OneVersion (s : State) : Prop where
  versioned : Versioned s.snapshots
  nodes : ∀ ino node, s.paths ino = some node → ino ≤ s.nextInode
  fixed : ∀ ino node, s.paths ino = some node → ∀ id, node.snapshot = some id →
    ∃ x, s.snapshots.snapshots[id]? = some x ∧ x.path = node.path ∧ node.opened = some x.info
  opens : ∀ id open', s.opens id = some open' → open'.ino ≤ s.nextInode ∧
    (∀ node, s.paths open'.ino = some node → node.path = open'.path) ∧
    ∀ take, open'.take = some take → take < s.snapshots.nextTake ∧
      ∀ t, s.snapshots.takes take = some t → t.path = open'.path
  answers : ∀ a ∈ s.answers, a.ino ≤ s.nextInode ∧ ∀ id, a.result = .ok id →
    ∃ x, s.snapshots.snapshots[id]? = some x ∧
      ∀ node, s.paths a.ino = some node → x.path = node.path ∧ node.opened = some x.info
  alike : ∀ a ∈ s.answers, ∀ b ∈ s.answers, a.ino = b.ino → a.live = true → b.live = true →
    ∀ i j x y, a.result = .ok i → b.result = .ok j → s.snapshots.snapshots[i]? = some x →
      s.snapshots.snapshots[j]? = some y → x.path = y.path ∧ x.info = y.info
  handles : ∀ handle file, s.handles handle = some file →
    ∃ a ∈ s.answers, a.ino = file.ino ∧ a.result = .ok file.snapshot

/-- Nodes that go, that come with numbers never used before, or that only count another lookup leave
each inode its version. -/
theorem OneVersion.paths (h : OneVersion s) {ids : Path → Option Ino} {paths : Ino → Option Node}
    {nextInode : Ino} (hnext : s.nextInode ≤ nextInode)
    (hpaths : ∀ ino node', paths ino = some node' → ino ≤ nextInode ∧
      ((∃ node, s.paths ino = some node ∧ node'.path = node.path ∧ node'.opened = node.opened ∧
        node'.snapshot = node.snapshot) ∨ s.nextInode < ino ∧ node'.snapshot = none)) :
    OneVersion { s with ids, paths, nextInode } := by
  refine ⟨h.versioned, fun ino node' hnode' => (hpaths ino node' hnode').1,
    fun ino node' hnode' id hid => ?_, fun id open' hopen => ?_, fun a ha => ?_, h.alike, h.handles⟩
  · obtain ⟨_, ⟨node, hnode, hpath, hopened, hsnapshot⟩ | ⟨_, hnone⟩⟩ := hpaths ino node' hnode'
    · rw [hpath, hopened]
      exact h.fixed ino node hnode id (hsnapshot ▸ hid)
    · simp [hnone] at hid
  · obtain ⟨hle, hpath, htake⟩ := h.opens id open' hopen
    refine ⟨Nat.le_trans hle hnext, fun node' hnode' => ?_, htake⟩
    obtain ⟨_, ⟨node, hnode, hsame, _⟩ | ⟨hlt, _⟩⟩ := hpaths _ node' hnode'
    · rw [hsame]
      exact hpath node hnode
    · exact absurd hle (Nat.not_le.mpr hlt)
  · obtain ⟨hle, hok⟩ := h.answers a ha
    refine ⟨Nat.le_trans hle hnext, fun id hid => ?_⟩
    obtain ⟨x, hx, hnode⟩ := hok id hid
    refine ⟨x, hx, fun node' hnode' => ?_⟩
    obtain ⟨_, ⟨node, hold, hpath, hopened, _⟩ | ⟨hlt, _⟩⟩ := hpaths _ node' hnode'
    · rw [hpath, hopened]
      exact hnode node hold
    · exact absurd hle (Nat.not_le.mpr hlt)

theorem OneVersion.newInode (h : OneVersion s) (name : Path) : OneVersion (s.newInode name) := by
  refine h.paths (Nat.le_succ _) fun ino node' hnode' => ?_
  by_cases heq : ino = s.nextInode + 1
  · subst heq
    rw [Function.update_self, Option.some.injEq] at hnode'
    subst hnode'
    exact ⟨Nat.le_refl _, .inr ⟨Nat.lt_succ_self _, rfl⟩⟩
  · rw [Function.update_of_ne heq] at hnode'
    exact ⟨Nat.le_succ_of_le (h.nodes ino node' hnode'), .inl ⟨node', hnode', rfl, rfl, rfl⟩⟩

/-- One node with its lookups counted otherwise. -/
theorem OneVersion.counted (h : OneVersion s) {id : Ino} {node : Node} (hnode : s.paths id = some node)
    (lookups : Nat) :
    OneVersion { s with paths := Function.update s.paths id (some { node with lookups }) } := by
  refine h.paths (Nat.le_refl _) fun ino node' hnode' => ?_
  by_cases heq : ino = id
  · subst heq
    rw [Function.update_self, Option.some.injEq] at hnode'
    subst hnode'
    exact ⟨h.nodes ino node hnode, .inl ⟨node, hnode, rfl, rfl, rfl⟩⟩
  · rw [Function.update_of_ne heq] at hnode'
    exact ⟨h.nodes ino node' hnode', .inl ⟨node', hnode', rfl, rfl, rfl⟩⟩

theorem OneVersion.inode (h : OneVersion s) (name : Path) (file : Option FileInfo)
    (generation : Nat) : OneVersion (s.inode name file generation) := by
  unfold State.inode
  split
  · exact h.newInode name
  · split
    · exact h
    · next hnode =>
      split
      · exact h.counted hnode _
      · exact h.newInode name

theorem OneVersion.forgetInode (h : OneVersion s) (ino : Ino) (count : Nat) :
    OneVersion (s.forgetInode ino count) := by
  unfold State.forgetInode
  split
  · exact h
  · next node hnode =>
    split
    · exact h
    · split
      · refine h.paths (Nat.le_refl _) fun other node' hnode' => ?_
        by_cases heq : other = ino
        · simp [heq] at hnode'
        · rw [Function.update_of_ne heq] at hnode'
          exact ⟨h.nodes other node' hnode', .inl ⟨node', hnode', rfl, rfl, rfl⟩⟩
      · exact h.counted hnode _

/-- An inode answered with a snapshot of the version its node says, if it is live, or with an
error. -/
theorem OneVersion.answer (h : OneVersion s) (id : Nat) {ino : Ino}
    {result : Except ErrorCode SnapshotId} (hino : ino ≤ s.nextInode)
    (hresult : ∀ i, result = .ok i → ∃ x, s.snapshots.snapshots[i]? = some x ∧
      ∀ node, s.paths ino = some node → x.path = node.path ∧ node.opened = some x.info) :
    OneVersion (s.answer id ino result) := by
  have hsame : ∀ b ∈ s.answers, b.ino = ino → (s.paths ino).isSome = true →
      ∀ i j x y, result = .ok i → b.result = .ok j → s.snapshots.snapshots[i]? = some x →
        s.snapshots.snapshots[j]? = some y → x.path = y.path ∧ x.info = y.info := by
    rintro b hb rfl hlive i j x y hi hj hx hy
    obtain ⟨node, hnode⟩ := Option.isSome_iff_exists.mp hlive
    obtain ⟨x', hx', hnew⟩ := hresult i hi
    obtain ⟨y', hy', hold⟩ := (h.answers b hb).2 j hj
    obtain rfl := Option.some.inj (hx.symm.trans hx')
    obtain rfl := Option.some.inj (hy.symm.trans hy')
    obtain ⟨hpath, hopened⟩ := hnew node hnode
    obtain ⟨hpath', hopened'⟩ := hold node hnode
    exact ⟨hpath.trans hpath'.symm, Option.some.inj (hopened.symm.trans hopened')⟩
  refine ⟨h.versioned, h.nodes, h.fixed, fun other open' hopen => ?_, fun a ha => ?_,
    fun a ha b hb heq hlive hlive' i j x y hi hj hx hy => ?_, fun handle file hfile => ?_⟩
  · by_cases heq : other = id
    · simp [State.answer, heq] at hopen
    · exact h.opens other open' (by simpa [State.answer, heq] using hopen)
  · obtain ha | ha := List.mem_append.mp ha
    · exact h.answers a ha
    · rw [List.mem_singleton.mp ha]
      exact ⟨hino, hresult⟩
  · obtain ha | ha := List.mem_append.mp ha
    · obtain hb | hb := List.mem_append.mp hb
      · exact h.alike a ha b hb heq hlive hlive' i j x y hi hj hx hy
      · obtain rfl := List.mem_singleton.mp hb
        exact (hsame a ha heq hlive' j i y x hj hi hy hx).imp Eq.symm Eq.symm
    · obtain rfl := List.mem_singleton.mp ha
      obtain hb | hb := List.mem_append.mp hb
      · exact hsame b hb heq.symm hlive i j x y hi hj hx hy
      · obtain rfl := List.mem_singleton.mp hb
        obtain rfl : i = j := Except.ok.inj (hi.symm.trans hj)
        obtain rfl := Option.some.inj (hx.symm.trans hy)
        exact ⟨rfl, rfl⟩
  · obtain ⟨a, ha, hboth⟩ := h.handles handle file hfile
    exact ⟨a, List.mem_append_left _ ha, hboth⟩

/-- Whatever becomes of the snapshots, if none of them changes and no take of an open's changes its
path. -/
theorem OneVersion.snapshots (h : OneVersion s) {t : Snapshots.State} (hversioned : Versioned t)
    (hkept : ∀ (id : SnapshotId) (x : FileSnapshot), s.snapshots.snapshots[id]? = some x →
      t.snapshots[id]? = some x)
    (hnext : s.snapshots.nextTake ≤ t.nextTake)
    (htakes : ∀ take < s.snapshots.nextTake, ∀ u', t.takes take = some u' →
      ∃ u, s.snapshots.takes take = some u ∧ u'.path = u.path) :
    OneVersion { s with snapshots := t } := by
  have hold : ∀ {id : SnapshotId} {x : FileSnapshot}, t.snapshots[id]? = some x →
      ∀ {y : FileSnapshot}, s.snapshots.snapshots[id]? = some y → y = x := by
    intro id x hx y hy
    exact Option.some.inj ((hkept id y hy).symm.trans hx)
  refine ⟨hversioned, h.nodes, fun ino node hnode id hid => ?_, fun id open' hopen => ?_,
    fun a ha => ?_, fun a ha b hb heq hlive hlive' i j x y hi hj hx hy => ?_, h.handles⟩
  · obtain ⟨x, hx, hversion⟩ := h.fixed ino node hnode id hid
    exact ⟨x, hkept id x hx, hversion⟩
  · obtain ⟨hle, hpath, htake⟩ := h.opens id open' hopen
    refine ⟨hle, hpath, fun take heq => ?_⟩
    obtain ⟨hlt, hpath⟩ := htake take heq
    refine ⟨Nat.lt_of_lt_of_le hlt hnext, fun u' hu' => ?_⟩
    obtain ⟨u, hu, hsame⟩ := htakes take hlt u' hu'
    exact hsame.trans (hpath u hu)
  · obtain ⟨hle, hok⟩ := h.answers a ha
    refine ⟨hle, fun id hid => ?_⟩
    obtain ⟨x, hx, hnode⟩ := hok id hid
    exact ⟨x, hkept id x hx, hnode⟩
  · obtain ⟨x', hx', _⟩ := (h.answers a ha).2 i hi
    obtain ⟨y', hy', _⟩ := (h.answers b hb).2 j hj
    obtain rfl := hold hx hx'
    obtain rfl := hold hy hy'
    exact h.alike a ha b hb heq hlive hlive' i j x' y' hi hj hx' hy'

/-- References and takes given up. -/
theorem OneVersion.givenUp (h : OneVersion s) (refs : List SnapshotId)
    {takes : TakeId → Option Snapshots.Take}
    (htakes : ∀ id take, takes id = some take → s.snapshots.takes id = some take) :
    OneVersion { s with snapshots := { s.snapshots with refs, takes } } :=
  h.snapshots (h.versioned.frame rfl rfl rfl rfl rfl htakes) (fun _ _ hx => hx) (Nat.le_refl _)
    fun take _ u' hu' => ⟨u', htakes take u' hu', rfl⟩

/-- An inode's version said anew, if none was, or the snapshot of it that is kept. -/
theorem OneVersion.fix (h : OneVersion s) {ino : Ino} {node : Node} (hnode : s.paths ino = some node)
    {opened : Option FileInfo} (hopened : node.opened = none ∨ node.opened = opened)
    (generation : Nat) {id : SnapshotId} {x : FileSnapshot}
    (hx : s.snapshots.snapshots[id]? = some x) (hpath : x.path = node.path)
    (hinfo : opened = some x.info) :
    OneVersion { s with
      paths := Function.update s.paths ino
        (some { node with opened, generation, snapshot := some id }) } := by
  have hupdated : ∀ {other : Ino} {node' : Node}, Function.update s.paths ino
      (some { node with opened, generation, snapshot := some id }) other = some node' →
      (other = ino ∧ node' = { node with opened, generation, snapshot := some id }) ∨
        s.paths other = some node' := by
    intro other node' hnode'
    by_cases heq : other = ino
    · subst heq
      rw [Function.update_self, Option.some.injEq] at hnode'
      exact .inl ⟨rfl, hnode'.symm⟩
    · rw [Function.update_of_ne heq] at hnode'
      exact .inr hnode'
  refine ⟨h.versioned, fun other node' hnode' => ?_, fun other node' hnode' i hi => ?_,
    fun id open' hopen => ?_, fun a ha => ?_, h.alike, h.handles⟩
  · obtain ⟨rfl, rfl⟩ | hold := hupdated hnode'
    · exact h.nodes other node hnode
    · exact h.nodes other node' hold
  · obtain ⟨rfl, rfl⟩ | hold := hupdated hnode'
    · obtain rfl := Option.some.inj hi
      exact ⟨x, hx, hpath, hinfo⟩
    · exact h.fixed other node' hold i hi
  · obtain ⟨hle, hsame, htake⟩ := h.opens id open' hopen
    refine ⟨hle, fun node' hnode' => ?_, htake⟩
    obtain ⟨heq, rfl⟩ | hold := hupdated hnode'
    · exact hsame node (heq ▸ hnode)
    · exact hsame node' hold
  · obtain ⟨hle, hok⟩ := h.answers a ha
    refine ⟨hle, fun i hi => ?_⟩
    obtain ⟨y, hy, hversion⟩ := hok i hi
    refine ⟨y, hy, fun node' hnode' => ?_⟩
    obtain ⟨heq, rfl⟩ | hold := hupdated hnode'
    · obtain ⟨hpath', hopened'⟩ := hversion node (heq ▸ hnode)
      obtain hnone | hsame := hopened
      · simp [hnone] at hopened'
      · exact ⟨hpath', hsame ▸ hopened'⟩
    · exact hversion node' hold

/-- What an open that has taken its file does of its inode. -/
structure Served (s : State) (ino : Ino) (s' : State) (served : Option SnapshotId) : Prop where
  one : OneVersion s'
  nextInode : s'.nextInode = s.nextInode
  opens : s'.opens = s.opens
  answers : s'.answers = s.answers
  handles : s'.handles = s.handles
  live : (s'.paths ino).isSome = (s.paths ino).isSome
  served : ∀ id, served = some id → ∃ x, s'.snapshots.snapshots[id]? = some x ∧
    ∀ node, s'.paths ino = some node → x.path = node.path ∧ node.opened = some x.info

theorem OneVersion.versionFor (h : OneVersion s) {ino : Ino} {id : SnapshotId}
    {current : FileSnapshot} (hcurrent : s.snapshots.snapshots[id]? = some current)
    (hpath : ∀ node, s.paths ino = some node → node.path = current.path) :
    Served s ino (s.versionFor ino id current).1 (s.versionFor ino id current).2 := by
  have htakes : ∀ id take, s.snapshots.takes id = some take → s.snapshots.takes id = some take :=
    fun _ _ htake => htake
  unfold State.versionFor
  cases hnode : s.paths ino with
  | none =>
    refine ⟨h, rfl, rfl, rfl, rfl, by rw [hnode], fun i hi => ?_⟩
    obtain rfl := Option.some.inj hi
    exact ⟨current, hcurrent, fun node hsome => by simp [hnode] at hsome⟩
  | some node =>
    have hself : ∀ {opened : Option FileInfo} {generation : Nat}, opened = some current.info →
        ∀ i, some id = some i → ∃ x, s.snapshots.snapshots[i]? = some x ∧
          ∀ node', Function.update s.paths ino
            (some { node with opened, generation, snapshot := some id }) ino = some node' →
            x.path = node'.path ∧ node'.opened = some x.info := by
      intro opened generation hopened i hi
      obtain rfl := Option.some.inj hi
      refine ⟨current, hcurrent, fun node' hnode' => ?_⟩
      rw [Function.update_self, Option.some.injEq] at hnode'
      subst hnode'
      exact ⟨(hpath node hnode).symm, hopened⟩
    have hlive : ∀ node' : Node, (Function.update s.paths ino (some node') ino).isSome =
        (s.paths ino).isSome := by
      intro node'
      rw [Function.update_self, hnode]
      rfl
    dsimp only
    cases hopened : node.opened with
    | none =>
      exact ⟨h.fix hnode (.inl hopened) _ hcurrent (hpath node hnode).symm rfl, rfl, rfl, rfl, rfl,
        hlive _, hself rfl⟩
    | some opened =>
      dsimp only
      split
      · next held hheld =>
        refine ⟨h.givenUp _ htakes, rfl, rfl, rfl, rfl, by rw [hnode], fun i hi => ?_⟩
        obtain rfl := Option.some.inj hi
        obtain ⟨kept, hkept, hlock⟩ := Option.bind_eq_some_iff.mp hheld
        have hsame : kept = held := by
          unfold Snapshots.State.lock at hlock
          split at hlock
          · exact Option.some.inj hlock
          · simp at hlock
        obtain ⟨x, hx, hversion⟩ := h.fixed ino node hnode held (hsame ▸ hkept)
        refine ⟨x, hx, fun node' hnode' => ?_⟩
        obtain rfl := Option.some.inj (hnode.symm.trans hnode')
        exact hversion
      · split
        · next hmatches =>
          rw [Bool.and_eq_true, same_iff] at hmatches
          have hinfo : some opened = some current.info := congrArg some hmatches.2
          exact ⟨h.fix hnode (.inr hopened) _ hcurrent (hpath node hnode).symm hinfo, rfl, rfl, rfl,
            rfl, hlive _, hself hinfo⟩
        · exact ⟨h.givenUp _ htakes, rfl, rfl, rfl, rfl, by rw [hnode],
            fun i hi => absurd hi (by simp)⟩

/-- A handle of what its inode was answered. -/
theorem OneVersion.handle (h : OneVersion s) (number lastHandle : Nat) {file : FileHandle}
    (hfile : ∃ a ∈ s.answers, a.ino = file.ino ∧ a.result = .ok file.snapshot) :
    OneVersion { s with handles := Function.update s.handles number (some file), lastHandle } := by
  refine ⟨h.versioned, h.nodes, h.fixed, h.opens, h.answers, h.alike, fun other file' hfile' => ?_⟩
  dsimp only at hfile'
  by_cases heq : other = number
  · subst heq
    rw [Function.update_self, Option.some.injEq] at hfile'
    exact hfile' ▸ hfile
  · rw [Function.update_of_ne heq] at hfile'
    exact h.handles other file' hfile'

/-- An open by its number, of what its inode is named. -/
theorem OneVersion.opening (h : OneVersion s) (id nextOpen : Nat) {open' : Open}
    (hino : open'.ino ≤ s.nextInode)
    (hpath : ∀ node, s.paths open'.ino = some node → node.path = open'.path)
    (htake : ∀ take, open'.take = some take → take < s.snapshots.nextTake ∧
      ∀ t, s.snapshots.takes take = some t → t.path = open'.path) :
    OneVersion { s with opens := Function.update s.opens id (some open'), nextOpen } := by
  refine ⟨h.versioned, h.nodes, h.fixed, fun other open'' hopen => ?_, h.answers, h.alike,
    h.handles⟩
  dsimp only at hopen
  by_cases heq : other = id
  · subst heq
    rw [Function.update_self, Option.some.injEq] at hopen
    subst hopen
    exact ⟨hino, hpath, htake⟩
  · rw [Function.update_of_ne heq] at hopen
    exact h.opens other open'' hopen

theorem OneVersion.stepped (h : OneVersion s) {e : Snapshots.Event} {t : Snapshots.State}
    (hs : Snapshots.Stepped s.snapshots e t) (hok : Snapshots.Distinguished s.snapshots e) :
    OneVersion { s with snapshots := t } := by
  refine h.snapshots (h.versioned.step hs hok) (fun _ _ => hs.snapshot) hs.nextTake
    fun take hlt u' hu' => ?_
  obtain ⟨u, hu, hpath, _⟩ | ⟨_, _, rfl, _⟩ := hs.takes hu'
  · exact ⟨u, hu, hpath⟩
  · exact absurd hlt (Nat.lt_irrefl _)

theorem OneVersion.treeOpened (h : OneVersion s) {id : Nat} {open' : Open}
    (hopen : s.opens id = some open') :
    OneVersion { s with
      opens := Function.update s.opens id (some { open' with take := some s.snapshots.nextTake })
      snapshots := s.snapshots.begin open'.path } := by
  obtain ⟨hino, hpath, _⟩ := h.opens id open' hopen
  refine (h.stepped (.begin open'.path) trivial).opening id s.nextOpen hino hpath
    fun take htake => ?_
  obtain rfl := Option.some.inj htake
  refine ⟨Nat.lt_succ_self _, fun t ht => ?_⟩
  simp only [Snapshots.State.begin, Function.update_self, Option.some.injEq] at ht
  exact ht ▸ rfl

/-- The state without an open's take, which is over. -/
def State.took (s : State) (take : TakeId) : State :=
  { s with snapshots := { s.snapshots with takes := Function.update s.snapshots.takes take none } }

theorem OneVersion.took (h : OneVersion s) (take : TakeId) : OneVersion (s.took take) := by
  refine h.givenUp _ fun id t ht => ?_
  by_cases heq : id = take
  · simp [heq] at ht
  · rwa [Function.update_of_ne heq] at ht

/-- What an open has taken is of the path its inode is named. -/
theorem OneVersion.taken (h : OneVersion s) {id : Nat} {open' : Open} {take : TakeId}
    {taken : SnapshotId} (hopen : s.opens id = some open') (htake : open'.take = some take)
    (hat : s.snapshots.At take (.returned (.ok taken))) :
    ∃ current, s.snapshots.snapshots[taken]? = some current ∧
      ∀ node, s.paths open'.ino = some node → node.path = current.path := by
  obtain ⟨_, hpath, htakes⟩ := h.opens id open' hopen
  obtain ⟨⟨path, before, _⟩, ht, rfl⟩ := hat
  obtain ⟨current, hcurrent, hsame, _⟩ := h.versioned.sees take _ ht
  have hopened : path = open'.path := (htakes take htake).2 _ ht
  exact ⟨current, hcurrent, fun node hnode => (hpath node hnode).trans (hopened ▸ hsame.symm)⟩

theorem OneVersion.finish (h : OneVersion s) {id : Nat} {open' : Open} {take : TakeId}
    {result : Except ErrorCode SnapshotId} (hopen : s.opens id = some open')
    (htake : open'.take = some take) (hat : s.snapshots.At take (.returned result)) :
    OneVersion (s.finish id open' take result) := by
  have hino : open'.ino ≤ s.nextInode := (h.opens id open' hopen).1
  unfold State.finish
  cases result with
  | error error => exact (h.took take).answer id hino fun i hi => absurd hi (by simp)
  | ok taken =>
    obtain ⟨current, hcurrent, hpath⟩ := h.taken hopen htake hat
    have hserved := (h.took take).versionFor hcurrent hpath
    dsimp only
    rw [hcurrent]
    unfold State.took at hserved
    dsimp only
    generalize State.versionFor _ open'.ino taken current = outcome at hserved ⊢
    obtain ⟨s', served⟩ := outcome
    dsimp only at hserved
    have hino' : open'.ino ≤ s'.nextInode := hserved.nextInode ▸ hino
    cases served with
    | none => exact hserved.one.answer id hino' fun i hi => absurd hi (by simp)
    | some version =>
      refine (hserved.one.answer id hino' fun i hi => ?_).handle _ _ ?_
      · exact hserved.served i (congrArg some (Except.ok.inj hi))
      · exact ⟨_, List.mem_append_right _ (List.mem_singleton_self _), rfl, rfl⟩

theorem OneVersion.step (h : OneVersion s) (he : s.enabled e) (hok : Distinguished s e) :
    OneVersion (s.step e) := by
  cases e with
  | snapshots e => exact h.stepped (Snapshots.State.stepped he.1) hok
  | lookup name file generation => exact h.inode name file generation
  | forget ino count => exact h.forgetInode ino count
  | «open» ino =>
    obtain ⟨node, hnode⟩ := Option.isSome_iff_exists.mp he
    unfold State.step
    dsimp only
    rw [hnode]
    refine h.opening _ _ (h.nodes ino node hnode) (fun node' hnode' => ?_) fun take htake => ?_
    · rw [Option.some.inj (hnode'.symm.trans hnode)]
    · simp at htake
  | treeOpened id fails =>
    obtain ⟨open', hopen, _⟩ := he
    unfold State.step
    dsimp only
    rw [hopen]
    cases fails with
    | some error =>
      exact h.answer id (h.opens id open' hopen).1 fun i hi => absurd hi (by simp)
    | none => exact h.treeOpened hopen
  | cancel id error =>
    obtain ⟨open', hopen⟩ := Option.isSome_iff_exists.mp he
    unfold State.step
    dsimp only
    rw [hopen]
    exact h.answer id (h.opens id open' hopen).1 fun i hi => absurd hi (by simp)
  | finish id =>
    obtain ⟨⟨ino, path, _⟩, take, result, hopen, rfl, ⟨⟨of, before, _⟩, htake, rfl⟩⟩ := he
    unfold State.step
    dsimp only
    rw [hopen]
    dsimp only
    rw [htake]
    exact h.finish hopen rfl ⟨_, htake, rfl⟩
  | release handle =>
    obtain ⟨file, hfile⟩ := Option.isSome_iff_exists.mp he
    unfold State.step
    dsimp only
    rw [hfile]
    have hreleased := h.givenUp (s.snapshots.refs.erase file.snapshot) fun _ _ ht => ht
    refine ⟨hreleased.versioned, h.nodes, h.fixed, h.opens, h.answers, h.alike,
      fun other file' hfile' => ?_⟩
    by_cases heq : other = handle
    · simp [heq] at hfile'
    · exact h.handles other file' (by simpa [heq] using hfile')

theorem oneVersion (h : machine.Reachable Distinguished s) : OneVersion s := by
  refine h.invariant (P := OneVersion) (fun s hs => ?_) fun s e hk he hok => hk.step he hok
  obtain ⟨snapshots, hinit, rfl⟩ := hs
  have hversioned := Snapshots.versioned (fun _ _ hok => hok) (.start hinit)
  refine ⟨hversioned, fun ino node hnode => ?_, fun ino node hnode id hid => ?_, by simp, by simp,
    by simp, by simp⟩
  · by_cases heq : ino = rootId
    · exact Nat.le_of_eq heq
    · simp [heq] at hnode
  · by_cases heq : ino = rootId
    · dsimp only at hnode
      rw [heq, Function.update_self, Option.some.injEq] at hnode
      simp [← hnode] at hid
    · simp [heq] at hnode

/-- Whether an inode's version is gone, for an open that has found the file to be another. -/
def State.Gone (s : State) (node : Node) (current : FileSnapshot) : Prop :=
  node.opened.isSome = true ∧ node.snapshot.bind s.snapshots.lock = none ∧
    ¬ (node.generation = current.generation ∧ node.opened = some current.info)

/-- An open that has found a file serves nothing exactly if its inode's version is gone. -/
theorem versionFor_eq_none (s : State) (ino : Ino) (id : SnapshotId) (current : FileSnapshot) :
    (s.versionFor ino id current).2 = none ↔
      ∃ node, s.paths ino = some node ∧ s.Gone node current := by
  unfold State.versionFor
  cases s.paths ino with
  | none => simp
  | some node =>
    have hgone : (∃ node', some node = some node' ∧ s.Gone node' current) ↔ s.Gone node current := by
      simp
    rw [hgone]
    unfold State.Gone
    dsimp only
    cases hopened : node.opened with
    | none => simp
    | some opened =>
      dsimp only
      cases hheld : node.snapshot.bind s.snapshots.lock with
      | some held => simp
      | none =>
        dsimp only
        split
        · next hmatches => simpa [same_iff] using hmatches
        · next hdiffers => simpa [same_iff] using hdiffers

theorem step_finish {id : Nat} {open' : Open} {take : TakeId}
    {result : Except ErrorCode SnapshotId} (hopen : s.opens id = some open')
    (htake : open'.take = some take) (hat : s.snapshots.At take (.returned result)) :
    s.step (.finish id) = s.finish id open' take result := by
  obtain ⟨ino, path, _⟩ := open'
  obtain rfl := htake
  obtain ⟨⟨of, before, _⟩, ht, rfl⟩ := hat
  unfold State.step
  dsimp only
  rw [hopen]
  dsimp only
  rw [ht]

/-- What an open that has found a file is answered. -/
theorem OneVersion.finish_ok (h : OneVersion s) {id : Nat} {open' : Open} {take : TakeId}
    {taken : SnapshotId} {current : FileSnapshot} (hopen : s.opens id = some open')
    (htake : open'.take = some take) (hat : s.snapshots.At take (.returned (.ok taken)))
    (hcurrent : s.snapshots.snapshots[taken]? = some current) {node : Node}
    (hnode : s.paths open'.ino = some node) :
    ∃ result, (s.finish id open' take (.ok taken)).answers =
        s.answers ++ [{ ino := open'.ino, live := true, result }] ∧
      (s.Gone node current → result = .error estale) ∧
      (¬ s.Gone node current → ∃ version, result = .ok version) := by
  obtain ⟨found, hfound, hpath⟩ := h.taken hopen htake hat
  obtain rfl := Option.some.inj (hfound.symm.trans hcurrent)
  have hserved := (h.took take).versionFor hfound hpath
  have hnone : ((s.took take).versionFor open'.ino taken found).2 = none ↔ s.Gone node found := by
    refine (versionFor_eq_none ..).trans ⟨?_, fun hgone => ⟨node, hnode, hgone⟩⟩
    rintro ⟨node', hnode', hgone⟩
    rwa [Option.some.inj (hnode.symm.trans hnode')]
  have hlive : ((s.took take).paths open'.ino).isSome = true := by
    show (s.paths open'.ino).isSome = true
    rw [hnode]
    rfl
  unfold State.finish
  unfold State.took at hserved hnone hlive
  dsimp only at hlive ⊢
  rw [hfound]
  dsimp only
  generalize State.versionFor _ open'.ino taken found = outcome at hserved hnone ⊢
  obtain ⟨s', served⟩ := outcome
  have hlive' : (s'.paths open'.ino).isSome = true := hserved.live.trans hlive
  have hanswers : s'.answers = s.answers := hserved.answers
  cases served with
  | none =>
    refine ⟨.error estale, ?_, fun _ => rfl, fun hnot => absurd (hnone.mp rfl) hnot⟩
    simp [State.answer, hlive', hanswers]
  | some version =>
    refine ⟨.ok version, ?_, fun hgone => absurd (hnone.mpr hgone) (by simp), fun _ => ⟨_, rfl⟩⟩
    simp [State.answer, hlive', hanswers]

/-- What one inode serves is of one size and time, and so of the same bytes. -/
theorem OneVersion.bytes (h : OneVersion s) {a b : Answer} (ha : a ∈ s.answers) (hb : b ∈ s.answers)
    (hino : a.ino = b.ino) (hlive : a.live = true) (hlive' : b.live = true) {i j : SnapshotId}
    (hi : a.result = .ok i) (hj : b.result = .ok j) :
    ∃ x y, s.snapshots.snapshots[i]? = some x ∧ s.snapshots.snapshots[j]? = some y ∧
      x.bytes = y.bytes := by
  obtain ⟨x, hx, _⟩ := (h.answers a ha).2 i hi
  obtain ⟨y, hy, _⟩ := (h.answers b hb).2 j hj
  obtain ⟨hpath, hinfo⟩ := h.alike a ha b hb hino hlive hlive' i j x y hi hj hx hy
  have hversion := h.versioned.versions x (List.mem_of_getElem? hx)
  have hversion' := h.versioned.versions y (List.mem_of_getElem? hy)
  rw [← hpath] at hversion'
  exact ⟨x, y, hx, hy, h.versioned.unique hversion hversion' (congrArg FileInfo.size hinfo)
    (congrArg FileInfo.mtime hinfo)⟩

/-- An inode that has been opened has the size and time of what it was answered, with and without a
handle of it. -/
theorem OneVersion.getattr (h : OneVersion s) {a : Answer} (ha : a ∈ s.answers) {i : SnapshotId}
    (hi : a.result = .ok i) (hlive : (s.paths a.ino).isSome = true) :
    ∃ x, s.snapshots.snapshots[i]? = some x ∧ ∀ handle : Option Nat,
      (∀ file, handle.bind s.handles = some file → file.ino = a.ino) →
      s.getattr a.ino handle = .ok (some x.info) := by
  obtain ⟨node, hnode⟩ := Option.isSome_iff_exists.mp hlive
  obtain ⟨x, hx, hversion⟩ := (h.answers a ha).2 i hi
  obtain ⟨hpath, hopened⟩ := hversion node hnode
  refine ⟨x, hx, fun handle hhandle => ?_⟩
  have hopened' : (s.paths a.ino).bind Node.opened = some x.info := by rw [hnode]; exact hopened
  unfold State.getattr
  cases hfile : handle.bind s.handles with
  | none =>
    dsimp only
    rw [hopened']
    rfl
  | some file =>
    obtain ⟨number, rfl, hnumber⟩ := Option.bind_eq_some_iff.mp hfile
    obtain ⟨b, hb, hino, hresult⟩ := h.handles number file hnumber
    obtain ⟨y, hy, hversion'⟩ := (h.answers b hb).2 file.snapshot hresult
    have hsame := hversion' node (by rw [hino, hhandle file hfile, hnode])
    dsimp only
    rw [Option.bind_some, hy, Option.map_some, Option.some_or,
      ← Option.some.inj (hopened.symm.trans hsame.2)]

/-- What is served of a live inode is of one version, which is what its attributes are of; and an
open whose version is gone is answered so, unless the file could not be taken at all. -/
theorem inode_one_version (h : machine.Reachable Distinguished s) :
    (∀ a ∈ s.answers, ∀ b ∈ s.answers, a.ino = b.ino → a.live = true → b.live = true →
      ∀ i j, a.result = .ok i → b.result = .ok j →
        ∃ x y, s.snapshots.snapshots[i]? = some x ∧ s.snapshots.snapshots[j]? = some y ∧
          x.bytes = y.bytes) ∧
    (∀ a ∈ s.answers, ∀ i, a.result = .ok i → (s.paths a.ino).isSome = true →
      ∃ x, s.snapshots.snapshots[i]? = some x ∧ ∀ handle : Option Nat,
        (∀ file, handle.bind s.handles = some file → file.ino = a.ino) →
        s.getattr a.ino handle = .ok (some x.info)) ∧
    ∀ id open' take result node, s.opens id = some open' → open'.take = some take →
      s.snapshots.At take (.returned result) → s.paths open'.ino = some node →
      ∃ answer, (machine.step s (.finish id)).answers =
          s.answers ++ [{ ino := open'.ino, live := true, result := answer }] ∧
        match result with
        | .error error => answer = .error error
        | .ok taken => ∃ current, s.snapshots.snapshots[taken]? = some current ∧
            (s.Gone node current → answer = .error estale) ∧
            (¬ s.Gone node current → ∃ version, answer = .ok version) := by
  have hone := oneVersion h
  refine ⟨fun a ha b hb hino hlive hlive' i j => hone.bytes ha hb hino hlive hlive',
    fun a ha i => hone.getattr ha, fun id open' take result node hopen htake hat hnode => ?_⟩
  change ∃ answer, (s.step (.finish id)).answers = _ ∧ _
  rw [step_finish hopen htake hat]
  cases result with
  | error error =>
    refine ⟨.error error, ?_, rfl⟩
    simp [State.finish, State.answer, hnode]
  | ok taken =>
    obtain ⟨current, hcurrent, _⟩ := hone.taken hopen htake hat
    obtain ⟨answer, hanswers, hanswer⟩ := hone.finish_ok hopen htake hat hcurrent hnode
    exact ⟨answer, hanswers, current, hcurrent, hanswer⟩

def name : Path := ["a".toList]

def single : State := { snapshots := { history := fun _ => [.file [1] 1] } }

/-- A file is looked up and read, and nobody has it open any more. -/
def readOnce : List Event :=
  [.lookup name (some { size := 1, mtime := 1 }) 0, .open 2, .treeOpened 0 none,
    .snapshots (.status 0 none), .snapshots (.look 0), .snapshots (.compare 0),
    .snapshots (.read 0 none), .snapshots (.insert 0 7), .finish 0, .release 1,
    .snapshots (.forget 0)]

theorem reachable_readOnce : machine.Reachable Distinguished (machine.runs single readOnce) := by
  refine .runs (.start ⟨_, ⟨fun _ => .file [1] 1, rfl⟩, rfl⟩) ?_
  refine ⟨trivial, trivial, rfl, trivial, ⟨_, rfl, rfl⟩, trivial, ⟨⟨_, rfl, rfl⟩, ?_⟩, trivial,
    ⟨⟨_, _, rfl, rfl⟩, ?_⟩, trivial, ⟨⟨_, _, _, rfl, rfl⟩, ?_⟩, trivial, ⟨⟨_, rfl, rfl⟩, ?_⟩,
    trivial, ⟨⟨⟨_, _, _, rfl, rfl⟩, ?_⟩, ?_⟩, trivial, ⟨_, _, _, rfl, rfl, _, rfl, rfl⟩, trivial,
    rfl, trivial, ⟨⟨?_, rfl⟩, ?_⟩, trivial, trivial⟩
  case refine_5 =>
    intro other
    show none ≠ some 7
    simp
  case refine_7 =>
    show 0 ∉ []
    simp
  all_goals exact fun _ _ heq => nomatch heq

/-- It is written anew, and its inode opened again. -/
def rewritten : List Event :=
  [.snapshots (.write name (.file [2] 2)), .snapshots (.report { entriesChanged := [name] }),
    .open 2, .treeOpened 1 none, .snapshots (.status 1 none), .snapshots (.look 1),
    .snapshots (.compare 1), .snapshots (.read 1 none), .snapshots (.insert 1 8)]

theorem inode_one_version_rewritten :
    ∃ answer, (machine.step (machine.runs (machine.runs single readOnce) rewritten)
        (.finish 1)).answers = [{ ino := 2, live := true, result := .ok 0 },
          { ino := 2, live := true, result := answer }] ∧ answer = .error estale := by
  have hreach : machine.Reachable Distinguished
      (machine.runs (machine.runs single readOnce) rewritten) := by
    refine .runs reachable_readOnce ?_
    refine ⟨⟨trivial, ?_⟩, ?_, ⟨trivial, ?_⟩, trivial, rfl, trivial, ⟨_, rfl, rfl⟩, trivial,
      ⟨⟨_, rfl, rfl⟩, ?_⟩, trivial, ⟨⟨_, _, rfl, rfl⟩, ?_⟩, trivial, ⟨⟨_, _, _, rfl, rfl⟩, ?_⟩,
      trivial, ⟨⟨_, rfl, rfl⟩, ?_⟩, trivial, ⟨⟨⟨_, _, _, rfl, rfl⟩, ?_⟩, ?_⟩, trivial, trivial⟩
    case refine_2 =>
      intro old hold
      rw [List.mem_singleton.mp hold]
      show ([1].length, (1 : Int64)) ≠ ([2].length, 2)
      decide
    case refine_8 =>
      intro other
      show Function.update (Function.update (fun _ => none) 0 (some 7)) 0 none other ≠ some 8
      by_cases heq : other = 0
      · simp [heq]
      · simp [heq]
    all_goals exact fun _ _ heq => nomatch heq
  obtain ⟨_, _, hfinish⟩ := inode_one_version hreach
  obtain ⟨answer, hanswers, current, hcurrent, hgone, _⟩ :=
    hfinish 1 _ 1 (.ok 1) _ rfl rfl ⟨_, rfl, rfl⟩ rfl
  refine ⟨answer, hanswers, hgone ⟨rfl, rfl, ?_⟩⟩
  obtain rfl := Option.some.inj hcurrent
  rintro ⟨hgeneration, _⟩
  exact absurd hgeneration (by decide)

/-- It is removed, and its inode opened again. -/
def removed : List Event :=
  [.snapshots (.write name .missing), .snapshots (.report { entriesChanged := [name] }), .open 2]

/-- The version of an inode is gone, and an open of it is answered what the tree answers. -/
theorem gone_noSuchFile :
    ∃ s id open' node, machine.Reachable Distinguished s ∧ s.opens id = some open' ∧
      s.paths open'.ino = some node ∧ node.opened.isSome = true ∧
      node.snapshot.bind s.snapshots.lock = none ∧ s.snapshots.entry node.path = .missing ∧
      machine.enabled s (.treeOpened id (some .noSuchFileOrDirectory)) ∧
      (machine.step s (.treeOpened id (some .noSuchFileOrDirectory))).answers.getLast? =
        some { ino := open'.ino, live := true, result := .error .noSuchFileOrDirectory } := by
  refine ⟨machine.runs (machine.runs single readOnce) removed, 1, _, _, ?_, rfl, rfl, rfl, rfl,
    rfl, ⟨_, rfl, rfl⟩, rfl⟩
  refine .runs reachable_readOnce ?_
  refine ⟨⟨trivial, ?_⟩, ?_, ⟨trivial, ?_⟩, trivial, rfl, trivial, trivial⟩
  case refine_2 =>
    intro old hold
    rw [List.mem_singleton.mp hold]
    trivial
  all_goals exact fun _ _ heq => nomatch heq

end MakeBelieve.Inodes
