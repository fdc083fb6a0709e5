import MakeBelieve.FileSystem.Versions

namespace MakeBelieve.Inodes

open Library
open MakeBelieve.Snapshots (FileInfo FileSnapshot SnapshotId)

/-- What lookups have given out: how many of each inode are still to be taken back, by the kernel or
for a reply that failed, and the name it was given for. -/
structure Lookups where
  outstanding : Ino → Nat := fun _ => 0
  names : Ino → Option Path := Function.update (fun _ => none) rootId (some [])

def noteLookup (s : State) : Event → Lookups → Lookups
  | .lookup name file generation, n =>
    match (s.inode name file generation).ids name with
    | some ino =>
      { outstanding := Function.update n.outstanding ino (n.outstanding ino + 1)
        names := Function.update n.names ino (some name) }
    | none => n
  | .forget ino count, n =>
    { n with outstanding := Function.update n.outstanding ino (n.outstanding ino - count) }
  | _, n => n

/-- The filesystem with what its lookups have given out. -/
def served : Machine (State × Lookups) Event := machine.noting (fun _ => {}) noteLookup

/-- No more lookups are forgotten than are outstanding. -/
def Owed (s : State × Lookups) (e : Event) : Prop :=
  ∀ ino count, e = .forget ino count → count ≤ s.2.outstanding ino

/-- The name of a live inode, and its lookups. -/
def State.table (s : State) (ino : Ino) : Option (Path × Nat) :=
  (s.paths ino).map fun node => (node.path, node.lookups)

/-- The two maps agree with each other, and with what is outstanding. -/
structure Kept (s : State × Lookups) : Prop where
  ids : ∀ name ino, s.1.ids name = some ino → ∃ lookups, s.1.table ino = some (name, lookups)
  counted : ∀ ino name lookups, s.1.table ino = some (name, lookups) → ino ≠ rootId →
    s.2.outstanding ino = lookups
  held : ∀ ino, 0 < s.2.outstanding ino → (s.1.table ino).isSome = true
  names : ∀ ino name lookups, s.1.table ino = some (name, lookups) → s.2.names ino = some name
  numbered : ∀ ino, (s.2.names ino).isSome = true → ino ≤ s.1.nextInode
  root : ∃ lookups, s.1.table rootId = some ([], lookups)

variable {s s' : State} {n : Lookups} {e : Event}

theorem table_eq_some {ino : Ino} {name : Path} {lookups : Nat} :
    s.table ino = some (name, lookups) ↔
      ∃ node, s.paths ino = some node ∧ node.path = name ∧ node.lookups = lookups := by
  unfold State.table
  rw [Option.map_eq_some_iff]
  apply exists_congr
  intro node
  rw [Prod.mk.injEq]

theorem Kept.numbered_of_table (h : Kept (s, n)) {ino : Ino} {name : Path} {lookups : Nat}
    (htable : s.table ino = some (name, lookups)) : ino ≤ s.nextInode := by
  apply h.numbered
  rw [h.names ino name lookups htable]
  rfl

/-- The maps are the same, up to what opens fix. -/
structure SameTable (s s' : State) : Prop where
  ids : s'.ids = s.ids
  nextInode : s'.nextInode = s.nextInode
  table : s'.table = s.table

theorem SameTable.of_eq (hids : s'.ids = s.ids) (hnext : s'.nextInode = s.nextInode)
    (hpaths : s'.paths = s.paths) : SameTable s s' := by
  constructor
  · exact hids
  · exact hnext
  · unfold State.table
    rw [hpaths]

theorem SameTable.trans {t : State} (h : SameTable s s') (h' : SameTable s' t) : SameTable s t :=
  ⟨h'.ids.trans h.ids, h'.nextInode.trans h.nextInode, h'.table.trans h.table⟩

theorem table_update (s s' : State) (ino : Ino) (node : Option Node)
    (hpaths : s'.paths = Function.update s.paths ino node) :
    s'.table = Function.update s.table ino (node.map fun node => (node.path, node.lookups)) := by
  funext other
  unfold State.table
  rw [hpaths]
  by_cases heq : other = ino
  · subst heq
    rw [Function.update_self, Function.update_self]
  · rw [Function.update_of_ne heq, Function.update_of_ne heq]

/-- A node replaced by one of its name and its lookups. -/
theorem SameTable.fix {ino : Ino} {node node' : Node} (hnode : s.paths ino = some node)
    (hpath : node'.path = node.path) (hlookups : node'.lookups = node.lookups) :
    SameTable s { s with paths := Function.update s.paths ino (some node') } := by
  constructor
  · rfl
  · rfl
  · rw [table_update s _ ino (some node') rfl, Option.map_some, hpath, hlookups]
    apply Function.update_eq_self_iff.mpr
    unfold State.table
    rw [hnode]
    rfl

theorem versionFor_sameTable (s : State) (ino : Ino) (id : SnapshotId) (current : FileSnapshot) :
    SameTable s (s.versionFor ino id current).1 := by
  unfold State.versionFor
  split
  · exact .of_eq rfl rfl rfl
  · next node hnode =>
    split
    · exact .fix hnode rfl rfl
    · split
      · exact .of_eq rfl rfl rfl
      · split
        · exact .fix hnode rfl rfl
        · exact .of_eq rfl rfl rfl

theorem finish_sameTable (s : State) (id : Nat) (open' : Open) (take : Snapshots.TakeId)
    (result : Except ErrorCode SnapshotId) : SameTable s (s.finish id open' take result) := by
  unfold State.finish
  dsimp only
  split
  · exact .of_eq rfl rfl rfl
  · split
    · exact .of_eq rfl rfl rfl
    · next taken _ current _ =>
      have hserved := versionFor_sameTable (s.took take) open'.ino taken current
      have htook : SameTable s (s.took take) := .of_eq rfl rfl rfl
      unfold State.took at hserved htook
      split
      · next hversion =>
        rw [hversion] at hserved
        exact (htook.trans hserved).trans (.of_eq rfl rfl rfl)
      · next hversion =>
        rw [hversion] at hserved
        exact (htook.trans hserved).trans (.of_eq rfl rfl rfl)

/-- Only lookups and forgets change the maps. -/
theorem step_sameTable (hlookup : ∀ name file generation, e ≠ .lookup name file generation)
    (hforget : ∀ ino count, e ≠ .forget ino count) : SameTable s (s.step e) := by
  unfold State.step
  cases e with
  | lookup name file generation => exact absurd rfl (hlookup name file generation)
  | forget ino count => exact absurd rfl (hforget ino count)
  | snapshots e => exact .of_eq rfl rfl rfl
  | «open» ino =>
    dsimp only
    split
    · exact .of_eq rfl rfl rfl
    · exact .of_eq rfl rfl rfl
  | treeOpened id fails =>
    dsimp only
    split
    · exact .of_eq rfl rfl rfl
    · exact .of_eq rfl rfl rfl
    · exact .of_eq rfl rfl rfl
  | cancel id error =>
    dsimp only
    split
    · exact .of_eq rfl rfl rfl
    · exact .of_eq rfl rfl rfl
  | finish id =>
    dsimp only
    split
    · split
      · exact finish_sameTable ..
      · exact .of_eq rfl rfl rfl
    · exact .of_eq rfl rfl rfl
  | release handle =>
    dsimp only
    split
    · exact .of_eq rfl rfl rfl
    · exact .of_eq rfl rfl rfl

/-- The next number is dead, with nothing outstanding. -/
theorem Kept.new_number (h : Kept (s, n)) : n.names (s.nextInode + 1) = none ∧
    s.table (s.nextInode + 1) = none ∧ n.outstanding (s.nextInode + 1) = 0 := by
  have hnames : n.names (s.nextInode + 1) = none := by
    rw [← Option.not_isSome_iff_eq_none]
    intro hsome
    exact Nat.not_succ_le_self _ (h.numbered _ hsome)
  have htable : s.table (s.nextInode + 1) = none := by
    apply Option.eq_none_iff_forall_ne_some.mpr
    intro entry hentry
    have hname := h.names _ entry.1 entry.2 hentry
    rw [hnames] at hname
    simp at hname
  refine ⟨hnames, htable, ?_⟩
  apply Nat.eq_zero_of_not_pos
  intro hpos
  have hlive := h.held _ hpos
  rw [htable] at hlive
  simp at hlive

/-- What a lookup gives: the name's inode so far, or a new one. -/
structure Given (s : State) (name : Path) (s' : State) (ino : Ino) (lookups : Nat) : Prop where
  ids : s'.ids = Function.update s.ids name (some ino)
  table : s'.table = Function.update s.table ino (some (name, lookups + 1))
  so_far : s.table ino = some (name, lookups) ∧ s'.nextInode = s.nextInode ∨
    lookups = 0 ∧ ino = s.nextInode + 1 ∧ s'.nextInode = ino

theorem given_newInode (s : State) (name : Path) :
    Given s name (s.newInode name) (s.nextInode + 1) 0 := by
  constructor
  · rfl
  · exact table_update s _ (s.nextInode + 1) (some { path := name, lookups := 1 }) rfl
  · exact .inr ⟨rfl, rfl, rfl⟩

/-- A lookup never finds its name at a number that is dead. -/
theorem Kept.given (h : Kept (s, n)) (name : Path) (file : Option FileInfo) (generation : Nat) :
    ∃ ino lookups, Given s name (s.inode name file generation) ino lookups := by
  unfold State.inode
  split
  · exact ⟨_, _, given_newInode s name⟩
  · next id hid =>
    obtain ⟨lookups, htable⟩ := h.ids name id hid
    obtain ⟨node, hnode, rfl, rfl⟩ := table_eq_some.mp htable
    dsimp only at hnode
    rw [hnode]
    dsimp only
    split
    · refine ⟨id, node.lookups, ?_, ?_, .inl ⟨htable, rfl⟩⟩
      · exact (Function.update_eq_self_iff.mpr hid.symm).symm
      · exact table_update s _ id (some { node with lookups := node.lookups + 1 }) rfl
    · exact ⟨_, _, given_newInode s _⟩

theorem Given.noted {name : Path} {file : Option FileInfo} {generation : Nat} {ino : Ino}
    {lookups : Nat} (hg : Given s name (s.inode name file generation) ino lookups) :
    noteLookup s (.lookup name file generation) n =
      { outstanding := Function.update n.outstanding ino (n.outstanding ino + 1)
        names := Function.update n.names ino (some name) } := by
  unfold noteLookup
  dsimp only
  rw [hg.ids, Function.update_self]

/-- A number that is given was the name's own, or was never given before. -/
theorem Kept.given_names (h : Kept (s, n)) {name : Path} {ino : Ino} {lookups : Nat}
    (hg : Given s name s' ino lookups) :
    s.nextInode ≤ s'.nextInode ∧ ino ≤ s'.nextInode ∧
      (n.names ino = some name ∨ n.names ino = none) := by
  rcases hg.so_far with ⟨htable, hnext⟩ | ⟨-, hino, hnext⟩
  · have hle := h.numbered_of_table htable
    have hnames := h.names ino name lookups htable
    rw [hnext]
    exact ⟨Nat.le_refl _, hle, .inl hnames⟩
  · rw [hnext, hino]
    exact ⟨Nat.le_succ _, Nat.le_refl _, .inr h.new_number.1⟩

theorem Kept.lookup (h : Kept (s, n)) {name : Path} {ino : Ino} {lookups : Nat}
    (hg : Given s name s' ino lookups) :
    Kept (s', { outstanding := Function.update n.outstanding ino (n.outstanding ino + 1)
                names := Function.update n.names ino (some name) }) := by
  obtain ⟨hnext, hino, -⟩ := h.given_names hg
  constructor
  · intro other i hid
    dsimp only at hid ⊢
    rw [hg.ids] at hid
    rw [hg.table]
    by_cases heq : i = ino
    · subst heq
      by_cases hname : other = name
      · subst hname
        exact ⟨_, Function.update_self ..⟩
      · rw [Function.update_of_ne hname] at hid
        obtain ⟨l, hl⟩ := h.ids other i hid
        -- The name so far of a live number is the one it is given for.
        rcases hg.so_far with ⟨htable, -⟩ | ⟨-, rfl, -⟩
        · rw [hl] at htable
          cases htable
          exact absurd rfl hname
        · rw [h.new_number.2.1] at hl
          simp at hl
    · rw [Function.update_of_ne heq]
      apply h.ids
      by_cases hname : other = name
      · rw [hname, Function.update_self] at hid
        exact absurd (Option.some.inj hid).symm heq
      · rw [Function.update_of_ne hname] at hid
        exact hid
  · intro i other l htable hroot
    dsimp only at htable ⊢
    rw [hg.table] at htable
    by_cases heq : i = ino
    · subst heq
      rw [Function.update_self] at htable ⊢
      cases htable
      rcases hg.so_far with ⟨hold, -⟩ | ⟨rfl, hfresh, -⟩
      · rw [h.counted i _ _ hold hroot]
      · rw [hfresh, h.new_number.2.2]
    · rw [Function.update_of_ne heq] at htable ⊢
      exact h.counted i other l htable hroot
  · intro i hout
    dsimp only at hout ⊢
    rw [hg.table]
    by_cases heq : i = ino
    · subst heq
      rw [Function.update_self]
      rfl
    · rw [Function.update_of_ne heq] at hout ⊢
      exact h.held i hout
  · intro i other l htable
    dsimp only at htable ⊢
    rw [hg.table] at htable
    by_cases heq : i = ino
    · subst heq
      rw [Function.update_self] at htable ⊢
      cases htable
      rfl
    · rw [Function.update_of_ne heq] at htable ⊢
      exact h.names i other l htable
  · intro i hsome
    dsimp only at hsome ⊢
    by_cases heq : i = ino
    · rw [heq]
      exact hino
    · rw [Function.update_of_ne heq] at hsome
      exact Nat.le_trans (h.numbered i hsome) hnext
  · obtain ⟨l, hroot⟩ := h.root
    dsimp only at hroot ⊢
    rw [hg.table]
    by_cases heq : rootId = ino
    · subst heq
      rw [Function.update_self]
      rcases hg.so_far with ⟨hold, -⟩ | ⟨-, hfresh, -⟩
      · rw [hroot] at hold
        cases hold
        exact ⟨_, rfl⟩
      · rw [hfresh, h.new_number.2.1] at hroot
        simp at hroot
    · rw [Function.update_of_ne heq]
      exact ⟨l, hroot⟩

/-- What a forget does to the maps: a number with none left goes, and its name if that is still
its own. -/
inductive Forgotten (s : State) (ino : Ino) (count : Nat) : State → Prop
  | same (h : s.table ino = none ∨ ino = rootId) : Forgotten s ino count s
  | less {s' : State} {name : Path} {lookups : Nat} (hroot : ino ≠ rootId)
      (htable : s.table ino = some (name, lookups)) (hleft : count < lookups)
      (hids : s'.ids = s.ids) (hnext : s'.nextInode = s.nextInode)
      (hafter : s'.table = Function.update s.table ino (some (name, lookups - count))) :
      Forgotten s ino count s'
  | gone {s' : State} {name : Path} {lookups : Nat} (hroot : ino ≠ rootId)
      (htable : s.table ino = some (name, lookups)) (hleft : lookups ≤ count)
      (hids : ∀ other i, s'.ids other = some i ↔ s.ids other = some i ∧ ¬(other = name ∧ i = ino))
      (hnext : s'.nextInode = s.nextInode)
      (hafter : s'.table = Function.update s.table ino none) : Forgotten s ino count s'

theorem forgotten (s : State) (ino : Ino) (count : Nat) :
    Forgotten s ino count (s.forgetInode ino count) := by
  unfold State.forgetInode
  split
  · next hnone =>
    apply Forgotten.same
    left
    unfold State.table
    rw [hnone]
    rfl
  · next node hnode =>
    have htable : s.table ino = some (node.path, node.lookups) :=
      table_eq_some.mpr ⟨node, hnode, rfl, rfl⟩
    split
    · next hroot => exact .same (.inr hroot)
    · next hroot =>
      split
      · next hzero =>
        apply Forgotten.gone hroot htable
        · omega
        · intro other i
          dsimp only
          split
          · next hown =>
            by_cases heq : other = node.path
            · subst heq
              rw [Function.update_self, hown]
              simp [eq_comm]
            · rw [Function.update_of_ne heq]
              simp [heq]
          · next hown =>
            constructor
            · intro hid
              refine ⟨hid, ?_⟩
              rintro ⟨rfl, rfl⟩
              exact hown hid
            · intro hid
              exact hid.1
        · rfl
        · exact table_update s _ ino none rfl
      · next hleft =>
        apply Forgotten.less hroot htable
        · omega
        · rfl
        · rfl
        · rw [table_update s _ ino (some { node with
            lookups := node.lookups - min count node.lookups }) rfl, Option.map_some]
          dsimp only
          congr 3
          omega

/-- A forget gives no number another name. -/
theorem Forgotten.lasting {ino : Ino} {count : Nat} (hf : Forgotten s ino count s') :
    s'.nextInode = s.nextInode ∧ ∀ i name lookups, s'.table i = some (name, lookups) →
      ∃ lookups, s.table i = some (name, lookups) := by
  cases hf with
  | same =>
    refine ⟨rfl, ?_⟩
    intro i name lookups hl
    exact ⟨lookups, hl⟩
  | less _ htable _ _ hnext hafter =>
    refine ⟨hnext, ?_⟩
    intro i name lookups hl
    rw [hafter] at hl
    by_cases heq : i = ino
    · subst heq
      rw [Function.update_self] at hl
      cases hl
      exact ⟨_, htable⟩
    · rw [Function.update_of_ne heq] at hl
      exact ⟨lookups, hl⟩
  | gone _ _ _ _ hnext hafter =>
    refine ⟨hnext, ?_⟩
    intro i name lookups hl
    rw [hafter] at hl
    by_cases heq : i = ino
    · rw [heq, Function.update_self] at hl
      simp at hl
    · rw [Function.update_of_ne heq] at hl
      exact ⟨lookups, hl⟩

theorem Kept.forget (h : Kept (s, n)) {ino : Ino} {count : Nat} (hf : Forgotten s ino count s') :
    Kept (s', { n with
      outstanding := Function.update n.outstanding ino (n.outstanding ino - count) }) := by
  have hout : ∀ i, 0 < Function.update n.outstanding ino (n.outstanding ino - count) i →
      0 < n.outstanding i := by
    intro i hpos
    by_cases heq : i = ino
    · subst heq
      rw [Function.update_self] at hpos
      omega
    · rw [Function.update_of_ne heq] at hpos
      exact hpos
  obtain ⟨-, hlasting⟩ := hf.lasting
  cases hf with
  | same hsame =>
    constructor
    · exact h.ids
    · intro i name lookups htable hroot
      have heq : i ≠ ino := by
        rintro rfl
        rcases hsame with hnone | heq
        · rw [hnone] at htable
          simp at htable
        · exact hroot heq
      dsimp only
      rw [Function.update_of_ne heq]
      exact h.counted i name lookups htable hroot
    · intro i hpos
      exact h.held i (hout i hpos)
    · exact h.names
    · exact h.numbered
    · exact h.root
  | @less _ name lookups hroot htable hleft hids hnext hafter =>
    have hkept : ∀ i other l, s.table i = some (other, l) →
        ∃ l', s'.table i = some (other, l') := by
      intro i other l hl
      rw [hafter]
      by_cases heq : i = ino
      · subst heq
        rw [htable] at hl
        cases hl
        exact ⟨_, Function.update_self ..⟩
      · exact ⟨l, by rw [Function.update_of_ne heq, hl]⟩
    constructor
    · intro other i hid
      dsimp only at hid
      rw [hids] at hid
      obtain ⟨l, hl⟩ := h.ids other i hid
      exact hkept i other l hl
    · intro i other l hl hne
      dsimp only at hl ⊢
      rw [hafter] at hl
      by_cases heq : i = ino
      · subst heq
        rw [Function.update_self] at hl ⊢
        cases hl
        rw [h.counted i name lookups htable hne]
      · rw [Function.update_of_ne heq] at hl ⊢
        exact h.counted i other l hl hne
    · intro i hpos
      obtain ⟨⟨other, l⟩, hl⟩ := Option.isSome_iff_exists.mp (h.held i (hout i hpos))
      obtain ⟨l', hl'⟩ := hkept i other l hl
      dsimp only
      rw [hl']
      rfl
    · intro i other l hl
      obtain ⟨l', hl'⟩ := hlasting i other l hl
      exact h.names i other l' hl'
    · intro i hi
      dsimp only
      rw [hnext]
      exact h.numbered i hi
    · obtain ⟨l, hl⟩ := h.root
      exact hkept rootId [] l hl
  | @gone _ name lookups hroot htable hleft hids hnext hafter =>
    have hold : ∀ i other l, s'.table i = some (other, l) →
        i ≠ ino ∧ s.table i = some (other, l) := by
      intro i other l hl
      rw [hafter] at hl
      by_cases heq : i = ino
      · rw [heq, Function.update_self] at hl
        simp at hl
      · rw [Function.update_of_ne heq] at hl
        exact ⟨heq, hl⟩
    constructor
    · intro other i hid
      obtain ⟨hid, hother⟩ := (hids other i).mp hid
      obtain ⟨l, hl⟩ := h.ids other i hid
      have heq : i ≠ ino := by
        rintro rfl
        dsimp only at hl
        rw [htable] at hl
        cases hl
        exact hother ⟨rfl, rfl⟩
      refine ⟨l, ?_⟩
      dsimp only
      rw [hafter, Function.update_of_ne heq]
      exact hl
    · intro i other l hl hne
      obtain ⟨heq, hl⟩ := hold i other l hl
      dsimp only
      rw [Function.update_of_ne heq]
      exact h.counted i other l hl hne
    · intro i hpos
      have heq : i ≠ ino := by
        rintro rfl
        have hcount := h.counted i name lookups htable hroot
        dsimp only at hpos hcount
        rw [Function.update_self] at hpos
        omega
      dsimp only
      rw [hafter, Function.update_of_ne heq]
      exact h.held i (hout i hpos)
    · intro i other l hl
      exact h.names i other l (hold i other l hl).2
    · intro i hi
      dsimp only
      rw [hnext]
      exact h.numbered i hi
    · obtain ⟨l, hl⟩ := h.root
      refine ⟨l, ?_⟩
      dsimp only
      rw [hafter, Function.update_of_ne (Ne.symm hroot)]
      exact hl

theorem Kept.same (h : Kept (s, n)) (hs : SameTable s s') : Kept (s', n) := by
  have hids : ∀ name ino, s'.ids name = some ino → ∃ lookups, s'.table ino = some (name, lookups) := by
    rw [hs.ids, hs.table]
    exact h.ids
  refine ⟨hids, ?_, ?_, ?_, ?_, ?_⟩
  all_goals dsimp only
  · rw [hs.table]
    exact h.counted
  · rw [hs.table]
    exact h.held
  · rw [hs.table]
    exact h.names
  · rw [hs.nextInode]
    exact h.numbered
  · rw [hs.table]
    exact h.root

/-- What lasts of the numbers given up to a state: each that is live later is live, under the same
name, and none is given for another. -/
structure Lasting (s t : State × Lookups) : Prop where
  nextInode : s.1.nextInode ≤ t.1.nextInode
  live : ∀ ino ≤ s.1.nextInode, ∀ name lookups, t.1.table ino = some (name, lookups) →
    ∃ lookups, s.1.table ino = some (name, lookups)
  names : ∀ ino name, s.2.names ino = some name → t.2.names ino = some name

theorem Lasting.refl (s : State × Lookups) : Lasting s s :=
  ⟨Nat.le_refl _, fun _ _ _ lookups h => ⟨lookups, h⟩, fun _ _ h => h⟩

theorem Lasting.trans {s t u : State × Lookups} (h : Lasting s t) (h' : Lasting t u) :
    Lasting s u := by
  constructor
  · exact Nat.le_trans h.nextInode h'.nextInode
  · intro ino hle name lookups hlive
    obtain ⟨lookups', hlive'⟩ := h'.live ino (Nat.le_trans hle h.nextInode) name lookups hlive
    exact h.live ino hle name lookups' hlive'
  · intro ino name hname
    exact h'.names ino name (h.names ino name hname)

theorem Kept.step (h : Kept (s, n)) : Kept (s.step e, noteLookup s e n) ∧
    Lasting (s, n) (s.step e, noteLookup s e n) := by
  by_cases hlookup : ∃ name file generation, e = .lookup name file generation
  · obtain ⟨name, file, generation, rfl⟩ := hlookup
    obtain ⟨ino, lookups, hg⟩ := h.given name file generation
    obtain ⟨hnext, -, hnames⟩ := h.given_names hg
    rw [hg.noted]
    refine ⟨h.lookup hg, hnext, ?_, ?_⟩
    · intro i hle other l hl
      change (s.inode name file generation).table i = _ at hl
      rw [hg.table] at hl
      by_cases heq : i = ino
      · subst heq
        rw [Function.update_self] at hl
        cases hl
        rcases hg.so_far with ⟨hold, -⟩ | ⟨-, hfresh, -⟩
        · exact ⟨_, hold⟩
        · dsimp only at hle
          rw [hfresh] at hle
          exact absurd hle (Nat.not_succ_le_self _)
      · rw [Function.update_of_ne heq] at hl
        exact ⟨l, hl⟩
    · intro i other hother
      dsimp only at hother ⊢
      by_cases heq : i = ino
      · subst heq
        rw [Function.update_self]
        rcases hnames with hsame | hnone
        · rw [← hsame, hother]
        · rw [hnone] at hother
          simp at hother
      · rw [Function.update_of_ne heq]
        exact hother
  · by_cases hforget : ∃ ino count, e = .forget ino count
    · obtain ⟨ino, count, rfl⟩ := hforget
      have hf := forgotten s ino count
      obtain ⟨hnext, hlasting⟩ := hf.lasting
      refine ⟨h.forget hf, Nat.le_of_eq hnext.symm, ?_, fun _ _ hname => hname⟩
      intro i _ other l hl
      exact hlasting i other l hl
    · have hsame : SameTable s (s.step e) := by
        apply step_sameTable
        · intro name file generation heq
          exact hlookup ⟨name, file, generation, heq⟩
        · intro ino count heq
          exact hforget ⟨ino, count, heq⟩
      have hnote : noteLookup s e n = n := by
        unfold noteLookup
        split
        · exact absurd ⟨_, _, _, rfl⟩ hlookup
        · exact absurd ⟨_, _, rfl⟩ hforget
        · rfl
      rw [hnote]
      refine ⟨h.same hsame, Nat.le_of_eq hsame.nextInode.symm, ?_, fun _ _ hname => hname⟩
      intro i _ other l hl
      dsimp only at hl
      rw [hsame.table] at hl
      exact ⟨l, hl⟩

theorem kept_of_reachable {ok : State × Lookups → Event → Prop} {p : State × Lookups}
    (h : served.Reachable ok p) : Kept p := by
  apply h.invariant (P := Kept)
  · rintro ⟨s, n⟩ ⟨⟨snapshots, -, hs⟩, hn⟩
    dsimp only at hs hn
    subst hs hn
    have hroot : State.table { snapshots } = Function.update (fun _ => none) rootId (some ([], 1)) := by
      funext i
      unfold State.table
      by_cases heq : i = rootId
      · simp [heq]
      · simp [heq]
    have honly : ∀ i name lookups, State.table { snapshots } i = some (name, lookups) →
        i = rootId ∧ name = [] := by
      intro i name lookups htable
      rw [hroot] at htable
      by_cases heq : i = rootId
      · rw [heq, Function.update_self] at htable
        cases htable
        exact ⟨heq, rfl⟩
      · simp [heq] at htable
    constructor
    · intro name ino hid
      dsimp only at hid ⊢
      by_cases heq : name = []
      · rw [heq, Function.update_self] at hid
        cases hid
        exact ⟨1, by rw [hroot, Function.update_self, heq]⟩
      · simp [heq] at hid
    · intro i name lookups htable hne
      exact absurd (honly i name lookups htable).1 hne
    · intro i hpos
      exact absurd hpos (Nat.lt_irrefl 0)
    · intro i name lookups htable
      obtain ⟨rfl, rfl⟩ := honly i name lookups htable
      rfl
    · intro i hsome
      by_cases heq : i = rootId
      · exact Nat.le_of_eq heq
      · simp [heq] at hsome
    · refine ⟨1, ?_⟩
      dsimp only
      rw [hroot, Function.update_self]
  · rintro ⟨s, n⟩ e hkept - -
    exact hkept.step.1

theorem lasting_of_reaches {ok : State × Lookups → Event → Prop} {p q : State × Lookups}
    (hp : Kept p) (h : served.Reaches ok p q) : Kept q ∧ Lasting p q := by
  apply h.keeps (P := fun q => Kept q ∧ Lasting p q)
  · rintro ⟨s, n⟩ e ⟨hkept, hlasting⟩ - -
    obtain ⟨hkept', hlasting'⟩ := hkept.step (e := e)
    exact ⟨hkept', hlasting.trans hlasting'⟩
  · exact ⟨hp, .refl p⟩

/-- A name stays mapped to an inode whatever is forgotten of others. -/
theorem ids_forgetInode {name : Path} {ino other : Ino} (count : Nat)
    (hid : s.ids name = some other) (hne : other ≠ ino) :
    (s.forgetInode ino count).ids name = some other := by
  unfold State.forgetInode
  split
  · exact hid
  · next node hnode =>
    split
    · exact hid
    · split
      · dsimp only
        split
        · next hown =>
          rw [Function.update_of_ne]
          · exact hid
          · rintro rfl
            rw [hown] at hid
            exact hne (Option.some.inj hid).symm
        · exact hid
      · exact hid

/-- In every state that lookups, opens, changes of the tree and forgets lead to: a name's inode is
live and of that name; an inode with lookups outstanding is live, under the name it was given for;
the root is there; a forget leaves every other inode mapped. From then on a number that is dead stays
so, and one that has been given stays its name's. -/
theorem inode_table {n : Lookups} (h : served.Reachable Owed (s, n)) :
    (∀ name ino, s.ids name = some ino → ∃ node, s.paths ino = some node ∧ node.path = name) ∧
    (∀ ino, 0 < n.outstanding ino → ∃ node, s.paths ino = some node ∧
      n.names ino = some node.path) ∧
    (∃ node, s.paths rootId = some node ∧ node.path = []) ∧
    (∀ name ino other count, s.ids name = some other → other ≠ ino →
      (s.step (.forget ino count)).ids name = some other) ∧
    ∀ t m, served.Reaches Owed (s, n) (t, m) →
      (∀ ino, (n.names ino).isSome = true → s.paths ino = none → t.paths ino = none) ∧
      ∀ ino name, n.names ino = some name → m.names ino = some name ∧
        ∀ node, t.paths ino = some node → node.path = name := by
  have hkept := kept_of_reachable h
  refine ⟨?_, ?_, ?_, ?_, ?_⟩
  · intro name ino hid
    obtain ⟨lookups, htable⟩ := hkept.ids name ino hid
    obtain ⟨node, hnode, hpath, -⟩ := table_eq_some.mp htable
    exact ⟨node, hnode, hpath⟩
  · intro ino hpos
    obtain ⟨⟨name, lookups⟩, htable⟩ := Option.isSome_iff_exists.mp (hkept.held ino hpos)
    have hname := hkept.names ino name lookups htable
    obtain ⟨node, hnode, rfl, -⟩ := table_eq_some.mp htable
    exact ⟨node, hnode, hname⟩
  · obtain ⟨lookups, htable⟩ := hkept.root
    obtain ⟨node, hnode, hpath, -⟩ := table_eq_some.mp htable
    exact ⟨node, hnode, hpath⟩
  · intro name ino other count hid hne
    exact ids_forgetInode count hid hne
  · intro t m hreaches
    obtain ⟨hkept', hlasting⟩ := lasting_of_reaches hkept hreaches
    constructor
    · intro ino hgiven hdead
      rw [Option.eq_none_iff_forall_ne_some]
      intro node hnode
      have htable : t.table ino = some (node.path, node.lookups) :=
        table_eq_some.mpr ⟨node, hnode, rfl, rfl⟩
      obtain ⟨lookups, hlive⟩ := hlasting.live ino (hkept.numbered ino hgiven) _ _ htable
      obtain ⟨node', hnode', -⟩ := table_eq_some.mp hlive
      rw [hdead] at hnode'
      simp at hnode'
    · intro ino name hname
      have hname' := hlasting.names ino name hname
      refine ⟨hname', ?_⟩
      intro node hnode
      have htable : t.table ino = some (node.path, node.lookups) :=
        table_eq_some.mpr ⟨node, hnode, rfl, rfl⟩
      have hname'' := hkept'.names ino _ _ htable
      dsimp only at hname' hname''
      rw [hname'] at hname''
      exact (Option.some.inj hname'').symm

/-- Two names are looked up, and the first is forgotten. -/
def looked : State × Lookups :=
  served.runs (single, {}) [.lookup name none 0, .lookup [] none 0, .lookup ["b".toList] none 0,
    .forget 2 1]

theorem inode_table_looked :
    (∃ node, looked.1.paths 3 = some node ∧ looked.2.names 3 = some node.path) ∧
    (looked.1.step (.forget 1 1)).ids ["b".toList] = some 3 ∧
    (served.step looked (.lookup name none 0)).1.paths 2 = none := by
  have howed : ∀ p name file generation, Owed p (.lookup name file generation) := by
    intro p name file generation ino count heq
    cases heq
  have hreach : served.Reachable Owed looked := by
    have hstart : served.Reachable Owed (single, {}) :=
      .start ⟨⟨_, ⟨fun _ => .file [1] 1, rfl⟩, rfl⟩, rfl⟩
    apply hstart.runs
    refine ⟨trivial, howed _ _ _ _, trivial, howed _ _ _ _, trivial, howed _ _ _ _, trivial, ?_,
      trivial⟩
    intro ino count heq
    cases heq
    exact Nat.le_refl 1
  obtain ⟨-, hheld, -, hforget, hlasts⟩ := inode_table hreach
  refine ⟨hheld 3 Nat.one_pos, hforget ["b".toList] 1 3 1 rfl (by decide), ?_⟩
  have hreaches : served.Reaches Owed looked (served.step looked (.lookup name none 0)) := by
    apply Relation.ReflTransGen.single
    exact ⟨.lookup name none 0, trivial, howed _ _ _ _, rfl⟩
  exact (hlasts _ _ hreaches).1 2 rfl rfl

end MakeBelieve.Inodes
