import Mathlib.Data.List.Pairwise
import MakeBelieve.Snapshots.Generations

namespace MakeBelieve.Snapshots

open Library
open MakeBelieve.Tree (Bytes)

variable {s s' : State} {e : Event}

/-! ### Versions -/

theorem Stepped.history_eq (hs : Stepped s e s') (hwrite : ∀ path entry, e ≠ .write path entry) :
    s'.history = s.history := by
  cases hs with
  | write path entry => exact absurd rfl (hwrite path entry)
  | report diff => exact (changed_frame s diff).1
  | @status id take fails =>
    unfold State.status
    split <;> rfl
  | @compare id take info held =>
    unfold State.compare
    split
    · rfl
    · split <;> rfl
  | @read id take fails =>
    unfold State.read
    split <;> rfl
  | _ => rfl

theorem Stepped.history (hs : Stepped s e s') (path : Path) :
    s.history path <+: s'.history path := by
  by_cases hwrite : ∃ path entry, e = .write path entry
  · obtain ⟨changed, entry, rfl⟩ := hwrite
    cases hs
    by_cases heq : path = changed
    · subst heq
      simp
    · simp [Function.update_of_ne heq]
  · have hsame := hs.history_eq fun path entry heq => hwrite ⟨path, entry, heq⟩
    exact hsame ▸ List.prefix_rfl

/-- A snapshot that is taken stays what it is. -/
theorem Stepped.snapshot (hs : Stepped s e s') {id : SnapshotId} {snapshot : FileSnapshot}
    (h : s.snapshots[id]? = some snapshot) : s'.snapshots[id]? = some snapshot := by
  obtain heq | ⟨_, _, _, _, _, _, heq⟩ := hs.snapshots
  · rw [heq, h]
  · obtain ⟨hlt, _⟩ := List.getElem?_eq_some_iff.mp h
    rw [heq, List.getElem?_append_left hlt, h]

def Held (s : State) (path : Path) (held : Option SnapshotId) : Prop :=
  ∀ id, held = some id → ∃ snapshot, s.snapshots[id]? = some snapshot ∧ snapshot.path = path

/-- Which version of a path, the `i`th or later, a take has come upon. -/
def Take.Sees (s : State) (take : Take) (i : Nat) : Prop :=
  match take.phase with
  | .begun | .reading => i < (s.history take.path).length
  | .statused info => ∃ j bytes mtime, i ≤ j ∧
      (s.history take.path)[j]? = some (.file bytes mtime) ∧ info = { size := bytes.length, mtime }
  | .looked info held => (∃ j bytes mtime, i ≤ j ∧
      (s.history take.path)[j]? = some (.file bytes mtime) ∧
        info = { size := bytes.length, mtime }) ∧ Held s take.path held
  | .whole bytes mtime => ∃ j, i ≤ j ∧ (s.history take.path)[j]? = some (.file bytes mtime)
  | .returned (.ok id) => ∃ snapshot, s.snapshots[id]? = some snapshot ∧
      snapshot.path = take.path ∧
      ∃ j, i ≤ j ∧ (s.history take.path)[j]? = some (.file snapshot.bytes snapshot.mtime)
  | .returned (.error _) => True

/-- Each snapshot is a version of its path, each entry of the table is of a snapshot that is not
deleted yet, and no two of those are in one place. -/
structure Versioned (s : State) : Prop where
  past : ∀ path, s.history path ≠ []
  differ : ∀ path, (s.history path).Pairwise Differ
  versions : ∀ snapshot ∈ s.snapshots,
    .file snapshot.bytes snapshot.mtime ∈ s.history snapshot.path
  sees : ∀ id take, s.takes id = some take → take.Sees s 0
  current : ∀ path entry, s.current path = some entry →
    (∃ snapshot, s.snapshots[entry.snapshot]? = some snapshot ∧ snapshot.path = path) ∧
    s.addresses entry.snapshot = some entry.address
  apart : ∀ id other address, s.addresses id = some address → s.addresses other = some address →
    id = other
  known : ∀ id take, s.takes id = some take → id < s.nextTake

theorem getElem?_of_prefix {α : Type} {l l' : List α} (h : l <+: l') {i : Nat} {a : α}
    (hi : l[i]? = some a) : l'[i]? = some a := by
  obtain ⟨rest, rfl⟩ := h
  obtain ⟨hlt, _⟩ := List.getElem?_eq_some_iff.mp hi
  rw [List.getElem?_append_left hlt, hi]

/-- What a take has come upon it has come upon still, whatever else is done. -/
theorem Take.Sees.step {take : Take} {i : Nat} (h : take.Sees s i) (hs : Stepped s e s') :
    take.Sees s' i := by
  have hhistory := hs.history take.path
  have hheld : ∀ held, Held s take.path held → Held s' take.path held := by
    intro held hheld id hid
    obtain ⟨snapshot, hsnapshot, hpath⟩ := hheld id hid
    exact ⟨snapshot, hs.snapshot hsnapshot, hpath⟩
  obtain ⟨path, before, phase⟩ := take
  cases phase with
  | begun => exact Nat.lt_of_lt_of_le h hhistory.length_le
  | reading => exact Nat.lt_of_lt_of_le h hhistory.length_le
  | statused info =>
    obtain ⟨j, bytes, mtime, hle, hj, hinfo⟩ := h
    exact ⟨j, bytes, mtime, hle, getElem?_of_prefix hhistory hj, hinfo⟩
  | looked info held =>
    obtain ⟨⟨j, bytes, mtime, hle, hj, hinfo⟩, h⟩ := h
    exact ⟨⟨j, bytes, mtime, hle, getElem?_of_prefix hhistory hj, hinfo⟩, hheld held h⟩
  | whole bytes mtime =>
    obtain ⟨j, hle, hj⟩ := h
    exact ⟨j, hle, getElem?_of_prefix hhistory hj⟩
  | returned result =>
    cases result with
    | error error => trivial
    | ok id =>
      obtain ⟨snapshot, hsnapshot, hpath, j, hle, hj⟩ := h
      exact ⟨snapshot, hs.snapshot hsnapshot, hpath, j, hle, getElem?_of_prefix hhistory hj⟩

instance : Std.Symm Differ where
  symm a b h := by
    cases a with
    | file bytes mtime =>
      cases b with
      | file bytes' mtime' => exact fun heq => h heq.symm
      | _ => trivial
    | _ => cases b <;> trivial

/-- Of the versions of a path only one has a size and time. -/
theorem Versioned.unique (h : Versioned s) {path : Path} {bytes bytes' : Bytes} {mtime mtime' : Int64}
    (hmem : .file bytes mtime ∈ s.history path) (hmem' : .file bytes' mtime' ∈ s.history path)
    (hlength : bytes.length = bytes'.length) (hmtime : mtime = mtime') : bytes = bytes' := by
  by_contra hne
  have hdiffer : Differ (.file bytes mtime) (.file bytes' mtime') :=
    (h.differ path).forall hmem hmem' fun heq => hne (by injection heq)
  exact hdiffer (by rw [hlength, hmtime])

theorem entry_getElem? {path : Path} (h : s.history path ≠ []) :
    (s.history path)[(s.history path).length - 1]? = some (s.entry path) := by
  unfold State.entry
  rw [← List.getLast?_eq_getElem?, List.getLast?_eq_some_getLast h]
  rfl

theorem answer_fileStatus {fails : Option ErrorCode} {entry : Entry} {info : FileInfo}
    (h : State.answer fails entry.fileStatus = .ok info) :
    ∃ bytes mtime, entry = .file bytes mtime ∧ info = { size := bytes.length, mtime } := by
  cases fails with
  | some error => simp [State.answer] at h
  | none =>
    cases entry with
    | file bytes mtime => exact ⟨bytes, mtime, rfl, (Except.ok.inj h).symm⟩
    | _ => simp [State.answer, Entry.fileStatus] at h

theorem answer_readWhole {fails : Option ErrorCode} {entry : Entry} {bytes : Bytes} {mtime : Int64}
    (h : State.answer fails entry.readWhole = .ok (bytes, mtime)) : entry = .file bytes mtime := by
  cases fails with
  | some error => simp [State.answer] at h
  | none =>
    cases entry with
    | file bytes' mtime' =>
      obtain ⟨rfl, rfl⟩ := Prod.mk.inj (Except.ok.inj h)
      rfl
    | _ => simp [State.answer, Entry.readWhole] at h

/-- What a take goes on to come upon is no older. -/
theorem Versioned.goesOn (h : Versioned s) (hs : Stepped s e s') {id : TakeId}
    (hid : id < s.nextTake) {take' : Take} (htake' : s'.takes id = some take') :
    ∃ take, s.takes id = some take ∧ take'.path = take.path ∧
      ∀ i, take.Sees s i → take'.Sees s' i := by
  have hstays : s.takes id = some take' → ∃ take, s.takes id = some take ∧
      take'.path = take.path ∧ ∀ i, take.Sees s i → take'.Sees s' i := fun htake =>
    ⟨take', htake, rfl, fun i hsees => hsees.step hs⟩
  cases hs with
  | write path entry => exact hstays htake'
  | report diff =>
    rw [(changed_frame s diff).2.2.2.1] at htake'
    exact hstays htake'
  | begin path =>
    simp only [State.begin, Function.update_of_ne (Nat.ne_of_lt hid)] at htake'
    exact hstays htake'
  | @status other take fails htake hphase =>
    obtain ⟨path, before, _⟩ := take
    obtain rfl := hphase
    cases hanswer : State.answer fails (s.entry path).fileStatus with
    | error error =>
      have heq : s.status other ⟨path, before, .begun⟩ fails =
          s.setPhase other (.returned (.error error)) := by
        unfold State.status
        rw [hanswer]
      rw [heq] at htake' hstays ⊢
      obtain hsame | ⟨rfl, old, hold, rfl⟩ := takes_setPhase htake'
      · exact hstays hsame
      · exact ⟨old, hold, rfl, fun _ _ => trivial⟩
    | ok info =>
      have heq : s.status other ⟨path, before, .begun⟩ fails =
          s.setPhase other (.statused info) := by
        unfold State.status
        rw [hanswer]
      rw [heq] at htake' hstays ⊢
      obtain hsame | ⟨rfl, old, hold, rfl⟩ := takes_setPhase htake'
      · exact hstays hsame
      · obtain rfl := Option.some.inj (htake.symm.trans hold)
        obtain ⟨bytes, mtime, hentry, hinfo⟩ := answer_fileStatus hanswer
        refine ⟨_, htake, rfl, fun i hsees => ?_⟩
        have hlt : i < (s.history path).length := hsees
        exact ⟨_, bytes, mtime, Nat.le_sub_one_of_lt hlt,
          (entry_getElem? (h.past path)).trans (congrArg some hentry), hinfo⟩
  | @look other take info htake hphase =>
    obtain ⟨path, before, _⟩ := take
    obtain rfl := hphase
    obtain hsame | ⟨rfl, old, hold, rfl⟩ := takes_setPhase htake'
    · exact hstays hsame
    · obtain rfl := Option.some.inj (htake.symm.trans hold)
      refine ⟨_, htake, rfl, fun i hsees => ⟨hsees, fun id hid => ?_⟩⟩
      obtain ⟨entry, hentry, hlock⟩ := Option.bind_eq_some_iff.mp hid
      unfold State.lock at hlock
      split at hlock
      · exact Option.some.inj hlock ▸ (h.current path entry hentry).1
      · simp at hlock
  | @compare other take info held htake hphase =>
    obtain ⟨path, before, _⟩ := take
    obtain rfl := hphase
    have hreading : ∀ i, (⟨path, before, .looked info held⟩ : Take).Sees s i →
        i < (s.history path).length := by
      rintro i ⟨⟨j, bytes, mtime, hle, hj, _⟩, _⟩
      obtain ⟨hlt, _⟩ := List.getElem?_eq_some_iff.mp hj
      exact Nat.lt_of_le_of_lt hle hlt
    cases held with
    | none =>
      obtain hsame | ⟨rfl, old, hold, rfl⟩ := takes_setPhase htake'
      · exact hstays hsame
      · obtain rfl := Option.some.inj (htake.symm.trans hold)
        exact ⟨_, htake, rfl, fun i hsees => hreading i hsees⟩
    | some snapshot =>
      unfold State.compare at htake' hstays ⊢
      dsimp only at htake' hstays ⊢
      split at htake'
      · next hmatches =>
        rw [if_pos hmatches] at hstays ⊢
        obtain hsame | ⟨rfl, old, hold, rfl⟩ := takes_setPhase htake'
        · exact hstays hsame
        · obtain rfl := Option.some.inj (htake.symm.trans hold)
          refine ⟨_, htake, rfl, ?_⟩
          rintro i ⟨⟨j, bytes, mtime, hle, hj, rfl⟩, hheld⟩
          obtain ⟨found, hfound, rfl⟩ := hheld snapshot rfl
          simp only [hfound, Option.any_some, Bool.and_eq_true, same_iff] at hmatches
          have hsize : found.bytes.length = bytes.length := congrArg FileInfo.size hmatches.2
          have hmtime : found.mtime = mtime := congrArg FileInfo.mtime hmatches.2
          have hversion := h.versions found (List.mem_of_getElem? hfound)
          have hbytes := h.unique hversion (List.mem_of_getElem? hj) hsize hmtime
          refine ⟨found, hfound, rfl, j, hle, hj.trans ?_⟩
          rw [hbytes, hmtime]
      · next hdiffers =>
        rw [if_neg hdiffers] at hstays ⊢
        obtain hsame | ⟨rfl, old, hold, rfl⟩ := takes_setPhase htake'
        · exact hstays hsame
        · obtain rfl := Option.some.inj (htake.symm.trans hold)
          exact ⟨_, htake, rfl, fun i hsees => hreading i hsees⟩
  | @read other take fails htake hphase =>
    obtain ⟨path, before, _⟩ := take
    obtain rfl := hphase
    cases hanswer : State.answer fails (s.entry path).readWhole with
    | error error =>
      have heq : s.read other ⟨path, before, .reading⟩ fails =
          s.setPhase other (.returned (.error error)) := by
        unfold State.read
        rw [hanswer]
      rw [heq] at htake' hstays ⊢
      obtain hsame | ⟨rfl, old, hold, rfl⟩ := takes_setPhase htake'
      · exact hstays hsame
      · exact ⟨old, hold, rfl, fun _ _ => trivial⟩
    | ok content =>
      have heq : s.read other ⟨path, before, .reading⟩ fails =
          s.setPhase other (.whole content.1 content.2) := by
        unfold State.read
        rw [hanswer]
      rw [heq] at htake' hstays ⊢
      obtain hsame | ⟨rfl, old, hold, rfl⟩ := takes_setPhase htake'
      · exact hstays hsame
      · obtain rfl := Option.some.inj (htake.symm.trans hold)
        refine ⟨_, htake, rfl, fun i hsees => ?_⟩
        have hlt : i < (s.history path).length := hsees
        exact ⟨_, Nat.le_sub_one_of_lt hlt,
          (entry_getElem? (h.past path)).trans (congrArg some (answer_readWhole hanswer))⟩
  | @insert other take bytes mtime address htake hphase hfree =>
    obtain ⟨path, before, _⟩ := take
    obtain rfl := hphase
    obtain hsame | ⟨rfl, old, hold, rfl⟩ := takes_setPhase htake'
    · exact hstays hsame
    · obtain rfl := Option.some.inj (htake.symm.trans hold)
      refine ⟨_, htake, rfl, ?_⟩
      rintro i ⟨j, hle, hj⟩
      exact ⟨_, List.getElem?_concat_length, rfl, j, hle, hj⟩
  | @stop other =>
    by_cases heq : id = other
    · simp [heq] at htake'
    · exact hstays (by simpa [heq] using htake')
  | @release other take result =>
    by_cases heq : id = other
    · simp [State.release, heq] at htake'
    · exact hstays (by simpa [State.release, heq] using htake')
  | forget => exact hstays htake'
  | lost => exact hstays htake'

/-- What a step does to the table and to what is in memory. -/
theorem Stepped.table (hs : Stepped s e s') :
    (s'.addresses = s.addresses ∧
      ∀ path entry, s'.current path = some entry → s.current path = some entry) ∨
    (∃ id take bytes mtime address, s' = s.insert id take bytes mtime address ∧
      ∀ other, s.addresses other ≠ some address) ∨
    ∃ id snapshot address, s.snapshots[id]? = some snapshot ∧ s.addresses id = some address ∧
      s' = s.forget id snapshot address := by
  cases hs with
  | report diff =>
    obtain ⟨_, _, haddresses, _, _, hcurrent⟩ := changed_frame s diff
    exact .inl ⟨haddresses, hcurrent⟩
  | status =>
    refine .inl ?_
    unfold State.status
    split <;> exact ⟨rfl, fun _ _ h => h⟩
  | compare =>
    refine .inl ?_
    unfold State.compare
    split
    · exact ⟨rfl, fun _ _ h => h⟩
    · split <;> exact ⟨rfl, fun _ _ h => h⟩
  | read =>
    refine .inl ?_
    unfold State.read
    split <;> exact ⟨rfl, fun _ _ h => h⟩
  | insert _ _ hfree => exact .inr (.inl ⟨_, _, _, _, _, rfl, hfree⟩)
  | forget _ hsnapshot haddress => exact .inr (.inr ⟨_, _, _, hsnapshot, haddress, rfl⟩)
  | _ => exact .inl ⟨rfl, fun _ _ h => h⟩

/-- A snapshot deleted takes itself out of the table, and no other. -/
theorem Versioned.forget_current (h : Versioned s) {id : SnapshotId} {snapshot : FileSnapshot}
    {address : Address} (hsnapshot : s.snapshots[id]? = some snapshot)
    (haddress : s.addresses id = some address) (path : Path) (entry : Current) :
    (s.forget id snapshot address).current path = some entry ↔
      s.current path = some entry ∧ entry.snapshot ≠ id := by
  have hown : ∀ other, s.current snapshot.path = some other → other.address = address →
      other.snapshot = id := by
    intro other hother heq
    exact h.apart _ _ address (heq ▸ (h.current _ other hother).2) haddress
  have hplace : ∀ path, s.current path = some entry → entry.snapshot = id →
      path = snapshot.path ∧ entry.address = address := by
    rintro path hentry rfl
    obtain ⟨⟨found, hfound, rfl⟩, hat⟩ := h.current path entry hentry
    rw [Option.some.inj (hfound.symm.trans hsnapshot)]
    exact ⟨rfl, Option.some.inj (hat.symm.trans haddress)⟩
  unfold State.forget
  dsimp only
  cases hold : s.current snapshot.path with
  | none =>
    refine ⟨fun hentry => ⟨hentry, fun heq => ?_⟩, And.left⟩
    have hentry : s.current path = some entry := hentry
    obtain ⟨rfl, _⟩ := hplace path hentry heq
    simp [hold] at hentry
  | some other =>
    dsimp only
    split
    · next hat =>
      by_cases hpath : path = snapshot.path
      · subst hpath
        rw [Function.update_self, hold]
        simp only [reduceCtorEq, Option.some.injEq, false_iff, not_and, not_not]
        rintro rfl
        exact hown other hold hat
      · rw [Function.update_of_ne hpath]
        exact ⟨fun hentry => ⟨hentry, fun heq => hpath (hplace path hentry heq).1⟩, And.left⟩
    · next hat =>
      refine ⟨fun hentry => ⟨hentry, fun heq => hat ?_⟩, And.left⟩
      obtain ⟨rfl, hsame⟩ := hplace path hentry heq
      rw [← Option.some.inj (hentry.symm.trans hold)]
      exact hsame

theorem Versioned.table (h : Versioned s) (hs : Stepped s e s') :
    (∀ path entry, s'.current path = some entry →
      (∃ snapshot, s'.snapshots[entry.snapshot]? = some snapshot ∧ snapshot.path = path) ∧
      s'.addresses entry.snapshot = some entry.address) ∧
    ∀ id other address, s'.addresses id = some address → s'.addresses other = some address →
      id = other := by
  have hold : ∀ path entry, s.current path = some entry →
      (∃ snapshot, s'.snapshots[entry.snapshot]? = some snapshot ∧ snapshot.path = path) := by
    intro path entry hentry
    obtain ⟨⟨snapshot, hsnapshot, hpath⟩, _⟩ := h.current path entry hentry
    exact ⟨snapshot, hs.snapshot hsnapshot, hpath⟩
  obtain ⟨haddresses, hcurrent⟩ | ⟨id, take, bytes, mtime, address, rfl, hfree⟩ |
    ⟨id, snapshot, address, hsnapshot, haddress, rfl⟩ := hs.table
  · rw [haddresses]
    refine ⟨fun path entry hentry => ?_, h.apart⟩
    exact ⟨hold path entry (hcurrent path entry hentry),
      (h.current path entry (hcurrent path entry hentry)).2⟩
  · refine ⟨fun path entry hentry => ?_, fun one other place hone hother => ?_⟩
    · by_cases heq : path = take.path
      · subst heq
        simp only [State.insert, Function.update_self, Option.some.injEq] at hentry
        subst hentry
        exact ⟨⟨_, List.getElem?_concat_length, rfl⟩, Function.update_self ..⟩
      · have hentry : s.current path = some entry := by
          simpa [State.insert, Function.update_of_ne heq] using hentry
        refine ⟨hold path entry hentry, ?_⟩
        obtain ⟨⟨snapshot, hsnapshot, _⟩, hat⟩ := h.current path entry hentry
        obtain ⟨hlt, _⟩ := List.getElem?_eq_some_iff.mp hsnapshot
        exact (Function.update_of_ne (Nat.ne_of_lt hlt) ..).trans hat
    · simp only [State.insert] at hone hother
      by_cases hnew : one = s.snapshots.length
      · by_cases hnew' : other = s.snapshots.length
        · rw [hnew, hnew']
        · rw [hnew, Function.update_self] at hone
          rw [Function.update_of_ne hnew'] at hother
          exact absurd (hother.trans hone.symm) (hfree other)
      · rw [Function.update_of_ne hnew] at hone
        by_cases hnew' : other = s.snapshots.length
        · rw [hnew', Function.update_self] at hother
          exact absurd (hone.trans hother.symm) (hfree one)
        · rw [Function.update_of_ne hnew'] at hother
          exact h.apart one other place hone hother
  · refine ⟨fun path entry hentry => ?_, fun one other place hone hother => ?_⟩
    · obtain ⟨hentry, hne⟩ := (h.forget_current hsnapshot haddress path entry).mp hentry
      exact ⟨hold path entry hentry,
        (Function.update_of_ne hne ..).trans (h.current path entry hentry).2⟩
    · have hkept : ∀ one, Function.update s.addresses id none one = some place →
          s.addresses one = some place := by
        intro one hone
        by_cases heq : one = id
        · simp [heq] at hone
        · rwa [Function.update_of_ne heq] at hone
      exact h.apart one other place (hkept one hone) (hkept other hother)

theorem Versioned.step (h : Versioned s) (hs : Stepped s e s') (hok : Distinguished s e) :
    Versioned s' := by
  obtain ⟨hcurrent, hapart⟩ := h.table hs
  refine ⟨fun path => ?_, fun path => ?_, fun snapshot hmem => ?_, fun id take htake => ?_,
    hcurrent, hapart, fun id take htake => ?_⟩
  · obtain ⟨rest, hrest⟩ := hs.history path
    rw [← hrest]
    exact List.append_ne_nil_of_left_ne_nil (h.past path) _
  · by_cases hwrite : ∃ path entry, e = .write path entry
    · obtain ⟨changed, entry, rfl⟩ := hwrite
      cases hs
      by_cases heq : path = changed
      · subst heq
        simp only [Function.update_self]
        refine List.pairwise_append.mpr ⟨h.differ path, List.pairwise_singleton _ _, ?_⟩
        intro old hold new hnew
        rw [List.mem_singleton.mp hnew]
        exact hok old hold
      · simp only [Function.update_of_ne heq]
        exact h.differ path
    · rw [hs.history_eq fun path entry heq => hwrite ⟨path, entry, heq⟩]
      exact h.differ path
  · obtain heq | ⟨id, take, bytes, mtime, htake, hphase, heq⟩ := hs.snapshots
    · rw [heq] at hmem
      exact (hs.history _).subset (h.versions snapshot hmem)
    · rw [heq, List.mem_append, List.mem_singleton] at hmem
      obtain hmem | rfl := hmem
      · exact (hs.history _).subset (h.versions snapshot hmem)
      · have hsees := h.sees id take htake
        unfold Take.Sees at hsees
        rw [hphase] at hsees
        obtain ⟨j, _, hj⟩ := hsees
        exact (hs.history _).subset (List.mem_of_getElem? hj)
  · obtain ⟨old, hold, _⟩ | ⟨path, rfl, rfl, rfl⟩ := hs.takes htake
    · obtain ⟨_, hold, _, hgoes⟩ := h.goesOn hs (h.known id old hold) htake
      exact hgoes 0 (h.sees id _ hold)
    · simp only [State.begin, Function.update_self, Option.some.injEq] at htake
      subst htake
      exact List.length_pos_iff.mpr (h.past path)
  · obtain ⟨old, hold, _⟩ | ⟨path, rfl, rfl, rfl⟩ := hs.takes htake
    · exact Nat.lt_of_lt_of_le (h.known id old hold) hs.nextTake
    · exact Nat.lt_succ_self _

/-- References and takes that are given up matter to no snapshot. -/
theorem Versioned.frame (h : Versioned s) {t : State} (hhistory : t.history = s.history)
    (hsnapshots : t.snapshots = s.snapshots) (haddresses : t.addresses = s.addresses)
    (hcurrent : t.current = s.current) (hnext : t.nextTake = s.nextTake)
    (htakes : ∀ id take, t.takes id = some take → s.takes id = some take) : Versioned t := by
  refine ⟨hhistory ▸ h.past, hhistory ▸ h.differ, ?_, fun id take htake => ?_, ?_,
    haddresses ▸ h.apart, fun id take htake => hnext ▸ h.known id take (htakes id take htake)⟩
  · rw [hsnapshots, hhistory]
    exact h.versions
  · have hsees := h.sees id take (htakes id take htake)
    unfold Take.Sees Held at hsees ⊢
    rwa [hhistory, hsnapshots]
  · rw [hcurrent, hsnapshots, haddresses]
    exact h.current

theorem versioned {ok : State → Event → Prop} (hok : ∀ s e, ok s e → Distinguished s e)
    (h : machine.Reachable ok s) : Versioned s := by
  refine h.invariant (P := Versioned) (fun s hs => ?_) fun s e hk he hs =>
    hk.step (State.stepped he) (hok s e hs)
  obtain ⟨entries, rfl⟩ := hs
  exact ⟨by simp, by simp, by simp, by simp, by simp, by simp, by simp⟩

/-- Whatever else goes on, what is in the table for a path stays until a report of it, its own
deletion or a snapshot taken after it. -/
theorem Versioned.stays (h : Versioned s) (hs : Stepped s e s') {path : Path} {entry : Current}
    (hentry : s.current path = some entry) :
    s'.current path = some entry ∨ e = .forget entry.snapshot ∨ (∃ diff, e = .report diff) ∨
      ∃ id address, e = .insert id address := by
  cases hs with
  | report diff => exact .inr (.inr (.inl ⟨diff, rfl⟩))
  | insert => exact .inr (.inr (.inr ⟨_, _, rfl⟩))
  | @forget id snapshot address hrefs hsnapshot haddress =>
    by_cases heq : entry.snapshot = id
    · exact .inr (.inl (by rw [heq]))
    · exact .inl ((h.forget_current hsnapshot haddress path entry).mpr ⟨hentry, heq⟩)
  | status =>
    refine .inl ?_
    unfold State.status
    split <;> exact hentry
  | compare =>
    refine .inl ?_
    unfold State.compare
    split
    · exact hentry
    · split <;> exact hentry
  | read =>
    refine .inl ?_
    unfold State.read
    split <;> exact hentry
  | _ => exact .inl hentry

/-- What a take that begins here has come upon at any time after is no older than what its path is
here. -/
theorem Versioned.begun (h : Versioned s) {path : Path} {t : State}
    (hreaches : machine.Reaches Distinguished (s.begin path) t) {take : Take}
    (htake : t.takes s.nextTake = some take) :
    take.path = path ∧ take.Sees t ((s.history path).length - 1) := by
  have hbegun : Versioned (s.begin path) := h.step (.begin path) trivial
  suffices hall : Versioned t ∧ s.nextTake < t.nextTake ∧
      ∀ take, t.takes s.nextTake = some take →
        take.path = path ∧ take.Sees t ((s.history path).length - 1) from hall.2.2 take htake
  refine hreaches.keeps (P := fun t => Versioned t ∧ s.nextTake < t.nextTake ∧
    ∀ take, t.takes s.nextTake = some take →
      take.path = path ∧ take.Sees t ((s.history path).length - 1)) ?_ ?_
  · intro t e ⟨hk, hlt, hall⟩ he hok
    have hs := State.stepped he
    refine ⟨hk.step hs hok, Nat.lt_of_lt_of_le hlt hs.nextTake, fun take' htake' => ?_⟩
    obtain ⟨take, htake, hpath, hgoes⟩ := hk.goesOn hs hlt htake'
    obtain ⟨rfl, hsees⟩ := hall take htake
    exact ⟨hpath, hgoes _ hsees⟩
  · refine ⟨hbegun, Nat.lt_succ_self _, fun take htake => ?_⟩
    simp only [State.begin, Function.update_self, Option.some.injEq] at htake
    subst htake
    exact ⟨rfl, Nat.sub_lt (List.length_pos_iff.mpr (h.past path)) Nat.one_pos⟩

/-- Reports move generations on, none past the newest; a take returns one version of its file, no
older than what the file was when the take began, let alone than a change reported before; and a
snapshot that is given up leaves what else is in the table. -/
theorem snapshots_fresh :
    (∀ s, machine.Reachable (fun _ _ => True) s → ∀ path,
      s.generation path ≤ s.latest ∧
      (∀ e, machine.enabled s e → s.generation path ≤ (machine.step s e).generation path) ∧
      ∀ diff : DirectoryTreeDiff, diff.everythingDirty = true ∨ path ∈ diff.entriesChanged →
        s.generation path < (machine.step s (.report diff)).generation path) ∧
    ∀ s, machine.Reachable Distinguished s →
      (∀ path t id, machine.Reaches Distinguished (machine.step s (.begin path)) t →
        t.At s.nextTake (.returned (.ok id)) →
        ∃ snapshot i, t.snapshots[id]? = some snapshot ∧ snapshot.path = path ∧
          (s.history path).length ≤ i + 1 ∧
          (t.history path)[i]? = some (.file snapshot.bytes snapshot.mtime)) ∧
      ∀ e, machine.enabled s e → ∀ path entry, s.current path = some entry →
        (machine.step s e).current path = some entry ∨ e = .forget entry.snapshot ∨
          (∃ diff, e = .report diff) ∨ ∃ id address, e = .insert id address := by
  refine ⟨fun s hs path => ?_, fun s hs => ⟨fun path t id hreaches hat => ?_,
    fun e he path entry hentry => ?_⟩⟩
  · have hclocked := (numbered hs).clocked
    exact ⟨hclocked path, fun e he => (hclocked.step (State.stepped he)).2 path,
      fun diff hdiff => ((changed_generation hclocked diff).2 path).2 hdiff⟩
  · have hversioned := versioned (fun _ _ hok => hok) hs
    obtain ⟨⟨_, before, _⟩, htake, rfl⟩ := hat
    obtain ⟨rfl, snapshot, hsnapshot, hpath, j, hle, hj⟩ := hversioned.begun hreaches htake
    exact ⟨snapshot, j, hsnapshot, hpath, Nat.sub_le_iff_le_add.mp hle, hj⟩
  · exact (versioned (fun _ _ hok => hok) hs).stays (State.stepped he) hentry

/-- A file is taken, then written anew. -/
def rewritten : List Event :=
  [.begin ["a".toList], .status 0 none, .look 0, .compare 0, .read 0 none, .insert 0 7,
    .write ["a".toList] (.file [2] 2), .report { entriesChanged := [["a".toList]] }]

/-- It is taken again. -/
def taken : List Event := [.status 1 none, .look 1, .compare 1, .read 1 none, .insert 1 8]

def single : State := { history := fun _ => [.file [1] 1] }

theorem snapshots_fresh_rewritten :
    ∃ snapshot i, (machine.runs (machine.step (machine.runs single rewritten)
        (.begin ["a".toList])) taken).snapshots[1]? = some snapshot ∧ 2 ≤ i + 1 ∧
      ((machine.runs (machine.step (machine.runs single rewritten)
        (.begin ["a".toList])) taken).history ["a".toList])[i]? =
          some (.file snapshot.bytes snapshot.mtime) := by
  have hreach : machine.Reachable Distinguished (machine.runs single rewritten) := by
    refine .runs (.start ⟨fun _ => .file [1] 1, rfl⟩) ?_
    refine ⟨trivial, trivial, ⟨_, rfl, rfl⟩, trivial, ⟨_, _, rfl, rfl⟩, trivial,
      ⟨_, _, _, rfl, rfl⟩, trivial, ⟨_, rfl, rfl⟩, trivial, ⟨⟨_, _, _, rfl, rfl⟩, ?_⟩, trivial,
      trivial, ?_, trivial, trivial, trivial⟩
    · intro other
      show none ≠ some 7
      simp
    · intro old hold
      rw [List.mem_singleton.mp hold]
      show ([1].length, (1 : Int64)) ≠ ([2].length, 2)
      decide
  have hreaches : machine.Reaches Distinguished
      (machine.step (machine.runs single rewritten) (.begin ["a".toList]))
      (machine.runs (machine.step (machine.runs single rewritten) (.begin ["a".toList])) taken) := by
    refine .runs ⟨⟨_, rfl, rfl⟩, trivial, ⟨_, _, rfl, rfl⟩, trivial,
      ⟨_, _, _, rfl, rfl⟩, trivial, ⟨_, rfl, rfl⟩, trivial, ⟨⟨_, _, _, rfl, rfl⟩, ?_⟩, trivial,
      trivial⟩
    intro other
    show Function.update (fun _ => none) 0 (some 7) other ≠ some 8
    by_cases heq : other = 0
    · simp [heq]
    · simp [heq]
  obtain ⟨_, hfresh⟩ := snapshots_fresh
  obtain ⟨snapshot, i, hsnapshot, _, hle, hi⟩ :=
    (hfresh _ hreach).1 ["a".toList] _ 1 hreaches ⟨_, rfl, rfl⟩
  exact ⟨snapshot, i, hsnapshot, hle, hi⟩

end MakeBelieve.Snapshots
