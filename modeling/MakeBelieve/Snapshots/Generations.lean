import MakeBelieve.Snapshots.State

namespace MakeBelieve.Snapshots

open Library
open MakeBelieve.Tree (Bytes)

variable {s s' : State} {e : Event}

/-! ### Generations -/

/-- No file's generation is greater than the newest. -/
def Clocked (s : State) : Prop := ∀ path, s.generation path ≤ s.latest

theorem generation_changedEntry (h : Clocked s) (path other : Path) :
    (s.changedEntry path).generation other =
      if other = path then s.clock + 1 else s.generation other := by
  have heverything : s.everything ≤ s.clock := Nat.le_trans (Nat.le_max_left _ _) (h path)
  by_cases heq : other = path
  · simp [State.generation, State.changedEntry, heq]
    omega
  · simp [State.generation, State.changedEntry, heq]

theorem Clocked.changedEntry (h : Clocked s) (path : Path) : Clocked (s.changedEntry path) := by
  intro other
  have hother : s.generation other ≤ s.clock := h other
  show _ ≤ s.clock + 1
  rw [generation_changedEntry h]
  split <;> omega

/-- Over changes reported one after the other, generations only grow, and those of the paths named
do. -/
theorem foldl_changedEntry (h : Clocked s) (paths : List Path) :
    Clocked (paths.foldl State.changedEntry s) ∧ ∀ path,
      s.generation path ≤ (paths.foldl State.changedEntry s).generation path ∧
      (path ∈ paths → s.generation path < (paths.foldl State.changedEntry s).generation path) := by
  induction paths generalizing s with
  | nil => exact ⟨h, fun path => ⟨Nat.le_refl _, by simp⟩⟩
  | cons first paths ih =>
    obtain ⟨hclocked, hgrows⟩ := ih (h.changedEntry first)
    refine ⟨hclocked, fun path => ?_⟩
    obtain ⟨hle, hlt⟩ := hgrows path
    have hold : s.generation path ≤ s.clock := h path
    rw [generation_changedEntry h] at hle hlt
    rw [List.foldl_cons, List.mem_cons]
    by_cases heq : path = first
    · rw [if_pos heq] at hle
      exact ⟨by omega, fun _ => by omega⟩
    · rw [if_neg heq] at hle hlt
      exact ⟨hle, fun hmem => hlt (hmem.resolve_left heq)⟩

theorem changed_generation (h : Clocked s) (diff : DirectoryTreeDiff) :
    Clocked (s.changed diff) ∧ ∀ path,
      s.generation path ≤ (s.changed diff).generation path ∧
      (diff.everythingDirty = true ∨ path ∈ diff.entriesChanged →
        s.generation path < (s.changed diff).generation path) := by
  unfold State.changed
  split
  · have hnew : ∀ path, State.generation { s with
        clock := s.clock + 1, everything := s.clock + 1, generations := fun _ => none
        current := fun _ => none } path = s.clock + 1 := by
      intro path
      simp [State.generation]
    refine ⟨fun path => Nat.le_of_eq (hnew path), fun path => ?_⟩
    have hold : s.generation path ≤ s.clock := h path
    rw [hnew]
    exact ⟨by omega, fun _ => by omega⟩
  · next hnot =>
    obtain ⟨hclocked, hgrows⟩ := foldl_changedEntry h diff.entriesChanged
    exact ⟨hclocked, fun path => ⟨(hgrows path).1, fun hmem => (hgrows path).2
      (hmem.resolve_left hnot)⟩⟩

/-- A report leaves the generation of what it does not name. -/
theorem changed_generation_of_not {diff : DirectoryTreeDiff} (h : Clocked s)
    (hdirty : diff.everythingDirty = false) {path : Path} (hnot : path ∉ diff.entriesChanged) :
    (s.changed diff).generation path = s.generation path := by
  unfold State.changed
  rw [if_neg (by simp [hdirty])]
  generalize diff.entriesChanged = paths at hnot ⊢
  induction paths generalizing s with
  | nil => rfl
  | cons first paths ih =>
    obtain ⟨hfirst, hrest⟩ := not_or.mp (List.mem_cons.not.mp hnot)
    rw [List.foldl_cons, ih (h.changedEntry first) hrest, generation_changedEntry h, if_neg hfirst]

/-- What a report leaves as it is. -/
theorem changed_frame (s : State) (diff : DirectoryTreeDiff) :
    (s.changed diff).history = s.history ∧ (s.changed diff).snapshots = s.snapshots ∧
    (s.changed diff).addresses = s.addresses ∧ (s.changed diff).takes = s.takes ∧
    (s.changed diff).nextTake = s.nextTake ∧
    ∀ path entry, (s.changed diff).current path = some entry → s.current path = some entry := by
  unfold State.changed
  split
  · exact ⟨rfl, rfl, rfl, rfl, rfl, fun _ _ h => absurd h (by simp)⟩
  · induction diff.entriesChanged generalizing s with
    | nil => exact ⟨rfl, rfl, rfl, rfl, rfl, fun _ _ h => h⟩
    | cons first paths ih =>
      obtain ⟨hhistory, hsnapshots, haddresses, htakes, hnext, hcurrent⟩ := ih (s.changedEntry first)
      refine ⟨hhistory, hsnapshots, haddresses, htakes, hnext, fun path entry hentry => ?_⟩
      have hentry := hcurrent path entry hentry
      by_cases heq : path = first
      · simp [State.changedEntry, heq] at hentry
      · simpa [State.changedEntry, heq] using hentry

/-- Of all that can be done only a report moves generations on. -/
theorem Stepped.clock (hs : Stepped s e s') (hreport : ∀ diff, e ≠ .report diff) :
    s'.generation = s.generation ∧ s'.latest = s.latest := by
  cases hs with
  | report diff => exact absurd rfl (hreport diff)
  | @status id take fails =>
    unfold State.status
    split <;> exact ⟨rfl, rfl⟩
  | @compare id take info held =>
    unfold State.compare
    split
    · exact ⟨rfl, rfl⟩
    · split <;> exact ⟨rfl, rfl⟩
  | @read id take fails =>
    unfold State.read
    split <;> exact ⟨rfl, rfl⟩
  | _ => exact ⟨rfl, rfl⟩

theorem Clocked.step (h : Clocked s) (hs : Stepped s e s') :
    Clocked s' ∧ ∀ path, s.generation path ≤ s'.generation path := by
  by_cases hreport : ∃ diff, e = .report diff
  · obtain ⟨diff, rfl⟩ := hreport
    cases hs
    exact (changed_generation h diff).imp id fun hgrows path => (hgrows path).1
  · obtain ⟨hgeneration, hlatest⟩ := hs.clock fun diff heq => hreport ⟨diff, heq⟩
    unfold Clocked
    rw [hgeneration, hlatest]
    exact ⟨h, fun _ => Nat.le_refl _⟩

/-! ### Takes and what they take -/

/-- A step leaves the snapshots there are as they are, and may add one of a take's whole file. -/
theorem Stepped.snapshots (hs : Stepped s e s') :
    s'.snapshots = s.snapshots ∨ ∃ id take bytes mtime, s.takes id = some take ∧
      take.phase = .whole bytes mtime ∧ s'.snapshots = s.snapshots ++
        [{ path := take.path, bytes, mtime, generation := take.before }] := by
  cases hs with
  | report diff => exact .inl (changed_frame s diff).2.1
  | @status id take fails =>
    refine .inl ?_
    unfold State.status
    split <;> rfl
  | @compare id take info held =>
    refine .inl ?_
    unfold State.compare
    split
    · rfl
    · split <;> rfl
  | @read id take fails =>
    refine .inl ?_
    unfold State.read
    split <;> rfl
  | insert htake hphase => exact .inr ⟨_, _, _, _, htake, hphase, rfl⟩
  | _ => exact .inl rfl

theorem takes_setPhase {id other : TakeId} {phase : Phase} {take' : Take}
    (h : (s.setPhase id phase).takes other = some take') :
    s.takes other = some take' ∨
      other = id ∧ ∃ take, s.takes id = some take ∧ take' = { take with phase } := by
  by_cases heq : other = id
  · subst heq
    simp only [State.setPhase, Function.update_self, Option.map_eq_some_iff] at h
    obtain ⟨take, htake, rfl⟩ := h
    exact .inr ⟨rfl, take, htake, rfl⟩
  · simp only [State.setPhase, Function.update_of_ne heq] at h
    exact .inl h

theorem Stepped.nextTake (hs : Stepped s e s') : s.nextTake ≤ s'.nextTake := by
  cases hs with
  | report diff => exact Nat.le_of_eq (changed_frame s diff).2.2.2.2.1.symm
  | begin => exact Nat.le_succ _
  | status =>
    unfold State.status
    split <;> exact Nat.le_refl _
  | compare =>
    unfold State.compare
    split
    · exact Nat.le_refl _
    · split <;> exact Nat.le_refl _
  | read =>
    unfold State.read
    split <;> exact Nat.le_refl _
  | _ => exact Nat.le_refl _

/-- A step begins no take but the next one, and each stays of the path and the generation it began
with. -/
theorem Stepped.takes (hs : Stepped s e s') {id : TakeId} {take' : Take}
    (h : s'.takes id = some take') :
    (∃ take, s.takes id = some take ∧ take'.path = take.path ∧ take'.before = take.before) ∨
      ∃ path, e = .begin path ∧ id = s.nextTake ∧ s' = s.begin path := by
  have hphase : ∀ {other : TakeId} {phase : Phase},
      (s.setPhase other phase).takes id = some take' →
      ∃ take, s.takes id = some take ∧ take'.path = take.path ∧ take'.before = take.before := by
    intro other phase h
    obtain hsame | ⟨rfl, take, htake, rfl⟩ := takes_setPhase h
    · exact ⟨take', hsame, rfl, rfl⟩
    · exact ⟨take, htake, rfl, rfl⟩
  have hsame : s.takes id = some take' →
      ∃ take, s.takes id = some take ∧ take'.path = take.path ∧ take'.before = take.before :=
    fun h => ⟨take', h, rfl, rfl⟩
  cases hs with
  | report diff =>
    rw [(changed_frame s diff).2.2.2.1] at h
    exact .inl (hsame h)
  | begin path =>
    by_cases heq : id = s.nextTake
    · exact .inr ⟨path, rfl, heq, rfl⟩
    · simp only [State.begin, Function.update_of_ne heq] at h
      exact .inl (hsame h)
  | status =>
    unfold State.status at h
    split at h <;> exact .inl (hphase h)
  | @compare _ _ _ held =>
    unfold State.compare at h
    split at h
    · exact .inl (hphase h)
    · split at h <;> exact .inl (hphase h)
  | read =>
    unfold State.read at h
    split at h <;> exact .inl (hphase h)
  | look => exact .inl (hphase h)
  | insert => exact .inl (hphase h)
  | @stop other =>
    by_cases heq : id = other
    · simp [heq] at h
    · exact .inl (hsame (by simpa [heq] using h))
  | @release other =>
    by_cases heq : id = other
    · simp [State.release, heq] at h
    · exact .inl (hsame (by simpa [State.release, heq] using h))
  | _ => exact .inl (hsame h)

/-- No take has begun, and no snapshot is, at a generation its path has yet to come to. -/
structure Numbered (s : State) : Prop where
  clocked : Clocked s
  takes : ∀ id take, s.takes id = some take → take.before ≤ s.generation take.path
  snapshots : ∀ snapshot ∈ s.snapshots, snapshot.generation ≤ s.generation snapshot.path

theorem Numbered.step (h : Numbered s) (hs : Stepped s e s') : Numbered s' := by
  obtain ⟨hclocked, hgrows⟩ := h.clocked.step hs
  refine ⟨hclocked, fun id take' htake' => ?_, fun snapshot hmem => ?_⟩
  · obtain ⟨take, htake, hpath, hbefore⟩ | ⟨path, rfl, rfl, rfl⟩ := hs.takes htake'
    · rw [hpath, hbefore]
      exact Nat.le_trans (h.takes id take htake) (hgrows _)
    · simp only [State.begin, Function.update_self, Option.some.injEq] at htake'
      subst htake'
      exact Nat.le_refl _
  · obtain heq | ⟨id, take, bytes, mtime, htake, _, heq⟩ := hs.snapshots
    · rw [heq] at hmem
      exact Nat.le_trans (h.snapshots snapshot hmem) (hgrows _)
    · rw [heq, List.mem_append, List.mem_singleton] at hmem
      obtain hmem | rfl := hmem
      · exact Nat.le_trans (h.snapshots snapshot hmem) (hgrows _)
      · exact Nat.le_trans (h.takes id take htake) (hgrows _)

theorem numbered {ok : State → Event → Prop} (h : machine.Reachable ok s) : Numbered s := by
  refine h.invariant (P := Numbered) (fun s hs => ?_) fun s e hk he _ => hk.step (State.stepped he)
  obtain ⟨entries, rfl⟩ := hs
  exact ⟨fun path => by simp [State.generation, State.latest], by simp, by simp⟩

end MakeBelieve.Snapshots
