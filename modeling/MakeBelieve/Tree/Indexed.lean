import MakeBelieve.Tree.Provenance
import MakeBelieve.Tree.Recorded

namespace MakeBelieve.Tree

/-! ### Neither index holds an empty set or an output without a rule -/

/-- No key is mapped to an empty set. -/
def Filled (sets : Path → Option (List Path)) : Prop := ∀ key, sets key ≠ some []

namespace State

variable {s t : State} {output : Path} {inputs : List Path} {sets : Path → Option (List Path)}

theorem Filled.update {key : Path} {members : Option (List Path)} (h : Filled sets)
    (hm : members ≠ some []) : Filled (Function.update sets key members) := by
  intro other
  by_cases heq : other = key
  · subst heq
    rwa [Function.update_self]
  · rw [Function.update_of_ne heq]
    exact h other

theorem Filled.dropDependent {input : Path} (h : Filled sets) :
    Filled (dropDependent output sets input) := by
  unfold State.dropDependent
  split
  · exact h
  · refine Filled.update h ?_
    split
    · simp
    · next hne => simpa using hne

theorem Filled.addDependent {input : Path} (h : Filled sets) :
    Filled (addDependent output sets input) := by
  refine Filled.update h fun hnil => ?_
  have hmem : output ∈ (membersOf sets input).insert output := List.mem_insert_self ..
  rw [Option.some.inj hnil] at hmem
  simp at hmem

/-- Whatever the inputs, repeated or none, an output's readers' sets go once empty. -/
theorem Filled.updateDependents (h : Filled s.dependents) :
    Filled (s.updateDependents output inputs).dependents := by
  have hdropped : Filled ((membersOf s.dependencies output).foldl (State.dropDependent output)
      s.dependents) :=
    List.foldlRecOn _ _ h fun _ hsets _ _ => Filled.dropDependent hsets
  exact List.foldlRecOn _ _ hdropped fun _ hsets _ _ => Filled.addDependent hsets

theorem Filled.removeOutput (h : Filled s.dependents) :
    Filled (s.removeOutput output).dependents := by
  unfold State.removeOutput
  exact Filled.updateDependents h

theorem foldl_addOutput_dependents (s : State) (commands : List Command) :
    (commands.foldl addOutput s).dependents = s.dependents := by
  induction commands generalizing s with
  | nil => rfl
  | cons command commands ih =>
    rw [List.foldl_cons, ih]
    unfold addOutput
    split <;> rfl

theorem Filled.takeCommands (h : Filled s.dependents) (commands : Commands) :
    Filled (s.takeCommands commands).2.dependents := by
  have hadded : Filled (commands.entries.foldl addOutput s).dependents := by
    rwa [foldl_addOutput_dependents]
  exact List.foldlRecOn (motive := fun s : State => Filled s.dependents) _ _ hadded
    fun _ hs _ _ => Filled.removeOutput hs

/-- Only outputs with a rule have inputs recorded. -/
def InputsDeclared (s : State) : Prop :=
  ∀ output, (s.dependencies output).isSome → s.declared output = true

theorem InputsDeclared.updateDependents (h : s.InputsDeclared) (hd : s.declared output = true) :
    (s.updateDependents output inputs).InputsDeclared := by
  intro other hother
  by_cases heq : other = output
  · exact heq ▸ hd
  · have hsome : (Function.update s.dependencies output (some inputs) other).isSome := hother
    rw [Function.update_of_ne heq] at hsome
    exact h other hsome

theorem InputsDeclared.takeCommands (h : s.InputsDeclared) (commands : Commands) :
    (s.takeCommands commands).2.InputsDeclared := by
  intro other hother
  have htaken := s.takeCommands_taken commands
  have hcommands : (s.takeCommands commands).2.commands = commands := by rw [htaken.only]
  unfold State.declared
  rw [hcommands]
  by_cases hgone : s.declared other = true ∧ commands.find other = none
  · rw [(htaken.removed other hgone.1 hgone.2).dependencies] at hother
    simp at hother
  · rw [(htaken.kept other hgone).2.2.2] at hother
    have hsome : commands.find other ≠ none := fun hnone => hgone ⟨h other hother, hnone⟩
    exact Option.isSome_iff_ne_none.mpr hsome

end State

/-- Restoring from the cache keeps what serving one record keeps. -/
theorem restoreAll_induction {P : State → Prop} {source : Source} {read : Hash → Option Bytes}
    (hstep : ∀ s record bytes, P s → P (s.restore record bytes)) {n : Nat} {rs : List Record}
    {r : Restoring} {s t : State} {dropped : List Path} (hs : P s)
    (hrun : restoreAll source read n rs r s = some (dropped, t)) : P t := by
  induction rs generalizing r s dropped with
  | nil =>
    obtain ⟨_, rfl⟩ := Prod.mk.inj (Option.some.inj hrun)
    exact hs
  | cons record rs ih =>
    unfold restoreAll at hrun
    split at hrun
    · simp at hrun
    · obtain ⟨⟨_, u⟩, hrest, heq⟩ := Option.map_eq_some_iff.mp hrun
      obtain ⟨_, rfl⟩ := Prod.mk.inj heq
      exact ih hs hrest
    · exact ih (hstep _ _ _ hs) hrun

theorem constructed_depends (commands : Commands) (mtime : Int64) :
    SameDepends {} (constructed commands mtime) := by
  rw [constructed_eq]
  exact ⟨rfl, rfl⟩

/-! ### What an invalidation marks -/

namespace State

/-- No output is marked twice, nor to be rebuilt twice. -/
theorem invalidate_nodup (s : State) (outputs : List Path) :
    (s.invalidate outputs).seen.Nodup ∧ (s.invalidate outputs).eager.Nodup := by
  have hall := @Library.Worklist.loop_keeps _ _ Marking.done Marking.mark Marking.next
    (fun m => Marked s m ∧ m.seen.Nodup ∧ m.eager.Nodup) ?_ (s.walkFuel outputs) { state := s }
    outputs.reverse ⟨⟨rfl, by simp, fun _ _ => ⟨rfl, rfl⟩, by simp⟩, by simp⟩
  · exact hall.2
  · intro m node hdone ⟨hm, hseen, heager⟩
    have hnode : node ∉ m.seen := by
      have : m.state.declared node = true ∧ node ∉ m.seen := by simpa [Marking.done] using hdone
      exact this.2
    have hnot : node ∉ m.eager := fun h => hnode ((hm.eager node).mp h).1
    refine ⟨hm.mark hdone, List.nodup_cons.mpr ⟨hnode, hseen⟩, ?_⟩
    unfold Marking.mark
    dsimp only
    split
    · exact List.nodup_append.mpr ⟨heager, List.nodup_singleton _, fun a ha b hb => by
        rw [List.mem_singleton] at hb
        exact fun hab => hnot (hb ▸ hab ▸ ha)⟩
    · exact heager

theorem reached_congr {s : State} {seeds other : List Path} (h : ∀ o, o ∈ other ↔ o ∈ seeds) (o : Path) :
    s.Reached other o ↔ s.Reached seeds o := by
  unfold Reached
  simp only [h]

/-- The marks are those of the outputs reached, so neither the order of the seeds nor how often
each is given matters. -/
theorem invalidate_congr (s : State) {seeds other : List Path} (h : ∀ o, o ∈ other ↔ o ∈ seeds) :
    (s.invalidate other).state = (s.invalidate seeds).state ∧
      (s.invalidate other).seen.Perm (s.invalidate seeds).seen ∧
      (s.invalidate other).eager.Perm (s.invalidate seeds).eager := by
  have hm := s.invalidate_marked other
  have hm' := s.invalidate_marked seeds
  have hseen : ∀ o, o ∈ (s.invalidate other).seen ↔ o ∈ (s.invalidate seeds).seen := by
    intro o
    rw [invalidate_seen, invalidate_seen, reached_congr h]
  have hmarks : ∀ o, (s.invalidate other).state.stale o = (s.invalidate seeds).state.stale o ∧
      (s.invalidate other).state.invalidations o = (s.invalidate seeds).state.invalidations o := by
    intro o
    by_cases ho : o ∈ (s.invalidate seeds).seen
    · obtain ⟨_, hstale, hcount⟩ := hm.seen o ((hseen o).mpr ho)
      obtain ⟨_, hstale', hcount'⟩ := hm'.seen o ho
      exact ⟨hstale.trans hstale'.symm, hcount.trans hcount'.symm⟩
    · obtain ⟨hstale, hcount⟩ := hm.others o fun hin => ho ((hseen o).mp hin)
      obtain ⟨hstale', hcount'⟩ := hm'.others o ho
      exact ⟨hstale.trans hstale'.symm, hcount.trans hcount'.symm⟩
  have hperm : ∀ {l l' : List Path}, l.Nodup → l'.Nodup → (∀ o, o ∈ l ↔ o ∈ l') → l.Perm l' :=
    fun hl hl' hmem => (List.perm_ext_iff_of_nodup hl hl').mpr fun o => hmem o
  refine ⟨?_, hperm (s.invalidate_nodup other).1 (s.invalidate_nodup seeds).1 hseen,
    hperm (s.invalidate_nodup other).2 (s.invalidate_nodup seeds).2 fun o => ?_⟩
  · rw [hm.only, hm'.only, funext fun o => (hmarks o).1, funext fun o => (hmarks o).2]
  · rw [hm.eager, hm'.eager, hseen]

end State

namespace World

variable {contentHash : Bytes → Hash} {cached : Bool}
variable {w : World} {e : Event}

/-- An invalidation ends, and marks once each declared output its seeds reach and nothing else. The
rebuilds it asks for are each still to come, after the cache has forgotten what was marked. -/
theorem invalidate_exactly (w : World) (seeds : List Path) (todo : List Task) (now : Int64)
    (ok : Bool) :
    let w' := { w with todo := .invalidate seeds :: todo }.resume now ok
    Library.Worklist.Ends State.Marking.done State.Marking.mark State.Marking.next
        { state := w.tree } seeds.reverse (w.tree.invalidate seeds) ∧
      (∀ o, w.tree.Reached seeds o → w'.tree.stale o = true ∧
        w'.tree.invalidations o = w.tree.invalidations o + 1) ∧
      (∀ o, ¬w.tree.Reached seeds o → w'.tree.stale o = w.tree.stale o ∧
        w'.tree.invalidations o = w.tree.invalidations o) ∧
      w'.tree = { w.tree with
        stale := w'.tree.stale, invalidations := w'.tree.invalidations } ∧
      (∃ marked eager : List Path, (∀ o, o ∈ marked ↔ w.tree.Reached seeds o) ∧ eager.Nodup ∧
        (∀ o, o ∈ eager ↔ w.tree.Reached seeds o ∧ w.tree.materialized o = true ∧
          w.tree.inFlight o = false) ∧
        w' = { w with
          tree := w'.tree, todo := .forget marked :: eager.map Task.startBuild ++ todo }) ∧
      ∀ other, (∀ o, o ∈ other ↔ o ∈ seeds) →
        ({ w with todo := .invalidate other :: todo }.resume now ok).tree = w'.tree := by
  have hm := w.tree.invalidate_marked seeds
  have hseen := w.tree.invalidate_seen seeds
  refine ⟨w.tree.invalidate_ends seeds, fun o ho => ?_, fun o ho => ?_, hm.only,
    ⟨(w.tree.invalidate seeds).seen, (w.tree.invalidate seeds).eager, hseen,
      (w.tree.invalidate_nodup seeds).2, fun o => ?_, rfl⟩, fun other hother => ?_⟩
  · exact (hm.seen o ((hseen o).mpr ho)).2
  · exact hm.others o fun hin => ho ((hseen o).mp hin)
  · rw [← hseen]
    exact hm.eager o
  · exact (w.tree.invalidate_congr hother).1

/-! ### Both indexes over whole runs -/

theorem filled_step (h : Filled w.tree.dependents) (he : w.enabled e) :
    Filled (w.step contentHash cached e).tree.dependents := by
  have hstep := @step_redepends contentHash cached w e he
  generalize (w.step contentHash cached e).tree = t at hstep ⊢
  cases hstep with
  | same ht => rwa [ht.dependents]
  | published _ ht =>
    rw [ht.dependents]
    exact State.Filled.updateDependents h
  | failed _ ht =>
    rw [ht.dependents]
    exact State.Filled.updateDependents h
  | @taken _ _ commands ht =>
    subst ht
    exact State.Filled.takeCommands h commands

/-- A build's inputs are recorded under the lock it found its output declared under. -/
theorem settle_inputsDeclared {b : BuildId} (h : w.tree.InputsDeclared)
    (he : w.enabled (.settle b)) : (w.settle b).tree.InputsDeclared := by
  obtain ⟨result, keep, _, _, hland⟩ := settle_landed he
  have hrecorded : (w.tree.recordFailure (w.builds b).launch.output result).InputsDeclared := by
    unfold State.recordFailure
    split
    · exact h
    · split
      · next hd =>
        dsimp only
        split
        · exact h
        · exact h.updateDependents hd
      · exact h
  have hdeclared : (w.settle b).tree.declared = w.tree.declared := by
    unfold State.declared
    rw [hland.commands]
  intro output hsome
  rw [hdeclared]
  rw [hland.depends.dependencies] at hsome
  have hcommands : (w.tree.recordFailure (w.builds b).launch.output result).commands =
      w.tree.commands := by
    rw [State.recordFailure_only]
  have hd := hrecorded output hsome
  unfold State.declared at hd ⊢
  rwa [hcommands] at hd

theorem publish_inputsDeclared {b : BuildId} {builtAt : Int64} (h : w.tree.InputsDeclared)
    (he : w.enabled (.publish b builtAt)) :
    (w.publish contentHash cached b builtAt).tree.InputsDeclared := by
  obtain ⟨_, bytes, inputs, hstage⟩ := he
  cases hc : w.tree.commands.find (w.builds b).launch.output with
  | none =>
    rw [publish_undeclared builtAt hstage hc]
    exact h
  | some command =>
    rw [publish_declared builtAt hstage hc]
    have hd : w.tree.declared (w.builds b).launch.output = true := by
      rw [State.declared, hc]
      rfl
    unfold State.publish
    cases cached with
    | false => exact h.updateDependents hd
    | true => exact State.InputsDeclared.updateDependents (s := { w.tree with hashes := _ }) h hd

theorem inputsDeclared_step (h : w.tree.InputsDeclared) (he : w.enabled e) :
    (w.step contentHash cached e).tree.InputsDeclared := by
  have hstep := @step_redepends contentHash cached w e he
  cases hstep with
  | same ht =>
    obtain hcommands | ⟨now, ok, commands, todo, rfl, htodo⟩ :=
      @step_commands contentHash cached w e
    · intro output hsome
      rw [ht.dependencies] at hsome
      unfold State.declared
      rw [hcommands]
      exact h output hsome
    · have htree : (w.step contentHash cached (.resume now ok)).tree =
          (w.tree.takeCommands commands).2 := by
        show (w.resume now ok).tree = _
        unfold World.resume
        rw [htodo]
      rw [htree]
      exact h.takeCommands commands
  | published => exact publish_inputsDeclared h he
  | failed => exact settle_inputsDeclared h he
  | @taken _ _ commands ht =>
    rw [ht]
    exact h.takeCommands commands

theorem Starts.filled (h : Starts contentHash cached w) : Filled w.tree.dependents := by
  obtain ⟨commands, mtime, source, cache, tree, htree, rfl⟩ := h
  have hbefore : Filled (constructed commands mtime).dependents := by
    rw [(constructed_depends commands mtime).dependents]
    intro key hkey
    simp at hkey
  cases cached with
  | false =>
    obtain ⟨_, rfl⟩ := htree
    exact hbefore
  | true =>
    obtain ⟨before, n, _, hrun⟩ := htree
    obtain ⟨⟨dropped, t⟩, hall, heq⟩ := Option.map_eq_some_iff.mp hrun
    obtain ⟨_, rfl⟩ := Prod.mk.inj heq
    exact restoreAll_induction (P := fun s => Filled s.dependents)
      (fun _ _ _ hs => State.Filled.updateDependents hs) hbefore hall

theorem Starts.inputsDeclared (h : Starts contentHash cached w) : w.tree.InputsDeclared := by
  obtain ⟨commands, mtime, source, cache, tree, htree, rfl⟩ := h
  have hbefore : ∀ output, (constructed commands mtime).dependencies output = none := by
    intro output
    rw [(constructed_depends commands mtime).dependencies]
  cases cached with
  | false =>
    obtain ⟨_, rfl⟩ := htree
    intro output hsome
    rw [hbefore] at hsome
    simp at hsome
  | true =>
    obtain ⟨before, n, hn, hrun⟩ := htree
    obtain ⟨kept, t, hrun', hexactly⟩ := @restoreFromCache_exactly source contentHash before n hn _
      (constructed_inverse commands mtime)
    obtain ⟨rfl, rfl⟩ := Prod.mk.inj (Option.some.inj (hrun.symm.trans hrun'))
    intro output hsome
    by_cases hin : output ∈ Library.Memo.least
        (cacheConds source contentHash before (constructed commands mtime).commands)
    · obtain ⟨record, _, rfl, hcommand, _⟩ := (isLeast_restorable.1 output).mp hin
      unfold State.declared
      rw [hexactly.only]
      exact Option.isSome_iff_exists.mpr ⟨_, hcommand⟩
    · rw [(hexactly.others output hin).dependencies, hbefore] at hsome
      simp at hsome

/-- Both indexes are always in step: one is the other inverted, with no set left empty and nothing
recorded of an output without a rule. -/
theorem indexes_inverse {ok : World → Event → Prop}
    (h : (machine contentHash cached).Reachable ok w) :
    (∀ input output, output ∈ State.membersOf w.tree.dependents input ↔
        input ∈ State.membersOf w.tree.dependencies output) ∧
      (∀ input, w.tree.dependents input ≠ some []) ∧
      ∀ output, (w.tree.dependencies output).isSome → w.tree.declared output = true := by
  refine ⟨inverse h, ?_, ?_⟩
  · exact h.invariant (P := fun w => Filled w.tree.dependents) (fun _ hs => Starts.filled hs)
      fun _ _ hf he _ => filled_step hf he
  · exact h.invariant (P := fun w => w.tree.InputsDeclared) (fun _ hs => Starts.inputsDeclared hs)
      fun _ _ hi he _ => inputsDeclared_step hi he

/-- The build of the one output reads one file, twice. -/
def readsB : List Event :=
  [.coordinator (.finish 0), .endWork 0 (.built [1] [[['b']], [['b']]]), .publish 0 5]

theorem indexes_inverse_readsB :
    [['a']] ∈ State.membersOf ((provenances (fun _ => []) true).runs (keepsOne, { before := [] })
      (runsA ++ readsB)).1.tree.dependents [['b']] := by
  have hfires := @fires_of_allFire (fun _ => []) true _ _ noteProvenance (fun _ _ => true)
    (fun _ _ => True) (keepsOne, { before := [] }) (runsA ++ readsB) keepsOne_reachable
    (fun _ _ _ _ => trivial) (by decide +kernel)
  have hnoted : ((machine (fun _ => []) true).noting
      (fun w => ({ before := w.cache.records } : Provenance)) noteProvenance).Reachable
        (fun _ _ => True) _ := keepsOne_reachable.runs hfires
  exact ((indexes_inverse hnoted.unnoted).1 _ _).mpr (by decide +kernel)

end World

end MakeBelieve.Tree
