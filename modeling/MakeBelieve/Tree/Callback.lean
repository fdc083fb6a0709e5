import MakeBelieve.Tree.Timely

namespace MakeBelieve.Tree

open Library

/-- Whether a task is done under the layout's lock, which the callback holds on to meanwhile. -/
def Task.inLayout : Task → Bool
  | .removeFile _ | .writePlaceholder _ | .leaveLayout => true
  | _ => false

/-- Whether a task comes after those under the layout's lock. -/
def Task.late : Task → Bool
  | .collectReaders _ | .forget _ | .collectAffected _ _ | .invalidate _ | .startBuild _ => true
  | _ => false

/-- What the callback has yet to do is in order: new rules first, then the files, then the rest. -/
def Task.Sequence : List Task → Prop
  | [] => True
  | .applyRules _ :: todo => ∃ everythingDirty entriesChanged,
      todo = [.collectAffected everythingDirty entriesChanged]
  | .removeFile _ :: todo => Sequence todo
  | .writePlaceholder _ :: todo => Sequence todo
  | _ :: todo => ∀ task ∈ todo, task.late = true

theorem Task.Sequence.of_late {todo : List Task} (h : ∀ task ∈ todo, task.late = true) :
    Sequence todo := by
  cases todo with
  | nil => trivial
  | cons task todo =>
    obtain ⟨htask, hrest⟩ := List.forall_mem_cons.mp h
    cases task with
    | applyRules | removeFile | writePlaceholder => simp [Task.late] at htask
    | _ => exact hrest

theorem Task.Sequence.files {files todo : List Task}
    (hfiles : ∀ task ∈ files, ∃ output, task = .removeFile output ∨ task = .writePlaceholder output)
    (h : Sequence todo) : Sequence (files ++ todo) := by
  induction files with
  | nil => exact h
  | cons task files ih =>
    obtain ⟨⟨output, rfl | rfl⟩, hrest⟩ := List.forall_mem_cons.mp hfiles
    · exact ih hrest
    · exact ih hrest

theorem Task.Sequence.tail {task : Task} {todo : List Task} (h : Sequence (task :: todo))
    (hlayout : task.inLayout = true) : Sequence todo := by
  cases task with
  | removeFile | writePlaceholder => exact h
  | leaveLayout => exact .of_late h
  | _ => simp [Task.inLayout] at hlayout

theorem Task.Sequence.tail_late {task : Task} {todo : List Task} (h : Sequence (task :: todo))
    (htask : task.late = true) : ∀ other ∈ todo, other.late = true := by
  cases task with
  | applyRules | removeFile | writePlaceholder | leaveLayout => simp [Task.late] at htask
  | _ => exact h

/-- Whether a build is under way with nothing of it published. -/
def Stage.unpublished : Stage → Bool
  | .claimed | .working | .finishing _ => true
  | _ => false

def Stage.writes : Stage → Bool
  | .writing .. => true
  | _ => false

def Stage.stamps : Stage → Bool
  | .stamping .. => true
  | _ => false

namespace World

variable {contentHash : Bytes → Hash} {cached : Bool}
variable {w w' : World} {b : BuildId} {output o : Path} {s t : State} {e : Event}

/-- Who holds which lock, and what the callback does while it holds the layout's: it removes the
files of outputs that have lost their rule, and writes the placeholders of outputs that are stale
or have a build with nothing published yet. -/
structure Orderly (w : World) : Prop where
  sequence : Task.Sequence w.todo
  layout : (∃ task ∈ w.todo, task.inLayout = true) → w.layout = some .callback
  writing : ∀ b, (w.builds b).stage.writes = true → w.layout = some (.build b)
  stamping : ∀ b, (w.builds b).stage.stamps = true → w.cacheHolder = some b
  removing : ∀ o, .removeFile o ∈ w.todo → w.tree.declared o = false
  placing : ∀ o, .writePlaceholder o ∈ w.todo → OutOfDate w.tree o ∨
    ∃ b, (w.builds b).stage.unpublished = true ∧ (w.builds b).launch.output = o

theorem step_todo (hchange : ∀ d p r, e ≠ .sourceChange d p r) (hresume : ∀ n k, e ≠ .resume n k) :
    (w.step contentHash cached e).todo = w.todo := by
  cases e with
  | bringUpToDate output => exact (addBuild_aside _ _ _).1
  | startNext output => exact (addBuild_aside _ _ _).1
  | recordRead | materializeAll => rfl
  | publish b builtAt =>
    show (w.publish contentHash cached b builtAt).todo = w.todo
    unfold World.publish
    dsimp only
    split
    · split <;> rfl
    · rfl
  | write b =>
    show (w.write b).todo = w.todo
    unfold World.write
    dsimp only
    split <;> rfl
  | settle b =>
    show (w.settle b).todo = w.todo
    unfold World.settle
    split
    · exact (w.settleWith_aside b _ _).1
    · exact (w.settleWith_aside b _ _).1
    · rfl
  | sourceChange d p r => exact absurd rfl (hchange d p r)
  | resume n k => exact absurd rfl (hresume n k)
  | launch | endWork | complete | completeOrphaned | beginKeeping | stamp | store | editSource
  | coordinator => exact (step_aside rfl).todo

/-- The callback's next step leaves it in order, and with the layout's lock as long as it needs
that. -/
theorem Orderly.resume_sequence (h : Orderly w) (now : Int64) (ok : Bool) :
    Task.Sequence (w.resume now ok).todo ∧
      ((∃ task ∈ (w.resume now ok).todo, task.inLayout = true) →
        (w.resume now ok).layout = some .callback) := by
  have hseq := h.sequence
  have hlayout := h.layout
  -- Where only late tasks are left, none needs the lock.
  have hlate : ∀ {w' : World}, (∀ task ∈ w'.todo, task.late = true) → Task.Sequence w'.todo ∧
      ((∃ task ∈ w'.todo, task.inLayout = true) → w'.layout = some .callback) := by
    refine fun hall => ⟨.of_late hall, ?_⟩
    rintro ⟨task, hmem, hin⟩
    have := hall task hmem
    cases task <;> simp [Task.late, Task.inLayout] at this hin
  unfold World.resume
  split
  · exact ⟨hseq, hlayout⟩
  · next commands todo htodo =>
    rw [htodo] at hseq
    obtain ⟨everythingDirty, entriesChanged, rfl⟩ := hseq
    refine ⟨?_, fun _ => rfl⟩
    refine Task.Sequence.files (fun task hmem => ?_) (by simp [Task.Sequence, Task.late])
    obtain hmem | hmem := List.mem_append.mp hmem
    · obtain ⟨output, _, rfl⟩ := List.mem_map.mp hmem
      exact ⟨output, .inl rfl⟩
    · obtain ⟨output, _, rfl⟩ := List.mem_map.mp hmem
      exact ⟨output, .inr rfl⟩
  · next output todo htodo =>
    rw [htodo] at hseq hlayout
    exact ⟨hseq, fun ⟨task, hmem, hin⟩ => hlayout ⟨task, List.mem_cons_of_mem _ hmem, hin⟩⟩
  · next output todo htodo =>
    rw [htodo] at hseq hlayout
    exact ⟨hseq, fun ⟨task, hmem, hin⟩ => hlayout ⟨task, List.mem_cons_of_mem _ hmem, hin⟩⟩
  · next todo htodo =>
    rw [htodo] at hseq
    exact hlate hseq
  · next changes todo htodo =>
    rw [htodo] at hseq
    exact hlate (List.forall_mem_cons.mpr ⟨rfl, List.forall_mem_cons.mpr ⟨rfl, hseq⟩⟩)
  · next outputs todo htodo =>
    rw [htodo] at hseq
    exact hlate hseq
  · next everythingDirty entriesChanged todo htodo =>
    rw [htodo] at hseq
    exact hlate (List.forall_mem_cons.mpr ⟨rfl, hseq⟩)
  · next outputs todo htodo =>
    rw [htodo] at hseq
    refine hlate (List.forall_mem_cons.mpr ⟨rfl, fun task hmem => ?_⟩)
    obtain hmem | hmem := List.mem_append.mp hmem
    · obtain ⟨output, _, rfl⟩ := List.mem_map.mp hmem
      rfl
    · exact hseq task hmem
  · next output todo htodo =>
    rw [htodo] at hseq
    refine hlate fun task hmem => hseq task ?_
    have htodo' : (({ w with todo } : World).startBuild output).todo = todo :=
      (addBuild_aside _ _ _).1
    exact htodo' ▸ hmem

/-- The layout's lock changes hands only where it is free, or where its holder gives it up. -/
theorem Orderly.step_layout (h : Orderly w) (he : w.enabled e) :
    (w.step contentHash cached e).layout = w.layout ∨ w.layout = none ∨
      (w.layout = some .callback ∧ ∃ now ok, e = .resume now ok) ∨
      ∃ b, e = .write b ∧ w.layout = some (.build b) := by
  cases e with
  | bringUpToDate output => exact .inl (addBuild_aside _ _ _).2.1
  | startNext output => exact .inl (addBuild_aside _ _ _).2.1
  | recordRead | materializeAll | sourceChange => exact .inl rfl
  | publish b builtAt => exact .inr (.inl he.1)
  | write b =>
    obtain ⟨result, builtAt, keep, hstage⟩ := he
    exact .inr (.inr (.inr ⟨b, rfl, h.writing b (by rw [hstage]; rfl)⟩))
  | settle b =>
    refine .inl (show (w.settle b).layout = w.layout from ?_)
    unfold World.settle
    split
    · exact (w.settleWith_aside b _ _).2.1
    · exact (w.settleWith_aside b _ _).2.1
    · rfl
  | resume now ok =>
    obtain ⟨task, todo, htodo, hfree⟩ := he
    show (w.resume now ok).layout = w.layout ∨ _
    unfold World.resume
    cases task with
    | applyRules commands => exact .inr (.inl hfree)
    | leaveLayout =>
      exact .inr (.inr (.inl ⟨h.layout ⟨.leaveLayout, by simp [htodo], rfl⟩, now, ok, rfl⟩))
    | startBuild output =>
      simp only [htodo]
      exact .inl (addBuild_aside _ _ _).2.1
    | _ =>
      simp only [htodo]
      exact .inl trivial
  | launch | endWork | complete | completeOrphaned | beginKeeping | stamp | store | editSource
  | coordinator => exact .inl (step_aside rfl).layout

theorem OpenedAs.commands (ht : OpenedAs s output t) : t.commands = s.commands := by
  obtain rfl | ⟨command, _, rfl⟩ := ht <;> rfl

theorem Brought.commands (hb : Brought w output w') : w'.tree.commands = w.tree.commands := by
  cases hb with
  | none ht => exact ht.commands
  | minted ht => exact ht.commands
  | claimed ht =>
    rw [claim_tree, State.claimBuild_only]
    exact ht.commands

theorem Landed.commands {result : BuildResult} {keep : Option Keep}
    (hland : Landed w b result keep w') : w'.tree.commands = w.tree.commands := by
  have hout := w.tree.outcome_only (w.builds b).launch.output result
  have hlanded := w.tree.landed_only (w.builds b).launch.output result
  unfold State.OnlyDepends at hout hlanded
  cases hland with
  | removed =>
    show (w.tree.landed (w.builds b).launch.output result).commands = _
    rw [hlanded]
  | rebuilt =>
    rw [claim_tree, State.claimBuild_only]
    show (w.tree.outcome (w.builds b).launch.output result).commands = _
    rw [hout]
  | idle =>
    show (w.tree.outcome (w.builds b).launch.output result).commands = _
    rw [hout]

/-- The rules change only where the callback takes new ones. -/
theorem step_commands (w : World) (e : Event) :
    (w.step contentHash cached e).tree.commands = w.tree.commands ∨
      ∃ now ok commands todo, e = .resume now ok ∧ w.todo = .applyRules commands :: todo := by
  cases e with
  | bringUpToDate output => exact .inl (w.brought output).commands
  | startNext output =>
    exact .inl (brought_startBuild { w with starting := w.starting.erase output } output).commands
  | recordRead reader output =>
    refine .inl (show (w.tree.recordRead reader output).commands = _ from ?_)
    unfold State.recordRead
    split <;> rfl
  | materializeAll | sourceChange => exact .inl rfl
  | publish b builtAt =>
    refine .inl (show (w.publish contentHash cached b builtAt).tree.commands = _ from ?_)
    unfold World.publish State.publish
    dsimp only
    split
    · split
      · rfl
      · cases cached <;> rfl
    · rfl
  | write b =>
    refine .inl (show (w.write b).tree.commands = _ from ?_)
    unfold World.write
    dsimp only
    split <;> rfl
  | settle b =>
    refine .inl (show (w.settle b).tree.commands = _ from ?_)
    unfold World.settle
    split
    · exact (w.landed b _ _).commands
    · exact (w.landed b _ _).commands
    · rfl
  | resume now ok =>
    show (w.resume now ok).tree.commands = w.tree.commands ∨ _
    unfold World.resume
    split
    · exact .inl rfl
    · next commands todo htodo => exact .inr ⟨now, ok, commands, todo, rfl, htodo⟩
    · exact .inl rfl
    · exact .inl rfl
    · exact .inl rfl
    · exact .inl rfl
    · exact .inl rfl
    · exact .inl rfl
    · next outputs todo _ =>
      refine .inl ?_
      show (w.tree.invalidate outputs).state.commands = w.tree.commands
      rw [(w.tree.invalidate_marked outputs).only]
    · next output todo _ => exact .inl (brought_startBuild { w with todo } output).commands
  | launch | endWork | complete | completeOrphaned | beginKeeping | stamp | store | editSource
  | coordinator => exact .inl (by rw [(step_aside rfl).tree])

/-- What is left to do once the callback has gone on: what was, what comes late, and the files of
the outputs that new rules take away or add. -/
theorem resume_todo (w : World) (now : Int64) (ok : Bool) {task : Task}
    (hmem : task ∈ (w.resume now ok).todo) : task ∈ w.todo ∨ task.late = true ∨
      ∃ commands todo, w.todo = .applyRules commands :: todo ∧ (task = .leaveLayout ∨
        (∃ o ∈ (w.tree.changesTo commands).removed, task = .removeFile o) ∨
        ∃ o ∈ (w.tree.changesTo commands).added, task = .writePlaceholder o) := by
  have htail : ∀ {head : Task} {todo : List Task}, w.todo = head :: todo → task ∈ todo →
      task ∈ w.todo := fun htodo h => htodo ▸ List.mem_cons_of_mem _ h
  unfold World.resume at hmem
  split at hmem
  · exact .inl hmem
  · next commands todo htodo =>
    obtain hmem | hmem := List.mem_append.mp hmem
    · refine .inr (.inr ⟨commands, todo, htodo, .inr ?_⟩)
      exact (List.mem_append.mp hmem).imp
        (fun h => (List.mem_map.mp h).imp fun _ h => ⟨h.1, h.2.symm⟩)
        fun h => (List.mem_map.mp h).imp fun _ h => ⟨h.1, h.2.symm⟩
    · obtain rfl | hmem := List.mem_cons.mp hmem
      · exact .inr (.inr ⟨commands, todo, htodo, .inl rfl⟩)
      obtain rfl | hmem := List.mem_cons.mp hmem
      · exact .inr (.inl rfl)
      · exact .inl (htail htodo hmem)
  · next htodo => exact .inl (htail htodo hmem)
  · next htodo => exact .inl (htail htodo hmem)
  · next htodo => exact .inl (htail htodo hmem)
  · next htodo =>
    obtain rfl | hmem := List.mem_cons.mp hmem
    · exact .inr (.inl rfl)
    obtain rfl | hmem := List.mem_cons.mp hmem
    · exact .inr (.inl rfl)
    · exact .inl (htail htodo hmem)
  · next htodo => exact .inl (htail htodo hmem)
  · next htodo =>
    obtain rfl | hmem := List.mem_cons.mp hmem
    · exact .inr (.inl rfl)
    · exact .inl (htail htodo hmem)
  · next htodo =>
    obtain rfl | hmem := List.mem_cons.mp hmem
    · exact .inr (.inl rfl)
    obtain hmem | hmem := List.mem_append.mp hmem
    · obtain ⟨output, _, rfl⟩ := List.mem_map.mp hmem
      exact .inr (.inl rfl)
    · exact .inl (htail htodo hmem)
  · next output todo htodo =>
    have htodo' : (({ w with todo } : World).startBuild output).todo = todo :=
      (addBuild_aside _ _ _).1
    exact .inl (htail htodo (htodo' ▸ hmem))

/-- A file the callback has yet to remove or write it had to already, unless it takes new rules. -/
theorem step_files {task : Task}
    (hfile : ∃ output, task = .removeFile output ∨ task = .writePlaceholder output)
    (hmem : task ∈ (w.step contentHash cached e).todo) :
    task ∈ w.todo ∨ ∃ now ok commands todo, e = .resume now ok ∧
      w.todo = .applyRules commands :: todo ∧
      ((∃ o ∈ (w.tree.changesTo commands).removed, task = .removeFile o) ∨
        ∃ o ∈ (w.tree.changesTo commands).added, task = .writePlaceholder o) := by
  obtain ⟨output, hfile⟩ := hfile
  have hlate : task.late ≠ true := by obtain rfl | rfl := hfile <;> simp [Task.late]
  have hleave : task ≠ .leaveLayout := by obtain rfl | rfl := hfile <;> simp
  by_cases hchange : ∃ d p r, e = .sourceChange d p r
  · obtain ⟨d, p, r, rfl⟩ := hchange
    have hmem' : task ∈ (r.map Task.applyRules).toList ++ [.collectAffected d p] := hmem
    obtain hmem' | hmem' := List.mem_append.mp hmem'
    · obtain ⟨commands, -, rfl⟩ : ∃ commands, r = some commands ∧ .applyRules commands = task := by
        simpa using hmem'
      simp at hfile
    · obtain rfl := List.mem_singleton.mp hmem'
      exact absurd rfl hlate
  by_cases hresume : ∃ n k, e = .resume n k
  · obtain ⟨n, k, rfl⟩ := hresume
    obtain hmem | hmem | ⟨commands, todo, htodo, hnew⟩ := w.resume_todo n k hmem
    · exact .inl hmem
    · exact absurd hmem hlate
    · exact .inr ⟨n, k, commands, todo, rfl, htodo, hnew.resolve_left hleave⟩
  · refine .inl ?_
    rwa [step_todo (fun d p r heq => hchange ⟨d, p, r, heq⟩) fun n k heq => hresume ⟨n, k, heq⟩]
      at hmem

theorem Landed.failed_outOfDate {result : BuildResult} {keep : Option Keep}
    (hland : Landed w b result keep w') (hfailed : result.isBuilt = false) :
    OutOfDate w'.tree (w.builds b).launch.output ∨
      ClaimedSince w w' (w.builds b).launch.output := by
  have hout := w.tree.outcome_only (w.builds b).launch.output result
  unfold State.OnlyDepends at hout
  have hstale : (w.tree.outcome (w.builds b).launch.output result).stale
      (w.builds b).launch.output = true := by
    rw [hout]
    dsimp only
    rw [if_neg (by simp [hfailed])]
    exact Function.update_self ..
  cases hland with
  | removed hd =>
    refine .inl fun hd' => ?_
    have hlanded := w.tree.landed_only (w.builds b).launch.output result
    unfold State.OnlyDepends at hlanded
    have hdeclared : (w.tree.landed (w.builds b).launch.output result).declared =
        w.tree.declared := by
      rw [hlanded]
      rfl
    have hd₂ : (w.tree.landed (w.builds b).launch.output result).declared
        (w.builds b).launch.output = true := hd'
    rw [hdeclared, hd] at hd₂
    simp at hd₂
  | rebuilt =>
    exact OutOfDate.claim (fun _ => hstale) _ _
  | idle => exact .inl fun _ => hstale

/-- A build with nothing published keeps its output out of date, or goes on unpublished, for as long
as the callback holds the layout. -/
theorem Orderly.placing_step (hs : Sound w) (he : w.enabled e)
    (hheld : w.layout = some .callback) (hb : (w.builds b).stage.unpublished = true) :
    OutOfDate (w.step contentHash cached e).tree (w.builds b).launch.output ∨
      ∃ c, ((w.step contentHash cached e).builds c).stage.unpublished = true ∧
        ((w.step contentHash cached e).builds c).launch.output = (w.builds b).launch.output := by
  have honward := @step_onward contentHash cached w e
  have hlt : b < w.buildCount := by
    by_contra hge
    rw [hs.ledger.numbered b (Nat.le_of_not_lt hge)] at hb
    simp [Stage.unpublished] at hb
  have hlaunch := honward.launch b hlt
  have hclaimed : ∀ {o}, ClaimedSince w (w.step contentHash cached e) o →
      ∃ c, ((w.step contentHash cached e).builds c).stage.unpublished = true ∧
        ((w.step contentHash cached e).builds c).launch.output = o := by
    rintro o ⟨c, hge, hc, hout⟩
    exact ⟨c, by rw [(step_new w e hge hc).1]; rfl, hout⟩
  obtain ⟨_, hsame⟩ | ⟨_, hown⟩ | ⟨hge, _⟩ := @Sound.step_builds contentHash cached w e hs he b
  · exact .inr ⟨b, by rw [hsame]; exact hb, by rw [hsame]⟩
  · have hstep := @Sound.stepped contentHash cached w b e hs he hown
    have hgo : ((w.step contentHash cached e).builds b).stage.unpublished = true →
        ∃ c, ((w.step contentHash cached e).builds c).stage.unpublished = true ∧
          ((w.step contentHash cached e).builds c).launch.output = (w.builds b).launch.output :=
      fun hun => ⟨b, hun, by rw [hlaunch]⟩
    generalize hstage : ((w.step contentHash cached e).builds b).stage = stage at hstep hgo
    cases hstep with
    | traced | ran | threw | ended => exact .inr (hgo rfl)
    | undeclared | published =>
      rw [he.1] at hheld
      simp at hheld
    | @settled result keep hfrom =>
      obtain ⟨error, inputs, hs', rfl, rfl⟩ | hs' := hfrom
      · refine (Landed.failed_outOfDate (w.landed b (.failed error inputs) none) rfl).imp
          (fun hout => ?_) fun hsince => hclaimed ?_
        · show OutOfDate (w.settle b).tree _
          unfold World.settle
          rw [hs']
          exact hout
        · show ClaimedSince w (w.settle b) _
          unfold World.settle
          rw [hs']
          exact hsince
      · simp [hs', Stage.unpublished] at hb
    | written hs' | unwritten hs' | completed hs' | released hs' | orphanCompleted hs' | begun hs'
    | stamped hs' | stored _ hs' => simp [hs', Stage.unpublished] at hb
  · exact absurd hlt (Nat.not_lt.mpr hge)

theorem afterRelease_locks (result : BuildResult) (keep : Option Keep) :
    (afterRelease result keep).writes = false ∧ (afterRelease result keep).stamps = false := by
  unfold afterRelease
  split <;> exact ⟨rfl, rfl⟩

/-- A build writes its content only under the layout's lock. -/
theorem Orderly.writing_step (h : Orderly w) (hs : Sound w) (he : w.enabled e) (b : BuildId)
    (hb : ((w.step contentHash cached e).builds b).stage.writes = true) :
    (w.step contentHash cached e).layout = some (.build b) := by
  obtain ⟨_, hsame⟩ | ⟨_, hown⟩ | ⟨_, hnew | hover⟩ :=
    @Sound.step_builds contentHash cached w e hs he b
  · rw [hsame] at hb
    have hheld := h.writing b hb
    obtain heq | hnone | ⟨hcallback, _⟩ | ⟨c, rfl, hc⟩ :=
      @step_layout contentHash cached w e h he
    · exact heq.trans hheld
    · rw [hheld] at hnone
      simp at hnone
    · rw [hheld] at hcallback
      simp at hcallback
    · -- The holder gives the lock up only for a build that does not write any longer.
      rw [hheld] at hc
      obtain rfl := Holder.build.inj (Option.some.inj hc)
      have hstep := @Sound.stepped contentHash cached w b _ hs he rfl
      rw [hsame] at hstep
      generalize hstage : (w.builds b).stage = stage at hstep hb
      cases hstep with
      | written hs' => simp [Stage.writes] at hb
      | unwritten hs' =>
        show (w.write b).layout = some (.build b)
        unfold World.write
        simp only [hs']
        exact hheld
  · have hstep := @Sound.stepped contentHash cached w b e hs he hown
    generalize hstage : ((w.step contentHash cached e).builds b).stage = stage at hstep hb
    cases hstep with
    | @published bytes inputs command builtAt hs' hc =>
      show (w.publish contentHash cached b builtAt).layout = some (.build b)
      rw [publish_declared builtAt hs' hc]
    | unwritten hs' =>
      show (w.write b).layout = some (.build b)
      unfold World.write
      simp only [hs']
      exact h.writing b (by rw [hs']; rfl)
    | completed | orphanCompleted =>
      rw [(afterRelease_locks _ _).1] at hb
      simp at hb
    | _ => simp [Stage.writes] at hb
  · rw [hnew.1] at hb
    simp [Stage.writes] at hb
  · rw [hover] at hb
    simp [Stage.writes] at hb

/-- The cache's lock changes hands only where it is free, or where its holder gives it up. -/
theorem Orderly.step_cacheHolder (h : Orderly w) (he : w.enabled e) :
    (w.step contentHash cached e).cacheHolder = w.cacheHolder ∨ w.cacheHolder = none ∨
      ∃ b ok, e = .store b ok ∧ w.cacheHolder = some b := by
  cases e with
  | bringUpToDate output => exact .inl (addBuild_aside _ _ _).2.2
  | startNext output => exact .inl (addBuild_aside _ _ _).2.2
  | launch b start => cases start <;> exact .inl rfl
  | recordRead | materializeAll | endWork | editSource | sourceChange | coordinator => exact .inl rfl
  | publish b builtAt =>
    refine .inl (show (w.publish contentHash cached b builtAt).cacheHolder = _ from ?_)
    unfold World.publish
    dsimp only
    split
    · split <;> rfl
    · rfl
  | write b =>
    refine .inl (show (w.write b).cacheHolder = _ from ?_)
    unfold World.write
    dsimp only
    split <;> rfl
  | settle b =>
    refine .inl (show (w.settle b).cacheHolder = _ from ?_)
    unfold World.settle
    split
    · exact (addBuild_aside _ _ _).2.2
    · exact (addBuild_aside _ _ _).2.2
    · rfl
  | complete b =>
    refine .inl (show (w.complete b).cacheHolder = _ from ?_)
    unfold World.complete
    split <;> rfl
  | completeOrphaned b =>
    refine .inl (show (w.completeOrphaned b).cacheHolder = _ from ?_)
    unfold World.completeOrphaned
    split <;> rfl
  | beginKeeping b => exact .inr (.inl he.1)
  | stamp b =>
    refine .inl (show (w.stamp b).cacheHolder = _ from ?_)
    unfold World.stamp
    split <;> rfl
  | store b ok =>
    obtain ⟨bytes, keep, left, stamps, hs, _⟩ := he
    exact .inr (.inr ⟨b, ok, rfl, h.stamping b (by rw [hs]; rfl)⟩)
  | resume now ok =>
    refine .inl (show (w.resume now ok).cacheHolder = _ from ?_)
    unfold World.resume
    split
    on_goal 10 => exact (addBuild_aside _ _ _).2.2
    all_goals rfl

/-- A build stamps its inputs only under the cache's lock. -/
theorem Orderly.stamping_step (h : Orderly w) (hs : Sound w) (he : w.enabled e) (b : BuildId)
    (hb : ((w.step contentHash cached e).builds b).stage.stamps = true) :
    (w.step contentHash cached e).cacheHolder = some b := by
  -- Whoever stamps already holds the lock, unless the step is the end of that.
  have hold : (w.builds b).stage.stamps = true → (∀ ok, e ≠ .store b ok) →
      (w.step contentHash cached e).cacheHolder = some b := by
    intro hstamps hne
    have hheld := h.stamping b hstamps
    obtain heq | hnone | ⟨c, ok, rfl, hc⟩ := @step_cacheHolder contentHash cached w e h he
    · exact heq.trans hheld
    · rw [hheld] at hnone
      simp at hnone
    · rw [hheld] at hc
      exact absurd rfl (Option.some.inj hc ▸ hne ok)
  by_cases hown : e.build = some b
  · have hstep := @Sound.stepped contentHash cached w b e hs he hown
    generalize hstage : ((w.step contentHash cached e).builds b).stage = stage at hstep hb
    cases hstep with
    | @begun bytes keep hs' =>
      show (w.beginKeeping b).cacheHolder = some b
      unfold World.beginKeeping
      simp only [hs']
    | stamped hs' => exact hold (by rw [hs']; rfl) (by simp)
    | completed | orphanCompleted =>
      rw [(afterRelease_locks _ _).2] at hb
      simp at hb
    | _ => simp [Stage.stamps] at hb
  · obtain ⟨_, hsame⟩ | ⟨_, hown'⟩ | ⟨_, hnew | hover⟩ :=
      @Sound.step_builds contentHash cached w e hs he b
    · rw [hsame] at hb
      exact hold hb fun ok heq => hown (by rw [heq]; rfl)
    · exact absurd hown' hown
    · rw [hnew.1] at hb
      simp [Stage.stamps] at hb
    · rw [hover] at hb
      simp [Stage.stamps] at hb

theorem Orderly.step (h : Orderly w) (hs : Sound w) (he : w.enabled e) :
    Orderly (w.step contentHash cached e) := by
  have hseq : Task.Sequence (w.step contentHash cached e).todo ∧
      ((∃ task ∈ (w.step contentHash cached e).todo, task.inLayout = true) →
        (w.step contentHash cached e).layout = some .callback) := by
    by_cases hchange : ∃ d p r, e = .sourceChange d p r
    · obtain ⟨d, p, r, rfl⟩ := hchange
      cases r with
      | none =>
        refine ⟨by simp [World.step, Task.Sequence], ?_⟩
        rintro ⟨task, hmem, hin⟩
        obtain rfl : task = .collectAffected d p := List.mem_singleton.mp hmem
        simp [Task.inLayout] at hin
      | some commands =>
        refine ⟨⟨d, p, rfl⟩, ?_⟩
        rintro ⟨task, hmem, hin⟩
        have hmem' : task ∈ [.applyRules commands, .collectAffected d p] := hmem
        simp only [List.mem_cons, List.not_mem_nil, or_false] at hmem'
        obtain rfl | rfl := hmem' <;> simp [Task.inLayout] at hin
    by_cases hresume : ∃ n k, e = .resume n k
    · obtain ⟨n, k, rfl⟩ := hresume
      exact h.resume_sequence n k
    have htodo : (w.step contentHash cached e).todo = w.todo :=
      step_todo (fun d p r heq => hchange ⟨d, p, r, heq⟩) fun n k heq => hresume ⟨n, k, heq⟩
    refine ⟨htodo ▸ h.sequence, fun hin => ?_⟩
    rw [htodo] at hin
    have hheld := h.layout hin
    obtain heq | hnone | ⟨_, n, k, heq⟩ | ⟨b, rfl, hb⟩ :=
      @step_layout contentHash cached w e h he
    · exact heq.trans hheld
    · rw [hheld] at hnone
      simp at hnone
    · exact absurd ⟨n, k, heq⟩ hresume
    · rw [hheld] at hb
      simp at hb
  refine ⟨hseq.1, hseq.2, h.writing_step hs he, h.stamping_step hs he, fun o hmem => ?_,
    fun o hmem => ?_⟩
  · obtain hold | ⟨now, ok, commands, todo, rfl, htodo, hnew⟩ := step_files ⟨o, .inl rfl⟩ hmem
    · have hd := h.removing o hold
      obtain heq | ⟨now, ok, commands, todo, rfl, htodo⟩ := @step_commands contentHash cached w e
      · unfold State.declared at hd ⊢
        rw [heq]
        exact hd
      · have hseq := h.sequence
        rw [htodo] at hold hseq
        obtain ⟨d, p, rfl⟩ := hseq
        simp at hold
    · obtain ⟨o', ho', heq⟩ | ⟨o', _, heq⟩ := hnew
      · obtain rfl := Task.removeFile.inj heq
        have hfind := (State.mem_removed.mp ho').2
        have htree : (w.step contentHash cached (.resume now ok)).tree =
            (w.tree.takeCommands commands).2 := by
          show (w.resume now ok).tree = _
          unfold World.resume
          rw [htodo]
        rw [htree]
        show (commands.find o).isSome = false
        rw [hfind]
        rfl
      · simp at heq
  · obtain hold | ⟨now, ok, commands, todo, rfl, htodo, hnew⟩ := step_files ⟨o, .inr rfl⟩ hmem
    · have hheld := h.layout ⟨_, hold, rfl⟩
      obtain hout | ⟨b, hb, rfl⟩ := h.placing o hold
      · refine (hout.step e).imp id fun ⟨c, hge, hc, hco⟩ => ⟨c, ?_, hco⟩
        rw [(step_new w e hge hc).1]
        rfl
      · exact placing_step hs he hheld hb
    · obtain ⟨o', _, heq⟩ | ⟨o', ho', heq⟩ := hnew
      · simp at heq
      · obtain rfl := Task.writePlaceholder.inj heq
        obtain ⟨hd, hfind⟩ := State.mem_added.mp ho'
        have htree : (w.step contentHash cached (.resume now ok)).tree =
            (w.tree.takeCommands commands).2 := by
          show (w.resume now ok).tree = _
          unfold World.resume
          rw [htodo]
        rw [htree]
        exact .inl fun _ => (w.tree.takeCommands_taken commands).added o hd hfind

theorem Starts.orderly (h : Starts contentHash cached w) : Orderly w := by
  obtain ⟨_, _, _, _, hw⟩ := h.begins
  have hover : ∀ b, (w.builds b).stage = .over := fun b => by rw [hw]
  have htodo : w.todo = [] := by rw [hw]
  refine ⟨by rw [htodo]; trivial, ?_, fun b hb => ?_, fun b hb => ?_, fun o hmem => ?_,
    fun o hmem => ?_⟩
  · rw [htodo]
    simp
  · rw [hover] at hb
    simp [Stage.writes] at hb
  · rw [hover] at hb
    simp [Stage.stamps] at hb
  · rw [htodo] at hmem
    simp at hmem
  · rw [htodo] at hmem
    simp at hmem

theorem orderly {ok : World → Event → Prop} (h : (machine contentHash cached).Reachable ok w) :
    Orderly w :=
  h.invariant_under (Q := Sound) (P := Orderly) (fun _ hs => sound hs)
    (fun _ hs => Starts.orderly hs) fun _ _ hs ho he _ => ho.step hs he

end World

end MakeBelieve.Tree
