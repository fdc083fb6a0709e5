import MakeBelieve.Tree.Callback

namespace MakeBelieve.Tree

open Library

/-- Whether a task has an output invalidated before it is done. -/
def Task.Invalidates (output : Path) : Task → Prop
  | .collectReaders changes => output ∈ changes.changed
  | .invalidate outputs => output ∈ outputs
  | _ => False

/-- Whether a task has an output's record forgotten before it is done. -/
def Task.Forgets (output : Path) : Task → Prop
  | .collectReaders changes => output ∈ changes.removed
  | .forget outputs => output ∈ outputs
  | _ => False

namespace World

variable {contentHash : Bytes → Hash} {cached : Bool}
variable {w w' : World} {b : BuildId} {output o : Path} {s t : State} {e : Event}

/-- Whether the callback under way has still to invalidate an output. -/
def ToInvalidate (w : World) (output : Path) : Prop :=
  w.tree.declared output = true ∧ ∃ task ∈ w.todo, task.Invalidates output

/-- Whether the callback under way has still to have an output's record forgotten. -/
def ToForget (w : World) (output : Path) : Prop := ∃ task ∈ w.todo, task.Forgets output

/-- An output is up to date under a rule that is no trace, and served with such content, none of it
under way but for one build, which may have it still to write. -/
structure Served (w : World) (output : Path) (command : Command) (own : Option BuildId)
    (content : Bytes → Prop) : Prop where
  rule : w.tree.commands.find output = some command
  untraced : command.action ≠ .tracing
  current : w.tree.stale output = false
  alone : ∀ c, (w.builds c).stage.unfinished = true → (w.builds c).launch.output = output →
    own = some c
  content : (∃ b, own = some b ∧ (w.builds b).stage.writes = true) ∨
    ∃ file, w.tree.files output = some file ∧ content file.bytes

/-- A build under way was so before the step, or has been claimed by it. -/
theorem Sound.unfinished_step (hs : Sound w) (he : w.enabled e) {c : BuildId}
    (hc : ((w.step contentHash cached e).builds c).stage.unfinished = true) :
    (c < w.buildCount ∧ (w.builds c).stage.unfinished = true ∧
      ((w.step contentHash cached e).builds c).launch = (w.builds c).launch) ∨
    w.buildCount ≤ c ∧ c < (w.step contentHash cached e).buildCount := by
  obtain ⟨hlt, hsame⟩ | ⟨hlt, hown⟩ | ⟨hge, _⟩ := @Sound.step_builds contentHash cached w e hs he c
  · rw [hsame] at hc
    exact .inl ⟨hlt, hc, by rw [hsame]⟩
  · refine .inl ⟨hlt, ?_, (step_onward w e).launch c hlt⟩
    have hstep := @Sound.stepped contentHash cached w c e hs he hown
    generalize hstage : ((w.step contentHash cached e).builds c).stage = stage at hstep hc
    cases hstep with
    | traced _ hs' | ran hs' | threw _ hs' | ended _ hs' | undeclared _ hs' | published _ hs'
    | written hs' | unwritten hs' => rw [hs']; rfl
    | completed | orphanCompleted =>
      rw [(afterRelease_stage _ _).1] at hc
      simp at hc
    | _ => simp [Stage.unfinished] at hc
  · refine .inr ⟨hge, ?_⟩
    by_contra hnot
    rw [(hs.step he).ledger.numbered c (Nat.le_of_not_lt hnot)] at hc
    simp [Stage.unfinished] at hc

/-- An output that is not stale is opened stale only for a trace. -/
theorem OpenedAs.stale_or (ht : OpenedAs s output t) (h : t.stale o = true) : s.stale o = true ∨
    ∃ command, s.commands.find o = some command ∧ command.action = .tracing := by
  obtain rfl | ⟨command, hc, rfl⟩ := ht
  · exact .inl h
  · rw [State.opened_stale] at h
    split at h
    · next htraced =>
      rw [Function.update_apply] at h
      split at h
      · next heq => exact .inr ⟨command, heq ▸ hc, htraced.1⟩
      · exact .inl h
    · exact .inl h

theorem ClaimedSince.eq {behind : Option BuildId}
    (h : ClaimedSince w (w.claim output behind) o) : o = output := by
  obtain ⟨c, hge, hlt, hout⟩ := h
  obtain rfl : c = w.buildCount := Nat.le_antisymm (Nat.le_of_lt_succ hlt) hge
  rw [claim_builds, Function.update_self] at hout
  exact hout.symm

theorem not_claimedSince (h : w'.buildCount = w.buildCount) : ¬ClaimedSince w w' o := by
  rintro ⟨c, hge, hlt, _⟩
  exact absurd (h ▸ hlt) (Nat.not_lt.mpr hge)

theorem Brought.claimed_stale (hb : Brought w output w') (hsince : ClaimedSince w w' o) :
    w.tree.stale o = true ∨
      ∃ command, w.tree.commands.find o = some command ∧ command.action = .tracing := by
  cases hb with
  | none => exact absurd hsince (not_claimedSince rfl)
  | minted => exact absurd hsince (not_claimedSince rfl)
  | @claimed t ht hf hs =>
    have hsince' : ClaimedSince ({ w with tree := t } : World)
        (({ w with tree := t } : World).claim output Option.none) o := hsince
    exact ht.stale_or (hsince'.eq ▸ hs)

theorem Landed.claimed_stale (hall : ∀ o, Timely w o) {result : BuildResult} {keep : Option Keep}
    (hland : Landed w b result keep w') (hsince : ClaimedSince w w' o) : w.tree.stale o = true := by
  cases hland with
  | removed => exact absurd hsince (not_claimedSince rfl)
  | idle => exact absurd hsince (not_claimedSince rfl)
  | rebuilt hd hr =>
    let v : World := { w.setStage b (.settled result keep none) with
      tree := w.tree.outcome (w.builds b).launch.output result
      lastResult := Function.update w.lastResult (w.builds b).launch.output (some result) }
    have hsince' : ClaimedSince v (v.claim (w.builds b).launch.output (some b)) o := hsince
    rw [hsince'.eq]
    obtain hnext | hstale := hr
    · exact (hall _).next (by rw [← Option.isSome_iff_ne_none]; exact hnext) hd
    · exact hstale.1

/-- A build is claimed of an output that is stale, or of a trace. -/
theorem step_claimed (hall : ∀ o, Timely w o)
    (hsince : ClaimedSince w (w.step contentHash cached e) o) : w.tree.stale o = true ∨
      ∃ command, w.tree.commands.find o = some command ∧ command.action = .tracing := by
  cases e with
  | bringUpToDate output => exact (w.brought output).claimed_stale hsince
  | startNext output =>
    exact (brought_startBuild { w with starting := w.starting.erase output } output).claimed_stale
      hsince
  | recordRead | materializeAll | editSource | sourceChange | coordinator =>
    exact absurd hsince (not_claimedSince rfl)
  | launch b start => cases start <;> exact absurd hsince (not_claimedSince rfl)
  | endWork b result => exact absurd hsince (not_claimedSince rfl)
  | publish b builtAt =>
    refine absurd hsince (not_claimedSince
      (show (w.publish contentHash cached b builtAt).buildCount = _ from ?_))
    unfold World.publish
    dsimp only
    split
    · split <;> rfl
    · rfl
  | write b =>
    refine absurd hsince (not_claimedSince (show (w.write b).buildCount = _ from ?_))
    unfold World.write
    dsimp only
    split <;> rfl
  | settle b =>
    have hsince' : ClaimedSince w (w.settle b) o := hsince
    unfold World.settle at hsince'
    split at hsince'
    · exact .inl ((w.landed b _ _).claimed_stale hall hsince')
    · exact .inl ((w.landed b _ _).claimed_stale hall hsince')
    · exact absurd hsince' (not_claimedSince rfl)
  | complete b =>
    refine absurd hsince (not_claimedSince (show (w.complete b).buildCount = _ from ?_))
    unfold World.complete
    split <;> rfl
  | completeOrphaned b =>
    refine absurd hsince (not_claimedSince (show (w.completeOrphaned b).buildCount = _ from ?_))
    unfold World.completeOrphaned
    split <;> rfl
  | beginKeeping b =>
    refine absurd hsince (not_claimedSince (show (w.beginKeeping b).buildCount = _ from ?_))
    unfold World.beginKeeping
    split <;> rfl
  | stamp b =>
    refine absurd hsince (not_claimedSince (show (w.stamp b).buildCount = _ from ?_))
    unfold World.stamp
    split <;> rfl
  | store b ok =>
    refine absurd hsince (not_claimedSince (show (w.store contentHash b ok).buildCount = _ from ?_))
    unfold World.store
    split <;> rfl
  | resume now ok =>
    have hsince' : ClaimedSince w (w.resume now ok) o := hsince
    unfold World.resume at hsince'
    split at hsince'
    on_goal 10 =>
      next output todo _ =>
        exact (brought_startBuild { w with todo } output).claimed_stale hsince'
    all_goals exact absurd hsince' (not_claimedSince rfl)

theorem OpenedAs.files (ht : OpenedAs s output t) : t.files = s.files := by
  obtain rfl | ⟨command, _, rfl⟩ := ht <;> rfl

theorem Brought.files (hb : Brought w output w') : w'.tree.files = w.tree.files := by
  cases hb with
  | none ht => exact ht.files
  | minted ht => exact ht.files
  | claimed ht =>
    rw [claim_tree, State.claimBuild_only]
    exact ht.files

/-- An output up to date, and no trace, is left so when an output is brought up to date. -/
theorem Brought.stale_untraced (hb : Brought w output w') {command : Command}
    (hc : w.tree.commands.find o = some command) (hu : command.action ≠ .tracing)
    (hs : w.tree.stale o = false) : w'.tree.stale o = false := by
  have hopened : ∀ {t : State}, OpenedAs w.tree output t → t.stale o = false := by
    intro t ht
    by_contra hstale
    obtain hstale | ⟨other, hother, htraced⟩ := ht.stale_or (by simpa using hstale)
    · rw [hs] at hstale
      simp at hstale
    · exact hu (Option.some.inj (hc.symm.trans hother) ▸ htraced)
  cases hb with
  | none ht => exact hopened ht
  | @minted t ht =>
    show t.stale o = false
    exact hopened ht
  | @claimed t ht =>
    show Function.update t.stale output false o = false
    rw [Function.update_apply]
    split
    · rfl
    · exact hopened ht

theorem Landed.files {result : BuildResult} {keep : Option Keep}
    (hland : Landed w b result keep w') : w'.tree.files = w.tree.files := by
  have hout := w.tree.outcome_only (w.builds b).launch.output result
  have hlanded := w.tree.landed_only (w.builds b).launch.output result
  unfold State.OnlyDepends at hout hlanded
  cases hland with
  | removed =>
    show (w.tree.landed (w.builds b).launch.output result).files = _
    rw [hlanded]
  | rebuilt =>
    rw [claim_tree, State.claimBuild_only]
    show (w.tree.outcome (w.builds b).launch.output result).files = _
    rw [hout]
  | idle =>
    show (w.tree.outcome (w.builds b).launch.output result).files = _
    rw [hout]

theorem Landed.stale_of_ne {result : BuildResult} {keep : Option Keep}
    (hland : Landed w b result keep w') (ho : o ≠ (w.builds b).launch.output) :
    w'.tree.stale o = w.tree.stale o := by
  have hstale := (outcome_sameAt w.tree result ho).stale
  cases hland with
  | removed =>
    have hlanded := w.tree.landed_only (w.builds b).launch.output result
    unfold State.OnlyDepends at hlanded
    show (w.tree.landed (w.builds b).launch.output result).stale o = _
    rw [hlanded]
  | rebuilt =>
    rw [claim_tree]
    exact (Function.update_of_ne ho ..).trans hstale
  | idle => exact hstale

/-- An output's own build lands with the output still up to date: it was not owed another. -/
theorem Landed.stale_of_built (hall : ∀ o, Timely w o) {result : BuildResult} {keep : Option Keep}
    (hland : Landed w b result keep w') (hbuilt : result.isBuilt = true)
    (hd : w.tree.declared (w.builds b).launch.output = true)
    (hs : w.tree.stale (w.builds b).launch.output = false) :
    w'.tree.stale (w.builds b).launch.output = false := by
  cases hland with
  | removed hnot =>
    rw [hd] at hnot
    simp at hnot
  | rebuilt _ hr =>
    obtain hnext | hstale := hr
    · have hstale := (hall _).next (by rw [← Option.isSome_iff_ne_none]; exact hnext) hd
      rw [hs] at hstale
      simp at hstale
    · rw [hs] at hstale
      simp at hstale
  | idle =>
    have hout := w.tree.outcome_only (w.builds b).launch.output result
    unfold State.OnlyDepends at hout
    show (w.tree.outcome (w.builds b).launch.output result).stale _ = false
    rw [hout]
    dsimp only
    rw [if_pos hbuilt]
    exact hs

theorem Served.alone_step {command : Command} {own : Option BuildId} {content : Bytes → Prop}
    (h : Served w o command own content) (hs : Sound w) (hall : ∀ o, Timely w o)
    (he : w.enabled e) (c : BuildId)
    (hc : ((w.step contentHash cached e).builds c).stage.unfinished = true)
    (hout : ((w.step contentHash cached e).builds c).launch.output = o) : own = some c := by
  obtain ⟨hlt, hun, hlaunch⟩ | ⟨hge, hlt⟩ := hs.unfinished_step he hc
  · exact h.alone c hun (hlaunch ▸ hout)
  · obtain hstale | ⟨other, hother, htraced⟩ := step_claimed hall ⟨c, hge, hlt, hout⟩
    · rw [h.current] at hstale
      simp at hstale
    · exact absurd htraced (Option.some.inj (h.rule.symm.trans hother) ▸ h.untraced)

/-- A build writing its content goes on to until it has. -/
theorem writes_step (hs : Sound w) (he : w.enabled e)
    (hb : (w.builds b).stage.writes = true) (hne : e ≠ .write b) :
    ((w.step contentHash cached e).builds b).stage.writes = true := by
  obtain ⟨_, hsame⟩ | ⟨_, hown⟩ | ⟨hge, _⟩ := @Sound.step_builds contentHash cached w e hs he b
  · rw [hsame]
    exact hb
  · have hstep := @Sound.stepped contentHash cached w b e hs he hown
    generalize ((w.step contentHash cached e).builds b).stage = stage at hstep ⊢
    cases hstep with
    | written | unwritten => exact absurd rfl hne
    | traced _ hs' | ran hs' | threw _ hs' | ended _ hs' | undeclared _ hs' | published _ hs'
    | completed hs' | released hs' | orphanCompleted hs' | begun hs' | stamped hs'
    | stored _ hs' => simp [hs', Stage.writes] at hb
    | settled hs' =>
      obtain ⟨_, _, hs', _⟩ | hs' := hs' <;> simp [hs', Stage.writes] at hb
  · rw [hs.ledger.numbered b hge] at hb
    simp [Stage.writes] at hb

/-- What the callback has yet to do after its next task, it has yet to do after that. -/
theorem resume_tail {now : Int64} {ok : Bool} {head task : Task} {todo : List Task}
    (htodo : w.todo = head :: todo) (hmem : task ∈ todo) : task ∈ (w.resume now ok).todo := by
  unfold World.resume
  simp only [htodo]
  cases head with
  | applyRules commands =>
    exact List.mem_append_right _ (List.mem_cons_of_mem _ (List.mem_cons_of_mem _ hmem))
  | removeFile | writePlaceholder | leaveLayout | forget => exact hmem
  | collectReaders changes => exact List.mem_cons_of_mem _ (List.mem_cons_of_mem _ hmem)
  | collectAffected => exact List.mem_cons_of_mem _ hmem
  | invalidate outputs => exact List.mem_cons_of_mem _ (List.mem_append_right _ hmem)
  | startBuild output =>
    dsimp only
    rw [startBuild, (addBuild_aside _ _ _).1]
    exact hmem

/-- A task that is neither done nor dropped by a step is still to be done after it. -/
theorem Orderly.task_kept (he : w.enabled e) {task : Task} (hmem : task ∈ w.todo)
    (hnot : ∀ now ok todo, e = .resume now ok → w.todo ≠ task :: todo) :
    task ∈ (w.step contentHash cached e).todo := by
  by_cases hchange : ∃ d p r, e = .sourceChange d p r
  · obtain ⟨d, p, r, rfl⟩ := hchange
    rw [show w.todo = [] from he] at hmem
    simp at hmem
  by_cases hresume : ∃ n k, e = .resume n k
  · obtain ⟨now, ok, rfl⟩ := hresume
    obtain ⟨head, todo, htodo, _⟩ := he
    rw [htodo] at hmem
    obtain rfl | hmem := List.mem_cons.mp hmem
    · exact absurd htodo (hnot now ok todo rfl)
    · exact resume_tail htodo hmem
  · rw [step_todo (fun d p r heq => hchange ⟨d, p, r, heq⟩) fun n k heq => hresume ⟨n, k, heq⟩]
    exact hmem

/-- New rules are taken before anything else is left to do but to see what has changed. -/
theorem Orderly.applying (h : Orderly w) {commands : Commands} {todo : List Task}
    (htodo : w.todo = .applyRules commands :: todo) {task : Task} (hmem : task ∈ w.todo) :
    (∃ new, task = .applyRules new) ∨ ∃ d p, task = .collectAffected d p := by
  have hseq := h.sequence
  rw [htodo] at hseq hmem
  obtain ⟨d, p, rfl⟩ := hseq
  simp only [List.mem_cons, List.not_mem_nil, or_false] at hmem
  exact hmem.imp (fun heq => ⟨_, heq⟩) fun heq => ⟨_, _, heq⟩

/-- An output still to be invalidated is so after a step, unless that step reaches it. -/
theorem ToInvalidate.reached (h : ToInvalidate w o) (ho : Orderly w) (he : w.enabled e) :
    ToInvalidate (w.step contentHash cached e) o ∨
      ∃ now ok outputs todo, e = .resume now ok ∧ w.todo = .invalidate outputs :: todo ∧
        o ∈ (w.tree.invalidate outputs).seen := by
  obtain ⟨hd, task, hmem, htask⟩ := h
  have hdeclared : (w.step contentHash cached e).tree.declared o = true := by
    obtain heq | ⟨now, ok, commands, todo, rfl, htodo⟩ := @step_commands contentHash cached w e
    · unfold State.declared at hd ⊢
      rw [heq]
      exact hd
    · obtain ⟨_, rfl⟩ | ⟨_, _, rfl⟩ := ho.applying htodo hmem <;> simp [Task.Invalidates] at htask
  by_cases hdone : ∃ now ok todo, e = .resume now ok ∧ w.todo = task :: todo
  · obtain ⟨now, ok, todo, rfl, htodo⟩ := hdone
    cases task with
    | collectReaders changes =>
      refine .inl ⟨hdeclared, .invalidate (changes.changed ++
        w.tree.readersOf (changes.removed ++ changes.added)), ?_, List.mem_append_left _ htask⟩
      show _ ∈ (w.resume now ok).todo
      unfold World.resume
      simp [htodo]
    | invalidate outputs =>
      exact .inr ⟨now, ok, outputs, todo, rfl, htodo,
        (w.tree.invalidate_closed outputs).1 o htask hd⟩
    | _ => simp [Task.Invalidates] at htask
  · refine .inl ⟨hdeclared, task, Orderly.task_kept he hmem ?_, htask⟩
    exact fun now ok todo heq htodo => hdone ⟨now, ok, todo, heq, htodo⟩

/-- An output still to be invalidated is so after a step, unless that step has. -/
theorem ToInvalidate.step (h : ToInvalidate w o) (ho : Orderly w) (he : w.enabled e) :
    ToInvalidate (w.step contentHash cached e) o ∨
      (w.tree.invalidations o < (w.step contentHash cached e).tree.invalidations o ∧
        ToForget (w.step contentHash cached e) o) := by
  obtain h | ⟨now, ok, outputs, todo, rfl, htodo, hseen⟩ := h.reached ho he
  · exact .inl h
  · have hstep : (w.step contentHash cached (.resume now ok)) = w.resume now ok := rfl
    rw [hstep]
    unfold World.resume
    simp only [htodo]
    refine .inr ⟨?_, .forget (w.tree.invalidate outputs).seen, List.mem_cons_self .., hseen⟩
    rw [((w.tree.invalidate_marked outputs).seen o hseen).2.2]
    exact Nat.lt_succ_self _

/-- An output whose record is still to be forgotten is so after a step, unless that step has. -/
theorem ToForget.step (h : ToForget w o) (he : w.enabled e) :
    ToForget (w.step contentHash cached e) o ∨
      ∃ now ok outputs todo, e = .resume now ok ∧ w.todo = .forget outputs :: todo ∧
        o ∈ outputs := by
  obtain ⟨task, hmem, htask⟩ := h
  by_cases hdone : ∃ now ok todo, e = .resume now ok ∧ w.todo = task :: todo
  · obtain ⟨now, ok, todo, rfl, htodo⟩ := hdone
    cases task with
    | collectReaders changes =>
      refine .inl ⟨.forget changes.removed, ?_, htask⟩
      show _ ∈ (w.resume now ok).todo
      unfold World.resume
      simp [htodo]
    | forget outputs => exact .inr ⟨now, ok, outputs, todo, rfl, htodo, htask⟩
    | _ => simp [Task.Forgets] at htask
  · refine .inl ⟨task, Orderly.task_kept he hmem ?_, htask⟩
    exact fun now ok todo heq htodo => hdone ⟨now, ok, todo, heq, htodo⟩

/-- What a step of the callback, whose new rules these are, leaves of an output served. -/
theorem Served.applied {command : Command} {own : Option BuildId} {content : Bytes → Prop}
    (h : Served w o command own content) {now : Int64} {ok : Bool} {commands : Commands}
    {todo : List Task} (htodo : w.todo = .applyRules commands :: todo)
    (hkept : ∀ {w' : World}, w' = w.resume now ok → w'.tree.commands.find o = some command →
      w'.tree.stale o = false → w'.tree.files o = w.tree.files o → Served w' o command own content) :
    Served (w.resume now ok) o command own content ∨ ToInvalidate (w.resume now ok) o ∨
      (w.tree.invalidations o < (w.resume now ok).tree.invalidations o ∧
        ToForget (w.resume now ok) o) := by
  have ht := w.tree.takeCommands_taken commands
  have htree : (w.resume now ok).tree = (w.tree.takeCommands commands).2 := by
    unfold World.resume
    simp only [htodo]
  have hreaders : Task.collectReaders (w.tree.changesTo commands) ∈ (w.resume now ok).todo := by
    unfold World.resume
    simp only [htodo]
    exact List.mem_append_right _ (List.mem_cons_of_mem _ (List.mem_cons_self ..))
  have hd : w.tree.declared o = true := by
    unfold State.declared
    rw [h.rule]
    rfl
  have hfind : (w.resume now ok).tree.commands = commands := by rw [htree, ht.only]
  cases hnew : commands.find o with
  | none =>
    refine .inr (.inr ⟨?_, _, hreaders, State.mem_removed.mpr ⟨hd, hnew⟩⟩)
    rw [htree, (ht.removed o hd hnew).invalidations]
    exact Nat.lt_succ_self _
  | some other =>
    by_cases heq : other = command
    · subst heq
      refine .inl (hkept rfl (by rw [hfind]; exact hnew) ?_ ?_)
      · rw [htree, (ht.untouched o (fun hnot => by simp [hd] at hnot)
          fun hgone => by simp [hnew] at hgone).1]
        exact h.current
      · rw [htree, ht.only]
    · refine .inr (.inl ⟨?_, _, hreaders, ?_⟩)
      · unfold State.declared
        rw [hfind, hnew]
        rfl
      · have hout := Commands.find_output hnew
        refine List.mem_map.mpr ⟨other, List.mem_filter.mpr ⟨Commands.find_mem hnew, ?_⟩, hout⟩
        rw [hout, h.rule]
        simpa using Ne.symm heq

/-- An output is served as it was until it is to be invalidated, unless its own build goes on. -/
theorem Served.step {command : Command} {own : Option BuildId} {content : Bytes → Prop}
    (h : Served w o command own content) (hs : Sound w) (ho : Orderly w)
    (hall : ∀ o, Timely w o) (he : w.enabled e)
    (hown : ∀ b, own = some b →
      (w.builds b).stage.unpublished = false ∧ (e.build = some b → e.aside = true)) :
    Served (w.step contentHash cached e) o command own content ∨
      ToInvalidate (w.step contentHash cached e) o ∨
      (w.tree.invalidations o < (w.step contentHash cached e).tree.invalidations o ∧
        ToForget (w.step contentHash cached e) o) := by
  have hkept : ∀ {w' : World}, w' = w.step contentHash cached e →
      w'.tree.commands.find o = some command → w'.tree.stale o = false →
      w'.tree.files o = w.tree.files o → Served w' o command own content := by
    rintro w' rfl hrule hcurrent hfiles
    refine ⟨hrule, h.untraced, hcurrent, h.alone_step hs hall he, ?_⟩
    obtain ⟨b, hb, hwrites⟩ | ⟨file, hfile, hcontent⟩ := h.content
    · refine .inl ⟨b, hb, writes_step hs he hwrites fun heq => ?_⟩
      have := (hown b hb).2 (by rw [heq]; rfl)
      simp [heq, Event.aside] at this
    · exact .inr ⟨file, hfiles.trans hfile, hcontent⟩
  have hd : w.tree.declared o = true := by
    unfold State.declared
    rw [h.rule]
    rfl
  -- Another output's build may land or write its content, and no other build of this one.
  have hother : ∀ b, e.build = some b → e.aside = false →
      (w.builds b).stage.unfinished = true → o ≠ (w.builds b).launch.output := by
    intro b hb haside hun heq
    have := (hown b (h.alone b hun heq.symm)).2 hb
    simp [haside] at this
  have hbrought : ∀ {v : World} {output : Path}, v.tree = w.tree →
      Brought v output (w.step contentHash cached e) →
      Served (w.step contentHash cached e) o command own content := by
    intro v output hv hb
    refine hkept rfl ?_ ?_ ?_
    · rw [hb.commands, hv]
      exact h.rule
    · exact hb.stale_untraced (by rw [hv]; exact h.rule) h.untraced (by rw [hv]; exact h.current)
    · rw [hb.files, hv]
  have hlanded : ∀ {b : BuildId} {result : BuildResult} {keep : Option Keep}, e = .settle b →
      (w.builds b).stage.unfinished = true →
      Landed w b result keep (w.step contentHash cached e) →
      Served (w.step contentHash cached e) o command own content := by
    intro b result keep heq hun hland
    have hne := hother b (by rw [heq]; rfl) (by rw [heq]; rfl) hun
    exact hkept rfl (by rw [hland.commands]; exact h.rule)
      ((hland.stale_of_ne hne).trans h.current) (congrFun hland.files o)
  cases e with
  | bringUpToDate output => exact .inl (hbrought rfl (w.brought output))
  | startNext output =>
    exact .inl (hbrought (v := { w with starting := w.starting.erase output }) rfl
      (brought_startBuild _ output))
  | recordRead reader output =>
    refine .inl (hkept rfl ?_ ?_ ?_)
    all_goals
      show _ = _
      unfold World.step State.recordRead
      dsimp only
    all_goals split
    · exact h.rule
    · exact h.rule
    · exact h.current
    · exact h.current
    · rfl
    · rfl
  | materializeAll | sourceChange => exact .inl (hkept rfl h.rule h.current rfl)
  | publish b builtAt =>
    refine .inl ?_
    show Served (w.publish contentHash cached b builtAt) o command own content
    refine hkept rfl ?_ ?_ ?_
    all_goals
      unfold World.publish State.publish
      dsimp only
      split
    · split
      · exact h.rule
      · cases cached <;> exact h.rule
    · exact h.rule
    · split
      · exact h.current
      · cases cached <;> exact h.current
    · exact h.current
    · split
      · rfl
      · cases cached <;> rfl
    · rfl
  | write b =>
    refine .inl ?_
    obtain ⟨result, builtAt, keep, hstage⟩ := he
    have hne := hother b rfl rfl (by rw [hstage]; rfl)
    show Served (w.write b) o command own content
    refine hkept rfl ?_ ?_ ?_
    all_goals
      unfold World.write
      dsimp only
      split
    · exact h.rule
    · exact h.rule
    · exact h.current
    · exact h.current
    · exact Function.update_of_ne hne ..
    · rfl
  | settle b =>
    refine .inl ?_
    obtain ⟨error, inputs, hstage⟩ | ⟨result, keep, hstage⟩ := he
    · refine @hlanded b (.failed error inputs) none rfl (by rw [hstage]; rfl) ?_
      show Landed w b _ _ (w.settle b)
      unfold World.settle
      rw [hstage]
      exact w.landed b _ _
    · refine @hlanded b result keep rfl (by rw [hstage]; rfl) ?_
      show Landed w b _ _ (w.settle b)
      unfold World.settle
      rw [hstage]
      exact w.landed b _ _
  | resume now ok =>
    obtain ⟨task, todo, htodo, _⟩ := he
    have hstep : w.step contentHash cached (.resume now ok) = w.resume now ok := rfl
    rw [hstep] at hkept hbrought ⊢
    cases task with
    | applyRules commands => exact h.applied htodo hkept
    | removeFile output =>
      have hne : o ≠ output := by
        rintro rfl
        have := ho.removing o (by rw [htodo]; exact List.mem_cons_self ..)
        rw [hd] at this
        simp at this
      refine .inl (hkept rfl ?_ ?_ ?_)
      all_goals
        unfold World.resume
        simp only [htodo]
      · exact h.rule
      · exact h.current
      · exact Function.update_of_ne hne ..
    | writePlaceholder output =>
      have hne : o ≠ output := by
        rintro rfl
        obtain hout | ⟨b, hb, rfl⟩ := ho.placing o (by rw [htodo]; exact List.mem_cons_self ..)
        · have := hout hd
          rw [h.current] at this
          simp at this
        · have hun : (w.builds b).stage.unfinished = true := by
            generalize (w.builds b).stage = stage at hb
            cases stage <;> simp [Stage.unpublished, Stage.unfinished] at hb ⊢
          have := (hown b (h.alone b hun rfl)).1
          rw [hb] at this
          simp at this
      refine .inl (hkept rfl ?_ ?_ ?_)
      all_goals
        unfold World.resume
        simp only [htodo]
      · exact h.rule
      · exact h.current
      · exact Function.update_of_ne hne ..
    | leaveLayout | collectReaders | forget | collectAffected =>
      refine .inl (hkept rfl ?_ ?_ ?_)
      all_goals
        unfold World.resume
        simp only [htodo]
      · exact h.rule
      · exact h.current
    | invalidate outputs =>
      have hm := w.tree.invalidate_marked outputs
      by_cases hseen : o ∈ (w.tree.invalidate outputs).seen
      · refine .inr (.inr ⟨?_, .forget (w.tree.invalidate outputs).seen, ?_, hseen⟩)
        all_goals
          unfold World.resume
          simp only [htodo]
        · rw [(hm.seen o hseen).2.2]
          exact Nat.lt_succ_self _
        · exact List.mem_cons_self ..
      · refine .inl (hkept rfl ?_ ?_ ?_)
        all_goals
          unfold World.resume
          simp only [htodo]
        · rw [hm.only]
          exact h.rule
        · rw [(hm.others o hseen).1]
          exact h.current
        · rw [hm.only]
    | startBuild output =>
      refine .inl (@hbrought { w with todo } output rfl ?_)
      unfold World.resume
      simp only [htodo]
      exact brought_startBuild _ output
  | launch | endWork | complete | completeOrphaned | beginKeeping | stamp | store | editSource
  | coordinator =>
    refine .inl (hkept rfl ?_ ?_ ?_)
    all_goals rw [(step_aside rfl).tree]
    · exact h.rule
    · exact h.current

end World

end MakeBelieve.Tree
