import MakeBelieve.Tree.Served
import MakeBelieve.Tree.Struck

namespace MakeBelieve.Tree

open Library

/-! ### What outputs are recorded to have read -/

/-- The two states record the same of what outputs read. -/
structure SameDepends (s t : State) : Prop where
  dependencies : t.dependencies = s.dependencies
  dependents : t.dependents = s.dependents

theorem SameDepends.refl (s : State) : SameDepends s s := ⟨rfl, rfl⟩

theorem SameDepends.trans {s t u : State} (h : SameDepends s t) (h' : SameDepends t u) :
    SameDepends s u :=
  ⟨h'.dependencies.trans h.dependencies, h'.dependents.trans h.dependents⟩

theorem State.recordFailure_depends (s : State) (output : Path) (result : BuildResult) :
    SameDepends s (s.recordFailure output result) ∨
      result.isBuilt = false ∧
        ∃ inputs, SameDepends (s.updateDependents output inputs) (s.recordFailure output result) := by
  unfold State.recordFailure
  cases result with
  | built bytes inputs => exact .inl (.refl s)
  | failed error inputs =>
    dsimp only
    split
    · split
      · exact .inl (.refl s)
      · exact .inr ⟨rfl, _, .refl _⟩
    · exact .inl (.refl s)

theorem State.claimBuild_depends (s : State) (output : Path) : SameDepends s (s.claimBuild output) := by
  rw [State.claimBuild_only]
  exact ⟨rfl, rfl⟩

theorem State.outcome_depends (s : State) (output : Path) (result : BuildResult) :
    SameDepends (s.recordFailure output result) (s.outcome output result) := by
  unfold State.outcome
  split <;> exact ⟨rfl, rfl⟩

namespace World

variable {contentHash : Bytes → Hash} {cached : Bool}
variable {w w' : World} {b : BuildId} {output o p : Path} {s t : State} {e : Event}

theorem OpenedAs.depends (ht : OpenedAs s output t) : SameDepends s t := by
  obtain rfl | ⟨command, _, rfl⟩ := ht <;> exact ⟨rfl, rfl⟩

theorem Brought.depends (hb : Brought w output w') : SameDepends w.tree w'.tree := by
  cases hb with
  | none ht => exact ht.depends
  | minted ht => exact ht.depends.trans ⟨rfl, rfl⟩
  | claimed ht =>
    rw [claim_tree]
    exact ht.depends.trans (State.claimBuild_depends _ _)

theorem Landed.depends {result : BuildResult} {keep : Option Keep}
    (hland : Landed w b result keep w') :
    SameDepends (w.tree.recordFailure (w.builds b).launch.output result) w'.tree := by
  cases hland with
  | removed => exact ⟨rfl, rfl⟩
  | rebuilt =>
    rw [claim_tree]
    exact (State.outcome_depends _ _ _).trans (State.claimBuild_depends _ _)
  | idle => exact State.outcome_depends _ _ _

/-- What a step records of what outputs read: nothing new, what a build of one has read, or that
those without a rule no longer count. -/
inductive Redepends (w : World) (t : State) : Event → Prop
  | same {e : Event} (h : SameDepends w.tree t) : Redepends w t e
  | published {b : BuildId} {builtAt : Int64} {bytes : Bytes} {inputs : List Path}
      (hstage : (w.builds b).stage = .finishing (.built bytes inputs))
      (h : SameDepends (w.tree.updateDependents (w.builds b).launch.output
        (w.tree.addReads (w.builds b).launch.output inputs)) t) :
      Redepends w t (.publish b builtAt)
  | failed {b : BuildId} {inputs : List Path} (hun : (w.builds b).stage.unfinished = true)
      (h : SameDepends (w.tree.updateDependents (w.builds b).launch.output inputs) t) :
      Redepends w t (.settle b)
  | taken {now : Int64} {ok : Bool} {commands : Commands}
      (h : t = (w.tree.takeCommands commands).2) : Redepends w t (.resume now ok)

/-- A build that settles has failed, or has published what it built. -/
theorem settle_landed (he : w.enabled (.settle b)) :
    ∃ result keep, (w.builds b).stage.unfinished = true ∧
      (result.isBuilt = false ∨ (w.builds b).stage = .published result keep) ∧
      Landed w b result keep (w.settle b) := by
  unfold World.settle
  obtain ⟨error, inputs, hstage⟩ | ⟨result, keep, hstage⟩ := he
  · rw [hstage]
    exact ⟨.failed error inputs, none, rfl, .inl rfl, w.landed b _ _⟩
  · rw [hstage]
    exact ⟨result, keep, rfl, .inr rfl, w.landed b _ _⟩

theorem step_redepends (he : w.enabled e) :
    Redepends w (w.step contentHash cached e).tree e := by
  cases e with
  | bringUpToDate output => exact .same (w.brought output).depends
  | startNext output =>
    exact .same (brought_startBuild { w with starting := w.starting.erase output } output).depends
  | recordRead reader output =>
    refine .same ?_
    show SameDepends w.tree (w.tree.recordRead reader output)
    unfold State.recordRead
    split <;> exact ⟨rfl, rfl⟩
  | materializeAll | sourceChange => exact .same ⟨rfl, rfl⟩
  | publish b builtAt =>
    obtain ⟨_, bytes, inputs, hstage⟩ := he
    show Redepends w (w.publish contentHash cached b builtAt).tree _
    cases hc : w.tree.commands.find (w.builds b).launch.output with
    | none =>
      rw [publish_undeclared builtAt hstage hc]
      exact .same ⟨rfl, rfl⟩
    | some command =>
      rw [publish_declared builtAt hstage hc]
      refine .published hstage ?_
      unfold State.publish
      cases cached <;> exact ⟨rfl, rfl⟩
  | write b =>
    refine .same ?_
    show SameDepends w.tree (w.write b).tree
    unfold World.write
    dsimp only
    split <;> exact ⟨rfl, rfl⟩
  | settle b =>
    show Redepends w (w.settle b).tree _
    obtain ⟨result, keep, hun, _, hland⟩ := settle_landed he
    obtain hsame | ⟨_, inputs, hrecorded⟩ :=
      w.tree.recordFailure_depends (w.builds b).launch.output result
    · exact .same (hsame.trans hland.depends)
    · exact .failed hun (hrecorded.trans hland.depends)
  | resume now ok =>
    show Redepends w (w.resume now ok).tree _
    unfold World.resume
    split
    · exact .same (.refl _)
    · exact .taken rfl
    · exact .same ⟨rfl, rfl⟩
    · exact .same ⟨rfl, rfl⟩
    · exact .same (.refl _)
    · exact .same (.refl _)
    · exact .same (.refl _)
    · exact .same (.refl _)
    · next outputs todo _ =>
      refine .same ?_
      show SameDepends w.tree (w.tree.invalidate outputs).state
      rw [(w.tree.invalidate_marked outputs).only]
      exact ⟨rfl, rfl⟩
    · next output todo _ =>
      exact .same (brought_startBuild { w with todo } output).depends
  | launch | endWork | complete | completeOrphaned | beginKeeping | stamp | store | editSource
  | coordinator => exact .same (by rw [(step_aside rfl).tree]; exact .refl _)

/-- What outputs read and what each input is read by are kept in step. -/
theorem inverse_step (h : w.tree.Inverse) (he : w.enabled e) :
    (w.step contentHash cached e).tree.Inverse := by
  have hsame : ∀ {s t : State}, s.Inverse → SameDepends s t → t.Inverse := by
    intro s t hs ht
    unfold State.Inverse
    rw [ht.dependencies, ht.dependents]
    exact hs
  have hstep := @step_redepends contentHash cached w e he
  generalize (w.step contentHash cached e).tree = t at hstep ⊢
  cases hstep with
  | same ht => exact hsame h ht
  | published _ ht => exact hsame h.updateDependents ht
  | failed _ ht => exact hsame h.updateDependents ht
  | @taken _ _ commands ht =>
    subst ht
    have htaken := w.tree.takeCommands_taken commands
    intro input reader
    rw [htaken.dependents, h input reader]
    by_cases hgone : w.tree.declared reader = true ∧ commands.find reader = none
    · have hnone : State.membersOf (w.tree.takeCommands commands).2.dependencies reader = [] := by
        rw [State.membersOf, (htaken.removed reader hgone.1 hgone.2).dependencies]
        rfl
      rw [hnone]
      exact ⟨fun hmem => absurd ⟨hmem.1, hgone⟩ hmem.2, fun hmem => by simp at hmem⟩
    · have hkept : State.membersOf (w.tree.takeCommands commands).2.dependencies reader =
          State.membersOf w.tree.dependencies reader := by
        unfold State.membersOf
        rw [(htaken.kept reader hgone).2.2.2]
      rw [hkept]
      exact ⟨fun hmem => hmem.1, fun hmem => ⟨hmem, fun hnot => hgone hnot.2⟩⟩

theorem Starts.inverse (h : Starts contentHash cached w) : w.tree.Inverse := by
  obtain ⟨commands, mtime, source, cache, tree, htree, rfl⟩ := h
  cases cached with
  | false =>
    obtain ⟨_, rfl⟩ := htree
    exact constructed_inverse commands mtime
  | true =>
    obtain ⟨before, n, hn, hrun⟩ := htree
    obtain ⟨kept, t, hrun', hexactly⟩ := @restoreFromCache_exactly source contentHash before n hn _
      (constructed_inverse commands mtime)
    obtain ⟨rfl, rfl⟩ := Prod.mk.inj (Option.some.inj (hrun.symm.trans hrun'))
    exact hexactly.inverse

/-- The build of an output under way, if it is in flight. -/
theorem Sound.flight_step (hs : Sound w) (he : w.enabled e) (hf : w.tree.inFlight o = true) :
    (w.step contentHash cached e).tree.inFlight o = true ∨
      ∃ b, e = .settle b ∧ (w.builds b).launch.output = o := by
  obtain ⟨b, hun, hout⟩ := (hs.ledger.flight o).mp hf
  have hsound : Sound (w.step contentHash cached e) := hs.step he
  have hflight := hsound.ledger.flight o
  obtain ⟨hlt, hsame⟩ | ⟨hlt, hown⟩ | ⟨hge, _⟩ := @Sound.step_builds contentHash cached w e hs he b
  · exact .inl (hflight.mpr ⟨b, by rw [hsame]; exact hun, by rw [hsame]; exact hout⟩)
  · have hlaunch := (@step_onward contentHash cached w e).launch b hlt
    have hstep := @Sound.stepped contentHash cached w b e hs he hown
    have hgoes : ((w.step contentHash cached e).builds b).stage.unfinished = true →
        (w.step contentHash cached e).tree.inFlight o = true := fun hun' =>
      hflight.mpr ⟨b, hun', by rw [hlaunch]; exact hout⟩
    generalize ((w.step contentHash cached e).builds b).stage = stage at hstep hgoes
    cases hstep with
    | traced | ran | threw | ended | undeclared | published | written | unwritten =>
      exact .inl (hgoes rfl)
    | settled => exact .inr ⟨b, rfl, hout⟩
    | completed hs' | released hs' | orphanCompleted hs' | begun hs' | stamped hs' | stored _ hs' =>
      rw [hs'] at hun
      simp [Stage.unfinished] at hun
  · rw [hs.ledger.numbered b hge] at hun
    simp [Stage.unfinished] at hun

/-- A build newly claimed is under way, and no other build of its output is. -/
theorem Sound.claimed_flight (hs : Sound w) (he : w.enabled e)
    (hsince : ClaimedSince w (w.step contentHash cached e) o) :
    (w.step contentHash cached e).tree.inFlight o = true ∧ ∀ b < w.buildCount,
      ((w.step contentHash cached e).builds b).stage.unfinished = true →
      ((w.step contentHash cached e).builds b).launch.output ≠ o := by
  have hsound : Sound (w.step contentHash cached e) := hs.step he
  obtain ⟨c, hge, hlt, hout⟩ := hsince
  have hclaimed := (step_new w e hge hlt).1
  have hun : ((w.step contentHash cached e).builds c).stage.unfinished = true := by
    rw [hclaimed]
    rfl
  refine ⟨(hsound.ledger.flight o).mpr ⟨c, hun, hout⟩, fun b hb hun' hout' => ?_⟩
  obtain rfl := hsound.ledger.alone b c hun' hun (hout'.trans hout.symm)
  exact absurd hb (Nat.not_lt.mpr hge)

/-- What an output is recorded to have read stays so, until it has no rule or a build of it records
what that has read. -/
theorem dependencies_step (he : w.enabled e) (o : Path) :
    State.membersOf (w.step contentHash cached e).tree.dependencies o =
        State.membersOf w.tree.dependencies o ∨
      (w.step contentHash cached e).tree.declared o = false ∨
      ∃ b, e.build = some b ∧ (w.builds b).stage.unfinished = true ∧
        (w.builds b).launch.output = o := by
  have hother : ∀ {t : State} {output : Path} {inputs : List Path}, o ≠ output →
      SameDepends (w.tree.updateDependents output inputs) t →
      State.membersOf t.dependencies o = State.membersOf w.tree.dependencies o := by
    intro t output inputs hne ht
    rw [ht.dependencies]
    show State.membersOf (Function.update w.tree.dependencies output (some inputs)) o = _
    rw [State.membersOf_update, if_neg hne]
  have hstep := @step_redepends contentHash cached w e he
  generalize (w.step contentHash cached e).tree = t at hstep ⊢
  cases hstep with
  | same ht => exact .inl (by rw [ht.dependencies])
  | @published b _ _ _ hstage ht =>
    by_cases heq : o = (w.builds b).launch.output
    · exact .inr (.inr ⟨b, rfl, by rw [hstage]; rfl, heq.symm⟩)
    · exact .inl (hother heq ht)
  | @failed b _ hun ht =>
    by_cases heq : o = (w.builds b).launch.output
    · exact .inr (.inr ⟨b, rfl, hun, heq.symm⟩)
    · exact .inl (hother heq ht)
  | @taken _ _ commands ht =>
    subst ht
    have htaken := w.tree.takeCommands_taken commands
    by_cases hgone : w.tree.declared o = true ∧ commands.find o = none
    · refine .inr (.inl ?_)
      rw [htaken.only]
      show (commands.find o).isSome = false
      rw [hgone.2]
      rfl
    · refine .inl ?_
      unfold State.membersOf
      rw [(htaken.kept o hgone).2.2.2]

end World

/-- The source files that a build's command has read. -/
def BuildResult.inputs : BuildResult → List Path
  | .built _ inputs => inputs
  | .failed _ inputs => inputs

/-- What a build whose inputs are recorded has read. -/
def Stage.recorded : Stage → Option (List Path)
  | .writing (.built _ inputs) _ _ => some inputs
  | .published (.built _ inputs) _ => some inputs
  | _ => none

namespace World

variable {contentHash : Bytes → Hash} {cached : Bool}
variable {w w' : World} {b : BuildId} {output o p : Path} {s t : State} {e : Event}

/-- The source files that the last build of an output has read, be it one of an earlier run that
the output is restored from. -/
def readBy (w : World) (output : Path) : List Path :=
  match w.lastResult output with
  | some result => result.inputs
  | none => State.membersOf w.tree.dependencies output

theorem addBuild_lastResult (w : World) (launch : Option Launch) (behind : Option BuildId) :
    (w.addBuild launch behind).lastResult = w.lastResult := by
  cases launch <;> rfl

/-- What came of the last build of an output stays so until another of it ends. -/
theorem step_lastResult (w : World) (e : Event) (o : Path) :
    (w.step contentHash cached e).lastResult o = w.lastResult o ∨
      ∃ b, e = .settle b ∧ (w.builds b).launch.output = o := by
  have hsame : (w.step contentHash cached e).lastResult = w.lastResult →
      (w.step contentHash cached e).lastResult o = w.lastResult o ∨
        ∃ b, e = .settle b ∧ (w.builds b).launch.output = o := fun heq => .inl (congrFun heq o)
  cases e with
  | bringUpToDate | startNext => exact hsame (addBuild_lastResult _ _ _)
  | recordRead | materializeAll | sourceChange => exact hsame rfl
  | publish b builtAt =>
    refine hsame (show (w.publish contentHash cached b builtAt).lastResult = _ from ?_)
    unfold World.publish
    dsimp only
    split
    · split <;> rfl
    · rfl
  | write b =>
    refine hsame (show (w.write b).lastResult = _ from ?_)
    unfold World.write
    dsimp only
    split <;> rfl
  | settle b =>
    by_cases hout : (w.builds b).launch.output = o
    · exact .inr ⟨b, rfl, hout⟩
    · have hsettled : ∀ result keep, (w.settleWith b result keep).lastResult o = w.lastResult o := by
        intro result keep
        unfold World.settleWith
        dsimp only
        rw [addBuild_lastResult]
        exact Function.update_of_ne (Ne.symm hout) ..
      refine .inl (show (w.settle b).lastResult o = _ from ?_)
      unfold World.settle
      split
      · exact hsettled _ _
      · exact hsettled _ _
      · rfl
  | resume now ok =>
    refine hsame (show (w.resume now ok).lastResult = _ from ?_)
    unfold World.resume
    split
    on_goal 10 => exact addBuild_lastResult _ _ _
    all_goals rfl
  | launch | endWork | complete | completeOrphaned | beginKeeping | stamp | store | editSource
  | coordinator => exact hsame (step_aside rfl).lastResult

/-- What the last build of an output has read is recorded, unless the output is out of date or
another build of it is under way. -/
structure Recorded (w : World) : Prop where
  idle : ∀ o, w.tree.declared o = true → w.tree.stale o = false → w.tree.inFlight o = false →
    ∀ p ∈ w.readBy o, p ∈ State.membersOf w.tree.dependencies o
  published : ∀ b inputs, (w.builds b).stage.recorded = some inputs →
    OutOfDate w.tree (w.builds b).launch.output ∨
      ∀ p ∈ inputs, p ∈ State.membersOf w.tree.dependencies (w.builds b).launch.output

theorem Landed.idle_recorded {result : BuildResult} {keep : Option Keep}
    (hland : Landed w b result keep w') (hbuilt : result.isBuilt = true) :
    w'.tree.dependencies = w.tree.dependencies := by
  obtain hsame | ⟨hfailed, _⟩ :=
    w.tree.recordFailure_depends (w.builds b).launch.output result
  · rw [hland.depends.dependencies, hsame.dependencies]
  · rw [hbuilt] at hfailed
    simp at hfailed

theorem Landed.lastResult {result : BuildResult} {keep : Option Keep}
    (hland : Landed w b result keep w') :
    w'.lastResult (w.builds b).launch.output = some result := by
  cases hland with
  | removed => exact Function.update_self ..
  | rebuilt =>
    show (World.addBuild _ _ _).lastResult _ = _
    rw [addBuild_lastResult]
    exact Function.update_self ..
  | idle => exact Function.update_self ..

/-- The build that leaves its output up to date and idle has what it read recorded. -/
theorem Recorded.settled (h : Recorded w) (hs : Sound w) (he : w.enabled (.settle b))
    (hd : (w.settle b).tree.declared (w.builds b).launch.output = true)
    (hstale : (w.settle b).tree.stale (w.builds b).launch.output = false)
    (hidle : (w.settle b).tree.inFlight (w.builds b).launch.output = false) :
    ∀ p ∈ (w.settle b).readBy (w.builds b).launch.output,
      p ∈ State.membersOf (w.settle b).tree.dependencies (w.builds b).launch.output := by
  let output := (w.builds b).launch.output
  obtain ⟨result, keep, hun, hstage, hland⟩ := settle_landed he
  -- Neither out of date nor claimed anew.
  have hneither : ¬(OutOfDate (w.settle b).tree output ∨ ClaimedSince w (w.settle b) output) := by
    rintro (hout | hsince)
    · rw [hout hd] at hstale
      simp at hstale
    · have hflight := (@Sound.claimed_flight (fun _ => []) false w output _ hs he hsince).1
      have hflight' : (w.settle b).tree.inFlight output = true := hflight
      rw [hidle] at hflight'
      simp at hflight'
  have hbuilt : result.isBuilt = true := by
    by_contra hnot
    exact hneither (hland.failed_outOfDate (by simpa using hnot))
  have hpublished := hstage.resolve_left (by simp [hbuilt])
  unfold readBy
  rw [hland.lastResult, hland.idle_recorded hbuilt]
  cases result with
  | failed error inputs => simp [BuildResult.isBuilt] at hbuilt
  | built bytes inputs =>
    have hrecorded := h.published b inputs (by rw [hpublished]; rfl)
    exact hrecorded.resolve_left fun hout => hneither (hout.landed hland)

theorem Recorded.idle_step (h : Recorded w) (hs : Sound w) (he : w.enabled e)
    (hd : (w.step contentHash cached e).tree.declared o = true)
    (hstale : (w.step contentHash cached e).tree.stale o = false)
    (hidle : (w.step contentHash cached e).tree.inFlight o = false) :
    ∀ p ∈ (w.step contentHash cached e).readBy o,
      p ∈ State.membersOf (w.step contentHash cached e).tree.dependencies o := by
  have hneither : ¬(OutOfDate (w.step contentHash cached e).tree o ∨
      ClaimedSince w (w.step contentHash cached e) o) := by
    rintro (hout | hsince)
    · rw [hout hd] at hstale
      simp at hstale
    · rw [(hs.claimed_flight he hsince).1] at hidle
      simp at hidle
  by_cases hsettle : ∃ b, e = .settle b ∧ (w.builds b).launch.output = o
  · obtain ⟨b, rfl, rfl⟩ := hsettle
    exact h.settled hs he hd hstale hidle
  · have hbefore : w.tree.inFlight o = false := by
      by_contra hflight
      obtain hflight | hsettled :=
        @Sound.flight_step contentHash cached w o e hs he (by simpa using hflight)
      · rw [hidle] at hflight
        simp at hflight
      · exact hsettle hsettled
    have hcurrent : ¬OutOfDate w.tree o := fun hout => hneither (hout.step e)
    have hold : w.tree.declared o = true ∧ w.tree.stale o = false := by
      unfold OutOfDate at hcurrent
      simpa using hcurrent
    have hread : (w.step contentHash cached e).readBy o =
        match w.lastResult o with
        | some result => result.inputs
        | none => State.membersOf (w.step contentHash cached e).tree.dependencies o := by
      unfold readBy
      rw [(step_lastResult w e o).resolve_right hsettle]
    have hdeps := ((dependencies_step he o).resolve_right fun hnot => by
      obtain hnot | ⟨b, _, hun, hout⟩ := hnot
      · rw [hd] at hnot
        simp at hnot
      · rw [(hs.ledger.flight o).mpr ⟨b, hun, hout⟩] at hbefore
        simp at hbefore)
    have hall := h.idle o hold.1 hold.2 hbefore
    unfold readBy at hall
    rw [hread, hdeps]
    exact hall

theorem Recorded.published_step (h : Recorded w) (hs : Sound w) (he : w.enabled e)
    {inputs : List Path}
    (hb : ((w.step contentHash cached e).builds b).stage.recorded = some inputs) :
    OutOfDate (w.step contentHash cached e).tree
        ((w.step contentHash cached e).builds b).launch.output ∨
      ∀ p ∈ inputs, p ∈ State.membersOf (w.step contentHash cached e).tree.dependencies
        ((w.step contentHash cached e).builds b).launch.output := by
  have hun : ((w.step contentHash cached e).builds b).stage.unfinished = true := by
    generalize ((w.step contentHash cached e).builds b).stage = stage at hb
    unfold Stage.recorded at hb
    split at hb
    · rfl
    · rfl
    · simp at hb
  obtain ⟨hlt, hbefore, hlaunch⟩ | ⟨hge, hlt⟩ := hs.unfinished_step he hun
  · rw [hlaunch]
    -- No other build of the output is claimed meanwhile.
    have hkept : OutOfDate w.tree (w.builds b).launch.output →
        OutOfDate (w.step contentHash cached e).tree (w.builds b).launch.output := fun hout =>
      (hout.step e).resolve_right fun hsince =>
        (hs.claimed_flight he hsince).2 b hlt hun (by rw [hlaunch])
    by_cases hown : e.build = some b
    · have hstep := @Sound.stepped contentHash cached w b e hs he hown
      generalize ((w.step contentHash cached e).builds b).stage = stage at hb hstep
      cases hstep with
      | @undeclared bytes _ builtAt hstage hc =>
        refine .inl fun hd => ?_
        have hd' : (w.publish contentHash cached b builtAt).tree.declared
            (w.builds b).launch.output = true := hd
        rw [publish_undeclared builtAt hstage hc] at hd'
        unfold State.declared at hd'
        change (w.tree.commands.find (w.builds b).launch.output).isSome = true at hd'
        rw [hc] at hd'
        simp at hd'
      | @published bytes read command builtAt hstage hc =>
        refine .inr fun p hp => ?_
        obtain rfl : read = inputs := Option.some.inj hb
        show p ∈ State.membersOf (w.publish contentHash cached b builtAt).tree.dependencies _
        rw [publish_declared builtAt hstage hc]
        have hdeps : State.membersOf (w.tree.publish contentHash cached (w.builds b).launch.output
            command bytes read builtAt).2.dependencies (w.builds b).launch.output =
              w.tree.addReads (w.builds b).launch.output read := by
          unfold State.publish State.membersOf
          cases cached <;> simp [State.updateDependents]
        rw [hdeps]
        exact List.mem_append_left _ hp
      | @written bytes read builtAt keep hstage =>
        obtain rfl : read = inputs := Option.some.inj hb
        refine (h.published b read (by rw [hstage]; rfl)).imp hkept fun hall p hp => ?_
        show p ∈ State.membersOf (w.write b).tree.dependencies _
        unfold World.write
        rw [hstage]
        exact hall p hp
      | completed hstage | orphanCompleted hstage =>
        rw [hstage] at hbefore
        simp [Stage.unfinished] at hbefore
      | _ => simp [Stage.recorded] at hb
    · rw [step_others w e hown hlt] at hb
      obtain hdeps | hgone | ⟨c, hc, hun', hout⟩ := @dependencies_step contentHash cached w e he
        (w.builds b).launch.output
      · rw [hdeps]
        exact (h.published b inputs hb).imp hkept id
      · refine .inl fun hd => ?_
        rw [hgone] at hd
        simp at hd
      · rw [hs.ledger.alone c b hun' hbefore hout] at hc
        exact absurd hc hown
  · rw [(step_new w e hge hlt).1] at hb
    simp [Stage.recorded] at hb

theorem Starts.recorded (h : Starts contentHash cached w) : Recorded w := by
  obtain ⟨_, _, _, _, hw⟩ := h.begins
  refine ⟨fun o _ _ _ p hp => ?_, fun b inputs hb => ?_⟩
  · have hlast : w.lastResult o = none := by rw [hw]
    unfold readBy at hp
    rwa [hlast] at hp
  · have hover : (w.builds b).stage = .over := by rw [hw]
    rw [hover] at hb
    simp [Stage.recorded] at hb

theorem recorded {ok : World → Event → Prop} (h : (machine contentHash cached).Reachable ok w) :
    Recorded w := by
  refine h.invariant_under (Q := Sound) (P := Recorded) (fun _ => sound)
    (fun _ hs => Starts.recorded hs) fun w e hs hr he _ => ?_
  exact ⟨fun o hd hstale hidle => hr.idle_step hs he hd hstale hidle,
    fun b inputs hb => hr.published_step hs he hb⟩

theorem inverse {ok : World → Event → Prop} (h : (machine contentHash cached).Reachable ok w) :
    w.tree.Inverse :=
  h.invariant (P := fun w => w.tree.Inverse) (fun _ hs => Starts.inverse hs)
    fun _ _ hinv he _ => inverse_step hinv he

/-! ### What a source change affects -/

/-- Whether the callback under way has still to collect what has read a path. -/
def ToCollect (w : World) (path : Path) : Prop :=
  ∃ everythingDirty entriesChanged,
    Task.collectAffected everythingDirty entriesChanged ∈ w.todo ∧
      (everythingDirty = true ∨ path ∈ entriesChanged)

/-- Whether an output is out of date, being built, or about to be invalidated. -/
def Due (w : World) (output : Path) : Prop :=
  OutOfDate w.tree output ∨ w.tree.inFlight output = true ∨ ToInvalidate w output

/-- What an output is recorded to have read stays so, until a build of it ends or it is due anyway. -/
theorem Sound.dependencies_kept (hs : Sound w) (he : w.enabled e)
    (hp : p ∈ State.membersOf w.tree.dependencies o)
    (hsettle : ∀ b, e = .settle b → (w.builds b).launch.output ≠ o) :
    p ∈ State.membersOf (w.step contentHash cached e).tree.dependencies o ∨
      Due (w.step contentHash cached e) o := by
  obtain hdeps | hgone | ⟨b, _, hun, hout⟩ := @dependencies_step contentHash cached w e he o
  · exact .inl (hdeps ▸ hp)
  · refine .inr (.inl fun hd => ?_)
    rw [hgone] at hd
    simp at hd
  · obtain hflight | ⟨c, heq, hc⟩ := @Sound.flight_step contentHash cached w o e hs he
      ((hs.ledger.flight o).mpr ⟨b, hun, hout⟩)
    · exact .inr (.inr (.inl hflight))
    · exact absurd hc (hsettle c heq)

/-- An output that is due stays so until a build of it ends. -/
theorem Due.step (h : Due w o) (hs : Sound w) (ho : Orderly w) (he : w.enabled e)
    (hsettle : ∀ b, e = .settle b → (w.builds b).launch.output ≠ o) :
    Due (w.step contentHash cached e) o := by
  obtain hout | hflight | hto := h
  · obtain hout | hsince := @OutOfDate.step contentHash cached w o hout e
    · exact .inl hout
    · exact .inr (.inl (hs.claimed_flight he hsince).1)
  · obtain hflight | ⟨b, heq, hb⟩ := @Sound.flight_step contentHash cached w o e hs he hflight
    · exact .inr (.inl hflight)
    · exact absurd hb (hsettle b heq)
  · obtain hto | ⟨now, ok, outputs, todo, rfl, htodo, hseen⟩ :=
      @ToInvalidate.reached contentHash cached w o e hto ho he
    · exact .inr (.inr hto)
    · refine .inl fun _ => ?_
      show (w.resume now ok).tree.stale o = true
      unfold World.resume
      simp only [htodo]
      exact ((w.tree.invalidate_marked outputs).seen o hseen).2.1

/-- What has read a path that is still to be collected for is due once it is. -/
theorem ToCollect.step (h : ToCollect w p) (hi : w.tree.Inverse) (he : w.enabled e)
    (hp : p ∈ State.membersOf w.tree.dependencies o) :
    ToCollect (w.step contentHash cached e) p ∨ Due (w.step contentHash cached e) o := by
  obtain ⟨everythingDirty, entriesChanged, hmem, hp'⟩ := h
  by_cases hdone : ∃ now ok todo, e = .resume now ok ∧
      w.todo = .collectAffected everythingDirty entriesChanged :: todo
  · obtain ⟨now, ok, todo, rfl, htodo⟩ := hdone
    refine .inr ?_
    show Due (w.resume now ok) o
    by_cases hd : w.tree.declared o = true
    · refine .inr (.inr ⟨?_, .invalidate (w.tree.affected everythingDirty entriesChanged), ?_, ?_⟩)
      · unfold World.resume
        simp only [htodo]
        exact hd
      · unfold World.resume
        simp [htodo]
      · show o ∈ w.tree.affected everythingDirty entriesChanged
        unfold State.affected
        split
        · obtain ⟨command, hcommand, hout⟩ := Commands.find_isSome.mp hd
          exact List.mem_map.mpr ⟨command, hcommand, hout⟩
        · next hdirty =>
          exact List.mem_flatMap.mpr ⟨p, hp'.resolve_left hdirty, (hi p o).mpr hp⟩
    · refine .inl fun hd' => absurd ?_ hd
      unfold World.resume at hd'
      simp only [htodo] at hd'
      exact hd'
  · exact .inl ⟨everythingDirty, entriesChanged, Orderly.task_kept he hmem
      fun now ok todo heq htodo => hdone ⟨now, ok, todo, heq, htodo⟩, hp'⟩

end World

end MakeBelieve.Tree
