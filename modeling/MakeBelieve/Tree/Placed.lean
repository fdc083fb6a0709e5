import MakeBelieve.Tree.Mirror
import MakeBelieve.Tree.Recorded

namespace MakeBelieve.Tree

open Coordinator (AttemptId)
open Library

namespace World

variable {contentHash : Bytes → Hash} {cached : Bool}
variable {w w' : World} {b : BuildId} {output o : Path} {s t : State} {e : Event}

/-! ### What becomes of a file -/

/-- What a step makes of an output's file: nothing, the content of a build of it, or that the
callback takes it away or puts its placeholder there. -/
inductive Places (w w' : World) (o : Path) : Event → Prop
  | same {e : Event} (hfile : w'.tree.files o = w.tree.files o) (horigin : w'.origin o = w.origin o) :
      Places w w' o e
  | written {b : BuildId} {bytes : Bytes} {inputs : List Path} {builtAt : Int64}
      {keep : Option Keep} (hstage : (w.builds b).stage = .writing (.built bytes inputs) builtAt keep)
      (hout : (w.builds b).launch.output = o) (hfile : w'.tree.files o = some ⟨bytes, builtAt⟩)
      (horigin : w'.origin o = some (.build b)) : Places w w' o (.write b)
  | removed {now : Int64} {ok : Bool} {todo : List Task} (htodo : w.todo = .removeFile o :: todo)
      (hfile : w'.tree.files o = none) (horigin : w'.origin o = none) : Places w w' o (.resume now ok)
  | placed {now : Int64} {ok : Bool} {todo : List Task}
      (htodo : w.todo = .writePlaceholder o :: todo)
      (hfile : w'.tree.files o = some (State.placeholder now))
      (horigin : w'.origin o = some .placeholder) : Places w w' o (.resume now ok)

theorem addBuild_origin (w : World) (launch : Option Launch) (behind : Option BuildId) :
    (w.addBuild launch behind).origin = w.origin := by
  cases launch <;> rfl

theorem step_places (he : w.enabled e) (o : Path) :
    Places w (w.step contentHash cached e) o e := by
  have hsame : (w.step contentHash cached e).origin = w.origin →
      (∀ b, e ≠ .write b) → (∀ now ok, e = .resume now ok → ∀ task todo, w.todo = task :: todo →
        task.file = false) → Places w (w.step contentHash cached e) o e :=
    fun horigin hwrite hresume =>
      .same (congrFun (step_files_same hwrite hresume) o) (congrFun horigin o)
  cases e with
  | bringUpToDate | startNext => exact hsame (addBuild_origin _ _ _) (by simp) (by simp)
  | recordRead | materializeAll | sourceChange => exact hsame rfl (by simp) (by simp)
  | publish b builtAt =>
    refine hsame (show (w.publish contentHash cached b builtAt).origin = _ from ?_) (by simp) (by simp)
    unfold World.publish
    dsimp only
    split
    · split <;> rfl
    · rfl
  | write b =>
    show Places w (w.write b) o (.write b)
    obtain ⟨result, builtAt, keep, hstage⟩ := he
    cases result with
    | failed error inputs =>
      unfold World.write
      simp only [hstage]
      exact .same rfl rfl
    | built bytes inputs =>
      by_cases heq : o = (w.builds b).launch.output
      · refine .written hstage heq.symm ?_ ?_
        all_goals
          unfold World.write
          simp only [hstage]
          rw [heq]
          exact Function.update_self ..
      · refine .same ?_ ?_
        all_goals
          unfold World.write
          simp only [hstage]
          exact Function.update_of_ne heq ..
  | settle b =>
    refine hsame (show (w.settle b).origin = _ from ?_) (by simp) (by simp)
    unfold World.settle
    split
    · exact (w.settleWith_aside b _ _).2.2.2
    · exact (w.settleWith_aside b _ _).2.2.2
    · rfl
  | resume now ok =>
    obtain ⟨task, todo, htodo, _⟩ := he
    show Places w (w.resume now ok) o (.resume now ok)
    have hother : (w.resume now ok).origin = w.origin → task.file = false →
        Places w (w.resume now ok) o (.resume now ok) := fun horigin hfile =>
      hsame horigin (by simp) fun _ _ _ task' _ htodo' =>
        (List.cons.inj (htodo.symm.trans htodo')).1 ▸ hfile
    cases task with
    | removeFile output =>
      by_cases heq : o = output
      · subst heq
        refine .removed htodo ?_ ?_
        all_goals
          unfold World.resume
          simp only [htodo]
          exact Function.update_self ..
      · refine .same ?_ ?_
        all_goals
          unfold World.resume
          simp only [htodo]
          exact Function.update_of_ne heq ..
    | writePlaceholder output =>
      by_cases heq : o = output
      · subst heq
        refine .placed htodo ?_ ?_
        all_goals
          unfold World.resume
          simp only [htodo]
          exact Function.update_self ..
      · refine .same ?_ ?_
        all_goals
          unfold World.resume
          simp only [htodo]
          exact Function.update_of_ne heq ..
    | startBuild output =>
      refine hother ?_ rfl
      unfold World.resume
      simp only [htodo]
      exact addBuild_origin _ _ _
    | _ =>
      refine hother ?_ rfl
      unfold World.resume
      simp only [htodo]
  | launch | endWork | complete | completeOrphaned | beginKeeping | stamp | store | editSource
  | coordinator => exact .same (by rw [(step_aside rfl).tree]) (by rw [(step_aside rfl).origin])

/-- Every file there is belongs to an output with a rule, or the callback is about to remove it. -/
structure Held (w : World) : Prop where
  writing : ∀ b, (w.builds b).stage.writes = true →
    w.tree.declared (w.builds b).launch.output = true
  adding : ∀ o, .writePlaceholder o ∈ w.todo → w.tree.declared o = true
  kept : ∀ o, w.tree.files o ≠ none → w.tree.declared o = true ∨ .removeFile o ∈ w.todo

/-- New rules are taken while no build writes, and what has lost its rule is to be removed. -/
theorem Held.applied (h : Held w) (ho : Orderly w) {now : Int64} {ok : Bool}
    {commands : Commands} {todo : List Task} (htodo : w.todo = .applyRules commands :: todo)
    (he : w.enabled (.resume now ok)) : Held (w.resume now ok) := by
  have htree : (w.resume now ok).tree = (w.tree.takeCommands commands).2 := by
    unfold World.resume
    simp only [htodo]
  have hnew : (w.resume now ok).todo =
      (w.tree.changesTo commands).removed.map Task.removeFile ++
        (w.tree.changesTo commands).added.map Task.writePlaceholder ++
          .leaveLayout :: .collectReaders (w.tree.changesTo commands) :: todo := by
    unfold World.resume
    simp only [htodo]
    rfl
  have hdeclared : ∀ o, (w.resume now ok).tree.declared o = (commands.find o).isSome := by
    intro o
    rw [htree, (w.tree.takeCommands_taken commands).only]
    rfl
  have hfiles : (w.resume now ok).tree.files = w.tree.files := by
    rw [htree, (w.tree.takeCommands_taken commands).only]
  -- What is left to do is about no file yet.
  have hnone : ∀ o, .removeFile o ∉ w.todo := by
    intro o hmem
    obtain ⟨_, heq⟩ | ⟨_, _, heq⟩ := ho.applying htodo hmem <;> simp at heq
  refine ⟨fun b hb => ?_, fun o hmem => ?_, fun o hfile => ?_⟩
  · have hbuilds : (w.resume now ok).builds = w.builds := by
      unfold World.resume
      simp only [htodo]
    rw [hbuilds] at hb
    obtain ⟨task, todo', htodo', hfree⟩ := he
    obtain ⟨rfl, rfl⟩ := List.cons.inj (htodo.symm.trans htodo')
    have hlayout : w.layout = none := hfree
    rw [ho.writing b hb] at hlayout
    simp at hlayout
  · obtain hmem | ⟨_, _, commands', todo', _, htodo', ⟨o', _, heq⟩ | ⟨o', hadded, heq⟩⟩ :=
      @step_files (fun _ => []) false w (.resume now ok) (.writePlaceholder o) ⟨o, .inr rfl⟩ hmem
    · obtain ⟨_, heq⟩ | ⟨_, _, heq⟩ := ho.applying htodo hmem <;> simp at heq
    · simp at heq
    · obtain rfl := Task.applyRules.inj (List.cons.inj (htodo.symm.trans htodo')).1
      obtain rfl := Task.writePlaceholder.inj heq
      rw [hdeclared]
      exact (State.mem_added.mp hadded).2
  · rw [hfiles] at hfile
    have hd := (h.kept o hfile).resolve_right (hnone o)
    rw [hdeclared, hnew]
    by_cases hgone : commands.find o = none
    · refine .inr (List.mem_append_left _ (List.mem_append_left _ (List.mem_map_of_mem ?_)))
      exact State.mem_removed.mpr ⟨hd, hgone⟩
    · exact .inl (Option.isSome_iff_ne_none.mpr hgone)

theorem Held.step (h : Held w) (hs : Sound w) (ho : Orderly w) (he : w.enabled e) :
    Held (w.step contentHash cached e) := by
  by_cases hrules : ∃ now ok commands todo, e = .resume now ok ∧ w.todo = .applyRules commands :: todo
  · obtain ⟨now, ok, commands, todo, rfl, htodo⟩ := hrules
    exact h.applied ho htodo he
  · have hdeclared : (w.step contentHash cached e).tree.declared = w.tree.declared := by
      unfold State.declared
      rw [(@step_commands contentHash cached w e).resolve_right hrules]
    refine ⟨fun b hb => ?_, fun o hmem => ?_, fun o hfile => ?_⟩
    · rw [hdeclared]
      exact writing_declared h.writing hs he hb
    · rw [hdeclared]
      obtain hmem | ⟨now, ok, commands, todo, heq, htodo, _⟩ := step_files ⟨o, .inr rfl⟩ hmem
      · exact h.adding o hmem
      · exact absurd ⟨now, ok, commands, todo, heq, htodo⟩ hrules
    · rw [hdeclared]
      by_cases hdone : ∃ now ok todo, e = .resume now ok ∧ w.todo = .removeFile o :: todo
      · obtain ⟨now, ok, todo, rfl, htodo⟩ := hdone
        refine absurd ?_ hfile
        show (w.resume now ok).tree.files o = none
        unfold World.resume
        simp only [htodo]
        exact Function.update_self ..
      · have hplaces := @step_places contentHash cached w e he o
        cases hplaces with
        | same hsame =>
          refine (h.kept o (hsame ▸ hfile)).imp_right fun hmem => Orderly.task_kept he hmem ?_
          exact fun now ok todo heq htodo => hdone ⟨now, ok, todo, heq, htodo⟩
        | @written b _ _ _ _ hstage hout =>
          exact .inl (hout ▸ h.writing b (by rw [hstage]; rfl))
        | removed htodo => exact absurd ⟨_, _, _, rfl, htodo⟩ hdone
        | placed htodo => exact .inl (h.adding o (htodo ▸ List.mem_cons_self))

theorem Starts.held (h : Starts contentHash cached w) : Held w := by
  obtain ⟨_, _, _, _, hw⟩ := h.begins
  refine ⟨fun b hb => ?_, fun o hmem => ?_, fun o hfile => .inl ((h.files o).mp ?_)⟩
  · have hover : (w.builds b).stage = .over := by rw [hw]
    rw [hover] at hb
    simp [Stage.writes] at hb
  · have htodo : w.todo = [] := by rw [hw]
    rw [htodo] at hmem
    simp at hmem
  · exact Option.isSome_iff_ne_none.mpr hfile

/-! ### What an output up to date is served with -/

/-- Whether content was made since so many invalidations of its output: what is restored was made
before any of them. -/
def MadeSince (w : World) (n : Nat) : Origin → Prop
  | .placeholder => False
  | .restored => n = 0
  | .build b => b < w.buildCount ∧ n ≤ (w.builds b).claimedAt

/-- Whether an output is served with content made since so many invalidations of it. -/
def ServedSince (w : World) (output : Path) (n : Nat) : Prop :=
  ∃ file origin, w.tree.files output = some file ∧ w.origin output = some origin ∧
    w.MadeSince n origin

theorem MadeSince.step {n : Nat} {origin : Origin} (h : w.MadeSince n origin) (e : Event) :
    (w.step contentHash cached e).MadeSince n origin := by
  have hon := @step_onward contentHash cached w e
  cases origin with
  | placeholder => exact h
  | restored => exact h
  | build b => exact ⟨Nat.lt_of_lt_of_le h.1 hon.buildCount, by rw [hon.claimedAt b h.1]; exact h.2⟩

/-- What an output is served with, unless it is out of date, has been made since it was last
invalidated, and the build of it under way has been claimed since. -/
structure Upheld (w : World) (output : Path) : Prop where
  idle : w.tree.inFlight output = false →
    OutOfDate w.tree output ∨ w.ServedSince output (w.tree.invalidations output)
  claimed : ∀ b, (w.builds b).stage.unfinished = true → (w.builds b).launch.output = output →
    OutOfDate w.tree output ∨ w.tree.invalidations output ≤ (w.builds b).claimedAt
  written : ∀ b, (w.builds b).stage.unfinished = true → (w.builds b).launch.output = output →
    (w.builds b).stage.unpublished = false → (w.builds b).stage.writes = false →
      OutOfDate w.tree output ∨ w.tree.files output ≠ none ∧ w.origin output = some (.build b)

theorem unfinished_of_unpublished {stage : Stage} (h : stage.unpublished = true) :
    stage.unfinished = true := by
  cases stage <;> simp [Stage.unpublished, Stage.unfinished] at h ⊢

theorem unfinished_of_writes {stage : Stage} (h : stage.writes = true) :
    stage.unfinished = true := by
  cases stage <;> simp [Stage.writes, Stage.unfinished] at h ⊢

/-- While nothing of an output is unpublished, its file stays as it is, unless it is out of date or
a build writes it. -/
theorem Orderly.file_stays (h : Orderly w) (he : w.enabled e) (hcurrent : ¬OutOfDate w.tree o)
    (hnot : ∀ b, (w.builds b).launch.output = o → (w.builds b).stage.unpublished = false ∧
      (w.builds b).stage.writes = false) :
    (w.step contentHash cached e).tree.files o = w.tree.files o ∧
      (w.step contentHash cached e).origin o = w.origin o := by
  have hplaces := @step_places contentHash cached w e he o
  cases hplaces with
  | same hfile horigin => exact ⟨hfile, horigin⟩
  | @written b _ _ _ _ hstage hout =>
    have hwrites := (hnot b hout).2
    rw [hstage] at hwrites
    simp [Stage.writes] at hwrites
  | removed htodo =>
    have hd := h.removing o (by rw [htodo]; exact List.mem_cons_self)
    exact absurd (fun hd' => by rw [hd] at hd'; simp at hd') hcurrent
  | placed htodo =>
    obtain hout | ⟨b, hb, hout⟩ := h.placing o (by rw [htodo]; exact List.mem_cons_self)
    · exact absurd hout hcurrent
    · rw [(hnot b hout).1] at hb
      simp at hb

theorem Upheld.idle_step (h : Upheld w o) (hs : Sound w) (ho : Orderly w) (he : w.enabled e)
    (hidle : (w.step contentHash cached e).tree.inFlight o = false) :
    OutOfDate (w.step contentHash cached e).tree o ∨
      (w.step contentHash cached e).ServedSince o
        ((w.step contentHash cached e).tree.invalidations o) := by
  have hnone : ¬ClaimedSince w (w.step contentHash cached e) o := fun hsince => by
    rw [(hs.claimed_flight he hsince).1] at hidle
    simp at hidle
  by_cases hcurrent : OutOfDate w.tree o
  · exact .inl ((hcurrent.step e).resolve_right hnone)
  obtain hinv | ⟨_, hout⟩ := @step_invalidations contentHash cached w e o
  swap
  · exact .inl hout
  rw [hinv]
  by_cases hflight : w.tree.inFlight o = true
  · -- The build that lands has written what it built.
    obtain ⟨b, rfl, hout⟩ := (@Sound.flight_step contentHash cached w o e hs he hflight).resolve_left
      (by simp [hidle])
    obtain ⟨result, keep, hun, hstage, hland⟩ := settle_landed he
    obtain hfailed | hpublished := hstage
    · have hland' := hland.failed_outOfDate hfailed
      rw [hout] at hland'
      exact .inl (hland'.resolve_right hnone)
    · obtain ⟨hfile, horigin⟩ := (h.written b hun hout (by rw [hpublished]; rfl)
        (by rw [hpublished]; rfl)).resolve_left hcurrent
      obtain ⟨file, hfile⟩ := Option.ne_none_iff_exists'.mp hfile
      have hsince : w.MadeSince (w.tree.invalidations o) (.build b) :=
        ⟨hs.build_lt he rfl, (h.claimed b hun hout).resolve_left hcurrent⟩
      refine .inr ⟨file, .build b, ?_, ?_, hsince.step _⟩
      · exact (congrFun hland.files o).trans hfile
      · show (w.settle b).origin o = _
        unfold World.settle
        rw [hpublished, (w.settleWith_aside b _ _).2.2.2]
        exact horigin
  · obtain ⟨file, origin, hfile, horigin, hsince⟩ :=
      (h.idle (by simpa using hflight)).resolve_left hcurrent
    have hstays := @Orderly.file_stays contentHash cached w o e ho he hcurrent fun b hout =>
      ⟨by
        by_contra hb
        exact hflight ((hs.ledger.flight o).mpr
          ⟨b, unfinished_of_unpublished (by simpa using hb), hout⟩),
      by
        by_contra hb
        exact hflight ((hs.ledger.flight o).mpr
          ⟨b, unfinished_of_writes (by simpa using hb), hout⟩)⟩
    exact .inr ⟨file, origin, hstays.1.trans hfile, hstays.2.trans horigin, hsince.step _⟩

theorem Upheld.claimed_step (h : Upheld w o) (hs : Sound w) (he : w.enabled e)
    (hb : ((w.step contentHash cached e).builds b).stage.unfinished = true)
    (hout : ((w.step contentHash cached e).builds b).launch.output = o) :
    OutOfDate (w.step contentHash cached e).tree o ∨
      (w.step contentHash cached e).tree.invalidations o ≤
        ((w.step contentHash cached e).builds b).claimedAt := by
  obtain ⟨hlt, hun, hlaunch⟩ | ⟨hge, hlt⟩ := hs.unfinished_step he hb
  · rw [(@step_onward contentHash cached w e).claimedAt b hlt]
    obtain hcurrent | hle := h.claimed b hun (hlaunch ▸ hout)
    · exact .inl ((hcurrent.step e).resolve_right fun hsince =>
        (hs.claimed_flight he hsince).2 b hlt hb hout)
    · obtain hinv | ⟨_, hdate⟩ := @step_invalidations contentHash cached w e o
      · exact .inr (hinv ▸ hle)
      · exact .inl hdate
  · rw [(step_new w e hge hlt).2, hout]
    exact .inr (Nat.le_refl _)

theorem Upheld.written_step (h : Upheld w o) (hs : Sound w) (ho : Orderly w) (he : w.enabled e)
    (hb : ((w.step contentHash cached e).builds b).stage.unfinished = true)
    (hout : ((w.step contentHash cached e).builds b).launch.output = o)
    (hpublished : ((w.step contentHash cached e).builds b).stage.unpublished = false)
    (hwritten : ((w.step contentHash cached e).builds b).stage.writes = false) :
    OutOfDate (w.step contentHash cached e).tree o ∨
      (w.step contentHash cached e).tree.files o ≠ none ∧
        (w.step contentHash cached e).origin o = some (.build b) := by
  obtain ⟨hlt, hun, hlaunch⟩ | ⟨hge, hlt⟩ := hs.unfinished_step he hb
  swap
  · rw [(step_new w e hge hlt).1] at hpublished
    simp [Stage.unpublished] at hpublished
  rw [hlaunch] at hout
  by_cases hcurrent : OutOfDate w.tree o
  · exact .inl ((hcurrent.step e).resolve_right fun hsince =>
      (hs.claimed_flight he hsince).2 b hlt hb (by rw [hlaunch]; exact hout))
  by_cases hold : (w.builds b).stage.unpublished = false ∧ (w.builds b).stage.writes = false
  · obtain ⟨hfile, horigin⟩ := (h.written b hun hout hold.1 hold.2).resolve_left hcurrent
    have hstays := @Orderly.file_stays contentHash cached w o e ho he hcurrent fun c hc => by
      by_cases heq : c = b
      · rw [heq]
        exact hold
      · have hnot : (w.builds c).stage.unfinished = false := by
          by_contra hun'
          exact heq (hs.ledger.alone c b (by simpa using hun') hun (hc.trans hout.symm))
        exact ⟨by
          by_contra hc'
          rw [unfinished_of_unpublished (by simpa using hc')] at hnot
          simp at hnot,
        by
          by_contra hc'
          rw [unfinished_of_writes (by simpa using hc')] at hnot
          simp at hnot⟩
    rw [hstays.1, hstays.2]
    exact .inr ⟨hfile, horigin⟩
  · have hown : e.build = some b := by
      by_contra hother
      rw [step_others w e hother hlt] at hpublished hwritten
      exact hold ⟨hpublished, hwritten⟩
    have hstep := @Sound.stepped contentHash cached w b e hs he hown
    generalize ((w.step contentHash cached e).builds b).stage = stage at hstep hpublished hwritten hb
    cases hstep with
    | @undeclared bytes inputs builtAt hstage hc =>
      refine .inl fun hd => ?_
      have hd' : (w.publish contentHash cached b builtAt).tree.declared o = true := hd
      rw [publish_undeclared builtAt hstage hc] at hd'
      change (w.tree.commands.find o).isSome = true at hd'
      rw [← hout, hc] at hd'
      simp at hd'
    | @written bytes inputs builtAt keep hstage =>
      right
      show (w.write b).tree.files o ≠ none ∧ (w.write b).origin o = some (.build b)
      unfold World.write
      simp [hstage, hout, State.writeFile]
    | completed | orphanCompleted =>
      rw [(afterRelease_stage _ _).1] at hb
      simp at hb
    | _ => simp [Stage.unpublished, Stage.writes, Stage.unfinished] at hpublished hwritten hb

theorem Upheld.step (h : Upheld w o) (hs : Sound w) (ho : Orderly w) (he : w.enabled e) :
    Upheld (w.step contentHash cached e) o :=
  ⟨h.idle_step hs ho he, fun _ hb hout => h.claimed_step hs he hb hout,
    fun _ hb hout hpublished hwritten => h.written_step hs ho he hb hout hpublished hwritten⟩

theorem Starts.upheld (h : Starts contentHash cached w) (o : Path) : Upheld w o := by
  obtain ⟨_, _, _, _, hw⟩ := h.begins
  have hover : ∀ b, (w.builds b).stage.unfinished = false := fun b => by rw [hw]; rfl
  refine ⟨fun _ => ?_, fun b hb => ?_, fun b hb => ?_⟩
  · by_cases hd : w.tree.declared o = true
    · cases hstale : w.tree.stale o with
      | true => exact .inl fun _ => hstale
      | false =>
        obtain ⟨file, hfile⟩ := Option.isSome_iff_exists.mp ((h.files o).mpr hd)
        refine .inr ⟨file, .restored, hfile, ?_, h.idle.invalidations o⟩
        obtain ⟨commands, mtime, source, cache, tree, _, rfl⟩ := h
        show (if tree.declared o then _ else _) = _
        rw [if_pos hd]
        change tree.stale o = false at hstale
        simp [hstale]
    · exact .inl fun hd' => absurd hd' hd
  · rw [hover b] at hb
    simp at hb
  · rw [hover b] at hb
    simp at hb

theorem upheld {ok : World → Event → Prop} (h : (machine contentHash cached).Reachable ok w)
    (o : Path) : Upheld w o :=
  h.invariant_under (P := fun w => Upheld w o)
    (Q := fun w => (machine contentHash cached).Reachable ok w) (fun _ h => h)
    (fun _ hs => Starts.upheld hs o) fun _ _ hr hk he _ => hk.step (sound hr) (orderly hr) he

theorem held {ok : World → Event → Prop} (h : (machine contentHash cached).Reachable ok w) :
    Held w :=
  h.invariant_under (P := Held) (Q := fun w => (machine contentHash cached).Reachable ok w)
    (fun _ h => h) (fun _ hs => Starts.held hs)
    fun _ _ hr hk he _ => hk.step (sound hr) (orderly hr) he

end World

end MakeBelieve.Tree
