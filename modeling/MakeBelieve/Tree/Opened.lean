import MakeBelieve.Tree.Attempts
import MakeBelieve.Tree.Origins

namespace MakeBelieve.Tree

open Coordinator (AttemptId System)
open Library

/-- What a build has come to, until its attempt is completed. -/
def Stage.outcome : Stage → Option BuildResult
  | .finishing result | .writing result .. | .published result _ | .settled result .. => some result
  | _ => none

/-- Whether a build is through with what it built, and has its waiters still to release. -/
def Stage.served : Stage → Bool
  | .published (.built ..) _ | .settled (.built ..) .. => true
  | _ => false

/-- Whether a build that fails in this step fails with an error. -/
def Event.Errs : Event → Prop
  | .launch _ (.threw error) | .endWork _ (.failed error _) => error ≠ .success
  | _ => True

namespace World

variable {contentHash : Bytes → Hash} {cached : Bool}
variable {w w' : World} {b : BuildId} {output o : Path} {n : Nat} {a : AttemptId} {e : Event}

/-! ### What an output goes on being served with -/

/-- What an output is served with, if with anything, has been made since so many invalidations of
it, and the build of it under way has been claimed since. -/
structure Renewed (w : World) (output : Path) (n : Nat) : Prop where
  served : w.tree.files output = none ∨ w.ServedSince output n
  claimed : ∀ b, (w.builds b).stage.unfinished = true → (w.builds b).launch.output = output →
    n ≤ (w.builds b).claimedAt

/-- An output is renewed until its placeholder is put in place. -/
theorem Renewed.step (h : Renewed w o n) (hs : Sound w) (he : w.enabled e)
    (hn : n ≤ w.tree.invalidations o)
    (hplace : ∀ now ok todo, e = .resume now ok → w.todo ≠ .writePlaceholder o :: todo) :
    Renewed (w.step contentHash cached e) o n := by
  refine ⟨?_, fun b hb hout => ?_⟩
  · have hplaces := @step_places contentHash cached w e he o
    cases hplaces with
    | same hfile horigin =>
      obtain hnone | ⟨file, origin, hold, hwas, hsince⟩ := h.served
      · exact .inl (hfile.trans hnone)
      · exact .inr ⟨file, origin, hfile.trans hold, horigin.trans hwas, hsince.step e⟩
    | @written b _ _ _ _ hstage hout hfile horigin =>
      have hsince : w.MadeSince n (.build b) :=
        ⟨hs.build_lt he rfl, h.claimed b (by rw [hstage]; rfl) hout⟩
      exact .inr ⟨_, .build b, hfile, horigin, hsince.step _⟩
    | removed _ hfile => exact .inl hfile
    | placed htodo => exact absurd htodo (hplace _ _ _ rfl)
  · obtain ⟨hlt, hun, hlaunch⟩ | ⟨hge, hlt⟩ := hs.unfinished_step he hb
    · rw [(@step_onward contentHash cached w e).claimedAt b hlt]
      exact h.claimed b hun (hlaunch ▸ hout)
    · rw [(step_new w e hge hlt).2, hout]
      exact Nat.le_trans hn (invalidations_step w e o)

/-! ### What becomes of the attempt an open waits on -/

theorem enter_completions (w : World) (tree : State) :
    (w.enter tree).system.completions = w.system.completions := by
  unfold enter
  split <;> rfl

theorem addBuild_system (w : World) (launch : Option Launch) (behind : Option BuildId) :
    (w.addBuild launch behind).system = w.system := by
  cases launch <;> rfl

/-- A completion stays one. -/
theorem completion_stays (w : World) (e : Event) {p : AttemptId × ErrorCode}
    (hp : p ∈ w.system.completions) : p ∈ (w.step contentHash cached e).system.completions := by
  have hsame : ∀ {w' : World}, w'.system.completions = w.system.completions →
      p ∈ w'.system.completions := fun heq => heq ▸ hp
  have hbrought : ∀ (v : World) (launch : Option Launch) (behind : Option BuildId) (t : State),
      v.system = w.system → p ∈ ((v.enter t).addBuild launch behind).system.completions := by
    intro v launch behind t hv
    rw [addBuild_system, enter_completions, hv]
    exact hp
  cases e with
  | bringUpToDate output => exact hbrought w _ _ _ rfl
  | startNext output => exact hbrought { w with starting := w.starting.erase output } _ _ _ rfl
  | launch b start => cases start <;> exact hp
  | publish b builtAt =>
    refine hsame (show (w.publish contentHash cached b builtAt).system.completions = _ from ?_)
    unfold World.publish
    dsimp only
    split
    · split <;> rfl
    · rfl
  | write b =>
    refine hsame (show (w.write b).system.completions = _ from ?_)
    unfold World.write
    dsimp only
    split <;> rfl
  | settle b =>
    show p ∈ (w.settle b).system.completions
    unfold World.settle
    split
    · exact hbrought _ _ _ _ rfl
    · exact hbrought _ _ _ _ rfl
    · exact hp
  | complete b =>
    show p ∈ (w.complete b).system.completions
    unfold World.complete
    split
    · exact List.mem_append_left _ hp
    · exact hp
  | completeOrphaned b =>
    show p ∈ (w.completeOrphaned b).system.completions
    unfold World.completeOrphaned
    split
    · exact List.mem_append_left _ hp
    · exact hp
  | beginKeeping b =>
    refine hsame (show (w.beginKeeping b).system.completions = _ from ?_)
    unfold World.beginKeeping
    split <;> rfl
  | stamp b =>
    refine hsame (show (w.stamp b).system.completions = _ from ?_)
    unfold World.stamp
    split <;> rfl
  | store b ok =>
    refine hsame (show (w.store contentHash b ok).system.completions = _ from ?_)
    unfold World.store
    split <;> rfl
  | resume now ok =>
    show p ∈ (w.resume now ok).system.completions
    unfold World.resume
    split
    on_goal 10 => exact hbrought { w with todo := _ } _ _ _ rfl
    all_goals exact hp
  | coordinator e =>
    show p ∈ (w.system.step e).completions
    cases e with
    | complete a result => exact List.mem_append_left _ hp
    | _ => exact hp
  | recordRead | materializeAll | endWork | editSource | sourceChange => exact hp

/-- A request of the tree leaves a next attempt waited on where it is. -/
theorem Brought.next (hb : Brought w output w') (ht : w.tree.Tidy)
    (ha : w.Holds (.next o) a) : w'.Holds (.next o) a := by
  cases hb with
  | none hopened => exact (hopened.same.next o).trans ha
  | @minted t hopened _ _ hn =>
    have ha' : ((t.attempts o).getD {}).next = some a := (hopened.same.next o).trans ha
    have hne : o ≠ output := by
      rintro rfl
      rw [hn] at ha'
      simp at ha'
    show ((Function.update t.attempts output _ o).getD {}).next = some a
    rw [Function.update_of_ne hne]
    exact ha'
  | @claimed t hopened hf =>
    have ha' : ((t.attempts o).getD {}).next = some a := (hopened.same.next o).trans ha
    have hne : o ≠ output := by
      rintro rfl
      rw [(hopened.tidy ht).getD_next hf] at ha'
      simp at ha'
    show (((t.claimBuild output).attempts o).getD {}).next = some a
    rw [State.claimBuild_attempts, Function.update_of_ne hne]
    exact ha'

/-- The end of a build leaves the attempts waited on behind others where they are. -/
theorem Landed.next {result : BuildResult} {keep : Option Keep} (hland : Landed w b result keep w')
    (hne : o ≠ (w.builds b).launch.output) (ha : w.Holds (.next o) a) : w'.Holds (.next o) a := by
  have hout := w.tree.outcome_only (w.builds b).launch.output result
  unfold State.OnlyDepends at hout
  have hattempts : (w.tree.outcome (w.builds b).launch.output result).attempts = w.tree.attempts := by
    rw [hout]
  cases hland with
  | removed =>
    show ((Function.update w.tree.attempts (w.builds b).launch.output none o).getD {}).next = some a
    rw [Function.update_of_ne hne]
    exact ha
  | rebuilt =>
    show ((((w.tree.outcome (w.builds b).launch.output result).claimBuild
      (w.builds b).launch.output).attempts o).getD {}).next = some a
    rw [State.claimBuild_attempts, Function.update_of_ne hne, hattempts]
    exact ha
  | idle =>
    show (((w.tree.outcome (w.builds b).launch.output result).attempts o).getD {}).next = some a
    rw [hattempts]
    exact ha

/-- An attempt waited on behind a build is handed on by the end of that build alone. -/
theorem Sound.next_step (hs : Sound w) (he : w.enabled e) (ha : w.Holds (.next o) a) :
    (w.step contentHash cached e).Holds (.next o) a ∨
      ∃ b, e = .settle b ∧ (w.builds b).launch.output = o := by
  have hsame : ∀ {w' : World}, w'.tree.attempts = w.tree.attempts → w'.Holds (.next o) a := fun heq => by
    rw [Holds, heq]
    exact ha
  cases e with
  | bringUpToDate output => exact .inl ((w.brought output).next hs.tidy ha)
  | recordRead reader output =>
    refine .inl (hsame (show (w.tree.recordRead reader output).attempts = _ from ?_))
    unfold State.recordRead
    split <;> rfl
  | materializeAll | sourceChange => exact .inl ha
  | startNext output =>
    exact .inl ((brought_startBuild { w with starting := w.starting.erase output } output).next
      hs.tidy ha)
  | publish b builtAt =>
    refine .inl (hsame (show (w.publish contentHash cached b builtAt).tree.attempts = _ from ?_))
    unfold World.publish State.publish
    dsimp only
    split
    · split
      · rfl
      · cases cached <;> rfl
    · rfl
  | write b =>
    refine .inl (hsame (show (w.write b).tree.attempts = _ from ?_))
    unfold World.write
    dsimp only
    split <;> rfl
  | settle b =>
    by_cases hout : o = (w.builds b).launch.output
    · exact .inr ⟨b, rfl, hout.symm⟩
    · obtain ⟨_, _, _, _, hland⟩ := settle_landed he
      exact .inl (hland.next hout ha)
  | resume now ok =>
    left
    show (w.resume now ok).Holds (.next o) a
    unfold World.resume
    split
    on_goal 2 => exact ((takeCommands_same hs.tidy _).next o).trans ha
    on_goal 8 => exact ((invalidate_same _ _).next o).trans ha
    on_goal 8 => exact (brought_startBuild { w with todo := _ } _).next hs.tidy ha
    all_goals exact ha
  | launch | endWork | complete | completeOrphaned | beginKeeping | stamp | store | editSource
  | coordinator => exact .inl (hsame (by rw [(step_aside rfl).tree]))

/-! ### Failures -/

/-- Every build that has failed has an error to show for it. -/
def Erred (w : World) : Prop := ∀ b error inputs,
  (w.builds b).stage.outcome = some (.failed error inputs) → error ≠ .success

/-- Whether an attempt has failed, or is to. -/
inductive Fails (w : World) (a : AttemptId) : Prop
  | build {b : BuildId} {error : ErrorCode} {inputs : List Path}
      (ha : (w.builds b).launch.attempt = a) (hlt : b < w.buildCount)
      (hstage : (w.builds b).stage.outcome = some (.failed error inputs))
  | orphan {b : BuildId} (ha : w.Holds (.orphan b) a)
  | completed {error : ErrorCode} (ha : (a, error) ∈ w.system.completions) (he : error ≠ .success)

/-- What a build's own step makes of its outcome: a new one, or the one it had. -/
theorem Sound.outcome_step (hs : Sound w) (he : w.enabled e) (hb : e.build = some b)
    {result : BuildResult}
    (hout : ((w.step contentHash cached e).builds b).stage.outcome = some result) :
    (w.builds b).stage.outcome = some result ∨ (∃ bytes inputs, result = .built bytes inputs) ∨
      (∃ error, e = .launch b (.threw error) ∧ result = .failed error []) ∨
      ∃ ended, e = .endWork b ended ∧ (result = ended ∨ result = .failed dependencyCycle []) := by
  have hstep := @Sound.stepped contentHash cached w b e hs he hb
  generalize ((w.step contentHash cached e).builds b).stage = stage at hstep hout
  cases hstep with
  | traced bytes => exact .inr (.inl ⟨bytes, [], (Option.some.inj hout).symm⟩)
  | threw error => exact .inr (.inr (.inl ⟨error, rfl, (Option.some.inj hout).symm⟩))
  | ended ended =>
    refine .inr (.inr (.inr ⟨ended, rfl, ?_⟩))
    have hout' := Option.some.inj hout
    unfold Coordinator.runResult at hout'
    split at hout'
    · exact .inr hout'.symm
    · exact .inl hout'.symm
  | undeclared _ hs' | published _ hs' | written hs' | unwritten hs' =>
    exact .inl (by rw [hs']; exact hout)
  | settled hs' =>
    obtain ⟨_, _, hs', _, _⟩ | hs' := hs'
    · exact .inl (by rw [hs']; exact hout)
    · exact .inl (by rw [hs']; exact hout)
  | completed | orphanCompleted =>
    unfold afterRelease at hout
    split at hout <;> simp [Stage.outcome] at hout
  | _ => simp [Stage.outcome] at hout

theorem Erred.step (h : Erred w) (hs : Sound w) (he : w.enabled e) (hok : e.Errs) :
    Erred (w.step contentHash cached e) := by
  intro b error inputs hout
  obtain ⟨_, hsame⟩ | ⟨_, hown⟩ | ⟨_, hnew⟩ := @Sound.step_builds contentHash cached w e hs he b
  · exact h b error inputs (by rw [← hsame]; exact hout)
  · obtain hold | ⟨_, _, hbuilt⟩ | ⟨_, rfl, hthrew⟩ | ⟨ended, rfl, hended⟩ :=
      hs.outcome_step he hown hout
    · exact h b error inputs hold
    · simp at hbuilt
    · rw [(BuildResult.failed.inj hthrew).1]
      exact hok
    · obtain hended | hcycle := hended
      · rw [← hended] at hok
        exact hok
      · rw [(BuildResult.failed.inj hcycle).1]
        simp [dependencyCycle]
  · obtain ⟨hclaimed, _⟩ | hover := hnew
    · rw [hclaimed] at hout
      simp [Stage.outcome] at hout
    · rw [hover] at hout
      simp [Stage.outcome] at hout

theorem erred (h : (machine contentHash cached).Reachable (fun _ e => e.Errs) w) : Erred w := by
  refine h.invariant_under (Q := Sound) (P := Erred) (fun _ h => sound h) (fun w hstart => ?_)
    fun _ _ hs hk he hok => hk.step hs he hok
  obtain ⟨_, _, _, _, hw⟩ := hstart.begins
  intro b error inputs hout
  have hover : (w.builds b).stage = .over := by rw [hw]
  rw [hover] at hout
  simp [Stage.outcome] at hout

theorem complete_completes {result : BuildResult} {keep : Option Keep}
    {orphaned : Option AttemptId} (hstage : (w.builds b).stage = .settled result keep orphaned) :
    ((w.builds b).launch.attempt, result.error) ∈ (w.complete b).system.completions := by
  unfold World.complete
  simp only [hstage]
  exact List.mem_append_right _ (List.mem_singleton_self _)

theorem completeOrphaned_completes {result : BuildResult} {keep : Option Keep}
    (hstage : (w.builds b).stage = .released result keep a) :
    (a, .noSuchFileOrDirectory) ∈ (w.completeOrphaned b).system.completions := by
  unfold World.completeOrphaned
  simp only [hstage]
  exact List.mem_append_right _ (List.mem_singleton_self _)

/-- A build that is not over has been claimed. -/
theorem Ledger.lt_of_not_over (hl : Ledger w) (hb : (w.builds b).stage ≠ .over) :
    b < w.buildCount := by
  by_contra hge
  exact hb (hl.numbered b (Nat.le_of_not_lt hge))

theorem Fails.build_step (hs : Sound w) (hk : Erred w) (he : w.enabled e)
    (ha : (w.builds b).launch.attempt = a) (hlt : b < w.buildCount) {error : ErrorCode}
    {inputs : List Path} (hstage : (w.builds b).stage.outcome = some (.failed error inputs)) :
    Fails (w.step contentHash cached e) a := by
  have hon := @step_onward contentHash cached w e
  have ha' : ((w.step contentHash cached e).builds b).launch.attempt = a := by
    rw [hon.launch b hlt]
    exact ha
  have hgoes : ((w.step contentHash cached e).builds b).stage.outcome = some (.failed error inputs) →
      Fails (w.step contentHash cached e) a :=
    .build ha' (Nat.lt_of_lt_of_le hlt hon.buildCount)
  by_cases hown : e.build = some b
  swap
  · exact hgoes (by rw [step_others w e hown hlt]; exact hstage)
  have hreleases : ∀ {result keep orphaned}, e = .complete b →
      (w.builds b).stage = .settled result keep orphaned → Fails (w.step contentHash cached e) a := by
    intro result keep orphaned heq hs'
    subst heq
    rw [hs'] at hstage
    obtain rfl := Option.some.inj hstage
    have hcompleted := complete_completes hs'
    rw [ha] at hcompleted
    exact .completed hcompleted (hk b error inputs (by rw [hs']; rfl))
  have hstep := @Sound.stepped contentHash cached w b e hs he hown
  generalize ((w.step contentHash cached e).builds b).stage = stage at hstep hgoes
  cases hstep with
  | unwritten hs' =>
    rw [hs'] at hstage
    exact hgoes hstage
  | settled hs' =>
    obtain ⟨_, _, hs', _, _⟩ | hs' := hs'
    · rw [hs'] at hstage
      exact hgoes hstage
    · rw [hs'] at hstage
      exact hgoes hstage
  | completed hs' => exact hreleases rfl hs'
  | released hs' => exact hreleases rfl hs'
  | traced _ hs' | ran hs' | threw _ hs' | ended _ hs' | undeclared _ hs' | published _ hs'
  | written hs' | orphanCompleted hs' | begun hs' | stamped hs' | stored _ hs' =>
    rw [hs'] at hstage
    simp [Stage.outcome] at hstage

theorem Fails.orphan_step (hs : Sound w) (he : w.enabled e) (ha : w.Holds (.orphan b) a) :
    Fails (w.step contentHash cached e) a := by
  have ha' : (w.builds b).stage.orphan = some a := ha
  have hlt : b < w.buildCount := hs.ledger.lt_of_not_over fun hover => by
    rw [hover] at ha'
    simp [Stage.orphan] at ha'
  by_cases hown : e.build = some b
  swap
  · exact .orphan (b := b) (by rw [Holds, step_others w e hown hlt]; exact ha)
  have hgoes : ((w.step contentHash cached e).builds b).stage.orphan = some a →
      Fails (w.step contentHash cached e) a := fun h => .orphan (b := b) h
  have hstep := @Sound.stepped contentHash cached w b e hs he hown
  generalize ((w.step contentHash cached e).builds b).stage = stage at hstep hgoes
  cases hstep with
  | released hs' =>
    rw [hs'] at ha'
    exact hgoes ha'
  | orphanCompleted hs' =>
    rw [hs'] at ha'
    obtain rfl := Option.some.inj ha'
    exact .completed (completeOrphaned_completes hs') (by simp)
  | settled hs' =>
    obtain ⟨_, _, hs', _, _⟩ | hs' := hs'
    · rw [hs'] at ha'
      simp [Stage.orphan] at ha'
    · rw [hs'] at ha'
      simp [Stage.orphan] at ha'
  | traced _ hs' | ran hs' | threw _ hs' | ended _ hs' | undeclared _ hs' | published _ hs'
  | written hs' | unwritten hs' | completed hs' | begun hs' | stamped hs' | stored _ hs' =>
    rw [hs'] at ha'
    simp [Stage.orphan] at ha'

/-- An attempt that has failed, or is to, stays so. -/
theorem Fails.step (h : Fails w a) (hs : Sound w) (hk : Erred w) (he : w.enabled e) :
    Fails (w.step contentHash cached e) a := by
  cases h with
  | build ha hlt hstage => exact build_step hs hk he ha hlt hstage
  | orphan ha => exact orphan_step hs he ha
  | completed ha herror => exact .completed (completion_stays w e ha) herror

/-! ### Deliveries -/

/-- Whether what an open waits on, if on anything, is through with the output's content. -/
def Delivered (w : World) : Option AttemptId → Prop
  | none => True
  | some a => (a, .success) ∈ w.system.completions ∨
      ∃ b, (w.builds b).launch.attempt = a ∧ (w.builds b).stage.served = true

theorem Delivered.step {target : Option AttemptId} (h : w.Delivered target) (hs : Sound w)
    (he : w.enabled e) : (w.step contentHash cached e).Delivered target := by
  cases target with
  | none => trivial
  | some a =>
    obtain hmem | ⟨b, ha, hserved⟩ := h
    · exact .inl (completion_stays w e hmem)
    have hlt : b < w.buildCount := hs.ledger.lt_of_not_over fun hover => by
      rw [hover] at hserved
      simp [Stage.served] at hserved
    have ha' : ((w.step contentHash cached e).builds b).launch.attempt = a := by
      rw [(@step_onward contentHash cached w e).launch b hlt]
      exact ha
    have hgoes : ((w.step contentHash cached e).builds b).stage.served = true →
        (w.step contentHash cached e).Delivered (some a) := fun h => .inr ⟨b, ha', h⟩
    by_cases hown : e.build = some b
    swap
    · exact hgoes (by rw [step_others w e hown hlt]; exact hserved)
    have hreleases : ∀ {result keep orphaned}, e = .complete b →
        (w.builds b).stage = .settled result keep orphaned →
        (w.step contentHash cached e).Delivered (some a) := by
      intro result keep orphaned heq hs'
      subst heq
      rw [hs'] at hserved
      cases result with
      | failed => simp [Stage.served] at hserved
      | built bytes inputs =>
        have hcompleted := complete_completes hs'
        rw [ha] at hcompleted
        exact .inl hcompleted
    have hstep := @Sound.stepped contentHash cached w b e hs he hown
    generalize ((w.step contentHash cached e).builds b).stage = stage at hstep hgoes
    cases hstep with
    | @settled result keep hs' =>
      obtain ⟨_, _, hs', _, _⟩ | hs' := hs'
      · rw [hs'] at hserved
        simp [Stage.served] at hserved
      · rw [hs'] at hserved
        cases result with
        | built => exact hgoes rfl
        | failed => simp [Stage.served] at hserved
    | completed hs' => exact hreleases rfl hs'
    | released hs' => exact hreleases rfl hs'
    | traced _ hs' | ran hs' | threw _ hs' | ended _ hs' | undeclared _ hs' | published _ hs'
    | written hs' | unwritten hs' | orphanCompleted hs' | begun hs' | stamped hs' | stored _ hs' =>
      rw [hs'] at hserved
      simp [Stage.served] at hserved

/-! ### An open in wait -/

/-- How far what an open waits on, if on anything, has come, where the output had been invalidated
so often by the time it was asked for. -/
inductive Awaits (w : World) (output : Path) (n : Nat) : Option AttemptId → Prop
  | fresh (h : Renewed w output n) : Awaits w output n none
  | next {a : AttemptId} (ha : w.Holds (.next output) a) : Awaits w output n (some a)
  | building {b : BuildId} {a : AttemptId} (ha : (w.builds b).launch.attempt = a)
      (hout : (w.builds b).launch.output = output) (hsince : n ≤ (w.builds b).claimedAt)
      (hstage : (w.builds b).stage.unpublished = true ∨ (w.builds b).stage.writes = true) :
      Awaits w output n (some a)
  | delivered {a : AttemptId} (hd : w.Delivered (some a)) (h : Renewed w output n) :
      Awaits w output n (some a)
  | failed {a : AttemptId} (h : Fails w a) : Awaits w output n (some a)

theorem Awaits.next_step (hs : Sound w) (he : w.enabled e) (hn : n ≤ w.tree.invalidations o)
    (ha : w.Holds (.next o) a) : Awaits (w.step contentHash cached e) o n (some a) := by
  obtain hnext | ⟨b, rfl, hout⟩ := @Sound.next_step contentHash cached w o a e hs he ha
  · exact .next hnext
  · subst hout
    obtain ⟨_, _, _, _, hland⟩ := settle_landed he
    obtain horphan | ⟨c, hge, hlt, hout, _, hc⟩ := hland.hands_on ha
    · exact .failed (.orphan horphan)
    · obtain ⟨hclaimed, hat⟩ := @step_new contentHash cached w (.settle b) c hge hlt
      have houtput : ((w.step contentHash cached (.settle b)).builds c).launch.output =
          (w.builds b).launch.output := hout
      refine .building hc hout ?_ (.inl (by rw [hclaimed]; rfl))
      rw [hat, houtput]
      exact Nat.le_trans hn (invalidations_step w (.settle b) _)

/-- Nothing is served for an output that loses its rule before its build publishes. -/
theorem Held.files_none (hh : Held w) (ho : Orderly w) (hlayout : w.layout = none)
    (hc : w.tree.commands.find o = none) : w.tree.files o = none := by
  by_contra hfile
  obtain hd | hmem := hh.kept o hfile
  · rw [State.declared, hc] at hd
    simp at hd
  · rw [ho.layout ⟨_, hmem, rfl⟩] at hlayout
    simp at hlayout

/-- The build of an output under way is the only one. -/
theorem Sound.claimed_alone (hs : Sound w) (hun : (w.builds b).stage.unfinished = true)
    (hout : (w.builds b).launch.output = o) (hsince : n ≤ (w.builds b).claimedAt) :
    ∀ c, (w.builds c).stage.unfinished = true → (w.builds c).launch.output = o →
      n ≤ (w.builds c).claimedAt := by
  intro c hc hco
  rw [hs.ledger.alone c b hc hun (hco.trans hout.symm)]
  exact hsince

theorem Awaits.building_step (hs : Sound w) (ho : Orderly w) (hh : Held w)
    (he : w.enabled e) (hout : (w.builds b).launch.output = o) (hsince : n ≤ (w.builds b).claimedAt)
    (hstage : (w.builds b).stage.unpublished = true ∨ (w.builds b).stage.writes = true) :
    Awaits (w.step contentHash cached e) o n (some (w.builds b).launch.attempt) := by
  have hsound : Sound (w.step contentHash cached e) := hs.step he
  have hun : (w.builds b).stage.unfinished = true :=
    hstage.elim unfinished_of_unpublished unfinished_of_writes
  have hlt : b < w.buildCount := hs.ledger.lt_of_not_over fun hover => by
    rw [hover] at hun
    simp [Stage.unfinished] at hun
  have hon := @step_onward contentHash cached w e
  have ha' : ((w.step contentHash cached e).builds b).launch.attempt =
      (w.builds b).launch.attempt := by rw [hon.launch b hlt]
  have hout' : ((w.step contentHash cached e).builds b).launch.output = o := by
    rw [hon.launch b hlt]
    exact hout
  have hsince' : n ≤ ((w.step contentHash cached e).builds b).claimedAt := by
    rw [hon.claimedAt b hlt]
    exact hsince
  by_cases hown : e.build = some b
  swap
  · exact .building ha' hout' hsince' (by rw [step_others w e hown hlt]; exact hstage)
  have hstep := @Sound.stepped contentHash cached w b e hs he hown
  generalize hstage' : ((w.step contentHash cached e).builds b).stage = stage at hstep
  have hbuilding : stage.unpublished = true ∨ stage.writes = true →
      Awaits (w.step contentHash cached e) o n (some (w.builds b).launch.attempt) := fun h =>
    .building ha' hout' hsince' (by rw [hstage']; exact h)
  -- Through with its content, it is still the only build of the output.
  have hpublished : stage.served = true → stage.unfinished = true →
      (w.step contentHash cached e).tree.files o = none ∨
        (w.step contentHash cached e).ServedSince o n →
      Awaits (w.step contentHash cached e) o n (some (w.builds b).launch.attempt) :=
    fun hserved hun' h => .delivered (.inr ⟨b, ha', by rw [hstage']; exact hserved⟩)
      ⟨h, hsound.claimed_alone (by rw [hstage']; exact hun') hout' hsince'⟩
  cases hstep with
  | traced | ran | threw | ended => exact hbuilding (.inl rfl)
  | @undeclared bytes inputs builtAt hs' hc =>
    refine hpublished rfl rfl (.inl ?_)
    show (w.publish contentHash cached b builtAt).tree.files o = none
    rw [publish_undeclared builtAt hs' hc]
    exact hh.files_none ho he.1 (hout ▸ hc)
  | published | unwritten => exact hbuilding (.inr rfl)
  | @written bytes inputs builtAt keep hs' =>
    refine hpublished rfl rfl (.inr ⟨⟨bytes, builtAt⟩, .build b, ?_, ?_,
      Nat.lt_of_lt_of_le hlt hon.buildCount, hsince'⟩)
    · show (w.write b).tree.files o = _
      unfold World.write
      simp [hs', hout, State.writeFile]
    · show (w.write b).origin o = _
      unfold World.write
      simp [hs', hout]
  | @settled result keep hs' =>
    obtain ⟨error, inputs, hs', _, rfl⟩ | hs' := hs'
    · exact .failed (.build ha' (Nat.lt_of_lt_of_le hlt hon.buildCount) (by rw [hstage']; rfl))
    · rw [hs'] at hstage
      simp [Stage.unpublished, Stage.writes] at hstage
  | completed hs' | released hs' | orphanCompleted hs' | begun hs' | stamped hs' | stored _ hs' =>
    rw [hs'] at hun
    simp [Stage.unfinished] at hun

/-- Whether a step leaves an output's file from what an open waits on, if on anything, with no
placeholder in its place. -/
def Spares (output : Path) (target : Option AttemptId) (w : World) (e : Event) : Prop :=
  ∀ now ok todo, e = .resume now ok → w.todo = .writePlaceholder output :: todo →
    ¬w.Delivered target

theorem Awaits.step {target : Option AttemptId} (h : Awaits w o n target) (hs : Sound w)
    (ho : Orderly w) (hh : Held w) (hk : Erred w) (hn : n ≤ w.tree.invalidations o)
    (he : w.enabled e) (hok : Spares o target w e) :
    Awaits (w.step contentHash cached e) o n target := by
  cases h with
  | fresh h =>
    exact .fresh (h.step hs he hn fun now ok todo heq htodo => hok now ok todo heq htodo trivial)
  | next ha => exact next_step hs he hn ha
  | building ha hout hsince hstage => exact ha ▸ building_step hs ho hh he hout hsince hstage
  | delivered hd h =>
    exact .delivered (hd.step hs he)
      (h.step hs he hn fun now ok todo heq htodo => hok now ok todo heq htodo hd)
  | failed h => exact .failed (h.step hs hk he)

/-- What an open finds when it asks for an output that has a rule. -/
theorem Upheld.asked (h : Upheld w o) (hs : Sound w) (hd : w.tree.declared o = true) :
    Awaits w o (w.tree.invalidations o) (w.tree.bringUpToDate o).1.target ∨
      Awaits (w.bringUpToDate o) o (w.tree.invalidations o) (w.tree.bringUpToDate o).1.target := by
  have hcurrent : ∀ {command}, w.tree.commands.find o = some command →
      (w.tree.opened o command).stale o = false → ¬OutOfDate w.tree o := fun hc hfresh hdate => by
    have hstale := OpenedAs.stale_false (.inr ⟨_, hc, rfl⟩) hfresh
    rw [hdate hd] at hstale
    simp at hstale
  have hworld : w.bringUpToDate o = (w.enter (w.tree.bringUpToDate o).2).addBuild
      (w.tree.bringUpToDate o).1.launch none := rfl
  have hcases := w.tree.broughtUpToDate o
  rw [hworld]
  generalize w.tree.bringUpToDate o = r at hcases ⊢
  cases hcases with
  | undeclared hc =>
    rw [State.declared, hc] at hd
    simp at hd
  | @joined command hc hf hfresh =>
    left
    have hdate : ¬OutOfDate w.tree o := fun hdate => by
      rw [hdate hd] at hfresh
      simp at hfresh
    obtain ⟨b, hun, hout, hattempt, _⟩ := hs.ledger.under_way hf
    have hsince := (h.claimed b hun hout).resolve_left hdate
    show Awaits w o _ ((w.tree.attempts o).getD {}).current
    rw [hattempt]
    by_cases hstage : (w.builds b).stage.unpublished = true ∨ (w.builds b).stage.writes = true
    · exact .building rfl hout hsince hstage
    obtain ⟨hpublished, hwritten⟩ : (w.builds b).stage.unpublished = false ∧
        (w.builds b).stage.writes = false := by simpa using hstage
    obtain ⟨hfile, horigin⟩ := (h.written b hun hout hpublished hwritten).resolve_left hdate
    obtain ⟨file, hfile⟩ := Option.ne_none_iff_exists'.mp hfile
    have hlt : b < w.buildCount := hs.ledger.lt_of_not_over fun hover => by
      rw [hover] at hun
      simp [Stage.unfinished] at hun
    cases hs' : (w.builds b).stage with
    | published result keep =>
      cases result with
      | built bytes inputs =>
        exact .delivered (.inr ⟨b, rfl, by rw [hs']; rfl⟩)
          ⟨.inr ⟨file, _, hfile, horigin, hlt, hsince⟩, hs.claimed_alone hun hout hsince⟩
      | failed error inputs => exact .failed (.build rfl hlt (by rw [hs']; rfl))
    | _ => simp [hs', Stage.unpublished, Stage.writes, Stage.unfinished] at hpublished hwritten hun
  | next hc hf hstale hn => exact .inl (.next hn)
  | @minted command hc hf hstale hn =>
    right
    refine .next ?_
    show ((((w.enter ((w.tree.opened o command).minted o))).tree.attempts o).getD {}).next = _
    have htree : (w.enter ((w.tree.opened o command).minted o)).tree =
        (w.tree.opened o command).minted o := by
      unfold enter
      split <;> rfl
    rw [htree, State.minted]
    dsimp only
    rw [Function.update_self]
    rfl
  | @claimed command hc hf hstale =>
    right
    let v : World := { w with tree := w.tree.opened o command }
    have hclaim : (w.enter ((w.tree.opened o command).claimBuild o)).addBuild
        (some ((w.tree.opened o command).launch o)) none = v.claim o none := by
      rw [enter_of_count (t := w.tree.opened o command) rfl]
      rfl
    have hself : (v.claim o none).builds v.buildCount =
        { launch := v.tree.launch o, behind := none, claimedAt := v.tree.invalidations o } := by
      rw [claim_builds, Function.update_self]
    rw [hclaim]
    refine .building (b := v.buildCount) ?_ (claim_output v o none) ?_ (.inl ?_)
    · rw [hself]
      exact w.tree.opened_claimedAttempt o command
    · rw [hself]
      exact Nat.le_refl _
    · rw [hself]
      rfl
  | fresh hc hf hfresh =>
    left
    have hserved := (h.idle hf).resolve_left (hcurrent hc hfresh)
    refine .fresh ⟨.inr hserved, fun b hun hout => ?_⟩
    rw [(hs.ledger.flight o).mpr ⟨b, hun, hout⟩] at hf
    simp at hf

theorem Awaits.asked (hs : Sound w) (ho : Orderly w) (hh : Held w) (hk : Erred w)
    (hup : Upheld w o) (hd : w.tree.declared o = true) :
    Awaits (w.step contentHash cached (.bringUpToDate o)) o (w.tree.invalidations o)
      (w.tree.bringUpToDate o).1.target := by
  obtain hbefore | hafter := hup.asked hs hd
  · exact hbefore.step hs ho hh hk (Nat.le_refl _) trivial nofun
  · exact hafter

theorem Awaits.run {s t : World × Provenance} {target : Option AttemptId}
    (hr : (machine contentHash cached).Reachable (fun _ e => e.Errs) s.1)
    (hn : n ≤ s.1.tree.invalidations o) (h : Awaits s.1 o n target)
    (hrun : (provenances contentHash cached).Reaches (fun v e => e.Errs ∧ Spares o target v.1 e) s t) :
    (machine contentHash cached).Reachable (fun _ e => e.Errs) t.1 ∧ Awaits t.1 o n target := by
  have hstill : (machine contentHash cached).Reachable (fun _ e => e.Errs) t.1 ∧
      n ≤ t.1.tree.invalidations o ∧ Awaits t.1 o n target := by
    induction hrun with
    | refl => exact ⟨hr, hn, h⟩
    | tail _ hnext ih =>
      obtain ⟨hr, hn, h⟩ := ih
      obtain ⟨e, he, hok, rfl⟩ := hnext
      exact ⟨hr.next he hok.1, Nat.le_trans hn (invalidations_step _ e o),
        h.step (sound hr) (orderly hr) (held hr) (erred hr) hn he hok.2⟩
  exact ⟨hstill.1, hstill.2.2⟩

/-- Whether an open returns without an error: it waits on nothing, or was told of a success. -/
def Returned (w : World) : Option AttemptId → Prop
  | none => True
  | some a => ∃ i, w.system.asked i = a ∧ (i, .success) ∈ w.system.answers

/-- An open that returns finds what has been made since, if it finds anything. -/
theorem Awaits.renewed {target : Option AttemptId} (h : Awaits w o n target) (hs : Sound w)
    (hreturned : w.Returned target) : Renewed w o n := by
  cases target with
  | none =>
    cases h with
    | fresh h => exact h
  | some a =>
    obtain ⟨i, hasked, hanswer⟩ := hreturned
    have hcompletion : (a, .success) ∈ w.system.completions := by
      obtain hcanceled | hcycle | hmem := hs.driven.sound.result (i, .success) hanswer
      · simp [canceled] at hcanceled
      · simp [dependencyCycle] at hcycle
      · rw [hasked] at hmem
        exact hmem
    have hcompleted : a ∈ w.completed := List.mem_map_of_mem (f := Prod.fst) hcompletion
    have hheld : ∀ {p}, ¬w.Holds p a := fun hp => (hs.ledger.pending _ a hp).1 hcompleted
    cases h with
    | next ha => exact absurd ha hheld
    | @building b _ ha _ _ hstage =>
      refine absurd (show w.Holds (.build b) a from ⟨?_, ha⟩) hheld
      cases hs' : (w.builds b).stage <;>
        simp_all [Stage.unpublished, Stage.writes, Stage.unreleased, Stage.unfinished]
    | delivered _ h => exact h
    | failed h =>
      cases h with
      | @build b error inputs ha _ hstage =>
        refine absurd (show w.Holds (.build b) a from ⟨?_, ha⟩) hheld
        cases hs' : (w.builds b).stage <;>
          simp_all [Stage.outcome, Stage.unreleased, Stage.unfinished]
      | orphan ha => exact absurd ha hheld
      | @completed error ha herror =>
        have heq := List.inj_on_of_nodup_map hs.ledger.nodup hcompletion ha rfl
        exact absurd (Prod.mk.inj heq).2.symm herror

/-! ### What opens return -/

/-- Whether a file is what a restored record holds, from before any invalidation of its output, or
what a build of the output made that was claimed since so many of them. -/
def Fresh (contentHash : Bytes → Hash) (s : World × Provenance) (output : Path) (n : Nat)
    (file : File) : Prop :=
  (s.1.origin output = some .restored ∧ n = 0 ∧ ∃ record ∈ s.2.before,
    record.command.output = output ∧ contentHash file.bytes = record.hash) ∨
  ∃ b < s.1.buildCount, s.1.origin output = some (.build b) ∧
    (s.1.builds b).launch.output = output ∧ n ≤ (s.1.builds b).claimedAt ∧
      s.2.made b = some file.bytes

theorem ServedSince.fresh {s : World × Provenance} (ha : Attested contentHash s)
    (h : s.1.ServedSince o n) : ∃ file, s.1.tree.files o = some file ∧ Fresh contentHash s o n file := by
  obtain ⟨file, origin, hfile, horigin, hsince⟩ := h
  obtain ⟨origin', horigin', hmade⟩ := ha.content o file hfile
  obtain rfl := Option.some.inj (horigin.symm.trans horigin')
  refine ⟨file, hfile, ?_⟩
  cases origin with
  | placeholder => exact absurd hsince id
  | restored => exact .inl ⟨horigin, hsince, hmade⟩
  | build b => exact .inr ⟨b, hsince.1, horigin, hmade.1, hsince.2, hmade.2⟩

/-- An output with a rule that is neither stale nor in flight is served with content made since it
was last invalidated. Where no failure is reported as a success, an open that returns, and finds a
file, finds one made since the last invalidation before it asked, if no placeholder is put there
once what it waits on is through with the content. -/
theorem opens_fresh {s : World × Provenance}
    (h : (provenances contentHash cached).Reachable (fun _ _ => True) s) :
    (∀ o, s.1.tree.declared o = true → s.1.tree.stale o = false → s.1.tree.inFlight o = false →
      ∃ file, s.1.tree.files o = some file ∧
        Fresh contentHash s o (s.1.tree.invalidations o) file) ∧
    ((provenances contentHash cached).Reachable (fun _ e => e.Errs) s →
      ∀ o, s.1.tree.declared o = true → ∀ t,
        (provenances contentHash cached).Reaches
          (fun v e => e.Errs ∧ Spares o (s.1.tree.bringUpToDate o).1.target v.1 e)
          ((provenances contentHash cached).step s (.bringUpToDate o)) t →
        t.1.Returned (s.1.tree.bringUpToDate o).1.target → ∀ file, t.1.tree.files o = some file →
          Fresh contentHash t o (s.1.tree.invalidations o) file) := by
  have hreach : (machine contentHash cached).Reachable (fun _ _ => True) s.1 := h.unnoted
  refine ⟨fun o hd hstale hflight => ?_, fun herrs o hd t hrun hreturned file hfile => ?_⟩
  · have hcurrent : ¬OutOfDate s.1.tree o := fun hdate => by
      rw [hdate hd] at hstale
      simp at hstale
    exact (((upheld hreach o).idle hflight).resolve_left hcurrent).fresh (attested h)
  · have hfirst : (machine contentHash cached).Reachable (fun _ e => e.Errs) s.1 := by
      refine Machine.Reachable.without_note (m := machine contentHash cached) ?_ herrs
      exact fun _ _ herrs => herrs
    have hnext : (machine contentHash cached).Reachable (fun _ e => e.Errs)
        (s.1.step contentHash cached (.bringUpToDate o)) :=
      Machine.Reachable.next (e := Event.bringUpToDate o) hfirst trivial trivial
    have hasked := @Awaits.asked contentHash cached s.1 o (sound hreach) (orderly hreach)
      (held hreach) (erred hfirst) (upheld hreach o) hd
    have hcounted := @invalidations_step contentHash cached s.1 (.bringUpToDate o) o
    obtain ⟨hr, hawaits⟩ := Awaits.run (s := (provenances contentHash cached).step s
      (.bringUpToDate o)) hnext hcounted hasked hrun
    have hrenewed := hawaits.renewed (sound hr) hreturned
    have hreached : (provenances contentHash cached).Reachable (fun _ _ => True) t :=
      (Machine.Reachable.next (e := Event.bringUpToDate o) h trivial trivial).trans
        (hrun.weaken fun _ _ _ => trivial)
    obtain hnone | hserved := hrenewed.served
    · rw [hnone] at hfile
      simp at hfile
    · obtain ⟨file', hfile', hfresh⟩ := hserved.fresh (attested hreached)
      rw [Option.some.inj (hfile.symm.trans hfile')]
      exact hfresh

/-- Whether a step is seen to meet `Errs`. -/
def errs : Event → Bool
  | .launch _ (.threw error) | .endWork _ (.failed error _) => decide (error ≠ .success)
  | _ => true

theorem errs_sound (h : errs e = true) : e.Errs := by
  cases e with
  | launch b start =>
    cases start with
    | threw error =>
      show error ≠ .success
      exact of_decide_eq_true h
    | _ => trivial
  | endWork b result =>
    cases result with
    | failed error inputs =>
      show error ≠ .success
      exact of_decide_eq_true h
    | built => trivial
  | _ => trivial

/-- Whether a step is seen to be none of the callback's. -/
def abides : Event → Bool
  | .resume .. => false
  | _ => true

theorem abides_spares {target : Option AttemptId} (h : abides e = true) : Spares o target w e := by
  intro now ok todo heq
  subst heq
  simp [abides] at h

/-- Where nobody waits yet, an open may wait on any attempt there is. -/
theorem Sound.wait_enabled (hs : Sound w) (hwaits : w.system.coord.waits = [])
    (ha : a < w.system.coord.attemptCount) :
    w.enabled (.coordinator (.wait (fun _ => []) (fun _ => []) a none false)) := by
  have hnone : ∀ c d, ((w.system.coord.attempts c).edgesOut d).isSome = true → False := by
    intro c d hedge
    rw [hs.driven.sound.inv.links.edges, hwaits] at hedge
    simp [Coordinator.entry] at hedge
  refine ⟨trivial, ha, fun c d => iff_of_false List.not_mem_nil (hnone c d), fun c d =>
    iff_of_false List.not_mem_nil ?_⟩
  rw [Coordinator.State.enter_attempts]
  exact hnone c d

/-- The one output is built. -/
def buildsA : List Event :=
  [.launch 0 .ran, .coordinator (.onPermit 0), .coordinator (.finish 0), .endWork 0 (.built [1] []),
    .publish 0 5, .write 0, .settle 0]

/-- An open waits on the build just asked for, which goes on as it is given here. -/
def waitsA (es : List Event) : List Event :=
  .coordinator (.wait (fun _ => []) (fun _ => []) 0 none false) :: (es ++ [.complete 0])

theorem waitsA_reaches (es : List Event) (check : World × Provenance → Event → Bool)
    {ok : World × Provenance → Event → Prop} (hcheck : ∀ s e, check s e = true → ok s e)
    (hwait : ∀ s a, ok s (.coordinator (.wait (fun _ => []) (fun _ => []) a none false)))
    (h : allFire (fun _ => []) true noteProvenance check
      ((provenances (fun _ => []) true).runs (keepsOne, { before := [] })
        [.bringUpToDate [['a']], .coordinator (.wait (fun _ => []) (fun _ => []) 0 none false)])
      (es ++ [.complete 0]) = true) :
    (provenances (fun _ => []) true).Reaches ok
      ((provenances (fun _ => []) true).step (keepsOne, { before := [] }) (.bringUpToDate [['a']]))
      ((provenances (fun _ => []) true).runs (keepsOne, { before := [] })
        (.bringUpToDate [['a']] :: waitsA es)) := by
  have hasked : (provenances (fun _ => []) true).Reachable (fun _ _ => True)
      ((provenances (fun _ => []) true).step (keepsOne, { before := [] })
        (.bringUpToDate [['a']])) :=
    Machine.Reachable.next (e := Event.bringUpToDate [['a']]) keepsOne_reachable trivial trivial
  have henabled := (sound hasked.unnoted).wait_enabled (a := 0) (by decide) (by decide)
  have hwaited := Machine.Reachable.next
    (e := Event.coordinator (.wait (fun _ => []) (fun _ => []) 0 none false)) hasked henabled trivial
  exact .runs ⟨henabled, hwait _ 0, fires_of_allFire hwaited (fun s e _ => hcheck s e) h⟩

theorem opens_fresh_buildsA :
    Fresh (fun _ => []) ((provenances (fun _ => []) true).runs (keepsOne, { before := [] })
      (.bringUpToDate [['a']] :: waitsA buildsA)) [['a']] 0 ⟨[1], 5⟩ := by
  refine (opens_fresh keepsOne_reachable).2 keepsOne_reachable [['a']] (by decide +kernel) _
    (waitsA_reaches buildsA (fun _ e => errs e && abides e) (fun _ _ h => ?_)
      (fun _ _ => ⟨trivial, abides_spares rfl⟩) (by decide +kernel))
    ⟨0, by decide +kernel, by decide +kernel⟩ _ (by decide +kernel)
  rw [Bool.and_eq_true] at h
  exact ⟨errs_sound h.1, abides_spares h.2⟩

/-- The manifest loses the one rule and is given it back. -/
def declaresAgain : List Event :=
  [.sourceChange false [["build.makebelieve".toList]] (some {})] ++
    List.replicate 10 (.resume 6 true) ++
    [.sourceChange false [["build.makebelieve".toList]]
      (some (.only { output := [['a']], text := ['1'] })), .resume 7 true, .resume 7 true]

/-- An open that waits for a build of an output whose rule goes and comes back returns without an
error, and finds the placeholder. -/
theorem opened_placeholder :
    ∃ s t, (provenances (fun _ => []) true).Reachable (fun _ e => e.Errs) s ∧
      s.1.tree.commands.find [['a']] = some { output := [['a']], text := ['1'] } ∧
      (provenances (fun _ => []) true).Reaches (fun _ e => e.Errs)
        ((provenances (fun _ => []) true).step s (.bringUpToDate [['a']])) t ∧
      t.1.Returned (s.1.tree.bringUpToDate [['a']]).1.target ∧
      t.1.tree.files [['a']] = some (State.placeholder 7) ∧
      ∀ n, ¬Fresh (fun _ => []) t [['a']] n (State.placeholder 7) := by
  have hplaceholder : ((provenances (fun _ => []) true).runs (keepsOne, { before := [] })
      (.bringUpToDate [['a']] :: waitsA (buildsA ++ declaresAgain))).1.origin [['a']] =
        some .placeholder := by decide +kernel
  refine ⟨_, _, keepsOne_reachable, by decide +kernel,
    waitsA_reaches (buildsA ++ declaresAgain) (fun _ e => errs e) (fun _ _ => errs_sound) (fun _ _ => trivial) (by decide +kernel),
    ⟨0, by decide +kernel, by decide +kernel⟩, by decide +kernel, fun n h => ?_⟩
  obtain ⟨horigin, _⟩ | ⟨b, _, horigin, _⟩ := h
  · rw [hplaceholder] at horigin
    simp at horigin
  · rw [hplaceholder] at horigin
    simp at horigin

end World

end MakeBelieve.Tree
