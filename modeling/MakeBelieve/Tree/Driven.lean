import MakeBelieve.Tree.Builds

namespace MakeBelieve.Tree

open Coordinator (AttemptId System)
open Library

namespace World

variable {contentHash : Bytes → Hash} {cached : Bool}
variable {w w' : World} {b c : BuildId} {output : Path} {t : State} {e : Coordinator.Event}

/-- How the coordinator stands to the tree that drives it: an attempt claimed but not launched, or
kept as a next one, has not started, and one that is running is a build's that is at work. -/
structure Driven (w : World) : Prop where
  sound : System.Sound w.system
  outputs : ∀ a < w.tree.attemptCount,
    (w.system.coord.attempts a).output = w.tree.attemptOutput a
  claimed : ∀ b, (w.builds b).stage = .claimed →
    (w.system.coord.attempts (w.builds b).launch.attempt).phase = .pending
  next : ∀ o a, ((w.tree.attempts o).getD {}).next = some a →
    (w.system.coord.attempts a).phase = .pending
  running : ∀ a, (w.system.coord.attempts a).phase = .running →
    ∃ b, (w.builds b).stage = .working ∧ (w.builds b).launch.attempt = a

/-- The coordinator is left alone, and no build is claimed. -/
theorem Driven.still (h : Driven w) (hsys : w'.system = w.system)
    (hcount : w'.tree.attemptCount = w.tree.attemptCount)
    (hout : w'.tree.attemptOutput = w.tree.attemptOutput)
    (hnext : ∀ o a, ((w'.tree.attempts o).getD {}).next = some a →
      ((w.tree.attempts o).getD {}).next = some a)
    (hclaimed : ∀ b, (w'.builds b).stage = .claimed →
      (w.builds b).stage = .claimed ∧ (w'.builds b).launch = (w.builds b).launch)
    (hworking : ∀ b, (w.builds b).stage = .working →
      (w.system.coord.attempts (w.builds b).launch.attempt).phase = .running →
      (w'.builds b).stage = .working ∧ (w'.builds b).launch = (w.builds b).launch) : Driven w' where
  sound := hsys ▸ h.sound
  outputs a ha := by
    rw [hsys, hout]
    exact h.outputs a (hcount ▸ ha)
  claimed b hb := by
    obtain ⟨hold, hlaunch⟩ := hclaimed b hb
    rw [hsys, hlaunch]
    exact h.claimed b hold
  next o a ha := by
    rw [hsys]
    exact h.next o a (hnext o a ha)
  running a ha := by
    rw [hsys] at ha
    obtain ⟨b, hb, rfl⟩ := h.running a ha
    obtain ⟨hw, hlaunch⟩ := hworking b hb ha
    exact ⟨b, hw, by rw [hlaunch]⟩

/-- The coordinator is asked for something other than an attempt. -/
theorem Driven.fired (h : Driven w) (hl : Ledger w) (he : w.system.enabled e)
    (hsys : w'.system = w.system.step e) (htree : w'.tree = w.tree)
    (hclaimed : ∀ b, (w'.builds b).stage = .claimed → (w.builds b).stage = .claimed ∧
      (w'.builds b).launch = (w.builds b).launch ∧
      e.phase (w.builds b).launch.attempt .pending = .pending)
    (hnext : ∀ o a, ((w.tree.attempts o).getD {}).next = some a →
      e.phase a .pending = .pending)
    (hrunning : ∀ a, e.phase a (w.system.coord.attempts a).phase = .running →
      ∃ b, (w'.builds b).stage = .working ∧ (w'.builds b).launch.attempt = a) : Driven w' where
  sound := hsys ▸ h.sound.step he
  outputs a ha := by
    rw [htree] at ha ⊢
    rw [hsys, h.sound.output_step he (hl.count ▸ ha)]
    exact h.outputs a ha
  claimed b hb := by
    obtain ⟨hold, hlaunch, hphase⟩ := hclaimed b hb
    rw [hsys, hlaunch, h.sound.phase_step he, h.claimed b hold]
    exact hphase
  next o a ha := by
    rw [htree] at ha
    rw [hsys, h.sound.phase_step he, h.next o a ha]
    exact hnext o a ha
  running a ha := by
    rw [hsys, h.sound.phase_step he] at ha
    exact hrunning a ha

/-- What the coordinator has of an attempt made at the end of the line. -/
theorem Driven.created (h : Driven w) (hl : Ledger w) {predecessor : Option AttemptId}
    (he : w.system.enabled (.createAttempt output predecessor)) :
    System.Sound (w.system.step (.createAttempt output predecessor)) ∧
    (∀ a, ((w.system.step (.createAttempt output predecessor)).coord.attempts a).phase =
      (w.system.coord.attempts a).phase) ∧
    (w.system.coord.attempts w.tree.attemptCount).phase = .pending ∧
    ((w.system.step (.createAttempt output predecessor)).coord.attempts
      w.tree.attemptCount).output = output ∧
    ∀ a < w.tree.attemptCount,
      ((w.system.step (.createAttempt output predecessor)).coord.attempts a).output =
        w.tree.attemptOutput a := by
  refine ⟨h.sound.step he, h.sound.phase_step he,
    h.sound.inv.inRange.freshAttempt _ (Nat.le_of_eq hl.count), ?_, fun a ha => ?_⟩
  · rw [← hl.count]
    exact System.createAttempt_output ..
  · rw [h.sound.output_step he (hl.count ▸ ha)]
    exact h.outputs a ha

theorem Driven.claim (h : Driven w) (hl : Ledger w) (output : Path) (behind : Option BuildId) :
    Driven (w.claim output behind) := by
  let n := w.buildCount
  have hover : (w.builds n).stage = .over := hl.numbered n (Nat.le_refl _)
  have hbn : (w.claim output behind).builds n =
      { launch := w.tree.launch output, behind
        claimedAt := w.tree.invalidations output } := by
    rw [claim_builds]
    exact Function.update_self ..
  have hbo : ∀ b, b ≠ n → (w.claim output behind).builds b = w.builds b := fun b hb => by
    rw [claim_builds]
    exact Function.update_of_ne hb ..
  have hworking : ∀ b, (w.builds b).stage = .working →
      (w.claim output behind).builds b = w.builds b := by
    refine fun b hb => hbo b ?_
    rintro rfl
    rw [hover] at hb
    simp at hb
  have hnext : ∀ o a, (((w.tree.claimBuild output).attempts o).getD {}).next = some a →
      ((w.tree.attempts o).getD {}).next = some a := by
    intro o a ha
    rw [State.claimBuild_attempts, Function.update_apply] at ha
    split at ha
    · simp at ha
    · exact ha
  obtain ⟨hsome, hsame, hout⟩ | ⟨hnone, hnew, hmade, hout⟩ := claimBuild_counts w.tree output
  · have hsys : (w.claim output behind).system = w.system := by
      show (w.enter (w.tree.claimBuild output)).system = _
      rw [enter_same hsame]
    refine ⟨hsys ▸ h.sound, fun a ha => ?_, fun b hb => ?_, fun o a ha => ?_, fun a ha => ?_⟩
    · rw [hsys, claim_tree, hout]
      rw [claim_tree, hsame] at ha
      exact h.outputs a ha
    · rw [hsys]
      by_cases hbn' : b = n
      · rw [hbn', hbn]
        exact h.next output _ hsome
      · rw [hbo b hbn'] at hb ⊢
        exact h.claimed b hb
    · rw [hsys]
      exact h.next o a (hnext o a ha)
    · rw [hsys] at ha
      obtain ⟨b, hb, rfl⟩ := h.running a ha
      exact ⟨b, by rw [hworking b hb]; exact hb, by rw [hworking b hb]⟩
  · have hpred : (w.tree.claimBuild output).attemptPredecessor w.tree.attemptCount = none := by
      unfold State.claimBuild
      dsimp only
      rw [hnone]
      exact Function.update_self ..
    have hsys : (w.claim output behind).system = w.system.step (.createAttempt output none) := by
      show (w.enter (w.tree.claimBuild output)).system = _
      rw [enter_made hmade, hpred, hout, Function.update_self]
    obtain ⟨hsound, hphase, hfresh, hself, hothers⟩ :=
      @Driven.created w output h hl none (fun _ hp => by simp at hp)
    refine ⟨hsys ▸ hsound, fun a ha => ?_, fun b hb => ?_, fun o a ha => ?_, fun a ha => ?_⟩
    · rw [hsys, claim_tree, hout, Function.update_apply]
      rw [claim_tree, hmade] at ha
      split
      · next heq => rw [heq, hself]
      · next hne => exact hothers a (Nat.lt_of_le_of_ne (Nat.lt_succ_iff.mp ha) hne)
    · rw [hsys, hphase]
      by_cases hbn' : b = n
      · rw [hbn', hbn]
        show (w.system.coord.attempts (w.tree.claimedAttempt output)).phase = _
        rw [hnew]
        exact hfresh
      · rw [hbo b hbn'] at hb ⊢
        exact h.claimed b hb
    · rw [hsys, hphase]
      exact h.next o a (hnext o a ha)
    · rw [hsys, hphase] at ha
      obtain ⟨b, hb, rfl⟩ := h.running a ha
      exact ⟨b, by rw [hworking b hb]; exact hb, by rw [hworking b hb]⟩

/-- The attempt at an output in flight is that of a build claimed but unfinished. -/
theorem Ledger.under_way (hl : Ledger w) (hf : w.tree.inFlight output = true) :
    ∃ b, (w.builds b).stage.unfinished = true ∧ (w.builds b).launch.output = output ∧
      ((w.tree.attempts output).getD {}).current = some (w.builds b).launch.attempt ∧
      (w.builds b).launch.attempt < w.tree.attemptCount := by
  obtain ⟨b, hb, rfl⟩ := (hl.flight output).mp hf
  obtain ⟨next, hnext⟩ := hl.current b hb
  have hheld : w.Holds (.build b) (w.builds b).launch.attempt := by
    refine ⟨?_, rfl⟩
    cases hs : (w.builds b).stage <;> simp_all [Stage.unreleased, Stage.unfinished]
  exact ⟨b, hb, rfl, by rw [hnext]; rfl, (hl.pending _ _ hheld).2⟩

theorem Driven.minted (h : Driven w) (hl : Ledger w) (hf : w.tree.inFlight output = true) :
    Driven (w.enter (w.tree.minted output)) := by
  let a := w.tree.attemptCount
  let predecessor := ((w.tree.attempts output).getD {}).current
  have heq : w.enter (w.tree.minted output) = { w with
      tree := w.tree.minted output
      system := w.system.step (.createAttempt output predecessor) } := by
    rw [enter_made rfl]
    have hout : (w.tree.minted output).attemptOutput a = output := Function.update_self ..
    have hpred : (w.tree.minted output).attemptPredecessor a = predecessor :=
      Function.update_self ..
    rw [hout, hpred]
  rw [heq]
  have he : w.system.enabled (.createAttempt output predecessor) := by
    intro p hp
    obtain ⟨b, _, _, hcurrent, hlt⟩ := hl.under_way hf
    have heq := Option.some.inj (hp.symm.trans hcurrent)
    rw [heq, hl.count]
    exact hlt
  obtain ⟨hsound, hphase, hfresh, hself, hothers⟩ := h.created hl he
  refine ⟨hsound, fun x hx => ?_, fun b hb => ?_, fun o x hx => ?_, fun x hx => ?_⟩
  · show _ = Function.update w.tree.attemptOutput a output x
    rw [Function.update_apply]
    split
    · next heq => rw [heq]; exact hself
    · next hne => exact hothers x (Nat.lt_of_le_of_ne (Nat.lt_succ_iff.mp hx) hne)
  · exact (hphase _).trans (h.claimed b hb)
  · have hx' : ((Function.update w.tree.attempts output
        (some { (w.tree.attempts output).getD {} with next := some a }) o).getD {}).next =
        some x := hx
    rw [Function.update_apply] at hx'
    refine (hphase x).trans ?_
    split at hx'
    · rw [← Option.some.inj hx']
      exact hfresh
    · exact h.next o x hx'
  · exact h.running x ((hphase x).symm.trans hx)

theorem Driven.withTree (h : Driven w) (ht : SameTree w.tree t) :
    Driven ({ w with tree := t } : World) :=
  h.still rfl ht.attemptCount ht.attemptOutput (fun o _ ha => (ht.next o).symm.trans ha)
    (fun _ hb => ⟨hb, rfl⟩) fun _ hb _ => ⟨hb, rfl⟩

theorem Driven.brought (h : Driven w) (hl : Ledger w) (hb : Brought w output w') : Driven w' := by
  cases hb with
  | none ht => exact h.withTree ht.same
  | minted ht hf => exact (h.withTree ht.same).minted (hl.withTree ht.same) hf
  | claimed ht => exact (h.withTree ht.same).claim (hl.withTree ht.same) output none

/-- One build is taken on, past being claimed and not from its work unless that is over. -/
theorem Driven.setStage (h : Driven w) {stage : Stage} (hc : stage ≠ .claimed)
    (hw : (w.builds b).stage = .working →
      (w.system.coord.attempts (w.builds b).launch.attempt).phase ≠ .running) :
    Driven (w.setStage b stage) := by
  have hbo : ∀ c, c ≠ b → (w.setStage b stage).builds c = w.builds c := fun c hne =>
    Function.update_of_ne hne ..
  have hbb : (w.setStage b stage).builds b = { w.builds b with stage } := Function.update_self ..
  refine h.still rfl rfl rfl (fun _ _ => id) (fun c hclaimed => ?_) fun c hworking hrun => ?_
  · by_cases hcb : c = b
    · rw [hcb, hbb] at hclaimed
      exact absurd hclaimed hc
    · rw [hbo c hcb] at hclaimed ⊢
      exact ⟨hclaimed, rfl⟩
  · by_cases hcb : c = b
    · rw [hcb] at hworking hrun
      exact absurd hrun (hw hworking)
    · rw [hbo c hcb]
      exact ⟨hworking, rfl⟩

theorem Driven.landed (h : Driven w) (hl : Ledger w) {result : BuildResult} {keep : Option Keep}
    (hb : (w.builds b).stage.unfinished = true) (hnot : (w.builds b).stage ≠ .working)
    (hland : Landed w b result keep w') : Driven w' := by
  have hset : ∀ orphaned, Driven (w.setStage b (.settled result keep orphaned)) := fun _ =>
    h.setStage (by simp) fun hw => absurd hw hnot
  have hout := w.tree.outcome_only (w.builds b).launch.output result
  unfold State.OnlyDepends at hout
  have houtcome : ∀ lastResult, Driven { w.setStage b (.settled result keep none) with
      tree := w.tree.outcome (w.builds b).launch.output result, lastResult } := by
    intro lastResult
    refine (hset none).still rfl ?_ ?_ (fun o x ha => ?_) (fun _ hb => ⟨hb, rfl⟩)
      fun _ hb _ => ⟨hb, rfl⟩
    · show (w.tree.outcome _ result).attemptCount = w.tree.attemptCount
      rw [hout]
    · show (w.tree.outcome _ result).attemptOutput = w.tree.attemptOutput
      rw [hout]
    · have ha' : (((w.tree.outcome (w.builds b).launch.output result).attempts o).getD {}).next =
        some x := ha
      rw [hout] at ha'
      exact ha'
  cases hland with
  | removed =>
    have hl := w.tree.landed_only (w.builds b).launch.output result
    unfold State.OnlyDepends at hl
    refine (hset _).still rfl ?_ ?_ (fun o x ha => ?_) (fun _ hb => ⟨hb, rfl⟩)
      fun _ hb _ => ⟨hb, rfl⟩
    · show (w.tree.landed _ result).attemptCount = w.tree.attemptCount
      rw [hl]
    · show (w.tree.landed _ result).attemptOutput = w.tree.attemptOutput
      rw [hl]
    · have ha' : ((Function.update w.tree.attempts (w.builds b).launch.output none o).getD {}).next =
        some x := ha
      rw [Function.update_apply] at ha'
      split at ha'
      · simp at ha'
      · exact ha'
  | rebuilt => exact (houtcome _).claim ((hl.outcome hb result keep).lastResult _) _ _
  | idle => exact houtcome _

end World

end MakeBelieve.Tree
