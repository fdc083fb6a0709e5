import MakeBelieve.Tree.Driven
import MakeBelieve.Tree.Restored

namespace MakeBelieve.Tree

open Coordinator (AttemptId System)
open Library Library.Memo

namespace World

variable {contentHash : Bytes → Hash} {cached : Bool}
variable {w w' : World} {b c : BuildId} {output : Path} {t : State} {e : Event}

/-- What holds of the tree, its builds and its coordinator between any two steps. -/
structure Sound (w : World) : Prop where
  tidy : w.tree.Tidy
  ledger : w.Ledger
  driven : w.Driven

/-- Neither builds nor attempts come or go. -/
theorem Sound.still (h : Sound w) (ht : SameTree w.tree w'.tree) (htidy : w'.tree.Tidy)
    (hb : w'.builds = w.builds) (hc : w'.buildCount = w.buildCount)
    (hs : w'.system = w.system) : Sound w' where
  tidy := htidy
  ledger := h.ledger.same (ht.same hb hc (by rw [hs]) (by rw [hs]))
  driven := h.driven.still hs ht.attemptCount ht.attemptOutput
    (fun o a ha => (ht.next o).symm.trans ha) (fun b hclaimed => by rw [hb] at hclaimed ⊢; exact ⟨hclaimed, rfl⟩)
    fun b hworking _ => by rw [hb]; exact ⟨hworking, rfl⟩

/-- A build goes on, without its output landing or its attempt being completed. -/
theorem Sound.setStage (h : Sound w) {stage : Stage} (hlt : (w.builds b).stage ≠ .over)
    (hu : stage.unfinished = (w.builds b).stage.unfinished)
    (hr : stage.unreleased = (w.builds b).stage.unreleased)
    (ho : stage.orphan = (w.builds b).stage.orphan) (hc : stage ≠ .claimed)
    (hw : (w.builds b).stage = .working →
      (w.system.coord.attempts (w.builds b).launch.attempt).phase ≠ .running) :
    Sound (w.setStage b stage) :=
  ⟨h.tidy, h.ledger.same (same_setStage hlt hu hr ho), h.driven.setStage hc hw⟩

theorem Sound.brought (h : Sound w) (hb : Brought w output w') : Sound w' := by
  refine ⟨?_, h.ledger.brought hb, h.driven.brought h.ledger hb⟩
  cases hb with
  | none ht => exact ht.tidy h.tidy
  | minted ht hf => exact (ht.tidy h.tidy).minted hf
  | claimed ht =>
    have htidy := ht.tidy h.tidy
    exact .claim htidy.stale htidy.materialized htidy.reads fun o _ => htidy.next o

theorem Sound.settled (h : Sound w) {result : BuildResult} (keep : Option Keep)
    (hb : (w.builds b).stage.unfinished = true) (hnot : (w.builds b).stage ≠ .working) :
    Sound (w.settleWith b result keep) := by
  have hland := w.landed b result keep
  refine ⟨?_, h.ledger.landed hb hland, h.driven.landed h.ledger hb hnot hland⟩
  have htree : (w.settleWith b result keep).tree =
      (w.tree.settle (w.builds b).launch.output result).2 := addBuild_tree ..
  rw [htree]
  exact h.tidy.settle _ result

theorem Sound.launch (h : Sound w) {start : Start} (he : w.enabled (.launch b start)) :
    Sound (w.launch b start) := by
  obtain ⟨hclaimed, -, -⟩ := he
  have hset : ∀ stage, stage ≠ .claimed → stage.unfinished = true → stage.unreleased = true →
      stage.orphan = none → Sound (w.setStage b stage) := fun stage hc hu hr ho =>
    h.setStage (by simp [hclaimed]) (by rw [hu, hclaimed]; rfl) (by rw [hr, hclaimed]; rfl)
      (by rw [ho, hclaimed]; rfl) hc (by simp [hclaimed])
  cases start with
  | traced bytes => exact hset _ (by simp) rfl rfl rfl
  | threw error => exact hset _ (by simp) rfl rfl rfl
  | ran =>
    have hstage := hset .working (by simp) rfl rfl rfl
    let a := (w.builds b).launch.attempt
    have hheld : w.Holds (.build b) a := ⟨by rw [hclaimed]; rfl, rfl⟩
    have hpending := h.driven.claimed b hclaimed
    have he : w.system.enabled (.run a) := by
      obtain ⟨hnot, hlt⟩ := h.ledger.pending _ _ hheld
      refine ⟨h.ledger.count ▸ hlt, hpending, ?_⟩
      cases hres : (w.system.coord.attempts a).result with
      | none => rfl
      | some result =>
        have hmem := h.driven.sound.sourced.result a result hres
        exact absurd (List.mem_map_of_mem hmem) hnot
    have hcount := h.driven.sound.attemptCount_step he (by simp)
    have hbo : ∀ c, c ≠ b → (w.launch b .ran).builds c = w.builds c := fun c hc =>
      Function.update_of_ne hc ..
    have hbb : (w.launch b .ran).builds b = { w.builds b with stage := .working } :=
      Function.update_self ..
    refine ⟨hstage.tidy, hstage.ledger.same (same_of_tree rfl rfl rfl rfl hcount),
      h.driven.fired h.ledger he rfl rfl (fun c hc => ?_) (fun o x hx => ?_) fun x hx => ?_⟩
    · by_cases hcb : c = b
      · rw [hcb, hbb] at hc
        simp at hc
      · rw [hbo c hcb] at hc ⊢
        refine ⟨hc, rfl, if_neg fun heq => hcb ?_⟩
        have hother : w.Holds (.build c) a := ⟨by rw [hc]; rfl, heq⟩
        exact Place.build.inj (h.ledger.once _ _ _ hother hheld)
    · refine if_neg fun heq => ?_
      subst heq
      have := h.ledger.once _ _ _ (show w.Holds (.next o) a from hx) hheld
      simp at this
    · simp only [Coordinator.Event.phase] at hx
      split at hx
      · simp at hx
      · obtain ⟨c, hc, rfl⟩ := h.driven.running x hx
        refine ⟨c, ?_⟩
        rw [hbo c fun hcb => by rw [hcb, hclaimed] at hc; simp at hc]
        exact ⟨hc, rfl⟩

/-- An attempt kept somewhere is completed, and its build goes on. -/
theorem Sound.released (h : Sound w) {stage : Stage} {p : Place} {a : AttemptId}
    {result : ErrorCode} (hp : w.Holds p a)
    (hold : (w.builds b).stage.unfinished = false ∧ (w.builds b).stage ≠ .over)
    (hu : stage.unfinished = false)
    (hholds : ∀ q x, (w.setStage b stage).Holds q x ↔ q ≠ p ∧ w.Holds q x) :
    Sound { w.setStage b stage with system := w.system.step (.complete a result) } := by
  obtain ⟨-, hlt⟩ := h.ledger.pending p a hp
  have he : w.system.enabled (.complete a result) := show a < _ from h.ledger.count ▸ hlt
  have hbo : ∀ c, c ≠ b → (w.setStage b stage).builds c = w.builds c := fun c hc =>
    Function.update_of_ne hc ..
  have hbb : (w.setStage b stage).builds b = { w.builds b with stage } := Function.update_self ..
  have hlaunch : ∀ c, ((w.setStage b stage).builds c).launch = (w.builds c).launch ∧
      ((w.setStage b stage).builds c).claimedAt = (w.builds c).claimedAt ∧
      ((w.setStage b stage).builds c).stage.unfinished = (w.builds c).stage.unfinished := by
    intro c
    by_cases hcb : c = b
    · rw [hcb, hbb]
      exact ⟨rfl, rfl, hu.trans hold.1.symm⟩
    · rw [hbo c hcb]
      exact ⟨rfl, rfl, rfl⟩
  have hstage : ∀ {stage' : Stage} {c}, stage'.unfinished = true →
      (((w.setStage b stage).builds c).stage = stage' ↔ (w.builds c).stage = stage') := by
    intro stage' c hst
    by_cases hcb : c = b
    · rw [hcb, hbb]
      refine iff_of_false ?_ ?_
      · rintro rfl
        rw [hu] at hst
        simp at hst
      · rintro rfl
        rw [hold.1] at hst
        simp at hst
    · rw [hbo c hcb]
  refine ⟨h.tidy, h.ledger.released hp rfl (fun c => (hlaunch c).1) (fun c => (hlaunch c).2.1)
    (fun c => (hlaunch c).2.2) (fun c hc => ?_) rfl hholds ?_
    (h.driven.sound.attemptCount_step he (by simp)),
    h.driven.fired h.ledger he rfl rfl (fun c hc => ?_) (fun _ _ _ => rfl) fun x hx => ?_⟩
  · have hne : c ≠ b := fun heq => hold.2 (heq ▸ hc)
    show ((w.setStage b stage).builds c).stage = .over
    rw [hbo c hne]
    exact hc
  · show (w.system.completions ++ [(a, result)]).map Prod.fst = _
    rw [List.map_append]
    rfl
  · exact ⟨(hstage rfl).mp hc, (hlaunch c).1, rfl⟩
  · obtain ⟨c, hc, rfl⟩ := h.driven.running x hx
    exact ⟨c, (hstage rfl).mpr hc, by rw [← (hlaunch c).1]⟩

theorem afterRelease_stage (result : BuildResult) (keep : Option Keep) :
    (afterRelease result keep).unfinished = false ∧ (afterRelease result keep).unreleased = false ∧
      (afterRelease result keep).orphan = none := by
  unfold afterRelease
  split <;> exact ⟨rfl, rfl, rfl⟩

theorem complete_settled {result : BuildResult} {keep : Option Keep} {orphaned : Option AttemptId}
    (hs : (w.builds b).stage = .settled result keep orphaned) :
    ∃ stage, w.complete b = { w.setStage b stage with
        system := w.system.step (.complete (w.builds b).launch.attempt result.error) } ∧
      stage.unfinished = false ∧ stage.unreleased = false ∧ stage.orphan = orphaned := by
  unfold World.complete
  rw [hs]
  cases orphaned with
  | none => exact ⟨afterRelease result keep, rfl, afterRelease_stage result keep⟩
  | some orphaned => exact ⟨.released result keep orphaned, rfl, rfl, rfl, rfl⟩

theorem Sound.complete (h : Sound w) (he : w.enabled (.complete b)) : Sound (w.complete b) := by
  obtain ⟨result, keep, orphaned, hs⟩ := he
  obtain ⟨stage, hdef, hnew⟩ := complete_settled hs
  rw [hdef]
  refine h.released (p := .build b) ⟨by rw [hs]; rfl, rfl⟩ ⟨by rw [hs]; rfl, by simp [hs]⟩ hnew.1
    fun q x => ?_
  have hbo : ∀ c, c ≠ b → (w.setStage b stage).builds c = w.builds c := fun c hc =>
    Function.update_of_ne hc ..
  have hbb : (w.setStage b stage).builds b = { w.builds b with stage } := Function.update_self ..
  cases q with
  | build c =>
    by_cases hcb : c = b
    · subst hcb
      simp [Holds, hbb, hnew.2.1]
    · simp [Holds, hbo c hcb, hcb]
  | next o => exact ⟨fun hx => ⟨by simp, hx⟩, fun hx => hx.2⟩
  | orphan c =>
    by_cases hcb : c = b
    · subst hcb
      have hold : (w.builds c).stage.orphan = orphaned := by rw [hs]; rfl
      simp [Holds, hbb, hnew.2.2, hold]
    · simp [Holds, hbo c hcb]

theorem Sound.completeOrphaned (h : Sound w) (he : w.enabled (.completeOrphaned b)) :
    Sound (w.completeOrphaned b) := by
  obtain ⟨result, keep, orphaned, hs⟩ := he
  have hdef : w.completeOrphaned b = { w.setStage b (afterRelease result keep) with
      system := w.system.step (.complete orphaned .noSuchFileOrDirectory) } := by
    unfold World.completeOrphaned
    rw [hs]
  have hnew := afterRelease_stage result keep
  rw [hdef]
  refine h.released (p := .orphan b) (by rw [Holds, hs]; rfl) ⟨by rw [hs]; rfl, by simp [hs]⟩ hnew.1
    fun q x => ?_
  have hbo : ∀ c, c ≠ b → (w.setStage b (afterRelease result keep)).builds c = w.builds c :=
    fun c hc => Function.update_of_ne hc ..
  have hbb : (w.setStage b (afterRelease result keep)).builds b =
      { w.builds b with stage := afterRelease result keep } := Function.update_self ..
  cases q with
  | build c =>
    by_cases hcb : c = b
    · subst hcb
      have hold : (w.builds c).stage.unreleased = false := by rw [hs]; rfl
      simp [Holds, hbb, hnew.2.1, hold]
    · simp [Holds, hbo c hcb]
  | next o => exact ⟨fun hx => ⟨by simp, hx⟩, fun hx => hx.2⟩
  | orphan c =>
    by_cases hcb : c = b
    · subst hcb
      simp [Holds, hbb, hnew.2.2]
    · simp [Holds, hbo c hcb, hcb]

theorem completions_step {s : System} {e : Coordinator.Event}
    (hne : ∀ a result, e ≠ .complete a result) :
    (s.step e).completions = s.completions := by
  cases e with
  | complete a result => exact absurd rfl (hne a result)
  | _ => rfl

/-- The coordinator goes on by itself, or at the asking of opens and builds under way. -/
theorem Sound.coordinator (h : Sound w) {e : Coordinator.Event}
    (he : w.Proceeds e ∧ w.system.enabled e) : Sound { w with system := w.system.step e } := by
  obtain ⟨hp, he⟩ := he
  have hcreate : ∀ output predecessor, e ≠ .createAttempt output predecessor := by
    rintro output predecessor rfl
    exact hp
  have hcomplete : ∀ a result, e ≠ .complete a result := by
    rintro a result rfl
    exact hp
  have hunstarted : ∀ p a, w.Holds p a → (∀ b, p = .build b → (w.builds b).stage = .claimed) →
      (w.system.coord.attempts a).phase = .pending → e.phase a .pending = .pending := by
    intro p a hheld hclaimed hpending
    cases e with
    | run => exact absurd hp id
    | onPermit a' =>
      obtain ⟨b, hb, rfl⟩ := hp
      refine if_neg fun heq => ?_
      have hother : w.Holds (.build b) a := ⟨by rw [hb]; rfl, heq.symm⟩
      have hpb := h.ledger.once _ _ _ hheld hother
      rw [hclaimed b hpb] at hb
      simp at hb
    | finish a' =>
      refine if_neg fun heq => ?_
      have hrun : (w.system.coord.attempts a').phase = .running := he
      rw [← heq, hpending] at hrun
      simp at hrun
    | _ => rfl
  refine ⟨h.tidy, h.ledger.same (same_of_tree rfl rfl rfl (completions_step hcomplete)
    (h.driven.sound.attemptCount_step he hcreate)),
    h.driven.fired h.ledger he rfl rfl (fun b hb => ⟨hb, rfl, ?_⟩) (fun o a ha => ?_) fun a ha => ?_⟩
  · refine hunstarted (.build b) _ ⟨?_, rfl⟩ (fun c hc => ?_) (h.driven.claimed b hb)
    · rw [show (w.builds b).stage = .claimed from hb]
      rfl
    · rw [← Place.build.inj hc]
      exact hb
  · exact hunstarted (.next o) a ha (by simp) (h.driven.next o a ha)
  · by_cases hrun : (w.system.coord.attempts a).phase = .running
    · exact h.driven.running a hrun
    · cases e with
      | onPermit a' =>
        simp only [Coordinator.Event.phase] at ha
        split at ha
        · next heq =>
          obtain ⟨b, hb, hba⟩ := hp
          exact ⟨b, hb, hba.trans heq.symm⟩
        · exact absurd ha hrun
      | run a' =>
        simp only [Coordinator.Event.phase] at ha
        split at ha
        · simp at ha
        · exact absurd ha hrun
      | finish a' =>
        simp only [Coordinator.Event.phase] at ha
        split at ha
        · simp at ha
        · exact absurd ha hrun
      | _ => exact absurd ha hrun

theorem Sound.publish (h : Sound w) {builtAt : Int64} (he : w.enabled (.publish b builtAt)) :
    Sound (w.publish contentHash cached b builtAt) := by
  obtain ⟨_, bytes, inputs, hs⟩ := he
  have hset : ∀ stage, stage ≠ .claimed → stage.unfinished = true → stage.unreleased = true →
      stage.orphan = none → Sound (w.setStage b stage) := fun stage hc hu hr ho =>
    h.setStage (by simp [hs]) (by rw [hu, hs]; rfl) (by rw [hr, hs]; rfl) (by rw [ho, hs]; rfl) hc
      (by simp [hs])
  unfold World.publish
  rw [hs]
  dsimp only
  split
  · exact hset _ (by simp) rfl rfl rfl
  · next command _ =>
    have hsame := @publish_same contentHash cached w.tree (w.builds b).launch.output command bytes
      inputs builtAt
    refine (hset (.writing (.built bytes inputs) builtAt (w.tree.publish contentHash cached
      (w.builds b).launch.output command bytes inputs builtAt).1) (by simp) rfl rfl rfl).still hsame
        ?_ rfl rfl rfl
    show State.Tidy (w.tree.publish contentHash cached _ command bytes inputs builtAt).2
    unfold State.publish
    cases cached <;> exact ⟨h.tidy.stale, h.tidy.materialized, h.tidy.reads, h.tidy.next⟩

theorem Sound.resume (h : Sound w) (now : Int64) (ok : Bool) : Sound (w.resume now ok) := by
  unfold World.resume
  split
  · exact h
  · exact h.still (takeCommands_same h.tidy _) (h.tidy.takeCommands _) rfl rfl rfl
  · exact h.still ⟨rfl, fun _ => rfl, fun _ _ _ => id, rfl, rfl⟩
      ⟨h.tidy.stale, h.tidy.materialized, h.tidy.reads, h.tidy.next⟩ rfl rfl rfl
  · exact h.still ⟨rfl, fun _ => rfl, fun _ _ _ => id, rfl, rfl⟩
      ⟨h.tidy.stale, h.tidy.materialized, h.tidy.reads, h.tidy.next⟩ rfl rfl rfl
  · exact h.still (.refl _) h.tidy rfl rfl rfl
  · exact h.still (.refl _) h.tidy rfl rfl rfl
  · exact h.still (.refl _) h.tidy rfl rfl rfl
  · exact h.still (.refl _) h.tidy rfl rfl rfl
  · exact h.still (invalidate_same _ _) (h.tidy.invalidate _) rfl rfl rfl
  · next output todo _ =>
    have hw : Sound { w with todo } := h.still (.refl _) h.tidy rfl rfl rfl
    exact hw.brought (brought_startBuild _ output)

/-- What the constructor leaves: every declared output stale or restored, and nothing under way. -/
theorem Starts.begins (h : Starts contentHash cached w) :
    ∃ commands mtime, OnlyServed (constructed commands mtime) w.tree ∧
      (∀ o, w.tree.stale o = true → (constructed commands mtime).stale o = true) ∧
      w = { tree := w.tree, cache := w.cache, source := w.source, origin := w.origin } := by
  obtain ⟨commands, mtime, source, cache, tree, htree, rfl⟩ := h
  refine ⟨commands, mtime, ?_, ?_, rfl⟩
  · cases cached with
    | false => exact htree.2 ▸ rfl
    | true =>
      obtain ⟨before, n, hn, hrun⟩ := htree
      obtain ⟨kept, t, hrun', hexactly⟩ := @restoreFromCache_exactly source contentHash before n hn _
        (constructed_inverse commands mtime)
      obtain ⟨rfl, rfl⟩ := Prod.mk.inj (Option.some.inj (hrun.symm.trans hrun'))
      exact hexactly.only
  · intro o ho
    cases cached with
    | false => exact htree.2 ▸ ho
    | true =>
      obtain ⟨before, n, hn, hrun⟩ := htree
      obtain ⟨kept, t, hrun', hexactly⟩ := @restoreFromCache_exactly source contentHash before n hn _
        (constructed_inverse commands mtime)
      obtain ⟨rfl, rfl⟩ := Prod.mk.inj (Option.some.inj (hrun.symm.trans hrun'))
      by_cases hrestored : o ∈ least (cacheConds source contentHash before
          (constructed commands mtime).commands)
      · obtain ⟨record, hmem, hout, _⟩ := (isLeast_restorable.1 o).mp hrestored
        obtain ⟨_, _, hserved⟩ := hexactly.served record hmem (hout ▸ hrestored)
        rw [← hout, hserved.stale] at ho
        simp at ho
      · rw [← (hexactly.others o hrestored).stale]
        exact ho

/-- Nothing is under way to begin with. -/
structure Idle (s : State) : Prop where
  stale : ∀ o, s.stale o = true → s.declared o = true
  materialized : ∀ o, s.materialized o = false
  inFlight : ∀ o, s.inFlight o = false
  reads : ∀ o, s.reads o = none
  attempts : ∀ o, s.attempts o = none
  invalidations : ∀ o, s.invalidations o = 0
  attemptCount : s.attemptCount = 0

theorem Starts.idle (h : Starts contentHash cached w) : Idle w.tree := by
  obtain ⟨commands, mtime, honly, hstale, _⟩ := h.begins
  have hdeclared : ∀ o, w.tree.declared o = (commands.find o).isSome := by
    intro o
    rw [honly, constructed_eq]
    rfl
  refine ⟨fun o ho => ?_, ?_, ?_, ?_, ?_, ?_, ?_⟩
  · rw [hdeclared]
    simpa [constructed_eq] using hstale o ho
  all_goals rw [honly, constructed_eq]
  all_goals first | rfl | exact fun _ => rfl

theorem Starts.sound (h : Starts contentHash cached w) : Sound w := by
  have hidle := h.idle
  obtain ⟨_, _, _, _, hw⟩ := h.begins
  have hbuilds : w.builds = fun _ => { launch := ⟨[], 0, { output := [] }⟩, stage := .over } := by
    rw [hw]
  have hsystem : w.system = {} := by rw [hw]
  have hnone : ∀ p a, ¬w.Holds p a := by
    intro p a
    cases p with
    | build b => simp [Holds, hbuilds, Stage.unreleased, Stage.unfinished]
    | next o => simp [Holds, hidle.attempts]
    | orphan b => simp [Holds, hbuilds, Stage.orphan]
  have hcompleted : w.completed = [] := by rw [completed, hsystem]; rfl
  have hcount : w.system.coord.attemptCount = 0 := by rw [hsystem]
  refine ⟨⟨hidle.stale, fun o ho => ?_, fun o => ?_, fun o attempts ha => ?_⟩,
    ⟨fun b _ => by rw [hbuilds], fun o => ?_, fun b c hb => ?_, fun b hb => ?_, fun a ha => ?_,
      fun p q a hp => absurd hp (hnone p a), fun p a hp => absurd hp (hnone p a),
      fun p a o hp => absurd hp (hnone p a), fun b hb => ?_,
      by rw [hcompleted]; exact List.nodup_nil,
      fun a ha => ?_, by rw [hcount, hidle.attemptCount]⟩,
    ⟨by rw [hsystem]; exact System.sound_init, fun a ha => ?_, fun b hb => ?_, fun o a ha => ?_,
      fun a ha => ?_⟩⟩
  · rw [hidle.materialized] at ho
    simp at ho
  · rw [hidle.reads, hidle.inFlight]
    rfl
  · rw [hidle.attempts] at ha
    simp at ha
  · rw [hidle.inFlight, hbuilds]
    simp [Stage.unfinished]
  · rw [hbuilds] at hb
    simp [Stage.unfinished] at hb
  · rw [hbuilds] at hb
    simp [Stage.unfinished] at hb
  · rw [hidle.attemptCount] at ha
    exact absurd ha (Nat.not_lt_zero a)
  · rw [hw] at hb
    exact absurd hb (Nat.not_lt_zero b)
  · rw [hcompleted] at ha
    simp at ha
  · rw [hidle.attemptCount] at ha
    exact absurd ha (Nat.not_lt_zero a)
  · rw [hbuilds] at hb
    simp at hb
  · rw [hidle.attempts] at ha
    simp at ha
  · rw [hsystem] at ha
    simp at ha

/-- Every step keeps the world sound. -/
theorem Sound.step (h : Sound w) (he : w.enabled e) : Sound (w.step contentHash cached e) := by
  cases e with
  | bringUpToDate output => exact h.brought (w.brought output)
  | recordRead reader output =>
    exact h.still (recordRead_same _ _ _) (h.tidy.recordRead _ _) rfl rfl rfl
  | materializeAll =>
    exact h.still ⟨rfl, fun _ => rfl, fun _ _ _ => id, rfl, rfl⟩ h.tidy.materialize rfl rfl rfl
  | startNext output =>
    have hw : Sound { w with starting := w.starting.erase output } :=
      h.still (.refl _) h.tidy rfl rfl rfl
    exact hw.brought (brought_startBuild _ output)
  | launch b start => exact h.launch he
  | endWork b result =>
    obtain ⟨hs, hphase⟩ := he
    refine h.setStage (by simp [hs]) (by rw [hs]; rfl) (by rw [hs]; rfl) (by rw [hs]; rfl) (by simp)
      fun _ hrun => ?_
    obtain hended | ⟨hqueued, _⟩ := hphase
    · rw [hended] at hrun
      simp at hrun
    · rw [hqueued] at hrun
      simp at hrun
  | publish b builtAt => exact h.publish he
  | write b =>
    obtain ⟨result, builtAt, keep, hs⟩ := he
    show Sound (w.write b)
    unfold World.write
    rw [hs]
    split
    · next bytes inputs builtAt keep heq =>
      obtain ⟨rfl, rfl, rfl⟩ := Stage.writing.inj heq
      have hset : Sound (w.setStage b (.published (.built bytes inputs) keep)) :=
        h.setStage (by simp [hs]) (by rw [hs]; rfl) (by rw [hs]; rfl) (by rw [hs]; rfl) (by simp)
          (by simp [hs])
      exact hset.still ⟨rfl, fun _ => rfl, fun _ _ _ => id, rfl, rfl⟩
        ⟨h.tidy.stale, h.tidy.materialized, h.tidy.reads, h.tidy.next⟩ rfl rfl rfl
    · exact h
  | settle b =>
    show Sound (w.settle b)
    unfold World.settle
    obtain ⟨error, inputs, hs⟩ | ⟨result, keep, hs⟩ := he
    · rw [hs]
      exact h.settled none (by rw [hs]; rfl) (by simp [hs])
    · rw [hs]
      exact h.settled keep (by rw [hs]; rfl) (by simp [hs])
  | complete b => exact h.complete he
  | completeOrphaned b => exact h.completeOrphaned he
  | beginKeeping b =>
    obtain ⟨_, bytes, keep, hs⟩ := he
    show Sound (w.beginKeeping b)
    unfold World.beginKeeping
    rw [hs]
    exact (h.setStage (by simp [hs]) (by rw [hs]; rfl) (by rw [hs]; rfl) (by rw [hs]; rfl) (by simp)
      (by simp [hs])).still (.refl _) h.tidy rfl rfl rfl
  | stamp b =>
    obtain ⟨bytes, keep, input, left, stamps, hs⟩ := he
    show Sound (w.stamp b)
    unfold World.stamp
    rw [hs]
    exact h.setStage (by simp [hs]) (by rw [hs]; rfl) (by rw [hs]; rfl) (by rw [hs]; rfl) (by simp)
      (by simp [hs])
  | store b ok =>
    obtain ⟨bytes, keep, left, stamps, hs, _⟩ := he
    show Sound (w.store contentHash b ok)
    unfold World.store
    rw [hs]
    exact (h.setStage (by simp [hs]) (by rw [hs]; rfl) (by rw [hs]; rfl) (by rw [hs]; rfl) (by simp)
      (by simp [hs])).still (.refl _) h.tidy rfl rfl rfl
  | editSource source => exact h.still (.refl _) h.tidy rfl rfl rfl
  | sourceChange everythingDirty entriesChanged rules =>
    exact h.still (.refl _) h.tidy rfl rfl rfl
  | resume now ok => exact h.resume now ok
  | coordinator e => exact h.coordinator he

/-- Every state any run leads to is sound. -/
theorem sound {ok : World → Event → Prop} (h : (machine contentHash cached).Reachable ok w) :
    Sound w :=
  h.invariant (P := Sound) (fun _ hs => Starts.sound hs) fun _ _ hs he _ => hs.step he

end World

end MakeBelieve.Tree
