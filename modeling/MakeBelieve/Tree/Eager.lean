import MakeBelieve.Tree.Attempts
import MakeBelieve.Tree.Steps

namespace MakeBelieve.Tree

open Coordinator (AttemptId)
open Library

/-- Whether a task has an output invalidated, or its eager rebuild started, before it is done. -/
def Task.Owes (output : Path) : Task → Prop
  | .collectReaders changes => output ∈ changes.changed
  | .invalidate outputs => output ∈ outputs
  | .startBuild other => output = other
  | _ => False

namespace World

variable {contentHash : Bytes → Hash} {cached : Bool}
variable {w w' : World} {b : BuildId} {output o : Path} {s t : State} {e : Event}

/-- How often an output had been invalidated when its last build was claimed. -/
def invalidationsAtStart (w : World) (output : Path) : Nat :=
  ((w.tree.attempts output).getD {}).invalidationsAtStart

/-- Whether a build of an output is still to be started by the callback or `materialize_all`. -/
def Owed (w : World) (output : Path) : Prop :=
  output ∈ w.starting ∨ ∃ task ∈ w.todo, task.Owes output

/-- Whether the last build of an output failed, which was stopped or had the output as it is. -/
def Failed (w : World) (output : Path) : Prop :=
  ∃ result, w.lastResult output = some result ∧ result.isBuilt = false ∧
    (result.stopped = true ∨ w.invalidationsAtStart output = w.tree.invalidations output)

/-- What is owed to an output: whatever invalidates it has a build claimed after it. -/
structure Eager (w : World) (output : Path) : Prop where
  current : w.tree.declared output = true → w.tree.stale output = false →
    w.invalidationsAtStart output = w.tree.invalidations output
  owed : w.tree.materialized output = true → w.tree.stale output = true →
    w.tree.inFlight output = false → w.Owed output ∨ w.Failed output
  claimed : w.invalidationsAtStart output ≠ 0 → ∃ b < w.buildCount,
    (w.builds b).launch.output = output ∧
      (w.builds b).claimedAt = w.invalidationsAtStart output

theorem Eager.claimed_of (h : Eager w o) (hb : Onward w w')
    (hstart : w'.invalidationsAtStart o ≠ 0 →
      w'.invalidationsAtStart o = w.invalidationsAtStart o)
    (hne : w'.invalidationsAtStart o ≠ 0) : ∃ b < w'.buildCount,
      (w'.builds b).launch.output = o ∧ (w'.builds b).claimedAt = w'.invalidationsAtStart o := by
  have heq := hstart hne
  rw [heq] at hne ⊢
  obtain ⟨b, hlt, hout, hat⟩ := h.claimed hne
  refine ⟨b, Nat.lt_of_lt_of_le hlt hb.buildCount, ?_, ?_⟩
  · rw [hb.launch b hlt]
    exact hout
  · rw [hb.claimedAt b hlt]
    exact hat

theorem Eager.same (h : Eager w o) (ht : SameAt w.tree w'.tree o) (hb : Onward w w')
    (howed : w.Owed o → w'.Owed o) (hl : w'.lastResult o = w.lastResult o) : Eager w' o := by
  have hstart : w'.invalidationsAtStart o = w.invalidationsAtStart o := ht.start
  refine ⟨fun hd hs => ?_, fun hm hs hf => ?_, h.claimed_of hb fun _ => hstart⟩
  · rw [hstart, ht.invalidations]
    exact h.current (ht.declared ▸ hd) (ht.stale ▸ hs)
  · rw [ht.materialized] at hm
    rw [ht.stale] at hs
    rw [ht.inFlight] at hf
    refine (h.owed hm hs hf).imp howed fun ⟨result, hlast, hfailed, hwhy⟩ =>
      ⟨result, hl.trans hlast, hfailed, ?_⟩
    rw [hstart, ht.invalidations]
    exact hwhy

/-- A claim settles what its output is owed. -/
theorem Eager.claim_self (w : World) (output : Path) (behind : Option BuildId) :
    Eager (w.claim output behind) output := by
  have hattempts := w.tree.claimBuild_attempts output
  have hinv : (w.tree.claimBuild output).invalidations = w.tree.invalidations := by
    rw [State.claimBuild_only]
  have hstart : (w.claim output behind).invalidationsAtStart output =
      w.tree.invalidations output := by
    rw [invalidationsAtStart, claim_tree, hattempts, Function.update_self]
    rfl
  refine ⟨fun _ _ => ?_, fun _ hs => ?_, fun _ => ⟨w.buildCount, Nat.lt_succ_self _, ?_⟩⟩
  · rw [hstart, claim_tree, hinv]
  · have hs' : Function.update w.tree.stale output false output = true := hs
    simp at hs'
  · rw [claim_builds, Function.update_self, hstart]
    exact ⟨rfl, rfl⟩

theorem Eager.claim (h : o ≠ output → Eager w o) (behind : Option BuildId) :
    Eager (w.claim output behind) o := by
  by_cases ho : o = output
  · subst ho
    exact .claim_self w o behind
  · exact (h ho).same (claim_sameAt w.tree ho) (claim_onward w output behind) id rfl

/-- Nothing is owed to an output in flight or up to date. -/
theorem Eager.done (h : Eager w o) (hb : Onward w w')
    (hd : w'.tree.declared o = w.tree.declared o)
    (hs : w'.tree.stale o = false → w.tree.stale o = false)
    (hi : w'.tree.invalidations o = w.tree.invalidations o)
    (hstart : w'.invalidationsAtStart o = w.invalidationsAtStart o)
    (hdone : w'.tree.materialized o = true → w'.tree.stale o = true →
      w'.tree.inFlight o = false → False) : Eager w' o := by
  refine ⟨fun hd' hs' => ?_, fun hm hs' hf => (hdone hm hs' hf).elim,
    h.claimed_of hb fun _ => hstart⟩
  rw [hstart, hi]
  exact h.current (hd ▸ hd') (hs hs')

theorem Eager.opened (h : Eager w o) (ht : OpenedAs w.tree output t)
    (hsame : SameAt t w'.tree o) (hb : Onward w w') (hl : w'.lastResult o = w.lastResult o)
    (howed : o ≠ output → w.Owed o → w'.Owed o)
    (hdone : t.materialized output = true → t.stale output = true → t.inFlight output = false →
      False) : Eager w' o := by
  by_cases ho : o = output
  · subst ho
    refine h.done hb (by rw [hsame.declared, ht.declared]) (fun hs => ?_)
      (by rw [hsame.invalidations, ht.invalidations]) (hsame.start.trans (ht.start o)) ?_
    · exact ht.stale_false (hsame.stale ▸ hs)
    · rw [hsame.materialized, hsame.stale, hsame.inFlight]
      exact hdone
  · exact h.same ((ht.sameAt ho).trans hsame) hb (howed ho) hl

/-- Bringing an output up to date settles what it is owed, and leaves what others are. -/
theorem Eager.brought (h : Eager w o) (htidy : w.tree.Tidy) {v : World}
    (hv : v = { w with todo := v.todo, starting := v.starting })
    (howed : o ≠ output → w.Owed o → v.Owed o) (hb : Brought v output w') : Eager w' o := by
  have htree : v.tree = w.tree := by rw [hv]
  have hbuilds : Onward w v := .of_builds (by rw [hv]) (by rw [hv])
  have hlast : v.lastResult = w.lastResult := by rw [hv]
  cases hb with
  | @none t ht hdone =>
    rw [htree] at ht
    refine h.opened ht (.refl t o) (hbuilds.trans (.of_builds rfl rfl)) (by rw [← hlast]) howed
      fun hm hs hf => ?_
    have hd := (ht.tidy htidy).materialized _ hm
    obtain hdone | hdone | hdone := hdone
    · rw [hdone] at hf
      simp at hf
    · rw [hdone] at hs
      simp at hs
    · rw [hdone] at hd
      simp at hd
  | @minted t ht hf =>
    rw [htree] at ht
    refine h.opened ht (minted_sameAt t output o) (hbuilds.trans (.of_builds rfl rfl))
      (by rw [← hlast]; rfl) howed fun _ _ hf' => ?_
    rw [hf] at hf'
    simp at hf'
  | @claimed t ht =>
    rw [htree] at ht
    have hopened : Onward v { v with tree := t } := .of_builds rfl rfl
    have hclaimed := hopened.trans (claim_onward _ output Option.none)
    by_cases ho : o = output
    · subst ho
      exact .claim_self _ o _
    · exact h.same ((ht.sameAt ho).trans (claim_sameAt t ho))
        (hbuilds.trans hclaimed) (howed ho) (by rw [← hlast]; rfl)

/-- The end of a build leaves nothing owed to its output unless the build failed: it was stopped,
or nothing has been invalidated since it was claimed. -/
theorem Eager.landed (hall : ∀ o, Eager w o) (htidy : w.tree.Tidy) {result : BuildResult}
    {keep : Option Keep} (hland : Landed w b result keep w') (howed : w.Owed o → w'.Owed o) :
    Eager w' o := by
  let output := (w.builds b).launch.output
  have hout := w.tree.outcome_only output result
  unfold State.OnlyDepends at hout
  have hdeclared : (w.tree.outcome output result).declared = w.tree.declared := by rw [hout]; rfl
  have hlast : o ≠ output →
      Function.update w.lastResult output (some result) o = w.lastResult o := fun ho =>
    Function.update_of_ne ho ..
  cases hland with
  | removed hd =>
    have hland := w.tree.landed_only output result
    unfold State.OnlyDepends at hland
    have hdeclared' : (w.tree.landed output result).declared = w.tree.declared := by
      rw [hland]; rfl
    by_cases ho : o = output
    · subst ho
      refine ⟨fun hd' => ?_, fun hm => ?_, fun hne => ?_⟩
      · have hd'' : (w.tree.landed output result).declared output = true := hd'
        rw [hdeclared', hd] at hd''
        simp at hd''
      · have hm' : (w.tree.landed output result).materialized output = true := hm
        rw [hland] at hm'
        rw [htidy.materialized _ hm'] at hd
        simp at hd
      · refine absurd ?_ hne
        show ((Function.update w.tree.attempts output none output).getD {}).invalidationsAtStart = 0
        rw [Function.update_self]
        rfl
    · refine (hall o).same ⟨congrFun hdeclared' o, ?_, ?_, ?_, ?_, ?_⟩
        (.of_setStage (b := b) rfl rfl) howed (hlast ho)
      · show (w.tree.landed output result).stale o = _
        rw [hland]
      · show (w.tree.landed output result).materialized o = _
        rw [hland]
      · show (w.tree.landed output result).inFlight o = _
        rw [hland]
        exact Function.update_of_ne ho ..
      · show (w.tree.landed output result).invalidations o = _
        rw [hland]
      · show ((Function.update w.tree.attempts output none o).getD {}).invalidationsAtStart = _
        rw [Function.update_of_ne ho]
  | rebuilt =>
    refine .claim (fun ho => ?_) _
    exact (hall o).same (outcome_sameAt w.tree result ho) (.of_setStage (b := b) rfl rfl) howed
      (hlast ho)
  | idle hd hn hr =>
    by_cases ho : o = output
    · subst ho
      have hstart : ((w.tree.outcome output result).attempts output) = w.tree.attempts output := by
        rw [hout]
      have hinv : (w.tree.outcome output result).invalidations = w.tree.invalidations := by
        rw [hout]
      have hstale : (w.tree.outcome output result).stale = if result.isBuilt then w.tree.stale
          else Function.update w.tree.stale output true := by rw [hout]
      have hsame : ∀ {n}, ((w.tree.attempts output).getD {}).invalidationsAtStart = n →
          (((w.tree.outcome output result).attempts output).getD {}).invalidationsAtStart = n :=
        fun h => by rw [hstart]; exact h
      refine ⟨fun hd' hs => ?_, fun hm hs hf => ?_,
        (hall output).claimed_of (.of_setStage (b := b) rfl rfl) fun _ => hsame rfl⟩
      · refine hsame ?_
        show _ = (w.tree.outcome output result).invalidations output
        have hs' : (w.tree.outcome output result).stale output = false := hs
        rw [hinv]
        refine (hall output).current hd ?_
        rw [hstale] at hs'
        split at hs'
        · exact hs'
        · simp at hs'
      · have hm' : (w.tree.outcome output result).materialized output = true := hm
        have hs' : (w.tree.outcome output result).stale output = true := hs
        have hmaterialized : w.tree.materialized output = true := by
          rw [hout] at hm'
          exact hm'
        refine .inr ⟨result, Function.update_self .., ?_, ?_⟩
        · -- A build that succeeded leaves its output stale only to rebuild it.
          by_contra hbuilt
          rw [Bool.not_eq_false] at hbuilt
          rw [hstale, if_pos hbuilt] at hs'
          exact hr ⟨hs', by simp [BuildResult.stopped, hbuilt], hmaterialized⟩
        · by_cases hstopped : result.stopped = true
          · exact .inl hstopped
          · refine .inr (hsame ?_)
            show _ = (w.tree.outcome output result).invalidations output
            rw [hinv]
            refine (hall output).current hd ?_
            by_contra hold
            exact hr ⟨by simpa using hold, by simpa using hstopped, hmaterialized⟩
    · exact (hall o).same (outcome_sameAt w.tree result ho) (.of_setStage (b := b) rfl rfl) howed
        (hlast ho)

theorem Owed.mono (h : w.Owed o) (hs : ∀ o ∈ w.starting, o ∈ w'.starting)
    (ht : ∀ task ∈ w.todo, task.Owes o → ∃ task' ∈ w'.todo, task'.Owes o) : w'.Owed o := by
  obtain h | ⟨task, hmem, howes⟩ := h
  · exact .inl (hs o h)
  · exact .inr (ht task hmem howes)

/-- A task that owes the output nothing has been done. -/
theorem Owed.tail {task : Task} {todo : List Task} (h : w.Owed o) (htodo : w.todo = task :: todo)
    (htask : ¬task.Owes o) (hs : w'.starting = w.starting)
    (ht : ∀ other ∈ todo, other ∈ w'.todo) : w'.Owed o := by
  refine h.mono (fun o ho => hs ▸ ho) fun other hmem howes => ⟨other, ht other ?_, howes⟩
  rw [htodo] at hmem
  exact (List.mem_cons.mp hmem).resolve_left fun heq => htask (heq ▸ howes)

/-- New rules: what they add counts as opened only along with everything else, and is then
invalidated further on. -/
theorem Eager.takeCommands (h : Eager w o) (htidy : w.tree.Tidy) {commands : Commands}
    (hb : Onward w w') (htree : w'.tree = (w.tree.takeCommands commands).2)
    (howed : w.Owed o ∨ o ∈ (w.tree.changesTo commands).changed → w'.Owed o)
    (hl : w'.lastResult o = w.lastResult o) : Eager w' o := by
  have ht := w.tree.takeCommands_taken commands
  rw [← htree] at ht
  have hdeclared : w'.tree.declared o = (commands.find o).isSome := by rw [ht.only]; rfl
  have hflight : w'.tree.inFlight = w.tree.inFlight := by rw [ht.only]
  by_cases hgone : w.tree.declared o = true ∧ commands.find o = none
  · have hforgotten := ht.removed o hgone.1 hgone.2
    refine ⟨fun hd => ?_, fun hm => ?_, h.claimed_of hb fun hne => ?_⟩
    · rw [hdeclared, hgone.2] at hd
      simp at hd
    · rw [hforgotten.materialized] at hm
      simp at hm
    · unfold invalidationsAtStart at hne ⊢
      rw [hforgotten.attempts] at hne ⊢
      split at hne
      · next hf => rw [if_pos hf]
      · exact absurd rfl hne
  · obtain ⟨_, hinv, hattempts, _⟩ := ht.kept o hgone
    have hstart : w'.invalidationsAtStart o = w.invalidationsAtStart o := by
      unfold invalidationsAtStart
      rw [hattempts]
    by_cases hnew : w.tree.declared o = false ∧ (commands.find o).isSome
    · obtain ⟨command, hcommand⟩ := Option.isSome_iff_exists.mp hnew.2
      refine ⟨fun _ hs => ?_, fun hm _ _ => .inl (howed (.inr ?_)), h.claimed_of hb fun _ => hstart⟩
      · rw [ht.added o hnew.1 hnew.2] at hs
        simp at hs
      · have hold : w.tree.materialized o = false := by
          by_contra hm'
          rw [htidy.materialized o (by simpa using hm')] at hnew
          simp at hnew
        rw [ht.materialized o hnew.1 command hcommand, hold, Bool.false_or, Bool.and_eq_true,
          decide_eq_true_eq] at hm
        refine List.mem_map.mpr ⟨command, List.mem_filter.mpr ⟨Commands.find_mem hcommand, ?_⟩,
          Commands.find_output hcommand⟩
        have hnone : w.tree.commands.find command.output = none := by
          rw [Commands.find_output hcommand]
          simpa [State.declared] using hnew.1
        simpa [hnone] using hm
    · obtain ⟨hstale, hmaterialized⟩ := ht.untouched o hnew hgone
      refine h.same ⟨?_, hstale, hmaterialized, by rw [hflight], hinv, hstart⟩ hb
        (fun ho => howed (.inl ho)) hl
      rw [hdeclared]
      cases hd : w.tree.declared o with
      | true =>
        have hne : commands.find o ≠ none := fun hnone => hgone ⟨hd, hnone⟩
        exact Option.isSome_iff_ne_none.mpr hne
      | false =>
        by_contra hsome
        exact hnew ⟨hd, by simpa [Option.isSome_iff_ne_none] using hsome⟩

/-- Whatever is invalidated is rebuilt next, if it counts as opened and is idle. -/
theorem Eager.invalidate (h : Eager w o) (htidy : w.tree.Tidy) {outputs : List Path}
    (hb : Onward w w') (htree : w'.tree = (w.tree.invalidate outputs).state)
    (heager : o ∈ (w.tree.invalidate outputs).eager → w'.Owed o)
    (howed : o ∉ outputs → w.Owed o → w'.Owed o)
    (hl : w'.lastResult o = w.lastResult o) : Eager w' o := by
  have hm := w.tree.invalidate_marked outputs
  have hclosed := (w.tree.invalidate_closed outputs).1 o
  generalize w.tree.invalidate outputs = m at hm heager htree hclosed
  have hstart : w'.invalidationsAtStart o = w.invalidationsAtStart o := by
    unfold invalidationsAtStart
    rw [htree, hm.only]
  have hdeclared : w'.tree.declared = w.tree.declared := by rw [htree, hm.only]; rfl
  have hmaterialized : w'.tree.materialized = w.tree.materialized := by rw [htree, hm.only]
  have hflight : w'.tree.inFlight = w.tree.inFlight := by rw [htree, hm.only]
  by_cases hseen : o ∈ m.seen
  · obtain ⟨_, hstale, _⟩ := hm.seen o hseen
    rw [← htree] at hstale
    refine ⟨fun _ hs => ?_, fun hmat _ hf => .inl (heager ?_), h.claimed_of hb fun _ => hstart⟩
    · rw [hstale] at hs
      simp at hs
    · rw [hmaterialized] at hmat
      rw [hflight] at hf
      exact (hm.eager o).mpr ⟨hseen, hmat, hf⟩
  · obtain ⟨hstale, hinv⟩ := hm.others o hseen
    rw [← htree] at hstale hinv
    by_cases hd : w.tree.declared o = true
    · have hnot : o ∉ outputs := fun ho => hseen (hclosed ho hd)
      exact h.same ⟨by rw [hdeclared], hstale, by rw [hmaterialized], by rw [hflight], hinv, hstart⟩
        hb (howed hnot) hl
    · refine h.done hb (by rw [hdeclared]) (fun hs => hstale ▸ hs) hinv hstart fun hmat => ?_
      rw [hmaterialized] at hmat
      exact absurd (htidy.materialized o hmat) hd

theorem Eager.resume (h : Eager w o) (htidy : w.tree.Tidy) (now : Int64) (ok : Bool) :
    Eager (w.resume now ok) o := by
  -- Most tasks leave all of this as it is, and owe nothing.
  have hleft : ∀ {w' : World} {task : Task} {todo : List Task}, w.todo = task :: todo →
      ¬task.Owes o → SameAt w.tree w'.tree o → w'.builds = w.builds →
      w'.buildCount = w.buildCount → w'.starting = w.starting → w'.lastResult = w.lastResult →
      (∀ other ∈ todo, other ∈ w'.todo) → Eager w' o := fun htodo htask ht hb hc hs hl hmem =>
    h.same ht (.of_builds hb hc) (fun howed => howed.tail htodo htask hs hmem) (by rw [hl])
  unfold World.resume
  split
  · exact h
  · next commands todo htodo =>
    refine h.takeCommands htidy (.of_builds rfl rfl) rfl (fun howed => ?_) rfl
    obtain howed | hchanged := howed
    · exact howed.tail htodo id rfl fun _ hmem => by simp [hmem]
    · exact .inr ⟨.collectReaders (w.tree.changesTo commands), by simp [State.takeCommands], hchanged⟩
  · next htodo =>
    exact hleft htodo id ⟨rfl, rfl, rfl, rfl, rfl, rfl⟩ rfl rfl rfl rfl fun _ => id
  · next htodo =>
    exact hleft htodo id ⟨rfl, rfl, rfl, rfl, rfl, rfl⟩ rfl rfl rfl rfl fun _ => id
  · next htodo => exact hleft htodo id (.refl _ o) rfl rfl rfl rfl fun _ => id
  · next changes todo htodo =>
    refine h.same (.refl _ o) (.of_builds rfl rfl) (fun howed => ?_) rfl
    refine howed.mono (fun _ => id) fun task hmem howes => ?_
    rw [htodo] at hmem
    obtain rfl | hmem := List.mem_cons.mp hmem
    · exact ⟨.invalidate (changes.changed ++ w.tree.readersOf (changes.removed ++ changes.added)),
        by simp, List.mem_append_left _ howes⟩
    · exact ⟨task, by simp [hmem], howes⟩
  · next htodo => exact hleft htodo id (.refl _ o) rfl rfl rfl rfl fun _ => id
  · next htodo =>
    exact hleft htodo id (.refl _ o) rfl rfl rfl rfl fun _ => List.mem_cons_of_mem _
  · next outputs todo htodo =>
    refine h.invalidate htidy (.of_builds rfl rfl) rfl (fun heager => ?_) (fun hnot howed => ?_) rfl
    · exact .inr ⟨.startBuild o, by simp [heager], rfl⟩
    · exact howed.tail htodo hnot rfl fun _ hmem => by simp [hmem]
  · next output todo htodo =>
    have hstarted := brought_startBuild { w with todo } output
    refine h.brought htidy (v := { w with todo }) rfl (fun ho howed => ?_) hstarted
    exact howed.tail htodo ho rfl fun _ => id

/-- Whatever runs, no rebuild owed is lost on the way. -/
theorem Eager.step (hall : ∀ o, Eager w o) (hs : Sound w) (he : w.enabled e) :
    Eager (w.step contentHash cached e) o := by
  have h := hall o
  have haside : e.aside = true → Eager (w.step contentHash cached e) o := fun ha => by
    have hw := @step_aside contentHash cached w e ha
    refine h.same (by rw [hw.tree]; exact .refl _ o) (step_onward w e) (fun howed => ?_)
      (by rw [hw.lastResult])
    exact howed.mono (fun _ ho => hw.starting ▸ ho) fun task hmem howes =>
      ⟨task, hw.todo ▸ hmem, howes⟩
  have hpublish : ∀ output command bytes inputs builtAt, SameAt w.tree
      (w.tree.publish contentHash cached output command bytes inputs builtAt).2 o := by
    intro output command bytes inputs builtAt
    unfold State.publish
    cases cached <;> exact ⟨rfl, rfl, rfl, rfl, rfl, rfl⟩
  cases e with
  | bringUpToDate output => exact h.brought hs.tidy rfl (fun _ => id) (w.brought output)
  | recordRead reader output =>
    refine h.same ?_ (.of_builds rfl rfl) id rfl
    show SameAt w.tree (w.tree.recordRead reader output) o
    unfold State.recordRead
    split
    · exact .refl _ o
    · exact ⟨rfl, rfl, rfl, rfl, rfl, rfl⟩
  | materializeAll =>
    by_cases hmem : o ∈ State.untraced w.tree.commands
    · have howed : ∀ v : World, v.starting = w.starting ++ State.untraced w.tree.commands → v.Owed o :=
        fun v hv => .inl (hv ▸ List.mem_append_right _ hmem)
      exact ⟨h.current, fun _ _ _ => .inl (howed _ rfl), h.claimed⟩
    · refine h.same ⟨rfl, rfl, ?_, rfl, rfl, rfl⟩ (.of_builds rfl rfl) (fun howed => ?_) rfl
      · show (w.tree.materialized o || decide (o ∈ State.untraced w.tree.commands)) = _
        simp [hmem]
      · exact howed.mono (fun _ ho => List.mem_append_left _ ho) fun task hmem howes =>
          ⟨task, hmem, howes⟩
  | startNext output =>
    have hstarted := brought_startBuild { w with starting := w.starting.erase output } output
    refine h.brought hs.tidy (v := { w with starting := w.starting.erase output }) rfl
      (fun ho howed => ?_) hstarted
    obtain howed | howed := howed
    · exact .inl ((List.mem_erase_of_ne ho).mpr howed)
    · exact .inr howed
  | publish b builtAt =>
    show Eager (w.publish contentHash cached b builtAt) o
    unfold World.publish
    dsimp only
    split
    · next bytes inputs _ =>
      split
      · exact h.same (.refl _ o) (.of_setStage (b := b) rfl rfl) id rfl
      · next command _ =>
        exact h.same (hpublish _ command bytes inputs builtAt) (.of_setStage (b := b) rfl rfl) id rfl
    · exact h
  | write b =>
    show Eager (w.write b) o
    unfold World.write
    dsimp only
    split
    · exact h.same ⟨rfl, rfl, rfl, rfl, rfl, rfl⟩ (.of_setStage (b := b) rfl rfl) id rfl
    · exact h
  | settle b =>
    have hsettled : ∀ result keep, Eager (w.settleWith b result keep) o := fun result keep => by
      obtain ⟨htodo, _, hstarting, _⟩ := w.settleWith_aside b result keep
      refine Eager.landed hall hs.tidy (w.landed b result keep) fun howed => ?_
      exact howed.mono (fun _ ho => hstarting ▸ ho) fun task hmem howes =>
        ⟨task, htodo ▸ hmem, howes⟩
    show Eager (w.settle b) o
    unfold World.settle
    split
    · exact hsettled _ _
    · exact hsettled _ _
    · exact h
  | sourceChange everythingDirty entriesChanged rules =>
    have hnone : w.todo = [] := he
    refine h.same (.refl _ o) (.of_builds rfl rfl) (fun howed => ?_) rfl
    refine howed.mono (fun _ => id) fun task hmem _ => ?_
    rw [hnone] at hmem
    simp at hmem
  | resume now ok => exact h.resume hs.tidy now ok
  | launch | endWork | complete | completeOrphaned | beginKeeping | stamp | store | editSource
  | coordinator => exact haside rfl

theorem Starts.eager (h : Starts contentHash cached w) : Eager w o := by
  have hidle := h.idle
  have hstart : w.invalidationsAtStart o = 0 := by
    unfold invalidationsAtStart
    rw [hidle.attempts]
    rfl
  refine ⟨fun _ _ => by rw [hstart, hidle.invalidations], fun hm => ?_, fun hne => absurd hstart hne⟩
  rw [hidle.materialized] at hm
  simp at hm

theorem eager (h : (machine contentHash cached).Reachable (fun _ _ => True) w) (o : Path) :
    Eager w o :=
  h.invariant_under (P := fun w => ∀ o, Eager w o) (Q := Sound) (fun _ => sound)
    (fun _ hs _ => Starts.eager hs) (fun _ _ hs hall he _ _ => Eager.step hall hs he) o

/-- No eager rebuild is lost: between callbacks, an output that is opened, idle and out of date is
one whose last build failed, and that build was claimed after whatever invalidated the output last
or was stopped. Until then its rebuild is still to be started. -/
theorem rebuilds_kept (h : (machine contentHash cached).Reachable (fun _ _ => True) w) :
    (∀ o, w.tree.materialized o = true → w.tree.stale o = true → w.tree.inFlight o = false →
      w.Owed o ∨ w.Failed o) ∧
    (w.todo = [] → w.starting = [] →
      (∀ o, w.tree.materialized o = true → w.tree.stale o = true → w.tree.inFlight o = false →
        ∃ result, w.lastResult o = some result ∧ result.isBuilt = false) ∧
      ∀ o, w.tree.materialized o = true → w.tree.inFlight o = false →
        (w.tree.invalidations o = 0 ∨ ∃ b < w.buildCount, (w.builds b).launch.output = o ∧
          (w.builds b).claimedAt = w.tree.invalidations o) ∨
        ∃ result, w.lastResult o = some result ∧ result.stopped = true) := by
  have hfailed : w.todo = [] → w.starting = [] → ∀ o, w.tree.materialized o = true →
      w.tree.stale o = true → w.tree.inFlight o = false → w.Failed o := by
    intro htodo hstarting o hm hs hf
    refine ((eager h o).owed hm hs hf).resolve_left ?_
    rintro (hmem | ⟨task, hmem, _⟩)
    · simp [hstarting] at hmem
    · simp [htodo] at hmem
  have hclaimed : ∀ o, w.invalidationsAtStart o = w.tree.invalidations o →
      w.tree.invalidations o = 0 ∨ ∃ b < w.buildCount, (w.builds b).launch.output = o ∧
        (w.builds b).claimedAt = w.tree.invalidations o := by
    intro o heq
    rw [← heq]
    by_cases hz : w.invalidationsAtStart o = 0
    · exact .inl hz
    · exact .inr ((eager h o).claimed hz)
  refine ⟨fun o => (eager h o).owed, fun htodo hstarting => ⟨fun o hm hs hf => ?_, fun o hm hf => ?_⟩⟩
  · obtain ⟨result, hlast, hnot, _⟩ := hfailed htodo hstarting o hm hs hf
    exact ⟨result, hlast, hnot⟩
  · by_cases hs : w.tree.stale o = true
    · obtain ⟨result, hlast, _, hstopped | heq⟩ := hfailed htodo hstarting o hm hs hf
      · exact .inr ⟨result, hlast, hstopped⟩
      · exact .inl (hclaimed o heq)
    · exact .inl (hclaimed o ((eager h o).current ((sound h).tidy.materialized o hm)
        (by simpa using hs)))

theorem rebuilds_kept_failsToRun :
    ∃ result, ((machine (fun _ => []) false).runs declaresOne failsToRun).lastResult [['a']] =
      some result ∧ result.isBuilt = false :=
  ((rebuilds_kept failsToRun_reachable).2 rfl rfl).1 [['a']] rfl rfl rfl

end World

end MakeBelieve.Tree
