import MakeBelieve.Tree.Eager

namespace MakeBelieve.Tree

open Library

namespace World

variable {contentHash : Bytes → Hash} {cached : Bool}
variable {w w' : World} {b : BuildId} {output o : Path} {s t : State} {e : Event}

/-- What the invalidations counted of an output say of the build under way: one that none has come
after leaves it up to date and declared, and an open waits on the next only if one has. -/
structure Timely (w : World) (output : Path) : Prop where
  atMost : w.invalidationsAtStart output ≤ w.tree.invalidations output
  last : w.tree.inFlight output = true →
    w.invalidationsAtStart output = w.tree.invalidations output →
      w.tree.declared output = true ∧ w.tree.stale output = false
  next : ((w.tree.attempts output).getD {}).next ≠ none → OutOfDate w.tree output

/-- Nothing has changed of what a next attempt at an output hangs on. -/
structure SameNext (s t : State) (output : Path) : Prop extends SameAt s t output where
  next : ((t.attempts output).getD {}).next = ((s.attempts output).getD {}).next

theorem Timely.same (h : Timely w o) (ht : SameNext w.tree w'.tree o) : Timely w' o := by
  have hstart : w'.invalidationsAtStart o = w.invalidationsAtStart o := ht.start
  refine ⟨?_, ?_, ?_⟩
  · rw [hstart, ht.invalidations]
    exact h.atMost
  · rw [hstart, ht.invalidations, ht.inFlight, ht.declared, ht.stale]
    exact h.last
  · rw [ht.next]
    exact fun hne => (h.next hne).same ht.toSameAt

theorem OpenedAs.sameNext (ht : OpenedAs s output t) (h : o ≠ output) : SameNext s t o :=
  ⟨ht.sameAt h, ht.same.next o⟩

theorem OpenedAs.inFlight (ht : OpenedAs s output t) : t.inFlight = s.inFlight :=
  ht.same.inFlight

/-- An open has nothing under way go stale. -/
theorem OpenedAs.stale_of_inFlight (ht : OpenedAs s output t) (hf : s.inFlight o = true) :
    t.stale o = s.stale o := by
  obtain rfl | ⟨command, _, rfl⟩ := ht
  · rfl
  · rw [State.opened_stale]
    split
    · next htraced =>
      refine Function.update_of_ne (fun heq => ?_) ..
      rw [← heq, hf] at htraced
      simp at htraced
    · rfl

theorem Timely.opened (h : Timely w o) (ht : OpenedAs w.tree output w'.tree) : Timely w' o := by
  have hstart : w'.invalidationsAtStart o = w.invalidationsAtStart o := ht.start o
  refine ⟨?_, fun hf hat => ?_, fun hne => ?_⟩
  · rw [hstart, ht.invalidations]
    exact h.atMost
  · rw [hstart, ht.invalidations] at hat
    rw [ht.inFlight] at hf
    rw [ht.declared, ht.stale_of_inFlight hf]
    exact h.last hf hat
  · rw [ht.same.next] at hne
    exact (h.next hne).opened ht

theorem claim_sameNext (s : State) {output o : Path} (h : o ≠ output) :
    SameNext s (s.claimBuild output) o :=
  ⟨claim_sameAt s h, by rw [State.claimBuild_attempts, Function.update_of_ne h]⟩

theorem Timely.claim (h : o ≠ output → Timely w o) (hd : w.tree.declared output = true)
    (behind : Option BuildId) : Timely (w.claim output behind) o := by
  by_cases ho : o = output
  · subst ho
    have hattempts := w.tree.claimBuild_attempts o
    have hinv : (w.tree.claimBuild o).invalidations = w.tree.invalidations := by
      rw [State.claimBuild_only]
    have hstart : (w.claim o behind).invalidationsAtStart o =
        (w.claim o behind).tree.invalidations o := by
      rw [invalidationsAtStart, claim_tree, hattempts, Function.update_self, hinv]
      rfl
    refine ⟨Nat.le_of_eq hstart, fun _ _ => ?_, fun hne => absurd ?_ hne⟩
    · rw [claim_tree, State.claimBuild_declared]
      exact ⟨hd, Function.update_self ..⟩
    · rw [claim_tree, hattempts, Function.update_self]
      rfl
  · exact (h ho).same (claim_sameNext w.tree ho)

theorem Timely.brought (h : Timely w o) {v : World} (hv : v.tree = w.tree)
    (hb : Brought v output w') : Timely w' o := by
  cases hb with
  | none ht => exact h.opened (hv ▸ ht)
  | @minted t ht hf hs =>
    have hopened : Timely { v with tree := t } o := h.opened (hv ▸ ht)
    by_cases ho : o = output
    · subst ho
      have hstart := (minted_sameAt t o o).start
      refine ⟨?_, fun hf' hat => hopened.last hf' (hstart.symm.trans hat), fun _ _ => hs⟩
      exact Nat.le_trans (Nat.le_of_eq hstart) hopened.atMost
    · refine hopened.same ⟨minted_sameAt t output o, ?_⟩
      show ((Function.update t.attempts output _ o).getD {}).next = _
      rw [Function.update_of_ne ho]
  | @claimed t ht _ _ hd =>
    have hopened : Timely { v with tree := t } o := h.opened (hv ▸ ht)
    exact .claim (fun _ => hopened) hd _

theorem Timely.landed (hall : ∀ o, Timely w o) {result : BuildResult} {keep : Option Keep}
    (hland : Landed w b result keep w') : Timely w' o := by
  let output := (w.builds b).launch.output
  have hout := w.tree.outcome_only output result
  unfold State.OnlyDepends at hout
  have hdeclared : (w.tree.outcome output result).declared = w.tree.declared := by rw [hout]; rfl
  have hothers : o ≠ output → SameNext w.tree (w.tree.outcome output result) o := fun ho =>
    ⟨outcome_sameAt w.tree result ho, by rw [hout]⟩
  cases hland with
  | removed hd =>
    have hland := w.tree.landed_only output result
    unfold State.OnlyDepends at hland
    have hdeclared' : (w.tree.landed output result).declared = w.tree.declared := by
      rw [hland]; rfl
    have hinv : (w.tree.landed output result).invalidations = w.tree.invalidations := by
      rw [hland]
    by_cases ho : o = output
    · subst ho
      refine ⟨?_, fun hf => ?_, fun _ hd' => ?_⟩
      · show ((Function.update w.tree.attempts output none output).getD {}).invalidationsAtStart ≤ _
        rw [Function.update_self]
        exact Nat.zero_le _
      · have hf' : (w.tree.landed output result).inFlight output = true := hf
        rw [hland] at hf'
        simp [output] at hf'
      · have hd'' : (w.tree.landed output result).declared output = true := hd'
        rw [hdeclared', hd] at hd''
        simp at hd''
    · refine (hall o).same ⟨⟨congrFun hdeclared' o, ?_, ?_, ?_, congrFun hinv o, ?_⟩, ?_⟩
      · show (w.tree.landed output result).stale o = _
        rw [hland]
      · show (w.tree.landed output result).materialized o = _
        rw [hland]
      · show (w.tree.landed output result).inFlight o = _
        rw [hland]
        exact Function.update_of_ne ho ..
      · show ((Function.update w.tree.attempts output none o).getD {}).invalidationsAtStart = _
        rw [Function.update_of_ne ho]
      · show ((Function.update w.tree.attempts output none o).getD {}).next = _
        rw [Function.update_of_ne ho]
  | rebuilt hd =>
    refine .claim (fun ho => (hall o).same (hothers ho)) ?_ _
    show (w.tree.outcome output result).declared output = true
    rw [hdeclared]
    exact hd
  | idle hd hn =>
    by_cases ho : o = output
    · subst ho
      have hattempts : (w.tree.outcome output result).attempts = w.tree.attempts := by rw [hout]
      have hinv : (w.tree.outcome output result).invalidations = w.tree.invalidations := by
        rw [hout]
      refine ⟨?_, fun hf => ?_, fun hne => absurd ?_ hne⟩
      · show (((w.tree.outcome output result).attempts output).getD {}).invalidationsAtStart ≤
          (w.tree.outcome output result).invalidations output
        rw [hattempts, hinv]
        exact (hall output).atMost
      · have hf' : (w.tree.outcome output result).inFlight output = true := hf
        rw [hout] at hf'
        simp [output] at hf'
      · show (((w.tree.outcome output result).attempts output).getD {}).next = none
        rw [hattempts]
        exact hn
    · exact (hall o).same (hothers ho)

theorem Timely.takeCommands (h : Timely w o) {commands : Commands}
    (htree : w'.tree = (w.tree.takeCommands commands).2) : Timely w' o := by
  have ht := w.tree.takeCommands_taken commands
  have hnext : OutOfDate w.tree o → OutOfDate w'.tree o := fun h => by
    rw [htree]
    exact h.takeCommands commands
  rw [← htree] at ht
  have hdeclared : w'.tree.declared o = (commands.find o).isSome := by rw [ht.only]; rfl
  have hflight : w'.tree.inFlight = w.tree.inFlight := by rw [ht.only]
  by_cases hgone : w.tree.declared o = true ∧ commands.find o = none
  · have hforgotten := ht.removed o hgone.1 hgone.2
    have hle : w'.invalidationsAtStart o ≤ w.tree.invalidations o := by
      unfold invalidationsAtStart
      rw [hforgotten.attempts]
      split
      · exact h.atMost
      · exact Nat.zero_le _
    have hlt : w'.invalidationsAtStart o < w'.tree.invalidations o := by
      rw [hforgotten.invalidations]
      exact Nat.lt_succ_of_le hle
    refine ⟨Nat.le_of_lt hlt, fun _ hat => absurd hat (Nat.ne_of_lt hlt), fun _ hd => ?_⟩
    rw [hdeclared, hgone.2] at hd
    simp at hd
  · obtain ⟨_, hinv, hattempts, _⟩ := ht.kept o hgone
    have hstart : w'.invalidationsAtStart o = w.invalidationsAtStart o := by
      unfold invalidationsAtStart
      rw [hattempts]
    refine ⟨by rw [hstart, hinv]; exact h.atMost, fun hf hat => ?_, fun hne => ?_⟩
    · rw [hstart, hinv] at hat
      rw [hflight] at hf
      obtain ⟨hd, hs⟩ := h.last hf hat
      have hfind : (commands.find o).isSome = true := by
        rw [Option.isSome_iff_ne_none]
        exact fun hnone => hgone ⟨hd, hnone⟩
      rw [hdeclared, (ht.untouched o (fun hnew => by simp [hd] at hnew) hgone).1]
      exact ⟨hfind, hs⟩
    · rw [hattempts] at hne
      exact hnext (h.next hne)

theorem Timely.invalidate (h : Timely w o) {outputs : List Path}
    (htree : w'.tree = (w.tree.invalidate outputs).state) : Timely w' o := by
  have hm := w.tree.invalidate_marked outputs
  have hnext : OutOfDate w.tree o → OutOfDate w'.tree o := fun h => by
    rw [htree]
    exact h.invalidate outputs
  have hattempts : w'.tree.attempts = w.tree.attempts := by rw [htree, hm.only]
  have hdeclared : w'.tree.declared = w.tree.declared := by rw [htree, hm.only]; rfl
  have hflight : w'.tree.inFlight = w.tree.inFlight := by rw [htree, hm.only]
  have hstart : w'.invalidationsAtStart o = w.invalidationsAtStart o := by
    unfold invalidationsAtStart
    rw [hattempts]
  have hlast : ((w'.tree.attempts o).getD {}).next ≠ none → OutOfDate w'.tree o := fun hne => by
    rw [hattempts] at hne
    exact hnext (h.next hne)
  by_cases hseen : o ∈ (w.tree.invalidate outputs).seen
  · obtain ⟨_, _, hinv⟩ := hm.seen o hseen
    rw [← htree] at hinv
    have hlt : w'.invalidationsAtStart o < w'.tree.invalidations o := by
      rw [hstart, hinv]
      exact Nat.lt_succ_of_le h.atMost
    exact ⟨Nat.le_of_lt hlt, fun _ hat => absurd hat (Nat.ne_of_lt hlt), hlast⟩
  · obtain ⟨hstale, hinv⟩ := hm.others o hseen
    rw [← htree] at hstale hinv
    refine ⟨by rw [hstart, hinv]; exact h.atMost, ?_, hlast⟩
    rw [hstart, hinv, hflight, hdeclared, hstale]
    exact h.last

theorem Timely.step (hall : ∀ o, Timely w o) (e : Event) :
    Timely (w.step contentHash cached e) o := by
  have h := hall o
  have hsame : ∀ {w' : World}, w'.tree = w.tree → Timely w' o := fun htree =>
    h.same (by rw [htree]; exact ⟨.refl _ o, rfl⟩)
  cases e with
  | bringUpToDate output => exact h.brought rfl (w.brought output)
  | recordRead reader output =>
    refine h.same ?_
    show SameNext w.tree (w.tree.recordRead reader output) o
    unfold State.recordRead
    split
    · exact ⟨.refl _ o, rfl⟩
    · exact ⟨⟨rfl, rfl, rfl, rfl, rfl, rfl⟩, rfl⟩
  | materializeAll => exact ⟨h.atMost, h.last, h.next⟩
  | startNext output =>
    exact h.brought (v := { w with starting := w.starting.erase output }) rfl
      (brought_startBuild _ output)
  | publish b builtAt =>
    show Timely (w.publish contentHash cached b builtAt) o
    unfold World.publish State.publish
    dsimp only
    split
    · split
      · exact hsame rfl
      · cases cached <;> exact h.same ⟨⟨rfl, rfl, rfl, rfl, rfl, rfl⟩, rfl⟩
    · exact h
  | write b =>
    show Timely (w.write b) o
    unfold World.write
    dsimp only
    split
    · exact h.same ⟨⟨rfl, rfl, rfl, rfl, rfl, rfl⟩, rfl⟩
    · exact h
  | settle b =>
    show Timely (w.settle b) o
    unfold World.settle
    split
    · exact .landed hall (w.landed b _ _)
    · exact .landed hall (w.landed b _ _)
    · exact h
  | sourceChange => exact hsame rfl
  | resume now ok =>
    show Timely (w.resume now ok) o
    unfold World.resume
    split
    · exact h
    · exact h.takeCommands rfl
    · exact h.same ⟨⟨rfl, rfl, rfl, rfl, rfl, rfl⟩, rfl⟩
    · exact h.same ⟨⟨rfl, rfl, rfl, rfl, rfl, rfl⟩, rfl⟩
    · exact hsame rfl
    · exact hsame rfl
    · exact hsame rfl
    · exact hsame rfl
    · exact h.invalidate rfl
    · next output todo _ =>
      exact h.brought (v := { w with todo }) rfl (brought_startBuild _ output)
  | launch | endWork | complete | completeOrphaned | beginKeeping | stamp | store | editSource
  | coordinator => exact hsame (step_aside rfl).tree

theorem Starts.timely (h : Starts contentHash cached w) : Timely w o := by
  have hidle := h.idle
  have hstart : w.invalidationsAtStart o = 0 := by
    unfold invalidationsAtStart
    rw [hidle.attempts]
    rfl
  refine ⟨by rw [hstart]; exact Nat.zero_le _, fun hf => ?_, fun hne => absurd ?_ hne⟩
  · rw [hidle.inFlight] at hf
    simp at hf
  · rw [hidle.attempts]
    rfl

theorem timely {ok : World → Event → Prop} (h : (machine contentHash cached).Reachable ok w)
    (o : Path) : Timely w o :=
  h.invariant (P := fun w => ∀ o, Timely w o) (fun _ hs _ => Starts.timely hs)
    (fun _ e hall _ _ _ => Timely.step hall e) o

/-! ### Invalidations are counted up -/

theorem invalidations_claim (w : World) (output : Path) (behind : Option BuildId) :
    (w.claim output behind).tree.invalidations = w.tree.invalidations := by
  rw [claim_tree, State.claimBuild_only]

theorem Brought.invalidations (hb : Brought w output w') :
    w'.tree.invalidations = w.tree.invalidations := by
  cases hb with
  | none ht => exact ht.invalidations
  | minted ht => exact ht.invalidations
  | claimed ht => rw [invalidations_claim]; exact ht.invalidations

theorem Landed.invalidations {result : BuildResult} {keep : Option Keep}
    (hland : Landed w b result keep w') : w'.tree.invalidations = w.tree.invalidations := by
  have hout := w.tree.outcome_only (w.builds b).launch.output result
  have hlanded := w.tree.landed_only (w.builds b).launch.output result
  unfold State.OnlyDepends at hout hlanded
  cases hland with
  | removed =>
    show (w.tree.landed (w.builds b).launch.output result).invalidations = _
    rw [hlanded]
  | rebuilt =>
    rw [invalidations_claim]
    show (w.tree.outcome (w.builds b).launch.output result).invalidations = _
    rw [hout]
  | idle =>
    show (w.tree.outcome (w.builds b).launch.output result).invalidations = _
    rw [hout]

/-- An output is invalidated only by being left out of date. -/
theorem step_invalidations (w : World) (e : Event) (o : Path) :
    (w.step contentHash cached e).tree.invalidations o = w.tree.invalidations o ∨
      (w.step contentHash cached e).tree.invalidations o = w.tree.invalidations o + 1 ∧
        OutOfDate (w.step contentHash cached e).tree o := by
  have hsame : ∀ {w' : World}, w'.tree.invalidations = w.tree.invalidations →
      w'.tree.invalidations o = w.tree.invalidations o ∨
        w'.tree.invalidations o = w.tree.invalidations o + 1 ∧ OutOfDate w'.tree o := fun heq =>
    .inl (congrFun heq o)
  cases e with
  | bringUpToDate output => exact hsame (w.brought output).invalidations
  | recordRead reader output =>
    refine hsame (show (w.tree.recordRead reader output).invalidations = _ from ?_)
    unfold State.recordRead
    split <;> rfl
  | materializeAll | sourceChange => exact hsame rfl
  | startNext output =>
    exact hsame (brought_startBuild { w with starting := w.starting.erase output } output).invalidations
  | publish b builtAt =>
    refine hsame (show (w.publish contentHash cached b builtAt).tree.invalidations = _ from ?_)
    unfold World.publish State.publish
    dsimp only
    split
    · split
      · rfl
      · cases cached <;> rfl
    · rfl
  | write b =>
    refine hsame (show (w.write b).tree.invalidations = _ from ?_)
    unfold World.write
    dsimp only
    split <;> rfl
  | settle b =>
    refine hsame (show (w.settle b).tree.invalidations = _ from ?_)
    unfold World.settle
    split
    · exact (w.landed b _ _).invalidations
    · exact (w.landed b _ _).invalidations
    · rfl
  | resume now ok =>
    show (w.resume now ok).tree.invalidations o = _ ∨
      (w.resume now ok).tree.invalidations o = _ ∧ OutOfDate (w.resume now ok).tree o
    unfold World.resume
    split
    · exact hsame rfl
    · next commands todo _ =>
      have ht := w.tree.takeCommands_taken commands
      show (w.tree.takeCommands commands).2.invalidations o = _ ∨
        (w.tree.takeCommands commands).2.invalidations o = _ ∧
          OutOfDate (w.tree.takeCommands commands).2 o
      by_cases hgone : w.tree.declared o = true ∧ commands.find o = none
      · refine .inr ⟨(ht.removed o hgone.1 hgone.2).invalidations, fun hd => ?_⟩
        have hd' : (commands.find o).isSome = true := by
          rw [ht.only] at hd
          exact hd
        rw [hgone.2] at hd'
        simp at hd'
      · exact .inl (ht.kept o hgone).2.1
    · exact hsame rfl
    · exact hsame rfl
    · exact hsame rfl
    · exact hsame rfl
    · exact hsame rfl
    · exact hsame rfl
    · next outputs todo _ =>
      have hm := w.tree.invalidate_marked outputs
      show (w.tree.invalidate outputs).state.invalidations o = _ ∨
        (w.tree.invalidate outputs).state.invalidations o = _ ∧
          OutOfDate (w.tree.invalidate outputs).state o
      by_cases hseen : o ∈ (w.tree.invalidate outputs).seen
      · exact .inr ⟨(hm.seen o hseen).2.2, fun _ => (hm.seen o hseen).2.1⟩
      · exact .inl (hm.others o hseen).2
    · next output todo _ =>
      exact hsame (brought_startBuild { w with todo } output).invalidations
  | launch | endWork | complete | completeOrphaned | beginKeeping | stamp | store | editSource
  | coordinator => exact hsame (by rw [(step_aside rfl).tree])

theorem invalidations_step (w : World) (e : Event) (o : Path) :
    w.tree.invalidations o ≤ (w.step contentHash cached e).tree.invalidations o := by
  obtain heq | ⟨heq, _⟩ := @step_invalidations contentHash cached w e o
  · exact Nat.le_of_eq heq.symm
  · exact heq ▸ Nat.le_succ _

end World

end MakeBelieve.Tree
