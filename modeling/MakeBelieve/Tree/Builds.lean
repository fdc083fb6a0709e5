import MakeBelieve.Tree.Ledger

namespace MakeBelieve.Tree

open Coordinator (AttemptId System)
open Library

namespace World

variable {contentHash : Bytes → Hash} {cached : Bool}
variable {w w' : World} {b c : BuildId} {output : Path} {s t : State}

/-! ### What each step does to the tree, as far as the ledger speaks of it -/

theorem opened_same (s : State) (output : Path) (command : Command) :
    SameTree s (s.opened output command) := by
  refine ⟨rfl, fun o => ?_, fun o _ attempts ha => ?_, rfl, rfl⟩
  · rw [State.opened_attempts, Function.update_apply]
    split
    · next heq => rw [heq]; rfl
    · rfl
  · rw [State.opened_attempts, Function.update_apply]
    split
    · next heq => rw [← heq, ha]; rfl
    · exact ha

theorem recordRead_same (s : State) (reader output : Path) :
    SameTree s (s.recordRead reader output) := by
  unfold State.recordRead
  split
  · exact .refl s
  · exact ⟨rfl, fun _ => rfl, fun _ _ _ => id, rfl, rfl⟩

theorem publish_same (s : State) (output : Path) (command : Command) (bytes : Bytes)
    (inputs : List Path) (builtAt : Int64) :
    SameTree s (s.publish contentHash cached output command bytes inputs builtAt).2 := by
  unfold State.publish
  cases cached <;> exact ⟨rfl, fun _ => rfl, fun _ _ _ => id, rfl, rfl⟩

theorem takeCommands_same (h : s.Tidy) (commands : Commands) :
    SameTree s (s.takeCommands commands).2 := by
  have ht := s.takeCommands_taken commands
  generalize (s.takeCommands commands).2 = t at ht ⊢
  refine ⟨by rw [ht.only], fun o => ?_, fun o hf attempts ha => ?_, by rw [ht.only],
    by rw [ht.only]⟩
  · by_cases hgone : s.declared o = true ∧ commands.find o = none
    · rw [(ht.removed o hgone.1 hgone.2).attempts]
      split
      · rfl
      · next hf => rw [h.getD_next (by simpa using hf)]; rfl
    · rw [(ht.kept o hgone).2.2.1]
  · by_cases hgone : s.declared o = true ∧ commands.find o = none
    · rw [(ht.removed o hgone.1 hgone.2).attempts, if_pos hf]
      exact ha
    · rw [(ht.kept o hgone).2.2.1]
      exact ha

theorem invalidate_same (s : State) (outputs : List Path) :
    SameTree s (s.invalidate outputs).state := by
  have hm := (s.invalidate_marked outputs).only
  generalize s.invalidate outputs = m at hm ⊢
  refine ⟨?_, fun o => ?_, fun o _ attempts ha => ?_, ?_, ?_⟩
  all_goals rw [hm]
  exact ha

/-- The tree as it was, or with an output in it looked up by an open. -/
def OpenedAs (s : State) (output : Path) (t : State) : Prop :=
  t = s ∨ ∃ command, s.commands.find output = some command ∧ t = s.opened output command

theorem OpenedAs.same (h : OpenedAs s output t) : SameTree s t := by
  obtain rfl | ⟨command, _, rfl⟩ := h
  · exact .refl _
  · exact opened_same _ _ _

theorem OpenedAs.tidy (h : OpenedAs s output t) (hs : s.Tidy) : t.Tidy := by
  obtain rfl | ⟨command, hc, rfl⟩ := h
  · exact hs
  · exact hs.opened hc

/-- All that a request of the tree comes to. Nothing of an output left alone is out of date. -/
inductive Brought (w : World) (output : Path) : World → Prop
  | none {t : State} (ht : OpenedAs w.tree output t)
      (hs : t.inFlight output = true ∨ t.stale output = false ∨ t.declared output = false) :
      Brought w output { w with tree := t }
  | minted {t : State} (ht : OpenedAs w.tree output t) (hf : t.inFlight output = true)
      (hs : t.stale output = true) (hn : ((t.attempts output).getD {}).next = Option.none) :
      Brought w output (({ w with tree := t } : World).enter (t.minted output))
  | claimed {t : State} (ht : OpenedAs w.tree output t) (hf : t.inFlight output = false)
      (hs : t.stale output = true) (hd : t.declared output = true) :
      Brought w output (({ w with tree := t } : World).claim output Option.none)

theorem enter_of_count {t u : State} (h : t.attemptCount = w.tree.attemptCount) :
    w.enter u = ({ w with tree := t } : World).enter u := by
  unfold enter
  simp only [h]

theorem brought (w : World) (output : Path) : Brought w output (w.bringUpToDate output) := by
  have hcases := w.tree.broughtUpToDate output
  have hdef : w.bringUpToDate output = (w.enter (w.tree.bringUpToDate output).2).addBuild
      (w.tree.bringUpToDate output).1.launch none := rfl
  rw [hdef]
  generalize w.tree.bringUpToDate output = r at hcases ⊢
  cases hcases with
  | undeclared hc =>
    show Brought w output (w.enter w.tree)
    rw [enter_same rfl]
    exact .none (.inl rfl) (.inr (.inr (by simpa [State.declared] using hc)))
  | @joined command hc hf | @next command _ hc hf =>
    show Brought w output (w.enter (w.tree.opened output command))
    rw [@enter_same w (w.tree.opened output command) rfl]
    exact .none (.inr ⟨command, hc, rfl⟩) (.inl hf)
  | @fresh command hc hf hs =>
    show Brought w output (w.enter (w.tree.opened output command))
    rw [@enter_same w (w.tree.opened output command) rfl]
    exact .none (.inr ⟨command, hc, rfl⟩) (.inr (.inl hs))
  | @minted command hc hf hs hn =>
    show Brought w output (w.enter ((w.tree.opened output command).minted output))
    rw [@enter_of_count w (w.tree.opened output command) _ rfl]
    refine .minted (.inr ⟨command, hc, rfl⟩) hf ?_ (((opened_same _ _ _).next output).trans hn)
    rw [State.opened_stale, if_neg (by simp [hf])]
    exact hs
  | @claimed command hc hf hs =>
    show Brought w output ((w.enter ((w.tree.opened output command).claimBuild output)).addBuild
      (some ((w.tree.opened output command).launch output)) none)
    rw [@enter_of_count w (w.tree.opened output command) _ rfl]
    exact .claimed (.inr ⟨command, hc, rfl⟩) hf hs
      (show (w.tree.commands.find output).isSome = true by rw [hc]; rfl)

theorem brought_startBuild (w : World) (output : Path) :
    Brought w output (w.startBuild output) := by
  have hdef : w.startBuild output = (w.enter (w.tree.startBuild output).2).addBuild
      (w.tree.startBuild output).1 none := rfl
  rw [hdef]
  obtain ⟨heq, hnot⟩ | ⟨heq, hs, hf, hd⟩ := w.tree.startBuild_cases output
  · rw [heq]
    show Brought w output (w.enter w.tree)
    rw [enter_same rfl]
    exact .none (.inl rfl) (by tauto)
  · rw [heq]
    exact .claimed (.inl rfl) hf hs hd

/-- All that the end of a build comes to: its output lands, and is claimed again if that is owed. -/
inductive Landed (w : World) (b : BuildId) (result : BuildResult) (keep : Option Keep) :
    World → Prop
  | removed (hd : w.tree.declared (w.builds b).launch.output = false) :
      Landed w b result keep
        { w.setStage b (.settled result keep
            ((w.tree.attempts (w.builds b).launch.output).getD {}).next) with
          tree := { w.tree.landed (w.builds b).launch.output result with
            attempts := Function.update w.tree.attempts (w.builds b).launch.output none }
          lastResult := Function.update w.lastResult (w.builds b).launch.output (some result) }
  | rebuilt (hd : w.tree.declared (w.builds b).launch.output = true)
      (hr : ((w.tree.attempts (w.builds b).launch.output).getD {}).next.isSome = true ∨
        w.tree.stale (w.builds b).launch.output = true ∧ result.stopped = false ∧
          w.tree.materialized (w.builds b).launch.output = true) :
      Landed w b result keep
        (({ w.setStage b (.settled result keep none) with
            tree := w.tree.outcome (w.builds b).launch.output result
            lastResult := Function.update w.lastResult (w.builds b).launch.output (some result) } :
          World).claim (w.builds b).launch.output (some b))
  | idle (hd : w.tree.declared (w.builds b).launch.output = true)
      (hn : ((w.tree.attempts (w.builds b).launch.output).getD {}).next = none)
      (hr : ¬(w.tree.stale (w.builds b).launch.output = true ∧ result.stopped = false ∧
        w.tree.materialized (w.builds b).launch.output = true)) :
      Landed w b result keep
        { w.setStage b (.settled result keep none) with
          tree := w.tree.outcome (w.builds b).launch.output result
          lastResult := Function.update w.lastResult (w.builds b).launch.output (some result) }

theorem outcome_attemptCount (s : State) (output : Path) (result : BuildResult) :
    (s.outcome output result).attemptCount = s.attemptCount := by
  have h := s.outcome_only output result
  unfold State.OnlyDepends at h
  rw [h]

theorem landed (w : World) (b : BuildId) (result : BuildResult) (keep : Option Keep) :
    Landed w b result keep (w.settleWith b result keep) := by
  let output := (w.builds b).launch.output
  have hcases := w.tree.settledAs output result
  let lasted : World := { w with lastResult := Function.update w.lastResult output (some result) }
  have hdef : w.settleWith b result keep =
      ((lasted.setStage b (.settled result keep (w.tree.settle output result).1.orphaned)).enter
        (w.tree.settle output result).2).addBuild (w.tree.settle output result).1.next (some b) := rfl
  rw [hdef]
  have hcount := outcome_attemptCount w.tree output result
  generalize w.tree.settle output result = r at hcases ⊢
  cases hcases with
  | removed hd =>
    have hland := w.tree.landed_only output result
    unfold State.OnlyDepends at hland
    have hsame : ({ w.tree.landed output result with
        attempts := Function.update w.tree.attempts output none } : State).attemptCount =
        w.tree.attemptCount := by
      rw [hland]
    show Landed w b result keep ((lasted.setStage b (.settled result keep
      ((w.tree.attempts output).getD {}).next)).enter { w.tree.landed output result with
        attempts := Function.update w.tree.attempts output none })
    rw [@enter_same (lasted.setStage b (.settled result keep
      ((w.tree.attempts output).getD {}).next)) _ hsame]
    exact .removed hd
  | rebuilt hd hr =>
    show Landed w b result keep (((lasted.setStage b (.settled result keep none)).enter
      ((w.tree.outcome output result).claimBuild output)).addBuild
        (some ((w.tree.outcome output result).launch output)) (some b))
    rw [@enter_of_count (lasted.setStage b (.settled result keep none))
      (w.tree.outcome output result) _ hcount]
    exact .rebuilt hd hr
  | idle hd hn hr =>
    show Landed w b result keep ((lasted.setStage b (.settled result keep none)).enter
      (w.tree.outcome output result))
    rw [@enter_same (lasted.setStage b (.settled result keep none)) _ hcount]
    exact .idle hd hn hr

/-! ### The ledger is kept -/

theorem Ledger.withTree (h : Ledger w) (ht : SameTree w.tree t) :
    Ledger ({ w with tree := t } : World) :=
  h.same (SameTree.same ht rfl rfl rfl rfl)

theorem Ledger.brought (h : Ledger w) (hb : Brought w output w') : Ledger w' := by
  cases hb with
  | none ht => exact h.withTree ht.same
  | minted ht hf _ hn => exact (h.withTree ht.same).minted hn hf
  | claimed ht hf => exact (h.withTree ht.same).claim hf none

theorem Ledger.lastResult (h : Ledger w) (lastResult : Path → Option BuildResult) :
    Ledger { w with lastResult } :=
  h.same (SameTree.same (.refl _) rfl rfl rfl rfl)

theorem Ledger.outcome (h : Ledger w) (hb : (w.builds b).stage.unfinished = true)
    (result : BuildResult) (keep : Option Keep) :
    Ledger { w.setStage b (.settled result keep none) with
      tree := w.tree.outcome (w.builds b).launch.output result } := by
  have hout := w.tree.outcome_only (w.builds b).launch.output result
  unfold State.OnlyDepends at hout
  refine h.land hb ?_ ?_ ?_ (.inl ⟨rfl, ?_⟩) <;> rw [hout]

theorem Ledger.landed (h : Ledger w) (hb : (w.builds b).stage.unfinished = true)
    {result : BuildResult} {keep : Option Keep} (hl : Landed w b result keep w') : Ledger w' := by
  cases hl with
  | removed =>
    have hland := w.tree.landed_only (w.builds b).launch.output result
    unfold State.OnlyDepends at hland
    have hled : Ledger { w.setStage b (.settled result keep
        ((w.tree.attempts (w.builds b).launch.output).getD {}).next) with
        tree := { w.tree.landed (w.builds b).launch.output result with
          attempts := Function.update w.tree.attempts (w.builds b).launch.output none } } := by
      refine h.land hb ?_ ?_ ?_ (.inr ⟨rfl, rfl⟩) <;> rw [hland]
    exact hled.lastResult _
  | rebuilt =>
    refine ((h.outcome hb result keep).lastResult _).claim ?_ _
    have hout := w.tree.outcome_only (w.builds b).launch.output result
    unfold State.OnlyDepends at hout
    show (w.tree.outcome (w.builds b).launch.output result).inFlight _ = false
    rw [hout]
    exact Function.update_self ..
  | idle => exact (h.outcome hb result keep).lastResult _

end World

end MakeBelieve.Tree
