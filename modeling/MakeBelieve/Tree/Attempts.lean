import MakeBelieve.Tree.Sound

namespace MakeBelieve.Tree

open Coordinator (AttemptId System)
open Library

namespace World

variable {contentHash : Bytes → Hash} {cached : Bool} {w w' : World} {b c : BuildId}

/-- A build whose attempt is yet to be completed is the current one of its output, or is in the
hands of the `finish_build` that took its output out of flight. -/
theorem Ledger.place (hl : Ledger w) (ht : w.tree.Tidy) {a : AttemptId}
    (ha : a < w.tree.attemptCount) (hnot : a ∉ w.completed) :
    (∃ o, w.tree.inFlight o = true ∧ ((w.tree.attempts o).getD {}).current = some a) ∨
    (∃ o, w.tree.inFlight o = true ∧ ((w.tree.attempts o).getD {}).next = some a) ∨
    ∃ b, (w.builds b).stage.unfinished = false ∧ (w.builds b).stage ≠ .over ∧
      ((w.builds b).launch.attempt = a ∨ (w.builds b).stage.orphan = some a) := by
  obtain ⟨p, hp⟩ := (hl.held a ha).resolve_left hnot
  cases p with
  | build b =>
    obtain ⟨hu, rfl⟩ := hp
    by_cases hun : (w.builds b).stage.unfinished = true
    · obtain ⟨next, hnext⟩ := hl.current b hun
      exact .inl ⟨_, (hl.flight _).mpr ⟨b, hun, rfl⟩, by rw [hnext]; rfl⟩
    · refine .inr (.inr ⟨b, by simpa using hun, ?_, .inl rfl⟩)
      intro hover
      rw [hover] at hu
      simp [Stage.unreleased, Stage.unfinished] at hu
  | next o =>
    refine .inr (.inl ⟨o, ?_, hp⟩)
    have hp' : ((w.tree.attempts o).getD {}).next = some a := hp
    by_contra hf
    rw [ht.getD_next (by simpa using hf)] at hp'
    simp at hp'
  | orphan b =>
    have hp' : (w.builds b).stage.orphan = some a := hp
    refine .inr (.inr ⟨b, ?_, ?_, .inr hp⟩)
    · cases hs : (w.builds b).stage <;> simp_all [Stage.orphan, Stage.unfinished]
    · intro hover
      rw [hover] at hp'
      simp [Stage.orphan] at hp'

/-- An attempt `bring_up_to_date` hands out has yet to be completed. -/
theorem Ledger.handed_out (hl : Ledger w) {output : Path} {a : AttemptId}
    (ha : (w.tree.bringUpToDate output).1.target = some a) :
    a ∉ w.completed ∧ a < (w.tree.bringUpToDate output).2.attemptCount := by
  have hheld : ∀ {p}, w.Holds p a → a ∉ w.completed ∧ a < w.tree.attemptCount := fun hp =>
    hl.pending _ a hp
  have hnew : a = w.tree.attemptCount → a ∉ w.completed := fun heq hc =>
    Nat.lt_irrefl _ (heq ▸ hl.recorded a hc)
  have hcases := w.tree.broughtUpToDate output
  generalize w.tree.bringUpToDate output = r at hcases ha ⊢
  cases hcases with
  | undeclared => simp at ha
  | joined hc hf hs =>
    obtain ⟨b, _, _, hcurrent, hlt⟩ := hl.under_way hf
    have heq : (w.builds b).launch.attempt = a := Option.some.inj (hcurrent.symm.trans ha)
    exact hheld (p := .build b) ⟨by
      cases hs : (w.builds b).stage <;> simp_all [Stage.unreleased, Stage.unfinished], heq⟩
  | next hc hf hs hn => exact hheld (p := .next output) (hn.trans ha)
  | minted hc hf hs hn =>
    obtain rfl : w.tree.attemptCount = a := Option.some.inj ha
    exact ⟨hnew rfl, Nat.lt_succ_self _⟩
  | @claimed command hc hf hs =>
    have heq : w.tree.claimedAttempt output = a := Option.some.inj ha
    rw [← State.opened_claimedAttempt w.tree output command] at heq
    obtain ⟨hsome, hcount, _⟩ | ⟨_, hfresh, hcount, _⟩ :=
      claimBuild_counts (w.tree.opened output command) output
    · rw [hcount]
      refine hheld (p := .next output) ?_
      rw [heq, (opened_same w.tree output command).next] at hsome
      exact hsome
    · rw [hcount]
      have ha' : a = w.tree.attemptCount := heq.symm.trans hfresh
      exact ⟨hnew ha', ha' ▸ Nat.lt_succ_self _⟩
  | fresh => simp at ha

/-- The end of a build hands the attempt waiting behind it on: to the next build, or, if its output
has lost its rule, to be completed there and then. -/
theorem Landed.hands_on {result : BuildResult} {keep : Option Keep}
    (hland : Landed w b result keep w') {a : AttemptId}
    (ha : w.Holds (.next (w.builds b).launch.output) a) :
    w'.Holds (.orphan b) a ∨ ∃ c, w.buildCount ≤ c ∧ c < w'.buildCount ∧
      (w'.builds c).launch.output = (w.builds b).launch.output ∧ w'.Holds (.build c) a := by
  have hnext : ((w.tree.attempts (w.builds b).launch.output).getD {}).next = some a := ha
  cases hland with
  | removed =>
    refine .inl ?_
    show (Function.update w.builds b _ b).stage.orphan = some a
    rw [Function.update_self]
    exact hnext
  | rebuilt =>
    refine .inr ⟨w.buildCount, Nat.le_refl _, Nat.lt_succ_self _, ?_, ?_⟩
    · exact claim_output _ _ _
    have hout := w.tree.outcome_only (w.builds b).launch.output result
    unfold State.OnlyDepends at hout
    have hclaimed : (w.tree.outcome (w.builds b).launch.output result).claimedAttempt
        (w.builds b).launch.output = a := by
      unfold State.claimedAttempt
      rw [hout]
      show (((w.tree.attempts (w.builds b).launch.output).getD {}).next).getD _ = a
      rw [hnext]
      rfl
    rw [← hclaimed]
    exact claim_holds _ _ _
  | idle hd hn =>
    rw [hnext] at hn
    simp at hn

/-- Every attempt made is completed exactly once, if each build ends: until then it is the current
or the next one of an output in flight, or in the hands of the `finish_build` under way. -/
theorem attempts_completed (h : (machine contentHash cached).Reachable (fun _ _ => True) w) :
    w.completed.Nodup ∧
    (∀ a < w.tree.attemptCount, a ∉ w.completed →
      (∃ o, w.tree.inFlight o = true ∧ ((w.tree.attempts o).getD {}).current = some a) ∨
      (∃ o, w.tree.inFlight o = true ∧ ((w.tree.attempts o).getD {}).next = some a) ∨
      ∃ b, (w.builds b).stage.unfinished = false ∧ (w.builds b).stage ≠ .over ∧
        ((w.builds b).launch.attempt = a ∨ (w.builds b).stage.orphan = some a)) ∧
    (∀ output a, (w.tree.bringUpToDate output).1.target = some a →
      a ∉ w.completed ∧ a < (w.tree.bringUpToDate output).2.attemptCount) ∧
    (∀ b < w.buildCount, (w.builds b).stage = .over →
      (w.builds b).launch.attempt ∈ w.completed) ∧
    (∀ b, w.enabled (.settle b) → ∀ a, w.Holds (.next (w.builds b).launch.output) a →
      (w.settle b).Holds (.orphan b) a ∨ ∃ c, (w.settle b).Holds (.build c) a) ∧
    ((∀ b, (w.builds b).stage = .over) → ∀ a < w.tree.attemptCount, w.completed.count a = 1) ∧
    (∀ o, w.tree.stale o = true → w.tree.declared o = true) ∧
    (∀ o, w.tree.materialized o = true → w.tree.declared o = true) ∧
    ∀ o, (w.tree.reads o).isSome = w.tree.inFlight o := by
  have hs := sound h
  have hl := hs.ledger
  refine ⟨hl.nodup, fun a ha hnot => hl.place hs.tidy ha hnot, fun _ _ => hl.handed_out,
    fun b hb hover => hl.ended b hb (by rw [hover]; rfl), fun b he a ha => ?_, fun hover a ha => ?_,
    hs.tidy.stale, hs.tidy.materialized, hs.tidy.reads⟩
  · obtain ⟨error, inputs, hstage⟩ | ⟨result, keep, hstage⟩ := he
    · have hdef : w.settle b = w.settleWith b (.failed error inputs) none := by
        unfold World.settle
        rw [hstage]
      rw [hdef]
      exact ((w.landed b _ _).hands_on ha).imp_right fun ⟨c, _, _, _, hc⟩ => ⟨c, hc⟩
    · have hdef : w.settle b = w.settleWith b result keep := by
        unfold World.settle
        rw [hstage]
      rw [hdef]
      exact ((w.landed b _ _).hands_on ha).imp_right fun ⟨c, _, _, _, hc⟩ => ⟨c, hc⟩
  · refine List.count_eq_one_of_mem hl.nodup ?_
    by_contra hnot
    obtain ⟨o, hf, _⟩ | ⟨o, hf, _⟩ | ⟨b, _, hnotover, _⟩ := hl.place hs.tidy ha hnot
    · obtain ⟨b, hb, _⟩ := (hl.flight o).mp hf
      rw [hover b] at hb
      simp [Stage.unfinished] at hb
    · obtain ⟨b, hb, _⟩ := (hl.flight o).mp hf
      rw [hover b] at hb
      simp [Stage.unfinished] at hb
    · exact hnotover (hover b)

/-- A tree that declares one output and keeps no cache. -/
def declaresOne : World :=
  { tree := constructed (.only { output := [['a']] }) 0
    origin := fun output =>
      if (constructed (.only { output := [['a']] }) 0).declared output then
        some (if (constructed (.only { output := [['a']] }) 0).stale output
          then .placeholder else .restored)
      else none }

theorem declaresOne_starts : Starts contentHash false declaresOne :=
  ⟨.only { output := [['a']] }, 0, fun _ => none, {}, _, ⟨rfl, rfl⟩, rfl⟩

/-- The one output is opened, and its command cannot be run. -/
def failsToRun : List Event :=
  [.bringUpToDate [['a']], .launch 0 (.threw (.other 1)), .settle 0, .complete 0]

theorem failsToRun_reachable : (machine contentHash false).Reachable (fun _ _ => True)
    ((machine contentHash false).runs declaresOne failsToRun) :=
  (Machine.Reachable.start declaresOne_starts).runs
    ⟨trivial, trivial, ⟨rfl, nofun, (by decide : Action.run ≠ .tracing)⟩, trivial, .inl ⟨.other 1, [], rfl⟩, trivial,
      ⟨_, _, _, rfl⟩, trivial, trivial⟩

theorem attempts_completed_failsToRun :
    0 ∈ ((machine (fun _ => []) false).runs declaresOne failsToRun).completed :=
  (attempts_completed failsToRun_reachable).2.2.2.1 0 (by decide) rfl

end World

end MakeBelieve.Tree
