import MakeBelieve.Tree.Attempts

namespace MakeBelieve.Tree

open Coordinator (AttemptId System)
open Library

namespace World

variable {contentHash : Bytes → Hash} {cached : Bool} {w : World} {b : BuildId} {e : Event}

/-- The call that makes the attempt a step under `m_mutex` needs, if it needs one. -/
def made (w : World) (tree : State) : List Coordinator.Event :=
  if w.tree.attemptCount < tree.attemptCount then
    [.createAttempt (tree.attemptOutput w.tree.attemptCount)
      (tree.attemptPredecessor w.tree.attemptCount)]
  else []

/-- What a step asks of the coordinator. -/
def calls (w : World) : Event → List Coordinator.Event
  | .bringUpToDate output => w.made (w.tree.bringUpToDate output).2
  | .startNext output => w.made (w.tree.startBuild output).2
  | .resume _ _ =>
    match w.todo with
    | .startBuild output :: _ => w.made (w.tree.startBuild output).2
    | _ => []
  | .launch b .ran => [.run (w.builds b).launch.attempt]
  | .settle b =>
    match (w.builds b).stage with
    | .finishing result => w.made (w.tree.settle (w.builds b).launch.output result).2
    | .published result _ => w.made (w.tree.settle (w.builds b).launch.output result).2
    | _ => []
  | .complete b =>
    match (w.builds b).stage with
    | .settled result _ _ => [.complete (w.builds b).launch.attempt result.error]
    | _ => []
  | .completeOrphaned b =>
    match (w.builds b).stage with
    | .released _ _ orphaned => [.complete orphaned .noSuchFileOrDirectory]
    | _ => []
  | .coordinator e => [e]
  | _ => []

theorem enter_system (w : World) (tree : State) (launch : Option Launch)
    (behind : Option BuildId) :
    ((w.enter tree).addBuild launch behind).system = (w.made tree).foldl System.step w.system := by
  have hadd : ((w.enter tree).addBuild launch behind).system = (w.enter tree).system := by
    cases launch <;> rfl
  rw [hadd, enter, made]
  split <;> rfl

/-- A step changes the coordinator by its calls alone. -/
theorem step_system (w : World) (e : Event) :
    (w.step contentHash cached e).system = (w.calls e).foldl System.step w.system := by
  cases e with
  | bringUpToDate output => exact w.enter_system _ _ _
  | startNext output =>
    exact enter_system { w with starting := w.starting.erase output } _ _ _
  | launch b start => cases start <;> rfl
  | publish b builtAt =>
    show (w.publish contentHash cached b builtAt).system = w.system
    unfold World.publish
    dsimp only
    split
    · split <;> rfl
    · rfl
  | write b =>
    show (w.write b).system = w.system
    unfold World.write
    dsimp only
    split <;> rfl
  | settle b =>
    show (w.settle b).system = (w.calls (.settle b)).foldl System.step w.system
    have hsettle : ∀ result keep, (w.settleWith b result keep).system =
        (w.made (w.tree.settle (w.builds b).launch.output result).2).foldl System.step w.system := by
      intro result keep
      let lasted : World :=
        { w with lastResult := Function.update w.lastResult (w.builds b).launch.output (some result) }
      exact enter_system (lasted.setStage b _) _ _ _
    cases hs : (w.builds b).stage with
    | finishing result =>
      simp only [World.settle, calls, hs]
      exact hsettle result none
    | published result keep =>
      simp only [World.settle, calls, hs]
      exact hsettle result keep
    | _ => simp only [World.settle, calls, hs, List.foldl_nil]
  | complete b =>
    show (w.complete b).system = (w.calls (.complete b)).foldl System.step w.system
    cases hs : (w.builds b).stage <;>
      simp only [World.complete, calls, hs, List.foldl_nil, List.foldl_cons]
  | completeOrphaned b =>
    show (w.completeOrphaned b).system =
      (w.calls (.completeOrphaned b)).foldl System.step w.system
    cases hs : (w.builds b).stage <;>
      simp only [World.completeOrphaned, calls, hs, List.foldl_nil, List.foldl_cons]
  | beginKeeping b =>
    show (w.beginKeeping b).system = w.system
    unfold World.beginKeeping
    split <;> rfl
  | stamp b =>
    show (w.stamp b).system = w.system
    unfold World.stamp
    split <;> rfl
  | store b ok =>
    show (w.store contentHash b ok).system = w.system
    unfold World.store
    split <;> rfl
  | resume now ok =>
    show (w.resume now ok).system = (w.calls (.resume now ok)).foldl System.step w.system
    cases htodo : w.todo with
    | nil => simp only [World.resume, calls, htodo, List.foldl_nil]
    | cons task todo =>
      cases task with
      | startBuild output =>
        simp only [World.resume, calls, htodo]
        exact enter_system { w with todo } _ _ _
      | _ => simp only [World.resume, calls, htodo, List.foldl_nil]
  | recordRead | materializeAll | endWork | editSource | sourceChange | coordinator => rfl

/-- What the coordinator asks of whoever calls it: a predecessor is the attempt under way at the
same output; an attempt is run once, while no other at its output runs or may start to; it is
completed once; and `on_permit` finds no other attempt running at the output. -/
def Promised (w : World) : Coordinator.Event → Prop
  | .createAttempt output predecessor => ∀ p, predecessor = some p →
      ∃ b, (w.builds b).stage.unfinished = true ∧ (w.builds b).launch.output = output ∧
        (w.builds b).launch.attempt = p
  | .run a => (w.system.coord.attempts a).phase = .pending ∧ a ∉ w.completed ∧
      ∀ c, (w.system.coord.attempts c).output = (w.system.coord.attempts a).output →
        (w.system.coord.attempts c).phase ≠ .running ∧
          ¬∃ b, (w.builds b).stage = .working ∧ (w.builds b).launch.attempt = c
  | .onPermit a => w.system.coord.running (w.system.coord.attempts a).output = none
  | .complete a _ => a ∉ w.completed
  | _ => True

theorem Sound.alone (h : Sound w) {a c : AttemptId} {b : BuildId}
    (hb : (w.builds b).stage.unfinished = true) (hba : (w.builds b).launch.attempt = a)
    (ho : (w.system.coord.attempts c).output = (w.system.coord.attempts a).output)
    {d : BuildId} (hd : (w.builds d).stage = .working) (hdc : (w.builds d).launch.attempt = c) :
    d = b := by
  have hheld : ∀ {d c}, (w.builds d).stage.unfinished = true → (w.builds d).launch.attempt = c →
      (w.system.coord.attempts c).output = (w.builds d).launch.output := by
    rintro d _ hu rfl
    have hplace : w.Holds (.build d) (w.builds d).launch.attempt := by
      refine ⟨?_, rfl⟩
      cases hs : (w.builds d).stage <;> simp_all [Stage.unreleased, Stage.unfinished]
    rw [h.driven.outputs _ (h.ledger.pending _ _ hplace).2]
    exact h.ledger.output _ _ _ hplace rfl
  have hun : (w.builds d).stage.unfinished = true := by rw [hd]; rfl
  exact h.ledger.alone d b hun hb (by rw [← hheld hun hdc, ← hheld hb hba, ho])

theorem not_mem_made {s : State} (hs : s.attemptCount = w.tree.attemptCount)
    {call : Coordinator.Event} : call ∉ w.made s := by
  unfold World.made
  rw [if_neg (by rw [hs]; exact Nat.lt_irrefl _)]
  simp

theorem made_claim {s : State} (output : Path)
    (hcount : s.attemptCount = w.tree.attemptCount) :
    ∀ call ∈ w.made (s.claimBuild output), w.system.enabled call ∧ w.Promised call := by
  intro call hcall
  unfold World.made at hcall
  obtain ⟨_, hsame, _⟩ | ⟨hnone, _, hmade, hout⟩ := claimBuild_counts s output
  · rw [if_neg (by rw [hsame, hcount]; exact Nat.lt_irrefl _)] at hcall
    simp at hcall
  · have hpred : (s.claimBuild output).attemptPredecessor s.attemptCount = none := by
      unfold State.claimBuild
      dsimp only
      rw [hnone]
      exact Function.update_self ..
    rw [if_pos (by rw [hmade, hcount]; exact Nat.lt_succ_self _), ← hcount, hpred,
      List.mem_singleton] at hcall
    subst hcall
    exact ⟨fun p hp => by simp at hp, fun p hp => by simp at hp⟩

theorem Sound.made_minted (h : Sound w) {s : State} {output : Path} (hs : SameTree w.tree s)
    (hcurrent : ((s.attempts output).getD {}).current = ((w.tree.attempts output).getD {}).current)
    (hf : w.tree.inFlight output = true) :
    ∀ call ∈ w.made (s.minted output), w.system.enabled call ∧ w.Promised call := by
  intro call hcall
  have hmade : (s.minted output).attemptCount = s.attemptCount + 1 := rfl
  have hout : (s.minted output).attemptOutput s.attemptCount = output := Function.update_self ..
  have hpred : (s.minted output).attemptPredecessor s.attemptCount =
      ((s.attempts output).getD {}).current := Function.update_self ..
  unfold World.made at hcall
  rw [if_pos (by rw [hmade, hs.attemptCount]; exact Nat.lt_succ_self _), ← hs.attemptCount, hout,
    hpred, hcurrent, List.mem_singleton] at hcall
  subst hcall
  obtain ⟨b, hb, hbo, hcur, hlt⟩ := h.ledger.under_way hf
  refine ⟨fun p hp => ?_, fun p hp => ⟨b, hb, hbo, Option.some.inj (hcur.symm.trans hp)⟩⟩
  rw [Option.some.inj (hp.symm.trans hcur), h.ledger.count]
  exact hlt

theorem Sound.made_bringUpToDate (h : Sound w) (output : Path) :
    ∀ call ∈ w.made (w.tree.bringUpToDate output).2, w.system.enabled call ∧ w.Promised call := by
  have hcases := w.tree.broughtUpToDate output
  generalize w.tree.bringUpToDate output = r at hcases ⊢
  cases hcases with
  | undeclared | joined | next | fresh => exact fun _ hcall => absurd hcall (not_mem_made rfl)
  | minted hc hf =>
    refine h.made_minted (opened_same _ _ _) ?_ hf
    rw [State.opened_attempts, Function.update_self]
    rfl
  | claimed => exact made_claim output rfl

theorem made_startBuild (w : World) (output : Path) :
    ∀ call ∈ w.made (w.tree.startBuild output).2, w.system.enabled call ∧ w.Promised call := by
  obtain ⟨heq, _⟩ | ⟨heq, _⟩ := w.tree.startBuild_cases output
  · rw [heq]
    exact fun _ hcall => absurd hcall (not_mem_made rfl)
  · rw [heq]
    exact made_claim output rfl

theorem made_settle (w : World) (output : Path) (result : BuildResult) :
    ∀ call ∈ w.made (w.tree.settle output result).2, w.system.enabled call ∧ w.Promised call := by
  have hcases := w.tree.settledAs output result
  have hland := w.tree.landed_only output result
  have hcount := outcome_attemptCount w.tree output result
  unfold State.OnlyDepends at hland
  generalize w.tree.settle output result = r at hcases ⊢
  cases hcases with
  | removed => exact fun _ hcall => absurd hcall (not_mem_made (by rw [hland]))
  | rebuilt => exact made_claim output hcount
  | idle => exact fun _ hcall => absurd hcall (not_mem_made hcount)

/-- Whatever a step asks of the coordinator, the coordinator's preconditions hold. -/
theorem Sound.promised (h : Sound w) (he : w.enabled e) :
    ∀ call ∈ w.calls e, w.system.enabled call ∧ w.Promised call := by
  intro call hcall
  cases e with
  | bringUpToDate output => exact h.made_bringUpToDate output call hcall
  | startNext output => exact w.made_startBuild output call hcall
  | resume now ok =>
    cases htodo : w.todo with
    | nil => simp [calls, htodo] at hcall
    | cons task todo =>
      cases task with
      | startBuild output =>
        simp only [calls, htodo] at hcall
        exact w.made_startBuild output call hcall
      | _ => simp [calls, htodo] at hcall
  | launch b start =>
    obtain ⟨hclaimed, -, -⟩ := he
    cases start with
    | ran =>
      obtain rfl : call = _ := List.mem_singleton.mp hcall
      let a := (w.builds b).launch.attempt
      have hheld : w.Holds (.build b) a := ⟨by rw [hclaimed]; rfl, rfl⟩
      have hpending := h.driven.claimed b hclaimed
      obtain ⟨hnot, hlt⟩ := h.ledger.pending _ _ hheld
      have hnone : (w.system.coord.attempts a).result = none := by
        cases hres : (w.system.coord.attempts a).result with
        | none => rfl
        | some result =>
          exact absurd (List.mem_map_of_mem (h.driven.sound.sourced.result a result hres)) hnot
      have hothers : ∀ c, (w.system.coord.attempts c).output = (w.system.coord.attempts a).output →
          ¬∃ d, (w.builds d).stage = .working ∧ (w.builds d).launch.attempt = c := by
        rintro c ho ⟨d, hd, hdc⟩
        have hdb := h.alone (b := b) (by rw [hclaimed]; rfl) rfl ho hd hdc
        rw [hdb, hclaimed] at hd
        simp at hd
      exact ⟨⟨h.ledger.count ▸ hlt, hpending, hnone⟩, hpending, hnot, fun c ho =>
        ⟨fun hrun => hothers c ho (h.driven.running c hrun), hothers c ho⟩⟩
    | traced | threw => simp [calls] at hcall
  | settle b =>
    cases hs : (w.builds b).stage with
    | finishing result =>
      simp only [calls, hs] at hcall
      exact w.made_settle _ result call hcall
    | published result keep =>
      simp only [calls, hs] at hcall
      exact w.made_settle _ result call hcall
    | _ => simp [calls, hs] at hcall
  | complete b =>
    obtain ⟨result, keep, orphaned, hs⟩ := he
    simp only [calls, hs, List.mem_singleton] at hcall
    subst hcall
    obtain ⟨hnot, hlt⟩ := h.ledger.pending (.build b) _ ⟨by rw [hs]; rfl, rfl⟩
    exact ⟨show _ < _ from h.ledger.count ▸ hlt, hnot⟩
  | completeOrphaned b =>
    obtain ⟨result, keep, orphaned, hs⟩ := he
    simp only [calls, hs, List.mem_singleton] at hcall
    subst hcall
    obtain ⟨hnot, hlt⟩ := h.ledger.pending (.orphan b) orphaned (by rw [Holds, hs]; rfl)
    exact ⟨show _ < _ from h.ledger.count ▸ hlt, hnot⟩
  | coordinator e' =>
    obtain rfl : call = e' := List.mem_singleton.mp hcall
    refine ⟨he.2, ?_⟩
    cases call with
    | createAttempt => exact absurd he.1 id
    | run => exact absurd he.1 id
    | complete => exact absurd he.1 id
    | onPermit a =>
      obtain ⟨b, hb, hba⟩ := he.1
      have hqueued : (w.system.coord.attempts a).phase = .queued := he.2
      show w.system.coord.running (w.system.coord.attempts a).output = none
      cases hr : w.system.coord.running (w.system.coord.attempts a).output with
      | none => rfl
      | some c =>
        obtain ⟨hrun, ho⟩ := h.driven.sound.inv.running _ c hr
        obtain ⟨d, hd, hdc⟩ := h.driven.running c hrun
        have hdb := h.alone (by rw [hb]; rfl) hba ho hd hdc
        have hca : c = a := by rw [← hdc, hdb, hba]
        rw [hca, hqueued] at hrun
        simp at hrun
    | _ => trivial
  | _ => simp [calls] at hcall

/-- Of the builds of an output one at most is claimed but unfinished, so what the coordinator asks
of its callers holds whenever it is called, and `on_permit` never finds another attempt at the
output running. -/
theorem builds_alone (h : (machine contentHash cached).Reachable (fun _ _ => True) w) :
    (∀ b c, (w.builds b).stage.unfinished = true → (w.builds c).stage.unfinished = true →
      (w.builds b).launch.output = (w.builds c).launch.output → b = c) ∧
    ∀ e, w.enabled e →
      ((machine contentHash cached).step w e).system =
        (w.calls e).foldl System.step w.system ∧
      ∀ call ∈ w.calls e, w.system.enabled call ∧ w.Promised call :=
  ⟨(sound h).ledger.alone, fun e he => ⟨w.step_system e, (sound h).promised he⟩⟩

/-- The one output is opened, and its build gets its permit. -/
def startsToRun : List Event :=
  [.bringUpToDate [['a']], .launch 0 .ran]

theorem builds_alone_startsToRun :
    ((machine (fun _ => []) false).runs declaresOne startsToRun).system.coord.running [['a']] =
      none := by
  have hreach : (machine (fun _ => []) false).Reachable (fun _ _ => True)
      ((machine (fun _ => []) false).runs declaresOne startsToRun) :=
    (Machine.Reachable.start declaresOne_starts).runs
      ⟨trivial, trivial, ⟨rfl, nofun, (by decide : Action.run ≠ .tracing)⟩, trivial, trivial⟩
  have hpermit := ((builds_alone hreach).2 (.coordinator (.onPermit 0)) ⟨⟨0, rfl, rfl⟩, rfl⟩).2 _
    (List.mem_singleton.mpr rfl)
  exact hpermit.2

end World

end MakeBelieve.Tree
