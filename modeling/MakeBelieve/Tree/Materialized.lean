import MakeBelieve.Tree.Provenance
import MakeBelieve.Tree.Recorded

namespace MakeBelieve.Tree

open Library

/-! ### Which outputs count as opened -/

/-- Under the same rules, whatever counted as opened still does. -/
structure KeepsOpened (s t : State) : Prop where
  commands : t.commands = s.commands
  all : t.materializeAll = s.materializeAll
  materialized : ∀ o, s.materialized o = true → t.materialized o = true

theorem KeepsOpened.trans {s t u : State} (h : KeepsOpened s t) (h' : KeepsOpened t u) :
    KeepsOpened s u :=
  ⟨h'.commands.trans h.commands, h'.all.trans h.all,
    fun o ho => h'.materialized o (h.materialized o ho)⟩

theorem KeepsOpened.of_eq {s t : State} (hc : t.commands = s.commands)
    (ha : t.materializeAll = s.materializeAll) (hm : t.materialized = s.materialized) :
    KeepsOpened s t :=
  ⟨hc, ha, fun o ho => by rwa [hm]⟩

/-- Every output but a trace counts as opened. -/
def State.Covered (s : State) : Prop :=
  ∀ output command, s.commands.find output = some command → command.action ≠ .tracing →
    s.materialized output = true

theorem State.Covered.keeps {s t : State} (h : s.Covered) (ht : KeepsOpened s t) : t.Covered := by
  intro output command hc hrun
  rw [ht.commands] at hc
  exact ht.materialized output (h output command hc hrun)

theorem State.materialize_covered (s : State) : s.materialize.2.Covered := by
  intro output command hc hrun
  have hc : s.commands.find output = some command := hc
  have hmem := Commands.find_mem hc
  obtain rfl := Commands.find_output hc
  have hin : command.output ∈ State.untraced s.commands :=
    List.mem_map_of_mem (List.mem_filter.mpr ⟨hmem, by simpa using hrun⟩)
  show (s.materialized command.output || decide (command.output ∈ State.untraced s.commands)) = true
  simp [hin]

/-- New rules leave every output counting as opened, unless they turn a trace that does not into
something else. -/
theorem State.Covered.takeCommands {s : State} (h : s.Covered) (hall : s.materializeAll = true)
    {commands : Commands}
    (htraces : ∀ output before command, s.commands.find output = some before →
      before.action = .tracing → commands.find output = some command →
        command.action ≠ .tracing → s.materialized output = true) :
    (s.takeCommands commands).2.Covered := by
  intro output command hc hrun
  have ht := s.takeCommands_taken commands
  have hcommands : (s.takeCommands commands).2.commands = commands := by rw [ht.only]
  rw [hcommands] at hc
  cases hbefore : s.commands.find output with
  | none =>
    have hd : s.declared output = false := by
      rw [State.declared, hbefore]
      rfl
    rw [ht.materialized output hd command hc, hall]
    simp [hrun]
  | some before =>
    have hd : s.declared output = true := by
      rw [State.declared, hbefore]
      rfl
    rw [(ht.untouched output (by simp [hd]) (by simp [hc])).2]
    by_cases htrace : before.action = .tracing
    · exact htraces output before command hbefore htrace hc hrun
    · exact h output before hbefore htrace

namespace World

variable {contentHash : Bytes → Hash} {cached : Bool}
variable {w w' : World} {b : BuildId} {output : Path} {s t : State} {e : Event}

theorem OpenedAs.keepsOpened (ht : OpenedAs s output t) : KeepsOpened s t := by
  obtain rfl | ⟨command, _, rfl⟩ := ht
  · exact .of_eq rfl rfl rfl
  · refine ⟨rfl, rfl, fun o ho => ?_⟩
    show Function.update s.materialized output true o = true
    by_cases heq : o = output
    · rw [heq, Function.update_self]
    · rwa [Function.update_of_ne heq]

theorem claimBuild_keepsOpened (s : State) (output : Path) :
    KeepsOpened s (s.claimBuild output) := by
  rw [State.claimBuild_only]
  exact .of_eq rfl rfl rfl

theorem Brought.keepsOpened (hb : Brought w output w') : KeepsOpened w.tree w'.tree := by
  cases hb with
  | none ht => exact ht.keepsOpened
  | minted ht => exact ht.keepsOpened.trans (.of_eq rfl rfl rfl)
  | claimed ht =>
    rw [claim_tree]
    exact ht.keepsOpened.trans (claimBuild_keepsOpened _ _)

theorem outcome_keepsOpened (s : State) (output : Path) (result : BuildResult) :
    KeepsOpened s (s.outcome output result) := by
  rw [s.outcome_only output result]
  exact .of_eq rfl rfl rfl

theorem Landed.keepsOpened {result : BuildResult} {keep : Option Keep}
    (hland : Landed w b result keep w') : KeepsOpened w.tree w'.tree := by
  cases hland with
  | removed =>
    have hlanded := w.tree.landed_only (w.builds b).launch.output result
    refine .of_eq ?_ ?_ ?_ <;> (show _ = _; simp only; rw [hlanded])
  | rebuilt =>
    rw [claim_tree]
    exact (outcome_keepsOpened _ _ _).trans (claimBuild_keepsOpened _ _)
  | idle => exact outcome_keepsOpened _ _ _

/-- A step keeps what counts as opened, but where it has all count or takes new rules. -/
theorem step_keepsOpened (he : w.enabled e) :
    KeepsOpened w.tree (w.step contentHash cached e).tree ∨ e = .materializeAll ∨
      ∃ now ok commands todo, e = .resume now ok ∧ w.todo = .applyRules commands :: todo := by
  cases e with
  | materializeAll => exact .inr (.inl rfl)
  | bringUpToDate output => exact .inl (w.brought output).keepsOpened
  | startNext output =>
    exact .inl (brought_startBuild { w with starting := w.starting.erase output }
      output).keepsOpened
  | recordRead reader output =>
    refine .inl ?_
    show KeepsOpened w.tree (w.tree.recordRead reader output)
    unfold State.recordRead
    split <;> exact .of_eq rfl rfl rfl
  | sourceChange => exact .inl (.of_eq rfl rfl rfl)
  | publish b builtAt =>
    refine .inl ?_
    obtain ⟨_, bytes, inputs, hstage⟩ := he
    show KeepsOpened w.tree (w.publish contentHash cached b builtAt).tree
    cases hc : w.tree.commands.find (w.builds b).launch.output with
    | none =>
      rw [publish_undeclared builtAt hstage hc]
      exact .of_eq rfl rfl rfl
    | some command =>
      rw [publish_declared builtAt hstage hc]
      unfold State.publish
      cases cached <;> exact .of_eq rfl rfl rfl
  | write b =>
    refine .inl ?_
    show KeepsOpened w.tree (w.write b).tree
    unfold World.write
    dsimp only
    split <;> exact .of_eq rfl rfl rfl
  | settle b =>
    obtain ⟨_, _, _, _, hland⟩ := settle_landed he
    exact .inl hland.keepsOpened
  | resume now ok =>
    show KeepsOpened w.tree (w.resume now ok).tree ∨ _
    unfold World.resume
    split
    · exact .inl (.of_eq rfl rfl rfl)
    · next commands todo htodo => exact .inr (.inr ⟨now, ok, commands, todo, rfl, htodo⟩)
    · exact .inl (.of_eq rfl rfl rfl)
    · exact .inl (.of_eq rfl rfl rfl)
    · exact .inl (.of_eq rfl rfl rfl)
    · exact .inl (.of_eq rfl rfl rfl)
    · exact .inl (.of_eq rfl rfl rfl)
    · exact .inl (.of_eq rfl rfl rfl)
    · next outputs todo _ =>
      refine .inl ?_
      show KeepsOpened w.tree (w.tree.invalidate outputs).state
      rw [(w.tree.invalidate_marked outputs).only]
      exact .of_eq rfl rfl rfl
    · next output todo _ => exact .inl (brought_startBuild { w with todo } output).keepsOpened
  | launch | endWork | complete | completeOrphaned | beginKeeping | stamp | store | editSource
  | coordinator =>
    refine .inl ?_
    rw [(step_aside rfl).tree]
    exact .of_eq rfl rfl rfl

/-- No new rule turns a trace that nobody has opened into something else. -/
def KeepsTraces (w : World) : Event → Prop
  | .resume _ _ => ∀ commands todo, w.todo = .applyRules commands :: todo →
      ∀ output before command, w.tree.commands.find output = some before →
        before.action = .tracing → commands.find output = some command →
          command.action ≠ .tracing → w.tree.materialized output = true
  | _ => True

theorem resume_applyRules {commands : Commands} {todo : List Task} {now : Int64} {ok : Bool}
    (htodo : w.todo = .applyRules commands :: todo) :
    (w.resume now ok).tree = (w.tree.takeCommands commands).2 := by
  unfold World.resume
  rw [htodo]

theorem covered_step (hall : w.tree.materializeAll = true) (h : w.tree.Covered)
    (he : w.enabled e) (hok : KeepsTraces w e) :
    (w.step contentHash cached e).tree.materializeAll = true ∧
      (w.step contentHash cached e).tree.Covered := by
  obtain hkeeps | rfl | ⟨now, ok, commands, todo, rfl, htodo⟩ :=
    @step_keepsOpened contentHash cached w e he
  · exact ⟨hkeeps.all.trans hall, h.keeps hkeeps⟩
  · exact ⟨rfl, w.tree.materialize_covered⟩
  · show (w.resume now ok).tree.materializeAll = true ∧ (w.resume now ok).tree.Covered
    rw [resume_applyRules htodo]
    refine ⟨?_, h.takeCommands hall (hok commands todo htodo)⟩
    rw [(w.tree.takeCommands_taken commands).only]
    exact hall

/-- From `materialize_all` on, where no unopened trace is turned into something else, every output
but a trace counts as opened; where one is, it does not. -/
theorem all_materialized (contentHash : Bytes → Hash) (cached : Bool) :
    (∀ w w' : World, (machine contentHash cached).Reaches KeepsTraces
        (w.step contentHash cached .materializeAll) w' →
      ∀ output command, w'.tree.commands.find output = some command →
        command.action ≠ .tracing → w'.tree.materialized output = true) ∧
    ∀ (w : World) (e : Event), w.enabled e → ¬KeepsTraces w e → ∃ output command,
      (w.step contentHash cached e).tree.commands.find output = some command ∧
        command.action ≠ .tracing ∧
        (w.step contentHash cached e).tree.materialized output = false := by
  refine ⟨fun w w' hst => ?_, fun w e he hnot => ?_⟩
  · have hkept := hst.keeps (P := fun w => w.tree.materializeAll = true ∧ w.tree.Covered)
      (fun _ _ h he hok => covered_step h.1 h.2 he hok)
      ⟨rfl, w.tree.materialize_covered⟩
    exact hkept.2
  · cases e with
    | resume now ok =>
      simp only [KeepsTraces, not_forall] at hnot
      obtain ⟨commands, todo, htodo, output, before, command, hbefore, _, hc, hrun, hm⟩ := hnot
      have ht := w.tree.takeCommands_taken commands
      have hd : w.tree.declared output = true := by
        rw [State.declared, hbefore]
        rfl
      refine ⟨output, command, ?_⟩
      show (w.resume now ok).tree.commands.find output = some command ∧ _ ∧
        (w.resume now ok).tree.materialized output = false
      rw [resume_applyRules htodo, (ht.untouched output (by simp [hd]) (by simp [hc])).2, ht.only]
      exact ⟨hc, hrun, by simpa using hm⟩
    | _ => exact absurd trivial hnot

/-- A tree that declares one trace. -/
def declaresTrace : World :=
  { tree := constructed (.only { output := [['a']], action := .tracing }) 0
    origin := fun output =>
      if (constructed (.only { output := [['a']], action := .tracing }) 0).declared output then
        some (if (constructed (.only { output := [['a']], action := .tracing }) 0).stale output
          then .placeholder else .restored)
      else none }

theorem declaresTrace_starts {contentHash : Bytes → Hash} :
    Starts contentHash false declaresTrace :=
  ⟨.only { output := [['a']], action := .tracing }, 0, fun _ => none, {}, _, ⟨rfl, rfl⟩, rfl⟩

/-- The manifest has a command make the output instead. -/
def runsInstead : List Event :=
  .sourceChange false [["build.makebelieve".toList]] (some (.only { output := [['a']] })) ::
    List.replicate 9 (.resume 0 true)

/-- Once the callback is over the output is no trace, and does not count as opened. -/
theorem materialized_missed : ¬∀ w w' : World,
    (machine (fun _ => []) false).Reachable (fun _ _ => True) w →
      (machine (fun _ => []) false).Reaches (fun _ _ => True)
        (w.step (fun _ => []) false .materializeAll) w' → w'.todo = [] →
          ∀ output command, w'.tree.commands.find output = some command →
            command.action ≠ .tracing → w'.tree.materialized output = true := by
  intro hall
  have hreaches := @Machine.Reaches.runs _ _ (machine (fun _ => []) false) (fun _ _ => True)
    (declaresTrace.step (fun _ => []) false .materializeAll) runsInstead
    ⟨rfl, trivial, ⟨_, _, rfl, rfl⟩, trivial, ⟨_, _, rfl, trivial⟩, trivial,
      ⟨_, _, rfl, trivial⟩, trivial, ⟨_, _, rfl, .inl rfl⟩, trivial, ⟨_, _, rfl, trivial⟩, trivial,
      ⟨_, _, rfl, .inr rfl⟩, trivial, ⟨_, _, rfl, trivial⟩, trivial, ⟨_, _, rfl, trivial⟩, trivial,
      ⟨_, _, rfl, .inl rfl⟩, trivial, trivial⟩
  have hm := hall _ _ (.start declaresTrace_starts) hreaches (by decide +kernel) [['a']]
    { output := [['a']] } (by decide +kernel) (by decide)
  exact absurd hm (by decide +kernel)

end World

end MakeBelieve.Tree
