import MakeBelieve.Tree.Dependents

namespace MakeBelieve.Tree

namespace State

variable {s : State} {commands : Commands} {output : Path}

theorem mem_removed : output ∈ (s.changesTo commands).removed ↔
    s.declared output = true ∧ commands.find output = none := by
  simp [changesTo, declared, Commands.find]

theorem mem_added : output ∈ (s.changesTo commands).added ↔
    s.declared output = false ∧ (commands.find output).isSome := by
  simp [changesTo, declared, Commands.find]
  tauto

theorem removed_nodup : (s.changesTo commands).removed.Nodup :=
  s.commands.nodup.filter _

theorem added_nodup : (s.changesTo commands).added.Nodup :=
  commands.nodup.filter _

/-- Declaring outputs changes nothing but which are stale and which count as opened. -/
theorem foldl_addOutput (entries : List Command) (s : State) :
    let t := entries.foldl addOutput s
    t = { s with stale := t.stale, materialized := t.materialized } ∧
      (∀ o, t.stale o = (s.stale o || (!s.declared o && decide (o ∈ entries.map Command.output)))) ∧
      (∀ o, t.materialized o = (s.materialized o || (!s.declared o && s.materializeAll &&
        decide (∃ command ∈ entries, command.output = o ∧ command.action ≠ .tracing)))) := by
  induction entries generalizing s with
  | nil => simp
  | cons command entries ih =>
    have hdeclared : (addOutput s command).declared = s.declared := by
      unfold addOutput
      split <;> rfl
    have hall : (addOutput s command).materializeAll = s.materializeAll := by
      unfold addOutput
      split <;> rfl
    obtain ⟨honly, hstale, hmaterialized⟩ := ih (addOutput s command)
    refine ⟨?_, fun o => ?_, fun o => ?_⟩
    · rw [List.foldl_cons, honly]
      unfold addOutput
      split <;> rfl
    · rw [List.foldl_cons, hstale, hdeclared]
      unfold addOutput
      by_cases hd : s.declared command.output = true
      · rw [if_pos hd]
        by_cases ho : o = command.output
        · subst ho
          simp [hd]
        · simp [ho]
      · rw [if_neg hd]
        by_cases ho : o = command.output
        · subst ho
          simp [markStale, hd]
        · simp [markStale, ho]
    · rw [List.foldl_cons, hmaterialized, hdeclared, hall]
      unfold addOutput
      by_cases hd : s.declared command.output = true
      · rw [if_pos hd]
        by_cases ho : command.output = o
        · subst ho
          simp [hd]
        · simp [ho]
      · rw [if_neg hd]
        by_cases ho : command.output = o
        · subst ho
          by_cases hm : s.materializeAll = true ∧ command.action ≠ .tracing
          · simp [hm, hd]
          · rw [if_neg hm]
            simp only [List.mem_cons, exists_eq_or_imp, true_and]
            by_cases ha : s.materializeAll = true
            · have htracing : ¬command.action ≠ .tracing := fun h => hm ⟨ha, h⟩
              simp [htracing]
            · simp [ha]
        · simp only [List.mem_cons, exists_eq_or_imp, ho, false_and, false_or]
          split <;> simp [Ne.symm ho]

/-- What removing an output's rule leaves of its bookkeeping. -/
structure Forgotten (s t : State) (output : Path) : Prop where
  stale : t.stale output = false
  materialized : t.materialized output = false
  hashes : t.hashes output = none
  invalidations : t.invalidations output = s.invalidations output + 1
  attempts : t.attempts output = if s.inFlight output then s.attempts output else none
  dependencies : t.dependencies output = none

/-- `output`'s bookkeeping is as it was. -/
structure Kept (s t : State) (output : Path) : Prop where
  stale : t.stale output = s.stale output
  materialized : t.materialized output = s.materialized output
  hashes : t.hashes output = s.hashes output
  invalidations : t.invalidations output = s.invalidations output
  attempts : t.attempts output = s.attempts output
  dependencies : t.dependencies output = s.dependencies output

/-- Nothing but bookkeeping of outputs has changed. -/
def OnlyForgotten (s t : State) : Prop :=
  t = { s with
    stale := t.stale, materialized := t.materialized, hashes := t.hashes
    invalidations := t.invalidations, attempts := t.attempts
    dependents := t.dependents, dependencies := t.dependencies }

theorem OnlyForgotten.trans {t u : State} (h : OnlyForgotten s t) (h' : OnlyForgotten t u) :
    OnlyForgotten s u := by
  unfold OnlyForgotten at *
  rw [h'] at *
  rw [h]

theorem OnlyForgotten.inFlight {t : State} (h : OnlyForgotten s t) : t.inFlight = s.inFlight := by
  rw [h]

theorem removeOutput_forgotten (s : State) (output : Path) :
    Forgotten s (s.removeOutput output) output := by
  refine ⟨?_, ?_, ?_, ?_, ?_, ?_⟩
  · exact Function.update_self ..
  · exact Function.update_self ..
  · exact Function.update_self ..
  · exact Function.update_self ..
  · show (if s.inFlight output then s.attempts
      else Function.update s.attempts output none) output = _
    split
    · rfl
    · exact Function.update_self ..
  · exact Function.update_self ..

theorem removeOutput_kept (s : State) {other : Path} (h : other ≠ output) :
    Kept s (s.removeOutput output) other := by
  refine ⟨?_, ?_, ?_, ?_, ?_, ?_⟩
  · exact Function.update_of_ne h ..
  · exact Function.update_of_ne h ..
  · exact Function.update_of_ne h ..
  · exact Function.update_of_ne h ..
  · show (if s.inFlight output then s.attempts
      else Function.update s.attempts output none) other = _
    split
    · rfl
    · exact Function.update_of_ne h ..
  · show Function.update (Function.update s.dependencies output (some [])) output none other = _
    rw [Function.update_of_ne h, Function.update_of_ne h]

theorem mem_dependents_removeOutput {reader input : Path} :
    reader ∈ membersOf (s.removeOutput output).dependents input ↔
      reader ∈ membersOf s.dependents input ∧
        ¬(input ∈ membersOf s.dependencies output ∧ reader = output) := by
  have h := @mem_dependents_updateDependents ({ s with
      stale := Function.update s.stale output false
      materialized := Function.update s.materialized output false
      hashes := Function.update s.hashes output none
      invalidations := Function.update s.invalidations output (s.invalidations output + 1)
      attempts := if s.inFlight output then s.attempts
        else Function.update s.attempts output none }) output [] reader input
  refine Iff.trans h ?_
  simp

theorem foldl_removeOutput {removed : List Path} (hnd : removed.Nodup) (s : State) :
    let t := removed.foldl removeOutput s
    OnlyForgotten s t ∧ (∀ o ∈ removed, Forgotten s t o) ∧ (∀ o, o ∉ removed → Kept s t o) ∧
      ∀ input reader, reader ∈ membersOf t.dependents input ↔ reader ∈ membersOf s.dependents input ∧
        ¬(input ∈ membersOf s.dependencies reader ∧ reader ∈ removed) := by
  induction removed generalizing s with
  | nil => exact ⟨rfl, by simp, fun _ _ => ⟨rfl, rfl, rfl, rfl, rfl, rfl⟩, by simp⟩
  | cons output removed ih =>
    obtain ⟨hnot, hnd⟩ := List.nodup_cons.mp hnd
    obtain ⟨honly, hforgotten, hkept, hdependents⟩ := ih hnd (s.removeOutput output)
    have hone : OnlyForgotten s (s.removeOutput output) := rfl
    refine ⟨hone.trans honly, fun o ho => ?_, fun o ho => ?_, fun input reader => ?_⟩
    · rcases List.mem_cons.mp ho with rfl | ho
      · have h := removeOutput_forgotten s o
        have h' := hkept o hnot
        exact ⟨h'.stale.trans h.stale, h'.materialized.trans h.materialized,
          h'.hashes.trans h.hashes, h'.invalidations.trans h.invalidations,
          h'.attempts.trans h.attempts, h'.dependencies.trans h.dependencies⟩
      · have hne : o ≠ output := fun h => hnot (h ▸ ho)
        have h := removeOutput_kept s hne
        have h' := hforgotten o ho
        refine ⟨h'.stale, h'.materialized, h'.hashes, ?_, ?_, h'.dependencies⟩
        · rw [List.foldl_cons, h'.invalidations, h.invalidations]
        · rw [List.foldl_cons, h'.attempts, h.attempts, hone.inFlight]
    · simp only [List.mem_cons, not_or] at ho
      have h := removeOutput_kept s ho.1
      have h' := hkept o ho.2
      exact ⟨h'.stale.trans h.stale, h'.materialized.trans h.materialized,
        h'.hashes.trans h.hashes, h'.invalidations.trans h.invalidations,
        h'.attempts.trans h.attempts, h'.dependencies.trans h.dependencies⟩
    · rw [List.foldl_cons, hdependents, mem_dependents_removeOutput]
      by_cases hro : reader = output
      · subst hro
        simp [hnot]
      · have h := removeOutput_kept s hro
        have hdeps : membersOf (s.removeOutput output).dependencies reader =
            membersOf s.dependencies reader := by
          simp only [membersOf, h.dependencies]
        simp [hro, hdeps]

/-- All that `apply_rules` does to the bookkeeping. -/
structure Taken (s t : State) (commands : Commands) : Prop where
  only : t = { s with
    commands, stale := t.stale, materialized := t.materialized, hashes := t.hashes
    invalidations := t.invalidations, attempts := t.attempts
    dependents := t.dependents, dependencies := t.dependencies }
  removed : ∀ o, s.declared o = true → commands.find o = none → Forgotten s t o
  added : ∀ o, s.declared o = false → (commands.find o).isSome → t.stale o = true
  untouched : ∀ o, ¬(s.declared o = false ∧ (commands.find o).isSome) →
    ¬(s.declared o = true ∧ commands.find o = none) →
      t.stale o = s.stale o ∧ t.materialized o = s.materialized o
  kept : ∀ o, ¬(s.declared o = true ∧ commands.find o = none) →
    t.hashes o = s.hashes o ∧ t.invalidations o = s.invalidations o ∧
      t.attempts o = s.attempts o ∧ t.dependencies o = s.dependencies o
  materialized : ∀ o, s.declared o = false → ∀ command, commands.find o = some command →
    t.materialized o =
      (s.materialized o || (s.materializeAll && decide (command.action ≠ .tracing)))
  dependents : ∀ input reader, reader ∈ membersOf t.dependents input ↔
    reader ∈ membersOf s.dependents input ∧ ¬(input ∈ membersOf s.dependencies reader ∧
      s.declared reader = true ∧ commands.find reader = none)

theorem takeCommands_taken (s : State) (commands : Commands) :
    Taken s (s.takeCommands commands).2 commands := by
  obtain ⟨hadd, hstale, hmaterialized⟩ := foldl_addOutput commands.entries s
  obtain ⟨honly, hforgotten, hkept, hdependents⟩ :=
    foldl_removeOutput (@removed_nodup s commands) (commands.entries.foldl addOutput s)
  generalize hu : commands.entries.foldl addOutput s = u at *
  have ht : (s.takeCommands commands).2 =
      { (s.changesTo commands).removed.foldl removeOutput u with commands } := by
    simp only [takeCommands, hu]
  rw [ht]
  have hmem : ∀ o, decide (o ∈ commands.entries.map Command.output) = (commands.find o).isSome := by
    intro o
    rw [Bool.eq_iff_iff, decide_eq_true_eq, List.mem_map, Commands.find_isSome]
  have hin : ∀ o, s.declared o = true → commands.find o = none →
      o ∈ (s.changesTo commands).removed := fun o h h' => mem_removed.mpr ⟨h, h'⟩
  have hout : ∀ o, ¬(s.declared o = true ∧ commands.find o = none) →
      o ∉ (s.changesTo commands).removed := fun o h h' => h (mem_removed.mp h')
  have hnotadded : ∀ o, (commands.find o).isSome → o ∉ (s.changesTo commands).removed := by
    intro o h h'
    rw [(mem_removed.mp h').2] at h
    simp at h
  have hflight : u.inFlight = s.inFlight := by rw [hadd]
  have hinv : u.invalidations = s.invalidations := by rw [hadd]
  have hatt : u.attempts = s.attempts := by rw [hadd]
  have hhash : u.hashes = s.hashes := by rw [hadd]
  have hdeps : u.dependencies = s.dependencies := by rw [hadd]
  have hdept : u.dependents = s.dependents := by rw [hadd]
  refine ⟨?_, fun o hd hf => ?_, fun o hd hf => ?_, fun o ha hr => ?_, fun o hr => ?_,
    fun o hd command hf => ?_, fun input reader => ?_⟩
  · rw [honly, hadd]
  · have h := hforgotten o (hin o hd hf)
    exact ⟨h.stale, h.materialized, h.hashes, by rw [← hinv]; exact h.invalidations,
      by rw [← hatt, ← hflight]; exact h.attempts, h.dependencies⟩
  · have h := hkept o (hnotadded o hf)
    refine h.stale.trans ?_
    rw [hstale, hd, hmem, hf]
    simp
  · have h := hkept o (hout o hr)
    refine ⟨h.stale.trans ?_, h.materialized.trans ?_⟩
    · rw [hstale, hmem]
      have hnew : (!s.declared o && (commands.find o).isSome) = false := by
        by_contra h
        exact ha (by simpa [Option.isSome_iff_ne_none] using h)
      rw [hnew, Bool.or_false]
    · rw [hmaterialized]
      cases hd : s.declared o with
      | true => simp
      | false =>
        have hnone : ¬∃ command ∈ commands.entries, command.output = o ∧ command.action ≠ .tracing := by
          rintro ⟨command, hc, ho, _⟩
          exact ha ⟨hd, Commands.find_isSome.mpr ⟨command, hc, ho⟩⟩
        simp [hnone]
  · have h := hkept o (hout o hr)
    rw [← hhash, ← hinv, ← hatt, ← hdeps]
    exact ⟨h.hashes, h.invalidations, h.attempts, h.dependencies⟩
  · have h := hkept o (hnotadded o (by simp [hf]))
    refine h.materialized.trans ?_
    rw [hmaterialized, hd]
    have hiff : (∃ other ∈ commands.entries, other.output = o ∧ other.action ≠ .tracing) ↔
        command.action ≠ .tracing := by
      constructor
      · rintro ⟨other, hmem', ho, hact⟩
        have heq : other = command := List.inj_on_of_nodup_map commands.nodup hmem'
          (Commands.find_mem hf) (by rw [ho, Commands.find_output hf])
        exact heq ▸ hact
      · intro hact
        exact ⟨command, Commands.find_mem hf, Commands.find_output hf, hact⟩
    simp only [hiff, Bool.not_false, Bool.true_and]
  · refine (hdependents input reader).trans ?_
    rw [hdept, hdeps, mem_removed]

end State

/-- What the constructor leaves before it restores anything: each output of `commands` declared,
stale and served as its placeholder. -/
def constructed (commands : Commands) (mtime : Int64) : State :=
  let (changes, s) := ({} : State).takeCommands commands
  let s := changes.removed.foldl State.removeFile s
  changes.added.foldl (fun s output => s.writeFile output (State.placeholder mtime)) s

theorem foldl_writeFile (outputs : List Path) (file : File) (s : State) :
    outputs.foldl (fun s output => s.writeFile output file) s =
      { s with files := fun o => if o ∈ outputs then some file else s.files o } := by
  induction outputs generalizing s with
  | nil => simp
  | cons output outputs ih =>
    rw [List.foldl_cons, ih]
    have hfiles : (fun o => if o ∈ outputs then some file else (s.writeFile output file).files o) =
        fun o => if o ∈ output :: outputs then some file else s.files o := by
      funext o
      by_cases ho : o = output
      · subst ho
        simp [State.writeFile]
      · simp [State.writeFile, ho]
    rw [hfiles]
    rfl

theorem constructed_eq (commands : Commands) (mtime : Int64) :
    constructed commands mtime = { ({} : State) with
      commands
      files := fun o =>
        if (commands.find o).isSome then some (State.placeholder mtime) else none
      stale := fun o => (commands.find o).isSome } := by
  have hremoved : ((({} : State).changesTo commands).removed) = [] := rfl
  have hadded : ∀ o, o ∈ (({} : State).changesTo commands).added ↔ (commands.find o).isSome := by
    intro o
    rw [State.mem_added]
    simp [State.declared, Commands.find]
  obtain ⟨honly, hstale, hmaterialized⟩ := State.foldl_addOutput commands.entries {}
  unfold constructed State.takeCommands
  simp only [hremoved, List.foldl_nil]
  rw [foldl_writeFile, honly]
  simp only [hadded]
  congr 1
  · funext o
    rw [hstale, Bool.eq_iff_iff, Commands.find_isSome]
    simp [State.declared, Commands.find]
  · funext o
    rw [hmaterialized]
    simp

end MakeBelieve.Tree
