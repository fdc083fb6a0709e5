import MakeBelieve.Tree.Rules

namespace MakeBelieve.Tree.State

variable {s t : State} {output : Path}

/-- An attempt at `output` that nobody waits on yet, made behind the one under way. -/
def minted (s : State) (output : Path) : State :=
  { s.createAttempt output ((s.attempts output).getD {}).current with
    attempts := Function.update s.attempts output
      (some { (s.attempts output).getD {} with next := some s.attemptCount }) }

/-- All that `bring_up_to_date` can come to. -/
inductive BroughtUpToDate (s : State) (output : Path) : Asked × State → Prop
  | undeclared (hc : s.commands.find output = none) : BroughtUpToDate s output ({}, s)
  | joined {command : Command} (hc : s.commands.find output = some command)
      (hf : s.inFlight output = true) (hs : s.stale output = false) :
      BroughtUpToDate s output
        ({ target := ((s.attempts output).getD {}).current }, s.opened output command)
  | next {command : Command} {next : Coordinator.AttemptId}
      (hc : s.commands.find output = some command)
      (hf : s.inFlight output = true) (hs : s.stale output = true)
      (hn : ((s.attempts output).getD {}).next = some next) :
      BroughtUpToDate s output ({ target := some next }, s.opened output command)
  | minted {command : Command} (hc : s.commands.find output = some command)
      (hf : s.inFlight output = true) (hs : s.stale output = true)
      (hn : ((s.attempts output).getD {}).next = none) :
      BroughtUpToDate s output
        ({ target := some s.attemptCount }, (s.opened output command).minted output)
  | claimed {command : Command} (hc : s.commands.find output = some command)
      (hf : s.inFlight output = false) (hs : (s.opened output command).stale output = true) :
      BroughtUpToDate s output
        ({ target := some (s.claimedAttempt output)
           launch := some ((s.opened output command).launch output) },
          (s.opened output command).claimBuild output)
  | fresh {command : Command} (hc : s.commands.find output = some command)
      (hf : s.inFlight output = false) (hs : (s.opened output command).stale output = false) :
      BroughtUpToDate s output ({}, s.opened output command)

theorem opened_stale (s : State) (output : Path) (command : Command) :
    (s.opened output command).stale = if command.action = .tracing ∧ s.inFlight output = false
      then Function.update s.stale output true else s.stale := rfl

theorem opened_attempts (s : State) (output : Path) (command : Command) :
    (s.opened output command).attempts =
      Function.update s.attempts output (some ((s.attempts output).getD {})) := rfl

theorem opened_claimedAttempt (s : State) (output : Path) (command : Command) :
    (s.opened output command).claimedAttempt output = s.claimedAttempt output := by
  simp [claimedAttempt, opened_attempts]
  rfl

theorem broughtUpToDate (s : State) (output : Path) :
    BroughtUpToDate s output (s.bringUpToDate output) := by
  unfold bringUpToDate
  cases hc : s.commands.find output with
  | none => exact .undeclared hc
  | some command =>
    have hattempts : ((s.opened output command).attempts output).getD {} =
        (s.attempts output).getD {} := by simp [opened_attempts]
    have hflight : (s.opened output command).inFlight = s.inFlight := rfl
    have hcount : (s.opened output command).attemptCount = s.attemptCount := rfl
    dsimp only
    rw [hflight]
    by_cases hf : s.inFlight output = true
    · have hstale : (s.opened output command).stale = s.stale := by simp [opened_stale, hf]
      rw [if_pos hf, hstale]
      by_cases hs : s.stale output = true
      · rw [if_pos hs]
        unfold nextAttempt
        cases hn : ((s.attempts output).getD {}).next with
        | some next => simpa [hattempts, hn] using BroughtUpToDate.next hc hf hs hn
        | none => simpa [hattempts, hn, hcount, State.minted] using BroughtUpToDate.minted hc hf hs hn
      · rw [if_neg hs, hattempts]
        exact .joined hc hf (by simpa using hs)
    · rw [if_neg hf]
      have hidle : s.inFlight output = false := by simpa using hf
      by_cases hs : (s.opened output command).stale output = true
      · rw [if_pos hs, opened_claimedAttempt]
        exact .claimed hc hidle hs
      · rw [if_neg hs]
        exact .fresh hc hidle (by simpa using hs)

/-- All that `start_build` can come to. -/
theorem startBuild_cases (s : State) (output : Path) :
    (s.startBuild output = (none, s) ∧
      (s.stale output = false ∨ s.inFlight output = true ∨ s.declared output = false)) ∨
    (s.startBuild output = (some (s.launch output), s.claimBuild output) ∧
      s.stale output = true ∧ s.inFlight output = false ∧ s.declared output = true) := by
  unfold startBuild
  by_cases h : s.stale output = false ∨ s.inFlight output = true ∨ s.declared output = false
  · rw [if_pos h]
    exact .inl ⟨rfl, h⟩
  · rw [if_neg h]
    simp only [not_or] at h
    exact .inr ⟨rfl, by simpa using h.1, by simpa using h.2.1, by simpa using h.2.2⟩

/-- The state once a build's output is no longer in flight. -/
def landed (s : State) (output : Path) (result : BuildResult) : State :=
  { s.recordFailure output result with
    inFlight := Function.update (s.recordFailure output result).inFlight output false
    reads := Function.update (s.recordFailure output result).reads output none }

/-- The state a build's outcome is recorded in: a failure leaves its output stale. -/
def outcome (s : State) (output : Path) (result : BuildResult) : State :=
  if result.isBuilt then s.landed output result else (s.landed output result).markStale output

/-- A state that differs in what outputs depend on alone. -/
def OnlyDepends (s t : State) : Prop :=
  t = { s with dependents := t.dependents, dependencies := t.dependencies }

theorem recordFailure_only (s : State) (output : Path) (result : BuildResult) :
    OnlyDepends s (s.recordFailure output result) := by
  unfold recordFailure
  cases result with
  | built bytes inputs => rfl
  | failed error inputs =>
    dsimp only
    split
    · split <;> rfl
    · rfl

/-- All that the second part of `finish_build` under `m_mutex` can come to. -/
inductive SettledAs (s : State) (output : Path) (result : BuildResult) : Settled × State → Prop
  | removed (hd : s.declared output = false) :
      SettledAs s output result ({ orphaned := ((s.attempts output).getD {}).next },
        { s.landed output result with attempts := Function.update s.attempts output none })
  | rebuilt (hd : s.declared output = true)
      (hr : ((s.attempts output).getD {}).next.isSome = true ∨
        s.stale output = true ∧ result.stopped = false ∧
          s.materialized output = true) :
      SettledAs s output result ({ next := some ((s.outcome output result).launch output) },
        (s.outcome output result).claimBuild output)
  | idle (hd : s.declared output = true)
      (hn : ((s.attempts output).getD {}).next = none)
      (hr : ¬(s.stale output = true ∧ result.stopped = false ∧
        s.materialized output = true)) :
      SettledAs s output result ({}, s.outcome output result)

theorem landed_only (s : State) (output : Path) (result : BuildResult) :
    OnlyDepends { s with
      inFlight := Function.update s.inFlight output false
      reads := Function.update s.reads output none } (s.landed output result) := by
  have h := s.recordFailure_only output result
  unfold OnlyDepends at h ⊢
  unfold landed
  rw [h]

theorem settle_eq (s : State) (output : Path) (result : BuildResult) :
    s.settle output result =
      if (s.landed output result).declared output = false then
        ({ orphaned := (((s.landed output result).attempts output).getD {}).next },
          { s.landed output result with
            attempts := Function.update (s.landed output result).attempts output none })
      else if (((s.landed output result).attempts output).getD {}).next.isSome ||
          ((s.landed output result).stale output && !result.stopped &&
            (s.outcome output result).materialized output) then
        ({ next := some ((s.outcome output result).launch output) },
          (s.outcome output result).claimBuild output)
      else ({}, s.outcome output result) := rfl

theorem settledAs (s : State) (output : Path) (result : BuildResult) :
    SettledAs s output result (s.settle output result) := by
  have honly := s.landed_only output result
  unfold OnlyDepends at honly
  have hdeclared : (s.landed output result).declared output = s.declared output := by
    rw [honly]
    rfl
  have hattempts : (s.landed output result).attempts = s.attempts := by rw [honly]
  have hstale : (s.landed output result).stale = s.stale := by rw [honly]
  have hmaterialized : (s.outcome output result).materialized = s.materialized := by
    have : (s.landed output result).materialized = s.materialized := by rw [honly]
    unfold outcome
    split
    · exact this
    · exact this
  rw [settle_eq, hdeclared, hattempts, hstale, hmaterialized]
  by_cases hd : s.declared output = false
  · rw [if_pos hd]
    exact .removed hd
  · have hd' : s.declared output = true := by simpa using hd
    rw [if_neg hd]
    by_cases hr : ((s.attempts output).getD {}).next.isSome = true ∨
        s.stale output = true ∧ result.stopped = false ∧ s.materialized output = true
    · rw [if_pos (by simpa [and_assoc] using hr)]
      exact .rebuilt hd' hr
    · rw [if_neg (by simpa [and_assoc] using hr)]
      simp only [not_or] at hr
      exact .idle hd' (by simpa using hr.1) hr.2

/-- What a walk of `invalidate` has done so far. -/
structure Marked (s : State) (m : Marking) : Prop where
  only : m.state = { s with stale := m.state.stale, invalidations := m.state.invalidations }
  seen : ∀ o ∈ m.seen, s.declared o = true ∧ m.state.stale o = true ∧
    m.state.invalidations o = s.invalidations o + 1
  others : ∀ o, o ∉ m.seen → m.state.stale o = s.stale o ∧
    m.state.invalidations o = s.invalidations o
  eager : ∀ o, o ∈ m.eager ↔ o ∈ m.seen ∧ s.materialized o = true ∧ s.inFlight o = false

theorem Marked.mark {m : Marking} (h : Marked s m) (hdone : m.done output = false) :
    Marked s (m.mark output) := by
  have hdeclared : m.state.declared = s.declared := by rw [h.only]; rfl
  have hmaterialized : m.state.materialized = s.materialized := by rw [h.only]
  have hflight : m.state.inFlight = s.inFlight := by rw [h.only]
  have hnew : s.declared output = true ∧ output ∉ m.seen := by
    simpa [Marking.done, hdeclared] using hdone
  refine ⟨?_, fun o ho => ?_, fun o ho => ?_, fun o => ?_⟩
  · simp only [Marking.mark, markStale]
    rw [h.only]
  · simp only [Marking.mark, markStale, Function.update_apply]
    by_cases heq : o = output
    · subst heq
      simp [hnew.1, (h.others o hnew.2).2]
    · obtain ho | ho := List.mem_cons.mp ho
      · exact absurd ho heq
      · simpa [heq] using h.seen o ho
  · simp only [Marking.mark, List.mem_cons, not_or] at ho
    simp only [Marking.mark, markStale, Function.update_apply, if_neg ho.1]
    exact h.others o ho.2
  · simp only [Marking.mark, hmaterialized, hflight]
    by_cases heq : o = output
    · subst heq
      have hnot : o ∉ m.eager := fun he => hnew.2 ((h.eager o).mp he).1
      split <;> simp_all
    · split <;> simp [heq, h.eager]

theorem invalidate_marked (s : State) (outputs : List Path) : Marked s (s.invalidate outputs) :=
  Library.Worklist.loop_keeps (P := Marked s) (fun _ _ hdone h => h.mark hdone)
    ⟨rfl, by simp, fun _ _ => ⟨rfl, rfl⟩, by simp⟩

theorem Marking.done_mark (m : Marking) (a b : Path) :
    (m.mark a).done b = true ↔ b = a ∨ m.done b = true := by
  have : (m.mark a).state.declared b = m.state.declared b := rfl
  simp only [Marking.done, this]
  simp only [Marking.mark, List.mem_cons, Bool.or_eq_true, decide_eq_true_eq]
  tauto

/-- The walk ends by itself, whatever reads what. -/
theorem invalidate_ends (s : State) (outputs : List Path) :
    Library.Worklist.Ends Marking.done Marking.mark Marking.next { state := s } outputs.reverse
      (s.invalidate outputs) := by
  let nodes := s.commands.entries.map Command.output
  have hnodes : ∀ o, s.declared o = true ↔ o ∈ nodes := fun o => by
    simp [nodes, declared, Commands.find_isSome]
  have hin : ∀ o, (({ state := s } : Marking).done o) = true ∨ o ∈ nodes := fun o => by
    rw [← hnodes]
    simp only [Marking.done, List.not_mem_nil, decide_false, Bool.or_false, decide_eq_true_eq]
    cases s.declared o <;> simp
  have hnd : nodes.Nodup := s.commands.nodup
  have hfuel : Library.Worklist.left Marking.done Marking.next nodes { state := s } outputs.reverse ≤
      s.walkFuel outputs := by
    have hsum : (nodes.map fun o => if ({ state := s } : Marking).done o = true then 0
        else (({ state := s } : Marking).next o).length) =
        nodes.map fun o => (membersOf s.dependents (asInput o)).length :=
      List.map_congr_left fun o ho => by
        have hd : s.declared o = true := (hnodes o).mpr ho
        simp [Marking.done, Marking.next, hd]
    have hwalk : s.walkFuel outputs =
        outputs.length + (nodes.map fun o => (membersOf s.dependents (asInput o)).length).sum := by
      unfold walkFuel readersOf
      rw [List.length_flatMap]
    exact Nat.le_of_eq (by rw [hwalk, Library.Worklist.left, hsum, List.length_reverse])
  exact Library.Worklist.loop_ends Marking.done Marking.mark Marking.next hnd Marking.done_mark
    (fun _ _ _ => rfl) (fun o _ => hin o) (fun _ _ o _ => hin o) hfuel

/-- The walk marks every declared output it is given, and the readers of each output it marks. -/
theorem invalidate_closed (s : State) (outputs : List Path) :
    (∀ o ∈ outputs, s.declared o = true → o ∈ (s.invalidate outputs).seen) ∧
    ∀ o ∈ (s.invalidate outputs).seen, ∀ reader ∈ membersOf s.dependents (asInput o),
      s.declared reader = true → reader ∈ (s.invalidate outputs).seen := by
  obtain ⟨hall, _, hclosed⟩ :=
    (s.invalidate_ends outputs).closed Marking.done_mark (fun _ _ _ => rfl)
  have hmarked := s.invalidate_marked outputs
  have hseen : ∀ o, s.declared o = true → (s.invalidate outputs).done o = true →
      o ∈ (s.invalidate outputs).seen := by
    intro o hd hdone
    have hdeclared : (s.invalidate outputs).state.declared o = true := by
      rw [hmarked.only]
      exact hd
    simpa [Marking.done, hdeclared] using hdone
  refine ⟨fun o ho hd => hseen o hd (hall o (List.mem_reverse.mpr ho)), fun o ho reader hr hd => ?_⟩
  have hdone : (s.invalidate outputs).done o = true := by simp [Marking.done, ho]
  obtain hnot | hnext := hclosed o hdone
  · rw [Marking.done] at hnot
    simp [(hmarked.seen o ho).1] at hnot
  · exact hseen reader hd (hnext reader (List.mem_reverse.mpr hr))

/-- Whether `reader` is declared and recorded to have read `output`. -/
def ReadBy (s : State) (output reader : Path) : Prop :=
  reader ∈ membersOf s.dependents (asInput output) ∧ s.declared reader = true

/-- What an invalidation of `outputs` reaches: those declared, and all that read them in turn. -/
def Reached (s : State) (outputs : List Path) (output : Path) : Prop :=
  ∃ o ∈ outputs, s.declared o = true ∧ Relation.ReflTransGen s.ReadBy o output

theorem invalidate_seen (s : State) (outputs : List Path) (o : Path) :
    o ∈ (s.invalidate outputs).seen ↔ s.Reached outputs o := by
  constructor
  · have hkept : ∀ o ∈ (s.invalidate outputs).seen, s.Reached outputs o := by
      have hall := @Library.Worklist.loop_keeps_on _ _ Marking.done Marking.mark Marking.next
        (fun m => Marked s m ∧ ∀ o ∈ m.seen, s.Reached outputs o)
        (fun o => s.declared o = true → s.Reached outputs o) ?_ ?_ (s.walkFuel outputs)
        { state := s } outputs.reverse ⟨⟨rfl, by simp, fun _ _ => ⟨rfl, rfl⟩, by simp⟩, by simp⟩
        fun o ho hd => ⟨o, List.mem_reverse.mp ho, hd, .refl⟩
      · exact hall.2
      · intro m node hdone hq ⟨hm, hseen⟩
        have hdeclared : m.state.declared = s.declared := by rw [hm.only]; rfl
        have hnode : s.declared node = true ∧ node ∉ m.seen := by
          simpa [Marking.done, hdeclared] using hdone
        exact ⟨hm.mark hdone, List.forall_mem_cons.mpr ⟨hq hnode.1, hseen⟩⟩
      · intro m node hdone hq ⟨hm, _⟩ reader hreader hd
        have hdeclared : m.state.declared = s.declared := by rw [hm.only]; rfl
        have hdependents : m.state.dependents = s.dependents := by rw [hm.only]
        have hnode : s.declared node = true ∧ node ∉ m.seen := by
          simpa [Marking.done, hdeclared] using hdone
        obtain ⟨o, ho, hdo, hpath⟩ := hq hnode.1
        refine ⟨o, ho, hdo, hpath.tail ⟨?_, hd⟩⟩
        have hreader' : reader ∈ membersOf m.state.dependents (asInput node) :=
          List.mem_reverse.mp hreader
        rw [← hdependents]
        exact hreader'
    exact hkept o
  · rintro ⟨root, hroot, hd, hpath⟩
    obtain ⟨hall, hclosed⟩ := s.invalidate_closed outputs
    induction hpath with
    | refl => exact hall root hroot hd
    | tail _ hread ih => exact hclosed _ ih _ hread.1 hread.2

/-- What stays true of the tree under `m_mutex`: only declared outputs are stale or count as
opened, the reads kept are those of the builds under way, and a next attempt has a build under way
before it. -/
structure Tidy (s : State) : Prop where
  stale : ∀ o, s.stale o = true → s.declared o = true
  materialized : ∀ o, s.materialized o = true → s.declared o = true
  reads : ∀ o, (s.reads o).isSome = s.inFlight o
  next : ∀ o attempts, s.attempts o = some attempts → attempts.next ≠ none → s.inFlight o = true

theorem Tidy.getD_next (h : Tidy s) (hf : s.inFlight output = false) :
    ((s.attempts output).getD {}).next = none := by
  cases ha : s.attempts output with
  | none => rfl
  | some attempts =>
    by_contra hn
    have := h.next output attempts ha hn
    rw [hf] at this
    simp at this

theorem Tidy.opened (h : Tidy s) {command : Command} (hc : s.commands.find output = some command) :
    Tidy (s.opened output command) := by
  have hd : s.declared output = true := by simp [declared, hc]
  refine ⟨fun o ho => ?_, fun o ho => ?_, h.reads, fun o attempts ha hn => ?_⟩
  · rw [opened_stale] at ho
    split at ho
    · rw [Function.update_apply] at ho
      split at ho
      · next heq => exact heq ▸ hd
      · exact h.stale o ho
    · exact h.stale o ho
  · have ho' : Function.update s.materialized output true o = true := ho
    rw [Function.update_apply] at ho'
    split at ho'
    · next heq => exact heq ▸ hd
    · exact h.materialized o ho'
  · rw [opened_attempts, Function.update_apply] at ha
    split at ha
    · next heq =>
      subst heq
      cases hold : s.attempts o with
      | none =>
        rw [hold] at ha
        obtain rfl := Option.some.inj ha
        exact absurd rfl hn
      | some old =>
        rw [hold] at ha
        obtain rfl := Option.some.inj ha
        exact h.next o _ hold hn
    · exact h.next o attempts ha hn

theorem claimBuild_only (s : State) (output : Path) :
    s.claimBuild output = { s with
      attempts := (s.claimBuild output).attempts
      stale := Function.update s.stale output false
      inFlight := Function.update s.inFlight output true
      reads := (s.claimBuild output).reads
      attemptCount := (s.claimBuild output).attemptCount
      attemptOutput := (s.claimBuild output).attemptOutput
      attemptPredecessor := (s.claimBuild output).attemptPredecessor } := by
  unfold claimBuild
  dsimp only
  cases ((s.attempts output).getD {}).next with
  | none => rfl
  | some next => rfl

theorem claimBuild_declared (s : State) (output : Path) :
    (s.claimBuild output).declared = s.declared := by
  rw [claimBuild_only]
  rfl

theorem claimBuild_reads (s : State) (output o : Path) :
    ((s.claimBuild output).reads o).isSome = ((s.reads o).isSome || decide (o = output)) := by
  have hreads : (s.claimBuild output).reads =
      Function.update s.reads output (some (membersOf s.reads output)) := rfl
  rw [hreads, Function.update_apply]
  split <;> simp [*]

theorem claimBuild_inFlight (s : State) (output : Path) :
    (s.claimBuild output).inFlight = Function.update s.inFlight output true := rfl

theorem claimBuild_attempts (s : State) (output : Path) :
    (s.claimBuild output).attempts = Function.update s.attempts output (some
      { current := some (s.claimedAttempt output)
        next := none
        invalidationsAtStart := s.invalidations output }) := rfl

/-- A claim keeps what is true of every other output, and owes nothing of its own. -/
theorem Tidy.claim (hs : ∀ o, s.stale o = true → s.declared o = true)
    (hm : ∀ o, s.materialized o = true → s.declared o = true)
    (hr : ∀ o, (s.reads o).isSome = s.inFlight o)
    (hn : ∀ o, o ≠ output → ∀ attempts, s.attempts o = some attempts → attempts.next ≠ none →
      s.inFlight o = true) : Tidy (s.claimBuild output) := by
  have hmaterialized : (s.claimBuild output).materialized = s.materialized := by
    rw [claimBuild_only]
  refine ⟨fun o ho => ?_, by rw [hmaterialized, claimBuild_declared]; exact hm, fun o => ?_,
    fun o attempts ha hnext => ?_⟩
  · have ho' : Function.update s.stale output false o = true := ho
    rw [claimBuild_declared]
    rw [Function.update_apply] at ho'
    split at ho'
    · simp at ho'
    · exact hs o ho'
  · rw [claimBuild_reads, hr, claimBuild_inFlight, Function.update_apply]
    split <;> simp [*]
  · rw [claimBuild_attempts, Function.update_apply] at ha
    rw [claimBuild_inFlight, Function.update_apply]
    split at ha
    · obtain rfl := Option.some.inj ha
      exact absurd rfl hnext
    · next hne =>
      rw [if_neg hne]
      exact hn o hne attempts ha hnext

theorem Tidy.minted (h : Tidy s) (hf : s.inFlight output = true) : Tidy (s.minted output) := by
  refine ⟨h.stale, h.materialized, h.reads, fun o attempts ha hn => ?_⟩
  have ha' : Function.update s.attempts output
      (some { (s.attempts output).getD {} with next := some s.attemptCount }) o =
      some attempts := ha
  rw [Function.update_apply] at ha'
  split at ha'
  · next heq => exact heq ▸ hf
  · exact h.next o attempts ha' hn

theorem Tidy.bringUpToDate (h : Tidy s) (output : Path) : Tidy (s.bringUpToDate output).2 := by
  have hcases := s.broughtUpToDate output
  generalize s.bringUpToDate output = r at hcases ⊢
  cases hcases with
  | undeclared => exact h
  | joined hc | next hc | fresh hc => exact h.opened hc
  | minted hc hf => exact (h.opened hc).minted hf
  | claimed hc =>
    have ho := h.opened hc
    exact .claim ho.stale ho.materialized ho.reads fun o _ => ho.next o

theorem Tidy.startBuild (h : Tidy s) (output : Path) : Tidy (s.startBuild output).2 := by
  obtain ⟨heq, _⟩ | ⟨heq, _⟩ := s.startBuild_cases output
  · rw [heq]
    exact h
  · rw [heq]
    exact .claim h.stale h.materialized h.reads fun o _ => h.next o

theorem landed_reads (s : State) (output : Path) (result : BuildResult) (o : Path)
    (hr : (s.reads o).isSome = s.inFlight o) :
    ((s.landed output result).reads o).isSome = (s.landed output result).inFlight o := by
  rw [s.landed_only output result]
  show (Function.update s.reads output none o).isSome = Function.update s.inFlight output false o
  rw [Function.update_apply, Function.update_apply]
  split
  · rfl
  · exact hr

/-- What recording a build's outcome leaves of everything but what outputs depend on. -/
theorem outcome_only (s : State) (output : Path) (result : BuildResult) :
    OnlyDepends { s with
      inFlight := Function.update s.inFlight output false
      reads := Function.update s.reads output none
      stale := if result.isBuilt then s.stale else Function.update s.stale output true }
      (s.outcome output result) := by
  have h := s.landed_only output result
  unfold OnlyDepends at h ⊢
  unfold outcome markStale
  split
  · rw [h]
  · rw [h]

theorem Tidy.settle (h : Tidy s) (output : Path) (result : BuildResult) :
    Tidy (s.settle output result).2 := by
  have hcases := s.settledAs output result
  have hland := s.landed_only output result
  have hout := s.outcome_only output result
  unfold OnlyDepends at hland hout
  have hdeclared : (s.outcome output result).declared = s.declared := by rw [hout]; rfl
  have hstale : s.declared output = true → ∀ o, (s.outcome output result).stale o = true →
      (s.outcome output result).declared o = true := by
    intro hd o ho
    rw [hdeclared]
    rw [hout] at ho
    dsimp only at ho
    split at ho
    · exact h.stale o ho
    · rw [Function.update_apply] at ho
      split at ho
      · next heq => exact heq ▸ hd
      · exact h.stale o ho
  have hmaterialized : ∀ o, (s.outcome output result).materialized o = true →
      (s.outcome output result).declared o = true := by
    rw [hdeclared, hout]
    exact h.materialized
  have hreads : ∀ o, ((s.outcome output result).reads o).isSome =
      (s.outcome output result).inFlight o := by
    intro o
    have := s.landed_reads output result o (h.reads o)
    unfold outcome
    split
    · exact this
    · exact this
  have hothers : ∀ o, o ≠ output → ∀ attempts, s.attempts o = some attempts →
      attempts.next ≠ none → Function.update s.inFlight output false o = true := by
    intro o hne attempts ha hn
    rw [Function.update_of_ne hne]
    exact h.next o attempts ha hn
  generalize s.settle output result = r at hcases ⊢
  cases hcases with
  | removed hd =>
    refine ⟨?_, ?_, fun o => s.landed_reads output result o (h.reads o), fun o attempts ha hn => ?_⟩
    · show ∀ o, (s.landed output result).stale o = true → (s.landed output result).declared o = true
      rw [hland]
      exact h.stale
    · show ∀ o, (s.landed output result).materialized o = true →
        (s.landed output result).declared o = true
      rw [hland]
      exact h.materialized
    · have ha' : Function.update s.attempts output none o = some attempts := ha
      show (s.landed output result).inFlight o = true
      rw [hland]
      rw [Function.update_apply] at ha'
      split at ha'
      · simp at ha'
      · next hne => exact hothers o hne attempts ha' hn
  | rebuilt hd =>
    refine .claim (hstale hd) hmaterialized hreads fun o hne attempts ha hn => ?_
    rw [hout] at ha ⊢
    exact hothers o hne attempts ha hn
  | idle hd hn =>
    refine ⟨hstale hd, hmaterialized, hreads, fun o attempts ha hnext => ?_⟩
    rw [hout] at ha ⊢
    by_cases hne : o = output
    · subst hne
      rw [show s.attempts o = some attempts from ha] at hn
      exact absurd hn hnext
    · exact hothers o hne attempts ha hnext

theorem Tidy.recordRead (h : Tidy s) (reader output : Path) : Tidy (s.recordRead reader output) := by
  unfold State.recordRead
  cases hr : s.reads reader with
  | none => exact h
  | some reads =>
    refine ⟨h.stale, h.materialized, fun o => ?_, h.next⟩
    show (Function.update s.reads reader _ o).isSome = s.inFlight o
    rw [← h.reads, Function.update_apply]
    split
    · next heq => simp [heq, hr]
    · rfl

theorem Tidy.materialize (h : Tidy s) : Tidy s.materialize.2 := by
  refine ⟨h.stale, fun o ho => ?_, h.reads, h.next⟩
  have ho' : (s.materialized o || decide (o ∈ untraced s.commands)) = true := ho
  rw [Bool.or_eq_true, decide_eq_true_eq] at ho'
  obtain ho' | ho' := ho'
  · exact h.materialized o ho'
  · obtain ⟨command, hc, rfl⟩ := List.mem_map.mp ho'
    exact Commands.find_isSome.mpr ⟨command, (List.mem_filter.mp hc).1, rfl⟩

theorem Tidy.takeCommands (h : Tidy s) (commands : Commands) : Tidy (s.takeCommands commands).2 := by
  have ht := s.takeCommands_taken commands
  generalize (s.takeCommands commands).2 = t at ht ⊢
  have hdeclared : ∀ o, t.declared o = (commands.find o).isSome := fun o => by rw [ht.only]; rfl
  have hflight : t.inFlight = s.inFlight := by rw [ht.only]
  have hreads : t.reads = s.reads := by rw [ht.only]
  -- What is neither added nor removed was declared before exactly if it is now.
  have hkeep : ∀ o, s.declared o = true → commands.find o ≠ none → t.declared o = true :=
    fun o _ hne => by rw [hdeclared]; exact Option.isSome_iff_ne_none.mpr hne
  refine ⟨fun o ho => ?_, fun o ho => ?_, fun o => by rw [hreads, hflight]; exact h.reads o,
    fun o attempts ha hn => ?_⟩
  · by_cases hnone : commands.find o = none
    · by_cases hd : s.declared o = true
      · rw [(ht.removed o hd hnone).stale] at ho
        simp at ho
      · rw [(ht.untouched o (by simp [hnone]) (by simp [hd])).1] at ho
        exact absurd (h.stale o ho) hd
    · rw [hdeclared]
      exact Option.isSome_iff_ne_none.mpr hnone
  · by_cases hnone : commands.find o = none
    · by_cases hd : s.declared o = true
      · rw [(ht.removed o hd hnone).materialized] at ho
        simp at ho
      · rw [(ht.untouched o (by simp [hnone]) (by simp [hd])).2] at ho
        exact absurd (h.materialized o ho) hd
    · rw [hdeclared]
      exact Option.isSome_iff_ne_none.mpr hnone
  · rw [hflight]
    by_cases hgone : s.declared o = true ∧ commands.find o = none
    · rw [(ht.removed o hgone.1 hgone.2).attempts] at ha
      split at ha
      · next hf => exact hf
      · simp at ha
    · rw [(ht.kept o hgone).2.2.1] at ha
      exact h.next o attempts ha hn

theorem Tidy.invalidate (h : Tidy s) (outputs : List Path) : Tidy (s.invalidate outputs).state := by
  have hm := s.invalidate_marked outputs
  generalize s.invalidate outputs = m at hm ⊢
  have hdeclared : m.state.declared = s.declared := by rw [hm.only]; rfl
  refine ⟨fun o ho => ?_, by rw [hdeclared, hm.only]; exact h.materialized,
    by rw [hm.only]; exact h.reads, by rw [hm.only]; exact h.next⟩
  rw [hdeclared]
  by_cases hseen : o ∈ m.seen
  · exact (hm.seen o hseen).1
  · rw [(hm.others o hseen).1] at ho
    exact h.stale o ho

end MakeBelieve.Tree.State
