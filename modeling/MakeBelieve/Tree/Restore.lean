import MakeBelieve.Library.Memo
import MakeBelieve.Tree.Rules

namespace MakeBelieve.Tree

open Library Memo

/-- What `restore_from_cache` works out as it goes. -/
structure Restoring where
  records : Path → Option Record
  commands : Path → Option Command
  checked : Checked Path := fun _ => none
  contents : Path → Option Bytes := fun _ => none

/-- What a check comes to; `none` only if out of fuel. -/
abbrev Checks := Restoring → Option (Bool × Restoring)

section

variable (source : Source) (read : Hash → Option Bytes)

/-- The loop of `check_record` over a record's inputs. -/
def checkInputs (recordHolds : Path → Checks) : List Input → Checks
  | [], r => some (true, r)
  | input :: inputs, r =>
    match outputNamedBy input.path with
    | some output =>
      match recordHolds output r with
      | none => none
      | some (holds, r) =>
        if holds && decide ((r.records output).map Record.hash = some input.hash) then
          checkInputs recordHolds inputs r
        else some (false, r)
    | none =>
      if stampSource source input.path = some input then checkInputs recordHolds inputs r
      else some (false, r)

def checkRecord (recordHolds : Path → Checks) (output : Path) : Checks := fun r =>
  match r.records output, r.commands output with
  | some record, some command =>
    if command.action = .tracing ∨ record.command ≠ command then some (false, r)
    else
      match checkInputs source recordHolds record.inputs r with
      | none => none
      | some (false, r) => some (false, r)
      | some (true, r) =>
        match read record.hash with
        | none => some (false, r)
        | some bytes =>
          some (true, { r with contents := Function.update r.contents output (some bytes) })
  | _, _ => some (false, r)

def recordHolds : Nat → Path → Checks
  | 0, _, _ => none
  | n + 1, output, r =>
    match r.checked output with
    | some found => some (decide (found = .holds), r)
    | none =>
      let checking := { r with checked := Function.update r.checked output (some .checking) }
      match checkRecord source read (recordHolds n) output checking with
      | none => none
      | some (holds, r) =>
        some (holds, { r with
          checked := Function.update r.checked output (some (if holds then .holds else .stale)) })

/-- Serves one record's output as built. -/
def State.restore (s : State) (record : Record) (bytes : Bytes) : State :=
  let output := record.command.output
  let s := s.writeFile output ⟨bytes, record.mtime⟩
  let s := { s with
    stale := Function.update s.stale output false
    hashes := Function.update s.hashes output (some record.hash) }
  s.updateDependents output (record.inputs.map Input.path)

/-- The loop of `restore_from_cache`: the outputs whose records are to go, and the tree. -/
def restoreAll (n : Nat) : List Record → Restoring → State → Option (List Path × State)
  | [], _, s => some ([], s)
  | record :: records, r, s =>
    match recordHolds source read n record.command.output r with
    | none => none
    | some (false, r) =>
      (restoreAll n records r s).map fun (dropped, s) => (record.command.output :: dropped, s)
    | some (true, r) =>
      restoreAll n records r (s.restore record ((r.contents record.command.output).getD []))

end

/-- `restore_from_cache`, given fuel for the recursion of `record_holds`. -/
def restoreFromCache (source : Source) (contentHash : Bytes → Hash) (cache : Cache) (n : Nat)
    (s : State) : Option (Cache × State) :=
  let restoring : Restoring :=
    { records := recordOf cache.records, commands := s.commands.find }
  (restoreAll source (cache.read contentHash) n cache.records restoring s).map
    fun (dropped, s) => (cache.forget dropped, s)

/-! ### The checks are the memoised least set -/

/-- What a recorded input asks for: the source file as it was stamped, or the output it names,
holding the content that was read. -/
def inputCond (source : Source) (records : Path → Option Record) (input : Input) : Cond Path :=
  match outputNamedBy input.path with
  | some output => .needs output (decide ((records output).map Record.hash = some input.hash))
  | none => .own (decide (stampSource source input.path = some input))

/-- What an output's record asks for to hold. -/
def recordConds (source : Source) (read : Hash → Option Bytes) (records : Path → Option Record)
    (commands : Path → Option Command) (output : Path) : List (Cond Path) :=
  match records output, commands output with
  | some record, some command =>
    if command.action = .tracing ∨ record.command ≠ command then [.own false]
    else record.inputs.map (inputCond source records) ++ [.own (read record.hash).isSome]
  | _, _ => [.own false]

section

variable {source : Source} {read : Hash → Option Bytes} {records : Path → Option Record}
  {commands : Path → Option Command}

/-- The maps a check leaves alone, with the content of every output whose record holds. -/
structure Restoring.Sane (read : Hash → Option Bytes) (records : Path → Option Record)
    (commands : Path → Option Command) (r : Restoring) : Prop where
  records_eq : r.records = records
  commands_eq : r.commands = commands
  contents : ∀ output, r.checked output = some .holds →
    ∃ record, records output = some record ∧ (read record.hash).isSome ∧
      r.contents output = read record.hash

/-- A check of an output finds what visiting its node does. -/
def Simulates (read : Hash → Option Bytes) (records : Path → Option Record)
    (commands : Path → Option Command) (check : Path → Checks)
    (visit : Path → Checked Path → Option (Bool × Checked Path)) : Prop :=
  ∀ output r h d, r.Sane read records commands → visit output r.checked = some (h, d) →
    ∃ r', check output r = some (h, r') ∧ r'.checked = d ∧ r'.Sane read records commands

theorem checkInputs_simulates {check : Path → Checks}
    {visit : Path → Checked Path → Option (Bool × Checked Path)}
    (hsim : Simulates read records commands check visit) {inputs : List Input} {b : Bool}
    {r : Restoring} {h : Bool} {d : Checked Path} (hr : r.Sane read records commands)
    (hvisit : checkAll visit (inputs.map (inputCond source records) ++ [.own b]) r.checked =
      some (h, d)) :
    ∃ k r', checkInputs source check inputs r = some (k, r') ∧ r'.checked = d ∧
      r'.Sane read records commands ∧ h = (k && b) := by
  induction inputs generalizing r with
  | nil =>
    refine ⟨true, r, rfl, ?_⟩
    cases b with
    | false =>
      simp only [List.map_nil, List.nil_append, checkAll] at hvisit
      simp_all
    | true =>
      simp only [List.map_nil, List.nil_append, checkAll] at hvisit
      simp_all
  | cons input inputs ih =>
    simp only [List.map_cons, List.cons_append] at hvisit
    unfold checkInputs
    cases hnamed : outputNamedBy input.path with
    | none =>
      rw [inputCond, hnamed] at hvisit
      simp only [checkAll, decide_eq_true_eq] at hvisit
      by_cases hstamp : stampSource source input.path = some input
      · rw [if_pos hstamp] at hvisit ⊢
        exact ih hr hvisit
      · rw [if_neg hstamp] at hvisit
        simp only [Option.some.injEq, Prod.mk.injEq] at hvisit
        refine ⟨false, r, if_neg hstamp, hvisit.2, hr, ?_⟩
        simp [← hvisit.1]
    | some output =>
      rw [inputCond, hnamed] at hvisit
      simp only [checkAll] at hvisit
      cases hv : visit output r.checked with
      | none => simp [hv] at hvisit
      | some p =>
        obtain ⟨holds, c⟩ := p
        simp only [hv] at hvisit
        obtain ⟨r', hcheck, hchecked, hsane⟩ := hsim output r holds c hr hv
        simp only [hcheck, hsane.records_eq]
        by_cases hboth : (holds && decide ((records output).map Record.hash = some input.hash)) = true
        · rw [if_pos hboth] at hvisit ⊢
          subst hchecked
          exact ih hsane hvisit
        · rw [if_neg hboth] at hvisit ⊢
          simp only [Option.some.injEq, Prod.mk.injEq] at hvisit
          refine ⟨false, r', rfl, hchecked.trans hvisit.2, hsane, ?_⟩
          simp [← hvisit.1]

theorem checkRecord_simulates {check : Path → Checks}
    {visit : Path → Checked Path → Option (Bool × Checked Path)}
    (hsim : Simulates read records commands check visit) {output : Path} {r : Restoring} {h : Bool}
    {d : Checked Path} (hr : r.Sane read records commands)
    (hvisit : checkAll visit (recordConds source read records commands output) r.checked =
      some (h, d)) :
    ∃ r', checkRecord source read check output r = some (h, r') ∧ r'.checked = d ∧
      r'.Sane read records commands ∧ (h = true → ∃ record, records output = some record ∧
        (read record.hash).isSome ∧ r'.contents output = read record.hash) := by
  have hfalse : ∀ {c : Checked Path}, checkAll visit [.own false] c = some (h, d) →
      h = false ∧ c = d := by
    intro c hc
    simpa [checkAll, eq_comm] using hc
  unfold checkRecord
  unfold recordConds at hvisit
  rw [hr.records_eq, hr.commands_eq]
  cases hrecord : records output with
  | none =>
    simp only [hrecord] at hvisit ⊢
    obtain ⟨rfl, hd⟩ := hfalse hvisit
    exact ⟨r, rfl, hd, hr, by simp⟩
  | some record =>
    cases hcommand : commands output with
    | none =>
      simp only [hrecord, hcommand] at hvisit ⊢
      obtain ⟨rfl, hd⟩ := hfalse hvisit
      exact ⟨r, rfl, hd, hr, by simp⟩
    | some command =>
      simp only [hrecord, hcommand] at hvisit ⊢
      by_cases hbad : command.action = .tracing ∨ record.command ≠ command
      · rw [if_pos hbad] at hvisit ⊢
        obtain ⟨rfl, hd⟩ := hfalse hvisit
        exact ⟨r, rfl, hd, hr, by simp⟩
      · rw [if_neg hbad] at hvisit ⊢
        obtain ⟨k, r', hinputs, hchecked, hsane, hk⟩ := checkInputs_simulates hsim hr hvisit
        simp only [hinputs]
        cases k with
        | false => exact ⟨r', by simp [hk], hchecked, hsane, by simp [hk]⟩
        | true =>
          cases hread : read record.hash with
          | none => exact ⟨r', by simp [hk, hread], hchecked, hsane, by simp [hk, hread]⟩
          | some bytes =>
            let kept : Restoring :=
              { r' with contents := Function.update r'.contents output (some bytes) }
            have hself : kept.contents output = read record.hash := by simp [kept, hread]
            have hsome : (read record.hash).isSome := by simp [hread]
            refine ⟨kept, by simp [hk, hread, kept], hchecked,
              ⟨hsane.records_eq, hsane.commands_eq, fun other hother => ?_⟩,
              fun _ => ⟨record, rfl, hsome, hself⟩⟩
            by_cases hne : other = output
            · subst hne
              exact ⟨record, hrecord, hsome, hself⟩
            · obtain ⟨held, hheld⟩ := hsane.contents other hother
              exact ⟨held, by simpa [kept, hne] using hheld⟩

theorem recordHolds_simulates (n : Nat) :
    Simulates read records commands (recordHolds source read n)
      (visit (recordConds source read records commands) n) := by
  induction n with
  | zero =>
    intro output r h d _ hvisit
    simp [visit] at hvisit
  | succ n ih =>
    intro output r h d hr hvisit
    unfold visit at hvisit
    unfold recordHolds
    cases hchecked : r.checked output with
    | some found =>
      simp only [hchecked, Option.some.injEq, Prod.mk.injEq] at hvisit ⊢
      obtain ⟨rfl, rfl⟩ := hvisit
      exact ⟨r, ⟨rfl, rfl⟩, rfl, hr⟩
    | none =>
      simp only [hchecked] at hvisit ⊢
      let checking : Restoring :=
        { r with checked := Function.update r.checked output (some .checking) }
      have hsane : checking.Sane read records commands := by
        refine ⟨hr.records_eq, hr.commands_eq, fun other hother => ?_⟩
        by_cases hne : other = output
        · subst hne
          simp [checking] at hother
        · exact hr.contents other (by simpa [checking, hne] using hother)
      cases hall : checkAll (visit (recordConds source read records commands) n)
          (recordConds source read records commands output) checking.checked with
      | none => simp [checking, hall] at hvisit
      | some p =>
        obtain ⟨holds, c⟩ := p
        simp only [checking, hall, Option.some.injEq, Prod.mk.injEq] at hvisit
        obtain ⟨rfl, rfl⟩ := hvisit
        obtain ⟨r', hcheck, rfl, hsane', hcontents⟩ := checkRecord_simulates ih hsane hall
        let found : Restoring := { r' with
          checked := Function.update r'.checked output (some (if holds then .holds else .stale)) }
        have hfound : recordHolds source read (n + 1) output r = some (holds, found) := by
          simp only [recordHolds, hchecked]
          rw [show checkRecord source read (recordHolds source read n) output
            { r with checked := Function.update r.checked output (some .checking) } =
              some (holds, r') from hcheck]
        refine ⟨found, by simpa only [recordHolds, hchecked] using hfound, rfl,
          hsane'.records_eq, hsane'.commands_eq, fun other hother => ?_⟩
        by_cases hne : other = output
        · subst hne
          cases holds with
          | false => simp [found] at hother
          | true => exact hcontents rfl
        · exact hsane'.contents other (by simpa [found, hne] using hother)

theorem not_needs_of_no_record {output : Path} (h : records output = none) (other : Path) :
    ¬Needs (recordConds source read records commands) output other := by
  intro ⟨f, hf⟩
  simp [recordConds, h] at hf

open Classical in
/-- The loop over records restores those of the least set, in their order, and drops the others. -/
theorem restoreAll_spec {nodes : List Path} (hnodes : ∀ output, output ∉ nodes → records output = none)
    {n : Nat} (hn : nodes.length < n) {rs : List Record}
    (hrs : ∀ record ∈ rs, records record.command.output = some record) {r : Restoring} {s : State}
    (hr : r.Sane read records commands)
    (hgood : Good (recordConds source read records commands) r.checked)
    (hdone : ∀ output, r.checked output ≠ some .checking) :
    restoreAll source read n rs r s =
      some ((rs.filter fun record =>
          record.command.output ∉ least (recordConds source read records commands)).map
            fun record => record.command.output,
        (rs.filter fun record =>
          record.command.output ∈ least (recordConds source read records commands)).foldl
            (fun s record => s.restore record ((read record.hash).getD [])) s) := by
  induction rs generalizing r s with
  | nil => rfl
  | cons record rs ih =>
    have hfuel : unseen nodes r.checked < n :=
      Nat.lt_of_le_of_lt List.countP_le_length hn
    obtain ⟨h, d, hvisit, hv, hset⟩ := visit_spec
      (fun output hout other => not_needs_of_no_record (hnodes output hout) other) hgood
      (fun output hout => absurd hout (hdone output)) hfuel (a := record.command.output)
    obtain ⟨r', hholds, rfl, hsane⟩ := recordHolds_simulates n _ r h d hr hvisit
    have hdone' : ∀ output, r'.checked output ≠ some .checking := fun output hout =>
      hdone output (hv.grows.checking output hout)
    have htail := fun s => ih (fun q hq => hrs q (List.mem_cons_of_mem _ hq)) (s := s) hsane hv.good hdone'
    unfold restoreAll
    rw [hholds]
    cases h with
    | false =>
      have hnot : record.command.output ∉ least (recordConds source read records commands) :=
        fun hmem => by simpa using hv.verdict.mpr hmem
      simp only [htail]
      simp [hnot]
    | true =>
      have hmem := hv.verdict.mp rfl
      obtain ⟨held, hheld, _, hcontents⟩ := hsane.contents _ (hset (hdone _))
      have heq : held = record := by
        have := hrs record (by simp)
        simpa [hheld] using this
      subst heq
      simp only [htail, hcontents]
      simp [hmem]

end

end MakeBelieve.Tree
