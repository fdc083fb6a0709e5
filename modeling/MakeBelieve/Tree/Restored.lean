import Mathlib.Order.Bounds.Defs
import MakeBelieve.Tree.Restore

namespace MakeBelieve.Tree

open Library Memo Relation

/-! ### Which outputs are restored -/

/-- What it takes for an output to be restored along with those of `restored`: a declared rule
which is no trace and is the record's, content that is still there, source files stamped as they
are now, and outputs read that are restored with the content that was read. -/
def Restorable (source : Source) (contentHash : Bytes → Hash) (cache : Cache) (commands : Commands)
    (restored : Set Path) (output : Path) : Prop :=
  ∃ record ∈ cache.records, record.command.output = output ∧
    commands.find output = some record.command ∧ record.command.action ≠ .tracing ∧
    (cache.read contentHash record.hash).isSome ∧
    ∀ input ∈ record.inputs, match outputNamedBy input.path with
      | none => stampSource source input.path = some input
      | some x => x ∈ restored ∧ ∃ read ∈ cache.records, read.command.output = x ∧
          read.hash = input.hash

/-- An output's record has another output among its inputs. -/
def RecordReads (cache : Cache) (output other : Path) : Prop :=
  ∃ record ∈ cache.records, record.command.output = output ∧
    ∃ input ∈ record.inputs, outputNamedBy input.path = some other

variable {source : Source} {contentHash : Bytes → Hash} {cache : Cache} {commands : Commands}

/-- What each output's record asks for, of this cache. -/
def cacheConds (source : Source) (contentHash : Bytes → Hash) (cache : Cache)
    (commands : Commands) : Path → List (Cond Path) :=
  recordConds source (cache.read contentHash) (recordOf cache.records) commands.find

theorem granted_inputCond {restored : Set Path} {input : Input} :
    Granted restored (inputCond source (recordOf cache.records) input) ↔
      match outputNamedBy input.path with
      | none => stampSource source input.path = some input
      | some x => x ∈ restored ∧ ∃ read ∈ cache.records, read.command.output = x ∧
          read.hash = input.hash := by
  unfold inputCond
  cases outputNamedBy input.path with
  | none => simp [Granted]
  | some x =>
    simp only [Granted, decide_eq_true_eq, Option.map_eq_some_iff, recordOf_eq_some cache.nodup]
    constructor
    · rintro ⟨hx, read, ⟨hmem, hout⟩, hhash⟩
      exact ⟨hx, read, hmem, hout, hhash⟩
    · rintro ⟨hx, read, hmem, hout, hhash⟩
      exact ⟨hx, read, ⟨hmem, hout⟩, hhash⟩

theorem granted_cacheConds {restored : Set Path} {output : Path} :
    (∀ c ∈ cacheConds source contentHash cache commands output, Granted restored c) ↔
      Restorable source contentHash cache commands restored output := by
  have hnever : ¬∀ c ∈ [Cond.own (α := Path) false], Granted restored c := by simp [Granted]
  unfold cacheConds recordConds
  cases hrecord : recordOf cache.records output with
  | none =>
    simp only [hnever, false_iff]
    rintro ⟨record, hmem, hout, _⟩
    rw [(recordOf_eq_some cache.nodup).mpr ⟨hmem, hout⟩] at hrecord
    simp at hrecord
  | some record =>
    obtain ⟨hmem, hout⟩ := (recordOf_eq_some cache.nodup).mp hrecord
    have honly : ∀ other ∈ cache.records, other.command.output = output → other = record := by
      intro other hother hout'
      have := (recordOf_eq_some cache.nodup).mpr ⟨hother, hout'⟩
      simpa [hrecord, eq_comm] using this
    cases hcommand : commands.find output with
    | none =>
      simp only [hnever, false_iff]
      rintro ⟨other, _, _, hfind, _⟩
      simp [hcommand] at hfind
    | some command =>
      by_cases hbad : command.action = .tracing ∨ record.command ≠ command
      · simp only [if_pos hbad, hnever, false_iff]
        rintro ⟨other, hother, hout', hfind, haction, _⟩
        rw [honly other hother hout', hcommand, Option.some.injEq] at hfind
        rw [honly other hother hout', ← hfind] at haction
        exact hbad.elim haction (fun hne => hne hfind.symm)
      · simp only [if_neg hbad]
        push Not at hbad
        obtain ⟨haction, rfl⟩ := hbad
        constructor
        · intro hall
          refine ⟨record, hmem, hout, hcommand, haction, ?_, fun input hinput => ?_⟩
          · exact hall (.own _) (by simp)
          · exact granted_inputCond.mp
              (hall _ (List.mem_append_left _ (List.mem_map_of_mem hinput)))
        · rintro ⟨other, hother, hout', _, _, hread, hinputs⟩ c hc
          obtain rfl := honly other hother hout'
          rcases List.mem_append.mp hc with hc | hc
          · obtain ⟨input, hinput, rfl⟩ := List.mem_map.mp hc
            exact granted_inputCond.mpr (hinputs input hinput)
          · rw [List.mem_singleton] at hc
            subst hc
            exact hread

/-- The outputs whose records hold are the least set of outputs that can be restored together. -/
theorem isLeast_restorable : IsLeast
    { restored : Set Path | ∀ output,
      output ∈ restored ↔ Restorable source contentHash cache commands restored output }
    (least (cacheConds source contentHash cache commands)) := by
  refine ⟨fun output => ?_, fun restored h => ?_⟩
  · rw [mem_least, granted_cacheConds]
  · exact least_subset fun output hall => (h output).mpr (granted_cacheConds.mp hall)

theorem needs_of_recordReads {output other : Path}
    (hout : output ∈ least (cacheConds source contentHash cache commands))
    (h : RecordReads cache output other) :
    Needs (cacheConds source contentHash cache commands) output other := by
  obtain ⟨record, hmem, hrecord, input, hinput, hnamed⟩ := h
  have hfound := (recordOf_eq_some cache.nodup).mpr ⟨hmem, hrecord⟩
  obtain ⟨held, hheld, hout', hfind, haction, _⟩ :=
    granted_cacheConds.mp (mem_least.mp hout)
  have heq : held = record := by
    have := (recordOf_eq_some cache.nodup).mpr ⟨hheld, hout'⟩
    simpa [hfound, eq_comm] using this
  subst heq
  refine ⟨decide ((recordOf cache.records other).map Record.hash = some input.hash), ?_⟩
  unfold cacheConds recordConds
  simp only [hfound, hfind]
  rw [if_neg (by simp [haction])]
  refine List.mem_append_left _ (List.mem_map.mpr ⟨input, hinput, ?_⟩)
  rw [inputCond, hnamed]

theorem transGen_needs {output other : Path}
    (hout : output ∈ least (cacheConds source contentHash cache commands))
    (h : TransGen (RecordReads cache) output other) :
    other ∈ least (cacheConds source contentHash cache commands) ∧
      TransGen (Needs (cacheConds source contentHash cache commands)) output other := by
  induction h with
  | single hstep =>
    have hneeds := needs_of_recordReads hout hstep
    exact ⟨least_of_needs hout hneeds, .single hneeds⟩
  | tail _ hstep ih =>
    have hneeds := needs_of_recordReads ih.1 hstep
    exact ⟨least_of_needs ih.1 hneeds, ih.2.tail hneeds⟩

/-- Nothing on a cycle of recorded inputs is restored, nor anything that leads to one. -/
theorem not_least_of_cycle_reached {output other : Path}
    (hreach : ReflTransGen (RecordReads cache) output other)
    (hcycle : TransGen (RecordReads cache) other other) :
    output ∉ least (cacheConds source contentHash cache commands) := by
  intro hout
  have hother : other ∈ least (cacheConds source contentHash cache commands) := by
    rcases reflTransGen_iff_eq_or_transGen.mp hreach with rfl | hpath
    · exact hout
    · exact (transGen_needs hout hpath).1
  exact not_least_of_cycle (transGen_needs hother hcycle).2 hother

/-! ### What restoring an output does -/

section

variable {s t : State} {output : Path}

/-- `output` is as it was. -/
structure SameOutput (s t : State) (output : Path) : Prop where
  files : t.files output = s.files output
  stale : t.stale output = s.stale output
  hashes : t.hashes output = s.hashes output
  dependencies : t.dependencies output = s.dependencies output

/-- `record`'s output is served as built, from its content. -/
structure ServedAs (t : State) (record : Record) (bytes : Bytes) : Prop where
  files : t.files record.command.output = some ⟨bytes, record.mtime⟩
  stale : t.stale record.command.output = false
  hashes : t.hashes record.command.output = some record.hash
  dependencies : t.dependencies record.command.output = some (record.inputs.map Input.path)

/-- Nothing but what a restored output is served from has changed. -/
def OnlyServed (s t : State) : Prop :=
  t = { s with
    files := t.files, stale := t.stale, hashes := t.hashes
    dependents := t.dependents, dependencies := t.dependencies }

theorem OnlyServed.trans {u : State} (h : OnlyServed s t) (h' : OnlyServed t u) :
    OnlyServed s u := by
  unfold OnlyServed at *
  rw [h'] at *
  rw [h]

theorem SameOutput.trans {u : State} (h : SameOutput s t output) (h' : SameOutput t u output) :
    SameOutput s u output :=
  ⟨h'.files.trans h.files, h'.stale.trans h.stale, h'.hashes.trans h.hashes,
    h'.dependencies.trans h.dependencies⟩

theorem ServedAs.of_same {u : State} {record : Record} {bytes : Bytes} (h : ServedAs t record bytes)
    (h' : SameOutput t u record.command.output) : ServedAs u record bytes :=
  ⟨h'.files.trans h.files, h'.stale.trans h.stale, h'.hashes.trans h.hashes,
    h'.dependencies.trans h.dependencies⟩

theorem restore_served (s : State) (record : Record) (bytes : Bytes) :
    ServedAs (s.restore record bytes) record bytes := by
  refine ⟨?_, ?_, ?_, ?_⟩ <;> exact Function.update_self ..

theorem restore_same (s : State) {record : Record} {bytes : Bytes}
    (h : output ≠ record.command.output) : SameOutput s (s.restore record bytes) output := by
  refine ⟨?_, ?_, ?_, ?_⟩ <;> exact Function.update_of_ne h ..

/-- Restoring records, one for each output, serves each of those outputs and no other. -/
theorem foldl_restore {bytes : Record → Bytes} {rs : List Record}
    (hnd : (rs.map fun record => record.command.output).Nodup) (s : State) :
    let t := rs.foldl (fun s record => s.restore record (bytes record)) s
    (∀ record ∈ rs, ServedAs t record (bytes record)) ∧
      (∀ output, output ∉ rs.map (fun record => record.command.output) → SameOutput s t output) ∧
      OnlyServed s t ∧ (s.Inverse → t.Inverse) := by
  induction rs generalizing s with
  | nil => exact ⟨by simp, fun _ _ => ⟨rfl, rfl, rfl, rfl⟩, rfl, id⟩
  | cons record rs ih =>
    obtain ⟨hnot, hnd⟩ := List.nodup_cons.mp hnd
    obtain ⟨hserved, hsame, honly, hinverse⟩ := ih hnd (s.restore record (bytes record))
    refine ⟨fun other hother => ?_, fun output hout => ?_, ?_, fun h => hinverse ?_⟩
    · rcases List.mem_cons.mp hother with rfl | hother
      · exact (restore_served s _ _).of_same (hsame _ hnot)
      · exact hserved other hother
    · simp only [List.map_cons, List.mem_cons, not_or] at hout
      exact (restore_same s hout.1).trans (hsame output hout.2)
    · have hone : OnlyServed s (s.restore record (bytes record)) := rfl
      exact hone.trans honly
    · have hframe : State.Inverse { s.writeFile record.command.output ⟨bytes record, record.mtime⟩ with
          stale := Function.update s.stale record.command.output false
          hashes := Function.update s.hashes record.command.output (some record.hash) } := h
      exact hframe.updateDependents

end

/-- What `restore_from_cache` comes back with, where `restored` are the outputs it serves. -/
structure RestoredExactly (contentHash : Bytes → Hash) (cache : Cache) (s : State)
    (restored : Set Path) (kept : Cache) (t : State) : Prop where
  served : ∀ record ∈ cache.records, record.command.output ∈ restored →
    ∃ bytes, cache.read contentHash record.hash = some bytes ∧ ServedAs t record bytes
  others : ∀ output, output ∉ restored → SameOutput s t output
  only : OnlyServed s t
  inverse : t.Inverse
  records : ∀ record, record ∈ kept.records ↔
    record ∈ cache.records ∧ record.command.output ∈ restored

/-- Two trees are one but for the order in which their sets of dependents are listed. -/
structure SameTree (t u : State) : Prop where
  only : u = { t with dependents := u.dependents }
  dependents : ∀ input reader,
    reader ∈ State.membersOf u.dependents input ↔ reader ∈ State.membersOf t.dependents input

/-- Every output restored has a record: with the records come all that is served. -/
theorem RestoredExactly.sameTree {s t u : State} {other kept kept' : Cache} {restored : Set Path}
    (hsub : ∀ output ∈ restored, ∃ record ∈ cache.records, record.command.output = output)
    (hmem : ∀ record, record ∈ cache.records ↔ record ∈ other.records)
    (hobjects : other.objects = cache.objects)
    (h : RestoredExactly contentHash cache s restored kept t)
    (h' : RestoredExactly contentHash other s restored kept' u) : SameTree t u := by
  have hread : other.read contentHash = cache.read contentHash := by
    funext hash
    simp only [Cache.read, hobjects]
  have hall : ∀ output, u.files output = t.files output ∧ u.stale output = t.stale output ∧
      u.hashes output = t.hashes output ∧ u.dependencies output = t.dependencies output := by
    intro output
    by_cases hout : output ∈ restored
    · obtain ⟨record, hrecord, rfl⟩ := hsub output hout
      obtain ⟨bytes, hbytes, hserved⟩ := h.served record hrecord hout
      obtain ⟨bytes', hbytes', hserved'⟩ := h'.served record ((hmem record).mp hrecord) hout
      rw [hread, hbytes, Option.some.injEq] at hbytes'
      subst hbytes'
      exact ⟨hserved'.files.trans hserved.files.symm, hserved'.stale.trans hserved.stale.symm,
        hserved'.hashes.trans hserved.hashes.symm,
        hserved'.dependencies.trans hserved.dependencies.symm⟩
    · have hsame := h.others output hout
      have hsame' := h'.others output hout
      exact ⟨hsame'.files.trans hsame.files.symm, hsame'.stale.trans hsame.stale.symm,
        hsame'.hashes.trans hsame.hashes.symm, hsame'.dependencies.trans hsame.dependencies.symm⟩
  have hfiles : u.files = t.files := funext fun output => (hall output).1
  have hstale : u.stale = t.stale := funext fun output => (hall output).2.1
  have hhashes : u.hashes = t.hashes := funext fun output => (hall output).2.2.1
  have hdeps : u.dependencies = t.dependencies := funext fun output => (hall output).2.2.2
  refine ⟨?_, fun input reader => ?_⟩
  · rw [h'.only, h.only, hfiles, hstale, hhashes, hdeps]
  · rw [h'.inverse, h.inverse, hdeps]

theorem mem_forget {outputs : List Path} {record : Record} :
    record ∈ (cache.forget outputs).records ↔
      record ∈ cache.records ∧ record.command.output ∉ outputs := by
  simp [Cache.forget]

/-- Given fuel for every record, restoring ends, and restores what can be. -/
theorem restoreFromCache_exactly {n : Nat} (hn : cache.records.length < n) {s : State}
    (hs : s.Inverse) :
    ∃ kept t, restoreFromCache source contentHash cache n s = some (kept, t) ∧
      RestoredExactly contentHash cache s
        (least (cacheConds source contentHash cache s.commands)) kept t := by
  classical
  let nodes := cache.records.map fun record => record.command.output
  have hnodes : ∀ output, output ∉ nodes → recordOf cache.records output = none := by
    intro output hout
    refine List.find?_eq_none.mpr fun record hrecord => ?_
    simp only [decide_eq_true_eq]
    rintro rfl
    exact hout (List.mem_map_of_mem hrecord)
  have hrs : ∀ record ∈ cache.records,
      recordOf cache.records record.command.output = some record :=
    fun record hrecord => (recordOf_eq_some cache.nodup).mpr ⟨hrecord, rfl⟩
  let restoring : Restoring :=
    { records := recordOf cache.records, commands := s.commands.find }
  have hsane : restoring.Sane (cache.read contentHash) (recordOf cache.records) s.commands.find :=
    ⟨rfl, rfl, by simp [restoring]⟩
  have hlen : nodes.length < n := by simpa [nodes] using hn
  have hall : restoreAll source (cache.read contentHash) n cache.records restoring s = _ :=
    restoreAll_spec hnodes hlen hrs hsane
      ⟨by simp [restoring], by simp [restoring]⟩ (by simp [restoring])
  let kept := cache.records.filter fun record => decide (record.command.output ∈
    least (recordConds source (cache.read contentHash) (recordOf cache.records) s.commands.find))
  have hnd : (kept.map fun record => record.command.output).Nodup :=
    cache.nodup.sublist (List.Sublist.map _ List.filter_sublist)
  obtain ⟨hserved, hsame, honly, hinverse⟩ :=
    @foldl_restore (fun record => (cache.read contentHash record.hash).getD []) _ hnd s
  have hrun : restoreFromCache source contentHash cache n s = _ :=
    congrArg (Option.map fun (p : List Path × State) => (cache.forget p.1, p.2)) hall
  refine ⟨_, _, hrun, ⟨fun record hrecord hout => ?_, fun output hout => ?_, honly, hinverse hs,
    fun record => ?_⟩⟩
  · obtain ⟨held, hheld, hout', _, _, hread, _⟩ :=
      (isLeast_restorable.1 record.command.output).mp hout
    have heq : held = record := List.inj_on_of_nodup_map cache.nodup hheld hrecord hout'
    subst heq
    obtain ⟨bytes, hbytes⟩ := Option.isSome_iff_exists.mp hread
    have hrestored := hserved held (List.mem_filter.mpr ⟨hrecord, decide_eq_true hout⟩)
    rw [hbytes] at hrestored
    exact ⟨bytes, hbytes, hrestored⟩
  · refine hsame output fun hmem => hout ?_
    obtain ⟨record, hrecord, rfl⟩ := List.mem_map.mp hmem
    exact of_decide_eq_true (List.mem_filter.mp hrecord).2
  · rw [mem_forget]
    refine and_congr_right fun hrecord => ?_
    simp only [List.mem_map, List.mem_filter, decide_eq_true_eq]
    constructor
    · intro hnot
      by_contra hout
      exact hnot ⟨record, ⟨hrecord, hout⟩, rfl⟩
    · rintro hout ⟨other, ⟨_, hnot⟩, heq⟩
      exact hnot (heq ▸ hout)

theorem constructed_inverse (commands : Commands) (mtime : Int64) :
    (constructed commands mtime).Inverse := by
  rw [constructed_eq]
  intro input reader
  simp [State.membersOf]

/-- Restoring serves exactly the least set of outputs that can be restored together, whatever the
records and the source tree, and whatever order the records come in. -/
theorem restoreFromCache_least (source : Source) (contentHash : Bytes → Hash) (cache : Cache)
    (commands : Commands) (mtime : Int64) :
    ∃ restored : Set Path,
      IsLeast { restored : Set Path | ∀ output,
        output ∈ restored ↔ Restorable source contentHash cache commands restored output }
        restored ∧
      (∀ output other, ReflTransGen (RecordReads cache) output other →
        TransGen (RecordReads cache) other other → output ∉ restored) ∧
      ∀ n, cache.records.length < n → ∃ kept t,
        restoreFromCache source contentHash cache n (constructed commands mtime) =
          some (kept, t) ∧
        RestoredExactly contentHash cache (constructed commands mtime) restored kept t ∧
        (∀ output, (commands.find output).isSome →
          (t.stale output = false ↔ output ∈ restored)) ∧
        ∀ other : Cache, cache.records.Perm other.records → other.objects = cache.objects →
          ∃ kept' t', restoreFromCache source contentHash other n (constructed commands mtime) =
              some (kept', t') ∧ SameTree t t' ∧
            ∀ record, record ∈ kept'.records ↔ record ∈ kept.records := by
  have hcommands : (constructed commands mtime).commands = commands := by rw [constructed_eq]
  have hstale : ∀ output, (constructed commands mtime).stale output =
      (commands.find output).isSome := by
    intro output
    rw [constructed_eq]
  refine ⟨least (cacheConds source contentHash cache commands), isLeast_restorable,
    fun output other hreach hcycle => not_least_of_cycle_reached hreach hcycle, fun n hn => ?_⟩
  obtain ⟨kept, t, hrun, hexactly⟩ :=
    @restoreFromCache_exactly source contentHash cache n hn _ (constructed_inverse commands mtime)
  rw [hcommands] at hexactly
  have hrecord : ∀ output ∈ least (cacheConds source contentHash cache commands),
      ∃ record ∈ cache.records, record.command.output = output := by
    intro output hout
    obtain ⟨record, hmem, heq, _⟩ := (isLeast_restorable.1 output).mp hout
    exact ⟨record, hmem, heq⟩
  refine ⟨kept, t, hrun, hexactly, fun output hdeclared => ⟨fun hfresh => ?_, fun hout => ?_⟩,
    fun other hperm hobjects => ?_⟩
  · by_contra hout
    rw [(hexactly.others output hout).stale, hstale, hdeclared] at hfresh
    simp at hfresh
  · obtain ⟨record, hmem, rfl⟩ := hrecord output hout
    obtain ⟨_, _, hserved⟩ := hexactly.served record hmem hout
    exact hserved.stale
  · obtain ⟨kept', t', hrun', hexactly'⟩ := @restoreFromCache_exactly source contentHash other n
      (hperm.length_eq ▸ hn) _ (constructed_inverse commands mtime)
    rw [hcommands] at hexactly'
    have hconds : cacheConds source contentHash other commands =
        cacheConds source contentHash cache commands := by
      have hfind : recordOf other.records = recordOf cache.records := by
        funext output
        ext record
        rw [recordOf_eq_some other.nodup, recordOf_eq_some cache.nodup, hperm.mem_iff]
      have hread : other.read contentHash = cache.read contentHash := by
        funext hash
        simp only [Cache.read, hobjects]
      rw [cacheConds, cacheConds, hfind, hread]
    rw [hconds] at hexactly'
    refine ⟨kept', t', hrun', hexactly.sameTree hrecord (fun record => hperm.mem_iff) hobjects
      hexactly', fun record => ?_⟩
    rw [hexactly'.records, hexactly.records, hperm.mem_iff]

end MakeBelieve.Tree
