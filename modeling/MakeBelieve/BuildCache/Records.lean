import Mathlib.Data.List.Induction
import MakeBelieve.BuildCache.Content

namespace MakeBelieve.BuildCache

open Library
open MakeBelieve.Tree (Action Bytes Command Hash Input Record isHash recordOf)

variable {contentHash : Bytes → Hash}

/-! ### What a cache is for -/

/-- Each output's record with the bytes stored for it. -/
abbrev Stored := Path → Option (Record × Bytes)

def recordFor (contentHash : Bytes → Hash) (call : Call) : Record where
  command := call.command
  hash := contentHash call.bytes
  mtime := call.mtime
  inputs := Tree.Cache.firstStamps call.inputs

/-- What an operation makes of the map. -/
def applyOp (contentHash : Bytes → Hash) (stored : Stored) : Op → Stored
  | .store call =>
    Function.update stored call.command.output (some (recordFor contentHash call, call.bytes))
  | .forget outputs => fun output => if output ∈ outputs then none else stored output
  | _ => stored

def storedBy (contentHash : Bytes → Hash) (ops : List Op) : Stored :=
  ops.foldl (applyOp contentHash) fun _ => none

/-- Whether an operation is about an output. -/
def Op.Concerns : Op → Path → Prop
  | .store call, output => output = call.command.output
  | .forget outputs, output => output ∈ outputs
  | _, _ => False

/-! ### Text and back -/

theorem fromText_toText {path : Path} (h : Texted path) : fromText (toText path) = path := by
  by_cases hnil : path = []
  · subst hnil
    rfl
  have hsplit : (toText path).splitOn '/' = path :=
    List.splitOn_intercalate '/' (fun part hpart => (h part hpart).2) hnil
  have hne : toText path ≠ [] := by
    intro hempty
    rw [hempty] at hsplit
    have hmem : [] ∈ path := by
      rw [← hsplit]
      simp
    exact (h [] hmem).1 rfl
  unfold fromText
  rw [if_neg hne, hsplit]

theorem toText_inj {path other : Path} (h : Texted path) (hother : Texted other)
    (heq : toText path = toText other) : path = other := by
  rw [← fromText_toText h, heq, fromText_toText hother]

theorem actionFromText_actionText (action : Action) :
    actionFromText (actionText action) = some action := by
  cases action <;> decide +kernel

/-! ### Inputs, one after the other -/

theorem mem_firstStamps {inputs : List Input} {input : Input}
    (h : input ∈ Tree.Cache.firstStamps inputs) : input ∈ inputs := by
  induction inputs with
  | nil => simp [Tree.Cache.firstStamps] at h
  | cons first inputs ih =>
    unfold Tree.Cache.firstStamps at h
    obtain rfl | h := List.mem_cons.mp h
    · exact List.mem_cons_self ..
    · exact List.mem_cons_of_mem _ (ih (List.mem_filter.mp h).1)

/-- Every path that is given has its first stamp. -/
theorem firstStamps_path {inputs : List Input} {input : Input} (h : input ∈ inputs) :
    ∃ first ∈ Tree.Cache.firstStamps inputs, first.path = input.path := by
  induction inputs with
  | nil => simp at h
  | cons other inputs ih =>
    unfold Tree.Cache.firstStamps
    by_cases heq : other.path = input.path
    · exact ⟨other, List.mem_cons_self .., heq⟩
    · obtain rfl | h := List.mem_cons.mp h
      · exact absurd rfl heq
      · obtain ⟨first, hfirst, hpath⟩ := ih h
        refine ⟨first, List.mem_cons_of_mem _ (List.mem_filter.mpr ⟨hfirst, ?_⟩), hpath⟩
        rw [hpath]
        simpa using fun h => heq h.symm

/-- One input more is kept unless its path has been there. -/
theorem firstStamps_concat (inputs : List Input) (input : Input) :
    Tree.Cache.firstStamps (inputs ++ [input]) = Tree.Cache.firstStamps inputs ++
      if (Tree.Cache.firstStamps inputs).any fun first => first.path = input.path then []
      else [input] := by
  induction inputs with
  | nil => rfl
  | cons other inputs ih =>
    rw [List.cons_append]
    unfold Tree.Cache.firstStamps
    rw [ih, List.filter_append, List.cons_append]
    congr 2
    by_cases hother : other.path = input.path
    · have hany : ((other :: (Tree.Cache.firstStamps inputs).filter fun later =>
          decide (later.path ≠ other.path)).any fun first =>
            decide (first.path = input.path)) = true := by simp [hother]
      rw [if_pos hany]
      split
      · rfl
      · simp [hother]
    · have hany : ((other :: (Tree.Cache.firstStamps inputs).filter fun later =>
          decide (later.path ≠ other.path)).any fun first => decide (first.path = input.path)) =
          (Tree.Cache.firstStamps inputs).any fun first => decide (first.path = input.path) := by
        rw [Bool.eq_iff_iff]
        simp only [List.any_cons, Bool.or_eq_true, decide_eq_true_eq, List.any_eq_true,
          List.mem_filter]
        constructor
        · rintro (heq | ⟨first, ⟨hfirst, _⟩, heq⟩)
          · exact absurd heq hother
          · exact ⟨first, hfirst, heq⟩
        · rintro ⟨first, hfirst, heq⟩
          refine .inr ⟨first, ⟨hfirst, ?_⟩, heq⟩
          rw [heq]
          simpa using fun h => hother h.symm
      rw [hany]
      split
      · rfl
      · simp [show input.path ≠ other.path from fun h => hother h.symm]

/-- The rows of one output's inputs. -/
def inputRows (db : Database) (output : Text) : List InputRow :=
  db.inputs.filter fun row => row.output = output

theorem lt_nextRowid {db : Database} {row : InputRow} (h : row ∈ db.inputs) :
    row.rowid < db.nextRowid := by
  unfold Database.nextRowid
  have hle : ∀ {rowids : List Nat} {rowid : Nat}, rowid ∈ rowids → rowid ≤ rowids.foldr max 0 := by
    intro rowids rowid hmem
    induction rowids with
    | nil => simp at hmem
    | cons first rowids ih =>
      rw [List.foldr_cons]
      obtain rfl | hmem := List.mem_cons.mp hmem
      · exact Nat.le_max_left _ _
      · exact Nat.le_trans (ih hmem) (Nat.le_max_right _ _)
  exact Nat.lt_succ_of_le (hle (List.mem_map_of_mem h))

/-- An input is added after those there are, unless its path is there. -/
theorem ignoreInput_spec {db : Database} {output : Text} {input : Input} {first : List Input}
    (hrowids : db.inputs.Pairwise fun a b => a.rowid < b.rowid)
    (hrows : (inputRows db output).map toInput = first)
    (htexts : ∀ row ∈ inputRows db output, row.path = toText (fromText row.path))
    (hinput : Texted input.path) :
    (db.ignoreInput output input).inputs.Pairwise (fun a b => a.rowid < b.rowid) ∧
    (inputRows (db.ignoreInput output input) output).map toInput =
      (first ++ if first.any fun first => first.path = input.path then [] else [input]) ∧
    (∀ row ∈ inputRows (db.ignoreInput output input) output, row.path = toText (fromText row.path)) ∧
    ∀ other, other ≠ output →
      inputRows (db.ignoreInput output input) other = inputRows db other := by
  have hany : (db.inputs.any fun row => row.output = output && row.path = toText input.path) =
      first.any fun first => first.path = input.path := by
    rw [Bool.eq_iff_iff, List.any_eq_true, List.any_eq_true]
    constructor
    · rintro ⟨row, hrow, hboth⟩
      obtain ⟨houtput, hpath⟩ : row.output = output ∧ row.path = toText input.path := by
        simpa using hboth
      refine ⟨toInput row, ?_, ?_⟩
      · rw [← hrows]
        exact List.mem_map_of_mem (List.mem_filter.mpr ⟨hrow, by simpa using houtput⟩)
      · simp [toInput, hpath, fromText_toText hinput]
    · rintro ⟨found, hfound, hpath⟩
      have hpath : found.path = input.path := by simpa using hpath
      have hmem := hfound
      rw [← hrows] at hmem
      obtain ⟨row, hrow, rfl⟩ := List.mem_map.mp hmem
      have htext := htexts row hrow
      obtain ⟨hin, houtput⟩ := List.mem_filter.mp hrow
      refine ⟨row, hin, ?_⟩
      rw [htext, show fromText row.path = input.path from hpath]
      simpa using houtput
  unfold Database.ignoreInput
  rw [hany]
  split
  · next hthere => exact ⟨hrowids, by simpa [hthere] using hrows, htexts, fun _ _ => rfl⟩
  · next hnot =>
    refine ⟨?_, ?_, fun row hrow => ?_, fun other hother => ?_⟩
    · refine List.pairwise_append.mpr ⟨hrowids, List.pairwise_singleton _ _, ?_⟩
      intro row hrow new hnew
      rw [List.mem_singleton.mp hnew]
      exact lt_nextRowid hrow
    · unfold inputRows at hrows ⊢
      rw [List.filter_append, List.map_append, hrows]
      simp [toInput, fromText_toText hinput]
    · unfold inputRows at hrow
      rw [List.filter_append, List.mem_append] at hrow
      obtain hrow | hrow := hrow
      · exact htexts row hrow
      · obtain rfl := List.mem_singleton.mp (List.mem_filter.mp hrow).1
        rw [fromText_toText hinput]
    · unfold inputRows
      rw [List.filter_append]
      simp [Ne.symm hother]

/-- Inputs added to an output that has none are its first stamps. -/
theorem foldl_ignoreInput {db : Database} {output : Text} {inputs : List Input}
    (hrowids : db.inputs.Pairwise fun a b => a.rowid < b.rowid)
    (hnone : inputRows db output = []) (hinputs : ∀ input ∈ inputs, Texted input.path) :
    let db' := inputs.foldl (fun db input => db.ignoreInput output input) db
    db'.inputs.Pairwise (fun a b => a.rowid < b.rowid) ∧
    (inputRows db' output).map toInput = Tree.Cache.firstStamps inputs ∧
    (∀ row ∈ inputRows db' output, row.path = toText (fromText row.path)) ∧
    ∀ other, other ≠ output → inputRows db' other = inputRows db other := by
  induction inputs using List.reverseRecOn with
  | nil => exact ⟨hrowids, by simp [hnone, Tree.Cache.firstStamps], by simp [hnone], fun _ _ => rfl⟩
  | append_singleton inputs input ih =>
    obtain ⟨hbefore, hfirst, htexts, hothers⟩ :=
      ih fun input hmem => hinputs input (List.mem_append_left _ hmem)
    have hlast := hinputs input (List.mem_append_right _ (List.mem_singleton_self _))
    obtain ⟨hafter, hrows, htexts', hothers'⟩ := ignoreInput_spec hbefore hfirst htexts hlast
    rw [List.foldl_append, List.foldl_cons, List.foldl_nil, firstStamps_concat]
    exact ⟨hafter, hrows, htexts', fun other hne => (hothers' other hne).trans (hothers other hne)⟩

/-! ### The tables hold the records -/

def rowOf (record : Record) : OutputRow where
  path := toText record.command.output
  action := actionText record.command.action
  command := record.command.text
  hash := record.hash
  mtime := record.mtime

structure Tables (db : Database) (rs : List Record) : Prop where
  outputs : db.outputs = rs.map rowOf
  rowids : db.inputs.Pairwise fun a b => a.rowid < b.rowid
  inputs : ∀ record ∈ rs,
    (inputRows db (toText record.command.output)).map toInput = record.inputs
  texted : ∀ record ∈ rs, Texted record.command.output
  nodup : (rs.map fun record => record.command.output).Nodup

theorem Tables.records {db : Database} {rs : List Record} (h : Tables db rs) :
    BuildCache.records db = rs := by
  have hsorted : (db.inputs.mergeSort fun a b => decide (a.rowid ≤ b.rowid)) = db.inputs :=
    List.mergeSort_of_pairwise (h.rowids.imp fun hlt => by simpa using Nat.le_of_lt hlt)
  unfold BuildCache.records
  rw [hsorted, h.outputs, List.filterMap_map]
  refine (List.filterMap_congr fun record hrecord => ?_).trans List.filterMap_some
  show (actionFromText (actionText record.command.action)).map _ = some record
  have hinputs : (db.inputs.filter fun input => input.output = (rowOf record).path).map toInput =
      record.inputs := h.inputs record hrecord
  rw [actionFromText_actionText, Option.map_some, hinputs]
  simp only [rowOf, fromText_toText (h.texted record hrecord)]

theorem Tables.store {db : Database} {rs : List Record} (h : Tables db rs) {call : Call}
    (htexted : (Op.store call).Texted) :
    Tables (storeRows contentHash db call)
      ((rs.filter fun record => record.command.output ≠ call.command.output) ++
        [recordFor contentHash call]) := by
  obtain ⟨houtput, hinputs⟩ := htexted
  have hne : ∀ record ∈ rs, toText record.command.output ≠ toText call.command.output ↔
      record.command.output ≠ call.command.output := by
    intro record hrecord
    exact not_congr ⟨toText_inj (h.texted record hrecord) houtput, congrArg toText⟩
  have hnone : inputRows ((db.deleteInputs (toText call.command.output)).replaceOutput
      (outputRow contentHash call)) (toText call.command.output) = [] := by
    simp [inputRows, Database.deleteInputs, Database.replaceOutput]
  obtain ⟨hrowids, hown, _, hothers⟩ := foldl_ignoreInput
    (h.rowids.sublist List.filter_sublist) hnone hinputs
  refine ⟨?_, hrowids, fun record hrecord => ?_, fun record hrecord => ?_, ?_⟩
  · rw [storeRows_outputs, h.outputs, List.filter_map, List.map_append]
    congr 2
    exact List.filter_congr fun record hrecord => decide_eq_decide.mpr (hne record hrecord)
  · obtain hrecord | hrecord := List.mem_append.mp hrecord
    · obtain ⟨hmem, hother⟩ := List.mem_filter.mp hrecord
      have htext := (hne record hmem).mpr (by simpa using hother)
      rw [← h.inputs record hmem]
      refine congrArg _ ((hothers _ htext).trans ?_)
      unfold inputRows Database.replaceOutput Database.deleteInputs
      rw [List.filter_filter]
      refine List.filter_congr fun row _ => ?_
      by_cases heq : row.output = toText record.command.output
      · simp [heq, htext]
      · simp [heq]
    · rw [List.mem_singleton.mp hrecord]
      exact hown
  · obtain hrecord | hrecord := List.mem_append.mp hrecord
    · exact h.texted record (List.mem_filter.mp hrecord).1
    · rw [List.mem_singleton.mp hrecord]
      exact houtput
  · rw [List.map_append, List.nodup_append]
    refine ⟨h.nodup.sublist (List.filter_sublist.map _), by simp, ?_⟩
    rintro output hmem _ hlast rfl
    obtain ⟨record, hrecord, rfl⟩ := List.mem_map.mp hmem
    have hother := (List.mem_filter.mp hrecord).2
    rw [List.map_singleton, List.mem_singleton] at hlast
    simp [hlast, recordFor] at hother

/-- Forgetting one output takes its rows and no others. -/
theorem Tables.forgetRow {s : List Text × Database} {rs : List Record} (h : Tables s.2 rs)
    {output : Path} (htexted : Texted output) :
    Tables (forgetRow s (toText output)).2
      (rs.filter fun record => record.command.output ≠ output) := by
  have hne : ∀ record ∈ rs, toText record.command.output ≠ toText output ↔
      record.command.output ≠ output := by
    intro record hrecord
    exact not_congr ⟨toText_inj (h.texted record hrecord) htexted, congrArg toText⟩
  unfold BuildCache.forgetRow
  cases hfind : s.2.selectHash (toText output) with
  | none =>
    have hall : rs.filter (fun record => decide (record.command.output ≠ output)) = rs := by
      refine List.filter_eq_self.mpr fun record hrecord => decide_eq_true ?_
      refine (hne record hrecord).mp ?_
      have hnone := Option.map_eq_none_iff.mp hfind
      rw [h.outputs] at hnone
      have hmiss := List.find?_eq_none.mp hnone (rowOf record) (List.mem_map_of_mem hrecord)
      exact fun heq => hmiss (decide_eq_true heq)
    rw [hall]
    exact h
  | some hash =>
    refine ⟨?_, h.rowids.sublist List.filter_sublist, fun record hrecord => ?_,
      fun record hrecord => h.texted record (List.mem_filter.mp hrecord).1,
      h.nodup.sublist (List.filter_sublist.map _)⟩
    · show s.2.outputs.filter _ = _
      rw [h.outputs, List.filter_map]
      congr 1
      exact List.filter_congr fun record hrecord => decide_eq_decide.mpr (hne record hrecord)
    · obtain ⟨hmem, hother⟩ := List.mem_filter.mp hrecord
      have htext := (hne record hmem).mpr (by simpa using hother)
      rw [← h.inputs record hmem]
      refine congrArg _ ?_
      unfold inputRows Database.deleteOutput Database.deleteInputs
      rw [List.filter_filter]
      refine List.filter_congr fun row _ => ?_
      by_cases heq : row.output = toText record.command.output
      · simp [heq, htext]
      · simp [heq]

theorem Tables.forget {db : Database} {rs : List Record} (h : Tables db rs) {outputs : List Path}
    (htexted : (Op.forget outputs).Texted) :
    Tables (forgetRows db outputs).2
      (rs.filter fun record => record.command.output ∉ outputs) := by
  unfold forgetRows
  suffices hfold : ∀ (outputs : List Path) (s : List Text × Database) (rs : List Record),
      Tables s.2 rs → (∀ output ∈ outputs, Texted output) →
      Tables ((outputs.map toText).foldl BuildCache.forgetRow s).2
        (rs.filter fun record => record.command.output ∉ outputs) from
    hfold outputs ([], db) rs h htexted
  intro outputs
  induction outputs with
  | nil =>
    intro s rs hs _
    simpa using hs
  | cons output outputs ih =>
    intro s rs hs htexted
    rw [List.map_cons, List.foldl_cons]
    have hrest := ih _ _ (hs.forgetRow (htexted output (List.mem_cons_self ..)))
      fun other hother => htexted other (List.mem_cons_of_mem _ hother)
    rw [List.filter_filter] at hrest
    convert hrest using 2
    funext record
    simp [Bool.and_comm]

/-! ### The records are the map -/

theorem recordOf_filter (rs : List Record) (p : Path → Prop) [DecidablePred p] (output : Path) :
    recordOf (rs.filter fun record => p record.command.output) output =
      if p output then recordOf rs output else none := by
  unfold recordOf
  rw [List.find?_filter]
  split
  · next hp =>
    congr 1
    funext record
    by_cases heq : record.command.output = output
    · simp [heq, hp]
    · simp [heq]
  · next hp =>
    refine List.find?_eq_none.mpr fun record _ hboth => ?_
    have hboth : p record.command.output ∧ record.command.output = output := by
      simpa using hboth
    exact hp (hboth.2 ▸ hboth.1)

def Agrees (contentHash : Bytes → Hash) (rs : List Record) (ops : List Op) : Prop :=
  ∀ output, recordOf rs output = (storedBy contentHash ops output).map Prod.fst

theorem storedBy_concat (ops : List Op) (op : Op) :
    storedBy contentHash (ops ++ [op]) = applyOp contentHash (storedBy contentHash ops) op := by
  simp [storedBy]

theorem Agrees.store {rs : List Record} {ops : List Op} (h : Agrees contentHash rs ops)
    (call : Call) :
    Agrees contentHash ((rs.filter fun record => record.command.output ≠ call.command.output) ++
      [recordFor contentHash call]) (ops ++ [.store call]) := by
  intro output
  have hfilter := recordOf_filter rs (fun other => other ≠ call.command.output) output
  rw [storedBy_concat]
  unfold recordOf at hfilter ⊢
  rw [List.find?_append, hfilter]
  by_cases heq : output = call.command.output
  · rw [if_neg (not_not.mpr heq), heq]
    simp [applyOp, recordFor]
  · have hsame := h output
    unfold recordOf at hsame
    rw [if_pos heq, hsame]
    simp [applyOp, Function.update_of_ne heq, recordFor, Ne.symm heq]

theorem Agrees.forget {rs : List Record} {ops : List Op} (h : Agrees contentHash rs ops)
    (outputs : List Path) :
    Agrees contentHash (rs.filter fun record => record.command.output ∉ outputs)
      (ops ++ [.forget outputs]) := by
  intro output
  rw [storedBy_concat, recordOf_filter rs (fun other => other ∉ outputs), h output]
  by_cases hmem : output ∈ outputs
  · simp [applyOp, hmem]
  · simp [applyOp, hmem]

theorem Agrees.idle {rs : List Record} {ops : List Op} (h : Agrees contentHash rs ops) {op : Op}
    (hop : ∀ stored, applyOp contentHash stored op = stored) :
    Agrees contentHash rs (ops ++ [op]) := by
  intro output
  rw [storedBy_concat, hop]
  exact h output

/-! ### Runs -/

/-- The operations called, in order. -/
def noteOp (_ : State) : Event → List Op → List Op
  | .call op, ops => ops ++ [op]
  | _, ops => ops

/-- The tables hold what the operations whose transactions are over have left, and the files what
has been stored. -/
structure Refines (contentHash : Bytes → Hash) (s : State × List Op) : Prop where
  tables : ∃ before rs, s.2 = before ++ s.1.phase.pending.toList ∧ Tables s.1.db rs ∧
    Agrees contentHash rs before
  texted : ∀ op, s.1.phase.pending = some op → op.Texted
  files : ∀ name bytes, s.1.objects name = some bytes →
    ∃ call, Op.store call ∈ s.2 ∧ call.bytes = bytes

theorem pending_toDrop (hashes : List Text) : (toDrop hashes).pending = none := by
  unfold toDrop
  split <;> rfl

theorem pending_toRemove (names : List Text) : (toRemove names).pending = none := by
  unfold toRemove
  split <;> rfl

variable {s : State × List Op} {e : Event} {s' : State}

/-- A transaction leaves every other output's record, as all else that is done leaves all. -/
theorem Refines.others (h : Refines contentHash s) (hs : Stepped contentHash s.1 e s')
    {output : Path} (hnot : ∀ op, s.1.phase.pending = some op → ¬op.Concerns output) :
    recordOf (records s'.db) output = recordOf (records s.1.db) output := by
  obtain ⟨_, rs, _, htables, _⟩ := h.tables
  cases hs with
  | call op =>
    cases op with
    | forget outputs =>
      unfold State.begin
      dsimp only
      split <;> rfl
    | _ => rfl
  | write ok left => rfl
  | rename ok removed => cases ok <;> rfl
  | @store call ok hin =>
    cases ok with
    | false => rfl
    | true =>
      have hpending : s.1.phase.pending = some (.store call) := by rw [hin]; rfl
      have hne : output ≠ call.command.output := hnot _ hpending
      have hfilter := recordOf_filter rs (fun other => other ≠ call.command.output) output
      show recordOf (records (storeRows contentHash s.1.db call)) output = _
      rw [(htables.store (h.texted _ hpending)).records, htables.records]
      unfold recordOf at hfilter ⊢
      rw [List.find?_append, hfilter, if_pos hne]
      simp [recordFor, Ne.symm hne]
  | @forget outputs ok hin =>
    cases ok with
    | false => rfl
    | true =>
      have hpending : s.1.phase.pending = some (.forget outputs) := by rw [hin]; rfl
      have hmem : output ∉ outputs := hnot _ hpending
      show recordOf (records (forgetRows s.1.db outputs).2) output = _
      rw [(htables.forget (h.texted _ hpending)).records, htables.records,
        recordOf_filter rs (fun other => other ∉ outputs), if_pos hmem]
  | drop ok removed => cases ok <;> rfl
  | list => rfl
  | remove => rfl

theorem update_none {objects : Text → Option Bytes} {name other : Text} {bytes : Bytes}
    (h : Function.update objects name none other = some bytes) : objects other = some bytes := by
  by_cases heq : other = name
  · rw [heq, Function.update_self] at h
    simp at h
  · rwa [Function.update_of_ne heq] at h

theorem Refines.begin (h : Refines contentHash s) (hidle : s.1.phase = .idle) {op : Op}
    (htexted : op.Texted) : Refines contentHash (s.1.begin op, s.2 ++ [op]) := by
  obtain ⟨before, rs, hops, htables, hagrees⟩ := h.tables
  have hbefore : before = s.2 := by
    rw [hops, hidle]
    simp [Phase.pending]
  subst hbefore
  have hfiles : ∀ name bytes, s.1.objects name = some bytes →
      ∃ call, Op.store call ∈ s.2 ++ [op] ∧ call.bytes = bytes := by
    intro name bytes hname
    obtain ⟨call, hcall, hbytes⟩ := h.files name bytes hname
    exact ⟨call, List.mem_append_left _ hcall, hbytes⟩
  cases op with
  | store call =>
    exact ⟨⟨s.2, rs, rfl, htables, hagrees⟩, fun _ heq => Option.some.inj heq ▸ htexted, hfiles⟩
  | forget outputs =>
    by_cases hnil : outputs = []
    · have hsame : s.1.begin (.forget outputs) = s.1 := if_pos hnil
      have hidleOp : ∀ stored, applyOp contentHash stored (.forget outputs) = stored := by
        intro stored
        rw [hnil]
        funext output
        simp [applyOp]
      rw [hsame]
      refine ⟨⟨s.2 ++ [.forget outputs], rs, ?_, htables, hagrees.idle hidleOp⟩, h.texted, hfiles⟩
      rw [hidle]
      simp [Phase.pending]
    · have hbegin : s.1.begin (.forget outputs) = { s.1 with phase := .forgetting outputs } :=
        if_neg hnil
      rw [hbegin]
      exact ⟨⟨s.2, rs, rfl, htables, hagrees⟩, fun _ heq => Option.some.inj heq ▸ htexted, hfiles⟩
  | collectGarbage =>
    refine ⟨⟨s.2 ++ [.collectGarbage], rs, ?_, htables, hagrees.idle fun _ => rfl⟩, ?_, hfiles⟩
    · exact (List.append_nil _).symm
    · intro op hop
      simp [State.begin, Phase.pending] at hop
  | reopen =>
    refine ⟨⟨s.2 ++ [.reopen], rs, ?_, htables, hagrees.idle fun _ => rfl⟩, h.texted, hfiles⟩
    show _ = _ ++ s.1.phase.pending.toList
    rw [hidle]
    exact (List.append_nil _).symm

theorem Refines.step (h : Refines contentHash s) (hs : Stepped contentHash s.1 e s')
    (hok : Succeeds s.1 e) : Refines contentHash (s', noteOp s.1 e s.2) := by
  obtain ⟨before, rs, hops, htables, hagrees⟩ := h.tables
  have htexted := h.texted
  cases hs with
  | call op hin hop => exact h.begin hin hop
  | @write call ok left hin =>
    obtain rfl : ok = true := hok
    rw [hin] at hops htexted
    refine ⟨⟨before, rs, hops, htables, hagrees⟩, htexted, fun name bytes hname => ?_⟩
    have hname : Function.update s.1.objects _ (some call.bytes) name = some bytes := hname
    by_cases heq : name = scratchName (contentHash call.bytes) (s.1.nextScratch + 1)
    · rw [heq, Function.update_self] at hname
      refine ⟨call, ?_, Option.some.inj hname⟩
      show Op.store call ∈ s.2
      rw [hops]
      simp [Phase.pending]
    · rw [Function.update_of_ne heq] at hname
      exact h.files name bytes hname
  | @rename call scratch ok removed hin =>
    obtain rfl : ok = true := hok
    rw [hin] at hops htexted
    refine ⟨⟨before, rs, hops, htables, hagrees⟩, htexted, fun name bytes hname => ?_⟩
    have hname : Function.update (Function.update s.1.objects scratch none)
      (contentHash call.bytes) (s.1.objects scratch) name = some bytes := hname
    by_cases heq : name = contentHash call.bytes
    · rw [heq, Function.update_self] at hname
      exact h.files scratch bytes hname
    · rw [Function.update_of_ne heq] at hname
      exact h.files name bytes (update_none hname)
  | @store call ok hin =>
    obtain rfl : ok = true := hok
    rw [hin] at hops htexted
    have hpending : (s.1.store contentHash call true).phase.pending = none := by
      unfold State.store
      dsimp only
      rw [if_pos rfl]
      dsimp only
      split
      · split <;> rfl
      · rfl
    refine ⟨⟨s.2, _, ?_, htables.store (htexted _ rfl), ?_⟩, ?_, h.files⟩
    · show s.2 = s.2 ++ _
      rw [hpending]
      simp
    · rw [hops]
      exact hagrees.store call
    · intro op hop
      rw [hpending] at hop
      simp at hop
  | @forget outputs ok hin =>
    obtain rfl : ok = true := hok
    rw [hin] at hops htexted
    have hpending : (s.1.forget outputs true).phase.pending = none := pending_toDrop _
    refine ⟨⟨s.2, _, ?_, htables.forget (htexted _ rfl), ?_⟩, ?_, h.files⟩
    · show s.2 = s.2 ++ _
      rw [hpending]
      simp
    · rw [hops]
      exact hagrees.forget outputs
    · intro op hop
      rw [hpending] at hop
      simp at hop
  | @drop hashes hash ok removed hin =>
    obtain ⟨rfl, rfl⟩ : ok = true ∧ removed = true := hok
    rw [hin] at hops
    have hpending : (s.1.drop hashes hash true true).phase.pending = none := pending_toDrop _
    refine ⟨⟨before, rs, ?_, htables, hagrees⟩, ?_, fun name bytes hname => ?_⟩
    · rw [hpending]
      exact hops
    · intro op hop
      rw [hpending] at hop
      simp at hop
    · have hname : (if s.1.db.references hash = false ∧ true = true then
        Function.update s.1.objects hash none else s.1.objects) name = some bytes := hname
      split at hname
      · exact h.files name bytes (update_none hname)
      · exact h.files name bytes hname
  | @list names ok hin =>
    obtain ⟨rfl, _⟩ : ok = true ∧ _ := hok
    rw [hin] at hops
    refine ⟨⟨before, rs, ?_, htables, hagrees⟩, ?_, h.files⟩
    · show _ = _ ++ (toRemove names).pending.toList
      rw [pending_toRemove]
      exact hops
    · intro op hop
      have hop : (toRemove names).pending = some op := hop
      rw [pending_toRemove] at hop
      simp at hop
  | @remove names name removed hin =>
    obtain rfl : removed = true := hok
    rw [hin] at hops
    refine ⟨⟨before, rs, ?_, htables, hagrees⟩, ?_, fun other bytes hother => ?_⟩
    · show _ = _ ++ (toRemove (names.erase name)).pending.toList
      rw [pending_toRemove]
      exact hops
    · intro op hop
      have hop : (toRemove (names.erase name)).pending = some op := hop
      rw [pending_toRemove] at hop
      simp at hop
    · exact h.files other bytes (update_none hother)

/-- The cache with the operations called. -/
def historied (contentHash : Bytes → Hash) : Machine (State × List Op) Event :=
  (machine contentHash).noting (fun _ => []) noteOp

theorem refines {ok : State × List Op → Event → Prop} (hok : ∀ s e, ok s e → Succeeds s.1 e)
    (h : (historied contentHash).Reachable ok s) : Refines contentHash s := by
  refine h.invariant (P := Refines contentHash) (fun s hs => ?_) fun s e hk he hs =>
    hk.step (State.stepped contentHash he) (hok s e hs)
  obtain ⟨hinit, hblank⟩ := hs
  have hinit : s.1 = {} := hinit
  have hrs : Tables ({} : Database) [] := ⟨rfl, .nil, by simp, by simp, by simp⟩
  refine ⟨⟨[], [], ?_, hinit ▸ hrs, fun _ => rfl⟩, ?_, ?_⟩
  · rw [hblank, hinit]
    rfl
  · rw [hinit]
    simp [Phase.pending]
  · rw [hinit]
    simp

/-- What is stored is of a call of the history. -/
theorem storedBy_call {ops : List Op} {output : Path} {record : Record} {bytes : Bytes}
    (h : storedBy contentHash ops output = some (record, bytes)) :
    ∃ call, Op.store call ∈ ops ∧ record = recordFor contentHash call ∧ bytes = call.bytes := by
  induction ops using List.reverseRecOn with
  | nil => simp [storedBy] at h
  | append_singleton ops op ih =>
    rw [storedBy_concat] at h
    have hold : storedBy contentHash ops output = some (record, bytes) →
        ∃ call, Op.store call ∈ ops ++ [op] ∧ record = recordFor contentHash call ∧
          bytes = call.bytes := by
      intro h
      obtain ⟨call, hcall, hsame⟩ := ih h
      exact ⟨call, List.mem_append_left _ hcall, hsame⟩
    cases op with
    | store call =>
      by_cases heq : output = call.command.output
      · simp only [applyOp, heq, Function.update_self, Option.some.injEq, Prod.mk.injEq] at h
        exact ⟨call, by simp, h.1.symm, h.2.symm⟩
      · simp only [applyOp, Function.update_of_ne heq] at h
        exact hold h
    | forget outputs =>
      simp only [applyOp] at h
      split at h
      · simp at h
      · exact hold h
    | collectGarbage => exact hold h
    | reopen => exact hold h

/-- No two contents that have been stored share their hash. -/
def NoCollision (contentHash : Bytes → Hash) (ops : List Op) : Prop :=
  ∀ call other, Op.store call ∈ ops → Op.store other ∈ ops →
    contentHash call.bytes = contentHash other.bytes → call.bytes = other.bytes

/-- Over operations that succeed, the records are the map from each output to its last store that
no forget of it follows, reading a record's hash gives what was stored, and no step changes the
record of an output that the operation under way is not about. -/
theorem records_refine (hhash : ∀ bytes, isHash (contentHash bytes) = true)
    (h : (historied contentHash).Reachable (fun s => Succeeds s.1) s) :
    (s.1.phase = .idle →
      ((records s.1.db).map fun record => record.command.output).Nodup ∧
      (∀ output, recordOf (records s.1.db) output =
        (storedBy contentHash s.2 output).map Prod.fst) ∧
      (NoCollision contentHash s.2 → ∀ output record bytes,
        storedBy contentHash s.2 output = some (record, bytes) →
        Tree.Cache.read contentHash { objects := s.1.objects } record.hash = some bytes)) ∧
    ∀ e, (historied contentHash).enabled s e → ∀ output,
      (∀ op, s.1.phase.pending = some op → ¬op.Concerns output) →
      recordOf (records ((historied contentHash).step s e).1.db) output =
        recordOf (records s.1.db) output := by
  have hrefines := refines (fun _ _ hok => hok) h
  refine ⟨fun hidle => ?_, fun e he output hnot =>
    hrefines.others (State.stepped contentHash he) hnot⟩
  obtain ⟨before, rs, hops, htables, hagrees⟩ := hrefines.tables
  obtain rfl : before = s.2 := by
    rw [hops, hidle]
    simp [Phase.pending]
  rw [htables.records]
  refine ⟨htables.nodup, hagrees, fun hfree output record bytes hstored => ?_⟩
  obtain ⟨call, hcall, rfl, rfl⟩ := storedBy_call hstored
  have hrecord : recordOf rs output = some (recordFor contentHash call) := by
    rw [hagrees output, hstored]
    rfl
  have hrow : s.1.db.references (contentHash call.bytes) = true := by
    refine references_iff.mpr ⟨rowOf (recordFor contentHash call), ?_, rfl⟩
    rw [htables.outputs]
    exact List.mem_map_of_mem (Tree.recordOf_mem hrecord)
  have hkept : Kept contentHash s.1 := kept hhash (h.without_note fun _ _ hok => hok)
  obtain ⟨found, hfound, hsame⟩ := hkept.rows _ hrow
  obtain ⟨other, hother, rfl⟩ := hrefines.files _ _ hfound
  have hbytes := hfree other call hother hcall hsame
  unfold Tree.Cache.read
  simp only [recordFor, hhash, hfound, hbytes, if_true]

theorem records_refine_sharing :
    recordOf (records ((historied hashOfEmpty).runs ({}, []) sharing).1.db) [['a']] = none ∧
    Tree.Cache.read hashOfEmpty
      { objects := ((historied hashOfEmpty).runs ({}, []) sharing).1.objects }
      (hashOfEmpty []) = some [] := by
  have hreach : (historied hashOfEmpty).Reachable (fun s => Succeeds s.1)
      ((historied hashOfEmpty).runs ({}, []) sharing) := by
    refine Machine.Reachable.runs (.start ⟨rfl, rfl⟩) ?_
    refine ⟨⟨rfl, texted_shared 'a' (by decide)⟩, trivial, ⟨_, rfl⟩, rfl, ⟨_, _, rfl⟩, rfl,
      .inl ⟨_, rfl⟩, rfl, ⟨rfl, texted_shared 'b' (by decide)⟩, trivial, ⟨_, rfl⟩, rfl,
      ⟨_, _, rfl⟩, rfl, .inl ⟨_, rfl⟩, rfl, ⟨rfl, ?_⟩, trivial, .inr ⟨_, rfl⟩, rfl,
      ⟨_, rfl, List.mem_singleton_self _⟩, ⟨rfl, rfl⟩, trivial⟩
    intro output houtput
    rw [List.mem_singleton.mp houtput]
    exact texted_singleton 'a' (by decide)
  obtain ⟨hrecords, _⟩ := records_refine isHash_hashOfEmpty hreach
  obtain ⟨_, hmap, hread⟩ := hrecords rfl
  refine ⟨(hmap _).trans rfl, hread ?_ [['b']] _ _ rfl⟩
  intro call other hcall hother _
  have hbytes : ∀ call, Op.store call ∈
      [Op.store (shared 'a'), .store (shared 'b'), .forget [[['a']]]] → call.bytes = [] := by
    intro call hcall
    simp only [List.mem_cons, Op.store.injEq, reduceCtorEq, List.not_mem_nil, or_false] at hcall
    obtain rfl | rfl := hcall <;> rfl
  rw [hbytes call hcall, hbytes other hother]

end MakeBelieve.BuildCache
