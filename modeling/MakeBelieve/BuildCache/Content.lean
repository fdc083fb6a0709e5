import MakeBelieve.BuildCache.State

namespace MakeBelieve.BuildCache

open Library
open MakeBelieve.Tree (Bytes Hash isHash)

variable {contentHash : Bytes → Hash}

/-! ### What the transactions leave -/

theorem foldl_ignoreInput_outputs (db : Database) (output : Text) (inputs : List Tree.Input) :
    (inputs.foldl (fun db input => db.ignoreInput output input) db).outputs = db.outputs := by
  induction inputs generalizing db with
  | nil => rfl
  | cons input inputs ih =>
    rw [List.foldl_cons, ih]
    unfold Database.ignoreInput
    split <;> rfl

theorem storeRows_outputs (db : Database) (call : Call) :
    (storeRows contentHash db call).outputs =
      (db.outputs.filter fun row => row.path ≠ toText call.command.output) ++
        [outputRow contentHash call] := by
  unfold storeRows
  rw [foldl_ignoreInput_outputs]
  rfl

/-- One row for each path, as the primary key has it. -/
def Keyed (db : Database) : Prop := (db.outputs.map OutputRow.path).Nodup

theorem Keyed.store {db : Database} (h : Keyed db) (call : Call) :
    Keyed (storeRows contentHash db call) := by
  unfold Keyed
  rw [storeRows_outputs, List.map_append, List.nodup_append]
  refine ⟨h.sublist (List.filter_sublist.map _), by simp, ?_⟩
  rintro path hmem _ hlast rfl
  obtain ⟨row, hrow, rfl⟩ := List.mem_map.mp hmem
  have hne := (List.mem_filter.mp hrow).2
  rw [List.map_singleton, List.mem_singleton] at hlast
  simp [hlast, outputRow] at hne

theorem selectHash_row {db : Database} (h : Keyed db) {row : OutputRow} (hrow : row ∈ db.outputs) :
    db.selectHash row.path = some row.hash := by
  unfold Database.selectHash
  cases hfind : db.outputs.find? fun other => other.path = row.path with
  | none =>
    have hnone := List.find?_eq_none.mp hfind row hrow
    simp at hnone
  | some other =>
    have heq : other.path = row.path := by simpa using List.find?_some hfind
    rw [List.inj_on_of_nodup_map h (List.mem_of_find?_eq_some hfind) hrow heq]
    rfl

/-- What `forget` leaves has its key still, is some of what there was, and all but what has been
dropped. -/
theorem forgetRows_spec {db : Database} (h : Keyed db) (outputs : List Path) :
    Keyed (forgetRows db outputs).2 ∧
    (∀ row ∈ (forgetRows db outputs).2.outputs, row ∈ db.outputs) ∧
    ∀ row ∈ db.outputs, row ∈ (forgetRows db outputs).2.outputs ∨
      row.hash ∈ (forgetRows db outputs).1 := by
  unfold forgetRows
  suffices hfold : ∀ (paths : List Text) (s : List Text × Database), Keyed s.2 →
      (∀ row ∈ s.2.outputs, row ∈ db.outputs) →
      (∀ row ∈ db.outputs, row ∈ s.2.outputs ∨ row.hash ∈ s.1) →
      Keyed (paths.foldl forgetRow s).2 ∧
      (∀ row ∈ (paths.foldl forgetRow s).2.outputs, row ∈ db.outputs) ∧
      ∀ row ∈ db.outputs, row ∈ (paths.foldl forgetRow s).2.outputs ∨
        row.hash ∈ (paths.foldl forgetRow s).1 from
    hfold _ ([], db) h (fun _ hrow => hrow) fun _ hrow => .inl hrow
  intro paths
  induction paths with
  | nil => exact fun s hkeyed hsub hall => ⟨hkeyed, hsub, hall⟩
  | cons path paths ih =>
    intro s hkeyed hsub hall
    rw [List.foldl_cons]
    cases hfind : s.2.selectHash path with
    | none =>
      have hskip : forgetRow s path = s := by
        unfold forgetRow
        rw [hfind]
      rw [hskip]
      exact ih s hkeyed hsub hall
    | some hash =>
      have hdrop : forgetRow s path =
          (s.1.insert hash, (s.2.deleteInputs path).deleteOutput path) := by
        unfold forgetRow
        rw [hfind]
      have hmem : ∀ row, row ∈ ((s.2.deleteInputs path).deleteOutput path).outputs ↔
          row ∈ s.2.outputs ∧ row.path ≠ path := by
        intro row
        show row ∈ s.2.outputs.filter (fun row => decide (row.path ≠ path)) ↔ _
        simp
      rw [hdrop]
      refine ih _ ?_ (fun row hrow => hsub row ((hmem row).mp hrow).1) fun row hrow => ?_
      · exact hkeyed.sublist (List.filter_sublist.map _)
      · obtain hkept | hdropped := hall row hrow
        · by_cases heq : row.path = path
          · have hhash := selectHash_row hkeyed hkept
            rw [heq, hfind] at hhash
            exact .inr (List.mem_insert_iff.mpr (.inl (Option.some.inj hhash).symm))
          · exact .inl ((hmem row).mpr ⟨hkept, heq⟩)
        · exact .inr (List.mem_insert_of_mem hdropped)

/-! ### Recorded content stays -/

/-- Whether there is content of a hash under its name. -/
def Present (contentHash : Bytes → Hash) (objects : Text → Option Bytes) (hash : Text) : Prop :=
  ∃ bytes, objects hash = some bytes ∧ contentHash bytes = hash

theorem references_iff {db : Database} {hash : Text} :
    db.references hash = true ↔ ∃ row ∈ db.outputs, row.hash = hash := by
  simp [Database.references]

/-- A scratch file's name is no hash. -/
theorem scratchName_ne (hhash : ∀ bytes, isHash (contentHash bytes) = true) (bytes : Bytes)
    (number : Nat) (other : Bytes) :
    contentHash other ≠ scratchName (contentHash bytes) number := by
  have hlength : ∀ bytes, (contentHash bytes).length = 32 := by
    intro bytes
    have hbytes := hhash bytes
    unfold isHash at hbytes
    exact of_decide_eq_true (Bool.and_eq_true_iff.mp hbytes).1
  intro heq
  have hlengths := congrArg List.length heq
  simp [scratchName, hlength] at hlengths

/-- What a phase says of the files. -/
def PhaseKept (contentHash : Bytes → Hash) (s : State) : Prop :=
  match s.phase with
  | .renaming call scratch => (∃ number, scratch = scratchName (contentHash call.bytes) number) ∧
      s.objects scratch = some call.bytes
  | .storing call => Present contentHash s.objects (contentHash call.bytes)
  | .removing names => ∀ name ∈ names, s.db.references name = false
  | _ => True

structure Kept (contentHash : Bytes → Hash) (s : State) : Prop where
  keyed : Keyed s.db
  rows : ∀ hash, s.db.references hash = true → Present contentHash s.objects hash
  phase : PhaseKept contentHash s

variable {s s' : State} {e : Event}

theorem Present.of_ne {objects : Text → Option Bytes} {hash name : Text}
    (h : Present contentHash objects hash) (hne : hash ≠ name) (content : Option Bytes) :
    Present contentHash (Function.update objects name content) hash := by
  obtain ⟨bytes, hbytes, heq⟩ := h
  exact ⟨bytes, by rw [Function.update_of_ne hne, hbytes], heq⟩

/-- No step deletes the content of a hash that a record names. -/
theorem Kept.present (h : Kept contentHash s) (hhash : ∀ bytes, isHash (contentHash bytes) = true)
    (hs : Stepped contentHash s e s') {hash : Text} (href : s.db.references hash = true) :
    Present contentHash s'.objects hash := by
  have hpresent := h.rows hash href
  have hscratch : ∀ bytes number, hash ≠ scratchName (contentHash bytes) number := by
    intro bytes number
    obtain ⟨other, _, rfl⟩ := hpresent
    exact scratchName_ne hhash bytes number other
  have hphase := h.phase
  unfold PhaseKept at hphase
  cases hs with
  | call op =>
    cases op with
    | forget outputs =>
      show Present contentHash (if outputs = [] then s else _).objects hash
      split <;> exact hpresent
    | _ => exact hpresent
  | write ok left => exact hpresent.of_ne (hscratch _ _) _
  | rename ok removed hin =>
    rw [hin] at hphase
    obtain ⟨⟨number, rfl⟩, hcontent⟩ := hphase
    cases ok with
    | true =>
      by_cases heq : hash = contentHash ‹Call›.bytes
      · subst heq
        exact ⟨_, (Function.update_self ..).trans hcontent, rfl⟩
      · exact (hpresent.of_ne (hscratch _ _) none).of_ne heq _
    | false =>
      cases removed with
      | true => exact hpresent.of_ne (hscratch _ _) _
      | false => exact hpresent
  | store ok => cases ok <;> exact hpresent
  | forget ok => cases ok <;> exact hpresent
  | @drop hashes name ok removed =>
    cases ok with
    | false => exact hpresent
    | true =>
      show Present contentHash (if s.db.references name = false ∧ removed = true then _
        else s.objects) hash
      split
      · next hremoved =>
        refine hpresent.of_ne (fun heq => ?_) _
        rw [heq, hremoved.1] at href
        simp at href
      · exact hpresent
  | list => exact hpresent
  | @remove names name removed hin hmem =>
    rw [hin] at hphase
    cases removed with
    | false => exact hpresent
    | true =>
      refine hpresent.of_ne (fun heq => ?_) _
      rw [heq, hphase name hmem] at href
      simp at href

theorem phaseKept_toDrop {hashes : List Text} (h : s.phase = toDrop hashes) :
    PhaseKept contentHash s := by
  unfold PhaseKept
  rw [h, toDrop]
  by_cases hnil : hashes = []
  · rw [if_pos hnil]
    trivial
  · rw [if_neg hnil]
    trivial

theorem phaseKept_toRemove {names : List Text} (h : s.phase = toRemove names)
    (hnames : ∀ name ∈ names, s.db.references name = false) : PhaseKept contentHash s := by
  unfold PhaseKept
  rw [h, toRemove]
  by_cases hnil : names = []
  · rw [if_pos hnil]
    trivial
  · rw [if_neg hnil]
    exact hnames

theorem references_storeRows {call : Call} {hash : Text}
    (h : (storeRows contentHash s.db call).references hash = true) :
    s.db.references hash = true ∨ hash = contentHash call.bytes := by
  obtain ⟨row, hrow, rfl⟩ := references_iff.mp h
  rw [storeRows_outputs, List.mem_append, List.mem_singleton] at hrow
  obtain hrow | rfl := hrow
  · exact .inl (references_iff.mpr ⟨row, (List.mem_filter.mp hrow).1, rfl⟩)
  · exact .inr rfl

theorem Kept.step (h : Kept contentHash s) (hhash : ∀ bytes, isHash (contentHash bytes) = true)
    (hs : Stepped contentHash s e s') : Kept contentHash s' := by
  have hkept : s'.db = s.db → ∀ hash, s'.db.references hash = true →
      Present contentHash s'.objects hash := by
    intro hdb hash href
    exact h.present hhash hs (hdb ▸ href)
  have hphase := h.phase
  cases hs with
  | call op hin =>
    cases op with
    | forget outputs =>
      by_cases hnil : outputs = []
      · have hsame : s.begin (.forget outputs) = s := if_pos hnil
        rw [hsame]
        exact h
      · have hbegin : s.begin (.forget outputs) = { s with phase := .forgetting outputs } :=
          if_neg hnil
        rw [hbegin]
        exact ⟨h.keyed, h.rows, trivial⟩
    | reopen => exact ⟨h.keyed, h.rows, h.phase⟩
    | store call => exact ⟨h.keyed, h.rows, trivial⟩
    | collectGarbage => exact ⟨h.keyed, h.rows, trivial⟩
  | write ok left =>
    refine ⟨h.keyed, hkept rfl, ?_⟩
    cases ok with
    | true => exact ⟨⟨_, rfl⟩, Function.update_self ..⟩
    | false => trivial
  | rename ok removed hin =>
    unfold PhaseKept at hphase
    rw [hin] at hphase
    cases ok with
    | true => exact ⟨h.keyed, hkept rfl, _, (Function.update_self ..).trans hphase.2, rfl⟩
    | false => exact ⟨h.keyed, hkept rfl, trivial⟩
  | @store call ok hin =>
    unfold PhaseKept at hphase
    rw [hin] at hphase
    cases ok with
    | false => exact ⟨h.keyed, h.rows, trivial⟩
    | true =>
      refine ⟨h.keyed.store call, fun hash href => ?_, ?_⟩
      · obtain hold | rfl := references_storeRows href
        · exact h.rows hash hold
        · exact hphase
      · unfold PhaseKept State.store
        dsimp only
        rw [if_pos rfl]
        dsimp only
        cases s.db.selectHash (toText call.command.output) with
        | none => trivial
        | some previous =>
          by_cases heq : previous = contentHash call.bytes
          · simp [heq]
          · simp [heq]
  | @forget outputs ok =>
    cases ok with
    | false => exact ⟨h.keyed, h.rows, trivial⟩
    | true =>
      obtain ⟨hkeyed, hsub, _⟩ := forgetRows_spec h.keyed outputs
      refine ⟨hkeyed, fun hash href => ?_, phaseKept_toDrop rfl⟩
      obtain ⟨row, hrow, rfl⟩ := references_iff.mp href
      exact h.rows _ (references_iff.mpr ⟨row, hsub row hrow, rfl⟩)
  | @drop hashes hash ok removed =>
    cases ok with
    | false => exact ⟨h.keyed, hkept rfl, trivial⟩
    | true => exact ⟨h.keyed, hkept rfl, phaseKept_toDrop rfl⟩
  | list ok hin hnames =>
    cases ok with
    | false => exact ⟨h.keyed, h.rows, trivial⟩
    | true => exact ⟨h.keyed, h.rows, phaseKept_toRemove rfl fun name hname => (hnames name hname).2⟩
  | remove removed hin hmem =>
    unfold PhaseKept at hphase
    rw [hin] at hphase
    exact ⟨h.keyed, hkept rfl, phaseKept_toRemove rfl fun name hname =>
      hphase name (List.mem_of_mem_erase hname)⟩

/-! ### Nothing else is left -/

/-- What no record need name yet, or any more, in a phase. -/
def Spare (contentHash : Bytes → Hash) : Phase → Text → Prop
  | .renaming _ scratch, name => name = scratch
  | .storing call, name => name = contentHash call.bytes
  | .dropping hashes, name => name ∈ hashes
  | .removing names, name => name ∈ names
  | _, _ => False

structure Swept (contentHash : Bytes → Hash) (s : State) : Prop where
  keyed : Keyed s.db
  named : ∀ name, (s.objects name).isSome = true →
    s.db.references name = true ∨ Spare contentHash s.phase name

theorem spare_toDrop {hashes : List Text} {name : Text} (h : name ∈ hashes) :
    Spare contentHash (toDrop hashes) name := by
  unfold toDrop
  rw [if_neg (List.ne_nil_of_mem h)]
  exact h

theorem spare_toRemove {names : List Text} {name : Text} (h : name ∈ names) :
    Spare contentHash (toRemove names) name := by
  unfold toRemove
  rw [if_neg (List.ne_nil_of_mem h)]
  exact h

theorem Swept.begin (h : Swept contentHash s) (hidle : s.phase = .idle) (op : Op) :
    Swept contentHash (s.begin op) := by
  have hnamed : ∀ name, (s.objects name).isSome = true → s.db.references name = true := by
    intro name hname
    have hname := h.named name hname
    rw [hidle] at hname
    exact hname.resolve_right fun hspare => hspare
  cases op with
  | forget outputs =>
    by_cases hnil : outputs = []
    · have hsame : s.begin (.forget outputs) = s := if_pos hnil
      rw [hsame]
      exact h
    · have hbegin : s.begin (.forget outputs) = { s with phase := .forgetting outputs } :=
        if_neg hnil
      rw [hbegin]
      exact ⟨h.keyed, fun name hname => .inl (hnamed name hname)⟩
  | _ => exact ⟨h.keyed, fun name hname => .inl (hnamed name hname)⟩

theorem isSome_update {objects : Text → Option Bytes} {name other : Text}
    (h : (Function.update objects name none other).isSome = true) :
    other ≠ name ∧ (objects other).isSome = true := by
  by_cases heq : other = name
  · rw [heq, Function.update_self] at h
    simp at h
  · rw [Function.update_of_ne heq] at h
    exact ⟨heq, h⟩

/-- What the rows that stay, and the one that is new, name. -/
theorem references_stored (hkeyed : Keyed s.db) {call : Call} {hash : Text}
    (h : s.db.references hash = true) :
    (storeRows contentHash s.db call).references hash = true ∨
      s.db.selectHash (toText call.command.output) = some hash := by
  obtain ⟨row, hrow, rfl⟩ := references_iff.mp h
  by_cases heq : row.path = toText call.command.output
  · exact .inr (heq ▸ selectHash_row hkeyed hrow)
  · refine .inl (references_iff.mpr ⟨row, ?_, rfl⟩)
    rw [storeRows_outputs, List.mem_append]
    exact .inl (List.mem_filter.mpr ⟨hrow, by simpa using heq⟩)

theorem references_new (db : Database) (call : Call) :
    (storeRows contentHash db call).references (contentHash call.bytes) = true := by
  refine references_iff.mpr ⟨outputRow contentHash call, ?_, rfl⟩
  rw [storeRows_outputs]
  exact List.mem_append_right _ (List.mem_singleton_self _)

theorem Swept.step (h : Swept contentHash s) (hs : Stepped contentHash s e s')
    (hok : Succeeds s e) : Swept contentHash s' := by
  have hnamed := h.named
  cases hs with
  | call op hin => exact h.begin hin op
  | @write call ok left hin =>
    obtain rfl : ok = true := hok
    rw [hin] at hnamed
    refine ⟨h.keyed, fun name hname => ?_⟩
    by_cases heq : name = scratchName (contentHash call.bytes) (s.nextScratch + 1)
    · exact .inr heq
    · refine (hnamed name ?_).imp id False.elim
      have hname : (Function.update s.objects _ _ name).isSome = true := hname
      rwa [Function.update_of_ne heq] at hname
  | @rename call scratch ok removed hin =>
    obtain rfl : ok = true := hok
    rw [hin] at hnamed
    refine ⟨h.keyed, fun name hname => ?_⟩
    by_cases heq : name = contentHash call.bytes
    · exact .inr heq
    · have hname : (Function.update (Function.update s.objects scratch none)
        (contentHash call.bytes) (s.objects scratch) name).isSome = true := hname
      rw [Function.update_of_ne heq] at hname
      obtain ⟨hne, hname⟩ := isSome_update hname
      exact .inl ((hnamed name hname).resolve_right hne)
  | @store call ok hin =>
    obtain rfl : ok = true := hok
    rw [hin] at hnamed
    refine ⟨h.keyed.store call, fun name hname => ?_⟩
    obtain href | rfl := hnamed name hname
    · obtain hstays | hprevious : (storeRows contentHash s.db call).references name = true ∨
          s.db.selectHash (toText call.command.output) = some name :=
        references_stored h.keyed href
      · exact .inl hstays
      · by_cases heq : name = contentHash call.bytes
        · exact .inl (heq ▸ references_new s.db call)
        · refine .inr ?_
          unfold State.store
          rw [if_pos rfl, hprevious]
          dsimp only
          rw [if_neg heq]
          exact List.mem_singleton_self _
    · exact .inl (references_new s.db call)
  | @forget outputs ok hin =>
    obtain rfl : ok = true := hok
    rw [hin] at hnamed
    obtain ⟨hkeyed, _, hall⟩ := forgetRows_spec h.keyed outputs
    refine ⟨hkeyed, fun name hname => ?_⟩
    obtain ⟨row, hrow, rfl⟩ := references_iff.mp ((hnamed name hname).resolve_right fun h => h)
    obtain hstays | hdropped := hall row hrow
    · exact .inl (references_iff.mpr ⟨row, hstays, rfl⟩)
    · exact .inr (spare_toDrop hdropped)
  | @drop hashes hash ok removed hin hmem =>
    obtain ⟨rfl, rfl⟩ : ok = true ∧ removed = true := hok
    rw [hin] at hnamed
    refine ⟨h.keyed, fun name hname => ?_⟩
    show s.db.references name = true ∨ Spare contentHash (toDrop (hashes.erase hash)) name
    have hname : ((if s.db.references hash = false ∧ true = true then
      Function.update s.objects hash none else s.objects) name).isSome = true := hname
    by_cases hnot : s.db.references hash = false
    · rw [if_pos ⟨hnot, rfl⟩] at hname
      obtain ⟨hne, hname⟩ := isSome_update hname
      exact (hnamed name hname).imp id fun hin => spare_toDrop ((List.mem_erase_of_ne hne).mpr hin)
    · rw [if_neg (by simpa using hnot)] at hname
      by_cases heq : name = hash
      · exact .inl (heq ▸ by simpa using hnot)
      · exact (hnamed name hname).imp id fun hin => spare_toDrop ((List.mem_erase_of_ne heq).mpr hin)
  | @list names ok hin hnames =>
    obtain ⟨rfl, hall⟩ : ok = true ∧ _ := hok
    rw [hin] at hnamed
    refine ⟨h.keyed, fun name hname => ?_⟩
    exact .inl ((hnamed name hname).resolve_right fun h => h)
  | @remove names name' removed hin hmem =>
    obtain rfl : removed = true := hok
    rw [hin] at hnamed
    refine ⟨h.keyed, fun name hname => ?_⟩
    obtain ⟨hne, hname⟩ := isSome_update hname
    exact (hnamed name hname).imp id fun hin => spare_toRemove ((List.mem_erase_of_ne hne).mpr hin)

theorem kept (hhash : ∀ bytes, isHash (contentHash bytes) = true)
    {ok : State → Event → Prop} (h : (machine contentHash).Reachable ok s) : Kept contentHash s := by
  refine h.invariant (P := Kept contentHash) (fun s hs => ?_) fun s e hk he _ =>
    hk.step hhash (State.stepped contentHash he)
  rw [hs]
  exact ⟨by simp [Keyed], by simp [Database.references], trivial⟩

/-- Whatever fails, the content of every hash that a record names is there, and no step deletes it;
where nothing fails, there is no other file once an operation is over. -/
theorem content_kept (hhash : ∀ bytes, isHash (contentHash bytes) = true) :
    (∀ s, (machine contentHash).Reachable (fun _ _ => True) s →
      (∀ row ∈ s.db.outputs, ∃ bytes, s.objects row.hash = some bytes ∧
        contentHash bytes = row.hash) ∧
      ∀ e, (machine contentHash).enabled s e → ∀ row ∈ s.db.outputs,
        (((machine contentHash).step s e).objects row.hash).isSome = true) ∧
    ∀ s, (machine contentHash).Reachable Succeeds s → s.phase = .idle →
      ∀ name, (s.objects name).isSome = true → ∃ row ∈ s.db.outputs, row.hash = name := by
  refine ⟨fun s hs => ?_, fun s hs hidle name hname => ?_⟩
  · have hk := kept hhash hs
    refine ⟨fun row hrow => hk.rows _ (references_iff.mpr ⟨row, hrow, rfl⟩), fun e he row hrow => ?_⟩
    obtain ⟨bytes, hbytes, _⟩ := hk.present hhash (State.stepped contentHash he)
      (references_iff.mpr ⟨row, hrow, rfl⟩)
    exact Option.isSome_iff_exists.mpr ⟨bytes, hbytes⟩
  · have hswept : Swept contentHash s := by
      refine hs.invariant (P := Swept contentHash) (fun s hs => ?_) fun s e hk he hok =>
        hk.step (State.stepped contentHash he) hok
      rw [hs]
      exact ⟨by simp [Keyed], by simp⟩
    have hnamed := hswept.named name hname
    rw [hidle] at hnamed
    exact references_iff.mp (hnamed.resolve_right fun h => h)

def hashOfEmpty (_ : Bytes) : Hash := "99aa06d3014798d86001c324468d497f".toList

theorem isHash_hashOfEmpty (bytes : Bytes) : isHash (hashOfEmpty bytes) = true := by
  unfold hashOfEmpty
  decide +kernel

def shared (name : Char) : Call where
  command := { output := [[name]], action := .run, text := [] }
  bytes := []
  mtime := 1
  inputs := []

/-- Two outputs with equal bytes are stored, and the first is forgotten. -/
def sharing : List Event :=
  [.call (.store (shared 'a')), .write true none, .rename true true, .transact true,
    .call (.store (shared 'b')), .write true none, .rename true true, .transact true,
    .call (.forget [[['a']]]), .transact true, .drop (hashOfEmpty []) true true]

theorem texted_singleton (name : Char) (h : name ≠ '/') : Texted [[name]] := by
  intro part hpart
  rw [List.mem_singleton.mp hpart]
  simpa using fun heq => h heq.symm

theorem texted_shared (name : Char) (h : name ≠ '/') : (Op.store (shared name)).Texted :=
  ⟨texted_singleton name h, fun _ hinput => absurd hinput List.not_mem_nil⟩

theorem sharing_fires : (machine hashOfEmpty).Fires Succeeds {} sharing := by
  refine ⟨⟨rfl, texted_shared 'a' (by decide)⟩, trivial, ⟨_, rfl⟩, rfl, ⟨_, _, rfl⟩, rfl,
    .inl ⟨_, rfl⟩, rfl, ⟨rfl, texted_shared 'b' (by decide)⟩, trivial, ⟨_, rfl⟩, rfl, ⟨_, _, rfl⟩, rfl,
    .inl ⟨_, rfl⟩, rfl, ⟨rfl, ?_⟩, trivial, .inr ⟨_, rfl⟩, rfl,
    ⟨_, rfl, List.mem_singleton_self _⟩, ⟨rfl, rfl⟩, trivial⟩
  intro output houtput
  rw [List.mem_singleton.mp houtput]
  exact texted_singleton 'a' (by decide)

theorem content_kept_sharing :
    (((machine hashOfEmpty).runs {} sharing).objects (hashOfEmpty [])).isSome = true ∧
    ∀ name, (((machine hashOfEmpty).runs {} sharing).objects name).isSome = true →
      name = hashOfEmpty [] := by
  obtain ⟨hpresent, hnamed⟩ := content_kept isHash_hashOfEmpty
  have hreach : (machine hashOfEmpty).Reachable Succeeds ((machine hashOfEmpty).runs {} sharing) :=
    .runs (.start rfl) sharing_fires
  refine ⟨?_, fun name hname => ?_⟩
  · obtain ⟨bytes, hbytes, _⟩ := (hpresent _ (hreach.weaken fun _ _ _ => trivial)).1
      (outputRow hashOfEmpty (shared 'b')) (List.mem_singleton_self _)
    exact Option.isSome_iff_exists.mpr ⟨bytes, hbytes⟩
  · obtain ⟨row, hrow, rfl⟩ := hnamed _ hreach rfl name hname
    rw [List.mem_singleton.mp hrow]
    rfl

end MakeBelieve.BuildCache
