import MakeBelieve.Tracer.Rendering
import MakeBelieve.Tracer.Slices
import MakeBelieve.Library.FirstOf
import Mathlib.Data.List.Perm.Basic

namespace MakeBelieve.Tracer

open Library Library.Json

section Calls

def Call.recorded : Call → Option Event
  | record e => some e
  | _ => none

def Call.processNamed : Call → Option (UInt32 × ByteString)
  | nameProcess id name => if name = [] then none else some (id, name)
  | _ => none

def Call.rowNamed : Call → Option (TraceLane × ByteString)
  | nameRow row name => some (row, name)
  | _ => none

/-- The events recorded, oldest first. -/
def recorded (calls : List Call) : List Event := calls.filterMap Call.recorded

/-- The names processes were given, oldest first: the tracer names its own before any call. -/
def processesNamed (own : UInt32) (calls : List Call) : List (UInt32 × ByteString) :=
  (own, ascii "makebelieve") :: calls.filterMap Call.processNamed

/-- The names rows were given, newest first. -/
def rowsNamed (calls : List Call) : List (TraceLane × ByteString) :=
  (calls.filterMap Call.rowNamed).reverse

theorem recorded_concat (calls : List Call) (c : Call) :
    recorded (calls ++ [c]) = recorded calls ++ c.recorded.toList := by
  cases h : c.recorded <;> simp [recorded, h]

theorem processesNamed_concat (own : UInt32) (calls : List Call) (c : Call) :
    processesNamed own (calls ++ [c]) = processesNamed own calls ++ c.processNamed.toList := by
  cases h : c.processNamed <;> simp [processesNamed, h]

theorem rowsNamed_concat (calls : List Call) (c : Call) :
    rowsNamed (calls ++ [c]) = c.rowNamed.toList ++ rowsNamed calls := by
  cases h : c.rowNamed <;> simp [rowsNamed, h]

end Calls

section Runs

variable {own : UInt32} {capacity : Nat} {origin : Int} {calls : List Call} {s : State}

def namedProcess (entry : UInt32 × ByteString) : UInt32 × ByteString :=
  (entry.1, processName entry.1 entry.2)

def namedRow (entry : TraceLane × ByteString) : TraceLane × ByteString := (entry.1, rowName entry.1 entry.2)

/-- What a tracer holds of the calls made of it. -/
structure Noted (own : UInt32) (origin : Int) (calls : List Call) (s : State) : Prop where
  begun : s.origin = origin
  processes : ∃ names, s.processNames = names.map namedProcess ∧
    FirstOf (processesNamed own calls) names
  rows : ∃ names, s.rowNames = names.map namedRow ∧ FirstOf (rowsNamed calls) names
  events : ∃ groups, Held s.slices ((recorded calls).map (Event.render origin)) groups

theorem keys_namedProcess (names : List (UInt32 × ByteString)) :
    (names.map namedProcess).map Prod.fst = names.map Prod.fst := by
  rw [List.map_map]
  rfl

theorem Noted.make : Noted own origin [] (State.make own capacity origin) := by
  have hname : ascii "makebelieve" ≠ [] := by decide
  refine ⟨by simp [State.make, State.nameProcess, hname], ⟨[(own, ascii "makebelieve")], ?_, ?_⟩,
    ⟨[], ?_, .nil⟩, ⟨[], ?_, ?_, ?_⟩⟩
  · simp [State.make, State.nameProcess, hname, namedProcess]
  · exact FirstOf.nil.fresh (by simp)
  all_goals simp [State.make, State.nameProcess, hname, recorded]

theorem Noted.record (h : Noted own origin calls s) (e : Event) :
    Noted own origin (calls ++ [.record e]) (s.record (e.render origin)) := by
  obtain ⟨groups, hgroups⟩ := h.events
  have hprocesses : processesNamed own (calls ++ [.record e]) = processesNamed own calls := by
    simp [processesNamed_concat, Call.processNamed]
  have hrows : rowsNamed (calls ++ [.record e]) = rowsNamed calls := by
    simp [rowsNamed_concat, Call.rowNamed]
  have hevents : recorded (calls ++ [.record e]) = recorded calls ++ [e] := recorded_concat ..
  refine ⟨h.begun, hprocesses ▸ h.processes, hrows ▸ h.rows, ?_⟩
  rw [hevents, List.map_append]
  exact hgroups.record (e.render origin)

theorem Noted.nameProcess (h : Noted own origin calls s) (id : UInt32) (name : ByteString) :
    Noted own origin (calls ++ [.nameProcess id name]) (s.nameProcess id name) := by
  obtain ⟨names, hnames, hfirst⟩ := h.processes
  have hgiven := processesNamed_concat own calls (.nameProcess id name)
  have hrows : rowsNamed (calls ++ [.nameProcess id name]) = rowsNamed calls :=
    rowsNamed_concat ..
  have hevents : recorded (calls ++ [.nameProcess id name]) = recorded calls := by
    simp [recorded_concat, Call.recorded]
  have hkeys : s.processNames.map Prod.fst = names.map Prod.fst := by
    rw [hnames, keys_namedProcess]
  unfold State.nameProcess
  by_cases hempty : name = []
  · rw [if_pos (.inl hempty)]
    simp only [Call.processNamed, if_pos hempty, Option.toList_none, List.append_nil] at hgiven
    exact ⟨h.begun, ⟨names, hnames, hgiven ▸ hfirst⟩, hrows ▸ h.rows, hevents ▸ h.events⟩
  simp only [Call.processNamed, if_neg hempty, Option.toList_some] at hgiven
  by_cases hkey : id ∈ names.map Prod.fst
  · rw [if_pos (.inr (hkeys ▸ hkey))]
    exact ⟨h.begun, ⟨names, hnames, hgiven ▸ hfirst.again hkey⟩, hrows ▸ h.rows, hevents ▸ h.events⟩
  · rw [if_neg (by rw [hkeys, not_or]; exact ⟨hempty, hkey⟩)]
    refine ⟨h.begun, ⟨names ++ [(id, name)], ?_, hgiven ▸ hfirst.fresh hkey⟩, hrows ▸ h.rows,
      hevents ▸ h.events⟩
    rw [hnames, List.map_append]
    rfl

theorem Noted.nameRow (h : Noted own origin calls s) (row : TraceLane) (name : ByteString) :
    Noted own origin (calls ++ [.nameRow row name]) (s.nameRow row name) := by
  obtain ⟨names, hnames, hfirst⟩ := h.rows
  have hprocesses : processesNamed own (calls ++ [.nameRow row name]) = processesNamed own calls := by
    simp [processesNamed_concat, Call.processNamed]
  have hgiven : rowsNamed (calls ++ [.nameRow row name]) = (row, name) :: rowsNamed calls :=
    rowsNamed_concat ..
  have hevents : recorded (calls ++ [.nameRow row name]) = recorded calls := by
    simp [recorded_concat, Call.recorded]
  refine ⟨h.begun, hprocesses ▸ h.processes, ⟨_, ?_, hgiven ▸ hfirst.ahead (row, name)⟩,
    hevents ▸ h.events⟩
  show s.rowNames.filter _ ++ _ = _
  rw [hnames, List.filter_map, List.map_append]
  rfl

theorem Noted.call (h : Noted own origin calls s) (c : Call) :
    Noted own origin (calls ++ [c]) (s.call c) := by
  cases c with
  | record e =>
    rw [State.call, h.begun]
    exact h.record e
  | nameProcess id name => exact h.nameProcess id name
  | nameRow row name => exact h.nameRow row name

/-- A tracer has noted the calls made of it, in whatever order they came. -/
theorem Noted.after (own : UInt32) (capacity : Nat) (origin : Int) (calls : List Call) :
    Noted own origin calls (.after own capacity origin calls) := by
  induction calls using List.reverseRecOn with
  | nil => exact .make
  | append_singleton calls c ih =>
    rw [State.after, List.foldl_append]
    exact ih.call c

end Runs

section Traces

variable {body : ByteString} {values : List Json}

/-- Names after the first bring the comma before them. -/
theorem sepBy_names {α : Type} {text : α → ByteString} {value : α → Json}
    (hitem : ∀ a, Padded Value (text a) (value a)) (entries : List α) (hne : body ≠ [])
    (h : SepBy (Padded Value) body values) :
    ∃ body', (entries.map text).foldl appendName (0x5b :: body) = 0x5b :: body' ∧ body' ≠ [] ∧
      SepBy (Padded Value) body' (values ++ entries.map value) := by
  induction entries generalizing body values with
  | nil => exact ⟨body, rfl, hne, by simpa using h⟩
  | cons a entries ih =>
    have hlong : 1 < (0x5b :: body).length := by simpa [List.length_pos_iff] using hne
    have hnamed : appendName (0x5b :: body) (text a) = 0x5b :: (body ++ 0x2c :: text a) := by
      simp only [appendName, if_pos hlong]
      simp [ascii]
    obtain ⟨body', hbody', hne', h'⟩ := ih (by simp) (h.append (.one (hitem a)))
    refine ⟨body', ?_, hne', by simpa using h'⟩
    rw [List.map_cons, List.foldl_cons, hnamed, hbody']

/-- Events bring the comma before them. -/
theorem sepBy_events (origin : Int) {events : List Event} (hsafe : ∀ e ∈ events, e.Safe)
    (h : SepBy (Padded Value) body values) :
    SepBy (Padded Value) (body ++ (events.map (Event.render origin)).flatten)
      (values ++ events.map (Event.value origin)) := by
  induction events generalizing body values with
  | nil => simpa using h
  | cons e events ih =>
    obtain ⟨bytes, hbytes, hvalue⟩ := line_render origin (hsafe e List.mem_cons_self)
    have hrest := ih (fun d hd => hsafe d (List.mem_cons_of_mem e hd)) (h.append (.one hvalue))
    simpa [hbytes] using hrest

theorem foldl_append_flatten (trace : ByteString) (slices : List ByteString) :
    slices.foldl (· ++ ·) trace = trace ++ slices.flatten := by
  induction slices generalizing trace with
  | nil => simp
  | cons slice slices ih => simp [ih]

/-- The order a map is iterated in is an order of what it was made of. -/
theorem exists_of_perm_map {α β : Type} {f : α → β} {l : List β} {as : List α}
    (h : l.Perm (as.map f)) : ∃ bs : List α, bs.Perm as ∧ l = bs.map f := by
  obtain ⟨bs, hl, hperm⟩ := (congrFun₂ (List.eq_map_comp_perm f) l as).mpr h
  exact ⟨bs, hperm, hl⟩

theorem getLast?_of_map {α β : Type} {f : α → β} {kept all : List α} (hsuffix : kept <:+ all)
    (h : (kept.map f).getLast? = (all.map f).getLast?) : kept.getLast? = all.getLast? := by
  obtain ⟨dropped, rfl⟩ := hsuffix
  cases kept using List.reverseRecOn with
  | nil =>
    have hnone : dropped = [] := by simpa using h
    simp [hnone]
  | append_singleton kept a => simp

end Traces

/-- A snapshot is one JSON array: the names of processes and of rows, each once, and after them
the events recorded last, in the order recorded, ending with the latest. -/
theorem snapshot_wellFormed (own : UInt32) (capacity : Nat) (origin : Int) (calls : List Call)
    (hsafe : ∀ e ∈ recorded calls, e.Safe) {processes : List (UInt32 × ByteString)}
    {rows : List (TraceLane × ByteString)}
    (hprocesses : processes.Perm (State.after own capacity origin calls).processNames)
    (hrows : rows.Perm (State.after own capacity origin calls).rowNames) :
    ∃ processesKept rowsKept eventsKept, FirstOf (processesNamed own calls) processesKept ∧
      FirstOf (rowsNamed calls) rowsKept ∧ eventsKept <:+ recorded calls ∧
      eventsKept.getLast? = (recorded calls).getLast? ∧
      Padded Value ((State.after own capacity origin calls).snapshot processes rows)
        (.arr (processesKept.map (fun entry => processValue entry.1 entry.2) ++
          rowsKept.map (fun entry => rowValue entry.1 entry.2) ++
          eventsKept.map (Event.value origin))) := by
  have hnoted := Noted.after own capacity origin calls
  generalize State.after own capacity origin calls = s at *
  obtain ⟨processNames, hprocessNames, hprocessFirst⟩ := hnoted.processes
  obtain ⟨rowNames, hrowNames, hrowFirst⟩ := hnoted.rows
  obtain ⟨groups, hheld⟩ := hnoted.events
  rw [hprocessNames] at hprocesses
  rw [hrowNames] at hrows
  obtain ⟨processesKept, hprocessPerm, rfl⟩ := exists_of_perm_map hprocesses
  obtain ⟨rowsKept, hrowPerm, rfl⟩ := exists_of_perm_map hrows
  obtain ⟨eventsKept, hsuffix, hgroups⟩ := List.suffix_map_iff.mp hheld.suffix
  have hlatest := hheld.latest
  rw [hgroups] at hlatest
  refine ⟨processesKept, rowsKept, eventsKept, hprocessFirst.perm hprocessPerm,
    hrowFirst.perm hrowPerm, hsuffix, getLast?_of_map hsuffix hlatest, ?_⟩
  have hkept : ∀ e ∈ eventsKept, e.Safe := fun e he => hsafe e (hsuffix.subset he)
  -- There is always a name to lead with, since a tracer names its own process first.
  have hown : own ∈ processesKept.map Prod.fst :=
    ((hprocessFirst.perm hprocessPerm).key_mem_iff own).mpr ⟨_, List.mem_cons_self, rfl⟩
  obtain ⟨first, others, rfl⟩ :=
    List.exists_cons_of_ne_nil (List.ne_nil_of_mem (List.mem_map.mp hown).choose_spec.1)
  have hfirst : processName first.1 first.2 ≠ [] := by simp [processName, ascii]
  obtain ⟨body, hbody, hne, hvalues⟩ := sepBy_names
    (fun entry : UInt32 × ByteString => padded_processName entry.1 entry.2) others hfirst
    (.one (padded_processName first.1 first.2))
  obtain ⟨body', hbody', hne', hvalues'⟩ := sepBy_names
    (fun entry : TraceLane × ByteString => padded_rowName entry.1 entry.2) rowsKept hne hvalues
  have harray := Value.arr (sepBy_events origin hkept hvalues')
  have htrace : s.snapshot ((first :: others).map namedProcess) (rowsKept.map namedRow) =
      0x5b :: (body' ++ (eventsKept.map (Event.render origin)).flatten ++ [0x5d]) ++ ascii "\n" := by
    have hslices : s.slices.flatten = (eventsKept.map (Event.render origin)).flatten := by
      rw [hheld.slices, ← List.flatten_flatten, hgroups]
    simp only [State.snapshot, List.map_map, foldl_append_flatten, hslices, List.map_cons,
      List.foldl_cons]
    change List.foldl appendName (List.foldl appendName (0x5b :: processName first.1 first.2)
      (others.map fun entry => processName entry.1 entry.2))
      (rowsKept.map fun entry => rowName entry.1 entry.2) ++ _ ++ _ = _
    rw [hbody, hbody']
    simp [ascii]
  rw [htrace]
  exact .line harray

theorem snapshot_wellFormed_small :
    ∃ processesKept rowsKept eventsKept,
      FirstOf (processesNamed 1
        [.nameRow ⟨1, 2⟩ [0xff], .record (.flowOut ⟨1, 2⟩ [] [0x22] 3 0)]) processesKept ∧
      FirstOf (rowsNamed [.nameRow ⟨1, 2⟩ [0xff], .record (.flowOut ⟨1, 2⟩ [] [0x22] 3 0)])
        rowsKept ∧
      eventsKept <:+ [.flowOut ⟨1, 2⟩ [] [0x22] 3 0] ∧
      eventsKept.getLast? = some (.flowOut ⟨1, 2⟩ [] [0x22] 3 0) ∧
      Padded Value ((State.after 1 0 0
          [.nameRow ⟨1, 2⟩ [0xff], .record (.flowOut ⟨1, 2⟩ [] [0x22] 3 0)]).snapshot
            [(1, processName 1 (ascii "makebelieve"))] [(⟨1, 2⟩, rowName ⟨1, 2⟩ [0xff])])
        (.arr (processesKept.map (fun entry => processValue entry.1 entry.2) ++
          rowsKept.map (fun entry => rowValue entry.1 entry.2) ++
          eventsKept.map (Event.value 0))) :=
  snapshot_wellFormed 1 0 0 [.nameRow ⟨1, 2⟩ [0xff], .record (.flowOut ⟨1, 2⟩ [] [0x22] 3 0)]
    (by
      rintro e he
      obtain rfl := List.mem_singleton.mp he
      exact ⟨[], allUnescaped_nil, rfl⟩)
    (.refl _) (.refl _)

end MakeBelieve.Tracer
