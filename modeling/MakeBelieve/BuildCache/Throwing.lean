import MakeBelieve.BuildCache.Content

namespace MakeBelieve.BuildCache

open Library
open MakeBelieve.Tree (Bytes Hash)

/-- Whether an output has a record. -/
def Recorded (db : Database) (output : Path) : Prop := ∃ row ∈ db.outputs, row.path = toText output

def Event.isCall : Event → Bool
  | .call _ => true
  | _ => false

/-- Whether a step ends in an error that the operation throws. -/
def Event.failed : Event → Bool
  | .write ok _ => !ok
  | .rename ok _ => !ok
  | .transact ok => !ok
  | .drop _ ok _ => !ok
  | .list _ ok => !ok
  | _ => false

variable {contentHash : Bytes → Hash} {s s' : State} {call : Call}

theorem selectHash_isSome {db : Database} {output : Path} :
    (db.selectHash (toText output)).isSome = true ↔ Recorded db output := by
  unfold Database.selectHash Recorded
  rw [Option.isSome_map, List.find?_isSome]
  simp

theorem recorded_storeRows (db : Database) :
    Recorded (storeRows contentHash db call) call.command.output := by
  apply Exists.intro (outputRow contentHash call)
  constructor
  · rw [storeRows_outputs]
    exact List.mem_append_right _ (List.mem_singleton_self _)
  · rfl

/-- The events of one call of `store`, from its beginning to where it throws. -/
structure Throws (contentHash : Bytes → Hash) (s : State) (call : Call) (events : List Event) :
    Prop where
  fires : (machine contentHash).Fires (fun _ _ => True) s (.call (.store call) :: events)
  one : ∀ e ∈ events, e.isCall = false
  ended : ((machine contentHash).runs s (.call (.store call) :: events)).phase = .idle
  failed : ∃ e ∈ events, e.failed = true

/-- What there is of a record on the way, begun with these tables: what there was, until one is
committed, and then only what was there could make the call fail. -/
def Along (before : Database) (call : Call) (failed : Bool) (s : State) : Prop :=
  match s.phase with
  | .writing other => other = call ∧ s.db = before ∧ failed = false
  | .renaming other _ => other = call ∧ s.db = before ∧ failed = false
  | .storing other => other = call ∧ s.db = before ∧ failed = false
  | .dropping _ => Recorded s.db call.command.output ↔ Recorded before call.command.output
  | .idle => failed = true →
      (Recorded s.db call.command.output ↔ Recorded before call.command.output)
  | _ => False

variable {before : Database} {failed : Bool}

theorem Along.write {other : Call} {ok : Bool} {left : Option Bytes}
    (h : Along before call failed s) (hphase : s.phase = .writing other) :
    Along before call (failed || !ok) (s.write contentHash other ok left) := by
  unfold Along at h
  rw [hphase] at h
  obtain ⟨rfl, hdb, rfl⟩ := h
  cases ok with
  | true => exact ⟨rfl, hdb, rfl⟩
  | false =>
    intro _
    change Recorded s.db _ ↔ _
    rw [hdb]

theorem Along.rename {other : Call} {scratch : Text} {ok removed : Bool}
    (h : Along before call failed s) (hphase : s.phase = .renaming other scratch) :
    Along before call (failed || !ok) (s.rename contentHash other scratch ok removed) := by
  unfold Along at h
  rw [hphase] at h
  obtain ⟨rfl, hdb, rfl⟩ := h
  cases ok with
  | true => exact ⟨rfl, hdb, rfl⟩
  | false =>
    intro _
    change Recorded s.db _ ↔ _
    rw [hdb]

/-- Content is left to drop only if a record named it before. -/
theorem Along.store {other : Call} {ok : Bool} (h : Along before call failed s)
    (hphase : s.phase = .storing other) :
    Along before call (failed || !ok) (s.store contentHash other ok) := by
  unfold Along at h
  rw [hphase] at h
  obtain ⟨rfl, hdb, rfl⟩ := h
  cases ok with
  | false =>
    change Recorded s.db _ ↔ _
    rw [hdb]
  | true =>
    have hrecorded := @recorded_storeRows contentHash other s.db
    unfold State.store
    rw [if_pos rfl]
    cases hselect : s.db.selectHash (toText other.command.output) with
    | none =>
      intro hfailed
      simp at hfailed
    | some previous =>
      have hbefore : Recorded before other.command.output := by
        rw [← hdb, ← selectHash_isSome, hselect]
        rfl
      dsimp only
      by_cases heq : previous = contentHash other.bytes
      · rw [if_pos heq]
        intro _
        exact iff_of_true hrecorded hbefore
      · rw [if_neg heq]
        exact iff_of_true hrecorded hbefore

theorem Along.drop {hashes : List Text} {hash : Text} {ok removed : Bool}
    (h : Along before call failed s) (hphase : s.phase = .dropping hashes) :
    Along before call (failed || !ok) (s.drop hashes hash ok removed) := by
  unfold Along at h
  rw [hphase] at h
  have hidle : ∀ objects phase, phase = .idle ∨ (∃ rest, phase = .dropping rest) →
      Along before call (failed || !ok) { s with objects := objects, phase := phase } := by
    intro objects phase hnext
    rcases hnext with rfl | ⟨rest, rfl⟩
    · intro _
      exact h
    · exact h
  unfold State.drop
  cases ok with
  | false => exact hidle _ _ (.inl rfl)
  | true =>
    apply hidle
    unfold toDrop
    split
    · exact .inl rfl
    · exact .inr ⟨_, rfl⟩

theorem Along.step {e : Event} (h : Along before call failed s) (hone : e.isCall = false)
    (hs : Stepped contentHash s e s') : Along before call (failed || e.failed) s' := by
  have hother : ∀ phase, s.phase = phase → Along before call failed { s with phase := phase } := by
    intro phase hphase
    rw [← hphase]
    exact h
  cases hs with
  | call op => simp [Event.isCall] at hone
  | write ok left hphase => exact h.write hphase
  | rename ok removed hphase => exact h.rename hphase
  | store ok hphase => exact h.store hphase
  | drop ok removed hphase => exact h.drop hphase
  | forget ok hphase => exact (hother _ hphase).elim
  | list ok hphase => exact (hother _ hphase).elim
  | remove removed hphase => exact (hother _ hphase).elim

theorem Along.runs {events : List Event} (h : Along before call failed s)
    (hone : ∀ e ∈ events, e.isCall = false)
    (hf : (machine contentHash).Fires (fun _ _ => True) s events) :
    Along before call (failed || events.any Event.failed)
      ((machine contentHash).runs s events) := by
  induction events generalizing s failed with
  | nil =>
    rw [List.any_nil, Bool.or_false]
    exact h
  | cons e events ih =>
    obtain ⟨he, -, hrest⟩ := hf
    have hstep := h.step (hone e List.mem_cons_self) (State.stepped contentHash he)
    rw [List.any_cons, ← Bool.or_assoc]
    apply ih hstep _ hrest
    intro other hmem
    exact hone other (List.mem_cons_of_mem _ hmem)

/-- A call of `store` that throws leaves the output unrecorded where it was so before, and only
there. -/
theorem store_throws {events : List Event} (h : Throws contentHash s call events) :
    ¬Recorded ((machine contentHash).runs s (.call (.store call) :: events)).db
        call.command.output ↔
      ¬Recorded s.db call.command.output := by
  obtain ⟨-, -, hfires⟩ := h.fires
  have hbegun : Along s.db call false ((machine contentHash).step s (.call (.store call))) :=
    ⟨rfl, rfl, rfl⟩
  have hended := hbegun.runs h.one hfires
  have hfailed : events.any Event.failed = true := List.any_eq_true.mpr h.failed
  have hidle : ((machine contentHash).runs
      ((machine contentHash).step s (.call (.store call))) events).phase = .idle := h.ended
  unfold Along at hended
  rw [hidle] at hended
  exact not_congr (hended (by rw [hfailed]; rfl))

theorem throws_unwritten (hidle : s.phase = .idle) (htexted : (Op.store call).Texted) :
    Throws contentHash s call [.write false none] where
  fires := ⟨⟨hidle, htexted⟩, trivial, ⟨_, rfl⟩, trivial, trivial⟩
  one := by
    intro e he
    rw [List.mem_singleton.mp he]
    rfl
  ended := rfl
  failed := ⟨_, List.mem_singleton_self _, rfl⟩

theorem store_throws_empty :
    ¬Recorded ((machine hashOfEmpty).runs {} [.call (.store (shared 'a')), .write false none]).db
      [['a']] := by
  apply (store_throws (throws_unwritten rfl (texted_shared 'a' (by decide)))).mpr
  intro hrecorded
  obtain ⟨row, hrow, -⟩ := hrecorded
  exact List.not_mem_nil hrow

/-- An output stored once, and then again where its content cannot be written. -/
theorem store_throws_recorded :
    ¬∀ (contentHash : Bytes → Hash) (s : State) (call : Call) (events : List Event),
      Throws contentHash s call events →
      ¬Recorded ((machine contentHash).runs s (.call (.store call) :: events)).db
        call.command.output := by
  intro h
  apply h hashOfEmpty ((machine hashOfEmpty).runs {} (sharing.take 4)) (shared 'a')
    [.write false none] (throws_unwritten rfl (texted_shared 'a' (by decide)))
  exact ⟨outputRow hashOfEmpty (shared 'a'), List.mem_singleton_self _, rfl⟩

end MakeBelieve.BuildCache
