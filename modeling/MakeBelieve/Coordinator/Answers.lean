import MakeBelieve.Coordinator.Stops

namespace MakeBelieve.Coordinator

/-- The fields of an attempt once it has started to take its permit back. -/
def Control.takeBack (c : Control) : Control :=
  { c with permit := .reacquiring, reacquire := true, reacquireOutstanding := true }

theorem ControlOk.takeBack {c : Control} (h : ControlOk c) (hrun : c.phase = .running) :
    ControlOk c.takeBack where
  outstanding := ⟨fun _ => rfl, fun _ => rfl⟩
  unstarted hp := by simp [Control.takeBack, hrun] at hp
  started hp := ⟨by simp [Control.takeBack], (h.started hp).2⟩
  ended := h.ended

namespace State

variable {s t : State}

/-- What starting to take a permit back does to the accounts of its attempt. -/
theorem reacquire_accounted {a : AttemptId} (hp : (s.attempts a).permit = .released)
    (hc : ControlOk (s.attempts a).toControl) : Accounted s (s.reacquire a) where
  takeBacks b := by
    have hctl := s.reacquire_toControl a b
    simp only [reacquire_effects, List.count_append]
    by_cases hba : b = a
    · subst hba
      have hnot : (s.attempts b).reacquireOutstanding = false := by
        have := hc.outstanding
        rw [hp] at this
        simpa using this
      rw [hctl, if_pos rfl, hnot]
      simp
    · rw [hctl, if_neg hba]
      simp [Ne.symm hba]
  leases b := by
    have hctl := s.reacquire_toControl a b
    rw [reacquire_calls, hctl]
    by_cases hba : b = a
    · subst hba; simp [hp]
    · rw [if_neg hba]

/-- The permit leaves its attempt exactly as its lease is asked to release. -/
theorem giveBack_accounted {a : AttemptId} (hp : (s.attempts a).permit = .held)
    (hl : (s.attempts a).lease = true) : Accounted s (s.giveBack a) where
  takeBacks b := by
    rw [giveBack_effects, giveBack_toControl]
    split
    · subst b; rfl
    · rfl
  leases b := by
    have hctl := s.giveBack_toControl a b
    rw [giveBack_calls, if_pos hl, List.count_append, hctl]
    by_cases hba : b = a
    · subst hba; simp [hp]
    · rw [if_neg hba]
      simp [Ne.symm hba]

/-- How completing a target leaves an attempt whose waits were on it: as it was, or taking back the
permit it had given up. -/
def TakesBack (c d : Control) : Prop :=
  d = c ∨ (c.phase = .running ∧ c.stopping = false ∧ c.permit = .released ∧ d = c.takeBack)

theorem TakesBack.trans {c d e : Control} (h : TakesBack c d) (h' : TakesBack d e) :
    TakesBack c e := by
  obtain rfl | ⟨hrun, hstop, hp, rfl⟩ := h
  · exact h'
  · obtain rfl | ⟨_, _, hp', _⟩ := h'
    · exact .inr ⟨hrun, hstop, hp, rfl⟩
    · simp [Control.takeBack] at hp'

theorem TakesBack.ok {c d : Control} (h : TakesBack c d) (hc : ControlOk c) : ControlOk d := by
  obtain rfl | ⟨hrun, _, _, rfl⟩ := h
  · exact hc
  · exact hc.takeBack hrun

theorem TakesBack.owner {c d : Control} (h : TakesBack c d) {state : WaitState}
    (hc : OwnerOk c state) : OwnerOk d state := by
  obtain rfl | ⟨_, _, _, rfl⟩ := h
  · exact hc
  · exact ⟨hc.running, hc.notStopping, .inl rfl⟩

/-- What the loop of `complete` does with the waits it has come to so far: those from no attempt
are answered, the others stay until their attempt has its permit. -/
structure Readied (s t : State) (ws : List WaitId) (e : ErrorCode) : Prop where
  moved : Moved s t ((ws.filter fun w => (s.requests w).requester = none).map fun w => (w, e))
  links : Links t
  owned : ∀ w ∈ t.waits, t.Owned w
  ready : ∀ w ∈ ws, w ∈ t.waits → (t.requests w).state = .ready ∧ (t.requests w).result = e
  others : ∀ w, w ∉ ws → t.requests w = s.requests w
  control : ∀ b, TakesBack (s.attempts b).toControl (t.attempts b).toControl
  accounted : Accounted s t
  running : t.running = s.running
  reacquires : ∀ b ∈ t.effects.reacquires, b ∈ s.effects.reacquires ∨
    ∃ w ∈ ws, w ∈ (t.attempts b).waitsByMe

theorem Readied.nil (h : Links s) (ho : ∀ w ∈ s.waits, s.Owned w) (e : ErrorCode) :
    Readied s s [] e where
  moved := (OnlyControl.refl s).moved
  links := h
  owned := ho
  ready := by simp
  others _ _ := rfl
  control _ := .inl rfl
  accounted := .refl s
  running := rfl
  reacquires _ hb := .inl hb

/-- A wait from an attempt becomes ready once its attempt takes its permit back, and it does so at
most once for all of them. -/
theorem ready_eq_makeReady {w : WaitId} {r : AttemptId} (hr : (s.requests w).requester = some r)
    (ho : OwnerOk (s.attempts r).toControl .blocked) (hc : ControlOk (s.attempts r).toControl)
    (e : ErrorCode) :
    ∃ u, s.ready w e = u.makeReady w r e ∧ OnlyControl s u ∧ Accounted s u ∧
      (∀ b, TakesBack (s.attempts b).toControl (u.attempts b).toControl) ∧
      (u.attempts r).permit = .reacquiring ∧
      ∀ b ∈ u.effects.reacquires, b ∈ s.effects.reacquires ∨ b = r := by
  obtain ⟨hrun, hstop, hreac | ⟨hrel, _⟩⟩ := ho
  · refine ⟨s, ?_, .refl s, .refl s, fun _ => .inl rfl, hreac, fun _ hb => .inl hb⟩
    simp [State.ready, hr, hstop, hreac]
  · refine ⟨s.reacquire r, ?_, s.reacquire_onlyControl r, reacquire_accounted hrel hc,
      fun b => ?_, ?_, fun b hb => ?_⟩
    · simp [State.ready, hr, hstop, hrel]
    · rw [reacquire_toControl]
      split
      · subst b; exact .inr ⟨hrun, hstop, hrel, rfl⟩
      · exact .inl rfl
    · rw [reacquire_toControl, if_pos rfl]
    · simpa using hb

theorem Links.ready (hl : Links s) (ho : ∀ w ∈ s.waits, s.Owned w)
    (hc : ∀ b, ControlOk (s.attempts b).toControl) {w : WaitId} (hw : w ∈ s.waits)
    (hb : (s.requests w).state = .blocked) (e : ErrorCode) : Readied s (s.ready w e) [w] e := by
  cases hr : (s.requests w).requester with
  | none =>
    have hans := hl.answering hw e
    have heq : s.ready w e = s.answer w e := by simp [State.ready, hr]
    rw [heq]
    refine ⟨?_, hans.links, fun v hv => ?_, fun v hv hmem => ?_, fun v hv => ?_,
      fun b => .inl (hans.control b), hans.accounted, hans.running, fun b hb => ?_⟩
    · simpa [hr] using hans.toMoved
    · obtain ⟨hmem, hnot⟩ := (hans.waits v).mp hv
      have hsame := hans.others v hnot
      obtain ⟨hdone, halone, howner⟩ := ho v hmem
      refine ⟨?_, ?_, ?_⟩ <;> rw [hsame]
      · exact hdone
      · exact halone
      · intro a ha
        rw [hans.control]; exact howner a ha
    · exact absurd hv ((hans.waits v).mp hmem).2
    · exact hans.others v hv
    · rw [hans.effects] at hb; exact .inl hb
  | some r =>
    have hown := (ho w hw).owner r hr
    rw [hb] at hown
    obtain ⟨u, heq, honly, hacc, htb, hreac, hrs⟩ := ready_eq_makeReady hr hown (hc r) e
    rw [heq]
    have hwu : w ∈ u.waits := honly.waits ▸ hw
    have hbu : (u.requests w).state = .blocked := honly.requests ▸ hb
    have hru : (u.requests w).requester = some r := honly.requests ▸ hr
    have hlu := hl.same honly.toSameLinks
    have hself : (u.makeReady w r e).requests w = { s.requests w with result := e, state := .ready } := by
      rw [makeReady_requests, if_pos rfl, honly.requests]
    have hother : ∀ v, v ≠ w → (u.makeReady w r e).requests v = s.requests v := fun v hv => by
      rw [makeReady_requests, if_neg hv, honly.requests]
    have hctl : ∀ b, TakesBack (s.attempts b).toControl ((u.makeReady w r e).attempts b).toControl :=
      fun b => by rw [makeReady_toControl]; exact htb b
    refine ⟨?_, hlu.makeReady hwu hbu hru e, fun v hv => ?_, fun v hv _ => ?_, fun v hv => ?_,
      hctl, ?_, honly.running, fun b hb => ?_⟩
    · have hm := honly.moved.trans (makeReady_moved hwu r e)
      simpa [hr] using hm
    · rw [makeReady_waits, honly.waits] at hv
      by_cases hvw : v = w
      · subst hvw
        refine ⟨?_, fun hnone => ?_, fun a ha => ?_⟩
        · rw [hself]; simp
        · rw [hself] at hnone; simp [hr] at hnone
        · rw [hself] at ha ⊢
          have har : r = a := Option.some.inj (hr.symm.trans ha)
          subst har
          have := (hctl r).owner hown
          refine ⟨this.running, this.notStopping, .inl ?_⟩
          rw [makeReady_toControl]; exact hreac
      · obtain ⟨hdone, halone, howner⟩ := ho v hv
        refine ⟨?_, ?_, ?_⟩ <;> rw [hother v hvw]
        · exact hdone
        · exact halone
        · intro a ha
          exact (hctl a).owner (howner a ha)
    · have : v = w := by simpa using hv
      subst this
      rw [hself]; exact ⟨rfl, rfl⟩
    · exact hother v (by simpa using hv)
    · exact hacc.trans (accounted_of_control (fun b => by rw [makeReady_toControl]; exact ⟨rfl, rfl⟩)
        rfl (fun _ => rfl))
    · rw [makeReady_effects] at hb
      refine (hrs b hb).imp id (fun hbr => ⟨w, by simp, ?_⟩)
      rw [hbr, makeReady_waitsByMe]
      exact (hlu.byMe r w).mpr ⟨hwu, hru⟩

/-- The loop of `complete`, over a snapshot of blocked waits. -/
theorem Links.readyAll {ws : List WaitId} (hl : Links s) (ho : ∀ w ∈ s.waits, s.Owned w)
    (hc : ∀ b, ControlOk (s.attempts b).toControl) (hnd : ws.Nodup)
    (hws : ∀ w ∈ ws, w ∈ s.waits ∧ (s.requests w).state = .blocked) (e : ErrorCode) :
    Readied s (ws.foldl (fun s w => s.ready w e) s) ws e := by
  induction ws generalizing s with
  | nil => exact .nil hl ho e
  | cons w ws ih =>
    obtain ⟨hnot, hnd⟩ := List.nodup_cons.mp hnd
    obtain ⟨hw, hb⟩ := hws w (by simp)
    have hone := hl.ready ho hc hw hb e
    have hne : ∀ v ∈ ws, v ∉ [w] := fun v hv => by
      have : v ≠ w := fun h => hnot (h ▸ hv)
      simpa using this
    have hsame : ∀ v ∈ ws, (s.ready w e).requests v = s.requests v := fun v hv =>
      hone.others v (hne v hv)
    have hrest : ∀ v ∈ ws, v ∈ (s.ready w e).waits ∧
        ((s.ready w e).requests v).state = .blocked := fun v hv => by
      obtain ⟨hv', hbv⟩ := hws v (List.mem_cons_of_mem _ hv)
      refine ⟨(hone.moved.waits v).mpr ⟨hv', ?_⟩, by rw [hsame v hv]; exact hbv⟩
      intro hmem
      have hvw : v ∈ [w] := by
        simp only [List.map_map, List.mem_map, List.mem_filter] at hmem
        obtain ⟨x, ⟨hx, _⟩, hxv⟩ := hmem
        exact hxv ▸ hx
      exact hne v hv hvw
    have htail := ih hone.links hone.owned (fun b => (hone.control b).ok (hc b)) hnd hrest
    rw [List.foldl_cons]
    generalize ws.foldl (fun s w => s.ready w e) (s.ready w e) = u at htail
    refine ⟨?_, htail.links, htail.owned, fun v hv hmem => ?_, fun v hv => ?_,
      fun b => (hone.control b).trans (htail.control b), hone.accounted.trans htail.accounted,
      htail.running.trans hone.running, fun b hb => ?_⟩
    · have hm := hone.moved.trans htail.moved
      have hfilter : (ws.filter fun v => ((s.ready w e).requests v).requester = none) =
          ws.filter fun v => (s.requests v).requester = none :=
        List.filter_congr fun v hv => by rw [hsame v hv]
      rw [hfilter, ← List.map_append, ← List.filter_append] at hm
      exact hm
    · rcases List.mem_cons.mp hv with rfl | hv
      · rw [htail.others v hnot]
        exact hone.ready v (by simp) ((htail.moved.waits v).mp hmem).1
      · exact htail.ready v hv hmem
    · rw [List.mem_cons, not_or] at hv
      rw [htail.others v hv.2, hone.others v (by simpa using hv.1)]
    · obtain hb | ⟨v, hv, hby⟩ := htail.reacquires b hb
      · refine (hone.reacquires b hb).imp id (fun ⟨v, hv, hby⟩ => ?_)
        have hvw : v = w := by simpa using hv
        subst hvw
        obtain ⟨hmem, hreq⟩ := (hone.links.byMe b v).mp hby
        refine ⟨v, by simp, (htail.links.byMe b v).mpr ⟨?_, ?_⟩⟩
        · refine (htail.moved.waits v).mpr ⟨hmem, fun hout => hnot ?_⟩
          simp only [List.map_map, List.mem_map, List.mem_filter] at hout
          obtain ⟨x, ⟨hx, _⟩, hxv⟩ := hout
          exact hxv ▸ hx
        · rw [htail.others v hnot]; exact hreq
      · exact .inr ⟨v, List.mem_cons_of_mem _ hv, hby⟩

end State

end MakeBelieve.Coordinator
