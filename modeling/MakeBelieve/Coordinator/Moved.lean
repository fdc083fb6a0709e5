import MakeBelieve.Coordinator.Links

namespace MakeBelieve.Coordinator.State

/-- What a transition does to the waits it finds: those in `out` are answered, each once and with
the result given there, and every other stays, at most blocked no longer. -/
structure Moved (s t : State) (out : List (WaitId × ErrorCode)) : Prop where
  kept : Kept s t
  nodup : (out.map Prod.fst).Nodup
  found : ∀ w ∈ out.map Prod.fst, w ∈ s.waits
  waits : ∀ w, w ∈ t.waits ↔ w ∈ s.waits ∧ w ∉ out.map Prod.fst
  target : ∀ w, (t.requests w).target = (s.requests w).target
  requester : ∀ w, (t.requests w).requester = (s.requests w).requester
  blocked : ∀ w, (t.requests w).state = .blocked → (s.requests w).state = .blocked
  done : ∀ p ∈ out, (t.requests p.1).state = .done ∧ (t.requests p.1).result = p.2
  rest : ∀ w, w ∉ s.waits → t.requests w = s.requests w
  answered : t.effects.answered = s.effects.answered ++ out.map Prod.fst

variable {s t u : State} {out out' : List (WaitId × ErrorCode)}

theorem Moved.trans (h : Moved s t out) (h' : Moved t u out') : Moved s u (out ++ out') := by
  have hdisj : ∀ w ∈ out.map Prod.fst, w ∉ t.waits := fun w hw ht => ((h.waits w).mp ht).2 hw
  refine ⟨h.kept.trans h'.kept, ?_, fun w hw => ?_, fun w => ?_, fun w => ?_, fun w => ?_,
    fun w hw => ?_, fun p hp => ?_, fun w hw => ?_, ?_⟩
  · rw [List.map_append]
    refine List.nodup_append.mpr ⟨h.nodup, h'.nodup, fun a ha b hb hab => ?_⟩
    subst hab
    exact hdisj a ha (h'.found a hb)
  · rw [List.map_append, List.mem_append] at hw
    exact hw.elim (h.found w) (fun hw => ((h.waits w).mp (h'.found w hw)).1)
  · rw [h'.waits, h.waits, List.map_append, List.mem_append]; tauto
  · rw [h'.target, h.target]
  · rw [h'.requester, h.requester]
  · exact h.blocked w (h'.blocked w hw)
  · rcases List.mem_append.mp hp with hp | hp
    · rw [h'.rest p.1 (hdisj p.1 (List.mem_map_of_mem hp))]
      exact h.done p hp
    · exact h'.done p hp
  · rw [h'.rest w (fun ht => hw ((h.waits w).mp ht).1), h.rest w hw]
  · rw [h'.answered, h.answered, List.map_append, List.append_assoc]

theorem OnlyControl.moved (h : OnlyControl s t) : Moved s t [] where
  kept := h.kept
  nodup := List.nodup_nil
  found := by simp
  waits w := by simp [h.waits]
  target w := by rw [h.requests]
  requester w := by rw [h.requests]
  blocked w hw := by rwa [h.requests] at hw
  done := by simp
  rest w _ := by rw [h.requests]
  answered := by simp [h.answered]

theorem Links.answer_moved (h : Links s) {w : WaitId} (hw : w ∈ s.waits) (e : ErrorCode) :
    Moved s (s.answer w e) [(w, e)] where
  kept := s.answer_kept w e
  nodup := List.nodup_singleton w
  found v hv := by
    have : v = w := by simpa using hv
    exact this ▸ hw
  waits v := by
    rw [answer_waits, h.waits.mem_erase_iff]
    simp [and_comm]
  target v := by rw [answer_requests]; split <;> simp_all
  requester v := by rw [answer_requests]; split <;> simp_all
  blocked v hv := by
    rw [answer_requests] at hv
    split at hv
    · simp at hv
    · exact hv
  done p hp := by
    have : p = (w, e) := by simpa using hp
    subst this
    simp [answer_requests]
  rest v hv := by
    have : v ≠ w := fun h => hv (h ▸ hw)
    rw [answer_requests, if_neg this]
  answered := by simp

theorem makeReady_moved {w : WaitId} (hw : w ∈ s.waits) (r : AttemptId) (e : ErrorCode) :
    Moved s (s.makeReady w r e) [] where
  kept := s.makeReady_kept w r e
  nodup := List.nodup_nil
  found := by simp
  waits v := by simp
  target v := by rw [makeReady_requests]; split <;> simp_all
  requester v := by rw [makeReady_requests]; split <;> simp_all
  blocked v hv := by
    rw [makeReady_requests] at hv
    split at hv
    · simp at hv
    · exact hv
  done := by simp
  rest v hv := by
    have : v ≠ w := fun h => hv (h ▸ hw)
    rw [makeReady_requests, if_neg this]
  answered := by simp

/-- What else a transition gathers to do says nothing about its waits. -/
theorem Moved.withEffects (h : Moved s t out) {e : Effects}
    (he : e.answered = t.effects.answered) : Moved s { t with effects := e } out where
  kept := ⟨h.kept.attemptCount, h.kept.waitCount⟩
  nodup := h.nodup
  found := h.found
  waits := h.waits
  target := h.target
  requester := h.requester
  blocked := h.blocked
  done := h.done
  rest := h.rest
  answered := he.trans h.answered

/-- What answering a list of waits does: nothing but that. -/
structure Answering (s t : State) (out : List (WaitId × ErrorCode)) : Prop extends
    Moved s t out where
  links : Links t
  control : ∀ a, (t.attempts a).toControl = (s.attempts a).toControl
  running : t.running = s.running
  calls : t.calls = s.calls
  effects : t.effects = { s.effects with answered := s.effects.answered ++ out.map Prod.fst }
  others : ∀ w, w ∉ out.map Prod.fst → t.requests w = s.requests w

theorem Answering.nil (h : Links s) : Answering s s [] :=
  ⟨(OnlyControl.refl s).moved, h, fun _ => rfl, rfl, rfl, by simp, fun _ _ => rfl⟩

theorem Answering.trans (h : Answering s t out) (h' : Answering t u out') :
    Answering s u (out ++ out') where
  toMoved := h.toMoved.trans h'.toMoved
  links := h'.links
  control a := (h'.control a).trans (h.control a)
  running := h'.running.trans h.running
  calls := h'.calls.trans h.calls
  effects := by rw [h'.effects, h.effects]; simp
  others w hw := by
    rw [List.map_append, List.mem_append, not_or] at hw
    rw [h'.others w hw.2, h.others w hw.1]

theorem Links.answering (h : Links s) {w : WaitId} (hw : w ∈ s.waits) (e : ErrorCode) :
    Answering s (s.answer w e) [(w, e)] where
  toMoved := h.answer_moved hw e
  links := h.answer hw e
  control := s.answer_toControl w e
  running := s.answer_running w e
  calls := s.answer_calls w e
  effects := s.answer_effects w e
  others v hv := by
    have : v ≠ w := by simpa using hv
    rw [answer_requests, if_neg this]

/-- A loop answering a snapshot of waits, each still in line, answers each of them once. -/
theorem foldl_answering {ws : List WaitId} (result : WaitId → ErrorCode) (h : Links s)
    (hsub : ∀ w ∈ ws, w ∈ s.waits) (hnd : ws.Nodup) :
    Answering s (ws.foldl (fun s w => s.answer w (result w)) s)
      (ws.map fun w => (w, result w)) := by
  induction ws generalizing s with
  | nil => exact .nil h
  | cons w ws ih =>
    obtain ⟨hw, hnd⟩ := List.nodup_cons.mp hnd
    have hone := h.answering (hsub w (by simp)) (result w)
    have hrest : ∀ v ∈ ws, v ∈ (s.answer w (result w)).waits := fun v hv => by
      refine (hone.waits v).mpr ⟨hsub v (List.mem_cons_of_mem _ hv), ?_⟩
      have : v ≠ w := fun h => hw (h ▸ hv)
      simpa using this
    exact hone.trans (ih hone.links hrest hnd)

/-- `cancel_waits_of`: every wait by the attempt is answered, and only those. -/
theorem Links.cancelWaitsOf (h : Links s) (a : AttemptId) :
    Answering s (s.cancelWaitsOf a) ((s.attempts a).waitsByMe.map fun w => (w, canceled)) :=
  foldl_answering (fun _ => canceled) h (fun w hw => ((h.byMe a w).mp hw).1) (h.byMeNodup a)

/-- The loop of `on_reacquired` answers, of the snapshot, exactly the waits ready at its start. -/
theorem foldl_answerReady (a : AttemptId) (granted : Bool) {ws : List WaitId} (h : Links s)
    (hsub : ∀ w ∈ ws, w ∈ s.waits) (hnd : ws.Nodup) :
    Answering s (ws.foldl (fun s w => s.answerReady a granted w) s)
      ((ws.filter fun w => (s.requests w).state = .ready).map fun w =>
        (w, if granted && !(s.attempts a).stopping then (s.requests w).result else canceled)) := by
  induction ws generalizing s with
  | nil => exact .nil h
  | cons w ws ih =>
    obtain ⟨hw, hnd⟩ := List.nodup_cons.mp hnd
    by_cases hready : (s.requests w).state = .ready
    · let e := if granted && !(s.attempts a).stopping then (s.requests w).result else canceled
      have hone : Answering s (s.answer w e) [(w, e)] := h.answering (hsub w (by simp)) e
      have hne : ∀ v ∈ ws, v ≠ w := fun v hv h => hw (h ▸ hv)
      have hsame : ∀ v ∈ ws, (s.answer w e).requests v = s.requests v := fun v hv =>
        hone.others v (by simpa using hne v hv)
      have hrest : ∀ v ∈ ws, v ∈ (s.answer w e).waits := fun v hv =>
        (hone.waits v).mpr ⟨hsub v (List.mem_cons_of_mem _ hv), by simpa using hne v hv⟩
      have htail := hone.trans (ih hone.links hrest hnd)
      have hfilter : (ws.filter fun v => ((s.answer w e).requests v).state = .ready) =
          ws.filter fun v => (s.requests v).state = .ready :=
        List.filter_congr fun v hv => by rw [hsame v hv]
      have hmap : ((ws.filter fun v => (s.requests v).state = .ready).map fun v =>
          (v, if granted && !((s.answer w e).attempts a).stopping then
            ((s.answer w e).requests v).result else canceled)) =
          (ws.filter fun v => (s.requests v).state = .ready).map fun v =>
            (v, if granted && !(s.attempts a).stopping then (s.requests v).result
              else canceled) :=
        List.map_congr_left fun v hv => by
          rw [hone.control, hsame v (List.mem_of_mem_filter hv)]
      rw [hfilter, hmap] at htail
      simp only [List.foldl_cons, answerReady, hready, if_true]
      rw [List.filter_cons_of_pos (by simpa using hready), List.map_cons]
      exact htail
    · have htail := ih h (fun v hv => hsub v (List.mem_cons_of_mem _ hv)) hnd
      simp only [List.foldl_cons, answerReady, hready, if_false]
      rw [List.filter_cons_of_neg (by simpa using hready)]
      exact htail

end MakeBelieve.Coordinator.State
