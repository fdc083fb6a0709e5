import MakeBelieve.Coordinator.Invariant

namespace MakeBelieve.Coordinator

theorem ControlOk.stop {c : Control} (h : ControlOk c) (hrun : c.phase = .running) (d : Bool) :
    ControlOk { c with stopping := true, doomed := d } where
  outstanding := h.outstanding
  unstarted hp := by simp [hrun] at hp
  started := h.started
  ended _ := rfl

namespace State

variable {s t : State}

/-- A change of fields alone keeps the invariant where it keeps what each of its parts asks of
those fields. -/
theorem Inv.of_control (h : Inv s) (hl : SameLinks s t) (hk : Kept s t) (hr : t.running = s.running)
    (howner : ∀ w ∈ s.waits, ∀ b, (s.requests w).requester = some b →
      OwnerOk (t.attempts b).toControl (s.requests w).state)
    (hresult : ∀ w ∈ s.waits, (s.requests w).state = .blocked →
      (t.attempts (s.requests w).target).result = none)
    (hcontrol : ∀ b, ControlOk (t.attempts b).toControl)
    (hrunning : ∀ b, (s.attempts b).phase = .running →
      (t.attempts b).phase = .running ∧ (t.attempts b).output = (s.attempts b).output)
    (hpred : ∀ b p, (t.attempts b).predecessor = some p → (s.attempts b).predecessor = some p)
    (hfresh : ∀ b, s.attemptCount ≤ b → (t.attempts b).phase = (s.attempts b).phase) :
    Inv t where
  links := h.links.same hl
  owned w hw := by
    rw [hl.waits] at hw
    obtain ⟨hdone, halone, _⟩ := h.owned w hw
    refine ⟨?_, ?_, ?_⟩ <;> rw [hl.requests]
    · exact hdone
    · exact halone
    · exact howner w hw
  unfinished w hw hb := by
    rw [hl.waits] at hw
    rw [hl.requests] at hb ⊢
    exact hresult w hw hb
  control := hcontrol
  running p a hp := by
    rw [hr] at hp
    obtain ⟨hphase, hout⟩ := h.running p a hp
    obtain ⟨hphase', hout'⟩ := hrunning a hphase
    exact ⟨hphase', hout'.trans hout⟩
  inRange := by
    refine ⟨fun w hw => ?_, fun w hw => ?_, fun b p hb => ?_, fun b hb => ?_, fun w hw => ?_⟩
    · rw [hl.waits] at hw
      rw [hk.waitCount]; exact h.inRange.wait w hw
    · rw [hl.waits] at hw
      rw [hl.requests, hk.attemptCount]; exact h.inRange.target w hw
    · rw [hk.attemptCount]; exact h.inRange.predecessor b p (hpred b p hb)
    · rw [hk.attemptCount] at hb
      rw [hfresh b hb]; exact h.inRange.freshAttempt b hb
    · rw [hk.waitCount] at hw
      rw [hl.requests]; exact h.inRange.freshWait w hw

theorem Inv.of_same (h : Inv s) (hl : SameLinks s t) (hk : Kept s t) (hr : t.running = s.running)
    (hc : ∀ b, (t.attempts b).toControl = (s.attempts b).toControl) : Inv t := by
  apply h.of_control hl hk hr
  · intro w hw b hb
    rw [hc]; exact (h.owned w hw).owner b hb
  · intro w hw hb
    rw [hc]; exact h.unfinished w hw hb
  · intro b
    rw [hc]; exact h.control b
  · intro b hb
    rw [hc]; exact ⟨hb, rfl⟩
  · intro b p hp
    rwa [hc] at hp
  · intro b _
    rw [hc]

theorem Inv.start (h : Inv s) : Inv s.start :=
  h.of_same ⟨fun _ => rfl, fun _ => rfl, fun _ => rfl, rfl, rfl⟩ ⟨rfl, rfl⟩ rfl (fun _ => rfl)

/-- However the fields of `a` have changed, answering every wait by it leaves only waits by
others, which are as they were. -/
theorem Inv.cancelled (h : Inv s) {a : AttemptId} (ho : SameLinks s t)
    (hother : ∀ b, b ≠ a → (t.attempts b).toControl = (s.attempts b).toControl)
    (hresult : (t.attempts a).result = (s.attempts a).result) :
    Answering t (t.cancelWaitsOf a) ((s.attempts a).waitsByMe.map fun w => (w, canceled)) ∧
      (∀ w ∈ (t.cancelWaitsOf a).waits, (t.cancelWaitsOf a).Owned w) ∧
      ∀ w ∈ (t.cancelWaitsOf a).waits, ((t.cancelWaitsOf a).requests w).state = .blocked →
        ((t.cancelWaitsOf a).attempts ((t.cancelWaitsOf a).requests w).target).result = none := by
  have hans := (h.links.same ho).cancelWaitsOf a
  rw [ho.byMe] at hans
  have hleft : ∀ w ∈ (t.cancelWaitsOf a).waits, w ∈ s.waits ∧
      (s.requests w).requester ≠ some a ∧ (t.cancelWaitsOf a).requests w = s.requests w := by
    intro w hw
    obtain ⟨hmem, hnot⟩ := (hans.waits w).mp hw
    rw [ho.waits] at hmem
    have hreq : (s.requests w).requester ≠ some a := fun hr =>
      hnot (by simpa using (h.links.byMe a w).mpr ⟨hmem, hr⟩)
    exact ⟨hmem, hreq, by rw [hans.others w hnot, ho.requests]⟩
  refine ⟨hans, fun w hw => ?_, fun w hw hb => ?_⟩
  · obtain ⟨hmem, hreq, hsame⟩ := hleft w hw
    obtain ⟨hdone, halone, howner⟩ := h.owned w hmem
    refine ⟨?_, ?_, ?_⟩ <;> rw [hsame]
    · exact hdone
    · exact halone
    · intro b hb
      have hba : b ≠ a := fun hba => hreq (hba ▸ hb)
      rw [hans.control, hother b hba]
      exact howner b hb
  · obtain ⟨hmem, _, hsame⟩ := hleft w hw
    rw [hsame] at hb ⊢
    rw [hans.control]
    have hnone := h.unfinished w hmem hb
    by_cases hta : (s.requests w).target = a
    · rw [hta] at hnone ⊢
      rw [hresult]; exact hnone
    · rw [hother _ hta]; exact hnone

/-- What stopping an attempt does, besides the effects it asks for. -/
structure Stopped (s t : State) (a : AttemptId) : Prop where
  inv : Inv t
  moved : Moved s t ((s.attempts a).waitsByMe.map fun w => (w, canceled))
  accounted : Accounted s t
  stopping : (t.attempts a).stopping = true
  only : ∀ b, ∃ d, (t.attempts b).toControl =
    { (s.attempts b).toControl with stopping := (t.attempts b).stopping, doomed := d }
  others : ∀ b, b ≠ a → (t.attempts b).toControl = (s.attempts b).toControl
  reacquires : t.effects.reacquires = s.effects.reacquires
  left : ∀ w ∈ t.waits, t.requests w = s.requests w

/-- The stop itself, from any state in which at most the fields of `a` have changed. -/
theorem Inv.stopped (h : Inv s) {a : AttemptId} {d : Bool} (ho : OnlyControl s t)
    (hrun : (s.attempts a).phase = .running)
    (hother : ∀ b, b ≠ a → (t.attempts b).toControl = (s.attempts b).toControl)
    (ha : (t.attempts a).toControl = { (s.attempts a).toControl with doomed := d })
    (heff : t.effects = s.effects) (hcalls : t.calls = s.calls) :
    Stopped s (t.stopAttempt a) a := by
  have hset := t.setAttempt_onlyControl a (f := fun x => { x with stopping := true })
    (by intro _; rfl) (by intro _; rfl) (by intro _; rfl)
  have ho' := ho.trans hset
  let g : Control → Control := fun c => { c with stopping := true }
  have hctl : ∀ b, ((t.setAttempt a fun x => { x with stopping := true }).attempts b).toControl =
      if b = a then g (t.attempts a).toControl else (t.attempts b).toControl :=
    fun b => t.setAttempt_toControl a b (by intro _; rfl)
  have hself : ((t.setAttempt a fun x => { x with stopping := true }).attempts a).toControl =
      { (s.attempts a).toControl with stopping := true, doomed := d } := by
    rw [hctl, if_pos rfl, ha]
  have hrest : ∀ b, b ≠ a → ((t.setAttempt a fun x => { x with stopping := true }).attempts
      b).toControl = (s.attempts b).toControl := fun b hb => by
    rw [hctl, if_neg hb, hother b hb]
  obtain ⟨hans, howned, hunfin⟩ := h.cancelled ho'.toSameLinks hrest (by rw [hself])
  generalize hu : (t.setAttempt a fun x => { x with stopping := true }).cancelWaitsOf a = u
    at hans howned hunfin
  have hfin : ∃ e : Effects, t.stopAttempt a = { u with effects := e } ∧
      e.reacquires = u.effects.reacquires ∧ e.answered = u.effects.answered := by
    simp only [stopAttempt, hu]
    split
    · exact ⟨_, rfl, rfl, rfl⟩
    · exact ⟨_, rfl, rfl, rfl⟩
  obtain ⟨e, hstop, hreac, hansd⟩ := hfin
  rw [hstop]
  have hmoved := ho'.moved.trans hans.toMoved
  have hcu : ∀ b, (u.attempts b).toControl =
      if b = a then { (s.attempts a).toControl with stopping := true, doomed := d }
      else (s.attempts b).toControl := fun b => by
    rw [hans.control]
    split
    · subst b; exact hself
    · rename_i hb; exact hrest b hb
  have hctlOk : ∀ b, ControlOk (u.attempts b).toControl := fun b => by
    rw [hcu]
    split
    · exact (h.control a).stop hrun d
    · exact h.control b
  have hreacq : u.effects.reacquires = s.effects.reacquires := by
    rw [hans.effects, setAttempt_effects, heff]
  refine ⟨⟨hans.links.same ⟨fun _ => rfl, fun _ => rfl, fun _ => rfl, rfl, rfl⟩,
      fun w hw => ⟨(howned w hw).notDone, (howned w hw).alone, (howned w hw).owner⟩, hunfin,
      hctlOk, fun p b hp => ?_, ?_⟩,
    hmoved.withEffects hansd, ?_, ?_,
    fun b => ?_, fun b hb => ?_, hreac.trans hreacq,
    fun w hw => ?_⟩
  · have hp' : s.running p = some b := by
      have hr : u.running = s.running := hans.running.trans ho'.running
      rwa [← hr]
    obtain ⟨hphase, hout⟩ := h.running p b hp'
    show (u.attempts b).phase = _ ∧ (u.attempts b).output = _
    rw [hcu]
    split
    · subst b; exact ⟨hphase, hout⟩
    · exact ⟨hphase, hout⟩
  · have hrange := h.inRange.moved hmoved
      (fun b p hb => by rw [hcu] at hb; split at hb <;> simp_all)
      (fun b hb => by
        rw [hcu, if_neg]
        intro hba
        subst hba
        exact Nat.not_lt.mpr hb (h.inRange.lt_of_phase (by simp [hrun])))
    exact ⟨hrange.wait, hrange.target, hrange.predecessor, hrange.freshAttempt, hrange.freshWait⟩
  · apply accounted_of_control
    · intro b
      show (u.attempts b).permit = _ ∧ (u.attempts b).reacquireOutstanding = _
      rw [hcu]
      split
      · subst b; exact ⟨rfl, rfl⟩
      · exact ⟨rfl, rfl⟩
    · exact hreac.trans hreacq
    · intro b
      show u.calls.count _ = _
      rw [hans.calls, setAttempt_calls, hcalls]
  · show (u.attempts a).stopping = true
    rw [hcu, if_pos rfl]
  · show ∃ d, (u.attempts b).toControl =
      { (s.attempts b).toControl with stopping := (u.attempts b).stopping, doomed := d }
    rw [hcu]
    split
    · subst b; exact ⟨d, rfl⟩
    · exact ⟨_, rfl⟩
  · show (u.attempts b).toControl = _
    rw [hcu, if_neg hb]
  · have hnot := ((hans.waits w).mp hw).2
    show u.requests w = _
    rw [hans.others w hnot, ho'.requests]

theorem Inv.stopAttempt (h : Inv s) {a : AttemptId} (hrun : (s.attempts a).phase = .running) :
    Stopped s (s.stopAttempt a) a :=
  h.stopped (.refl s) hrun (fun _ _ => rfl) rfl rfl rfl

/-- What stopping any number of attempts does: only their waits are answered, each canceled, and no
attempt changes but in whether it is stopping and doomed. -/
structure Halted (s t : State) : Prop where
  inv : Inv t
  moved : ∃ ws : List WaitId, Moved s t (ws.map fun w => (w, canceled)) ∧
    ∀ w ∈ ws, ∀ r, (s.requests w).requester = some r → (t.attempts r).stopping = true
  accounted : Accounted s t
  only : ∀ b, ∃ st d, (t.attempts b).toControl =
    { (s.attempts b).toControl with stopping := st, doomed := d } ∧
      ((s.attempts b).stopping = true → st = true)
  reacquires : t.effects.reacquires = s.effects.reacquires
  left : ∀ w ∈ t.waits, t.requests w = s.requests w

theorem Halted.refl (h : Inv s) : Halted s s :=
  ⟨h, ⟨[], (OnlyControl.refl s).moved, by simp⟩, .refl s, fun _ => ⟨_, _, rfl, id⟩, rfl,
    fun _ _ => rfl⟩

theorem Halted.stopping (h : Halted s t) {b : AttemptId} (hb : (s.attempts b).stopping = true) :
    (t.attempts b).stopping = true := by
  obtain ⟨st, d, hc, hmono⟩ := h.only b
  rw [hc]
  exact hmono hb

theorem Halted.trans {u : State} (h : Halted s t) (h' : Halted t u) : Halted s u where
  inv := h'.inv
  moved := by
    obtain ⟨ws, hm, hws⟩ := h.moved
    obtain ⟨ws', hm', hws'⟩ := h'.moved
    refine ⟨ws ++ ws', by rw [List.map_append]; exact hm.trans hm', fun w hw r hr => ?_⟩
    obtain hw | hw := List.mem_append.mp hw
    · exact h'.stopping (hws w hw r hr)
    · exact hws' w hw r ((hm.requester w).trans hr)
  accounted := h.accounted.trans h'.accounted
  only b := by
    obtain ⟨st, d, hc, hmono⟩ := h.only b
    obtain ⟨st', d', hc', hmono'⟩ := h'.only b
    refine ⟨st', d', by rw [hc', hc], fun hs => hmono' ?_⟩
    rw [hc]
    exact hmono hs
  reacquires := h'.reacquires.trans h.reacquires
  left w hw := by
    obtain ⟨ws', hm', _⟩ := h'.moved
    rw [h'.left w hw]
    exact h.left w ((hm'.waits w).mp hw).1

theorem Stopped.halted {a : AttemptId} (h : Stopped s t a) (hs : Inv s) : Halted s t where
  inv := h.inv
  moved := by
    refine ⟨_, h.moved, fun w hw r hr => ?_⟩
    have hra : some r = some a := hr.symm.trans ((hs.links.byMe a w).mp hw).2
    rw [Option.some.inj hra]
    exact h.stopping
  accounted := h.accounted
  only b := by
    obtain ⟨d, hc⟩ := h.only b
    refine ⟨_, d, hc, fun hs => ?_⟩
    by_cases hba : b = a
    · subst hba; exact h.stopping
    · rw [h.others b hba]; exact hs
  reacquires := h.reacquires
  left := h.left

theorem Inv.doom (h : Inv s) (a : AttemptId) : Halted s (s.doom a) := by
  unfold State.doom
  split
  · rename_i hcond
    have hset := s.setAttempt_onlyControl a (f := fun x => { x with doomed := true })
      (by intro _; rfl) (by intro _; rfl) (by intro _; rfl)
    have hctl : ∀ b, ((s.setAttempt a fun x => { x with doomed := true }).attempts b).toControl =
        if b = a then { (s.attempts a).toControl with doomed := true }
        else (s.attempts b).toControl :=
      fun b => s.setAttempt_toControl a b (g := fun c => { c with doomed := true })
        (by intro _; rfl)
    exact (h.stopped hset hcond.1 (fun b hb => by rw [hctl, if_neg hb])
      (by rw [hctl, if_pos rfl]) rfl rfl).halted h
  · exact .refl h

/-- The loop of `wait` over a cycle. -/
theorem Inv.doomAll (h : Inv s) (cycle : List AttemptId) : Halted s (cycle.foldl State.doom s) := by
  induction cycle generalizing s with
  | nil => exact .refl h
  | cons a cycle ih =>
    have hone := h.doom a
    exact hone.trans (ih hone.inv)

theorem pushStopAttempt_halted (h : Inv s) (a : AttemptId) : Halted s (s.pushStopAttempt a) where
  inv := h.of_same (s.pushStopAttempt_onlyControl a).toSameLinks ⟨rfl, rfl⟩ rfl (fun _ => rfl)
  moved := ⟨[], (s.pushStopAttempt_onlyControl a).moved, by simp⟩
  accounted := accounted_of_control (fun _ => ⟨rfl, rfl⟩) rfl (fun _ => rfl)
  only _ := ⟨_, _, rfl, id⟩
  reacquires := rfl
  left _ _ := rfl

theorem Inv.onOuterStop (h : Inv s) (a : AttemptId) : Halted s.start (s.onOuterStop a) := by
  simp only [State.onOuterStop]
  split
  · rename_i hcond
    exact (h.start.stopAttempt hcond.1).halted h.start
  · exact pushStopAttempt_halted h.start a

/-- What ending an attempt does. -/
structure Finished (s t : State) (a : AttemptId) : Prop where
  inv : Inv t
  moved : Moved s t ((s.attempts a).waitsByMe.map fun w => (w, canceled))
  accounted : Accounted s t
  ended : (t.attempts a).phase = .ended ∧ (t.attempts a).stopping = true ∧
    (t.attempts a).permit = (s.attempts a).permit ∧ (t.attempts a).result = (s.attempts a).result ∧
    (t.attempts a).reacquireOutstanding = (s.attempts a).reacquireOutstanding
  others : ∀ b, b ≠ a → (t.attempts b).toControl = (s.attempts b).toControl
  reacquires : t.effects.reacquires = []
  left : ∀ w ∈ t.waits, t.requests w = s.requests w

theorem Inv.finish (h : Inv s) {a : AttemptId} (hrun : (s.attempts a).phase = .running) :
    Finished s.start (s.finish a) a := by
  let g : Control → Control := fun c => { c with phase := .ended, stopping := true }
  let s1 := s.start.setAttempt a fun x => { x with phase := .ended, stopping := true }
  let s2 : State := { s1 with running := Function.update s1.running (s1.attempts a).output none }
  have hset := s.start.setAttempt_onlyControl a
    (f := fun x => { x with phase := .ended, stopping := true })
    (by intro _; rfl) (by intro _; rfl) (by intro _; rfl)
  have hctl : ∀ b, (s2.attempts b).toControl =
      if b = a then g (s.attempts a).toControl else (s.attempts b).toControl :=
    fun b => s.start.setAttempt_toControl a b (f := fun x =>
      { x with phase := .ended, stopping := true }) (g := g) (by intro _; rfl)
  have hself : (s2.attempts a).toControl = g (s.attempts a).toControl := by rw [hctl, if_pos rfl]
  have hrest : ∀ b, b ≠ a → (s2.attempts b).toControl = (s.attempts b).toControl :=
    fun b hb => by rw [hctl, if_neg hb]
  have hsame : SameLinks s.start s2 := ⟨hset.byMe, hset.onMe, hset.edges, rfl, rfl⟩
  obtain ⟨hans, howned, hunfin⟩ := h.start.cancelled hsame hrest (by rw [hself]; rfl)
  generalize hu : s2.cancelWaitsOf a = u at hans howned hunfin
  have hmoved : Moved s.start u ((s.attempts a).waitsByMe.map fun w => (w, canceled)) := by
    have h2 : Moved s.start s2 [] :=
      ⟨⟨rfl, rfl⟩, List.nodup_nil, by simp, fun w => by simp [hsame.waits], fun w => rfl,
        fun w => rfl, fun w hw => hw, by simp, fun w _ => rfl, by simp [s2, s1]⟩
    exact h2.trans hans.toMoved
  have hcu : ∀ b, (u.attempts b).toControl =
      if b = a then g (s.attempts a).toControl else (s.attempts b).toControl := fun b => by
    rw [hans.control, hctl]
  have hlt : a < s.attemptCount := h.inRange.lt_of_phase (by simp [hrun])
  have hreac : u.effects.reacquires = [] := by rw [hans.effects]; rfl
  have hinv : Inv u := by
    refine ⟨hans.links, howned, hunfin, fun b => ?_, fun p b hp => ?_, ?_⟩
    · rw [hcu]
      split
      · have hc := h.control a
        exact ⟨hc.outstanding, fun hp => by simp [g] at hp,
          fun _ => hc.started (.inl hrun), fun _ => rfl⟩
      · exact h.control b
    · have hrun' : u.running = Function.update s.running (s.attempts a).output none := by
        rw [hans.running]
        show Function.update s.running (s2.attempts a).output none = _
        rw [hself]
      rw [hrun', Function.update_apply] at hp
      split at hp
      · simp at hp
      · rename_i hne
        obtain ⟨hphase, hout⟩ := h.running p b hp
        have hba : b ≠ a := fun hba => hne (by rw [← hout, hba])
        rw [hcu, if_neg hba]
        exact ⟨hphase, hout⟩
    · apply h.start.inRange.moved hmoved
      · intro b p hb
        rw [hcu] at hb
        split at hb
        · rename_i hba; subst hba; exact hb
        · exact hb
      · intro b hb
        have hba : b ≠ a := fun hba => Nat.not_lt.mpr hb (hba ▸ hlt)
        rw [hcu, if_neg hba]; rfl
  have hacc : Accounted s.start u := by
    apply accounted_of_control
    · intro b
      rw [hcu]
      split
      · subst b; exact ⟨rfl, rfl⟩
      · exact ⟨rfl, rfl⟩
    · rw [hreac]; rfl
    · intro b
      rw [hans.calls]; rfl
  have hleft : ∀ w ∈ u.waits, u.requests w = s.start.requests w := fun w hw => by
    have hnot := ((hans.waits w).mp hw).2
    rw [hans.others w hnot, hsame.requests]
  have hfin : s.finish a = if (u.attempts a).reacquireOutstanding then
      (u.setAttempt a fun x => { x with drain := true }).pushStopReacquire a
      else { u with effects := { u.effects with drains := u.effects.drains ++ [a] } } := by
    rw [← hu]; rfl
  rw [hfin]
  split
  · have hd := u.setAttempt_onlyControl a (f := fun x => { x with drain := true })
      (by intro _; rfl) (by intro _; rfl) (by intro _; rfl)
    have hdc : ∀ b, ((u.setAttempt a fun x => { x with drain := true }).attempts b).toControl =
        if b = a then { (u.attempts a).toControl with drain := true }
        else (u.attempts b).toControl :=
      fun b => u.setAttempt_toControl a b (g := fun c => { c with drain := true })
        (by intro _; rfl)
    have hp := (u.setAttempt a fun x => { x with drain := true }).pushStopReacquire_onlyControl a
    have hall := hd.trans hp
    have hdc' : ∀ b, (((u.setAttempt a fun x =>
        { x with drain := true }).pushStopReacquire a).attempts b).toControl =
        if b = a then { (u.attempts a).toControl with drain := true }
        else (u.attempts b).toControl := hdc
    refine ⟨?_, ?_, ?_, ?_, fun b hb => ?_, hreac,
      hleft⟩
    · apply hinv.of_control hall.toSameLinks hall.kept hall.running
      · intro w hw b hb
        have hown := (hinv.owned w hw).owner b hb
        have hba : b ≠ a := by
          intro hba
          have := hown.running
          rw [hcu, if_pos hba] at this
          simp [g] at this
        rw [hdc', if_neg hba]; exact hown
      · intro w hw hb
        have hnone := hinv.unfinished w hw hb
        rw [hdc']
        split
        · rename_i hta; rw [hta] at hnone; exact hnone
        · exact hnone
      · intro b
        rw [hdc']
        split
        · exact ⟨(hinv.control a).outstanding, (hinv.control a).unstarted,
            (hinv.control a).started, (hinv.control a).ended⟩
        · exact hinv.control b
      · intro b hb
        rw [hdc']
        split
        · rename_i hba; subst hba; exact ⟨hb, rfl⟩
        · exact ⟨hb, rfl⟩
      · intro b p hb
        rw [hdc'] at hb
        split at hb
        · rename_i hba; subst hba; exact hb
        · exact hb
      · intro b hb
        have hba : b ≠ a := fun hba => Nat.not_lt.mpr hb (by
          rw [hmoved.kept.attemptCount]; exact hba ▸ hlt)
        rw [hdc', if_neg hba]
    · have := hmoved.trans hall.moved
      rwa [List.append_nil] at this
    · refine hacc.trans (accounted_of_control (fun b => ?_) rfl (fun _ => rfl))
      rw [hdc']
      split
      · rename_i hba; subst hba; exact ⟨rfl, rfl⟩
      · exact ⟨rfl, rfl⟩
    · rw [hdc', if_pos rfl, hcu, if_pos rfl]
      exact ⟨rfl, rfl, rfl, rfl, rfl⟩
    · rw [hdc', if_neg hb, hcu, if_neg hb]; rfl
  · refine ⟨hinv.of_same ⟨fun _ => rfl, fun _ => rfl, fun _ => rfl, rfl, rfl⟩ ⟨rfl, rfl⟩ rfl
      (fun _ => rfl), hmoved.withEffects rfl, ?_, ?_, fun b hb => ?_, hreac,
      hleft⟩
    · exact hacc.trans (accounted_of_control (fun _ => ⟨rfl, rfl⟩) rfl (fun _ => rfl))
    · show (u.attempts a).phase = _ ∧ (u.attempts a).stopping = _ ∧ (u.attempts a).permit = _ ∧
        (u.attempts a).result = _ ∧ (u.attempts a).reacquireOutstanding = _
      rw [hcu, if_pos rfl]
      exact ⟨rfl, rfl, rfl, rfl, rfl⟩
    · show (u.attempts b).toControl = _
      rw [hcu, if_neg hb]; rfl

end State

end MakeBelieve.Coordinator
