import MakeBelieve.Coordinator.Runs

namespace MakeBelieve.Coordinator

open Library

namespace State

/-- No attempt starts or ends, none is drained, and none that is stopping takes its permit back. -/
structure Steady (s t : State) : Prop where
  phase : ∀ b, (t.attempts b).phase = (s.attempts b).phase
  drain : ∀ b, (t.attempts b).drain = (s.attempts b).drain
  drains : t.effects.drains = s.effects.drains
  outstanding : ∀ b, (t.attempts b).reacquireOutstanding = true →
    (s.attempts b).reacquireOutstanding = true ∨ (s.attempts b).stopping = false
  stopping : ∀ b, (s.attempts b).stopping = true → (t.attempts b).stopping = true

variable {s t u : State}

theorem Steady.trans (h : Steady s t) (h' : Steady t u) : Steady s u where
  phase b := (h'.phase b).trans (h.phase b)
  drain b := (h'.drain b).trans (h.drain b)
  drains := h'.drains.trans h.drains
  outstanding b hb := by
    obtain hout | hstop := h'.outstanding b hb
    · exact h.outstanding b hout
    · refine .inr ?_
      by_contra hs
      have := h.stopping b (by simpa using hs)
      rw [hstop] at this
      simp at this
  stopping b hb := h'.stopping b (h.stopping b hb)

theorem steady_of_control (hc : ∀ b, (t.attempts b).toControl = (s.attempts b).toControl)
    (hd : t.effects.drains = s.effects.drains) : Steady s t where
  phase b := by rw [hc]
  drain b := by rw [hc]
  drains := hd
  outstanding b hb := .inl (by rwa [hc] at hb)
  stopping b hb := by rwa [hc]

theorem Steady.refl (s : State) : Steady s s := steady_of_control (fun _ => rfl) rfl

/-- One attempt is changed, and its phase, its drain and its take-back are as they were. -/
theorem steady_setAttempt (s : State) (a : AttemptId) {f : Attempt → Attempt}
    (hf : ∀ x, (f x).phase = x.phase ∧ (f x).drain = x.drain ∧
      (f x).reacquireOutstanding = x.reacquireOutstanding ∧
      (x.stopping = true → (f x).stopping = true)) : Steady s (s.setAttempt a f) where
  phase := s.setAttempt_keep (fun x => x.phase) fun x => (hf x).1
  drain := s.setAttempt_keep (fun x => x.drain) fun x => (hf x).2.1
  drains := rfl
  outstanding b hb := by
    have hkeep := s.setAttempt_keep (fun x => x.reacquireOutstanding) (fun x => (hf x).2.2.1)
      (a := a) b
    exact .inl (hkeep.symm.trans hb)
  stopping b hb := by
    rw [setAttempt_attempts]
    split
    · subst b
      exact (hf _).2.2.2 hb
    · exact hb

theorem answer_steady (s : State) (w : WaitId) (e : ErrorCode) : Steady s (s.answer w e) :=
  steady_of_control (s.answer_toControl w e) (by simp)

theorem foldl_steady {α : Type*} {f : State → α → State} (hf : ∀ s x, Steady s (f s x))
    (l : List α) (s : State) : Steady s (l.foldl f s) := by
  induction l generalizing s with
  | nil => exact .refl s
  | cons x l ih => exact (hf s x).trans (ih (f s x))

theorem cancelWaitsOf_steady (s : State) (a : AttemptId) : Steady s (s.cancelWaitsOf a) :=
  foldl_steady (fun s w => s.answer_steady w canceled) _ s

theorem giveBack_steady (s : State) (a : AttemptId) : Steady s (s.giveBack a) := by
  have hset := s.steady_setAttempt a (f := fun x => { x with permit := .released })
    fun x => ⟨rfl, rfl, rfl, id⟩
  unfold giveBack
  dsimp only
  split
  · exact hset.trans (steady_of_control (fun _ => rfl) rfl)
  · exact hset

theorem giveBackIfWaiting_steady (s : State) (a : AttemptId) :
    Steady s (s.giveBackIfWaiting a) := by
  unfold giveBackIfWaiting
  split
  · exact s.giveBack_steady a
  · exact .refl s

theorem block_steady (s : State) (a : AttemptId) : Steady s (s.block a) := by
  unfold block
  split
  · exact s.giveBack_steady a
  · exact .refl s

/-- Only an attempt not stopping has its permit taken back for it. -/
theorem reacquire_steady {a : AttemptId} (ha : (s.attempts a).stopping = false) :
    Steady s (s.reacquire a) where
  phase b := by
    rw [reacquire_toControl]
    split
    · subst b; rfl
    · rfl
  drain b := by
    rw [reacquire_toControl]
    split
    · subst b; rfl
    · rfl
  drains := by simp
  outstanding b hb := by
    by_cases hba : b = a
    · exact .inr (hba ▸ ha)
    · rw [reacquire_toControl, if_neg hba] at hb
      exact .inl hb
  stopping b hb := by
    rw [reacquire_toControl]
    split
    · subst b; exact hb
    · exact hb

theorem ready_steady (s : State) (w : WaitId) (e : ErrorCode) : Steady s (s.ready w e) := by
  have hmake : ∀ (t : State) r, Steady t (t.makeReady w r e) := fun t r =>
    steady_of_control (t.makeReady_toControl w r e) (by simp)
  unfold ready
  split
  · exact s.answer_steady w e
  · next r _ =>
    split
    · exact s.answer_steady w canceled
    · next hstop =>
      split
      · exact (s.answer_steady w e).trans (giveBackIfWaiting_steady _ r)
      · exact (reacquire_steady (by simpa using hstop)).trans (hmake _ r)
      · exact hmake s r
      · exact s.answer_steady w canceled

theorem stopAttempt_steady (s : State) (a : AttemptId) : Steady s (s.stopAttempt a) := by
  have hset := s.steady_setAttempt a (f := fun x => { x with stopping := true })
    fun x => ⟨rfl, rfl, rfl, fun _ => rfl⟩
  have hall := hset.trans (cancelWaitsOf_steady _ a)
  unfold stopAttempt
  dsimp only
  split
  · exact hall.trans (steady_of_control (fun _ => rfl) rfl)
  · exact hall.trans (steady_of_control (fun _ => rfl) rfl)

theorem doom_steady (s : State) (a : AttemptId) : Steady s (s.doom a) := by
  unfold doom
  split
  · exact (s.steady_setAttempt a (f := fun x => { x with doomed := true })
      fun x => ⟨rfl, rfl, rfl, id⟩).trans (stopAttempt_steady _ a)
  · exact .refl s

theorem Hurried.steady (h : Hurried s t) : Steady s t := by
  have hkeep : ∀ b, (t.attempts b).phase = (s.attempts b).phase ∧
      (t.attempts b).drain = (s.attempts b).drain ∧
      (t.attempts b).reacquireOutstanding = (s.attempts b).reacquireOutstanding ∧
      (t.attempts b).stopping = (s.attempts b).stopping := by
    intro b
    obtain ⟨_, hb⟩ := h.control b
    rw [hb]
    exact ⟨rfl, rfl, rfl, rfl⟩
  exact ⟨fun b => (hkeep b).1, fun b => (hkeep b).2.1, by rw [h.effects],
    fun b hb => .inl ((hkeep b).2.2.1.symm.trans hb), fun b hb => (hkeep b).2.2.2.trans hb⟩

theorem enter_steady (s : State) (w : WaitId) (target : AttemptId) (q : Option AttemptId) :
    Steady s (s.enter w target q) := by
  refine steady_of_control (fun b => ?_) (by simp)
  rw [enter_attempts]

theorem suspend_steady (s : State) (later : AttemptId → List AttemptId) (w : WaitId)
    (target : AttemptId) (q : Option AttemptId) : Steady s (s.suspend later w target q) := by
  have henter := s.enter_steady w target q
  unfold suspend
  cases q with
  | none => exact henter.trans (hurry_spec _ target later).steady
  | some r =>
    dsimp only
    split
    · exact (henter.trans (hurry_spec _ target later).steady).trans (block_steady _ r)
    · exact henter.trans (block_steady _ r)

theorem wait_steady (s : State) (order later : AttemptId → List AttemptId) (target : AttemptId)
    (requester : Option Path) (stopRequested : Bool) :
    Steady s.start (s.wait order later target requester stopRequested).1 := by
  have hbefore : Steady s.start s.allotted :=
    steady_of_control (fun _ => rfl) rfl
  unfold State.wait
  dsimp only
  split
  · exact hbefore
  · split
    · exact hbefore
    · split
      · exact hbefore.trans (s.allotted.suspend_steady later s.waitCount target none)
      · next r _ =>
        split
        · exact hbefore
        · split
          · exact hbefore.trans (s.allotted.suspend_steady later s.waitCount target (some r))
          · exact hbefore.trans (foldl_steady (fun s a => s.doom_steady a) _ _)

theorem cancelWait_steady (s : State) (w : WaitId) : Steady s.start (s.cancelWait w) := by
  unfold cancelWait
  dsimp only
  split
  · exact .refl _
  · have hans := s.start.answer_steady w canceled
    split
    · exact hans
    · split
      · next hcond => exact hans.trans (reacquire_steady hcond.1)
      · exact hans

theorem complete_steady (s : State) (a : AttemptId) (e : ErrorCode) :
    Steady s.start (s.complete a e) :=
  (s.start.steady_setAttempt a (f := fun x => { x with result := some e, predecessor := none })
    fun _ => ⟨rfl, rfl, rfl, id⟩).trans (foldl_steady (fun s w => s.ready_steady w e) _ _)

theorem onOuterStop_steady (s : State) (a : AttemptId) : Steady s.start (s.onOuterStop a) := by
  unfold onOuterStop
  dsimp only
  split
  · exact s.start.stopAttempt_steady a
  · exact steady_of_control (fun _ => rfl) rfl

/-- Ending an attempt drains it at once, or once its take-back is answered. -/
theorem finish_ends (s : State) (a : AttemptId) :
    (∀ b, b ≠ a → ((s.finish a).attempts b).phase = (s.attempts b).phase ∧
      ((s.finish a).attempts b).drain = (s.attempts b).drain) ∧
    ((s.finish a).attempts a).phase = .ended ∧
    (((s.finish a).attempts a).drain = true ∧ (s.finish a).effects.drains = [] ∧
        ((s.finish a).attempts a).reacquireOutstanding = true ∨
      ((s.finish a).attempts a).drain = (s.attempts a).drain ∧
        (s.finish a).effects.drains = [a] ∧
        ((s.finish a).attempts a).reacquireOutstanding = false) := by
  let s1 := s.start.setAttempt a fun x => { x with phase := .ended, stopping := true }
  let s2 : State := { s1 with running := Function.update s1.running (s1.attempts a).output none }
  let u := s2.cancelWaitsOf a
  have hu : Steady s2 u := cancelWaitsOf_steady s2 a
  have hself : (s2.attempts a) = { s.attempts a with phase := .ended, stopping := true } := by
    show Function.update s.attempts a _ a = _
    rw [Function.update_self]
    rfl
  have hother : ∀ b, b ≠ a → s2.attempts b = s.attempts b := fun b hb =>
    Function.update_of_ne hb ..
  have hdrains : u.effects.drains = [] := hu.drains
  have hfin : s.finish a = if (u.attempts a).reacquireOutstanding then
      (u.setAttempt a fun x => { x with drain := true }).pushStopReacquire a
      else { u with effects := { u.effects with drains := u.effects.drains ++ [a] } } := rfl
  rw [hfin]
  split
  · next hout =>
    have hat : ∀ b, (((u.setAttempt a fun x => { x with drain := true }).pushStopReacquire a).attempts b) =
        if b = a then { u.attempts a with drain := true } else u.attempts b := by
      intro b
      show (u.setAttempt a fun x => { x with drain := true }).attempts b = _
      exact setAttempt_attempts ..
    refine ⟨fun b hb => ?_, ?_, .inl ⟨?_, hdrains, ?_⟩⟩
    · rw [hat, if_neg hb, hu.phase, hu.drain, hother b hb]
      exact ⟨rfl, rfl⟩
    · rw [hat, if_pos rfl]
      show (u.attempts a).phase = _
      rw [hu.phase, hself]
    · rw [hat, if_pos rfl]
    · rw [hat, if_pos rfl]
      exact hout
  · next hout =>
    refine ⟨fun b hb => ?_, ?_, .inr ⟨?_, ?_, ?_⟩⟩
    · show (u.attempts b).phase = _ ∧ (u.attempts b).drain = _
      rw [hu.phase, hu.drain, hother b hb]
      exact ⟨rfl, rfl⟩
    · show (u.attempts a).phase = _
      rw [hu.phase, hself]
    · show (u.attempts a).drain = _
      rw [hu.drain, hself]
    · show u.effects.drains ++ [a] = _
      rw [hdrains]
      rfl
    · show (u.attempts a).reacquireOutstanding = false
      simpa using hout

/-- The answer to a take-back drains an attempt that has ended. -/
theorem onReacquired_drains (s : State) (a : AttemptId) (granted : Bool) :
    (∀ b, ((s.onReacquired a granted).attempts b).phase = (s.attempts b).phase ∧
      (b ≠ a → ((s.onReacquired a granted).attempts b).drain = (s.attempts b).drain ∧
        (((s.onReacquired a granted).attempts b).reacquireOutstanding = true →
          (s.attempts b).reacquireOutstanding = true ∨ (s.attempts b).stopping = false))) ∧
    ((s.onReacquired a granted).attempts a).drain = false ∧
    ((s.attempts a).stopping = true →
      ((s.onReacquired a granted).attempts a).reacquireOutstanding = false) ∧
    (s.onReacquired a granted).effects.drains = if (s.attempts a).drain then [a] else [] := by
  let s1 := s.start.setAttempt a fun x =>
    { x with reacquireOutstanding := false, permit := if granted then .held else .released }
  let s2 := (s1.attempts a).waitsByMe.foldl (fun s w => s.answerReady a granted w) s1
  let u := s2.giveBackIfWaiting a
  have hself : s1.attempts a = { s.attempts a with
      reacquireOutstanding := false, permit := if granted then .held else .released } := by
    show Function.update s.attempts a _ a = _
    rw [Function.update_self]
    rfl
  have hother : ∀ b, b ≠ a → s1.attempts b = s.attempts b := fun b hb =>
    Function.update_of_ne hb ..
  have hu : Steady s1 u := by
    refine Steady.trans (foldl_steady (fun t w => ?_) _ _) (giveBackIfWaiting_steady _ a)
    unfold answerReady
    split
    · exact t.answer_steady w _
    · exact .refl t
  have hphase : ∀ b, (u.attempts b).phase = (s.attempts b).phase := by
    intro b
    rw [hu.phase]
    by_cases hb : b = a
    · rw [hb, hself]
    · rw [hother b hb]
  have hdrain : ∀ b, (u.attempts b).drain = (s.attempts b).drain := by
    intro b
    rw [hu.drain]
    by_cases hb : b = a
    · rw [hb, hself]
    · rw [hother b hb]
  have hdrains : u.effects.drains = [] := hu.drains
  have hout : (s.attempts a).stopping = true → (u.attempts a).reacquireOutstanding = false := by
    intro hstop
    by_contra ho
    obtain hs1 | hs1 := hu.outstanding a (by simpa using ho)
    · rw [hself] at hs1
      simp at hs1
    · rw [hself, hstop] at hs1
      simp at hs1
  have hothers : ∀ b, b ≠ a → (u.attempts b).reacquireOutstanding = true →
      (s.attempts b).reacquireOutstanding = true ∨ (s.attempts b).stopping = false := by
    intro b hb ho
    have := hu.outstanding b ho
    rwa [hother b hb] at this
  have hdef : s.onReacquired a granted = if (u.attempts a).drain then
      { u.setAttempt a fun x => { x with drain := false } with
        effects := { u.effects with drains := u.effects.drains ++ [a] } } else u := rfl
  rw [hdef, hdrain a]
  split
  · next hd =>
    have hat : ∀ b, (u.setAttempt a fun x => { x with drain := false }).attempts b =
        if b = a then { u.attempts a with drain := false } else u.attempts b := by
      intro b
      exact setAttempt_attempts ..
    refine ⟨fun b => ⟨?_, fun hb => ?_⟩, ?_, fun hstop => ?_, ?_⟩
    · show ((u.setAttempt a fun x => { x with drain := false }).attempts b).phase = _
      rw [hat]
      split
      · subst b; exact hphase a
      · exact hphase b
    · show ((u.setAttempt a fun x => { x with drain := false }).attempts b).drain = _ ∧
        (((u.setAttempt a fun x => { x with drain := false }).attempts b).reacquireOutstanding =
          true → _)
      rw [hat, if_neg hb]
      exact ⟨hdrain b, hothers b hb⟩
    · show ((u.setAttempt a fun x => { x with drain := false }).attempts a).drain = _
      rw [hat, if_pos rfl]
    · show ((u.setAttempt a fun x => { x with drain := false }).attempts a).reacquireOutstanding = _
      rw [hat, if_pos rfl]
      exact hout hstop
    · show u.effects.drains ++ [a] = _
      rw [hdrains]
      rfl
  · next hd =>
    exact ⟨fun b => ⟨hphase b, fun hb => ⟨hdrain b, hothers b hb⟩⟩, by rw [hdrain]; simpa using hd, hout, hdrains⟩

end State

/-- The attempts an event may start, end or drain. -/
def Event.subject : Event → Option AttemptId
  | .run a => some a
  | .onPermit a => some a
  | .onReacquired a _ => some a
  | .finish a => some a
  | _ => none

/-- Permits an event takes for an attempt, and take-backs of its it answers. -/
def Event.taken (a : AttemptId) : Event → Nat
  | .onPermit b => if b = a then 1 else 0
  | .onReacquired b granted => if b = a ∧ granted = true then 1 else 0
  | _ => 0

def Event.answered (a : AttemptId) : Event → Nat
  | .onReacquired b _ => if b = a then 1 else 0
  | _ => 0

theorem holds_released_count {a : AttemptId} {held held' : Bool} {calls : List PermitCall}
    (h : holds a held (calls.filterMap PermitCall.lease?) = some held') :
    calls.count (.release a) + held'.toNat = held.toNat := by
  induction calls generalizing held with
  | nil =>
    obtain rfl : held = held' := by simpa [holds] using h
    simp
  | cons c calls ih =>
    cases c with
    | promote b =>
      rw [List.filterMap_cons_none rfl] at h
      rw [List.count_cons_of_ne (by simp)]
      exact ih h
    | release b =>
      rw [List.filterMap_cons_some (f := PermitCall.lease?) rfl, holds] at h
      by_cases hb : b = a
      · subst hb
        rw [if_pos rfl] at h
        cases held with
        | false => simp at h
        | true =>
          have hrest := ih h
          rw [List.count_cons_self]
          have h0 : Bool.toNat false = 0 := rfl
          have h1 : Bool.toNat true = 1 := rfl
          omega
      · rw [if_neg hb] at h
        rw [List.count_cons_of_ne (by simpa using hb)]
        exact ih h

namespace System

variable {s : System} {e : Event}

/-- What a transition leaves of an attempt it is not about: no start, end or drain, and no take-back
if it is stopping. -/
structure Calm (s t : State) (b : AttemptId) : Prop where
  phase : (t.attempts b).phase = (s.attempts b).phase
  drain : (t.attempts b).drain = (s.attempts b).drain
  drains : t.effects.drains.count b = 0
  outstanding : (t.attempts b).reacquireOutstanding = true →
    (s.attempts b).reacquireOutstanding = true ∨ (s.attempts b).stopping = false

theorem calm_of_steady {c t : State} (h : State.Steady c.start t) (b : AttemptId) : Calm c t b :=
  ⟨h.phase b, h.drain b, by rw [h.drains]; rfl, h.outstanding b⟩

theorem calm_of_control {c t : State} {b : AttemptId}
    (h : (t.attempts b).toControl = (c.attempts b).toControl)
    (hd : t.effects.drains.count b = 0) : Calm c t b :=
  ⟨by rw [h], by rw [h], hd, fun ho => .inl (by rwa [h] at ho)⟩

theorem Sound.calm (h : Sound s) (he : s.enabled e) {b : AttemptId} (hb : e.subject ≠ some b)
    (hdrain : (s.coord.attempts b).drain = true → (s.coord.attempts b).phase = .ended) :
    Calm s.coord (s.step e).coord b := by
  cases e with
  | createAttempt output predecessor =>
    have hc := h.inv.createAttempt output he
    have hd : (s.coord.createAttempt output predecessor).effects.drains.count b = 0 := by
      rw [hc.effects]
      rfl
    by_cases hba : b = s.coord.attemptCount
    · obtain ⟨o, p, hself, _⟩ := hc.self
      rw [← hba] at hself
      have hpending := h.inv.inRange.freshAttempt b (Nat.le_of_eq hba.symm)
      have hnot : (s.coord.attempts b).drain = false := by
        by_contra hdr
        have := hdrain (by simpa using hdr)
        rw [hpending] at this
        simp at this
      refine ⟨?_, ?_, hd, fun ho => ?_⟩
      · show ((s.coord.createAttempt output predecessor).attempts b).phase = _
        rw [hself, hpending]
      · show ((s.coord.createAttempt output predecessor).attempts b).drain = _
        rw [hself, hnot]
      · have ho' : ((s.coord.createAttempt output predecessor).attempts b).reacquireOutstanding =
          true := ho
        rw [hself] at ho'
        simp at ho'
    · exact calm_of_control (hc.others b hba) hd
  | run a =>
    have hba : b ≠ a := fun heq => hb (heq ▸ rfl)
    have hsame : (s.coord.run a).attempts b = s.coord.attempts b := Function.update_of_ne hba ..
    exact calm_of_control (congrArg Attempt.toControl hsame) rfl
  | onPermit a =>
    have hba : b ≠ a := fun heq => hb (heq ▸ rfl)
    have hp := h.inv.onPermit he
    refine calm_of_control (hp.others b hba) ?_
    show (s.coord.onPermit a).effects.drains.count b = 0
    rw [hp.effects]
    rfl
  | wait order later target requester stopRequested =>
    exact calm_of_steady (s.coord.wait_steady order later target requester stopRequested) b
  | cancelWait w => exact calm_of_steady (s.coord.cancelWait_steady w) b
  | complete a result => exact calm_of_steady (s.coord.complete_steady a result) b
  | onReacquired a granted =>
    have hba : b ≠ a := fun heq => hb (heq ▸ rfl)
    obtain ⟨hall, _, _, hdrains⟩ := s.coord.onReacquired_drains a granted
    refine ⟨(hall b).1, ((hall b).2 hba).1, ?_, ((hall b).2 hba).2⟩
    show (s.coord.onReacquired a granted).effects.drains.count b = 0
    rw [hdrains]
    split
    · simp [Ne.symm hba]
    · rfl
  | onOuterStop a => exact calm_of_steady (s.coord.onOuterStop_steady a) b
  | finish a =>
    have hba : b ≠ a := fun heq => hb (heq ▸ rfl)
    obtain ⟨_, _, hends⟩ := s.coord.finish_ends a
    refine calm_of_control ((h.inv.finish he).others b hba) ?_
    show (s.coord.finish a).effects.drains.count b = 0
    obtain ⟨_, hd, _⟩ | ⟨_, hd, _⟩ := hends
    · rw [hd]
      rfl
    · rw [hd]
      simp [Ne.symm hba]

/-- A permit gone from an attempt has been given back through its lease, as often as it went. -/
theorem Sound.released_count (h : Sound s) (he : s.enabled e) (a : AttemptId) :
    (s.step e).coord.calls.count (.release a) +
        (decide (((s.step e).coord.attempts a).permit = .held)).toNat =
      (decide ((s.coord.attempts a).permit = .held)).toNat + e.taken a := by
  have hledger : ∃ taken : Option AttemptId, e.taken a = (decide (taken = some a)).toNat ∧
      (s.step e).leases = s.leases ++ (taken.toList.map LeaseCall.taken ++
        (s.step e).coord.calls.filterMap PermitCall.lease?) := by
    cases e with
    | onPermit b => exact ⟨some b, by by_cases hb : b = a <;> simp [Event.taken, hb],
        List.append_assoc ..⟩
    | onReacquired b granted =>
      cases granted with
      | true => exact ⟨some b, by by_cases hb : b = a <;> simp [Event.taken, hb],
          List.append_assoc ..⟩
      | false => exact ⟨none, by simp [Event.taken], List.append_assoc ..⟩
    | _ => exact ⟨none, by simp [Event.taken], rfl⟩
  obtain ⟨taken, htaken, hleases⟩ := hledger
  have hafter := (h.step he).leases a
  rw [hleases, holds_append, h.leases a, Option.bind_some, holds_append] at hafter
  rw [htaken]
  cases taken with
  | none => exact holds_released_count hafter
  | some b =>
    by_cases hb : b = a
    · subst hb
      have hnot : decide ((s.coord.attempts b).permit = .held) = false := by
        by_contra hheld
        simp [holds, (by simpa using hheld : decide ((s.coord.attempts b).permit = .held) = true)]
          at hafter
      rw [hnot] at hafter ⊢
      simp [holds] at hafter
      have hcount := holds_released_count hafter
      simpa using hcount
    · simp [holds, hb] at hafter
      have hcount := holds_released_count hafter
      simpa [hb] using hcount

/-- A take-back started is outstanding until it is answered. -/
theorem Sound.outstanding_count (h : Sound s) (he : s.enabled e) (a : AttemptId) :
    ((s.step e).coord.attempts a).reacquireOutstanding.toNat + e.answered a =
      (s.coord.attempts a).reacquireOutstanding.toNat +
        (s.step e).coord.effects.reacquires.count a := by
  rw [← h.takeBacks a, ← (h.step he).takeBacks a]
  cases e with
  | onReacquired b granted =>
    show (s.takeBacks.erase b ++ _).count a + _ = s.takeBacks.count a +
      (s.coord.onReacquired b granted).effects.reacquires.count a
    rw [List.count_append]
    have hpos : 0 < s.takeBacks.count b := List.count_pos_iff.mpr he
    by_cases hb : b = a
    · subst hb
      rw [List.count_erase_self]
      simp only [Event.answered, if_pos]
      omega
    · rw [List.count_erase_of_ne (Ne.symm hb)]
      simp [Event.answered, hb]
  | _ =>
    show (s.takeBacks ++ _).count a + 0 = _
    rw [List.count_append]
    rfl

end System

end MakeBelieve.Coordinator
