import MakeBelieve.Coordinator.Transitions

namespace MakeBelieve.Coordinator.State

variable (s : State)

theorem setAttempt_attempts (a b : AttemptId) (f : Attempt → Attempt) :
    (s.setAttempt a f).attempts b = if b = a then f (s.attempts a) else s.attempts b :=
  Function.update_apply ..

theorem setWait_requests (w v : WaitId) (f : Wait → Wait) :
    (s.setWait w f).requests v = if v = w then f (s.requests w) else s.requests v :=
  Function.update_apply ..

section

variable (a b : AttemptId) (w : WaitId) (f : Attempt → Attempt) (g : Wait → Wait)

@[simp] theorem start_attempts : s.start.attempts = s.attempts := rfl
@[simp] theorem start_requests : s.start.requests = s.requests := rfl
@[simp] theorem start_waits : s.start.waits = s.waits := rfl
@[simp] theorem start_running : s.start.running = s.running := rfl
@[simp] theorem start_attemptCount : s.start.attemptCount = s.attemptCount := rfl
@[simp] theorem start_waitCount : s.start.waitCount = s.waitCount := rfl
@[simp] theorem setAttempt_requests : (s.setAttempt a f).requests = s.requests := rfl
@[simp] theorem setAttempt_waits : (s.setAttempt a f).waits = s.waits := rfl
@[simp] theorem setAttempt_running : (s.setAttempt a f).running = s.running := rfl
@[simp] theorem setAttempt_attemptCount : (s.setAttempt a f).attemptCount = s.attemptCount := rfl
@[simp] theorem setAttempt_waitCount : (s.setAttempt a f).waitCount = s.waitCount := rfl
@[simp] theorem setAttempt_effects : (s.setAttempt a f).effects = s.effects := rfl
@[simp] theorem setAttempt_calls : (s.setAttempt a f).calls = s.calls := rfl
@[simp] theorem setWait_attempts : (s.setWait w g).attempts = s.attempts := rfl
@[simp] theorem setWait_waits : (s.setWait w g).waits = s.waits := rfl
@[simp] theorem setWait_running : (s.setWait w g).running = s.running := rfl
@[simp] theorem setWait_attemptCount : (s.setWait w g).attemptCount = s.attemptCount := rfl
@[simp] theorem setWait_waitCount : (s.setWait w g).waitCount = s.waitCount := rfl
@[simp] theorem setWait_effects : (s.setWait w g).effects = s.effects := rfl
@[simp] theorem setWait_calls : (s.setWait w g).calls = s.calls := rfl

end

/-- What stays as it was in every transition that makes no attempt and no wait. -/
structure Kept (s t : State) : Prop where
  attemptCount : t.attemptCount = s.attemptCount
  waitCount : t.waitCount = s.waitCount

theorem Kept.refl : Kept s s := ⟨rfl, rfl⟩

variable {s}

theorem Kept.trans {t u : State} (h : Kept s t) (h' : Kept t u) : Kept s u :=
  ⟨h'.attemptCount.trans h.attemptCount, h'.waitCount.trans h.waitCount⟩

variable (s)

/-- A projection the change leaves alone is the same for every attempt. -/
theorem setAttempt_keep {β : Type*} (π : Attempt → β) {a : AttemptId} {f : Attempt → Attempt}
    (hf : ∀ x, π (f x) = π x) (b : AttemptId) :
    π ((s.setAttempt a f).attempts b) = π (s.attempts b) := by
  rw [setAttempt_attempts]
  split
  · subst b; exact hf _
  · rfl

section removeEdge

variable (a b c : AttemptId)

@[simp] theorem removeEdge_toControl :
    ((s.removeEdge a b).attempts c).toControl = (s.attempts c).toControl :=
  s.setAttempt_keep Attempt.toControl (by intro _; rfl) c

@[simp] theorem removeEdge_waitsByMe :
    ((s.removeEdge a b).attempts c).waitsByMe = (s.attempts c).waitsByMe :=
  s.setAttempt_keep Attempt.waitsByMe (by intro _; rfl) c

@[simp] theorem removeEdge_waitsOnMe :
    ((s.removeEdge a b).attempts c).waitsOnMe = (s.attempts c).waitsOnMe :=
  s.setAttempt_keep Attempt.waitsOnMe (by intro _; rfl) c

theorem removeEdge_edgesOut (d : AttemptId) :
    ((s.removeEdge a b).attempts c).edgesOut d =
      if c = a ∧ d = b then decrement ((s.attempts a).edgesOut b) else (s.attempts c).edgesOut d := by
  simp only [removeEdge, setAttempt_attempts]
  by_cases hc : c = a
  · subst hc; simp [Function.update_apply]
  · simp [hc]

@[simp] theorem removeEdge_requests : (s.removeEdge a b).requests = s.requests := rfl
@[simp] theorem removeEdge_waits : (s.removeEdge a b).waits = s.waits := rfl
@[simp] theorem removeEdge_effects : (s.removeEdge a b).effects = s.effects := rfl
@[simp] theorem removeEdge_calls : (s.removeEdge a b).calls = s.calls := rfl

@[simp] theorem removeEdge_running : (s.removeEdge a b).running = s.running := rfl

theorem removeEdge_kept : Kept s (s.removeEdge a b) := ⟨rfl, rfl⟩

end removeEdge

section unlink

variable (w : WaitId) (a : AttemptId)

@[simp] theorem unlink_toControl : ((s.unlink w).attempts a).toControl = (s.attempts a).toControl := by
  cases hr : (s.requests w).requester with
  | none => simp only [unlink, hr]; exact s.setAttempt_keep Attempt.toControl (by intro _; rfl) a
  | some r =>
    simp only [unlink, hr]
    exact (setAttempt_keep _ Attempt.toControl (by intro _; rfl) a).trans
      (s.setAttempt_keep Attempt.toControl (by intro _; rfl) a)

@[simp] theorem unlink_edgesOut : ((s.unlink w).attempts a).edgesOut = (s.attempts a).edgesOut := by
  cases hr : (s.requests w).requester with
  | none => simp only [unlink, hr]; exact s.setAttempt_keep Attempt.edgesOut (by intro _; rfl) a
  | some r =>
    simp only [unlink, hr]
    exact (setAttempt_keep _ Attempt.edgesOut (by intro _; rfl) a).trans
      (s.setAttempt_keep Attempt.edgesOut (by intro _; rfl) a)

theorem unlink_waitsByMe :
    ((s.unlink w).attempts a).waitsByMe =
      if (s.requests w).requester = some a then (s.attempts a).waitsByMe.erase w
      else (s.attempts a).waitsByMe := by
  cases hr : (s.requests w).requester with
  | none => simpa [unlink, hr] using s.setAttempt_keep Attempt.waitsByMe (by intro _; rfl) a
  | some r =>
    simp only [unlink, hr]
    refine (setAttempt_keep _ Attempt.waitsByMe (by intro _; rfl) a).trans ?_
    by_cases ha : a = r
    · subst ha; simp [setAttempt_attempts]
    · simp [setAttempt_attempts, ha, Ne.symm ha]

theorem unlink_waitsOnMe :
    ((s.unlink w).attempts a).waitsOnMe =
      if (s.requests w).target = a then (s.attempts a).waitsOnMe.erase w
      else (s.attempts a).waitsOnMe := by
  have hchange : ∀ t : State, ((t.setAttempt (s.requests w).target fun x =>
      { x with waitsOnMe := x.waitsOnMe.erase w }).attempts a).waitsOnMe =
        if (s.requests w).target = a then (t.attempts a).waitsOnMe.erase w
        else (t.attempts a).waitsOnMe := by
    intro t
    by_cases ha : a = (s.requests w).target
    · subst ha; simp [setAttempt_attempts]
    · simp [setAttempt_attempts, ha, Ne.symm ha]
  cases hr : (s.requests w).requester with
  | none => simp only [unlink, hr]; exact hchange s
  | some r =>
    simp only [unlink, hr]
    refine (hchange _).trans ?_
    have hkeep := s.setAttempt_keep Attempt.waitsOnMe (a := r)
      (f := fun x => { x with waitsByMe := x.waitsByMe.erase w }) (by intro _; rfl) a
    rw [hkeep]

@[simp] theorem unlink_requests : (s.unlink w).requests = s.requests := by
  cases hr : (s.requests w).requester <;> simp only [unlink, hr] <;> rfl

@[simp] theorem unlink_waits : (s.unlink w).waits = s.waits.erase w := by
  cases hr : (s.requests w).requester <;> simp only [unlink, hr, setAttempt_waits]

@[simp] theorem unlink_effects : (s.unlink w).effects = s.effects := by
  cases hr : (s.requests w).requester <;> simp only [unlink, hr] <;> rfl

@[simp] theorem unlink_calls : (s.unlink w).calls = s.calls := by
  cases hr : (s.requests w).requester <;> simp only [unlink, hr] <;> rfl

@[simp] theorem unlink_running : (s.unlink w).running = s.running := by
  cases hr : (s.requests w).requester <;> simp only [unlink, hr] <;> rfl

theorem unlink_kept : Kept s (s.unlink w) := by
  cases hr : (s.requests w).requester <;> simp only [unlink, hr] <;> exact ⟨rfl, rfl⟩

end unlink

section answer

variable (w : WaitId) (e : ErrorCode) (a : AttemptId)

/-- The edge a blocked wait stands for, gone with it. -/
def dropEdge (w : WaitId) : State :=
  match (s.requests w).requester with
  | none => s
  | some r => if (s.requests w).state = .blocked then s.removeEdge r (s.requests w).target else s

theorem answer_eq : s.answer w e =
    let t := ((s.dropEdge w).unlink w).setWait w fun x => { x with result := e, state := .done }
    { t with effects := { t.effects with answered := t.effects.answered ++ [w] } } := rfl

theorem dropEdge_cases :
    s.dropEdge w = s ∧ ¬((s.requests w).state = .blocked ∧ ∃ r, (s.requests w).requester = some r) ∨
    ∃ r, (s.requests w).requester = some r ∧ (s.requests w).state = .blocked ∧
      s.dropEdge w = s.removeEdge r (s.requests w).target := by
  cases hr : (s.requests w).requester with
  | none => exact .inl ⟨by simp [dropEdge, hr], by simp⟩
  | some r =>
    by_cases hb : (s.requests w).state = .blocked
    · exact .inr ⟨r, rfl, hb, by simp [dropEdge, hr, hb]⟩
    · exact .inl ⟨by simp [dropEdge, hr, hb], by simp [hb]⟩

@[simp] theorem dropEdge_toControl :
    ((s.dropEdge w).attempts a).toControl = (s.attempts a).toControl := by
  rcases s.dropEdge_cases w with ⟨h, _⟩ | ⟨r, _, _, h⟩ <;> simp [h]

@[simp] theorem dropEdge_waitsByMe :
    ((s.dropEdge w).attempts a).waitsByMe = (s.attempts a).waitsByMe := by
  rcases s.dropEdge_cases w with ⟨h, _⟩ | ⟨r, _, _, h⟩ <;> simp [h]

@[simp] theorem dropEdge_waitsOnMe :
    ((s.dropEdge w).attempts a).waitsOnMe = (s.attempts a).waitsOnMe := by
  rcases s.dropEdge_cases w with ⟨h, _⟩ | ⟨r, _, _, h⟩ <;> simp [h]

@[simp] theorem dropEdge_requests : (s.dropEdge w).requests = s.requests := by
  rcases s.dropEdge_cases w with ⟨h, _⟩ | ⟨r, _, _, h⟩ <;> simp [h]

@[simp] theorem dropEdge_waits : (s.dropEdge w).waits = s.waits := by
  rcases s.dropEdge_cases w with ⟨h, _⟩ | ⟨r, _, _, h⟩ <;> simp [h]

@[simp] theorem dropEdge_effects : (s.dropEdge w).effects = s.effects := by
  rcases s.dropEdge_cases w with ⟨h, _⟩ | ⟨r, _, _, h⟩ <;> simp [h]

@[simp] theorem dropEdge_calls : (s.dropEdge w).calls = s.calls := by
  rcases s.dropEdge_cases w with ⟨h, _⟩ | ⟨r, _, _, h⟩ <;> simp [h]

@[simp] theorem dropEdge_running : (s.dropEdge w).running = s.running := by
  rcases s.dropEdge_cases w with ⟨h, _⟩ | ⟨r, _, _, h⟩ <;> simp [h]

theorem dropEdge_kept : Kept s (s.dropEdge w) := by
  rcases s.dropEdge_cases w with ⟨h, _⟩ | ⟨r, _, _, h⟩
  · rw [h]; exact .refl s
  · rw [h]; exact s.removeEdge_kept _ _

@[simp] theorem answer_toControl :
    ((s.answer w e).attempts a).toControl = (s.attempts a).toControl := by
  simp [answer_eq]

theorem answer_waitsByMe :
    ((s.answer w e).attempts a).waitsByMe =
      if (s.requests w).requester = some a then (s.attempts a).waitsByMe.erase w
      else (s.attempts a).waitsByMe := by
  simp [answer_eq, unlink_waitsByMe]

theorem answer_waitsOnMe :
    ((s.answer w e).attempts a).waitsOnMe =
      if (s.requests w).target = a then (s.attempts a).waitsOnMe.erase w
      else (s.attempts a).waitsOnMe := by
  simp [answer_eq, unlink_waitsOnMe]

theorem answer_edgesOut (b : AttemptId) :
    ((s.answer w e).attempts a).edgesOut b =
      if (s.requests w).state = .blocked ∧ (s.requests w).requester = some a ∧
          (s.requests w).target = b then
        decrement ((s.attempts a).edgesOut b)
      else (s.attempts a).edgesOut b := by
  rcases s.dropEdge_cases w with ⟨h, hnot⟩ | ⟨r, hr, hb, h⟩
  · have hno : ¬((s.requests w).state = .blocked ∧ (s.requests w).requester = some a ∧
        (s.requests w).target = b) := fun hc => hnot ⟨hc.1, a, hc.2.1⟩
    simp [answer_eq, h, hno]
  · simp only [answer_eq, h, setWait_attempts, unlink_edgesOut, removeEdge_edgesOut, hb, hr,
      Option.some.injEq, true_and]
    by_cases har : a = r
    · subst har
      by_cases hbt : b = (s.requests w).target
      · subst hbt; simp
      · simp [hbt, Ne.symm hbt]
    · simp [har, Ne.symm har]

theorem answer_requests (v : WaitId) :
    (s.answer w e).requests v =
      if v = w then { s.requests w with result := e, state := .done } else s.requests v := by
  simp [answer_eq, setWait_requests]

@[simp] theorem answer_waits : (s.answer w e).waits = s.waits.erase w := by
  simp [answer_eq]

@[simp] theorem answer_effects : (s.answer w e).effects =
    { s.effects with answered := s.effects.answered ++ [w] } := by
  simp [answer_eq]

@[simp] theorem answer_calls : (s.answer w e).calls = s.calls := by
  simp [answer_eq]

@[simp] theorem answer_running : (s.answer w e).running = s.running := by
  simp [answer_eq]

theorem answer_kept : Kept s (s.answer w e) := by
  have h := (s.dropEdge_kept w).trans ((s.dropEdge w).unlink_kept w)
  exact ⟨h.attemptCount, h.waitCount⟩

end answer

section makeReady

variable (w : WaitId) (r : AttemptId) (e : ErrorCode) (a : AttemptId)

@[simp] theorem makeReady_toControl :
    ((s.makeReady w r e).attempts a).toControl = (s.attempts a).toControl := by
  simp only [makeReady, setWait_attempts]
  exact (setAttempt_keep _ Attempt.toControl (by intro _; rfl) a).trans (s.removeEdge_toControl ..)

@[simp] theorem makeReady_waitsByMe :
    ((s.makeReady w r e).attempts a).waitsByMe = (s.attempts a).waitsByMe := by
  simp only [makeReady, setWait_attempts]
  exact (setAttempt_keep _ Attempt.waitsByMe (by intro _; rfl) a).trans (s.removeEdge_waitsByMe ..)

theorem makeReady_waitsOnMe :
    ((s.makeReady w r e).attempts a).waitsOnMe =
      if (s.requests w).target = a then (s.attempts a).waitsOnMe.erase w
      else (s.attempts a).waitsOnMe := by
  by_cases ha : a = (s.requests w).target
  · subst ha; simp [makeReady, setAttempt_attempts]
  · simp [makeReady, setAttempt_attempts, ha, Ne.symm ha]

theorem makeReady_edgesOut (b : AttemptId) :
    ((s.makeReady w r e).attempts a).edgesOut b =
      if a = r ∧ b = (s.requests w).target then decrement ((s.attempts a).edgesOut b)
      else (s.attempts a).edgesOut b := by
  have hkeep : ((s.makeReady w r e).attempts a).edgesOut b =
      ((s.removeEdge r (s.requests w).target).attempts a).edgesOut b := by
    simp only [makeReady, setWait_attempts]
    exact congrFun (setAttempt_keep _ Attempt.edgesOut (by intro _; rfl) a) b
  rw [hkeep, removeEdge_edgesOut]
  split_ifs with h
  · rw [h.1, h.2]
  · rfl

theorem makeReady_requests (v : WaitId) :
    (s.makeReady w r e).requests v =
      if v = w then { s.requests w with result := e, state := .ready } else s.requests v := by
  simp [makeReady, setWait_requests]

@[simp] theorem makeReady_waits : (s.makeReady w r e).waits = s.waits := rfl
@[simp] theorem makeReady_effects : (s.makeReady w r e).effects = s.effects := rfl
@[simp] theorem makeReady_calls : (s.makeReady w r e).calls = s.calls := rfl

@[simp] theorem makeReady_running : (s.makeReady w r e).running = s.running := rfl

theorem makeReady_kept : Kept s (s.makeReady w r e) := ⟨rfl, rfl⟩

end makeReady

/-- A change that touches no wait, no list of waits and no edge. -/
structure SameLinks (s t : State) : Prop where
  byMe : ∀ a, (t.attempts a).waitsByMe = (s.attempts a).waitsByMe
  onMe : ∀ a, (t.attempts a).waitsOnMe = (s.attempts a).waitsOnMe
  edges : ∀ a, (t.attempts a).edgesOut = (s.attempts a).edgesOut
  requests : t.requests = s.requests
  waits : t.waits = s.waits

structure OnlyControl (s t : State) : Prop extends SameLinks s t where
  kept : Kept s t
  running : t.running = s.running
  answered : t.effects.answered = s.effects.answered

theorem SameLinks.refl : SameLinks s s := ⟨fun _ => rfl, fun _ => rfl, fun _ => rfl, rfl, rfl⟩

theorem OnlyControl.refl : OnlyControl s s := ⟨.refl s, .refl s, rfl, rfl⟩

variable {s}

theorem SameLinks.trans {t u : State} (h : SameLinks s t) (h' : SameLinks t u) :
    SameLinks s u where
  byMe a := (h'.byMe a).trans (h.byMe a)
  onMe a := (h'.onMe a).trans (h.onMe a)
  edges a := (h'.edges a).trans (h.edges a)
  requests := h'.requests.trans h.requests
  waits := h'.waits.trans h.waits

theorem OnlyControl.trans {t u : State} (h : OnlyControl s t) (h' : OnlyControl t u) :
    OnlyControl s u :=
  ⟨h.toSameLinks.trans h'.toSameLinks, h.kept.trans h'.kept, h'.running.trans h.running,
    h'.answered.trans h.answered⟩

variable (s)

section control

variable (a b : AttemptId)

theorem setAttempt_onlyControl {f : Attempt → Attempt} (hb : ∀ x, (f x).waitsByMe = x.waitsByMe)
    (ho : ∀ x, (f x).waitsOnMe = x.waitsOnMe) (he : ∀ x, (f x).edgesOut = x.edgesOut) :
    OnlyControl s (s.setAttempt a f) where
  byMe := s.setAttempt_keep Attempt.waitsByMe hb
  onMe := s.setAttempt_keep Attempt.waitsOnMe ho
  edges := s.setAttempt_keep Attempt.edgesOut he
  requests := rfl
  waits := rfl
  kept := ⟨rfl, rfl⟩
  running := rfl
  answered := rfl

theorem setAttempt_toControl {f : Attempt → Attempt} {g : Control → Control}
    (hf : ∀ x, (f x).toControl = g x.toControl) :
    ((s.setAttempt a f).attempts b).toControl =
      if b = a then g (s.attempts a).toControl else (s.attempts b).toControl := by
  rw [setAttempt_attempts]
  split
  · exact hf _
  · rfl

/-- The permit given back: the attempt's state says so, and its lease is asked to release. -/
theorem giveBack_onlyControl : OnlyControl s (s.giveBack a) := by
  have h := s.setAttempt_onlyControl a (f := fun x => { x with permit := .released })
    (by intro _; rfl) (by intro _; rfl) (by intro _; rfl)
  simp only [giveBack]
  split
  · exact ⟨⟨h.byMe, h.onMe, h.edges, rfl, rfl⟩, ⟨rfl, rfl⟩, rfl, rfl⟩
  · exact h

theorem giveBack_toControl : ((s.giveBack a).attempts b).toControl =
    if b = a then { (s.attempts a).toControl with permit := .released }
    else (s.attempts b).toControl := by
  simp only [giveBack]
  split <;> simp only [setAttempt_attempts] <;> split <;> rfl

@[simp] theorem giveBack_effects : (s.giveBack a).effects = s.effects := by
  simp only [giveBack]; split <;> rfl

theorem giveBack_calls : (s.giveBack a).calls =
    if (s.attempts a).lease then s.calls ++ [.release a] else s.calls := by
  simp only [giveBack, setAttempt_attempts, if_true]
  split <;> rfl

theorem reacquire_onlyControl : OnlyControl s (s.reacquire a) := by
  have h := s.setAttempt_onlyControl a
    (f := fun x => { x with permit := .reacquiring, reacquire := true, reacquireOutstanding := true })
    (by intro _; rfl) (by intro _; rfl) (by intro _; rfl)
  exact ⟨⟨h.byMe, h.onMe, h.edges, rfl, rfl⟩, ⟨rfl, rfl⟩, rfl, rfl⟩

theorem reacquire_toControl : ((s.reacquire a).attempts b).toControl =
    if b = a then { (s.attempts a).toControl with
      permit := .reacquiring, reacquire := true, reacquireOutstanding := true }
    else (s.attempts b).toControl := by
  simp only [reacquire, setAttempt_attempts]
  split <;> rfl

@[simp] theorem reacquire_calls : (s.reacquire a).calls = s.calls := rfl

@[simp] theorem reacquire_effects : (s.reacquire a).effects =
    { s.effects with reacquires := s.effects.reacquires ++ [a] } := rfl

theorem pushStopAttempt_onlyControl : OnlyControl s (s.pushStopAttempt a) :=
  ⟨⟨fun _ => rfl, fun _ => rfl, fun _ => rfl, rfl, rfl⟩, ⟨rfl, rfl⟩, rfl, rfl⟩

theorem pushStopReacquire_onlyControl : OnlyControl s (s.pushStopReacquire a) :=
  ⟨⟨fun _ => rfl, fun _ => rfl, fun _ => rfl, rfl, rfl⟩, ⟨rfl, rfl⟩, rfl, rfl⟩

theorem markHurried_onlyControl : OnlyControl s (s.markHurried a) := by
  have h := s.setAttempt_onlyControl a (f := fun x => { x with hurried := true })
    (by intro _; rfl) (by intro _; rfl) (by intro _; rfl)
  exact ⟨⟨h.byMe, h.onMe, h.edges, rfl, rfl⟩, ⟨rfl, rfl⟩, rfl, rfl⟩

/-- Hurrying changes nothing of an attempt but its mark. -/
theorem markHurried_toControl : ∃ h, ((s.markHurried a).attempts b).toControl =
    { (s.attempts b).toControl with hurried := h } := by
  simp only [markHurried, setAttempt_attempts]
  split
  · subst b; exact ⟨true, rfl⟩
  · exact ⟨_, rfl⟩

/-- What `hurry` leaves behind: the same state but for marks and promotions. -/
structure Hurried (s t : State) : Prop where
  only : OnlyControl s t
  control : ∀ b, ∃ h, (t.attempts b).toControl = { (s.attempts b).toControl with hurried := h }
  effects : t.effects = s.effects
  calls : ∃ promoted : List AttemptId, t.calls = s.calls ++ promoted.map .promote

theorem hurry_spec (order : AttemptId → List AttemptId) : Hurried s (s.hurry order a) := by
  refine Library.Worklist.loop_keeps (P := Hurried s) ?_
    ⟨.refl s, fun b => ⟨_, rfl⟩, rfl, [], by simp⟩
  rintro t node - ⟨honly, hcontrol, heffects, promoted, hcalls⟩
  refine ⟨honly.trans (t.markHurried_onlyControl node), fun b => ?_, heffects,
    promoted ++ [node], ?_⟩
  · obtain ⟨h, hb⟩ := hcontrol b
    obtain ⟨h', hb'⟩ := t.markHurried_toControl node b
    exact ⟨h', by rw [hb', hb]⟩
  · simp [markHurried, hcalls]

end control

end MakeBelieve.Coordinator.State
