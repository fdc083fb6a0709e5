import MakeBelieve.Coordinator.Cycle
import MakeBelieve.Coordinator.Marks

namespace MakeBelieve.Coordinator

/-- The phase an event leaves an attempt in. -/
def Event.phase (e : Event) (b : AttemptId) (before : Phase) : Phase :=
  match e with
  | .run a => if b = a then .queued else before
  | .onPermit a => if b = a then .running else before
  | .finish a => if b = a then .ended else before
  | _ => before

theorem State.foldl_doom_output (path : List AttemptId) (s : State) (b : AttemptId) :
    ((path.foldl doom s).attempts b).output = (s.attempts b).output := by
  induction path generalizing s with
  | nil => rfl
  | cons a path ih =>
    rw [List.foldl_cons, ih, doom_toControl]
    split <;> rfl

namespace System

variable {s : System} {e : Event}

theorem Sound.phase_step (h : Sound s) (he : s.enabled e) (b : AttemptId) :
    ((s.step e).coord.attempts b).phase = e.phase b (s.coord.attempts b).phase := by
  cases e with
  | createAttempt output predecessor =>
    have hc := h.inv.createAttempt output he
    by_cases hb : b = s.coord.attemptCount
    · obtain ⟨o, p, hself, _⟩ := hc.self
      have hfresh := h.inv.inRange.freshAttempt b (Nat.le_of_eq hb.symm)
      show ((s.coord.createAttempt output predecessor).attempts b).phase = _
      rw [hb, hself, ← hb]
      simp [Event.phase, hfresh]
    · show ((s.coord.createAttempt output predecessor).attempts b).phase = _
      rw [hc.others b hb]
      rfl
  | run a =>
    show (Function.update s.coord.attempts a _ b).phase = _
    by_cases hb : b = a
    · subst hb
      simp [Event.phase]
    · simp [Event.phase, hb]
  | onPermit a =>
    have hp := h.inv.onPermit he
    show ((s.coord.onPermit a).attempts b).phase = _
    by_cases hb : b = a
    · subst hb
      rw [hp.self]
      simp [Event.phase]
    · rw [hp.others b hb]
      simp [Event.phase, hb]
  | wait order later target requester stopRequested =>
    exact (s.coord.wait_steady order later target requester stopRequested).phase b
  | cancelWait w => exact (s.coord.cancelWait_steady w).phase b
  | complete a result => exact (s.coord.complete_steady a result).phase b
  | onReacquired a granted => exact ((s.coord.onReacquired_drains a granted).1 b).1
  | onOuterStop a => exact (s.coord.onOuterStop_steady a).phase b
  | finish a =>
    obtain ⟨hothers, hself, _⟩ := s.coord.finish_ends a
    show ((s.coord.finish a).attempts b).phase = _
    by_cases hb : b = a
    · subst hb
      simp [hself, Event.phase]
    · rw [(hothers b hb).1]
      simp [Event.phase, hb]

/-- An attempt is at the output it was made for throughout. -/
theorem Sound.output_step (h : Sound s) (he : s.enabled e) {b : AttemptId}
    (hb : b < s.coord.attemptCount) :
    ((s.step e).coord.attempts b).output = (s.coord.attempts b).output := by
  cases e with
  | createAttempt output predecessor =>
    show ((s.coord.createAttempt output predecessor).attempts b).output = _
    rw [(h.inv.createAttempt output he).others b (Nat.ne_of_lt hb)]
  | run a => exact (s.coord.run_unmarked a).output b
  | onPermit a => exact (s.coord.onPermit_unmarked a).output b
  | wait order later target requester stopRequested =>
    have hends := s.coord.wait_ends order later target requester stopRequested
    have hcoord : (s.step (.wait order later target requester stopRequested)).coord =
        (s.coord.wait order later target requester stopRequested).1 := rfl
    rw [hcoord]
    generalize s.coord.wait order later target requester stopRequested = ended at hends ⊢
    cases hends with
    | stopped | finished | stopping => rfl
    | cycle => exact State.foldl_doom_output ..
    | @suspended q _ hres hq hok =>
      have hrun : ∀ r, q = some r → (s.coord.attempts r).phase = .running := fun r hr => by
        obtain ⟨p, _, hp⟩ := Option.bind_eq_some_iff.mp (hq.trans hr)
        exact (h.inv.running p r hp).1
      obtain ⟨m, p, hc, _⟩ := (State.suspend_quieted later s.coord.waitCount target
        h.inv.allotted.control hrun).control b
      show ((s.coord.allotted.suspend later s.coord.waitCount target q).attempts b).output = _
      rw [hc, State.enter_attempts]
      rfl
  | cancelWait w => exact (s.coord.cancelWait_unmarked w).output b
  | complete a result => exact (s.coord.complete_unmarked a result).output b
  | onReacquired a granted => exact (s.coord.onReacquired_unmarked a granted).output b
  | onOuterStop a => exact (s.coord.onOuterStop_unmarked a).output b
  | finish a => exact (s.coord.finish_unmarked a).output b

/-- Only making an attempt numbers one. -/
theorem Sound.attemptCount_step (h : Sound s) (he : s.enabled e)
    (hne : ∀ output predecessor, e ≠ .createAttempt output predecessor) :
    (s.step e).coord.attemptCount = s.coord.attemptCount := by
  cases e with
  | createAttempt output predecessor => exact absurd rfl (hne output predecessor)
  | run a => rfl
  | onPermit a => exact (h.inv.onPermit he).kept.attemptCount
  | wait order later target requester stopRequested =>
    show (s.coord.wait order later target requester stopRequested).1.attemptCount = _
    obtain ⟨_, _, _, hhalted⟩ | ⟨_, _, hsusp, _⟩ :=
      h.inv.wait order later target requester stopRequested he.1
    · obtain ⟨out, hstep⟩ := hhalted.step (K := fun _ _ => True)
      exact hstep.moved.kept.attemptCount
    · exact hsusp.kept.attemptCount
  | cancelWait w =>
    obtain ⟨⟨out, hstep⟩, _⟩ := h.inv.cancelWait (K := fun _ _ => True) he
    exact hstep.moved.kept.attemptCount
  | complete a result =>
    obtain ⟨⟨out, hstep⟩, _⟩ := h.inv.complete (K := fun _ _ => True) (a := a) (e := result) trivial
    exact hstep.moved.kept.attemptCount
  | onReacquired a granted =>
    obtain ⟨hout, _⟩ := h.toCounted.regained h.inv granted he
    obtain ⟨⟨out, hstep⟩, _⟩ := h.inv.onReacquired (K := fun _ _ => True) hout granted
    exact hstep.moved.kept.attemptCount
  | onOuterStop a =>
    obtain ⟨out, hstep⟩ := (h.inv.onOuterStop a).step (K := fun _ _ => True)
    exact hstep.moved.kept.attemptCount
  | finish a =>
    exact ((h.inv.finish he).step (K := fun _ _ => True)).moved.kept.attemptCount

theorem createAttempt_output (s : System) (output : Path) (predecessor : Option AttemptId) :
    ((s.step (.createAttempt output predecessor)).coord.attempts s.coord.attemptCount).output =
      output := by
  show (Function.update s.coord.attempts s.coord.attemptCount _ _).output = _
  rw [Function.update_self]

end System

end MakeBelieve.Coordinator
