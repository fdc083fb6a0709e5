import MakeBelieve.Coordinator.Moved

namespace MakeBelieve.Coordinator

/-- What the fields of one attempt keep to, whatever waits there are. -/
structure ControlOk (c : Control) : Prop where
  outstanding : c.permit = .reacquiring ↔ c.reacquireOutstanding = true
  unstarted : c.phase = .pending ∨ c.phase = .queued → c.permit = .none ∧ c.stopping = false
  started : c.phase = .running ∨ c.phase = .ended → c.permit ≠ .none ∧ c.lease = true
  ended : c.phase = .ended → c.stopping = true

/-- What an attempt is while a wait in this state is by it: never with its permit held, and taking
it back once the wait is ready. -/
structure OwnerOk (c : Control) (state : WaitState) : Prop where
  running : c.phase = .running
  notStopping : c.stopping = false
  permit : c.permit = .reacquiring ∨ (c.permit = .released ∧ state = .blocked)

namespace State

/-- A wait in line is owned: not yet answered, and its requester, if any, in a state to be
answered later. -/
structure Owned (s : State) (w : WaitId) : Prop where
  notDone : (s.requests w).state ≠ .done
  alone : (s.requests w).requester = none → (s.requests w).state = .blocked
  owner : ∀ a, (s.requests w).requester = some a →
    OwnerOk (s.attempts a).toControl (s.requests w).state

/-- What names an attempt or a wait names one that has been made. -/
structure InRange (s : State) : Prop where
  wait : ∀ w ∈ s.waits, w < s.waitCount
  target : ∀ w ∈ s.waits, (s.requests w).target < s.attemptCount
  predecessor : ∀ a p, (s.attempts a).predecessor = some p → p < s.attemptCount
  freshAttempt : ∀ a, s.attemptCount ≤ a → (s.attempts a).phase = .pending
  freshWait : ∀ w, s.waitCount ≤ w → (s.requests w).state = .blocked

/-- The invariant of the coordinator between transitions. -/
structure Inv (s : State) : Prop where
  links : Links s
  owned : ∀ w ∈ s.waits, s.Owned w
  unfinished : ∀ w ∈ s.waits, (s.requests w).state = .blocked →
    (s.attempts (s.requests w).target).result = none
  control : ∀ a, ControlOk (s.attempts a).toControl
  running : ∀ p a, s.running p = some a →
    (s.attempts a).phase = .running ∧ (s.attempts a).output = p
  inRange : InRange s

/-- The two accounts a transition keeps: take-backs started match those outstanding, and leases
asked to release match permits no longer held. -/
structure Accounted (s t : State) : Prop where
  takeBacks : ∀ b, t.effects.reacquires.count b + (s.attempts b).reacquireOutstanding.toNat =
    s.effects.reacquires.count b + (t.attempts b).reacquireOutstanding.toNat
  leases : ∀ b, t.calls.count (.release b) + (decide ((t.attempts b).permit = .held)).toNat =
    s.calls.count (.release b) + (decide ((s.attempts b).permit = .held)).toNat

variable {s t u : State}

theorem Accounted.trans (h : Accounted s t) (h' : Accounted t u) : Accounted s u where
  takeBacks b := by
    have h1 := h.takeBacks b
    have h2 := h'.takeBacks b
    omega
  leases b := by
    have h1 := h.leases b
    have h2 := h'.leases b
    omega

/-- A change to neither permits nor take-backs keeps both accounts. -/
theorem accounted_of_control (hc : ∀ b, (t.attempts b).permit = (s.attempts b).permit ∧
    (t.attempts b).reacquireOutstanding = (s.attempts b).reacquireOutstanding)
    (hr : t.effects.reacquires = s.effects.reacquires)
    (hcalls : ∀ b, t.calls.count (.release b) = s.calls.count (.release b)) : Accounted s t where
  takeBacks b := by rw [hr, (hc b).2]
  leases b := by rw [hcalls, (hc b).1]

theorem Accounted.refl (s : State) : Accounted s s :=
  accounted_of_control (fun _ => ⟨rfl, rfl⟩) rfl (fun _ => rfl)

theorem Answering.accounted {out : List (WaitId × ErrorCode)} (h : Answering s t out) :
    Accounted s t :=
  accounted_of_control (fun b => by rw [h.control]; exact ⟨rfl, rfl⟩) (by rw [h.effects])
    (fun b => by rw [h.calls])

/-- Where every wait a transition leaves is as it was and its target still unfinished, so is all
that is in range. -/
theorem InRange.moved (h : InRange s) {out : List (WaitId × ErrorCode)} (hm : Moved s t out)
    (hp : ∀ a p, (t.attempts a).predecessor = some p → (s.attempts a).predecessor = some p)
    (hf : ∀ a, s.attemptCount ≤ a → (t.attempts a).phase = (s.attempts a).phase) :
    InRange t where
  wait w hw := by
    rw [hm.kept.waitCount]; exact h.wait w ((hm.waits w).mp hw).1
  target w hw := by
    rw [hm.target, hm.kept.attemptCount]; exact h.target w ((hm.waits w).mp hw).1
  predecessor a p hap := by
    rw [hm.kept.attemptCount]; exact h.predecessor a p (hp a p hap)
  freshAttempt a ha := by
    rw [hm.kept.attemptCount] at ha
    rw [hf a ha]; exact h.freshAttempt a ha
  freshWait w hw := by
    rw [hm.kept.waitCount] at hw
    rw [hm.rest w (fun hmem => Nat.not_lt.mpr hw (h.wait w hmem))]
    exact h.freshWait w hw

/-- An attempt that is not at its defaults has been made. -/
theorem InRange.lt_of_phase (h : InRange s) {a : AttemptId}
    (ha : (s.attempts a).phase ≠ .pending) : a < s.attemptCount := by
  apply Nat.lt_of_not_le
  intro hge
  exact ha (h.freshAttempt a hge)

/-- Every wait by an attempt finds it running, not stopping, and without its permit. -/
theorem Inv.by_me (h : Inv s) {a : AttemptId} {w : WaitId}
    (hw : w ∈ (s.attempts a).waitsByMe) :
    OwnerOk (s.attempts a).toControl (s.requests w).state := by
  obtain ⟨hmem, hr⟩ := (h.links.byMe a w).mp hw
  exact (h.owned w hmem).owner a hr

/-- An attempt that could own no wait has none. -/
theorem Inv.no_waits (h : Inv s) {a : AttemptId}
    (ha : ∀ state, ¬OwnerOk (s.attempts a).toControl state) : (s.attempts a).waitsByMe = [] := by
  rw [List.eq_nil_iff_forall_not_mem]
  intro w hw
  exact ha _ (h.by_me hw)

end State

end MakeBelieve.Coordinator
