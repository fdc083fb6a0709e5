import MakeBelieve.Coordinator.Runs

namespace MakeBelieve.Coordinator

open Library

namespace State

variable {s t : State}

theorem Created.restores (h : Created s t) : Restores s t where
  restored hr b := by
    by_cases hb : b = s.attemptCount
    · obtain ⟨output, p, hself, _⟩ := h.self
      intro hrun
      rw [hb, hself] at hrun
      simp at hrun
    · have hc := h.others b hb
      exact restored_of_keeps (fun hrun => by rwa [hc] at hrun) (fun hnot => by rwa [hc] at hnot)
        (fun hp => by rwa [hc] at hp) (fun _ w hw => by rwa [h.links.byMe]) (hr b)
  reacquires b hb := by
    rw [h.effects] at hb
    simp at hb

theorem Permitted.restores {a : AttemptId} (h : Permitted s t a) : Restores s t where
  restored hr b := by
    by_cases hb : b = a
    · subst hb
      intro _ _ hp
      rw [h.self] at hp
      simp at hp
    · have hc := h.others b hb
      exact restored_of_keeps (fun hrun => by rwa [hc] at hrun) (fun hnot => by rwa [hc] at hnot)
        (fun hp => by rwa [hc] at hp) (fun _ w hw => by rwa [h.links.byMe]) (hr b)
  reacquires b hb := by
    rw [h.effects] at hb
    simp at hb

/-- A wait that suspends gives back only the permit of the attempt it is from. -/
theorem Suspended.restores {w : WaitId} {target : AttemptId} {q : Option AttemptId}
    (h : Suspended s t w target q) (hs : Links s) (hw : w ∉ s.waits)
    (he : s.effects.reacquires = []) : Restores s t where
  restored hr b := by
    obtain ⟨m, p, hc, hp⟩ := h.control b
    have hkeep : ∀ v ∈ (s.attempts b).waitsByMe, v ∈ (t.attempts b).waitsByMe := by
      intro v hv
      obtain ⟨hmem, hreq⟩ := (hs.byMe b v).mp hv
      have hne : v ≠ w := fun hvw => hw (hvw ▸ hmem)
      refine (h.inv.links.byMe b v).mpr ⟨?_, ?_⟩
      · rw [h.waits]
        exact List.mem_append_left _ hmem
      · rw [h.requests, if_neg hne]
        exact hreq
    obtain hp | ⟨hq, _, _⟩ := hp
    · refine restored_of_keeps (fun hrun => ?_) (fun hnot => ?_) (fun hrel => ?_)
        (fun _ => hkeep) (hr b)
      · rwa [hc] at hrun
      · rwa [hc] at hnot
      · rw [hc] at hrel
        exact hp.symm.trans hrel
    · intro _ _ _
      apply List.ne_nil_of_mem (a := w)
      refine (h.inv.links.byMe b w).mpr ⟨?_, ?_⟩
      · rw [h.waits]
        simp
      · rw [h.requests, if_pos rfl]
        exact hq
  reacquires b hb := by
    rw [h.effects, he] at hb
    simp at hb

end State

namespace System

variable {s : System} {e : Event}

/-- Every event, take-backs being turned down only for attempts stopped, leaves each attempt with
its permit or with something to wait for, and takes a permit back only for a reason. -/
theorem Sound.restores (h : Sound s) (he : s.enabled e) (hok : StoppedFirst s e) :
    State.Restores s.coord (s.step e).coord := by
  cases e with
  | createAttempt output predecessor => exact (h.inv.createAttempt output he).restores
  | run a =>
    have hrun := h.inv.run (K := fun _ _ => True) he.2.1 he.1
    exact ⟨hrun.2.2.restored, hrun.2.2.reacquires⟩
  | onPermit a => exact (h.inv.onPermit he).restores
  | wait order later target requester stopRequested =>
    obtain ⟨e, _, _, hhalted⟩ | ⟨q, _, hsusp, _⟩ :=
      h.inv.wait order later target requester stopRequested he.1
    · have hr := hhalted.restores h.inv.allotted rfl
      exact ⟨hr.restored, hr.reacquires⟩
    · have hr := hsusp.restores h.inv.allotted.links
        (fun hmem => Nat.lt_irrefl _ (h.inv.inRange.wait _ hmem)) rfl
      exact ⟨hr.restored, hr.reacquires⟩
  | cancelWait w =>
    have hr := (h.inv.cancelWait (K := fun _ _ => True) he).2.2
    exact ⟨hr.restored, hr.reacquires⟩
  | complete a result =>
    have hr := (h.inv.complete (K := fun _ _ => True) (a := a) (e := result) trivial).2.2.1
    exact ⟨hr.restored, hr.reacquires⟩
  | onReacquired a granted =>
    obtain ⟨hout, _⟩ := h.toCounted.regained h.inv granted he
    have hgranted : granted = true ∨ (s.coord.attempts a).stopping = true := by
      cases granted with
      | true => exact .inl rfl
      | false => exact .inr hok
    have hr := (h.inv.onReacquired (K := fun _ _ => True) hout granted).2.2 hgranted
    exact ⟨hr.restored, hr.reacquires⟩
  | onOuterStop a =>
    have hr := (h.inv.onOuterStop a).restores h.inv.start rfl
    exact ⟨hr.restored, hr.reacquires⟩
  | finish a =>
    have hr := (h.inv.finish he).restores h.inv.start
    exact ⟨hr.restored, hr.reacquires⟩

theorem restored_init (a : AttemptId) : ({} : System).coord.Restored a :=
  fun hrun => absurd hrun (by simp)

/-- No attempt is left without its permit and with nothing to wait for. -/
theorem restored (h : machine.Reachable StoppedFirst s) : ∀ a, s.coord.Restored a :=
  h.invariant_under (P := fun s => ∀ a, s.coord.Restored a) (fun _ hr => sound hr)
    (fun s hs => by
      have hs' : s = {} := hs
      exact hs' ▸ restored_init)
    (fun _ _ hs hr he hok => (hs.restores he hok).restored hr)

/-- Once stopping, an attempt is so for good. -/
theorem Sound.stopping (h : Sound s) (he : s.enabled e) {a : AttemptId}
    (ha : (s.coord.attempts a).stopping = true) : ((s.step e).coord.attempts a).stopping = true := by
  cases e with
  | createAttempt output predecessor =>
    have hc := h.inv.createAttempt output he
    have hne : a ≠ s.coord.attemptCount := by
      intro haa
      have hfresh := h.inv.inRange.freshAttempt a (Nat.le_of_eq haa.symm)
      have hnot := ((h.inv.control a).unstarted (.inl hfresh)).2
      rw [ha] at hnot
      simp at hnot
    show ((s.coord.createAttempt output predecessor).attempts a).stopping = true
    rw [hc.others a hne]
    exact ha
  | run b => exact (h.inv.run (K := fun _ _ => True) he.2.1 he.1).1.stopping a ha
  | onPermit b =>
    have hp := h.inv.onPermit he
    show ((s.coord.onPermit b).attempts a).stopping = true
    by_cases hab : a = b
    · subst hab
      rw [hp.self]
      exact ha
    · rw [hp.others a hab]
      exact ha
  | wait order later target requester stopRequested =>
    obtain ⟨e, _, _, hhalted⟩ | ⟨q, _, hsusp, _⟩ :=
      h.inv.wait order later target requester stopRequested he.1
    · exact hhalted.stopping ha
    · obtain ⟨m, p, hc, _⟩ := hsusp.control a
      show ((s.coord.wait order later target requester stopRequested).1.attempts a).stopping = true
      rw [hc]
      exact ha
  | cancelWait w =>
    obtain ⟨out, hstep⟩ := (h.inv.cancelWait (K := fun _ _ => True) he).1
    exact hstep.stopping a ha
  | complete b result =>
    obtain ⟨out, hstep⟩ :=
      (h.inv.complete (K := fun _ _ => True) (a := b) (e := result) trivial).1
    exact hstep.stopping a ha
  | onReacquired b granted =>
    obtain ⟨hout, _⟩ := h.toCounted.regained h.inv granted he
    obtain ⟨out, hstep⟩ := (h.inv.onReacquired (K := fun _ _ => True) hout granted).1
    exact hstep.stopping a ha
  | onOuterStop b => exact (h.inv.onOuterStop b).stopping ha
  | finish b => exact ((h.inv.finish he).step (K := fun _ _ => True)).stopping a ha

/-- A stopping attempt has no waits, now and in every later state. -/
theorem Sound.no_waits_again (h : Sound s) {a : AttemptId} {ok : System → Event → Prop}
    (ha : (s.coord.attempts a).stopping = true) {t : System} (hst : machine.Reaches ok s t) :
    (t.coord.attempts a).waitsByMe = [] := by
  have hkeep := hst.keeps (P := fun s => Sound s ∧ (s.coord.attempts a).stopping = true)
    (fun _ _ hs he _ => ⟨hs.1.step he, hs.1.stopping he hs.2⟩) ⟨h, ha⟩
  obtain ⟨ht, hstop⟩ := hkeep
  apply ht.inv.no_waits
  intro state hown
  have := hown.notStopping
  rw [hstop] at this
  simp at this

/-- What an event adds to the take-backs is what its transition gathered. -/
theorem count_takeBacks (s : System) (e : Event) (a : AttemptId)
    (h : s.takeBacks.count a < (s.step e).takeBacks.count a) :
    a ∈ (s.step e).coord.effects.reacquires := by
  apply List.count_pos_iff.mp
  have hall : ∀ l, l.count a ≤ s.takeBacks.count a →
      s.takeBacks.count a < (l ++ (s.step e).coord.effects.reacquires).count a →
      0 < (s.step e).coord.effects.reacquires.count a := by
    intro l hl hlt
    rw [List.count_append] at hlt
    omega
  cases e with
  | onReacquired b granted =>
    exact hall (s.takeBacks.erase b) (List.erase_sublist.count_le a) h
  | _ => exact hall s.takeBacks (Nat.le_refl _) h

/-- What the permit of a running attempt that is not stopping says of its waits. -/
structure PermitFollows (s : System) (a : AttemptId) : Prop where
  held : (s.coord.attempts a).permit = .held → (s.coord.attempts a).waitsByMe = []
  released : (s.coord.attempts a).permit = .released → (s.coord.attempts a).waitsByMe ≠ [] ∧
    ∀ w ∈ (s.coord.attempts a).waitsByMe, (s.coord.requests w).state = .blocked
  reacquiring : (s.coord.attempts a).permit = .reacquiring → s.takeBacks.count a = 1
  ready : ∀ w ∈ (s.coord.attempts a).waitsByMe, (s.coord.requests w).state = .ready →
    (s.coord.attempts a).permit = .reacquiring
  some : (s.coord.attempts a).permit ≠ .none

theorem Sound.permitFollows (h : Sound s) {a : AttemptId} (hres : s.coord.Restored a)
    (hrun : (s.coord.attempts a).phase = .running)
    (hstop : (s.coord.attempts a).stopping = false) : PermitFollows s a where
  held hheld := by
    apply h.inv.no_waits
    intro state hown
    obtain hp | ⟨hp, _⟩ := hown.permit
    · rw [hheld] at hp; simp at hp
    · rw [hheld] at hp; simp at hp
  released hrel := by
    refine ⟨hres hrun hstop hrel, fun w hw => ?_⟩
    obtain hp | ⟨_, hb⟩ := (h.inv.by_me hw).permit
    · rw [hrel] at hp; simp at hp
    · exact hb
  reacquiring hreac := by
    rw [h.takeBacks, (h.inv.control a).outstanding.mp hreac]
    rfl
  ready w hw hr := by
    obtain hp | ⟨_, hb⟩ := (h.inv.by_me hw).permit
    · exact hp
    · rw [hr] at hb; simp at hb
  some := ((h.inv.control a).started (.inl hrun)).1

/-- The permit of every attempt follows its waits, in every state between transitions, where a
take-back is turned down only for an attempt that was stopped. -/
theorem permits_follow_waits (h : machine.Reachable StoppedFirst s) :
    (∀ a, (s.coord.attempts a).phase = .running → (s.coord.attempts a).stopping = false →
      PermitFollows s a) ∧
    (∀ a, (s.coord.attempts a).stopping = true ∨ (s.coord.attempts a).phase = .ended →
      ∀ t, machine.Reaches StoppedFirst s t → (t.coord.attempts a).waitsByMe = []) ∧
    (∀ a, (s.coord.attempts a).permit = .held →
      ∀ w ∈ (s.coord.attempts a).waitsByMe, (s.coord.requests w).state ≠ .blocked) ∧
    (∀ a, holds a false s.leases = some (decide ((s.coord.attempts a).permit = .held))) ∧
    (∀ e a, s.enabled e → StoppedFirst s e → s.takeBacks.count a < (s.step e).takeBacks.count a →
      ((s.step e).coord.attempts a).waitsByMe = [] ∨
        ∃ w ∈ ((s.step e).coord.attempts a).waitsByMe,
          ((s.step e).coord.requests w).state = .ready) := by
  have hs := sound h
  refine ⟨fun a => hs.permitFollows (restored h a), fun a ha t hst => ?_, fun a hheld w hw hb => ?_,
    hs.leases, fun e a he hok hlt => ?_⟩
  · have hstop : (s.coord.attempts a).stopping = true := by
      obtain hstop | hend := ha
      · exact hstop
      · exact (hs.inv.control a).ended hend
    exact hs.no_waits_again hstop hst
  · obtain hp | ⟨hp, _⟩ := (hs.inv.by_me hw).permit
    · rw [hheld] at hp; simp at hp
    · rw [hheld] at hp; simp at hp
  · exact (hs.restores he hok).reacquires a (count_takeBacks s e a hlt)

/-- There the waiting attempt is taking its permit back, for its one request that is ready. -/
theorem permits_follow_waits_firstWaits :
    (machine.runs {} firstWaits).takeBacks.count 0 = 1 :=
  ((permits_follow_waits firstWaits_reachable).1 0 (by decide) (by decide)).reacquiring (by decide)

end System

end MakeBelieve.Coordinator
