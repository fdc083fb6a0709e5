import MakeBelieve.Permits.Runs

namespace MakeBelieve.Permits.State

open Library
open Coordinator (AttemptId WaitId)
open Queue (OpId)

/-- Whether this attempt's command is running on a permit. -/
def holdsPermit (s : State) (a : AttemptId) : Bool :=
  decide ((s.coordinator.coord.attempts a).phase = .running) &&
    decide ((s.coordinator.coord.attempts a).permit = .held)

def permitsHeld (s : State) : Nat :=
  (List.range s.coordinator.coord.attemptCount).countP s.holdsPermit

/-- No effect, handoff or end of an attempt is in flight. A stop yet to be passed on makes no
difference. -/
structure Quiescent (s : State) : Prop where
  lock : s.locked = false
  reacquires : s.reacquires = []
  drains : s.drains = []
  ending : s.ending = []
  handoffs : ∀ i < s.queue.opCount, (Queue.ownEvent i (s.queue.ops i).phase).isNone = true
  slots : ∀ i < s.queue.opCount, (s.queue.ops i).slot = false
  /-- No lease made whose attempt has yet to be told. -/
  starts : ∀ a < s.coordinator.coord.attemptCount,
    (s.coordinator.coord.attempts a).phase = .queued → (s.view a).lease ≠ some (some true)
  /-- No take-back completed whose attempt has yet to be told. -/
  answers : ∀ a < s.coordinator.coord.attemptCount, ∀ given,
    (s.view a).takeBack ≠ some (some given)

variable {n : Nat} {s : State} {a : AttemptId} {i : OpId}

theorem Sound.in_range (hs : Sound n s) (ha : s.first a = some i) :
    a < s.coordinator.coord.attemptCount := by
  apply hs.coordinator.inv.inRange.lt_of_phase
  intro hp
  have := (hs.views a).unscheduled hp
  simp [view, ha] at this

/-- An attempt with its permit has a lease that holds a slot. -/
theorem Sound.holdsPermit_lease (hs : Sound n s) (ha : s.holdsPermit a = true) :
    ∃ i, s.first a = some i ∧ (s.queue.ops i).lease = some true := by
  obtain ⟨hrun, hheld⟩ : (s.coordinator.coord.attempts a).phase = .running ∧
      (s.coordinator.coord.attempts a).permit = .held := by simpa [holdsPermit] using ha
  have heq := (hs.views a).permits (.inl hrun)
  have hview : (s.view a).held = true := by simp [view, hheld]
  rw [hview] at heq
  have hlease : (s.view a).lease = some (some true) := by
    by_contra hno
    have h1 : Bool.toNat true = 1 := rfl
    have h0 : (decide ((s.view a).lease = some (some true))).toNat = 0 := by simp [hno]
    omega
  cases hf : s.first a with
  | none => simp [view, hf] at hlease
  | some i => exact ⟨i, rfl, by simpa [view, hf] using hlease⟩

/-- There, a lease that holds a slot is one of an attempt with its permit. -/
theorem Sound.lease_holdsPermit (hs : Sound n s) (hq : s.Quiescent) (ha : s.first a = some i)
    (hl : (s.queue.ops i).lease = some true) : s.holdsPermit a = true := by
  have hlt := hs.in_range ha
  have hlease : (s.view a).lease = some (some true) := by simp [view, ha, hl]
  have hok := hs.views a
  have hreleases := hs.view_releases hq.lock a
  have howed := hok.owed
  have hpool : (s.view a).pooled = 0 := by
    show s.reacquires.count a = 0
    rw [hq.reacquires]
    rfl
  cases hp : (s.view a).phase with
  | pending =>
    rw [hok.unscheduled hp] at hlease
    simp at hlease
  | queued => exact absurd hlease (hq.starts a hlt hp)
  | running =>
    have heq := hok.permits (.inl hp)
    have hback : decide ((s.view a).takeBack = some (some true)) = false := by
      simpa using hq.answers a hlt true
    rw [hlease, hreleases, hback] at heq
    have hheld : (s.view a).held = true := by
      by_contra hno
      rw [Bool.eq_false_iff.mpr hno] at heq
      simp at heq
    have hphase : (s.coordinator.coord.attempts a).phase = .running := hp
    have hpermit : (s.coordinator.coord.attempts a).permit = .held := by
      simpa [view] using hheld
    simp [holdsPermit, hphase, hpermit]
  | ended =>
    exfalso
    -- Its end is not in flight, so it waits for a take-back, whose lease holds nothing.
    have hdrain : (s.view a).drain = true := by
      obtain hd | hd | hd := hok.ended hp hlease
      · exact hd
      · simp [view, hq.drains, hq.lock] at hd
      · simp [view, hq.ending] at hd
    have hout : (s.view a).outstanding = true := (hok.outstanding hp).trans hdrain
    rw [hout, view_asked hq.lock, hpool] at howed
    cases htb : s.takeBack a with
    | none => simp [view, htb] at howed
    | some j =>
      obtain ⟨l, hl', hk⟩ := hs.linked.takeBackKind a j htb
      obtain rfl : i = l := Option.some.inj (ha.symm.trans hl')
      obtain ⟨q, hqueue⟩ := hs.queue
      have hnot : ∀ given, (s.queue.ops j).phase ≠ .completed given := fun given hg => by
        apply hq.answers a hlt given
        simp [view, htb, answerOf_eq_some.mpr hg]
      have hfalse := hqueue.tied.lease j i hk hnot
      rw [hl] at hfalse
      simp at hfalse

/-- Attempts with a permit are no more than leases with a slot, and there as many. -/
theorem Sound.permitsHeld_le (hs : Sound n s) : s.permitsHeld ≤ (List.range s.queue.opCount).countP
    fun i => decide ((s.queue.ops i).lease = some true) := by
  refine countP_le_of_inj (fun a => (s.first a).getD 0) List.nodup_range (fun a _ ha => ?_)
    fun a _ b _ ha hb hab => ?_
  · obtain ⟨i, hi, hl⟩ := hs.holdsPermit_lease ha
    rw [hi]
    exact ⟨List.mem_range.mpr (hs.first_made hi), by simpa using hl⟩
  · obtain ⟨i, hi, _⟩ := hs.holdsPermit_lease ha
    obtain ⟨j, hj, _⟩ := hs.holdsPermit_lease hb
    have hij : i = j := by simpa [hi, hj] using hab
    exact hs.linked.first_inj hi (hij ▸ hj)

/-- The attempt that owns the work whose first slot this is, if one does. -/
def ownerOf : Queue.Kind → AttemptId
  | .first (some a) => a
  | _ => 0

theorem Sound.permitsHeld_ge (hs : Sound n s) (hq : s.Quiescent) :
    ((List.range s.queue.opCount).countP fun i => decide ((s.queue.ops i).lease = some true)) ≤
      s.permitsHeld := by
  obtain ⟨q, hqueue⟩ := hs.queue
  have howner : ∀ i, i ∈ List.range s.queue.opCount → (s.queue.ops i).lease = some true →
      ∃ a, (s.queue.ops i).kind = .first (some a) ∧ s.first a = some i := by
    intro i hi hl
    obtain ⟨_, ticket, hk⟩ := (hqueue.op i).lease (by simp [hl])
    cases ticket with
    | none => exact absurd hk (hs.linked.ticketed i (List.mem_range.mp hi))
    | some a => exact ⟨a, hk, hs.linked.kindFirst a i hk⟩
  refine countP_le_of_inj (fun i => ownerOf (s.queue.ops i).kind) List.nodup_range
    (fun i hi hl => ?_) fun i hi j hj hil hjl hij => ?_
  · obtain ⟨a, hk, ha⟩ := howner i hi (by simpa using hl)
    rw [hk]
    exact ⟨List.mem_range.mpr (hs.in_range ha), hs.lease_holdsPermit hq ha (by simpa using hl)⟩
  · obtain ⟨a, hk, ha⟩ := howner i hi (by simpa using hil)
    obtain ⟨b, hk', hb⟩ := howner j hj (by simpa using hjl)
    have hab : a = b := by simpa [hk, hk', ownerOf] using hij
    subst hab
    exact Option.some.inj (ha.symm.trans hb)

/-- At most `n` attempts run on a permit at once and, where anyone is in line for one and nothing is
in flight, all `n` do, none of them on one of its requests. -/
theorem permits_shared (h : (machine n).Reachable (fun _ _ => True) s) :
    s.permitsHeld ≤ n ∧
    (s.Quiescent → (∃ i, (s.queue.ops i).phase = .queued) → s.permitsHeld = n ∧
      ∀ a, s.holdsPermit a = true → ∀ w ∈ (s.coordinator.coord.attempts a).waitsByMe,
        (s.coordinator.coord.requests w).state ≠ .blocked) := by
  have hs := sound h
  obtain ⟨q, hqueue⟩ := hs.queue
  have hconserved := hqueue.conserved
  rw [Queue.State.tokens_eq] at hconserved
  have hle := hs.permitsHeld_le
  have hheld : s.queue.held = (List.range s.queue.opCount).countP (fun i => (s.queue.ops i).slot) +
      (List.range s.queue.opCount).countP fun i => decide ((s.queue.ops i).lease = some true) := rfl
  refine ⟨by omega, fun hq ⟨i, hi⟩ => ⟨?_, fun a ha w hw hb => ?_⟩⟩
  · have hfree : s.queue.free = 0 := by
      by_contra hf
      obtain ⟨line, hline⟩ := (hqueue.placed.queued i).mpr hi
      rw [hqueue.idle (Nat.pos_of_ne_zero hf) line] at hline
      simp at hline
    have hslots : (List.range s.queue.opCount).countP (fun i => (s.queue.ops i).slot) = 0 := by
      rw [List.countP_eq_zero]
      intro j hj
      simp [hq.slots j (List.mem_range.mp hj)]
    have hhanded : s.queue.handedOn = 0 := by
      unfold Queue.State.handedOn
      rw [List.countP_eq_zero]
      intro j hj
      have hnone := hq.handoffs j (List.mem_range.mp hj)
      obtain hp | hp | ⟨given, hp⟩ := Queue.State.ownEvent_none (Option.isNone_iff_eq_none.mp hnone)
        <;> simp [hp, Queue.Phase.inTransit]
    have hge := hs.permitsHeld_ge hq
    omega
  · obtain ⟨_, hheld⟩ : (s.coordinator.coord.attempts a).phase = .running ∧
        (s.coordinator.coord.attempts a).permit = .held := by simpa [holdsPermit] using ha
    obtain hp | ⟨hp, _⟩ := (hs.coordinator.inv.by_me hw).permit
    · rw [hheld] at hp; simp at hp
    · rw [hheld] at hp; simp at hp

/-- One attempt runs on the only permit, another in line for it. -/
def oneInLine : List Event :=
  [.transition (.createAttempt [['a']] none), .unlock,
    .transition (.createAttempt [['b']] none), .unlock,
    .transition (.run 0), .unlock, .schedule 0, .queue (.start 0), .queue (.enter 0),
    .queue (.complete 0 true), .queue (.takeLease 0), .onPermit 0, .unlock,
    .transition (.run 1), .unlock, .schedule 1, .queue (.start 1), .queue (.enter 1)]

theorem oneInLine_reachable : (machine 1).Reachable (fun _ _ => True)
    ((machine 1).runs { queue := { free := 1 } } oneInLine) := by
  refine (Machine.Reachable.start rfl).runs ?_
  exact ⟨⟨rfl, trivial, nofun⟩, trivial, ⟨rfl, rfl⟩, trivial, ⟨rfl, trivial, nofun⟩, trivial,
    ⟨rfl, rfl⟩, trivial, ⟨rfl, trivial, by decide, rfl, rfl⟩, trivial, ⟨rfl, rfl⟩, trivial,
    ⟨rfl, rfl⟩, trivial, ⟨trivial, by decide, rfl⟩, trivial, ⟨trivial, rfl⟩, trivial,
    ⟨trivial, rfl⟩, trivial, ⟨trivial, rfl⟩, trivial, ⟨rfl, rfl, 0, rfl, rfl⟩, trivial, ⟨rfl, rfl⟩,
    trivial, ⟨rfl, trivial, by decide, rfl, rfl⟩, trivial, ⟨rfl, rfl⟩, trivial, ⟨rfl, rfl⟩, trivial,
    ⟨trivial, by decide, rfl⟩, trivial, ⟨trivial, rfl⟩, trivial, trivial⟩

theorem permits_shared_oneInLine :
    ((machine 1).runs { queue := { free := 1 } } oneInLine).permitsHeld = 1 :=
  ((permits_shared oneInLine_reachable).2
    ⟨rfl, rfl, rfl, rfl, by decide, by decide, by decide, by decide⟩ ⟨1, rfl⟩).1

end MakeBelieve.Permits.State
