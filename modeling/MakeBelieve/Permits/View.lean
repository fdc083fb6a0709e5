import MakeBelieve.Permits.State
import MakeBelieve.Coordinator.Steady
import MakeBelieve.Queue.Leases

namespace MakeBelieve.Permits

open Library
open Coordinator (AttemptId PermitCall Control)
open Queue (OpId)

/-- What the coordinator, the queue and what is between them say of one attempt. -/
structure View where
  phase : Coordinator.Phase
  held : Bool
  outstanding : Bool
  drain : Bool
  /-- The lease of the operation that takes its first slot, if its work has been scheduled. -/
  lease : Option (Option Bool)
  /-- Releases of its lease the transition under way has yet to ask for. -/
  releases : Nat
  /-- Take-backs started that no thread has been left to run, and those some thread has. -/
  asked : Nat
  pooled : Nat
  /-- The take-back under way, and how it completed if it has. -/
  takeBack : Option (Option Bool)
  drains : Nat
  ending : Nat

/-- How an operation completed. -/
def answerOf : Queue.Phase → Option Bool
  | .completed given => some given
  | _ => none

theorem answerOf_eq_some {p : Queue.Phase} {given : Bool} :
    answerOf p = some given ↔ p = .completed given := by
  cases p <;> simp [answerOf]

theorem answerOf_eq_none {p : Queue.Phase} :
    answerOf p = none ↔ ∀ given, p ≠ .completed given := by
  cases p <;> simp [answerOf]

def State.view (s : State) (a : AttemptId) : View where
  phase := (s.coordinator.coord.attempts a).phase
  held := decide ((s.coordinator.coord.attempts a).permit = .held)
  outstanding := (s.coordinator.coord.attempts a).reacquireOutstanding
  drain := (s.coordinator.coord.attempts a).drain
  lease := (s.first a).map fun i => (s.queue.ops i).lease
  releases := s.calls.count (.release a)
  asked := if s.locked then s.coordinator.coord.effects.reacquires.count a else 0
  pooled := s.reacquires.count a
  takeBack := (s.takeBack a).map fun i => answerOf (s.queue.ops i).phase
  drains := s.drains.count a + if s.locked then s.coordinator.coord.effects.drains.count a else 0
  ending := s.ending.count a

namespace View

/-- What the coordinator alone keeps to. -/
structure Steered (v : View) : Prop where
  before : v.phase = .pending ∨ v.phase = .queued → v.held = false ∧ v.outstanding = false
  outstanding : v.outstanding = true → v.held = false

/-- The two agree on who holds what: the lease of an attempt holds a slot exactly while the attempt
holds its permit, has yet to give it back or has yet to hear that it was granted. -/
structure Ok (v : View) : Prop where
  unscheduled : v.phase = .pending → v.lease = none
  waiting : v.phase = .queued → v.lease ≠ some (some false)
  started : v.phase = .running ∨ v.phase = .ended → ∃ held, v.lease = some (some held)
  before : v.phase = .pending ∨ v.phase = .queued → v.releases = 0
  owed : v.outstanding.toNat = v.asked + v.pooled + v.takeBack.isSome.toNat
  permits : v.phase = .running ∨ v.drain = true →
    (decide (v.lease = some (some true))).toNat =
      v.held.toNat + v.releases + (decide (v.takeBack = some (some true))).toNat
  pooled : 0 < v.pooled → v.releases = 0
  drained : v.drain = true → v.phase = .ended
  outstanding : v.phase = .ended → v.outstanding = v.drain
  ended : v.phase = .ended → v.lease = some (some true) →
    v.drain = true ∨ 0 < v.drains ∨ 0 < v.ending
  finished : 0 < v.drains ∨ 0 < v.ending → v.phase = .ended ∧ v.drain = false

variable {v : View}

/-- How a transition leaves an attempt's view. -/
def turned (v : View) (c : Control) (releases asked drains : Nat) : View :=
  { v with
    phase := c.phase
    held := decide (c.permit = .held)
    outstanding := c.reacquireOutstanding
    drain := c.drain
    releases
    asked
    drains := v.drains + drains }

/-- A transition about other attempts. -/
theorem Ok.calm (h : v.Ok) (hs : v.Steered) (hasked : v.asked = 0) (hnone : v.releases = 0)
    {c : Control}
    {releases asked : Nat} (hphase : c.phase = v.phase) (hdrain : c.drain = v.drain)
    (hstopping : c.phase = .ended → c.reacquireOutstanding = true → v.outstanding = true)
    (hreleases : releases + (decide (c.permit = .held)).toNat = v.held.toNat)
    (howed : c.reacquireOutstanding.toNat = v.outstanding.toNat + asked) :
    (v.turned c releases asked 0).Ok where
  unscheduled hp := h.unscheduled (hphase.symm.trans hp)
  waiting hp := h.waiting (hphase.symm.trans hp)
  started hp := h.started (hphase ▸ hp)
  before hp := by
    obtain ⟨hheld, _⟩ := hs.before (hphase ▸ hp)
    show releases = 0
    rw [hheld] at hreleases
    have h0 : Bool.toNat false = 0 := rfl
    omega
  owed := by
    have := h.owed
    show c.reacquireOutstanding.toNat = asked + v.pooled + v.takeBack.isSome.toNat
    omega
  permits hp := by
    have hp' : v.phase = .running ∨ v.drain = true := by rwa [← hphase, ← hdrain]
    have heq := h.permits hp'
    show (decide (v.lease = some (some true))).toNat =
      (decide (c.permit = .held)).toNat + releases + (decide (v.takeBack = some (some true))).toNat
    omega
  pooled hp := by
    have hout : v.outstanding = true := by
      by_contra ho
      have howed := h.owed
      rw [Bool.eq_false_iff.mpr ho] at howed
      have h0 : Bool.toNat false = 0 := rfl
      have hp' : 0 < v.pooled := hp
      omega
    show releases = 0
    rw [hs.outstanding hout] at hreleases
    have h0 : Bool.toNat false = 0 := rfl
    omega
  drained hd := hphase.trans (h.drained (hdrain.symm.trans hd))
  outstanding hp := by
    have hv := h.outstanding (hphase.symm.trans hp)
    show c.reacquireOutstanding = c.drain
    rw [hdrain, ← hv]
    cases hc : c.reacquireOutstanding with
    | true => exact (hstopping hp hc).symm
    | false =>
      rw [hc] at howed
      cases ho : v.outstanding with
      | true =>
        rw [ho] at howed
        have h0 : Bool.toNat false = 0 := rfl
        have h1 : Bool.toNat true = 1 := rfl
        omega
      | false => rfl
  ended hp hl := by
    obtain hd | hd | hd := h.ended (hphase.symm.trans hp) hl
    · exact .inl (hdrain.trans hd)
    · exact .inr (.inl (Nat.lt_of_lt_of_le hd (Nat.le_add_right _ _)))
    · exact .inr (.inr hd)
  finished ho := by
    obtain ⟨hp, hd⟩ := h.finished ho
    exact ⟨hphase.trans hp, hdrain.trans hd⟩

/-- `run`: in line for its first permit. -/
theorem Ok.run (h : v.Ok) (hp : v.phase = .pending) (hasked : v.asked = 0) {c : Control}
    (hc : c.phase = .queued) (hout : c.reacquireOutstanding = v.outstanding) (hdrain : c.drain = v.drain) :
    (v.turned c 0 0 0).Ok where
  unscheduled hq := by
    have hq' : c.phase = .pending := hq
    rw [hc] at hq'
    simp at hq'
  waiting _ := by
    show v.lease ≠ _
    rw [h.unscheduled hp]
    simp
  started hq := by
    have hq' : c.phase = .running ∨ c.phase = .ended := hq
    rw [hc] at hq'
    simp at hq'
  before _ := rfl
  owed := by
    have howed := h.owed
    show c.reacquireOutstanding.toNat = 0 + v.pooled + v.takeBack.isSome.toNat
    rw [hout]
    omega
  permits hq := by
    have hq' : c.phase = .running ∨ c.drain = true := hq
    rw [hc, hdrain] at hq'
    have hd := h.drained (hq'.resolve_left (by simp))
    rw [hp] at hd
    simp at hd
  pooled _ := rfl
  drained hd := by
    have hd' := h.drained (hdrain.symm.trans hd)
    rw [hp] at hd'
    simp at hd'
  outstanding hq := by
    have hq' : c.phase = .ended := hq
    rw [hc] at hq'
    simp at hq'
  ended hq := by
    have hq' : c.phase = .ended := hq
    rw [hc] at hq'
    simp at hq'
  finished ho := by
    have hq := (h.finished ho).1
    rw [hp] at hq
    simp at hq

/-- `on_permit`: its lease was made for it. -/
theorem Ok.onPermit (h : v.Ok) (hs : v.Steered) (hp : v.phase = .queued) (hasked : v.asked = 0)
    (hlease : v.lease = some (some true)) {c : Control} (hc : c.phase = .running)
    (hheld : c.permit = .held) (hout : c.reacquireOutstanding = v.outstanding)
    (hdrain : c.drain = v.drain) : (v.turned c 0 0 0).Ok := by
  obtain ⟨_, hnone⟩ := hs.before (.inr hp)
  have howed := h.owed
  rw [hnone] at howed
  have h0 : Bool.toNat false = 0 := rfl
  have hback : v.takeBack = none := by
    cases htb : v.takeBack with
    | none => rfl
    | some answer =>
      rw [htb] at howed
      have h1 : (some answer).isSome.toNat = 1 := rfl
      omega
  refine ⟨fun hq => ?_, fun hq => ?_, fun _ => ⟨true, hlease⟩, fun _ => rfl, ?_, fun _ => ?_,
    fun _ => rfl, fun hd => ?_, fun hq => ?_, fun hq => ?_, fun ho => ?_⟩
  · have hq' : c.phase = .pending := hq
    rw [hc] at hq'
    simp at hq'
  · have hq' : c.phase = .queued := hq
    rw [hc] at hq'
    simp at hq'
  · show c.reacquireOutstanding.toNat = 0 + v.pooled + v.takeBack.isSome.toNat
    rw [hout, hnone]
    omega
  · show (decide (v.lease = some (some true))).toNat =
      (decide (c.permit = .held)).toNat + 0 + (decide (v.takeBack = some (some true))).toNat
    rw [hlease, hheld, hback]
    rfl
  · have hd' := h.drained (hdrain.symm.trans hd)
    rw [hp] at hd'
    simp at hd'
  · have hq' : c.phase = .ended := hq
    rw [hc] at hq'
    simp at hq'
  · have hq' : c.phase = .ended := hq
    rw [hc] at hq'
    simp at hq'
  · have hq := (h.finished ho).1
    rw [hp] at hq
    simp at hq

/-- `finish`: its end waits for its take-back, or is for the thread it ran on to see to. -/
theorem Ok.finish (h : v.Ok) (hs : v.Steered) (hp : v.phase = .running) (hasked : v.asked = 0)
    (hnone : v.releases = 0) {c : Control} {releases asked drains : Nat} (hc : c.phase = .ended)
    (hends : c.drain = true ∧ drains = 0 ∧ c.reacquireOutstanding = true ∨
      c.drain = v.drain ∧ drains = 1 ∧ c.reacquireOutstanding = false)
    (hreleases : releases + (decide (c.permit = .held)).toNat = v.held.toNat)
    (howed : c.reacquireOutstanding.toNat = v.outstanding.toNat + asked) :
    (v.turned c releases asked drains).Ok := by
  have hnd : v.drain = false := by
    by_contra hd
    have := h.drained (by simpa using hd)
    rw [hp] at this
    simp at this
  have hold := h.owed
  have h0 : Bool.toNat false = 0 := rfl
  refine ⟨fun hq => ?_, fun hq => ?_, fun _ => h.started (.inl hp), fun hq => ?_, ?_, fun _ => ?_,
    fun hpool => ?_, fun _ => hc, fun _ => ?_, fun _ _ => ?_, fun ho => ⟨hc, ?_⟩⟩
  · have hq' : c.phase = .pending := hq
    rw [hc] at hq'
    simp at hq'
  · have hq' : c.phase = .queued := hq
    rw [hc] at hq'
    simp at hq'
  · have hq' : c.phase = .pending ∨ c.phase = .queued := hq
    rw [hc] at hq'
    simp at hq'
  · show c.reacquireOutstanding.toNat = asked + v.pooled + v.takeBack.isSome.toNat
    omega
  · have heq := h.permits (.inl hp)
    show (decide (v.lease = some (some true))).toNat =
      (decide (c.permit = .held)).toNat + releases + (decide (v.takeBack = some (some true))).toNat
    omega
  · have hpool' : 0 < v.pooled := hpool
    have hout : v.outstanding = true := by
      by_contra ho
      rw [Bool.eq_false_iff.mpr ho] at hold
      omega
    show releases = 0
    rw [hs.outstanding hout] at hreleases
    omega
  · obtain ⟨hd, _, ho⟩ | ⟨hd, _, ho⟩ := hends
    · exact ho.trans hd.symm
    · exact ho.trans (hd.trans hnd).symm
  · obtain ⟨hd, _⟩ | ⟨_, hd, _⟩ := hends
    · exact .inl hd
    · exact .inr (.inl (by
        show 0 < v.drains + drains
        omega))
  · obtain ⟨_, hzero, _⟩ | ⟨hd, _⟩ := hends
    · have hold : 0 < v.drains ∨ 0 < v.ending := by
        rw [hzero] at ho
        exact ho
      have hq := (h.finished hold).1
      rw [hp] at hq
      simp at hq
    · exact hd.trans hnd

/-- `on_reacquired`, from the take-back's operation or because it threw: one is owed no longer. -/
theorem Ok.onReacquired (h : v.Ok) (hs : v.Steered) (hout : v.outstanding = true)
    (hnone : v.releases = 0) {granted : Bool} {w : View}
    (hw : w = { v with takeBack := none, pooled := 0 })
    (hanswer : v.takeBack = some (some granted) ∨ v.takeBack = none ∧ granted = false)
    {c : Control} {releases asked drains : Nat} (hc : c.phase = v.phase) (hdrain : c.drain = false)
    (hstopping : c.phase = .ended → c.reacquireOutstanding = false)
    (hdrains : drains = v.drain.toNat)
    (hreleases : releases + (decide (c.permit = .held)).toNat = granted.toNat)
    (howed : c.reacquireOutstanding.toNat + 1 = v.outstanding.toNat + asked) :
    (w.turned c releases asked drains).Ok := by
  subst hw
  have hheld := hs.outstanding hout
  have hnot : v.phase ≠ .pending ∧ v.phase ≠ .queued := by
    refine ⟨fun hp => ?_, fun hp => ?_⟩
    · have := (hs.before (.inl hp)).2
      rw [hout] at this
      simp at this
    · have := (hs.before (.inr hp)).2
      rw [hout] at this
      simp at this
  have h0 : Bool.toNat false = 0 := rfl
  have h1 : Bool.toNat true = 1 := rfl
  have hback : (decide (v.takeBack = some (some true))).toNat = granted.toNat := by
    obtain hb | ⟨hb, rfl⟩ := hanswer
    · rw [hb]
      cases granted <;> rfl
    · rw [hb]
      rfl
  refine ⟨fun hq => absurd (hc.symm.trans hq) hnot.1, fun hq => absurd (hc.symm.trans hq) hnot.2,
    fun hq => h.started (hc ▸ hq), fun hq => ?_, ?_, fun hq => ?_, fun hpool => ?_, fun hd => ?_,
    fun hq => ?_, fun hq hl => ?_, fun ho => ⟨?_, hdrain⟩⟩
  · obtain hq | hq := hq
    · exact absurd (hc.symm.trans hq) hnot.1
    · exact absurd (hc.symm.trans hq) hnot.2
  · show c.reacquireOutstanding.toNat = asked + 0 + 0
    rw [hout] at howed
    omega
  · have hq' : v.phase = .running := by
      obtain hq | hq := hq
      · exact hc.symm.trans hq
      · have hd : c.drain = true := hq
        rw [hdrain] at hd
        simp at hd
    have heq := h.permits (.inl hq')
    rw [hheld, hnone, hback] at heq
    show (decide (v.lease = some (some true))).toNat = (decide (c.permit = .held)).toNat + releases + 0
    omega
  · exact absurd hpool (Nat.lt_irrefl 0)
  · have hd' : c.drain = true := hd
    rw [hdrain] at hd'
    simp at hd'
  · show c.reacquireOutstanding = c.drain
    rw [hstopping hq, hdrain]
  · obtain hd | hd | hd := h.ended (hc.symm.trans hq) hl
    · refine .inr (.inl ?_)
      show 0 < v.drains + drains
      rw [hd] at hdrains
      omega
    · exact .inr (.inl (Nat.lt_of_lt_of_le hd (Nat.le_add_right _ _)))
    · exact .inr (.inr hd)
  · cases hd : v.drain with
    | true => exact hc.trans (h.drained hd)
    | false =>
      rw [hd] at hdrains
      have ho' : 0 < v.drains + drains ∨ 0 < v.ending := ho
      exact hc.trans (h.finished (by omega)).1

/-- The lease gives its slot back. -/
def released (lease : Option (Option Bool)) : Option (Option Bool) :=
  lease.map fun held => held.map fun _ => false

theorem released_started {lease : Option (Option Bool)} (h : ∃ held, lease = some (some held)) :
    released lease = some (some false) := by
  obtain ⟨held, rfl⟩ := h
  rfl

/-- The transition under way asks the lease to give back the slot its attempt gave up. -/
theorem Ok.called (h : v.Ok) (hr : 0 < v.releases) :
    ({ v with releases := v.releases - 1, lease := released v.lease } : View).Ok := by
  have hstarted : v.phase = .running ∨ v.phase = .ended := by
    cases hp : v.phase with
    | pending =>
      have := h.before (.inl hp)
      omega
    | queued =>
      have := h.before (.inr hp)
      omega
    | running => exact .inl rfl
    | ended => exact .inr rfl
  have hlease := released_started (h.started hstarted)
  refine ⟨fun hp => ?_, fun hp => ?_, fun _ => ⟨false, hlease⟩, fun hp => ?_, h.owed,
    fun hp => ?_, fun hp => ?_, h.drained, h.outstanding, fun _ hl => ?_, h.finished⟩
  · have hp' : v.phase = .pending := hp
    rw [hp'] at hstarted
    simp at hstarted
  · have hp' : v.phase = .queued := hp
    rw [hp'] at hstarted
    simp at hstarted
  · have := h.before hp
    omega
  · have heq := h.permits hp
    show (decide (released v.lease = some (some true))).toNat =
      v.held.toNat + (v.releases - 1) + (decide (v.takeBack = some (some true))).toNat
    have hle := Bool.toNat_le (decide (v.lease = some (some true)))
    have hno : (decide (released v.lease = some (some true))).toNat = 0 := by
      rw [hlease]
      rfl
    omega
  · have := h.pooled hp
    omega
  · have hl' : released v.lease = some (some true) := hl
    rw [hlease] at hl'
    simp at hl'

/-- The lock is released: the take-backs started are left to be run. -/
theorem Ok.unlocked (h : v.Ok) (hnone : v.releases = 0) :
    ({ v with asked := 0, pooled := v.pooled + v.asked } : View).Ok :=
  ⟨h.unscheduled, h.waiting, h.started, h.before, by
    have := h.owed
    show v.outstanding.toNat = 0 + (v.pooled + v.asked) + v.takeBack.isSome.toNat
    omega, h.permits, fun _ => hnone, h.drained, h.outstanding, h.ended, h.finished⟩

theorem Ok.scheduled (h : v.Ok) (hp : v.phase = .queued) :
    ({ v with lease := some none } : View).Ok := by
  have hnot : ∀ p, p ≠ .queued → v.phase ≠ p := fun p hne hq => hne (hq.symm.trans hp)
  refine ⟨fun hq => absurd hq (hnot _ (by simp)), fun _ => by simp, fun hq => ?_, h.before, h.owed,
    fun hq => ?_, h.pooled, h.drained, h.outstanding, fun hq => absurd hq (hnot _ (by simp)), h.finished⟩
  · exact hq.elim (fun hq => absurd hq (hnot _ (by simp))) fun hq => absurd hq (hnot _ (by simp))
  · exact hq.elim (fun hq => absurd hq (hnot _ (by simp)))
      fun hd => absurd (h.drained hd) (hnot _ (by simp))

/-- A lease is made of the first slot, before the attempt starts. -/
theorem Ok.leased (h : v.Ok) (hl : v.lease = some none) :
    ({ v with lease := some (some true) } : View).Ok := by
  have hnot : v.phase ≠ .running ∧ v.phase ≠ .ended := by
    refine ⟨fun hp => ?_, fun hp => ?_⟩
    · obtain ⟨held, hs⟩ := h.started (.inl hp)
      rw [hl] at hs
      simp at hs
    · obtain ⟨held, hs⟩ := h.started (.inr hp)
      rw [hl] at hs
      simp at hs
  refine ⟨fun hp => ?_, fun _ => by simp, fun _ => ⟨true, rfl⟩, h.before, h.owed, fun hp => ?_,
    h.pooled, h.drained, h.outstanding, fun hp => absurd hp hnot.2, h.finished⟩
  · have := h.unscheduled hp
    rw [hl] at this
    simp at this
  · exact hp.elim (fun hp => absurd hp hnot.1) fun hd => absurd (h.drained hd) hnot.2

/-- A take-back that completes with a slot has its lease hold it, before the attempt hears of it. -/
theorem Ok.completed (h : v.Ok) (hb : v.takeBack = some none)
    (hl : v.lease = some (some false)) (given : Bool) :
    ({ v with
        takeBack := some (some given)
        lease := if given then some (some true) else v.lease } : View).Ok := by
  have howed := h.owed
  rw [hb] at howed
  have h1 : (some (none : Option Bool)).isSome.toNat = 1 := rfl
  have hout : v.outstanding = true := by
    by_contra ho
    rw [Bool.eq_false_iff.mpr ho] at howed
    have h0 : Bool.toNat false = 0 := rfl
    omega
  refine ⟨fun hp => ?_, fun hp => ?_, fun hp => ?_, h.before, howed, fun hp => ?_, h.pooled,
    h.drained, h.outstanding, fun hp _ => .inl ?_, h.finished⟩
  · have := h.unscheduled hp
    rw [hl] at this
    simp at this
  · exact absurd hl (h.waiting hp)
  · cases given with
    | true => exact ⟨true, rfl⟩
    | false => exact ⟨false, hl⟩
  · have heq := h.permits hp
    rw [hl, hb] at heq
    cases given with
    | true =>
      show 1 = v.held.toNat + v.releases + 1
      have hz : 0 = v.held.toNat + v.releases + 0 := heq
      omega
    | false =>
      show (decide (v.lease = some (some true))).toNat = v.held.toNat + v.releases + 0
      rw [hl]
      exact heq
  · rw [← h.outstanding hp]
    exact hout

/-- A take-back left to be run finds the lease without its slot, and no other under way. -/
theorem Ok.takeable (h : v.Ok) (hs : v.Steered) (hp : 0 < v.pooled) :
    v.outstanding = true ∧ v.pooled = 1 ∧ v.takeBack = none ∧ v.lease = some (some false) := by
  have howed := h.owed
  have hle := Bool.toNat_le v.outstanding
  have hout : v.outstanding = true := by
    by_contra ho
    rw [Bool.eq_false_iff.mpr ho] at howed
    have h0 : Bool.toNat false = 0 := rfl
    omega
  have hback : v.takeBack = none := by
    cases hb : v.takeBack with
    | none => rfl
    | some answer =>
      rw [hb] at howed
      have h1 : (some answer).isSome.toNat = 1 := rfl
      omega
  have hphase : v.phase = .running ∨ v.drain = true := by
    cases hq : v.phase with
    | pending =>
      have := (hs.before (.inl hq)).2
      rw [hout] at this
      simp at this
    | queued =>
      have := (hs.before (.inr hq)).2
      rw [hout] at this
      simp at this
    | running => exact .inl rfl
    | ended => exact .inr ((h.outstanding hq).symm.trans hout)
  have heq := h.permits hphase
  rw [hs.outstanding hout, h.pooled hp, hback] at heq
  obtain ⟨held, hheld⟩ := h.started (hphase.imp id h.drained)
  refine ⟨hout, by omega, hback, ?_⟩
  rw [hheld] at heq ⊢
  cases held with
  | true => simp at heq
  | false => rfl

theorem Ok.reacquired (h : v.Ok) (hs : v.Steered) (hp : 0 < v.pooled) :
    ({ v with pooled := v.pooled - 1, takeBack := some none } : View).Ok := by
  obtain ⟨hout, hone, hback, hlease⟩ := h.takeable hs hp
  refine ⟨h.unscheduled, h.waiting, h.started, h.before, ?_, fun hq => ?_, fun hq => ?_, h.drained,
    h.outstanding, h.ended, h.finished⟩
  · have howed := h.owed
    rw [hback] at howed
    show v.outstanding.toNat = v.asked + (v.pooled - 1) + 1
    have h0 : (none : Option (Option Bool)).isSome.toNat = 0 := rfl
    omega
  · have heq := h.permits hq
    rw [hback] at heq
    exact heq
  · have hq' : 0 < v.pooled - 1 := hq
    omega

theorem Ok.drainedOff (h : v.Ok) (hd : 0 < v.drains) :
    ({ v with drains := v.drains - 1, ending := v.ending + 1 } : View).Ok :=
  ⟨h.unscheduled, h.waiting, h.started, h.before, h.owed, h.permits, h.pooled, h.drained,
    h.outstanding, fun _ _ => .inr (.inr (Nat.succ_pos _)), fun _ => h.finished (.inl hd)⟩

/-- The end of an attempt: whatever its lease still holds goes back. -/
theorem Ok.closed (h : v.Ok) (he : 0 < v.ending) :
    ({ v with ending := v.ending - 1, lease := released v.lease } : View).Ok := by
  obtain ⟨hp, hd⟩ := h.finished (.inr he)
  have hlease := released_started (h.started (.inr hp))
  have hnot : ∀ p, p ≠ .ended → v.phase ≠ p := fun p hne hq => hne (hq.symm.trans hp)
  refine ⟨fun hq => absurd hq (hnot _ (by simp)), fun hq => absurd hq (hnot _ (by simp)),
    fun _ => ⟨false, hlease⟩, h.before, h.owed, fun hq => ?_, h.pooled, h.drained, h.outstanding,
    fun _ hl => ?_, fun _ => ⟨hp, hd⟩⟩
  · obtain hq | hq := hq
    · exact absurd hq (hnot _ (by simp))
    · have hq' : v.drain = true := hq
      rw [hd] at hq'
      simp at hq'
  · have hl' : released v.lease = some (some true) := hl
    rw [hlease] at hl'
    simp at hl'

end View

end MakeBelieve.Permits
