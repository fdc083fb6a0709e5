import MakeBelieve.Queue.Runs

namespace MakeBelieve.Queue

open Library IntrusiveList

/-- How many phases an operation has yet to come through, at most. -/
def Phase.toGo : Phase → Nat
  | .idle => 6
  | .starting => 5
  | .queued => 4
  | .handed _ => 3
  | .resuming _ => 2
  | .completing _ => 1
  | .completed _ => 0

/-- What an operation does next without waiting for anyone. -/
def ownEvent (i : OpId) : Phase → Option Event
  | .starting => some (.enter i)
  | .handed given => some (.handOn i given)
  | .resuming given => some (.resume i given)
  | .completing given => some (.complete i given)
  | _ => none

namespace State

/-- A stop heard while starting is remembered to the lock, and one heard in line ends it. -/
def HeardOk (op : Op) : Prop :=
  op.calledBack = true → (op.phase = .starting ∧ op.stoppedEarly = true) ∨ op.phase.toGo ≤ 3

/-- No operation goes back a phase, nor is one in line that has heard its stop. -/
def Onward (s t : State) : Prop :=
  ∀ i, (t.ops i).phase.toGo ≤ (s.ops i).phase.toGo ∧ (HeardOk (s.ops i) → HeardOk (t.ops i))

variable {n : Nat} {s t u : State} {q : Queued} {i : OpId}

theorem Onward.trans (h : s.Onward t) (h' : t.Onward u) : s.Onward u :=
  fun i => ⟨Nat.le_trans (h' i).1 (h i).1, fun hs => (h' i).2 ((h i).2 hs)⟩

theorem onward_of_ops (h : t.ops = s.ops) : s.Onward t :=
  fun i => ⟨Nat.le_of_eq (by rw [h]), fun hs => by rwa [h]⟩

theorem onward_update {op : Op} (hops : t.ops = Function.update s.ops i op)
    (hto : op.phase.toGo ≤ (s.ops i).phase.toGo) (hheard : HeardOk (s.ops i) → HeardOk op) :
    s.Onward t := by
  intro j
  by_cases hj : j = i
  · rw [hj, hops, Function.update_self]
    exact ⟨hto, hheard⟩
  · rw [hops, Function.update_of_ne hj]
    exact ⟨Nat.le_refl _, id⟩

/-- Past the lines, the phase alone counts. -/
theorem onward_setPhase (s : State) (i : OpId) {phase : Phase} (h3 : phase.toGo ≤ 3)
    (hp : phase.toGo ≤ (s.ops i).phase.toGo) : s.Onward (s.setPhase i phase) :=
  onward_update rfl hp fun _ _ => .inr h3

theorem setOp_phase (s : State) (i : OpId) {f : Op → Op} (hf : ∀ op, (f op).phase = op.phase)
    (j : OpId) : ((s.setOp i f).ops j).phase = (s.ops j).phase := by
  show (Function.update s.ops i (f (s.ops i)) j).phase = _
  by_cases hj : j = i
  · rw [hj, Function.update_self, hf]
  · rw [Function.update_of_ne hj]

theorem onward_setOp (s : State) (i : OpId) {f : Op → Op} (hf : ∀ op, (f op).phase = op.phase)
    (hheard : ∀ op, HeardOk op → HeardOk (f op)) : s.Onward (s.setOp i f) :=
  onward_update rfl (Nat.le_of_eq (by rw [hf])) (hheard _)

theorem setPhase_phase (s : State) (i : OpId) (phase : Phase) :
    ((s.setPhase i phase).ops i).phase = phase := by
  show (Function.update s.ops i _ i).phase = phase
  rw [Function.update_self]

theorem leftLine_ops (s : State) (i : OpId) : (s.leftLine i).ops = s.ops := by
  rw [leftLine_eq]

theorem onward_release (hl : s.Lined q) (hp : s.Placed q) : s.Onward s.release := by
  obtain ⟨line, i, rest, u, hq, honly, _, hrelease, _⟩ | ⟨_, hrelease⟩ := release_cases hl hp
  · have hops : (u.leftLine i).ops = s.ops := by rw [leftLine_ops, honly]
    have hphase : (s.ops i).phase = .queued := (hp.queued i).mp ⟨line, by simp [hq]⟩
    rw [hrelease]
    exact (onward_of_ops hops).trans
      (onward_setPhase _ i (by simp [Phase.toGo]) (by simp [hops, hphase, Phase.toGo]))
  · rw [hrelease]
    exact onward_of_ops rfl

/-- A stop takes a waiter off its line, and is remembered of any other operation. -/
theorem onStop_ops (h : Ok n s q) (i : OpId) :
    (s.onStop i).ops = Function.update s.ops i
      (if (s.ops i).phase = .queued then
        { s.ops i with calledBack := true, phase := .handed false }
      else { s.ops i with calledBack := true, stoppedEarly := true }) := by
  let called : State := s.setOp i fun op => { op with calledBack := true }
  have hself : called.ops i = { s.ops i with calledBack := true } := Function.update_self ..
  have hlined : called.Lined q := h.lined.congr rfl rfl (Nat.le_refl _)
  have hplaced : called.Placed q := h.placed.update rfl (fun _ => rfl) rfl Iff.rfl
  rw [onStop_eq]
  by_cases hq : (s.ops i).phase = .queued
  · have hqueued : (called.ops i).phase = .queued := by rw [hself]; exact hq
    obtain ⟨line, u, _, honly, _, hd⟩ := dequeue_some hlined hplaced hqueued
    have hops : (u.leftLine i).ops = called.ops := by rw [leftLine_ops, honly]
    rw [hd, if_pos hq]
    show Function.update (u.leftLine i).ops i { (u.leftLine i).ops i with phase := .handed false } = _
    rw [hops, hself]
    exact Function.update_idem ..
  · have hqueued : (called.ops i).phase ≠ .queued := by rw [hself]; exact hq
    rw [dequeue_none hlined hplaced hqueued, if_neg hq]
    show Function.update called.ops i { called.ops i with stoppedEarly := true } = _
    rw [hself]
    exact Function.update_idem ..

theorem onward_onStop (h : Ok n s q) (hs : s.Stoppable i) : s.Onward (s.onStop i) := by
  refine onward_update (onStop_ops h i) ?_ ?_
  · split
    · next hq => simp [hq, Phase.toGo]
    · exact Nat.le_refl _
  · intro _ _
    split
    · exact .inr (by simp [Phase.toGo])
    · next hq =>
      cases hp : (s.ops i).phase with
      | idle => exact absurd hp hs.2.2.1
      | starting => exact .inl ⟨rfl, rfl⟩
      | queued => exact absurd hp hq
      | handed | resuming | completing | completed => exact .inr (by simp [Phase.toGo])

/-- What an operation started becomes at the lock: short of a slot it is in line. -/
theorem enter_phase (hi : (s.ops i).phase = .starting) :
    s.Onward (s.enter i) ∧ ((s.enter i).ops i).phase.toGo < 5 := by
  unfold enter tryTake
  by_cases hstopped : (s.ops i).stoppedEarly = true
  · rw [if_pos hstopped]
    refine ⟨onward_setPhase _ i (by simp [Phase.toGo]) (by simp [hi, Phase.toGo]), ?_⟩
    rw [setPhase_phase]
    decide
  · rw [if_neg hstopped]
    by_cases hfree : s.free = 0
    · simp only [hfree, if_true]
      obtain ⟨line, tickets, heq, _⟩ := enqueue_eq s i
      have hops : (s.enqueue i).ops = s.ops := by rw [heq]; rfl
      refine ⟨@onward_update s _ i { s.ops i with phase := .queued } ?_ (by simp [hi, Phase.toGo])
        fun hheard hcalled => ?_, ?_⟩
      · show Function.update (s.enqueue i).ops i { (s.enqueue i).ops i with phase := .queued } = _
        rw [hops]
      · obtain ⟨_, hearly⟩ | hpast := hheard hcalled
        · exact absurd hearly hstopped
        · simp [hi, Phase.toGo] at hpast
      · rw [setPhase_phase]
        decide
    · simp only [hfree, if_false]
      refine ⟨(onward_of_ops (t := { s with free := s.free - 1 }) rfl).trans
        (onward_setPhase _ i (by simp [Phase.toGo]) (by simp [hi, Phase.toGo])), ?_⟩
      rw [setPhase_phase]
      decide

theorem complete_phase (s : State) (i : OpId) (given : Bool) :
    s.Onward (s.complete i given) ∧ ((s.complete i given).ops i).phase = .completed given := by
  let done : State :=
    { s.setPhase i (.completed given) with completions := s.completions ++ [(i, given)] }
  have hphase : (done.ops i).phase = .completed given := setPhase_phase s i _
  have hdone : s.Onward done := onward_setPhase s i (Nat.zero_le _) (Nat.zero_le _)
  have hset : ∀ (j : OpId) (f : Op → Op), (∀ op, (f op).phase = op.phase) →
      (∀ op, HeardOk op → HeardOk (f op)) → s.Onward (done.setOp j f) ∧ ((done.setOp j f).ops i).phase = .completed given := by
    intro j f hf hheard
    exact ⟨hdone.trans (onward_setOp done j hf hheard), (setOp_phase done j hf i).trans hphase⟩
  cases given with
  | false => exact ⟨hdone, hphase⟩
  | true =>
    rw [complete_given]
    dsimp only
    split
    · exact hset _ _ (fun _ => rfl) fun _ => id
    · exact hset _ _ (fun _ => rfl) fun _ => id

theorem promote_ops (s : State) (ticket : TicketId) : (s.promote ticket).ops = s.ops := by
  unfold promote
  dsimp only
  split
  · rfl
  · split
    · rfl
    · split
      · rfl
      · next u hu =>
        obtain ⟨_, _, rfl⟩ := Option.map_eq_some_iff.mp hu
        rfl

/-- No event sends any operation back. -/
theorem onward_step (h : Ok n s q) {e : Event} (he : s.enabled e) : s.Onward (s.step e) := by
  have hreleased : ∀ {i} {f : Op → Op}, (∀ op, (f op).phase = op.phase ∧ (f op).kind = op.kind) →
      (∀ op, HeardOk op → HeardOk (f op)) → s.Onward (s.setOp i f).release := by
    intro i f hf hheard
    have hset : s.Onward (s.setOp i f) := onward_setOp s i (fun op => (hf op).1) hheard
    have hplaced : (s.setOp i f).Placed q :=
      h.placed.update rfl (fun _ => rfl) (hf _).2 (by rw [(hf _).1])
    exact hset.trans (onward_release (h.lined.congr rfl rfl (Nat.le_refl _)) hplaced)
  cases e with
  | connect kind =>
    refine @onward_update s _ s.opCount { kind } rfl ?_ fun _ hc => by simp at hc
    exact Nat.le_of_eq (by rw [h.fresh _ (Nat.le_refl _)])
  | start i =>
    refine onward_update rfl (by simp [he.2, Phase.toGo]) fun hheard hcalled => ?_
    have := hheard hcalled
    simp [he.2, Phase.toGo] at this
  | enter i => exact (enter_phase he).1
  | requestStop i =>
    exact onward_setOp s i (f := fun op => { op with stopRequested := true }) (fun _ => rfl)
      fun _ => id
  | onStop i => exact onward_onStop h he
  | handOn i given =>
    have hp : (s.ops i).phase = .handed given := he
    exact onward_setPhase s i (by simp [Phase.toGo]) (by simp [hp, Phase.toGo])
  | resume i given => exact (complete_phase s i given).1
  | shutDown i given =>
    have hp : (s.ops i).phase = .resuming given := he
    have hset : s.Onward (s.setPhase i (.completing false)) :=
      onward_setPhase s i (by simp [Phase.toGo]) (by simp [hp, Phase.toGo])
    show s.Onward (if given then (s.setPhase i (.completing false)).release
      else s.setPhase i (.completing false))
    split
    · have hplaced : (s.setPhase i (.completing false)).Placed q :=
        h.placed.update rfl (fun _ => rfl) rfl (by simp [hp])
      exact hset.trans (onward_release (h.lined.congr rfl rfl (Nat.le_refl _)) hplaced)
    · exact hset
  | complete i given => exact (complete_phase s i given).1
  | takeLease i =>
    exact onward_setOp s i (f := fun op => { op with slot := false, lease := some true })
      (fun _ => rfl) fun _ => id
  | releaseSlot i => exact hreleased (fun _ => ⟨rfl, rfl⟩) fun _ => id
  | releaseLease i =>
    show s.Onward (s.releaseLease i)
    unfold State.releaseLease
    split
    · exact hreleased (fun _ => ⟨rfl, rfl⟩) fun _ => id
    · exact onward_of_ops rfl
  | promote ticket => exact onward_of_ops (promote_ops s ticket)

/-- Only a start, a slot given or a stop brings an operation on that is idle or in line. -/
theorem ownEvent_none (hi : ownEvent i (s.ops i).phase = none) :
    (s.ops i).phase = .idle ∨ (s.ops i).phase = .queued ∨
      ∃ given, (s.ops i).phase = .completed given := by
  cases hp : (s.ops i).phase with
  | idle => exact .inl rfl
  | queued => exact .inr (.inl rfl)
  | completed given => exact .inr (.inr ⟨given, rfl⟩)
  | starting | handed | resuming | completing => simp [hp, ownEvent] at hi

theorem ok_init (n : Nat) : Ok n { free := n } fun _ => [] where
  lined := ⟨fun _ => holds_nil, fun _ _ _ hi => absurd hi (by simp), fun _ _ hi => absurd hi (by simp)⟩
  placed := ⟨fun i => by simp, fun _ _ hi => absurd hi (by simp), fun t i => by simp⟩
  op _ := ⟨by simp, by simp⟩
  fresh _ _ := rfl
  tied := ⟨fun _ _ hk => by simp at hk, fun _ _ _ hk => by simp at hk, fun _ _ _ hk => by simp at hk⟩
  logged := ⟨List.nodup_nil, fun i given => by simp⟩
  conserved := rfl
  idle _ _ := rfl

theorem sound (h : (machine n).Reachable (fun _ _ => True) s) :
    ∃ q, Ok n s q ∧ ∀ i, HeardOk (s.ops i) := by
  refine h.invariant (P := fun s => ∃ q, Ok n s q ∧ ∀ i, HeardOk (s.ops i)) (fun s hs => ?_)
    fun s e hs he _ => ?_
  · obtain rfl : s = { free := n } := hs
    exact ⟨_, ok_init n, fun _ hc => by simp at hc⟩
  · obtain ⟨q, hq, hheard⟩ := hs
    obtain ⟨r, hr⟩ := hq.step he
    exact ⟨r, hr, fun i => (onward_step hq he i).2 (hheard i)⟩

/-- With nothing held and nothing under way, no operation is left in line. -/
theorem Ok.drained (h : Ok n s q) (hn : 0 < n) (hheld : s.held = 0)
    (hown : ∀ i, ownEvent i (s.ops i).phase = none) (i : OpId) :
    (s.ops i).phase = .idle ∨ ∃ given, (s.ops i).phase = .completed given := by
  have hhanded : s.handedOn = 0 := by
    unfold handedOn
    rw [List.countP_eq_zero]
    intro j _
    obtain hp | hp | ⟨given, hp⟩ := ownEvent_none (hown j) <;> simp [hp, Phase.inTransit]
  have hfree : 0 < s.free := by
    have hc := h.conserved
    rw [tokens_eq] at hc
    omega
  obtain hp | hp | hp := ownEvent_none (hown i)
  · exact .inl hp
  · obtain ⟨line, hi⟩ := (h.placed.queued i).mpr hp
    rw [h.idle hfree line] at hi
    simp at hi
  · exact .inr hp

end State

end MakeBelieve.Queue
