import MakeBelieve.Queue.Conserved

namespace MakeBelieve.Queue.State

open Library IntrusiveList

/-- The operations are the same ones, with their leases, and those that have completed too. -/
structure Keeps (s t : State) : Prop where
  kind : ∀ i, (t.ops i).kind = (s.ops i).kind
  lease : ∀ i, (t.ops i).lease = (s.ops i).lease
  completed : ∀ i given, (t.ops i).phase = .completed given ↔ (s.ops i).phase = .completed given
  count : t.opCount = s.opCount

variable {n : Nat} {s t u : State} {q : Queued} {i : OpId}

theorem Keeps.trans (h : s.Keeps t) (h' : t.Keeps u) : s.Keeps u where
  kind i := (h'.kind i).trans (h.kind i)
  lease i := (h'.lease i).trans (h.lease i)
  completed i given := (h'.completed i given).trans (h.completed i given)
  count := h'.count.trans h.count

theorem keeps_of_ops (h : t.ops = s.ops) (hc : t.opCount = s.opCount) : s.Keeps t :=
  ⟨fun i => by rw [h], fun i => by rw [h], fun i given => by rw [h], hc⟩

theorem keeps_update {op : Op} (hops : t.ops = Function.update s.ops i op)
    (hc : t.opCount = s.opCount) (hk : op.kind = (s.ops i).kind) (hl : op.lease = (s.ops i).lease)
    (hp : ∀ given, op.phase = .completed given ↔ (s.ops i).phase = .completed given) :
    s.Keeps t := by
  have hat : ∀ j, t.ops j = if j = i then op else s.ops j := fun j => by
    rw [hops, Function.update_apply]
  refine ⟨fun j => ?_, fun j => ?_, fun j given => ?_, hc⟩ <;> rw [hat] <;> split
  · subst j; exact hk
  · rfl
  · subst j; exact hl
  · rfl
  · subst j; exact hp given
  · rfl

theorem keeps_setPhase (s : State) (i : OpId) {phase : Phase}
    (hp : ∀ given, phase = .completed given ↔ (s.ops i).phase = .completed given) :
    s.Keeps (s.setPhase i phase) :=
  keeps_update rfl rfl rfl rfl hp

theorem leftLine_keeps (s : State) (i : OpId) : s.Keeps (s.leftLine i) :=
  keeps_of_ops (leftLine_ops s i) (by rw [leftLine_eq])

theorem keeps_release (hl : s.Lined q) (hp : s.Placed q) : s.Keeps s.release := by
  obtain ⟨line, i, rest, u, hq, honly, _, hrelease, _⟩ | ⟨_, hrelease⟩ := release_cases hl hp
  · have hops : (u.leftLine i).ops = s.ops := by rw [leftLine_ops, honly]
    have hcount : (u.leftLine i).opCount = s.opCount := by rw [leftLine_eq, honly]
    have hphase : (s.ops i).phase = .queued := (hp.queued i).mp ⟨line, by simp [hq]⟩
    rw [hrelease]
    exact (keeps_of_ops hops hcount).trans (keeps_setPhase _ i (by simp [hops, hphase]))
  · rw [hrelease]
    exact keeps_of_ops rfl rfl

theorem removeLine_count {line : Line} (h : s.removeLine line i = some t) :
    t.opCount = s.opCount := by
  obtain ⟨_, _, rfl⟩ := Option.map_eq_some_iff.mp h
  rfl

theorem dequeue_count (h : s.dequeue i = some t) : t.opCount = s.opCount := by
  unfold dequeue at h
  split at h
  · exact removeLine_count h
  · split at h
    · next u hu =>
      obtain rfl := Option.some.inj h
      exact ((leftLine_keeps u i).count).trans (removeLine_count hu)
    · obtain ⟨u, hu, rfl⟩ := Option.map_eq_some_iff.mp h
      exact ((leftLine_keeps u i).count).trans (removeLine_count hu)

theorem keeps_onStop (h : Ok n s q) (i : OpId) : s.Keeps (s.onStop i) := by
  have hcount : (s.onStop i).opCount = s.opCount := by
    unfold State.onStop
    dsimp only
    split
    · rfl
    · next u hu =>
      have := dequeue_count hu
      exact this
  refine keeps_update (onStop_ops h i) hcount ?_ ?_ fun given => ?_ <;> split
  · rfl
  · rfl
  · rfl
  · rfl
  · next hq => simp [hq]
  · exact Iff.rfl

theorem keeps_enter (hi : (s.ops i).phase = .starting) : s.Keeps (s.enter i) := by
  unfold enter tryTake
  split
  · exact keeps_setPhase s i (by simp [hi])
  · by_cases hfree : s.free = 0
    · simp only [hfree, if_true]
      obtain ⟨line, tickets, heq, _⟩ := enqueue_eq s i
      have hops : (s.enqueue i).ops = s.ops := by rw [heq]; rfl
      have hcount : (s.enqueue i).opCount = s.opCount := by rw [heq]; rfl
      exact (keeps_of_ops hops hcount).trans (keeps_setPhase _ i (by simp [hops, hi]))
    · simp only [hfree, if_false]
      exact keeps_update (i := i) rfl rfl rfl rfl (by simp [hi])

theorem promote_count (s : State) (ticket : TicketId) : (s.promote ticket).opCount = s.opCount := by
  unfold promote
  dsimp only
  split
  · rfl
  · split
    · rfl
    · split
      · rfl
      · next u hu =>
        have := removeLine_count hu
        exact this

theorem keeps_promote (s : State) (ticket : TicketId) : s.Keeps (s.promote ticket) :=
  keeps_of_ops (promote_ops s ticket) (promote_count s ticket)

/-- A change to one operation, its lease apart, and a slot that comes back. -/
theorem keeps_setOp_release (h : Ok n s q) {f : Op → Op}
    (hk : (f (s.ops i)).kind = (s.ops i).kind) (hl : (f (s.ops i)).lease = (s.ops i).lease)
    (hq : (f (s.ops i)).phase = .queued ↔ (s.ops i).phase = .queued)
    (hp : ∀ given, (f (s.ops i)).phase = .completed given ↔ (s.ops i).phase = .completed given) :
    s.Keeps (s.setOp i f).release :=
  (keeps_update (t := s.setOp i f) rfl rfl hk hl hp).trans
    (keeps_release (h.lined.congr rfl rfl (Nat.le_refl _)) (h.placed.update rfl (fun _ => rfl) hk hq))

theorem keeps_shutDown (h : Ok n s q) {given : Bool} (hi : (s.ops i).phase = .resuming given) :
    s.Keeps (s.shutDown i given) := by
  unfold State.shutDown
  cases given with
  | false => exact keeps_setPhase s i (by simp [hi])
  | true =>
    exact keeps_setOp_release h (f := fun op => { op with phase := .completing false }) rfl rfl
      (by simp [hi]) (by simp [hi])

theorem keeps_releaseSlot (h : Ok n s q) : s.Keeps (s.releaseSlot i) :=
  keeps_setOp_release h (f := fun op => { op with slot := false }) rfl rfl Iff.rfl fun _ => Iff.rfl

/-- Releasing a lease leaves it without its slot, and changes no other. -/
structure Releases (s t : State) (i : OpId) : Prop where
  kind : ∀ j, (t.ops j).kind = (s.ops j).kind
  lease : ∀ j, (t.ops j).lease = if j = i then (s.ops i).lease.map fun _ => false else (s.ops j).lease
  completed : ∀ j given, (t.ops j).phase = .completed given ↔ (s.ops j).phase = .completed given
  count : t.opCount = s.opCount

theorem releaseLease_releases (h : Ok n s q) (i : OpId) : s.Releases (s.releaseLease i) i := by
  unfold State.releaseLease
  split
  · next hheld =>
    let before : State := s.setOp i fun op => { op with lease := some false }
    have hself : before.ops i = { s.ops i with lease := some false } := Function.update_self ..
    have hother : ∀ j, j ≠ i → before.ops j = s.ops j := fun j hj => Function.update_of_ne hj ..
    have hkeep : before.Keeps before.release :=
      keeps_release (h.lined.congr rfl rfl (Nat.le_refl _))
        (h.placed.update rfl (fun _ => rfl) rfl Iff.rfl)
    refine ⟨fun j => ?_, fun j => ?_, fun j given => ?_, hkeep.count⟩
    · rw [hkeep.kind]
      by_cases hj : j = i
      · rw [hj, hself]
      · rw [hother j hj]
    · rw [hkeep.lease]
      by_cases hj : j = i
      · rw [if_pos hj, hj, hself, hheld]
        rfl
      · rw [if_neg hj, hother j hj]
    · rw [hkeep.completed]
      by_cases hj : j = i
      · rw [hj, hself]
      · rw [hother j hj]
  · next hheld =>
    refine ⟨fun _ => rfl, fun j => ?_, fun _ _ => Iff.rfl, rfl⟩
    split
    · subst j
      cases hl : (s.ops i).lease with
      | none => rfl
      | some held =>
        cases held with
        | true => exact absurd hl hheld
        | false => rfl
    · rfl

/-- Completing a take-back with a slot is what its lease holds it again by. -/
structure Completes (s t : State) (i : OpId) (given : Bool) : Prop where
  kind : ∀ j, (t.ops j).kind = (s.ops j).kind
  lease : ∀ j, (t.ops j).lease =
    if given = true ∧ (s.ops i).kind = .reacquire j then some true else (s.ops j).lease
  completed : ∀ j g, (t.ops j).phase = .completed g ↔
    if j = i then g = given else (s.ops j).phase = .completed g
  count : t.opCount = s.opCount

theorem complete_completes (s : State) (i : OpId) (given : Bool) :
    s.Completes (s.complete i given) i given := by
  let done : State :=
    { s.setPhase i (.completed given) with completions := s.completions ++ [(i, given)] }
  have hself : done.ops i = { s.ops i with phase := .completed given } := Function.update_self ..
  have hother : ∀ j, j ≠ i → done.ops j = s.ops j := fun j hj => Function.update_of_ne hj ..
  have hkind : ∀ j, (done.ops j).kind = (s.ops j).kind := by
    intro j
    by_cases hj : j = i
    · rw [hj, hself]
    · rw [hother j hj]
  have hlease : ∀ j, (done.ops j).lease = (s.ops j).lease := by
    intro j
    by_cases hj : j = i
    · rw [hj, hself]
    · rw [hother j hj]
  have hdone : ∀ j g, (done.ops j).phase = .completed g ↔
      if j = i then g = given else (s.ops j).phase = .completed g := by
    intro j g
    by_cases hj : j = i
    · rw [if_pos hj, hj, hself]
      simp [eq_comm]
    · rw [if_neg hj, hother j hj]
  have hset : ∀ (j : OpId) (f : Op → Op), (∀ op, (f op).kind = op.kind ∧ (f op).phase = op.phase) →
      ∀ k, ((done.setOp j f).ops k).kind = (done.ops k).kind ∧
        ((done.setOp j f).ops k).phase = (done.ops k).phase ∧
        ((done.setOp j f).ops k).lease =
          if k = j then (f (done.ops j)).lease else (done.ops k).lease := by
    intro j f hf k
    have hat : (done.setOp j f).ops k = if k = j then f (done.ops j) else done.ops k :=
      Function.update_apply ..
    rw [hat]
    split
    · subst k; exact ⟨(hf _).1, (hf _).2, rfl⟩
    · exact ⟨rfl, rfl, rfl⟩
  cases given with
  | false =>
    refine ⟨hkind, fun j => ?_, hdone, rfl⟩
    rw [if_neg (by simp)]
    exact hlease j
  | true =>
    rw [complete_given]
    dsimp only
    rw [hkind i]
    cases hk : (s.ops i).kind with
    | first ticket =>
      have h := hset i (fun op => { op with slot := true }) fun _ => ⟨rfl, rfl⟩
      refine ⟨fun j => ((h j).1).trans (hkind j), fun j => ?_, fun j g => ?_, rfl⟩
      · show ((done.setOp i _).ops j).lease = _
        rw [(h j).2.2, hk]
        split
        · subst j; simp [hlease i]
        · simp [hlease j]
      · show ((done.setOp i _).ops j).phase = _ ↔ _
        rw [(h j).2.1]
        exact hdone j g
    | reacquire l =>
      have h := hset l (fun op => { op with lease := some true }) fun _ => ⟨rfl, rfl⟩
      refine ⟨fun j => ((h j).1).trans (hkind j), fun j => ?_, fun j g => ?_, rfl⟩
      · show ((done.setOp l _).ops j).lease = _
        rw [(h j).2.2, hk]
        by_cases hj : j = l
        · simp [hj]
        · simp [hj, Ne.symm hj, hlease j]
      · show ((done.setOp l _).ops j).phase = _ ↔ _
        rw [(h j).2.1]
        exact hdone j g

end MakeBelieve.Queue.State
