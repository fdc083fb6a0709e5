import MakeBelieve.Queue.Leases

namespace MakeBelieve.Queue

open Library IntrusiveList

namespace State

/-- Who is in a line, oldest first. -/
def waiters (s : State) (line : Line) : List OpId := nodes s.next s.opCount (s.lines line).first

/-- The line an operation gets into and, while it is in one, stands in. -/
def lineOf (s : State) (i : OpId) : Line :=
  match (s.ops i).kind with
  | .reacquire _ => .reacquiring
  | .first none => .waiting
  | .first (some ticket) => if (s.tickets ticket).promoted then .promoted else .waiting

variable {n : Nat} {s t u : State} {q : Queued} {i : OpId} {line : Line}

theorem Lined.waiters_eq (h : s.Lined q) : s.waiters = q := by
  funext line
  exact (h.holds line).segment.nodes_eq (h.length_le line)

theorem Ok.waiters (h : Ok n s q) : Ok n s s.waiters := by
  rwa [h.lined.waiters_eq]

theorem Lined.waiters_congr (h : s.Lined q) (hnext : t.next = s.next) (hlines : t.lines = s.lines)
    (hcount : s.opCount ≤ t.opCount) : t.waiters = s.waiters := by
  rw [(h.congr hnext hlines hcount).waiters_eq, h.waiters_eq]

theorem lineOf_congr (hkind : (t.ops i).kind = (s.ops i).kind)
    (hpromoted : ∀ ticket, (t.tickets ticket).promoted = (s.tickets ticket).promoted) :
    t.lineOf i = s.lineOf i := by
  unfold lineOf
  rw [hkind]
  cases (s.ops i).kind with
  | reacquire l => rfl
  | first ticket =>
    cases ticket with
    | none => rfl
    | some ticket => simp only [hpromoted ticket]

theorem setWaiter_promoted (s : State) (ticket : TicketId) (waiter : Option OpId)
    (ticket' : TicketId) :
    ((s.setWaiter ticket waiter).tickets ticket').promoted = (s.tickets ticket').promoted := by
  show (Function.update s.tickets ticket { s.tickets ticket with waiter } ticket').promoted = _
  by_cases ht : ticket' = ticket
  · rw [ht, Function.update_self]
  · rw [Function.update_of_ne ht]

theorem leftLine_promoted (s : State) (i : OpId) (ticket : TicketId) :
    ((s.leftLine i).tickets ticket).promoted = (s.tickets ticket).promoted := by
  unfold leftLine
  split
  · exact setWaiter_promoted ..
  · rfl

/-! ### What each event does to the lines -/

/-- A slot given back goes to the first of the first line there is anyone in. -/
theorem release_first (hl : s.Lined q) (hp : s.Placed q) :
    (∃ line i rest, q line = i :: rest ∧ (∀ line', line'.rank < line.rank → q line' = []) ∧
      s.release.waiters = Function.update q line rest ∧
      s.release.ops = Function.update s.ops i { s.ops i with phase := .handed true } ∧
      s.release.free = s.free) ∨
    ((∀ line, q line = []) ∧ s.release = { s with free := s.free + 1 }) := by
  obtain ⟨line, i, rest, u, hq, honly, hlined, hrelease, hbefore⟩ | hnone := release_cases hl hp
  · refine .inl ⟨line, i, rest, hq, hbefore, ?_, ?_, ?_⟩
    · have hleft : ((u.leftLine i).setPhase i (.handed true)).Lined (Function.update q line rest) := by
        rw [leftLine_eq]
        exact hlined.congr rfl rfl (Nat.le_refl _)
      rw [hrelease, hleft.waiters_eq]
    · rw [hrelease]
      show Function.update (u.leftLine i).ops i { (u.leftLine i).ops i with phase := _ } = _
      rw [leftLine_ops, honly]
    · rw [hrelease, leftLine_eq, honly]
      rfl
  · exact .inr hnone

theorem release_promoted (hl : s.Lined q) (hp : s.Placed q) (ticket : TicketId) :
    (s.release.tickets ticket).promoted = (s.tickets ticket).promoted := by
  obtain ⟨_, i, _, u, _, honly, _, hrelease, _⟩ | ⟨_, hrelease⟩ := release_cases hl hp
  · rw [hrelease]
    show ((u.leftLine i).tickets ticket).promoted = _
    rw [leftLine_promoted, honly]
  · rw [hrelease]

/-- A stop takes its waiter out of whichever line it is in, and leaves the others where they are. -/
theorem onStop_waiters (h : Ok n s q) (i : OpId) (line : Line) :
    (s.onStop i).waiters line = (s.waiters line).erase i := by
  let called : State := s.setOp i fun op => { op with calledBack := true }
  have hself : called.ops i = { s.ops i with calledBack := true } := Function.update_self ..
  have hlined : called.Lined q := h.lined.congr rfl rfl (Nat.le_refl _)
  have hplaced : called.Placed q := h.placed.update rfl (fun _ => rfl) rfl Iff.rfl
  rw [h.lined.waiters_eq]
  rw [onStop_eq]
  by_cases hq : (s.ops i).phase = .queued
  · have hqueued : (called.ops i).phase = .queued := by rw [hself]; exact hq
    obtain ⟨mine, u, hmem, _, hlined', hd⟩ := dequeue_some hlined hplaced hqueued
    have hleft : ((u.leftLine i).setPhase i (.handed false)).Lined
        (Function.update q mine ((q mine).erase i)) := by
      rw [leftLine_eq]
      exact hlined'.congr rfl rfl (Nat.le_refl _)
    rw [hd]
    show ((u.leftLine i).setPhase i (.handed false)).waiters line = _
    rw [hleft.waiters_eq]
    by_cases hm : line = mine
    · rw [hm, Function.update_self]
    · have hnot : i ∉ q line := fun hi => hm (h.lined.disjoint _ _ i hi hmem)
      rw [Function.update_of_ne hm, List.erase_of_not_mem hnot]
  · have hqueued : (called.ops i).phase ≠ .queued := by rw [hself]; exact hq
    have hnot : i ∉ q line := fun hi => hq ((h.placed.queued i).mp ⟨line, hi⟩)
    have hsame : (called.setOp i fun op => { op with stoppedEarly := true }).Lined q :=
      hlined.congr rfl rfl (Nat.le_refl _)
    rw [dequeue_none hlined hplaced hqueued, List.erase_of_not_mem hnot]
    show (called.setOp i _).waiters line = _
    rw [hsame.waiters_eq]

/-- A stop moves nobody's ticket. -/
theorem onStop_promoted (h : Ok n s q) (i : OpId) (ticket : TicketId) :
    ((s.onStop i).tickets ticket).promoted = (s.tickets ticket).promoted := by
  let called : State := s.setOp i fun op => { op with calledBack := true }
  have hlined : called.Lined q := h.lined.congr rfl rfl (Nat.le_refl _)
  have hplaced : called.Placed q := h.placed.update rfl (fun _ => rfl) rfl Iff.rfl
  rw [onStop_eq]
  by_cases hqueued : (called.ops i).phase = .queued
  · obtain ⟨_, u, _, honly, _, hd⟩ := dequeue_some hlined hplaced hqueued
    rw [hd]
    show ((u.leftLine i).tickets ticket).promoted = _
    rw [leftLine_promoted, honly]
    rfl
  · rw [dequeue_none hlined hplaced hqueued]
    rfl

/-- An operation gets in line at the end of the line for it. -/
theorem enqueue_lineOf (s : State) (i : OpId) : ∃ tickets,
    s.enqueue i = { s with tickets }.pushLine (s.lineOf i) i ∧
      ∀ ticket, (tickets ticket).promoted = (s.tickets ticket).promoted := by
  unfold enqueue lineOf
  cases (s.ops i).kind with
  | reacquire l => exact ⟨s.tickets, rfl, fun _ => rfl⟩
  | first ticket =>
    cases ticket with
    | none => exact ⟨s.tickets, rfl, fun _ => rfl⟩
    | some ticket =>
      exact ⟨(s.setWaiter ticket (some i)).tickets, rfl, setWaiter_promoted s ticket (some i)⟩

theorem enter_waiters (h : Ok n s q) (hi : (s.ops i).phase = .starting) :
    (((s.enter i).ops i).phase = .queued ∧ (s.enter i).waiters =
        Function.update s.waiters (s.lineOf i) (s.waiters (s.lineOf i) ++ [i])) ∨
      (((s.enter i).ops i).phase ≠ .queued ∧ (s.enter i).waiters = s.waiters) := by
  have hnot : ∀ line, i ∉ q line := fun line hmem => by
    have hp := (h.placed.queued i).mp ⟨line, hmem⟩
    rw [hi] at hp
    simp at hp
  unfold enter tryTake
  split
  · refine .inr ⟨by simp [setPhase_phase], ?_⟩
    exact h.lined.waiters_congr rfl rfl (Nat.le_refl _)
  · by_cases hfree : s.free = 0
    · obtain ⟨tickets, heq, _⟩ := enqueue_lineOf s i
      have hbefore : ({ s with tickets } : State).Lined q := h.lined.congr rfl rfl (Nat.le_refl _)
      have hpushed : (({ s with tickets } : State).pushLine (s.lineOf i) i).Lined
          (Function.update q (s.lineOf i) (q (s.lineOf i) ++ [i])) :=
        hbefore.pushLine hnot (h.made_of_phase hi (by simp))
      have hlined : ((s.enqueue i).setPhase i .queued).Lined
          (Function.update q (s.lineOf i) (q (s.lineOf i) ++ [i])) := by
        rw [heq]
        exact hpushed.congr rfl rfl (Nat.le_refl _)
      simp only [hfree, if_true]
      refine .inl ⟨setPhase_phase .., ?_⟩
      rw [hlined.waiters_eq, h.lined.waiters_eq]
    · simp only [hfree, if_false]
      refine .inr ⟨by simp [setPhase_phase], ?_⟩
      exact h.lined.waiters_congr rfl rfl (Nat.le_refl _)

theorem enter_promoted (s : State) (i : OpId) (ticket : TicketId) :
    ((s.enter i).tickets ticket).promoted = (s.tickets ticket).promoted := by
  unfold enter tryTake
  split
  · rfl
  · by_cases hfree : s.free = 0
    · obtain ⟨tickets, heq, hsame⟩ := enqueue_lineOf s i
      simp only [hfree, if_true]
      show ((s.enqueue i).tickets ticket).promoted = _
      rw [heq]
      exact hsame ticket
    · simp only [hfree, if_false]
      rfl

theorem promote_promoted (s : State) (ticket ticket' : TicketId) :
    ((s.promote ticket).tickets ticket').promoted =
      if ticket' = ticket then true else (s.tickets ticket').promoted := by
  have hmark : (Function.update s.tickets ticket { s.tickets ticket with promoted := true }
      ticket').promoted = if ticket' = ticket then true else (s.tickets ticket').promoted := by
    rw [Function.update_apply]
    split <;> rfl
  unfold promote
  dsimp only
  split
  · next hp =>
    split
    · next ht => rw [ht, hp]
    · rfl
  · split
    · exact hmark
    · split
      · exact hmark
      · next u hu =>
        obtain ⟨_, _, rfl⟩ := Option.map_eq_some_iff.mp hu
        exact hmark

/-- Where no waiter of the ticket is in line, promoting moves nobody. -/
theorem promote_nobody (h : Ok n s q) {ticket : TicketId}
    (hw : (s.tickets ticket).promoted = true ∨ (s.tickets ticket).waiter = none) :
    (s.promote ticket).waiters = s.waiters := by
  unfold promote
  dsimp only
  split
  · rfl
  · next hp =>
    obtain hw | hw := hw
    · exact absurd hw hp
    · rw [Function.update_self]
      simp only [hw]
      exact h.lined.waiters_congr rfl rfl (Nat.le_refl _)

/-- A waiter promoted goes to the end of the promoted line. -/
theorem promote_waiters (h : Ok n s q) {ticket : TicketId}
    (hp : (s.tickets ticket).promoted = false) (hw : (s.tickets ticket).waiter = some i)
    (hi : i ∈ s.waiters .waiting) :
    (s.promote ticket).waiters =
      Function.update (Function.update s.waiters .waiting ((s.waiters .waiting).erase i)) .promoted
        (s.waiters .promoted ++ [i]) := by
  let marked : State := { s with
    tickets := Function.update s.tickets ticket { s.tickets ticket with promoted := true } }
  have hmarked : marked.Lined s.waiters := h.waiters.lined.congr rfl rfl (Nat.le_refl _)
  obtain ⟨u, hu, honly, hlined⟩ := hmarked.removeLine_some hi
  have hgone : ∀ line, i ∉ Function.update s.waiters .waiting ((s.waiters .waiting).erase i) line := by
    intro line hmem
    by_cases hl : line = .waiting
    · rw [hl, Function.update_self] at hmem
      exact ((hmarked.holds .waiting).nodup.mem_erase_iff.mp hmem).1 rfl
    · rw [Function.update_of_ne hl] at hmem
      exact hl (hmarked.disjoint _ _ i hmem hi)
  have hmade : i < u.opCount := by
    rw [honly]
    exact hmarked.made _ i hi
  have hpushed : (u.pushLine .promoted i).Lined (Function.update
      (Function.update s.waiters .waiting ((s.waiters .waiting).erase i)) .promoted
      (s.waiters .promoted ++ [i])) := hlined.pushLine hgone hmade
  have heq : s.promote ticket = u.pushLine .promoted i := by
    rw [promote_unpromoted marked hp rfl]
    simp only [hw, hu]
  rw [heq, hpushed.waiters_eq]

/-- Nobody gets in line or changes lines, and those in line keep their order. -/
structure Unmoved (s t : State) : Prop where
  waiters : ∀ line, (t.waiters line).Sublist (s.waiters line)
  lineOf : ∀ i, i < s.opCount → t.lineOf i = s.lineOf i
  count : s.opCount ≤ t.opCount

theorem Unmoved.trans (h : s.Unmoved t) (h' : t.Unmoved u) : s.Unmoved u where
  waiters line := (h'.waiters line).trans (h.waiters line)
  lineOf i hi := (h'.lineOf i (Nat.lt_of_lt_of_le hi h.count)).trans (h.lineOf i hi)
  count := Nat.le_trans h.count h'.count

theorem unmoved_setOp (hl : s.Lined q) {f : Op → Op} (hk : ∀ op, (f op).kind = op.kind) :
    s.Unmoved (s.setOp i f) where
  waiters line := by
    have hlined : (s.setOp i f).Lined q := hl.congr rfl rfl (Nat.le_refl _)
    rw [hlined.waiters_eq, hl.waiters_eq]
  lineOf j _ := by
    refine lineOf_congr ?_ fun _ => rfl
    have hat : (s.setOp i f).ops j = if j = i then f (s.ops i) else s.ops j :=
      Function.update_apply ..
    rw [hat]
    split
    · next hj => rw [hk, hj]
    · rfl
  count := Nat.le_refl _

theorem unmoved_release (hl : s.Lined q) (hp : s.Placed q) : s.Unmoved s.release where
  waiters line := by
    rw [hl.waiters_eq]
    obtain ⟨mine, i, rest, hq, _, hwaiters, _, _⟩ | ⟨_, hfreed⟩ := release_first hl hp
    · rw [hwaiters]
      by_cases hm : line = mine
      · rw [hm, Function.update_self, hq]
        exact List.sublist_cons_self ..
      · rw [Function.update_of_ne hm]
    · have hlined : ({ s with free := s.free + 1 } : State).Lined q :=
        hl.congr rfl rfl (Nat.le_refl _)
      rw [hfreed, hlined.waiters_eq]
  lineOf i _ := lineOf_congr ((keeps_release hl hp).kind i) (release_promoted hl hp)
  count := Nat.le_of_eq (keeps_release hl hp).count.symm

theorem unmoved_setOp_release (h : Ok n s q) {f : Op → Op}
    (hf : ∀ op, (f op).kind = op.kind)
    (hq : (f (s.ops i)).phase = .queued ↔ (s.ops i).phase = .queued) :
    s.Unmoved (s.setOp i f).release :=
  (unmoved_setOp h.lined hf).trans (unmoved_release (h.lined.congr rfl rfl (Nat.le_refl _))
    (h.placed.update rfl (fun _ => rfl) (hf _) hq))

theorem unmoved_complete (hl : s.Lined q) (i : OpId) (given : Bool) :
    s.Unmoved (s.complete i given) := by
  let done : State :=
    { s.setPhase i (.completed given) with completions := s.completions ++ [(i, given)] }
  have hlined : done.Lined q := hl.congr rfl rfl (Nat.le_refl _)
  have hset : s.Unmoved (s.setPhase i (.completed given)) := unmoved_setOp hl fun _ => rfl
  have hdone : s.Unmoved done := ⟨hset.waiters, hset.lineOf, hset.count⟩
  cases given with
  | false => exact hdone
  | true =>
    rw [complete_given]
    dsimp only
    split
    · exact hdone.trans (unmoved_setOp hlined fun _ => rfl)
    · exact hdone.trans (unmoved_setOp hlined fun _ => rfl)

/-- Only getting in line and being promoted give anyone a new place. -/
theorem unmoved_step (h : Ok n s q) {e : Event} (he : s.enabled e) (henter : ∀ i, e ≠ .enter i)
    (hpromote : ∀ ticket, e ≠ .promote ticket) : s.Unmoved (s.step e) := by
  cases e with
  | enter i => exact absurd rfl (henter i)
  | promote ticket => exact absurd rfl (hpromote ticket)
  | connect kind =>
    have hlined : (s.step (.connect kind)).Lined q := h.lined.congr rfl rfl (Nat.le_succ _)
    refine ⟨fun line => by rw [hlined.waiters_eq, h.lined.waiters_eq], fun i hi => ?_, Nat.le_succ _⟩
    refine lineOf_congr ?_ fun _ => rfl
    show (Function.update s.ops s.opCount { kind } i).kind = _
    rw [Function.update_of_ne (Nat.ne_of_lt hi)]
  | start i => exact unmoved_setOp h.lined (f := fun op => { op with phase := .starting }) fun _ => rfl
  | requestStop i =>
    exact unmoved_setOp h.lined (f := fun op => { op with stopRequested := true }) fun _ => rfl
  | onStop i =>
    refine ⟨fun line => ?_, fun j _ => ?_, Nat.le_of_eq (keeps_onStop h i).count.symm⟩
    · show ((s.onStop i).waiters line).Sublist _
      rw [onStop_waiters h]
      exact List.erase_sublist
    · exact lineOf_congr ((keeps_onStop h i).kind j) (onStop_promoted h i)
  | handOn i given =>
    exact unmoved_setOp h.lined (f := fun op => { op with phase := .resuming given }) fun _ => rfl
  | resume i given => exact unmoved_complete h.lined i given
  | shutDown i given =>
    have hp : (s.ops i).phase = .resuming given := he
    show s.Unmoved (if given then (s.setPhase i (.completing false)).release
      else s.setPhase i (.completing false))
    split
    · exact unmoved_setOp_release h (fun _ => rfl) (by simp [hp])
    · exact unmoved_setOp h.lined fun _ => rfl
  | complete i given => exact unmoved_complete h.lined i given
  | takeLease i =>
    exact unmoved_setOp h.lined (f := fun op => { op with slot := false, lease := some true })
      fun _ => rfl
  | releaseSlot i =>
    exact unmoved_setOp_release h (f := fun op => { op with slot := false }) (fun _ => rfl) Iff.rfl
  | releaseLease i =>
    show s.Unmoved (s.releaseLease i)
    unfold State.releaseLease
    split
    · exact unmoved_setOp_release h (fun _ => rfl) Iff.rfl
    · exact ⟨fun _ => .refl _, fun _ _ => rfl, Nat.le_refl _⟩

/-- A change to one operation off the lines, and a slot that comes back. -/
theorem setOp_placed (h : Ok n s q) {f : Op → Op} (hk : (f (s.ops i)).kind = (s.ops i).kind)
    (hold : (s.ops i).phase ≠ .queued) (hnew : (f (s.ops i)).phase ≠ .queued) :
    (s.setOp i f).Lined s.waiters ∧ (s.setOp i f).Placed s.waiters ∧
      ∀ j, (s.ops j).phase = .queued → (s.setOp i f).ops j = s.ops j := by
  refine ⟨h.waiters.lined.congr rfl rfl (Nat.le_refl _),
    h.waiters.placed.update rfl (fun _ => rfl) hk (iff_of_false hnew hold), fun j hj => ?_⟩
  have hji : j ≠ i := by
    rintro rfl
    exact hold hj
  exact Function.update_of_ne hji ..

/-- Waits in this line. -/
def StandsIn (s : State) (line : Line) (i : OpId) : Prop :=
  (s.ops i).phase = .queued ∧ s.lineOf i = line

/-- The events by which a slot is given back. -/
def Frees (s : State) : Event → Prop
  | .releaseSlot _ => True
  | .releaseLease i => (s.ops i).lease = some true
  | .shutDown _ given => given = true
  | _ => False

theorem frees_release (h : Ok n s q) {e : Event} (he : s.enabled e) (hf : s.Frees e) :
    ∃ before : State, s.step e = before.release ∧ before.free = s.free ∧
      before.Lined s.waiters ∧ before.Placed s.waiters ∧
      ∀ j, (s.ops j).phase = .queued → before.ops j = s.ops j := by
  cases e with
  | releaseSlot i =>
    have hphase := ((h.op i).slot he).1
    exact ⟨_, rfl, rfl, setOp_placed h rfl (by simp [hphase]) (by simp [hphase])⟩
  | releaseLease i =>
    have hheld : (s.ops i).lease = some true := hf
    have hphase := ((h.op i).lease (by simp [hheld])).1
    refine ⟨s.setOp i fun op => { op with lease := some false }, ?_, rfl,
      setOp_placed h rfl (by simp [hphase]) (by simp [hphase])⟩
    show s.releaseLease i = _
    unfold State.releaseLease
    rw [if_pos hheld]
  | shutDown i given =>
    obtain rfl : given = true := hf
    have hphase : (s.ops i).phase = .resuming true := he
    exact ⟨_, rfl, rfl, setOp_placed h rfl (by simp [hphase]) (by simp)⟩
  | connect | start | enter | requestStop | onStop | handOn | resume | complete | takeLease
  | promote => exact absurd hf (by simp [Frees])

end State

/-- The queue, and the operations that got in line in the order they did. -/
structure History where
  queue : State
  entered : List OpId := []

namespace History

def step (h : History) (e : Event) : History :=
  { queue := h.queue.step e
    entered := match e with
      | .enter i =>
        if ((h.queue.step e).ops i).phase = .queued then h.entered ++ [i] else h.entered
      | _ => h.entered }

/-- Of those in this line it got in line first. -/
def Oldest (h : History) (line : Line) (i : OpId) : Prop :=
  h.queue.StandsIn line i ∧ ∃ earlier later, h.entered = earlier ++ i :: later ∧
    ∀ j ∈ earlier, ¬ h.queue.StandsIn line j

/-- The event hands this waiter a slot, and no other. -/
def HandsTo (h : History) (e : Event) (i : OpId) : Prop :=
  ((h.queue.step e).ops i).phase = .handed true ∧ (h.queue.step e).free = h.queue.free ∧
    ∀ j, j ≠ i → (h.queue.ops j).phase = .queued → (h.queue.step e).ops j = h.queue.ops j

end History

/-- The queue of `slots` slots with its history. -/
def ordered (slots : Nat) : Machine History Event where
  init h := h = { queue := { free := slots } }
  enabled h := h.queue.enabled
  step := History.step

/-- Part of a list without repeats is picked from it by who is in the part. -/
theorem eq_filter_of_sublist {α : Type*} {l k : List α} (h : l.Sublist k) (hnd : k.Nodup)
    {p : α → Bool} (hp : ∀ a, a ∈ l ↔ p a = true ∧ a ∈ k) : l = k.filter p := by
  have hself : l.filter p = l := List.filter_eq_self.mpr fun a ha => ((hp a).mp ha).1
  have hsub : l.Sublist (k.filter p) := hself ▸ h.filter p
  refine hsub.eq_of_length_le ?_
  refine ((hnd.filter p).subperm fun a ha => ?_).length_le
  obtain ⟨hk, hpa⟩ := List.mem_filter.mp ha
  exact (hp a).mpr ⟨hpa, hk⟩

namespace History

open State

/-- Who is in line is in the line for it, and got in line; take-backs, and work not promoted, stand
in line in the order they got in it. -/
structure Sorted (h : History) : Prop where
  nodup : h.entered.Nodup
  past : ∀ i ∈ h.entered, (h.queue.ops i).phase.toGo < 5
  all : ∀ line, ∀ i ∈ h.queue.waiters line, i ∈ h.entered
  inLine : ∀ line, ∀ i ∈ h.queue.waiters line, h.queue.lineOf i = line
  order : ∀ line, line ≠ .promoted → (h.queue.waiters line).Sublist h.entered

variable {n : Nat} {h : History} {t : State} {q : Queued} {i : OpId}

theorem Sorted.unmoved (hs : h.Sorted) (hok : Ok n h.queue q) (hu : h.queue.Unmoved t)
    (hon : h.queue.Onward t) : Sorted { queue := t, entered := h.entered } where
  nodup := hs.nodup
  past i hi := Nat.lt_of_le_of_lt (hon i).1 (hs.past i hi)
  all line i hi := hs.all line i ((hu.waiters line).subset hi)
  inLine line i hi := by
    have hmem := (hu.waiters line).subset hi
    exact (hu.lineOf i (hok.waiters.lined.made line i hmem)).trans (hs.inLine line i hmem)
  order line hl := (hu.waiters line).trans (hs.order line hl)

theorem Sorted.enter (hs : h.Sorted) (hok : Ok n h.queue q)
    (hi : (h.queue.ops i).phase = .starting) : Sorted (h.step (.enter i)) := by
  have hon := (enter_phase hi).1
  have hline : ∀ j, (h.queue.enter i).lineOf j = h.queue.lineOf j := fun j =>
    lineOf_congr ((keeps_enter hi).kind j) (enter_promoted h.queue i)
  have hnew : i ∉ h.entered := fun hmem => by
    have := hs.past i hmem
    simp [hi, Phase.toGo] at this
  obtain ⟨hp, hw⟩ | ⟨hp, hw⟩ := enter_waiters hok hi
  · have hstep : h.step (.enter i) =
        { queue := h.queue.enter i, entered := h.entered ++ [i] } := by
      show History.mk _ (if ((h.queue.enter i).ops i).phase = .queued then _ else _) = _
      rw [if_pos hp]
      rfl
    rw [hstep]
    have hmem : ∀ line j, j ∈ (h.queue.enter i).waiters line →
        j ∈ h.queue.waiters line ∨ (j = i ∧ line = h.queue.lineOf i) := by
      intro line j hj
      rw [hw] at hj
      by_cases hl : line = h.queue.lineOf i
      · subst hl
        rw [Function.update_self, List.mem_append, List.mem_singleton] at hj
        exact hj.imp id fun hj => ⟨hj, rfl⟩
      · rw [Function.update_of_ne hl] at hj
        exact .inl hj
    refine ⟨?_, fun j hj => ?_, fun line j hj => ?_, fun line j hj => ?_, fun line hl => ?_⟩
    · refine List.nodup_append.mpr ⟨hs.nodup, List.nodup_singleton i, fun a ha b hb hab => ?_⟩
      rw [hab, List.mem_singleton.mp hb] at ha
      exact hnew ha
    · obtain hj | hj := List.mem_append.mp hj
      · exact Nat.lt_of_le_of_lt (hon j).1 (hs.past j hj)
      · rw [List.mem_singleton.mp hj]
        exact (enter_phase hi).2
    · obtain hj | ⟨rfl, _⟩ := hmem line j hj
      · exact List.mem_append_left _ (hs.all line j hj)
      · exact List.mem_append_right _ (List.mem_singleton_self _)
    · show (h.queue.enter i).lineOf j = line
      rw [hline]
      obtain hj | ⟨rfl, rfl⟩ := hmem line j hj
      · exact hs.inLine line j hj
      · rfl
    · show ((h.queue.enter i).waiters line).Sublist (h.entered ++ [i])
      rw [hw]
      by_cases hm : line = h.queue.lineOf i
      · rw [hm, Function.update_self]
        exact (hs.order _ (hm ▸ hl)).append (.refl _)
      · rw [Function.update_of_ne hm]
        exact (hs.order line hl).trans (List.sublist_append_left ..)
  · have hstep : h.step (.enter i) = { queue := h.queue.enter i, entered := h.entered } := by
      show History.mk _ (if ((h.queue.enter i).ops i).phase = .queued then _ else _) = _
      rw [if_neg hp]
      rfl
    rw [hstep]
    refine hs.unmoved hok ⟨fun line => by rw [hw], fun j _ => hline j, ?_⟩ hon
    exact Nat.le_of_eq (keeps_enter hi).count.symm

/-- Promoting a ticket moves its waiter to the end of the promoted line, or nobody. -/
theorem Sorted.promote_moves (hs : h.Sorted) (hok : Ok n h.queue q) {ticket : TicketId}
    (hp : (h.queue.tickets ticket).promoted = false)
    (hw : (h.queue.tickets ticket).waiter = some i) :
    i ∈ h.queue.waiters .waiting ∧ (h.queue.promote ticket).waiters =
      Function.update (Function.update h.queue.waiters .waiting
        ((h.queue.waiters .waiting).erase i)) .promoted (h.queue.waiters .promoted ++ [i]) := by
  obtain ⟨hkind, hqueued⟩ := (hok.placed.waiter ticket i).mp hw
  obtain ⟨line, hmem⟩ := (hok.waiters.placed.queued i).mpr hqueued
  have hline : h.queue.lineOf i = .waiting := by
    unfold lineOf
    simp [hkind, hp]
  have hwaiting : i ∈ h.queue.waiters .waiting := by
    rwa [← hline, hs.inLine line i hmem]
  exact ⟨hwaiting, promote_waiters hok hp hw hwaiting⟩

theorem Sorted.promote (hs : h.Sorted) (hok : Ok n h.queue q) (ticket : TicketId) :
    Sorted (h.step (.promote ticket)) := by
  have hstep : h.step (.promote ticket) =
      { queue := h.queue.promote ticket, entered := h.entered } := rfl
  have hkind := (keeps_promote h.queue ticket).kind
  have hcount := (keeps_promote h.queue ticket).count
  have hon : h.queue.Onward (h.queue.promote ticket) := onward_of_ops (promote_ops ..)
  -- Only work under this very ticket has another line to be in.
  have hline : ∀ j, (h.queue.ops j).kind ≠ .first (some ticket) ∨
      (h.queue.tickets ticket).promoted = true →
      (h.queue.promote ticket).lineOf j = h.queue.lineOf j := by
    intro j hj
    unfold lineOf
    rw [hkind]
    cases hk : (h.queue.ops j).kind with
    | reacquire l => rfl
    | first mine =>
      cases mine with
      | none => rfl
      | some mine =>
        simp only [promote_promoted]
        by_cases hm : mine = ticket
        · subst hm
          obtain hj | hj := hj
          · exact absurd hk hj
          · simp [hj]
        · rw [if_neg hm]
  rw [hstep]
  by_cases hp : (h.queue.tickets ticket).promoted = true
  · have hsame := promote_nobody hok (.inl hp)
    exact hs.unmoved hok ⟨fun line => by rw [hsame], fun j _ => hline j (.inr hp),
      Nat.le_of_eq hcount.symm⟩ hon
  · have hnone := Bool.eq_false_iff.mpr hp
    cases hw : (h.queue.tickets ticket).waiter with
    | none =>
      have hsame := promote_nobody hok (.inr hw)
      refine ⟨hs.nodup, fun j hj => Nat.lt_of_le_of_lt (hon j).1 (hs.past j hj), fun line j hj => ?_,
        fun line j hj => ?_, fun line hl => ?_⟩
      · exact hs.all line j (by rwa [← hsame])
      · have hmem : j ∈ h.queue.waiters line := by rwa [← hsame]
        have hqueued := (hok.waiters.placed.queued j).mp ⟨line, hmem⟩
        refine (hline j (.inl fun hk => ?_)).trans (hs.inLine line j hmem)
        rw [(hok.placed.waiter ticket j).mpr ⟨hk, hqueued⟩] at hw
        simp at hw
      · show ((h.queue.promote ticket).waiters line).Sublist _
        rw [hsame]
        exact hs.order line hl
    | some i =>
      obtain ⟨hmem, hmoved⟩ := hs.promote_moves hok hnone hw
      obtain ⟨hik, _⟩ := (hok.placed.waiter ticket i).mp hw
      have hmine : (h.queue.promote ticket).lineOf i = .promoted := by
        unfold lineOf
        simp [hkind, hik, promote_promoted]
      have hother : ∀ j, j ≠ i → (h.queue.promote ticket).lineOf j = h.queue.lineOf j := fun j hj =>
        hline j (.inl fun hk => hj (hok.tied.ticket j i ticket hk hik))
      have hfrom : ∀ line j, j ∈ (h.queue.promote ticket).waiters line →
          (j = i ∧ line = .promoted) ∨ (j ≠ i ∧ j ∈ h.queue.waiters line) := by
        intro line j hj
        rw [hmoved] at hj
        by_cases hl : line = .promoted
        · subst hl
          rw [Function.update_self, List.mem_append, List.mem_singleton] at hj
          by_cases hji : j = i
          · exact .inl ⟨hji, rfl⟩
          · exact .inr ⟨hji, hj.resolve_right hji⟩
        · rw [Function.update_of_ne hl] at hj
          by_cases hlw : line = .waiting
          · subst hlw
            rw [Function.update_self] at hj
            exact .inr ((hok.waiters.lined.holds .waiting).nodup.mem_erase_iff.mp hj)
          · rw [Function.update_of_ne hlw] at hj
            refine .inr ⟨fun hji => hlw ?_, hj⟩
            exact hok.waiters.lined.disjoint _ _ i (hji ▸ hj) hmem
      refine ⟨hs.nodup, fun j hj => Nat.lt_of_le_of_lt (hon j).1 (hs.past j hj), fun line j hj => ?_,
        fun line j hj => ?_, fun line hl => ?_⟩
      · obtain ⟨rfl, _⟩ | ⟨_, hj⟩ := hfrom line j hj
        · exact hs.all _ j hmem
        · exact hs.all line j hj
      · obtain ⟨rfl, rfl⟩ | ⟨hji, hj⟩ := hfrom line j hj
        · exact hmine
        · exact (hother j hji).trans (hs.inLine line j hj)
      · show ((h.queue.promote ticket).waiters line).Sublist _
        rw [hmoved, Function.update_of_ne hl]
        by_cases hlw : line = .waiting
        · rw [hlw, Function.update_self]
          exact List.erase_sublist.trans (hs.order .waiting (by simp))
        · rw [Function.update_of_ne hlw]
          exact hs.order line hl

theorem Sorted.step (hs : h.Sorted) (hok : Ok n h.queue q) {e : Event} (he : h.queue.enabled e) :
    Sorted (h.step e) := by
  have hrest : (∀ i, e ≠ .enter i) → (∀ ticket, e ≠ .promote ticket) → Sorted (h.step e) := by
    intro henter hpromote
    have hstep : h.step e = { queue := h.queue.step e, entered := h.entered } := by
      cases e with
      | enter i => exact absurd rfl (henter i)
      | connect | start | requestStop | onStop | handOn | resume | shutDown | complete | takeLease
      | releaseSlot | releaseLease | promote => rfl
    rw [hstep]
    exact hs.unmoved hok (unmoved_step hok he henter hpromote) (onward_step hok he)
  cases e with
  | enter i => exact hs.enter hok he
  | promote ticket => exact hs.promote hok ticket
  | connect | start | requestStop | onStop | handOn | resume | shutDown | complete | takeLease
  | releaseSlot | releaseLease => exact hrest (by simp) (by simp)

theorem sorted (hr : (ordered n).Reachable (fun _ _ => True) h) :
    h.Sorted ∧ ∃ q, Ok n h.queue q := by
  refine hr.invariant (P := fun h => h.Sorted ∧ ∃ q, Ok n h.queue q) (fun h hs => ?_)
    fun h e hs he _ => ?_
  · obtain rfl : h = { queue := { free := n } } := hs
    have hnil : ∀ line, ({ free := n } : State).waiters line = [] := fun line => by
      rw [(ok_init n).lined.waiters_eq]
    exact ⟨⟨List.nodup_nil, by simp, by simp [hnil], by simp [hnil], by simp [hnil]⟩, _, ok_init n⟩
  · obtain ⟨hsorted, q, hq⟩ := hs
    exact ⟨hsorted.step hq he, hq.step he⟩

theorem Sorted.mem_waiters (hs : h.Sorted) (hok : Ok n h.queue q) (line : Line) (i : OpId) :
    i ∈ h.queue.waiters line ↔ h.queue.StandsIn line i := by
  constructor
  · intro hi
    exact ⟨(hok.waiters.placed.queued i).mp ⟨line, hi⟩, hs.inLine line i hi⟩
  · intro ⟨hqueued, hline⟩
    obtain ⟨line', hi⟩ := (hok.waiters.placed.queued i).mpr hqueued
    rwa [← hline, hs.inLine line' i hi]

/-- Whoever is first in a line its waiters keep their order in got in line first of them. -/
theorem Sorted.oldest (hs : h.Sorted) (hok : Ok n h.queue q) {line : Line} (hl : line ≠ .promoted)
    {rest : List OpId} (hi : h.queue.waiters line = i :: rest) : h.Oldest line i := by
  have hmem := hs.mem_waiters hok line
  have hfilter := eq_filter_of_sublist (hs.order line hl) hs.nodup
    (p := fun j => decide (j ∈ h.queue.waiters line)) fun j => by
      simp only [decide_eq_true_eq]
      exact ⟨fun hj => ⟨hj, hs.all line j hj⟩, fun hj => hj.1⟩
  rw [hi] at hfilter
  obtain ⟨earlier, later, heq, hnot, _, _⟩ := List.filter_eq_cons_iff.mp hfilter.symm
  refine ⟨(hmem i).mp (by simp [hi]), earlier, later, heq, fun j hj hstands => hnot j hj ?_⟩
  have hj' : j ∈ i :: rest := hi ▸ (hmem j).mpr hstands
  simpa using hj'

/-- A slot given back goes to the first of the first line there is anyone in. -/
theorem frees_hands (hok : Ok n h.queue q) {e : Event} (he : h.queue.enabled e)
    (hf : h.queue.Frees e) :
    (∃ line i rest, h.queue.waiters line = i :: rest ∧
      (∀ line', line'.rank < line.rank → h.queue.waiters line' = []) ∧ h.HandsTo e i) ∨
    ((∀ line, h.queue.waiters line = []) ∧ (h.queue.step e).free = h.queue.free + 1) := by
  obtain ⟨before, hstep, hfree, hlined, hplaced, hsame⟩ := frees_release hok he hf
  obtain ⟨line, i, rest, hi, hbefore, _, hops, hkept⟩ | ⟨hnil, hfreed⟩ := release_first hlined hplaced
  · refine .inl ⟨line, i, rest, hi, hbefore, ?_, ?_, fun j hj hqueued => ?_⟩
    · rw [hstep, hops, Function.update_self]
    · rw [hstep, hkept, hfree]
    · rw [hstep, hops, Function.update_of_ne hj, hsame j hqueued]
  · exact .inr ⟨hnil, by rw [hstep, hfreed, hfree]⟩

/-- Over every run, a slot given back goes to the oldest take-back in line, or else to promoted work,
or else to the work that got in line first, or else is free; and neither a stop nor a promotion of
one waiter moves the others among themselves. -/
theorem served_in_order (hr : (ordered n).Reachable (fun _ _ => True) h) :
    (∀ line i, i ∈ h.queue.waiters line ↔ h.queue.StandsIn line i) ∧
    (∀ e, h.queue.enabled e → h.queue.Frees e →
      (∃ i, h.HandsTo e i ∧ h.Oldest .reacquiring i) ∨
      ((∀ j, ¬ h.queue.StandsIn .reacquiring j) ∧
        ∃ i, h.HandsTo e i ∧ h.queue.StandsIn .promoted i) ∨
      ((∀ j, ¬ h.queue.StandsIn .reacquiring j ∧ ¬ h.queue.StandsIn .promoted j) ∧
        ∃ i, h.HandsTo e i ∧ h.Oldest .waiting i) ∨
      ((∀ j, (h.queue.ops j).phase ≠ .queued) ∧
        (h.queue.step e).free = h.queue.free + 1)) ∧
    (∀ i, h.queue.enabled (.onStop i) → ∀ line,
      (h.queue.step (.onStop i)).waiters line = (h.queue.waiters line).erase i) ∧
    (∀ ticket i, (h.queue.tickets ticket).waiter = some i → ∀ line,
      ((h.queue.step (.promote ticket)).waiters line).erase i = (h.queue.waiters line).erase i) ∧
    ∀ ticket, (h.queue.tickets ticket).waiter = none →
      (h.queue.step (.promote ticket)).waiters = h.queue.waiters := by
  obtain ⟨hs, q, hok⟩ := sorted hr
  have hmem := hs.mem_waiters hok
  refine ⟨hmem, fun e he hf => ?_, fun i _ line => onStop_waiters hok i line,
    fun ticket i hw line => ?_, fun ticket hw => promote_nobody hok (.inr hw)⟩
  · obtain ⟨line, i, rest, hi, hbefore, hhands⟩ | ⟨hnil, hfreed⟩ := frees_hands hok he hf
    · have hstands : h.queue.StandsIn line i := (hmem line i).mp (by simp [hi])
      have hnone : ∀ line', line'.rank < line.rank → ∀ j, ¬ h.queue.StandsIn line' j := by
        intro line' hrank j hj
        have hin := (hmem line' j).mpr hj
        rw [hbefore line' hrank] at hin
        exact absurd hin List.not_mem_nil
      cases line with
      | reacquiring => exact .inl ⟨i, hhands, hs.oldest hok (by simp) hi⟩
      | promoted => exact .inr (.inl ⟨hnone .reacquiring (by decide), i, hhands, hstands⟩)
      | waiting =>
        exact .inr (.inr (.inl ⟨fun j => ⟨hnone .reacquiring (by decide) j,
          hnone .promoted (by decide) j⟩, i, hhands, hs.oldest hok (by simp) hi⟩))
    · refine .inr (.inr (.inr ⟨fun j hj => ?_, hfreed⟩))
      obtain ⟨line, hin⟩ := (hok.waiters.placed.queued j).mpr hj
      rw [hnil line] at hin
      exact absurd hin List.not_mem_nil
  · by_cases hp : (h.queue.tickets ticket).promoted = true
    · have hsame := promote_nobody hok (.inl hp)
      show ((h.queue.promote ticket).waiters line).erase i = _
      rw [hsame]
    · obtain ⟨hin, hmoved⟩ := hs.promote_moves hok (Bool.eq_false_iff.mpr hp) hw
      show ((h.queue.promote ticket).waiters line).erase i = _
      rw [hmoved]
      cases line with
      | reacquiring => rfl
      | promoted =>
        have hnot : i ∉ h.queue.waiters .promoted := fun hi => by
          have := hok.waiters.lined.disjoint _ _ i hi hin
          simp at this
        rw [Function.update_self, List.erase_append_right _ hnot, List.erase_of_not_mem hnot]
        simp
      | waiting =>
        have hgone : i ∉ (h.queue.waiters .waiting).erase i := fun hi =>
          ((hok.waiters.lined.holds .waiting).nodup.mem_erase_iff.mp hi).1 rfl
        rw [Function.update_of_ne (by simp), Function.update_self, List.erase_of_not_mem hgone]

/-- One slot and, behind the work that holds it, two pieces of work in line, the second promoted. -/
def overtaken : List Event :=
  [.connect (.first none), .connect (.first none), .connect (.first (some 0)), .start 0, .enter 0,
    .complete 0 true, .start 1, .enter 1, .start 2, .enter 2, .promote 0]

theorem overtaken_reachable :
    (ordered 1).Reachable (fun _ _ => True)
      ((ordered 1).runs { queue := { free := 1 } } overtaken) := by
  refine (Machine.Reachable.start rfl).runs ?_
  simp only [overtaken, Machine.Fires, true_and, and_true]
  refine ⟨?_, ?_, ?_, ⟨by decide, rfl⟩, rfl, rfl, ⟨by decide, rfl⟩, rfl, ⟨by decide, rfl⟩, rfl,
    trivial⟩
  · intro t ht
    simp at ht
  · intro t ht
    simp at ht
  · intro t ht i
    show (Function.update (Function.update (fun _ => ({} : Op)) 0 { kind := .first none }) 1
      { kind := .first none } i).kind ≠ _
    rw [Function.update_apply, Function.update_apply]
    split
    · simp
    · split <;> simp

theorem served_in_order_overtaken :
    ((ordered 1).runs { queue := { free := 1 } } overtaken).queue.StandsIn .promoted 2 ∧
      ∀ line, ((((ordered 1).runs { queue := { free := 1 } } overtaken).queue.step
        (.promote 0)).waiters line).erase 2 =
          (((ordered 1).runs { queue := { free := 1 } } overtaken).queue.waiters line).erase 2 := by
  have h := served_in_order overtaken_reachable
  exact ⟨(h.1 .promoted 2).mp (by decide), h.2.2.2.1 0 2 (by decide)⟩

end History

end MakeBelieve.Queue
