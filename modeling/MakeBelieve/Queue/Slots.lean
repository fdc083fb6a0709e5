import Mathlib.Algebra.BigOperators.Group.List.Basic
import MakeBelieve.Library.Count
import MakeBelieve.Queue.Lines

namespace MakeBelieve.Queue

open Library IntrusiveList

/-- A slot on its way: handed to an operation that has yet to complete with it. -/
def Phase.inTransit : Phase → Bool
  | .handed given => given
  | .resuming given => given
  | .completing given => given
  | _ => false

def Op.tokens (op : Op) : Nat :=
  op.slot.toNat + (decide (op.lease = some true)).toNat + op.phase.inTransit.toNat

/-- What an operation's slot and lease say of it: it was given its first slot. -/
structure OpOk (op : Op) : Prop where
  slot : op.slot = true → op.phase = .completed true ∧ op.lease = none ∧ ∃ t, op.kind = .first t
  lease : op.lease ≠ none → op.phase = .completed true ∧ ∃ t, op.kind = .first t

theorem OpOk.uncompleted {op : Op} (h : OpOk op) (hp : op.phase ≠ .completed true) :
    op.slot = false ∧ op.lease = none := by
  constructor
  · by_contra hs
    exact hp (h.slot (by simpa using hs)).1
  · by_contra hl
    exact hp (h.lease hl).1

/-- Any phase but the last suits an operation that has neither slot nor lease. -/
theorem OpOk.setPhase {op : Op} (h : OpOk op) (hp : op.phase ≠ .completed true) (phase : Phase) :
    OpOk { op with phase } := by
  obtain ⟨hs, hl⟩ := h.uncompleted hp
  exact ⟨fun hslot => absurd hslot (by simp [hs]), fun hlease => absurd hl hlease⟩

namespace State

/-- The slots held, by a `Slot` or a `Lease`. -/
def held (s : State) : Nat :=
  (List.range s.opCount).countP (fun i => (s.ops i).slot) +
    (List.range s.opCount).countP fun i => decide ((s.ops i).lease = some true)

/-- The slots handed on to operations that have not resumed with them yet. -/
def handedOn (s : State) : Nat := (List.range s.opCount).countP fun i => (s.ops i).phase.inTransit

def tokens (s : State) : Nat := ((List.range s.opCount).map fun i => (s.ops i).tokens).sum

theorem tokens_eq (s : State) : s.tokens = s.held + s.handedOn := by
  unfold tokens held handedOn Op.tokens
  rw [← sum_map_toNat, ← sum_map_toNat, ← sum_map_toNat]
  simp only [List.sum_map_add]

/-- The waiters in line are the operations queued, each in a line of its kind, and a ticket points
to the one waiting under it. -/
structure Placed (s : State) (q : Queued) : Prop where
  queued : ∀ i, (∃ line, i ∈ q line) ↔ (s.ops i).phase = .queued
  kind : ∀ line i, i ∈ q line → (line = .reacquiring ↔ ∃ l, (s.ops i).kind = .reacquire l)
  waiter : ∀ t i, (s.tickets t).waiter = some i ↔
    (s.ops i).kind = .first (some t) ∧ (s.ops i).phase = .queued

/-- One piece of work to a ticket and, while it lasts, one take-back to a lease with no slot. -/
structure Tied (s : State) : Prop where
  lease : ∀ i l, (s.ops i).kind = .reacquire l → (∀ given, (s.ops i).phase ≠ .completed given) →
    (s.ops l).lease = some false
  once : ∀ i j l, (s.ops i).kind = .reacquire l → (s.ops j).kind = .reacquire l →
    (∀ given, (s.ops i).phase ≠ .completed given) →
    (∀ given, (s.ops j).phase ≠ .completed given) → i = j
  ticket : ∀ i j t, (s.ops i).kind = .first (some t) → (s.ops j).kind = .first (some t) → i = j

/-- The log holds how each operation completed, once. -/
structure Logged (s : State) : Prop where
  nodup : (s.completions.map Prod.fst).Nodup
  mem : ∀ i given, (i, given) ∈ s.completions ↔ (s.ops i).phase = .completed given

/-- What holds of a queue of `n` slots whose lines are `q`. -/
structure Ok (n : Nat) (s : State) (q : Queued) : Prop where
  lined : s.Lined q
  placed : s.Placed q
  op : ∀ i, OpOk (s.ops i)
  fresh : ∀ i, s.opCount ≤ i → s.ops i = {}
  tied : s.Tied
  logged : s.Logged
  conserved : s.free + s.tokens = n
  idle : 0 < s.free → ∀ line, q line = []

variable {n : Nat} {s t u : State} {q : Queued} {i : OpId} {line : Line}

theorem Ok.made (h : Ok n s q) (hi : s.ops i ≠ {}) : i < s.opCount := by
  apply Nat.lt_of_not_le
  intro hle
  exact hi (h.fresh i hle)

theorem Ok.made_of_phase (h : Ok n s q) {phase : Phase} (hi : (s.ops i).phase = phase)
    (hp : phase ≠ .idle) : i < s.opCount := by
  apply h.made
  intro heq
  rw [heq] at hi
  exact hp hi.symm

/-- An operation's own slots are among them all. -/
theorem Ok.tokens_le (h : Ok n s q) (i : OpId) : (s.ops i).tokens ≤ n := by
  by_cases hi : i < s.opCount
  · have hsum := sum_map_update Op.tokens s.ops List.nodup_range (List.mem_range.mpr hi) {}
    have hzero : Op.tokens {} = 0 := rfl
    have hconserved := h.conserved
    unfold tokens at hconserved
    omega
  · rw [h.fresh i (Nat.le_of_not_lt hi)]
    exact Nat.zero_le n

/-- One operation is changed, of the same kind and no more nor less completed: with the lines in
place, only the slots are to be counted. -/
theorem Ok.update (h : Ok n s q) (hi : i < s.opCount) {op : Op} {m : Nat} {r : Queued}
    (hops : t.ops = Function.update s.ops i op) (hcount : t.opCount = s.opCount)
    (hlog : t.completions = s.completions) (hkind : op.kind = (s.ops i).kind)
    (hcompleted : ∀ given, op.phase = .completed given ↔ (s.ops i).phase = .completed given)
    (hlease : ∀ j, (s.ops j).kind = .reacquire i → (∀ given, (s.ops j).phase ≠ .completed given) →
      op.lease = some false) (hop : OpOk op)
    (hlined : t.Lined r) (hplaced : t.Placed r)
    (hm : m + s.free + (s.ops i).tokens = n + t.free + op.tokens)
    (hidle : 0 < t.free → ∀ line, r line = []) : Ok m t r := by
  have hself : t.ops i = op := by rw [hops, Function.update_self]
  have hother : ∀ j, j ≠ i → t.ops j = s.ops j := fun j hj => by
    rw [hops, Function.update_of_ne hj]
  have hk : ∀ j, (t.ops j).kind = (s.ops j).kind := by
    intro j
    by_cases hj : j = i
    · rw [hj, hself, hkind]
    · rw [hother j hj]
  have hc : ∀ j given, (t.ops j).phase = .completed given ↔ (s.ops j).phase = .completed given := by
    intro j given
    by_cases hj : j = i
    · rw [hj, hself, hcompleted]
    · rw [hother j hj]
  refine ⟨hlined, hplaced, fun j => ?_, fun j hj => ?_, ⟨fun j l hj hnot => ?_,
    fun j j' l hj hj' hnot hnot' => ?_, fun j j' ticket hj hj' => ?_⟩, ⟨?_, fun j given => ?_⟩, ?_,
    hidle⟩
  · by_cases hj : j = i
    · rw [hj, hself]
      exact hop
    · rw [hother j hj]
      exact h.op j
  · have hle : s.opCount ≤ j := hcount ▸ hj
    have hji : j ≠ i := Nat.ne_of_gt (Nat.lt_of_lt_of_le hi hle)
    rw [hother j hji]
    exact h.fresh j hle
  · rw [hk] at hj
    have hnot' : ∀ given, (s.ops j).phase ≠ .completed given :=
      fun given hp => hnot given ((hc j given).mpr hp)
    by_cases hli : l = i
    · rw [hli, hself]
      exact hlease j (hli ▸ hj) hnot'
    · rw [hother l hli]
      exact h.tied.lease j l hj hnot'
  · rw [hk] at hj hj'
    exact h.tied.once j j' l hj hj' (fun given hp => hnot given ((hc j given).mpr hp))
      fun given hp => hnot' given ((hc j' given).mpr hp)
  · rw [hk] at hj hj'
    exact h.tied.ticket j j' ticket hj hj'
  · rw [hlog]
    exact h.logged.nodup
  · rw [hlog, hc]
    exact h.logged.mem j given
  · have htokens : t.tokens + (s.ops i).tokens = s.tokens + op.tokens := by
      unfold tokens
      rw [hcount, hops]
      exact sum_map_update Op.tokens s.ops List.nodup_range (List.mem_range.mpr hi) op
    have hconserved := h.conserved
    omega

/-- An operation's place in line is as it was. -/
theorem Placed.update (h : s.Placed q) {op : Op} (hops : t.ops = Function.update s.ops i op)
    (htickets : ∀ ticket, (t.tickets ticket).waiter = (s.tickets ticket).waiter)
    (hkind : op.kind = (s.ops i).kind) (hqueued : op.phase = .queued ↔ (s.ops i).phase = .queued) :
    t.Placed q := by
  have hk : ∀ j, (t.ops j).kind = (s.ops j).kind := by
    intro j
    by_cases hj : j = i
    · rw [hj, hops, Function.update_self, hkind]
    · rw [hops, Function.update_of_ne hj]
  have hq : ∀ j, (t.ops j).phase = .queued ↔ (s.ops j).phase = .queued := by
    intro j
    by_cases hj : j = i
    · rw [hj, hops, Function.update_self, hqueued]
    · rw [hops, Function.update_of_ne hj]
  refine ⟨fun j => ?_, fun line j hj => ?_, fun ticket j => ?_⟩
  · rw [hq]
    exact h.queued j
  · rw [hk]
    exact h.kind line j hj
  · rw [htickets, hk, hq]
    exact h.waiter ticket j

/-- Changes that leave an operation where it is in line keep the queue's invariant, the slots it
holds apart. -/
theorem Ok.setOp (h : Ok n s q) (hi : i < s.opCount) {f : Op → Op} {m : Nat}
    (hkind : (f (s.ops i)).kind = (s.ops i).kind)
    (hqueued : (f (s.ops i)).phase = .queued ↔ (s.ops i).phase = .queued)
    (hcompleted : ∀ given,
      (f (s.ops i)).phase = .completed given ↔ (s.ops i).phase = .completed given)
    (hlease : ∀ j, (s.ops j).kind = .reacquire i → (∀ given, (s.ops j).phase ≠ .completed given) →
      (f (s.ops i)).lease = some false)
    (hop : OpOk (f (s.ops i))) (hm : m + (s.ops i).tokens = n + (f (s.ops i)).tokens) :
    Ok m (s.setOp i f) q := by
  have hfree : (s.setOp i f).free = s.free := rfl
  exact h.update hi rfl rfl rfl hkind hcompleted hlease hop (h.lined.congr rfl rfl (Nat.le_refl _))
    (h.placed.update rfl (fun _ => rfl) hkind hqueued) (by omega) h.idle

/-- What a ticket's `m_promoted` is makes no difference. -/
theorem Ok.tickets (h : Ok n s q) {tickets : TicketId → Ticket}
    (hw : ∀ t, (tickets t).waiter = (s.tickets t).waiter) : Ok n { s with tickets } q :=
  ⟨h.lined.congr rfl rfl (Nat.le_refl _),
    ⟨h.placed.queued, h.placed.kind, fun t i => by rw [hw t]; exact h.placed.waiter t i⟩,
    h.op, h.fresh, ⟨h.tied.lease, h.tied.once, h.tied.ticket⟩, ⟨h.logged.nodup, h.logged.mem⟩,
    h.conserved, h.idle⟩

/-- The same waiters in lines rearranged, each in one of its kind. -/
theorem Ok.rearranged (h : Ok n s q) {r : Queued} (hu : OnlyLines s u) (hl : u.Lined r)
    (hmem : ∀ i, (∃ line, i ∈ r line) ↔ ∃ line, i ∈ q line)
    (hkind : ∀ line i, i ∈ r line → (line = .reacquiring ↔ ∃ l, (s.ops i).kind = .reacquire l))
    (hidle : 0 < s.free → ∀ line, r line = []) : Ok n u r := by
  rw [hu] at hl ⊢
  exact ⟨hl, ⟨fun i => (hmem i).trans (h.placed.queued i), hkind, h.placed.waiter⟩, h.op, h.fresh,
    ⟨h.tied.lease, h.tied.once, h.tied.ticket⟩, ⟨h.logged.nodup, h.logged.mem⟩, h.conserved, hidle⟩

theorem leftLine_eq (s : State) (i : OpId) :
    s.leftLine i = { s with tickets := (s.leftLine i).tickets } := by
  unfold leftLine
  split <;> rfl

theorem leftLine_waiter (s : State) (i : OpId) (ticket : TicketId) :
    ((s.leftLine i).tickets ticket).waiter =
      if (s.ops i).kind = .first (some ticket) then none else (s.tickets ticket).waiter := by
  unfold leftLine
  cases hkind : (s.ops i).kind with
  | reacquire l => simp
  | first o =>
    cases o with
    | none => simp
    | some mine =>
      by_cases hm : ticket = mine
      · subst hm
        simp [setWaiter]
      · simp [setWaiter, hm, Ne.symm hm]

/-- A waiter off its line is in no line, and its ticket points to none. -/
theorem Ok.left (h : Ok n s q) (hi : i ∈ q line) (hu : OnlyLines s u)
    (hl : u.Lined (Function.update q line ((q line).erase i))) (given : Bool) :
    Ok (n + given.toNat) ((u.leftLine i).setPhase i (.handed given))
      (Function.update q line ((q line).erase i)) := by
  have hphase : (s.ops i).phase = .queued := (h.placed.queued i).mp ⟨line, hi⟩
  have hops : ((u.leftLine i).setPhase i (.handed given)).ops =
      Function.update s.ops i { s.ops i with phase := .handed given } := by
    rw [leftLine_eq, hu]
    rfl
  have hwaiter : ∀ ticket,
      (((u.leftLine i).setPhase i (.handed given)).tickets ticket).waiter =
        if (s.ops i).kind = .first (some ticket) then none else (s.tickets ticket).waiter := by
    intro ticket
    refine (leftLine_waiter u i ticket).trans ?_
    rw [hu]
  have hrest : ((u.leftLine i).setPhase i (.handed given)).opCount = s.opCount ∧
      ((u.leftLine i).setPhase i (.handed given)).free = s.free ∧
      ((u.leftLine i).setPhase i (.handed given)).completions = s.completions ∧
      ((u.leftLine i).setPhase i (.handed given)).next = u.next ∧
      ((u.leftLine i).setPhase i (.handed given)).lines = u.lines := by
    rw [leftLine_eq, hu]
    exact ⟨rfl, rfl, rfl, rfl, rfl⟩
  generalize (u.leftLine i).setPhase i (.handed given) = t at *
  obtain ⟨hcount, hfree, hlog, hnext, hlines⟩ := hrest
  have hself : t.ops i = { s.ops i with phase := .handed given } := by
    rw [hops, Function.update_self]
  have hother : ∀ j, j ≠ i → t.ops j = s.ops j := fun j hj => by
    rw [hops, Function.update_of_ne hj]
  have hmem : ∀ line' j, j ∈ Function.update q line ((q line).erase i) line' ↔
      j ∈ q line' ∧ j ≠ i := by
    intro line' j
    by_cases hline : line' = line
    · subst hline
      rw [Function.update_self, ((h.lined.holds line').nodup).mem_erase_iff]
      exact And.comm
    · rw [Function.update_of_ne hline]
      refine ⟨fun hj => ⟨hj, fun heq => ?_⟩, fun hj => hj.1⟩
      exact hline (h.lined.disjoint _ _ i (heq ▸ hj) hi)
  have hk : ∀ j, (t.ops j).kind = (s.ops j).kind := by
    intro j
    by_cases hj : j = i
    · subst hj; rw [hself]
    · rw [hother j hj]
  have hcount' : u.opCount = t.opCount := by rw [hu, hcount]
  refine h.update (h.made_of_phase hphase (by simp)) hops hcount hlog rfl (by simp [hphase])
    (fun j hj hnot => h.tied.lease j i hj hnot) ((h.op i).setPhase (by simp [hphase]) _) (hl.congr hnext hlines (Nat.le_of_eq hcount'))
    ⟨fun j => ?_, fun line' j hj => ?_, fun ticket j => ?_⟩ ?_ fun hpos => ?_
  · simp only [hmem]
    by_cases hj : j = i
    · subst hj
      simp [hself]
    · rw [hother j hj, ← h.placed.queued j]
      simp [hj]
  · rw [hk]
    exact h.placed.kind line' j ((hmem line' j).mp hj).1
  · rw [hwaiter, hk]
    by_cases hmine : (s.ops i).kind = .first (some ticket)
    · rw [if_pos hmine]
      refine ⟨fun heq => by simp at heq, fun ⟨hj, hp⟩ => ?_⟩
      have hji := h.tied.ticket j i ticket hj hmine
      subst hji
      rw [hself] at hp
      simp at hp
    · rw [if_neg hmine, h.placed.waiter]
      by_cases hj : j = i
      · subst hj
        simp [hmine]
      · rw [hother j hj]
  · rw [hfree]
    simp [Op.tokens, hphase, Phase.inTransit]
    omega
  · rw [hfree] at hpos
    have hnil := h.idle hpos line
    rw [hnil] at hi
    simp at hi

end State

end MakeBelieve.Queue
