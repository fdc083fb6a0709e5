import MakeBelieve.Queue.Slots

namespace MakeBelieve.Queue

open Library IntrusiveList

/-- The order in which a slot given back is offered to the lines. -/
def Line.rank : Line → Nat
  | .reacquiring => 0
  | .promoted => 1
  | .waiting => 2

namespace State

variable {n : Nat} {s t u : State} {q : Queued} {i : OpId} {line : Line}

/-! ### Giving a slot back -/

/-- A released slot goes to the waiter at the head of the first line there is one in, or is free. -/
theorem release_cases (hl : s.Lined q) (hp : s.Placed q) :
    (∃ line i rest u, q line = i :: rest ∧ OnlyLines s u ∧ u.Lined (Function.update q line rest) ∧
      s.release = (u.leftLine i).setPhase i (.handed true) ∧
      ∀ line', line'.rank < line.rank → q line' = []) ∨
    ((∀ line, q line = []) ∧ s.release = { s with free := s.free + 1 }) := by
  have hpop : ∀ line, (∃ i rest u, q line = i :: rest ∧ s.popLine line = (some i, u) ∧
      OnlyLines s u ∧ u.Lined (Function.update q line rest)) ∨
      (q line = [] ∧ s.popLine line = (none, s)) := by
    intro line
    cases hq : q line with
    | nil => exact .inr ⟨rfl, hl.popLine_nil hq⟩
    | cons i rest =>
      obtain ⟨u, hpop, honly, hlined⟩ := hl.popLine_cons hq
      exact .inl ⟨i, rest, u, rfl, hpop, honly, hlined⟩
  unfold release
  obtain ⟨i, rest, u, hq, hu, honly, hlined⟩ | ⟨hq1, hnone⟩ := hpop .reacquiring
  · obtain ⟨l, hk⟩ := (hp.kind .reacquiring i (by simp [hq])).mp rfl
    have hleft : u.leftLine i = u := by
      unfold leftLine
      rw [honly]
      simp [hk]
    exact .inl ⟨_, i, rest, u, hq, honly, hlined, by simp [hu, hleft], by simp [Line.rank]⟩
  · simp only [hnone]
    obtain ⟨i, rest, u, hq, hu, honly, hlined⟩ | ⟨hq2, hnone⟩ := hpop .promoted
    · refine .inl ⟨_, i, rest, u, hq, honly, hlined, by simp [hu], fun line' hrank => ?_⟩
      cases line' with
      | reacquiring => exact hq1
      | promoted | waiting => simp [Line.rank] at hrank
    · simp only [hnone]
      obtain ⟨i, rest, u, hq, hu, honly, hlined⟩ | ⟨hq3, hnone⟩ := hpop .waiting
      · refine .inl ⟨_, i, rest, u, hq, honly, hlined, by simp [hu], fun line' hrank => ?_⟩
        cases line' with
        | reacquiring => exact hq1
        | promoted => exact hq2
        | waiting => simp [Line.rank] at hrank
      · refine .inr ⟨fun line => ?_, by simp [hnone]⟩
        cases line with
        | reacquiring => exact hq1
        | promoted => exact hq2
        | waiting => exact hq3

theorem Ok.freed (h : Ok n s q) (hq : ∀ line, q line = []) :
    Ok (n + 1) { s with free := s.free + 1 } q :=
  ⟨h.lined.congr rfl rfl (Nat.le_refl _), ⟨h.placed.queued, h.placed.kind, h.placed.waiter⟩, h.op,
    h.fresh, ⟨h.tied.lease, h.tied.once, h.tied.ticket⟩, ⟨h.logged.nodup, h.logged.mem⟩, by
      have hc := h.conserved
      show s.free + 1 + s.tokens = n + 1
      omega, fun _ => hq⟩

/-- One slot more comes back. -/
theorem Ok.release (h : Ok n s q) : ∃ r, Ok (n + 1) s.release r := by
  obtain ⟨line, i, rest, u, hq, honly, hlined, hrelease, _⟩ | ⟨hq, hrelease⟩ :=
    release_cases h.lined h.placed
  · rw [hrelease]
    have hi : i ∈ q line := by simp [hq]
    have hrest : rest = (q line).erase i := by simp [hq]
    exact ⟨_, h.left hi honly (hrest ▸ hlined) true⟩
  · rw [hrelease]
    exact ⟨q, h.freed hq⟩

/-! ### Getting in line, and out of it -/

theorem dequeue_none (hl : s.Lined q) (hp : s.Placed q) (hi : (s.ops i).phase ≠ .queued) : s.dequeue i = none := by
  have hnot : ∀ line, i ∉ q line := fun line hmem => hi ((hp.queued i).mp ⟨line, hmem⟩)
  unfold dequeue
  split
  · exact hl.removeLine_none (hnot _)
  · rw [hl.removeLine_none (hnot _), hl.removeLine_none (hnot _)]
    rfl

theorem dequeue_some (hl : s.Lined q) (hp : s.Placed q)
    (hi : (s.ops i).phase = .queued) :
    ∃ line u, i ∈ q line ∧ OnlyLines s u ∧
      u.Lined (Function.update q line ((q line).erase i)) ∧ s.dequeue i = some (u.leftLine i) := by
  obtain ⟨line, hmem⟩ := (hp.queued i).mpr hi
  obtain ⟨u, hu, honly, hlined⟩ := hl.removeLine_some hmem
  refine ⟨line, u, hmem, honly, hlined, ?_⟩
  have hkind := hp.kind line i hmem
  unfold dequeue
  cases hk : (s.ops i).kind with
  | reacquire l =>
    obtain rfl : line = .reacquiring := hkind.mpr ⟨l, hk⟩
    have hleft : u.leftLine i = u := by
      unfold leftLine
      rw [honly]
      simp [hk]
    simp [hu, hleft]
  | first ticket =>
    cases line with
    | reacquiring =>
      obtain ⟨l, hre⟩ := hkind.mp rfl
      rw [hk] at hre
      simp at hre
    | promoted => simp [hu]
    | waiting =>
      have hnot : i ∉ q .promoted := fun hmem' => by
        have := hl.disjoint _ _ i hmem hmem'
        simp at this
      simp [hl.removeLine_none hnot, hu]

theorem Ok.onStop (h : Ok n s q) (hs : s.Stoppable i) : ∃ r, Ok n (s.onStop i) r := by
  obtain ⟨_, _, hidle, hnot⟩ := hs
  have hi : i < s.opCount := h.made_of_phase rfl hidle
  have hcalled : Ok n (s.setOp i fun op => { op with calledBack := true }) q :=
    h.setOp hi rfl Iff.rfl (fun _ => Iff.rfl) (fun j hj hu => h.tied.lease j i hj hu)
      ⟨(h.op i).slot, (h.op i).lease⟩ rfl
  have hphase : ((s.setOp i fun op => { op with calledBack := true }).ops i).phase =
      (s.ops i).phase := by
    show (Function.update s.ops i _ i).phase = _
    rw [Function.update_self]
  unfold State.onStop
  by_cases hq : (s.ops i).phase = .queued
  · obtain ⟨line, u, hmem, honly, hlined, hd⟩ := dequeue_some hcalled.lined hcalled.placed
      (hphase.trans hq)
    simp only [hd]
    exact ⟨_, hcalled.left hmem honly hlined false⟩
  · simp only [dequeue_none hcalled.lined hcalled.placed fun hp => hq (hphase.symm.trans hp)]
    exact ⟨q, hcalled.setOp hi rfl Iff.rfl (fun _ => Iff.rfl)
      (fun j hj hu => hcalled.tied.lease j i hj hu) ⟨(hcalled.op i).slot, (hcalled.op i).lease⟩ rfl⟩

theorem enqueue_eq (s : State) (i : OpId) : ∃ line tickets,
    s.enqueue i = { s with tickets }.pushLine line i ∧
      (line = .reacquiring ↔ ∃ l, (s.ops i).kind = .reacquire l) ∧
      ∀ ticket, (tickets ticket).waiter =
        if (s.ops i).kind = .first (some ticket) then some i else (s.tickets ticket).waiter := by
  unfold enqueue
  cases hk : (s.ops i).kind with
  | reacquire l => exact ⟨.reacquiring, s.tickets, rfl, by simp, by simp⟩
  | first o =>
    cases o with
    | none => exact ⟨.waiting, s.tickets, rfl, by simp, by simp⟩
    | some mine =>
      refine ⟨_, (s.setWaiter mine (some i)).tickets, rfl, ?_, fun ticket => ?_⟩
      · split <;> simp
      · by_cases hm : ticket = mine
        · subst hm
          simp [setWaiter]
        · simp [setWaiter, hm, Ne.symm hm]

/-- With no slot free, an operation started gets in line. -/
theorem Ok.enqueued (h : Ok n s q) (hi : (s.ops i).phase = .starting) (hfree : s.free = 0) :
    ∃ r, Ok n ((s.enqueue i).setPhase i .queued) r := by
  have hmade := h.made_of_phase hi (by simp)
  have hnot : ∀ line, i ∉ q line := fun line hmem => by
    have hp := (h.placed.queued i).mp ⟨line, hmem⟩
    rw [hi] at hp
    simp at hp
  obtain ⟨line, tickets, heq, hline, hwaiter⟩ := enqueue_eq s i
  rw [heq]
  have hbefore : ({ s with tickets } : State).Lined q := h.lined.congr rfl rfl (Nat.le_refl _)
  have hlined : (({ s with tickets } : State).pushLine line i).Lined
      (Function.update q line (q line ++ [i])) := hbefore.pushLine hnot hmade
  let op : Op := { s.ops i with phase := .queued }
  have hself : Function.update s.ops i op i = op := Function.update_self ..
  have hother : ∀ j, j ≠ i → Function.update s.ops i op j = s.ops j :=
    fun j hj => Function.update_of_ne hj ..
  have hmem : ∀ line' j, j ∈ Function.update q line (q line ++ [i]) line' ↔
      j ∈ q line' ∨ (line' = line ∧ j = i) := by
    intro line' j
    by_cases hl : line' = line
    · subst hl
      simp
    · simp [hl]
  have hops : (({ s with tickets } : State).pushLine line i |>.setPhase i .queued).ops =
      Function.update s.ops i op := rfl
  refine ⟨_, h.update hmade hops rfl rfl rfl (by simp [op, hi])
    (fun j hj hu => h.tied.lease j i hj hu) ((h.op i).setPhase (by simp [hi]) _)
    (hlined.congr rfl rfl (Nat.le_refl _)) ⟨fun j => ?_, fun line' j hj => ?_, fun ticket j => ?_⟩ ?_
    fun hpos => ?_⟩
  · simp only [hmem]
    show _ ↔ (Function.update s.ops i op j).phase = .queued
    by_cases hj : j = i
    · rw [hj, hself]
      exact ⟨fun _ => rfl, fun _ => ⟨line, .inr ⟨rfl, rfl⟩⟩⟩
    · rw [hother j hj, ← h.placed.queued j]
      simp [hj]
  · show _ ↔ ∃ l, (Function.update s.ops i op j).kind = .reacquire l
    obtain hj | ⟨rfl, rfl⟩ := (hmem line' j).mp hj
    · have hji : j ≠ i := fun heq => hnot line' (heq ▸ hj)
      rw [hother j hji]
      exact h.placed.kind line' j hj
    · rw [hself]
      exact hline
  · show (tickets ticket).waiter = some j ↔ (Function.update s.ops i op j).kind = _ ∧
      (Function.update s.ops i op j).phase = _
    rw [hwaiter]
    by_cases hmine : (s.ops i).kind = .first (some ticket)
    · rw [if_pos hmine]
      constructor
      · intro hj
        obtain rfl : i = j := by simpa using hj
        rw [hself]
        exact ⟨hmine, rfl⟩
      · intro ⟨hj, _⟩
        by_cases hji : j = i
        · rw [hji]
        · rw [hother j hji] at hj
          exact absurd (h.tied.ticket j i ticket hj hmine) hji
    · rw [if_neg hmine, h.placed.waiter]
      by_cases hji : j = i
      · rw [hji, hself]
        exact ⟨fun hj => absurd hj.1 hmine, fun hj => absurd hj.1 hmine⟩
      · rw [hother j hji]
  · show n + s.free + _ = n + s.free + _
    simp [op, Op.tokens, hi, Phase.inTransit]
  · have hpos' : 0 < s.free := hpos
    omega

theorem Ok.taken (h : Ok n s q) (hfree : s.free ≠ 0) :
    Ok (n - 1) { s with free := s.free - 1 } q :=
  ⟨h.lined.congr rfl rfl (Nat.le_refl _), ⟨h.placed.queued, h.placed.kind, h.placed.waiter⟩, h.op,
    h.fresh, ⟨h.tied.lease, h.tied.once, h.tied.ticket⟩, ⟨h.logged.nodup, h.logged.mem⟩, by
      have hc := h.conserved
      show s.free - 1 + s.tokens = n - 1
      omega, fun hpos line => h.idle (by
      have hpos' : 0 < s.free - 1 := hpos
      omega) line⟩

/-- From one phase short of the last to another: only a slot on its way is to be counted. -/
theorem Ok.setPhase (h : Ok n s q) {phase : Phase} (hi : i < s.opCount)
    (hold : (s.ops i).phase ≠ .queued ∧ ∀ given, (s.ops i).phase ≠ .completed given)
    (hnew : phase ≠ .queued ∧ ∀ given, phase ≠ .completed given) {m : Nat}
    (hm : m + (s.ops i).phase.inTransit.toNat = n + phase.inTransit.toNat) :
    Ok m (s.setPhase i phase) q := by
  refine h.setOp hi rfl ?_ (fun given => ?_) (fun j hj hu => h.tied.lease j i hj hu)
    ((h.op i).setPhase (hold.2 true) phase) ?_
  · exact ⟨fun hp => absurd hp hnew.1, fun hp => absurd hp hold.1⟩
  · exact ⟨fun hp => absurd hp (hnew.2 given), fun hp => absurd hp (hold.2 given)⟩
  · simp only [Op.tokens]
    omega

theorem Ok.enter (h : Ok n s q) (hi : (s.ops i).phase = .starting) : ∃ r, Ok n (s.enter i) r := by
  have hmade := h.made_of_phase hi (by simp)
  have hold : (s.ops i).phase ≠ .queued ∧ ∀ given, (s.ops i).phase ≠ .completed given := by
    simp [hi]
  unfold State.enter tryTake
  by_cases hstopped : (s.ops i).stoppedEarly = true
  · rw [if_pos hstopped]
    exact ⟨q, h.setPhase hmade hold (by simp) (by simp [hi, Phase.inTransit])⟩
  · rw [if_neg hstopped]
    by_cases hfree : s.free = 0
    · simp only [hfree, if_true]
      exact h.enqueued hi hfree
    · simp only [hfree, if_false]
      have hpos : 0 < n := by
        have hc := h.conserved
        omega
      refine ⟨q, (h.taken hfree).setPhase hmade hold (by simp) ?_⟩
      simp only [hi, Phase.inTransit]
      simp
      omega

/-! ### Completing -/

/-- An operation completes: it is logged, and the slot it was given is no longer on its way. -/
theorem Ok.completed (h : Ok n s q) {given : Bool} (hi : i < s.opCount)
    (hold : (s.ops i).phase ≠ .queued ∧ ∀ given, (s.ops i).phase ≠ .completed given) {m : Nat}
    (hm : m + (s.ops i).phase.inTransit.toNat = n) :
    Ok m { s.setPhase i (.completed given) with completions := s.completions ++ [(i, given)] } q := by
  let op : Op := { s.ops i with phase := .completed given }
  have hself : Function.update s.ops i op i = op := Function.update_self ..
  have hother : ∀ j, j ≠ i → Function.update s.ops i op j = s.ops j :=
    fun j hj => Function.update_of_ne hj ..
  have hk : ∀ j, (Function.update s.ops i op j).kind = (s.ops j).kind := by
    intro j
    by_cases hj : j = i
    · rw [hj, hself]
    · rw [hother j hj]
  have hl : ∀ j, (Function.update s.ops i op j).lease = (s.ops j).lease := by
    intro j
    by_cases hj : j = i
    · rw [hj, hself]
    · rw [hother j hj]
  -- What has not completed by now had not before.
  have hbefore : ∀ j, (∀ given, (Function.update s.ops i op j).phase ≠ .completed given) →
      ∀ given, (s.ops j).phase ≠ .completed given := by
    intro j hj g hp
    by_cases hji : j = i
    · exact hold.2 g (hji ▸ hp)
    · exact hj g (by rw [hother j hji]; exact hp)
  have hnone : ∀ g, (i, g) ∉ s.completions := fun g hmem => hold.2 g ((h.logged.mem i g).mp hmem)
  refine ⟨h.lined.congr rfl rfl (Nat.le_refl _),
    h.placed.update (rfl : _ = Function.update s.ops i op) (fun _ => rfl) rfl ?_,
    fun j => ?_, fun j hj => ?_, ⟨fun j l hj hnot => ?_, fun j j' l hj hj' hnot hnot' => ?_,
      fun j j' ticket hj hj' => ?_⟩, ⟨?_, fun j g => ?_⟩, ?_, h.idle⟩
  · exact ⟨fun hp => by simp [op] at hp, fun hp => absurd hp hold.1⟩
  · show OpOk (Function.update s.ops i op j)
    by_cases hj : j = i
    · rw [hj, hself]
      exact (h.op i).setPhase (hold.2 true) _
    · rw [hother j hj]
      exact h.op j
  · have hle : s.opCount ≤ j := hj
    have hji : j ≠ i := Nat.ne_of_gt (Nat.lt_of_lt_of_le hi hle)
    exact (hother j hji).trans (h.fresh j hle)
  · exact (hl l).trans (h.tied.lease j l ((hk j).symm.trans hj) (hbefore j hnot))
  · exact h.tied.once j j' l ((hk j).symm.trans hj) ((hk j').symm.trans hj') (hbefore j hnot)
      (hbefore j' hnot')
  · exact h.tied.ticket j j' ticket ((hk j).symm.trans hj) ((hk j').symm.trans hj')
  · show ((s.completions ++ [(i, given)]).map Prod.fst).Nodup
    rw [List.map_append]
    refine List.nodup_append.mpr ⟨h.logged.nodup, List.nodup_singleton _, fun a ha b hb hab => ?_⟩
    obtain ⟨⟨j, g⟩, hmem, rfl⟩ := List.mem_map.mp ha
    have hbi : b = i := List.mem_singleton.mp hb
    have hji : j = i := hab.trans hbi
    exact hnone g (hji ▸ hmem)
  · show (j, g) ∈ s.completions ++ [(i, given)] ↔ (Function.update s.ops i op j).phase = .completed g
    rw [List.mem_append, List.mem_singleton]
    by_cases hji : j = i
    · subst hji
      rw [hself]
      simp [hnone g, op, eq_comm]
    · rw [hother j hji, h.logged.mem j g]
      simp [hji]
  · have htokens := sum_map_update Op.tokens s.ops List.nodup_range (List.mem_range.mpr hi) op
    have hc := h.conserved
    unfold tokens at hc
    show s.free + ((List.range s.opCount).map fun j => (Function.update s.ops i op j).tokens).sum = m
    have hop : op.tokens + (s.ops i).phase.inTransit.toNat = (s.ops i).tokens := by
      simp [op, Op.tokens, Phase.inTransit]
    omega

theorem Ok.complete (h : Ok n s q) {given : Bool} (hi : i < s.opCount)
    (hold : (s.ops i).phase ≠ .queued ∧ ∀ given, (s.ops i).phase ≠ .completed given)
    (hgiven : (s.ops i).phase.inTransit = given) : Ok n (s.complete i given) q := by
  obtain ⟨hslot, hlease⟩ := (h.op i).uncompleted (hold.2 true)
  cases given with
  | false => exact h.completed hi hold (by simp [hgiven])
  | true =>
    have hle := h.tokens_le i
    have hone : 0 < (s.ops i).tokens := by simp [Op.tokens, hgiven]
    have hn : n - 1 + 1 = n := by omega
    let done : State :=
      { s.setPhase i (.completed true) with completions := s.completions ++ [(i, true)] }
    have hdone : Ok (n - 1) done q := h.completed hi hold (by simpa [hgiven] using hn)
    have hself : done.ops i = { s.ops i with phase := .completed true } := Function.update_self ..
    have hother : ∀ j, j ≠ i → done.ops j = s.ops j := fun j hj => Function.update_of_ne hj ..
    have hkind : (done.ops i).kind = (s.ops i).kind := by rw [hself]
    rw [complete_given]
    dsimp only
    rw [hkind]
    cases hk : (s.ops i).kind with
    | first ticket =>
      refine hdone.setOp hi (f := fun op => { op with slot := true }) rfl Iff.rfl
        (fun _ => Iff.rfl) (fun j hj hu => hdone.tied.lease j i hj hu) ?_ ?_
      · rw [hself]
        exact ⟨fun _ => ⟨rfl, hlease, ticket, hk⟩, fun hl => absurd hlease hl⟩
      · rw [hself]
        simp [Op.tokens, hslot]
        omega
    | reacquire l =>
      have hl := h.tied.lease i l hk hold.2
      have hli : l ≠ i := by
        rintro rfl
        rw [hlease] at hl
        simp at hl
      have hop := (h.op l).lease (by simp [hl])
      have hslot' : (s.ops l).slot = false := by
        by_contra hs
        have := ((h.op l).slot (by simpa using hs)).2.1
        rw [hl] at this
        simp at this
      refine hdone.setOp (h.made_of_phase hop.1 (by simp))
        (f := fun op => { op with lease := some true }) rfl Iff.rfl (fun _ => Iff.rfl)
        (fun j hj hu => ?_) ?_ ?_
      · -- The take-back that has just completed was the lease's only one.
        have hji : j ≠ i := by
          rintro rfl
          exact hu true (by rw [hself])
        rw [hother j hji] at hj hu
        exact absurd (h.tied.once j i l hj hk hu hold.2) hji
      · rw [hother l hli]
        exact ⟨fun hs => absurd hs (by simp [hslot']), fun _ => hop⟩
      · rw [hother l hli]
        simp [Op.tokens, hl]
        omega

/-! ### The other events -/

/-- A new operation has done nothing yet. -/
theorem Ok.connect (h : Ok n s q) {kind : Kind} (hc : s.Connectable kind) :
    Ok n (s.step (.connect kind)) q := by
  let op : Op := { kind }
  have hself : Function.update s.ops s.opCount op s.opCount = op := Function.update_self ..
  have hother : ∀ j, j ≠ s.opCount → Function.update s.ops s.opCount op j = s.ops j :=
    fun j hj => Function.update_of_ne hj ..
  have hold : s.ops s.opCount = {} := h.fresh _ (Nat.le_refl _)
  have hlease : ∀ j, (Function.update s.ops s.opCount op j).lease = (s.ops j).lease := by
    intro j
    by_cases hj : j = s.opCount
    · rw [hj, hself, hold]
    · rw [hother j hj]
  have hphase : ∀ j, (Function.update s.ops s.opCount op j).phase = (s.ops j).phase := by
    intro j
    by_cases hj : j = s.opCount
    · rw [hj, hself, hold]
    · rw [hother j hj]
  refine ⟨h.lined.congr rfl rfl (Nat.le_succ _), ⟨fun j => ?_, fun line j hj => ?_, fun ticket j => ?_⟩,
    fun j => ?_, fun j hj => ?_, ⟨fun j l hj hnot => ?_, fun j j' l hj hj' hnot hnot' => ?_,
      fun j j' ticket hj hj' => ?_⟩, ⟨h.logged.nodup, fun j given => ?_⟩, ?_, h.idle⟩
  · show _ ↔ (Function.update s.ops s.opCount op j).phase = .queued
    rw [hphase]
    exact h.placed.queued j
  · have hji : j ≠ s.opCount := Nat.ne_of_lt (h.lined.made line j hj)
    show _ ↔ ∃ l, (Function.update s.ops s.opCount op j).kind = .reacquire l
    rw [hother j hji]
    exact h.placed.kind line j hj
  · show _ ↔ (Function.update s.ops s.opCount op j).kind = _ ∧
      (Function.update s.ops s.opCount op j).phase = _
    show (s.tickets ticket).waiter = some j ↔ _
    rw [hphase, h.placed.waiter ticket j]
    by_cases hj : j = s.opCount
    · rw [hj, hold]
      simp
    · rw [hother j hj]
  · show OpOk (Function.update s.ops s.opCount op j)
    by_cases hj : j = s.opCount
    · rw [hj, hself]
      exact ⟨by simp [op], by simp [op]⟩
    · rw [hother j hj]
      exact h.op j
  · have hle : s.opCount + 1 ≤ j := hj
    have hji : j ≠ s.opCount := Nat.ne_of_gt hle
    exact (hother j hji).trans (h.fresh j (Nat.le_of_succ_le hle))
  · have hj' : (Function.update s.ops s.opCount op j).kind = .reacquire l := hj
    have hnot' : ∀ given, (Function.update s.ops s.opCount op j).phase ≠ .completed given := hnot
    show (Function.update s.ops s.opCount op l).lease = some false
    rw [hlease]
    by_cases hji : j = s.opCount
    · rw [hji, hself] at hj'
      subst hj'
      exact hc.1
    · rw [hother j hji] at hj' hnot'
      exact h.tied.lease j l hj' hnot'
  · have h1 : (Function.update s.ops s.opCount op j).kind = .reacquire l := hj
    have h2 : (Function.update s.ops s.opCount op j').kind = .reacquire l := hj'
    have h3 : ∀ given, (Function.update s.ops s.opCount op j).phase ≠ .completed given := hnot
    have h4 : ∀ given, (Function.update s.ops s.opCount op j').phase ≠ .completed given := hnot'
    by_cases hji : j = s.opCount
    · by_cases hji' : j' = s.opCount
      · rw [hji, hji']
      · rw [hji, hself] at h1
        subst h1
        rw [hother j' hji'] at h2 h4
        obtain ⟨given, hp⟩ := hc.2 j' h2
        exact absurd hp (h4 given)
    · rw [hother j hji] at h1 h3
      by_cases hji' : j' = s.opCount
      · rw [hji', hself] at h2
        subst h2
        obtain ⟨given, hp⟩ := hc.2 j h1
        exact absurd hp (h3 given)
      · rw [hother j' hji'] at h2 h4
        exact h.tied.once j j' l h1 h2 h3 h4
  · have h1 : (Function.update s.ops s.opCount op j).kind = .first (some ticket) := hj
    have h2 : (Function.update s.ops s.opCount op j').kind = .first (some ticket) := hj'
    by_cases hji : j = s.opCount
    · by_cases hji' : j' = s.opCount
      · rw [hji, hji']
      · rw [hji, hself] at h1
        subst h1
        rw [hother j' hji'] at h2
        exact absurd h2 (hc ticket rfl j')
    · rw [hother j hji] at h1
      by_cases hji' : j' = s.opCount
      · rw [hji', hself] at h2
        subst h2
        exact absurd h1 (hc ticket rfl j)
      · rw [hother j' hji'] at h2
        exact h.tied.ticket j j' ticket h1 h2
  · show _ ↔ (Function.update s.ops s.opCount op j).phase = .completed given
    rw [hphase]
    exact h.logged.mem j given
  · have hc := h.conserved
    unfold tokens at hc
    show s.free + ((List.range (s.opCount + 1)).map
      fun j => (Function.update s.ops s.opCount op j).tokens).sum = n
    have hsame : (List.range s.opCount).map (fun j => (Function.update s.ops s.opCount op j).tokens) =
        (List.range s.opCount).map fun j => (s.ops j).tokens := by
      apply List.map_congr_left
      intro j hj
      rw [hother j (Nat.ne_of_lt (List.mem_range.mp hj))]
    rw [List.range_succ, List.map_append, List.sum_append, hsame, List.map_singleton, hself]
    simpa [op, Op.tokens, Phase.inTransit] using hc

theorem Ok.releaseSlot (h : Ok n s q) (hi : (s.ops i).slot = true) :
    ∃ r, Ok n (s.releaseSlot i) r := by
  obtain ⟨hphase, hlease, ticket, hkind⟩ := (h.op i).slot hi
  have hmade := h.made_of_phase hphase (by simp)
  have htokens : (s.ops i).tokens = 1 := by
    simp [Op.tokens, hi, hlease, hphase, Phase.inTransit]
  have hle := h.tokens_le i
  have hn : n - 1 + 1 = n := by omega
  have hbefore : Ok (n - 1) (s.setOp i fun op => { op with slot := false }) q :=
    h.setOp hmade rfl Iff.rfl (fun _ => Iff.rfl) (fun j hj hu => h.tied.lease j i hj hu)
      ⟨fun hs => by simp at hs, (h.op i).lease⟩ (by
        rw [htokens]
        simp [Op.tokens, hlease, hphase, Phase.inTransit]
        omega)
  obtain ⟨r, hr⟩ := hbefore.release
  rw [hn] at hr
  exact ⟨r, hr⟩

theorem Ok.releaseLease (h : Ok n s q) : ∃ r, Ok n (s.releaseLease i) r := by
  unfold State.releaseLease
  by_cases hheld : (s.ops i).lease = some true
  · rw [if_pos hheld]
    obtain ⟨hphase, hkind⟩ := (h.op i).lease (by simp [hheld])
    have hmade := h.made_of_phase hphase (by simp)
    have hslot : (s.ops i).slot = false := by
      by_contra hs
      have := ((h.op i).slot (by simpa using hs)).2.1
      rw [hheld] at this
      simp at this
    have htokens : (s.ops i).tokens = 1 := by
      simp [Op.tokens, hslot, hheld, hphase, Phase.inTransit]
    have hle := h.tokens_le i
    have hn : n - 1 + 1 = n := by omega
    have hbefore : Ok (n - 1) (s.setOp i fun op => { op with lease := some false }) q :=
      h.setOp hmade rfl Iff.rfl (fun _ => Iff.rfl) (fun _ _ _ => rfl)
        ⟨fun hs => absurd hs (by simp [hslot]), fun _ => ⟨hphase, hkind⟩⟩ (by
          rw [htokens]
          simp [Op.tokens, hslot, hphase, Phase.inTransit]
          omega)
    obtain ⟨r, hr⟩ := hbefore.release
    rw [hn] at hr
    exact ⟨r, hr⟩
  · rw [if_neg hheld]
    exact ⟨q, h⟩

theorem Ok.takeLease (h : Ok n s q) (hi : (s.ops i).slot = true) : Ok n (s.takeLease i) q := by
  obtain ⟨hphase, hlease, hkind⟩ := (h.op i).slot hi
  refine h.setOp (h.made_of_phase hphase (by simp)) rfl Iff.rfl (fun _ => Iff.rfl)
    (fun j hj hu => ?_) ⟨fun hs => by simp at hs, fun _ => ⟨hphase, hkind⟩⟩ ?_
  · have := h.tied.lease j i hj hu
    rw [hlease] at this
    simp at this
  · simp [Op.tokens, hi, hlease]

theorem Ok.shutDown (h : Ok n s q) {given : Bool} (hi : (s.ops i).phase = .resuming given) :
    ∃ r, Ok n (s.shutDown i given) r := by
  have hmade := h.made_of_phase hi (by simp)
  have hold : (s.ops i).phase ≠ .queued ∧ ∀ given, (s.ops i).phase ≠ .completed given := by
    simp [hi]
  unfold State.shutDown
  cases given with
  | false => exact ⟨q, h.setPhase hmade hold (by simp) (by simp [hi, Phase.inTransit])⟩
  | true =>
    have hle := h.tokens_le i
    have hone : 0 < (s.ops i).tokens := by simp [Op.tokens, hi, Phase.inTransit]
    have hn : n - 1 + 1 = n := by omega
    have hbefore : Ok (n - 1) (s.setPhase i (.completing false)) q :=
      h.setPhase hmade hold (by simp) (by simp [hi, Phase.inTransit]; omega)
    obtain ⟨r, hr⟩ := hbefore.release
    rw [hn] at hr
    exact ⟨r, hr⟩

/-- Promoting moves a waiter from one line to the end of another, if it moves it at all. -/
theorem Ok.promote (h : Ok n s q) (ticket : TicketId) : ∃ r, Ok n (s.promote ticket) r := by
  by_cases hp : (s.tickets ticket).promoted = true
  · exact ⟨q, by rw [State.promote, if_pos hp]; exact h⟩
  · let marked : State := { s with
      tickets := Function.update s.tickets ticket { s.tickets ticket with promoted := true } }
    have hmarked : Ok n marked q := h.tickets fun t => by
      by_cases ht : t = ticket
      · subst ht
        simp
      · simp [ht]
    have hwaiter : (marked.tickets ticket).waiter = (s.tickets ticket).waiter := by simp [marked]
    rw [promote_unpromoted marked (by simpa using hp) rfl, ← hwaiter]
    cases hw : (marked.tickets ticket).waiter with
    | none => exact ⟨q, hmarked⟩
    | some i =>
      obtain ⟨hkind, hqueued⟩ := (hmarked.placed.waiter ticket i).mp hw
      by_cases hmem : i ∈ q .waiting
      · obtain ⟨u, hu, honly, hlined⟩ := hmarked.lined.removeLine_some hmem
        simp only [hu]
        let q' := Function.update q .waiting ((q .waiting).erase i)
        have hgone : ∀ line, i ∉ q' line := by
          intro line hin
          by_cases hl : line = .waiting
          · subst hl
            have hin' : i ∈ (q .waiting).erase i := by simpa [q'] using hin
            exact ((h.lined.holds .waiting).nodup.mem_erase_iff.mp hin').1 rfl
          · have hin' : i ∈ q line := by simpa [q', hl] using hin
            exact hl (h.lined.disjoint _ _ i hin' hmem)
        have hmade : i < u.opCount := by
          rw [honly]
          exact h.lined.made _ i hmem
        have hpushed : (u.pushLine .promoted i).Lined
            (Function.update q' .promoted (q' .promoted ++ [i])) := hlined.pushLine hgone hmade
        have honly' : OnlyLines marked (u.pushLine .promoted i) := by
          have := pushLine_only u .promoted i
          unfold OnlyLines at *
          rw [this, honly]
        have hall : ∀ line j, j ∈ Function.update q' .promoted (q' .promoted ++ [i]) line ↔
            (line = .promoted ∧ j = i) ∨ (j ≠ i ∧ j ∈ q line) := by
          intro line j
          have hq' : j ∈ q' line ↔ j ≠ i ∧ j ∈ q line := by
            by_cases hl : line = .waiting
            · subst hl
              simp only [q', Function.update_self]
              exact (h.lined.holds .waiting).nodup.mem_erase_iff
            · simp only [q', Function.update_of_ne hl]
              refine ⟨fun hj => ⟨fun heq => ?_, hj⟩, fun hj => hj.2⟩
              exact hl (h.lined.disjoint _ _ i (heq ▸ hj) hmem)
          by_cases hl : line = .promoted
          · subst hl
            rw [Function.update_self, List.mem_append, List.mem_singleton, hq']
            simp only [true_and]
            exact Or.comm
          · rw [Function.update_of_ne hl, hq']
            simp [hl]
        refine ⟨_, hmarked.rearranged honly' hpushed (fun j => ?_) (fun line j hj => ?_)
          fun hpos => ?_⟩
        · simp only [hall]
          by_cases hj : j = i
          · subst hj
            simp only [ne_eq, not_true_eq_false, false_and, or_false, and_true]
            exact ⟨fun _ => ⟨.waiting, hmem⟩, fun _ => ⟨.promoted, rfl⟩⟩
          · simp [hj]
        · obtain ⟨rfl, rfl⟩ | ⟨_, hj⟩ := (hall line j).mp hj
          · rw [hkind]
            simp
          · exact hmarked.placed.kind line j hj
        · have hnil := h.idle hpos .waiting
          rw [hnil] at hmem
          simp at hmem
      · simp only [hmarked.lined.removeLine_none hmem]
        exact ⟨q, hmarked⟩

/-- Every event keeps the queue's invariant. -/
theorem Ok.step (h : Ok n s q) {e : Event} (he : s.enabled e) : ∃ r, Ok n (s.step e) r := by
  cases e with
  | connect kind => exact ⟨q, h.connect he⟩
  | start i =>
    obtain ⟨hmade, hidle⟩ := he
    exact ⟨q, h.setPhase hmade (by simp [hidle]) (by simp) (by simp [hidle, Phase.inTransit])⟩
  | enter i => exact h.enter he
  | requestStop i =>
    exact ⟨q, h.setOp (f := fun op => { op with stopRequested := true }) he rfl Iff.rfl
      (fun _ => Iff.rfl) (fun j hj hu => h.tied.lease j i hj hu) ⟨(h.op i).slot, (h.op i).lease⟩ rfl⟩
  | onStop i => exact h.onStop he
  | handOn i given =>
    have hp : (s.ops i).phase = .handed given := he
    exact ⟨q, h.setPhase (h.made_of_phase hp (by simp)) (by simp [hp]) (by simp)
      (by simp [hp, Phase.inTransit])⟩
  | resume i given =>
    have hp : (s.ops i).phase = .resuming given := he
    exact ⟨q, h.complete (h.made_of_phase hp (by simp)) (by simp [hp]) (by simp [hp, Phase.inTransit])⟩
  | shutDown i given => exact h.shutDown he
  | complete i given =>
    have hp : (s.ops i).phase = .completing given := he
    exact ⟨q, h.complete (h.made_of_phase hp (by simp)) (by simp [hp]) (by simp [hp, Phase.inTransit])⟩
  | takeLease i => exact ⟨q, h.takeLease he⟩
  | releaseSlot i => exact h.releaseSlot he
  | releaseLease i => exact h.releaseLease
  | promote ticket => exact h.promote ticket

end State

end MakeBelieve.Queue
