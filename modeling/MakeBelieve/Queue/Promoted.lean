import MakeBelieve.Queue.Order

namespace MakeBelieve.Queue

open Library

namespace State

variable {n : Nat} {s t : State} {q : Queued} {i j : OpId} {e : Event}

/-! ### Who a slot may be handed to -/

theorem setPhase_phase_of_ne (s : State) (i : OpId) (phase : Phase) (hj : j ≠ i) :
    ((s.setPhase i phase).ops j).phase = (s.ops j).phase := by
  show (Function.update s.ops i _ j).phase = _
  rw [Function.update_of_ne hj]

theorem complete_phase_of_ne (s : State) (i : OpId) (given : Bool) (hj : j ≠ i) :
    ((s.complete i given).ops j).phase = (s.ops j).phase := by
  let done : State :=
    { s.setPhase i (.completed given) with completions := s.completions ++ [(i, given)] }
  have hdone : (done.ops j).phase = (s.ops j).phase := setPhase_phase_of_ne s i _ hj
  have hset : ∀ (k : OpId) (f : Op → Op), (∀ op, (f op).phase = op.phase) →
      ((done.setOp k f).ops j).phase = (s.ops j).phase := fun k f hf =>
    (setOp_phase done k hf j).trans hdone
  cases given with
  | false => exact hdone
  | true =>
    rw [complete_given]
    dsimp only
    split
    · exact hset _ _ fun _ => rfl
    · exact hset _ _ fun _ => rfl

theorem enter_phase_of_ne (s : State) (i : OpId) (hj : j ≠ i) :
    ((s.enter i).ops j).phase = (s.ops j).phase := by
  unfold enter tryTake
  split
  · exact setPhase_phase_of_ne s i _ hj
  · by_cases hfree : s.free = 0
    · obtain ⟨tickets, heq, _⟩ := enqueue_lineOf s i
      have hops : (s.enqueue i).ops = s.ops := by
        rw [heq]
        rfl
      simp only [hfree, if_true]
      rw [setPhase_phase_of_ne _ i _ hj, hops]
    · simp only [hfree, if_false]
      exact setPhase_phase_of_ne _ i _ hj

/-- A waiter is handed a slot only as one is given back. -/
theorem frees_of_handed (h : Ok n s q) (he : s.enabled e) (hi : (s.ops i).phase = .queued)
    (hgot : ((s.step e).ops i).phase = .handed true) : s.Frees e := by
  have hsame : ((s.step e).ops i).phase = (s.ops i).phase → s.Frees e := fun heq => by
    rw [heq, hi] at hgot
    simp at hgot
  have hne : ∀ {j}, (s.ops j).phase ≠ .queued → i ≠ j := fun hj heq => hj (heq ▸ hi)
  cases e with
  | connect kind =>
    have hmade := h.made_of_phase hi (by simp)
    refine hsame ?_
    show (Function.update s.ops s.opCount { kind } i).phase = _
    rw [Function.update_of_ne (Nat.ne_of_lt hmade)]
  | start j => exact hsame (setPhase_phase_of_ne s j _ (hne (by simp [he.2])))
  | enter j =>
    have hj : (s.ops j).phase = .starting := he
    exact hsame (enter_phase_of_ne s j (hne (by simp [hj])))
  | requestStop j =>
    exact hsame (setOp_phase s j (f := fun op => { op with stopRequested := true }) (fun _ => rfl) i)
  | onStop j =>
    by_cases hij : i = j
    · subst hij
      have hops := onStop_ops h i
      have hgot' : ((s.onStop i).ops i).phase = .handed true := hgot
      rw [hops, Function.update_self, if_pos hi] at hgot'
      simp at hgot'
    · refine hsame ?_
      show ((s.onStop j).ops i).phase = _
      rw [onStop_ops h j, Function.update_of_ne hij]
  | handOn j given =>
    have hj : (s.ops j).phase = .handed given := he
    exact hsame (setPhase_phase_of_ne s j _ (hne (by simp [hj])))
  | resume j given =>
    have hj : (s.ops j).phase = .resuming given := he
    exact hsame (complete_phase_of_ne s j given (hne (by simp [hj])))
  | shutDown j given =>
    have hj : (s.ops j).phase = .resuming given := he
    cases given with
    | true => rfl
    | false => exact hsame (setPhase_phase_of_ne s j _ (hne (by simp [hj])))
  | complete j given =>
    have hj : (s.ops j).phase = .completing given := he
    exact hsame (complete_phase_of_ne s j given (hne (by simp [hj])))
  | takeLease j =>
    exact hsame (setOp_phase s j (f := fun op => { op with slot := false, lease := some true })
      (fun _ => rfl) i)
  | releaseSlot j => trivial
  | releaseLease j =>
    by_cases hheld : (s.ops j).lease = some true
    · exact hheld
    · refine hsame ?_
      show ((s.releaseLease j).ops i).phase = _
      unfold State.releaseLease
      rw [if_neg hheld]
  | promote ticket =>
    refine hsame ?_
    show ((s.promote ticket).ops i).phase = _
    rw [promote_ops]

/-- What an operation waits for is settled as it is made. -/
theorem kind_step (h : Ok n s q) (he : s.enabled e) (hi : i < s.opCount) :
    ((s.step e).ops i).kind = (s.ops i).kind := by
  have hset : ∀ (j : OpId) (f : Op → Op), (∀ op, (f op).kind = op.kind) →
      ((s.setOp j f).ops i).kind = (s.ops i).kind := by
    intro j f hf
    show (Function.update s.ops j (f (s.ops j)) i).kind = _
    by_cases hj : i = j
    · rw [hj, Function.update_self, hf]
    · rw [Function.update_of_ne hj]
  cases e with
  | connect kind =>
    show (Function.update s.ops s.opCount { kind } i).kind = _
    rw [Function.update_of_ne (Nat.ne_of_lt hi)]
  | start j => exact hset j (fun op => { op with phase := .starting }) fun _ => rfl
  | enter j => exact (keeps_enter he).kind i
  | requestStop j => exact hset j (fun op => { op with stopRequested := true }) fun _ => rfl
  | onStop j => exact (keeps_onStop h j).kind i
  | handOn j given => exact hset j (fun op => { op with phase := .resuming given }) fun _ => rfl
  | resume j given => exact (complete_completes s j given).kind i
  | shutDown j given => exact (keeps_shutDown h he).kind i
  | complete j given => exact (complete_completes s j given).kind i
  | takeLease j =>
    exact hset j (fun op => { op with slot := false, lease := some true }) fun _ => rfl
  | releaseSlot j => exact (keeps_releaseSlot h).kind i
  | releaseLease j => exact (releaseLease_releases h j).kind i
  | promote ticket => exact (keeps_promote s ticket).kind i

/-- A slot that comes back from an operation moves nobody's ticket. -/
theorem setOp_release_promoted (h : Ok n s q) (i : OpId) {f : Op → Op}
    (hk : (f (s.ops i)).kind = (s.ops i).kind)
    (hq : (f (s.ops i)).phase = .queued ↔ (s.ops i).phase = .queued) (ticket : TicketId) :
    ((s.setOp i f).release.tickets ticket).promoted = (s.tickets ticket).promoted := by
  have hlined : (s.setOp i f).Lined q := h.lined.congr rfl rfl (Nat.le_refl _)
  have hplaced : (s.setOp i f).Placed q := h.placed.update rfl (fun _ => rfl) hk hq
  exact release_promoted hlined hplaced ticket

theorem complete_tickets (s : State) (i : OpId) (given : Bool) :
    (s.complete i given).tickets = s.tickets := by
  cases given with
  | false => rfl
  | true =>
    rw [complete_given]
    dsimp only
    split <;> rfl

/-- Only `promote` promotes a ticket. -/
theorem promoted_step (h : Ok n s q) (he : s.enabled e) (hpromote : ∀ ticket, e ≠ .promote ticket)
    (ticket : TicketId) :
    ((s.step e).tickets ticket).promoted = (s.tickets ticket).promoted := by
  cases e with
  | promote ticket => exact absurd rfl (hpromote ticket)
  | connect | start | requestStop | handOn | takeLease => rfl
  | enter i => exact enter_promoted s i ticket
  | onStop i => exact onStop_promoted h i ticket
  | resume i given | complete i given =>
    show ((s.complete i given).tickets ticket).promoted = _
    rw [complete_tickets]
  | shutDown i given =>
    have hphase : (s.ops i).phase = .resuming given := he
    cases given with
    | false => rfl
    | true =>
      exact setOp_release_promoted h i (f := fun op => { op with phase := .completing false }) rfl
        (by simp [hphase]) ticket
  | releaseSlot i =>
    exact setOp_release_promoted h i (f := fun op => { op with slot := false }) rfl Iff.rfl ticket
  | releaseLease i =>
    show ((s.releaseLease i).tickets ticket).promoted = _
    unfold State.releaseLease
    split
    · exact setOp_release_promoted h i (f := fun op => { op with lease := some false }) rfl Iff.rfl
        ticket
    · rfl

end State

/-! ### The promoted line and the order of the promotions -/

namespace State

/-- What stands in the promoted line is work under a ticket promoted. -/
theorem lineOf_promoted {s : State} {i : OpId} (h : s.lineOf i = .promoted) :
    ∃ ticket, (s.ops i).kind = .first (some ticket) ∧ (s.tickets ticket).promoted = true := by
  unfold lineOf at h
  split at h
  · simp at h
  · simp at h
  · next ticket hkind =>
    refine ⟨ticket, hkind, ?_⟩
    split at h
    · next hp => exact hp
    · simp at h

/-- Only work that found no slot free, and was not stopped, is in line. -/
theorem enter_queued {s : State} {i : OpId} (h : ((s.enter i).ops i).phase = .queued) :
    s.free = 0 ∧ (s.ops i).stoppedEarly = false := by
  unfold enter tryTake at h
  split at h
  · simp [setPhase_phase] at h
  · next hstopped =>
    by_cases hfree : s.free = 0
    · exact ⟨hfree, by simpa using hstopped⟩
    · simp [hfree, setPhase_phase] at h

end State

/-- The tickets promoted so far, in the order they were. -/
def notePromotion (h : History) (e : Event) (promoted : List TicketId) : List TicketId :=
  match e with
  | .promote ticket =>
    if (h.queue.tickets ticket).promoted then promoted else promoted ++ [ticket]
  | _ => promoted

/-- The queue of `slots` slots with the order its tickets are promoted in. -/
def promotions (slots : Nat) : Machine (History × List TicketId) Event :=
  (ordered slots).noting (fun _ => []) notePromotion

/-- The ticket of the first of these pieces of work was promoted before that of the second. -/
def PromotedBefore (s : History × List TicketId) (i j : OpId) : Prop :=
  ∃ t u, (s.1.queue.ops i).kind = .first (some t) ∧ (s.1.queue.ops j).kind = .first (some u) ∧
    [t, u].Sublist s.2

/-- Work that gets in line with its ticket promoted finds in the promoted line only work promoted
before it. -/
def EntersInTurn (s : History × List TicketId) : Event → Prop
  | .enter i => s.1.queue.free = 0 → (s.1.queue.ops i).stoppedEarly = false →
      s.1.queue.lineOf i = .promoted → ∀ j, s.1.queue.StandsIn .promoted j → PromotedBefore s j i
  | _ => True

/-- The tickets noted are those promoted. -/
def Noted (s : History × List TicketId) : Prop :=
  ∀ t, t ∈ s.2 ↔ (s.1.queue.tickets t).promoted = true

/-- The promoted line is in the order its tickets were promoted in. -/
def InTurn (s : History × List TicketId) : Prop :=
  (s.1.queue.waiters .promoted).Pairwise (PromotedBefore s)

open State

variable {n : Nat} {s : History × List TicketId} {q : Queued} {i j : OpId} {e : Event}

theorem notePromotion_of_ne (h : History) (promoted : List TicketId)
    (he : ∀ ticket, e ≠ .promote ticket) : notePromotion h e promoted = promoted := by
  cases e with
  | promote ticket => exact absurd rfl (he ticket)
  | _ => rfl

theorem notePromotion_sublist (h : History) (e : Event) (promoted : List TicketId) :
    promoted.Sublist (notePromotion h e promoted) := by
  cases e with
  | promote ticket =>
    unfold notePromotion
    dsimp only
    split
    · exact .refl _
    · exact List.sublist_append_left ..
  | _ => exact .refl _

/-- Who was promoted first is settled. -/
theorem PromotedBefore.step (h : PromotedBefore s i j) (hok : Ok n s.1.queue q)
    (he : s.1.queue.enabled e) : PromotedBefore ((promotions n).step s e) i j := by
  obtain ⟨t, u, hi, hj, hsub⟩ := h
  have hmade : ∀ {k ticket}, (s.1.queue.ops k).kind = .first (some ticket) →
      k < s.1.queue.opCount := fun hk => hok.made fun hdefault => by simp [hdefault] at hk
  exact ⟨t, u, (kind_step hok he (hmade hi)).trans hi, (kind_step hok he (hmade hj)).trans hj,
    hsub.trans (notePromotion_sublist s.1 e s.2)⟩

theorem Noted.step (h : Noted s) (hok : Ok n s.1.queue q) (he : s.1.queue.enabled e) :
    Noted ((promotions n).step s e) := by
  intro t
  show t ∈ notePromotion s.1 e s.2 ↔ ((s.1.queue.step e).tickets t).promoted = true
  cases e with
  | promote ticket =>
    show _ ↔ ((s.1.queue.promote ticket).tickets t).promoted = true
    unfold notePromotion
    dsimp only
    rw [promote_promoted]
    by_cases hp : (s.1.queue.tickets ticket).promoted = true
    · rw [if_pos hp, h]
      by_cases ht : t = ticket
      · simp [ht, hp]
      · simp [ht]
    · rw [if_neg hp, List.mem_append, h, List.mem_singleton]
      by_cases ht : t = ticket
      · simp [ht]
      · simp [ht]
  | _ => rw [notePromotion_of_ne _ _ (by simp), promoted_step hok he (by simp), h]

/-- Work promoted in line goes behind all that was promoted before it. -/
theorem InTurn.promote (h : InTurn s) (hn : Noted s) (hs : s.1.Sorted) (hok : Ok n s.1.queue q)
    (ticket : TicketId) : InTurn ((promotions n).step s (.promote ticket)) := by
  have hold : (s.1.queue.waiters .promoted).Pairwise
      (PromotedBefore ((promotions n).step s (.promote ticket))) :=
    h.imp fun hb => hb.step hok trivial
  show ((s.1.queue.promote ticket).waiters .promoted).Pairwise _
  by_cases hp : (s.1.queue.tickets ticket).promoted = true
  · rwa [promote_nobody hok (.inl hp)]
  · cases hw : (s.1.queue.tickets ticket).waiter with
    | none => rwa [promote_nobody hok (.inr hw)]
    | some i =>
      obtain ⟨_, hmoved⟩ := hs.promote_moves hok (Bool.eq_false_iff.mpr hp) hw
      obtain ⟨hkind, _⟩ := (hok.placed.waiter ticket i).mp hw
      rw [hmoved, Function.update_self]
      refine List.pairwise_append.mpr ⟨hold, List.pairwise_singleton _ _, fun j hj k hk => ?_⟩
      obtain rfl := List.mem_singleton.mp hk
      obtain ⟨_, hline⟩ := (hs.mem_waiters hok .promoted j).mp hj
      obtain ⟨u, hu, hpromoted⟩ := lineOf_promoted hline
      have hin : u ∈ s.2 := (hn u).mpr hpromoted
      refine ⟨u, ticket, ((keeps_promote _ _).kind j).trans hu,
        ((keeps_promote _ _).kind k).trans hkind, ?_⟩
      show [u, ticket].Sublist (notePromotion s.1 (.promote ticket) s.2)
      unfold notePromotion
      dsimp only
      rw [if_neg hp]
      exact (List.singleton_sublist.mpr hin).append (.refl [ticket])

/-- Work that gets in line in its turn leaves the promoted line in order. -/
theorem InTurn.enter (h : InTurn s) (hs : s.1.Sorted) (hok : Ok n s.1.queue q)
    (he : s.1.queue.enabled (.enter i)) (hturn : EntersInTurn s (.enter i)) :
    InTurn ((promotions n).step s (.enter i)) := by
  have hold : (s.1.queue.waiters .promoted).Pairwise
      (PromotedBefore ((promotions n).step s (.enter i))) :=
    h.imp fun hb => hb.step hok he
  show ((s.1.queue.enter i).waiters .promoted).Pairwise _
  obtain ⟨hp, hw⟩ | ⟨_, hw⟩ := enter_waiters hok he
  · rw [hw]
    by_cases hline : s.1.queue.lineOf i = .promoted
    · rw [hline, Function.update_self]
      obtain ⟨hfree, hstopped⟩ := enter_queued hp
      refine List.pairwise_append.mpr ⟨hold, List.pairwise_singleton _ _, fun j hj k hk => ?_⟩
      obtain rfl := List.mem_singleton.mp hk
      exact (hturn hfree hstopped hline j ((hs.mem_waiters hok .promoted j).mp hj)).step hok he
    · rwa [Function.update_of_ne (Ne.symm hline)]
  · rwa [hw]

theorem InTurn.step (h : InTurn s) (hn : Noted s) (hs : s.1.Sorted) (hok : Ok n s.1.queue q)
    (he : s.1.queue.enabled e) (hturn : EntersInTurn s e) : InTurn ((promotions n).step s e) := by
  by_cases henter : ∃ i, e = .enter i
  · obtain ⟨i, rfl⟩ := henter
    exact h.enter hs hok he hturn
  · by_cases hpromote : ∃ ticket, e = .promote ticket
    · obtain ⟨ticket, rfl⟩ := hpromote
      exact h.promote hn hs hok ticket
    · have hu := unmoved_step hok he (fun i heq => henter ⟨i, heq⟩)
        fun ticket heq => hpromote ⟨ticket, heq⟩
      exact (h.imp fun hb => hb.step hok he).sublist (hu.waiters .promoted)

theorem inTurn_init (hi : (ordered n).init s.1) : InTurn s := by
  have hfresh : s.1 = { queue := { free := n } } := hi
  have hnil : ({ free := n } : State).waiters .promoted = [] := by
    rw [(ok_init n).lined.waiters_eq]
  unfold InTurn
  rw [hfresh, hnil]
  exact .nil

theorem noted {ok : History × List TicketId → Event → Prop}
    (hr : (promotions n).Reachable ok s) : Noted s := by
  refine hr.invariant_under (Q := fun s => ∃ q, Ok n s.1.queue q) (fun s hs => ?_)
    (fun s hs => ?_) fun s e ⟨_, hok⟩ hn he _ => hn.step hok he
  · exact (History.sorted hs.unnoted).2
  · obtain ⟨hinit, hblank⟩ := hs
    have hfresh : s.1 = { queue := { free := n } } := hinit
    intro t
    simp [hblank, hfresh]

theorem inTurn (hr : (promotions n).Reachable EntersInTurn s) : InTurn s :=
  hr.invariant_under (Q := fun s => Noted s ∧ s.1.Sorted ∧ ∃ q, Ok n s.1.queue q)
    (fun _ hs => ⟨noted hs, History.sorted hs.unnoted⟩) (fun _ hs => inTurn_init hs.1)
    fun _ _ ⟨hn, hsorted, _, hok⟩ h he hturn => h.step hn hsorted hok he hturn

/-- Of two members of a list one comes first. -/
theorem pair_sublist {α : Type*} {a b : α} {l : List α} (ha : a ∈ l) (hb : b ∈ l) (hne : a ≠ b) :
    [a, b].Sublist l ∨ [b, a].Sublist l := by
  induction l with
  | nil => simp at ha
  | cons c l ih =>
    by_cases hca : c = a
    · subst hca
      have hin : b ∈ l := (List.mem_cons.mp hb).resolve_left (Ne.symm hne)
      exact .inl ((List.singleton_sublist.mpr hin).cons_cons c)
    · by_cases hcb : c = b
      · subst hcb
        have hin : a ∈ l := (List.mem_cons.mp ha).resolve_left hne
        exact .inr ((List.singleton_sublist.mpr hin).cons_cons c)
      · have ha' : a ∈ l := (List.mem_cons.mp ha).resolve_left (Ne.symm hca)
        have hb' : b ∈ l := (List.mem_cons.mp hb).resolve_left (Ne.symm hcb)
        exact (ih ha' hb').imp (fun h => h.cons c) fun h => h.cons c

/-- Where work already promoted gets in line only behind work promoted before it, each slot goes to
the work promoted first of all the promoted work in line. Where some gets in line behind work
promoted after it, the line is out of order from then on. -/
theorem promoted_in_order (n : Nat) :
    (∀ s, (promotions n).Reachable EntersInTurn s → ∀ e, s.1.queue.enabled e → ∀ i,
      s.1.HandsTo e i → s.1.queue.StandsIn .promoted i →
        ∀ j, s.1.queue.StandsIn .promoted j → j ≠ i → PromotedBefore s i j) ∧
    ∀ s, (promotions n).Reachable (fun _ _ => True) s → ∀ e, s.1.queue.enabled e →
      ¬EntersInTurn s e → ∃ i j, PromotedBefore ((promotions n).step s e) i j ∧
        [j, i].Sublist (((promotions n).step s e).1.queue.waiters .promoted) := by
  refine ⟨fun s hr e he i hgot hi j hj hne => ?_, fun s hr e he hnot => ?_⟩
  · obtain ⟨hs, q, hok⟩ := History.sorted hr.unnoted
    have hf : s.1.queue.Frees e := frees_of_handed hok he hi.1 hgot.1
    have hmem := hs.mem_waiters hok .promoted
    obtain ⟨line, first, rest, hfirst, hbefore, hhands⟩ | ⟨hnil, _⟩ := History.frees_hands hok he hf
    · have hsame : i = first := by
        by_contra hother
        have := hgot.1
        rw [hhands.2.2 i hother hi.1, hi.1] at this
        simp at this
      subst hsame
      have hline : line = .promoted := by
        rw [← hs.inLine line i (by simp [hfirst]), hi.2]
      subst hline
      have hturn := inTurn hr
      unfold InTurn at hturn
      rw [hfirst] at hturn
      have hin : j ∈ i :: rest := hfirst ▸ (hmem j).mpr hj
      exact (List.pairwise_cons.mp hturn).1 j ((List.mem_cons.mp hin).resolve_left hne)
    · have hin := (hmem i).mpr hi
      rw [hnil] at hin
      exact absurd hin List.not_mem_nil
  · obtain ⟨hs, q, hok⟩ := History.sorted hr.unnoted
    cases e with
    | enter i =>
      simp only [EntersInTurn, Classical.not_imp, not_forall] at hnot
      obtain ⟨hfree, hstopped, hline, j, hj, hlate⟩ := hnot
      obtain ⟨t, ht, htp⟩ := lineOf_promoted hline
      obtain ⟨u, hu, hup⟩ := lineOf_promoted hj.2
      have hstarting : (s.1.queue.ops i).phase = .starting := he
      have hne : t ≠ u := by
        rintro rfl
        have hij := hok.tied.ticket i j t ht hu
        rw [← hij, StandsIn, hstarting] at hj
        simp at hj
      have hn := noted hr
      have hfirst : PromotedBefore s i j := by
        obtain hsub | hsub := pair_sublist ((hn t).mpr htp) ((hn u).mpr hup) hne
        · exact ⟨t, u, ht, hu, hsub⟩
        · exact absurd ⟨u, t, hu, ht, hsub⟩ hlate
      refine ⟨i, j, hfirst.step hok he, ?_⟩
      show [j, i].Sublist ((s.1.queue.enter i).waiters .promoted)
      obtain ⟨_, hw⟩ | ⟨hp, _⟩ := enter_waiters hok he
      · rw [hw, hline, Function.update_self]
        exact (List.singleton_sublist.mpr ((hs.mem_waiters hok .promoted j).mpr hj)).append
          (.refl [i])
      · refine absurd ?_ hp
        unfold enter tryTake
        simp [hstopped, hfree, setPhase_phase]
    | _ => exact absurd trivial hnot

/-- One slot, taken. The second ticket is promoted before its work is in line, behind work that is
promoted after it. -/
def queuedLate : List Event :=
  [.connect (.first none), .start 0, .enter 0, .complete 0 true, .promote 1,
    .connect (.first (some 0)), .start 1, .enter 1, .promote 0, .connect (.first (some 1)), .start 2,
    .enter 2]

theorem connectable_first (hok : Ok n s.1.queue q) {ticket : TicketId}
    (h : ∀ k < s.1.queue.opCount, (s.1.queue.ops k).kind ≠ .first (some ticket)) :
    s.1.queue.Connectable (.first (some ticket)) := by
  intro t ht k hk
  obtain rfl : ticket = t := by simpa using ht
  exact h k (hok.made fun hdefault => by simp [hdefault] at hk) hk

theorem queuedLate_reachable : (promotions 1).Reachable (fun _ _ => True)
    ((promotions 1).runs ({ queue := { free := 1 } }, []) queuedLate) := by
  have hinit : (promotions 1).init ({ queue := { free := 1 } }, []) := ⟨rfl, rfl⟩
  have htaken : (promotions 1).Reachable (fun _ _ => True)
      ((promotions 1).runs ({ queue := { free := 1 } }, []) (queuedLate.take 5)) :=
    (Machine.Reachable.start hinit).runs ⟨fun t ht => by simp at ht, trivial, ⟨by decide, rfl⟩,
      trivial, rfl, trivial, rfl, trivial, trivial, trivial, trivial⟩
  obtain ⟨_, _, hok⟩ := History.sorted htaken.unnoted
  have hlined : (promotions 1).Reachable (fun _ _ => True)
      ((promotions 1).runs ({ queue := { free := 1 } }, []) (queuedLate.take 9)) :=
    @Machine.Reachable.runs _ _ _ _ _ ((queuedLate.drop 5).take 4) htaken
      ⟨connectable_first hok (by decide), trivial, ⟨by decide, rfl⟩, trivial, rfl, trivial, trivial,
        trivial, trivial⟩
  obtain ⟨_, _, hok'⟩ := History.sorted hlined.unnoted
  exact @Machine.Reachable.runs _ _ _ _ _ (queuedLate.drop 9) hlined
    ⟨connectable_first hok' (by decide), trivial, ⟨by decide, rfl⟩, trivial, rfl, trivial, trivial⟩

/-- The slot goes to the work promoted second, though both are in line. -/
theorem promoted_overtaken : ¬∀ n s, (promotions n).Reachable (fun _ _ => True) s →
    ∀ e, s.1.queue.enabled e → ∀ i, s.1.HandsTo e i → s.1.queue.StandsIn .promoted i →
      ∀ j, s.1.queue.StandsIn .promoted j → j ≠ i → PromotedBefore s i j := by
  intro hall
  let s := (promotions 1).runs ({ queue := { free := 1 } }, []) queuedLate
  have hr : (promotions 1).Reachable (fun _ _ => True) s := queuedLate_reachable
  obtain ⟨hs, q, hok⟩ := History.sorted hr.unnoted
  have he : s.1.queue.enabled (.releaseSlot 0) := by
    show (s.1.queue.ops 0).slot = true
    decide
  have hpromoted : s.1.queue.waiters .promoted = [1, 2] := by decide
  have hhands : s.1.HandsTo (.releaseSlot 0) 1 := by
    obtain ⟨line, i, rest, hfirst, hbefore, hhands⟩ | ⟨hnil, _⟩ :=
      History.frees_hands hok he trivial
    · cases line with
      | reacquiring =>
        have hnone : s.1.queue.waiters .reacquiring = [] := by decide
        rw [hnone] at hfirst
        simp at hfirst
      | promoted =>
        rw [hpromoted] at hfirst
        obtain ⟨rfl, _⟩ := List.cons.inj hfirst
        exact hhands
      | waiting =>
        have hnil := hbefore .promoted (by decide)
        rw [hpromoted] at hnil
        simp at hnil
    · rw [hnil] at hpromoted
      simp at hpromoted
  have hmem := hs.mem_waiters hok .promoted
  obtain ⟨t, u, ht, hu, hsub⟩ := hall 1 s hr _ he 1 hhands
    ((hmem 1).mp (by rw [hpromoted]; simp)) 2 ((hmem 2).mp (by rw [hpromoted]; simp)) (by decide)
  have hkind : (s.1.queue.ops 1).kind = .first (some 0) := by decide
  have hkind' : (s.1.queue.ops 2).kind = .first (some 1) := by decide
  obtain rfl : 0 = t := by simpa using hkind.symm.trans ht
  obtain rfl : 1 = u := by simpa using hkind'.symm.trans hu
  have hnotes : s.2 = [1, 0] := by decide
  rw [hnotes] at hsub
  exact absurd hsub (by decide)

end MakeBelieve.Queue
