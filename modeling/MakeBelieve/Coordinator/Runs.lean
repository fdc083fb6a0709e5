import Mathlib.Data.Finset.Card
import Mathlib.Data.Finset.Range
import MakeBelieve.Coordinator.System

namespace MakeBelieve.Coordinator.System

open Library

variable {s : System} {t : State} {e : Event}

/-- Permits are accounted for: as many take-backs are unanswered as attempts have outstanding, and
each attempt's permit is taken and given back by turns. -/
structure Counted (s : System) : Prop where
  takeBacks : ∀ a, s.takeBacks.count a = (s.coord.attempts a).reacquireOutstanding.toNat
  leases : ∀ a, holds a false s.leases = some (decide ((s.coord.attempts a).permit = .held))

theorem Counted.absorb (h : Counted s) (ha : State.Accounted s.coord.start t) :
    Counted (s.absorb t) where
  takeBacks b := by
    have hold := h.takeBacks b
    have hnew : t.effects.reacquires.count b + (s.coord.attempts b).reacquireOutstanding.toNat =
        0 + (t.attempts b).reacquireOutstanding.toNat := ha.takeBacks b
    show (s.takeBacks ++ t.effects.reacquires).count b = (t.attempts b).reacquireOutstanding.toNat
    rw [List.count_append]
    omega
  leases b := by
    have hnew : t.calls.count (.release b) + (decide ((t.attempts b).permit = .held)).toNat =
        0 + (decide ((s.coord.attempts b).permit = .held)).toNat := ha.leases b
    rw [Nat.zero_add] at hnew
    show holds b false (s.leases ++ _) = some (decide ((t.attempts b).permit = .held))
    rw [holds_append, h.leases b]
    exact holds_released hnew

/-- Where permits and take-backs are as they were, so are their accounts. -/
theorem Counted.relinked (h : Counted s)
    (hc : ∀ b, (t.attempts b).permit = (s.coord.attempts b).permit ∧
      (t.attempts b).reacquireOutstanding = (s.coord.attempts b).reacquireOutstanding)
    (heffects : t.effects = {}) (hcalls : t.calls = []) : Counted (s.absorb t) :=
  h.absorb (State.accounted_of_control hc (by rw [heffects]; rfl) (fun b => by rw [hcalls]; rfl))

/-- The first permit: its attempt had none. -/
theorem Counted.permitted (h : Counted s) {a : AttemptId} (hp : State.Permitted s.coord t a)
    (hnone : (s.coord.attempts a).permit = .none) :
    Counted ({ s with leases := s.leases ++ [LeaseCall.taken a] }.absorb t) where
  takeBacks b := by
    show (s.takeBacks ++ t.effects.reacquires).count b = (t.attempts b).reacquireOutstanding.toNat
    rw [hp.effects]
    show (s.takeBacks ++ []).count b = _
    rw [List.append_nil, h.takeBacks]
    by_cases hba : b = a
    · subst hba; rw [hp.self]
    · rw [hp.others b hba]
  leases b := by
    show holds b false (s.leases ++ [LeaseCall.taken a] ++ t.calls.filterMap PermitCall.lease?) =
      some (decide ((t.attempts b).permit = .held))
    rw [hp.calls, List.filterMap_nil, List.append_nil, holds_append, h.leases]
    by_cases hba : b = a
    · subst hba
      rw [hp.self]
      simp [holds, hnone]
    · rw [hp.others b hba]
      simp [holds, Ne.symm hba]

/-- A take-back answered: it was its attempt's only one, and the attempt was without its permit. -/
theorem Counted.regained (h : Counted s) (hinv : s.coord.Inv) {a : AttemptId} (granted : Bool)
    (ha : a ∈ s.takeBacks) : (s.coord.attempts a).reacquireOutstanding = true ∧
      Counted { s with
        coord := s.coord.regained a granted
        takeBacks := s.takeBacks.erase a
        leases := s.leases ++ if granted then [LeaseCall.taken a] else [] } := by
  have hcount := h.takeBacks a
  have hpos : 0 < s.takeBacks.count a := List.count_pos_iff.mpr ha
  have hout : (s.coord.attempts a).reacquireOutstanding = true := by
    cases ho : (s.coord.attempts a).reacquireOutstanding with
    | true => rfl
    | false =>
      rw [ho] at hcount
      have hz : s.takeBacks.count a = 0 := hcount
      omega
  have hreac := (hinv.control a).outstanding.mpr hout
  refine ⟨hout, fun b => ?_, fun b => ?_⟩
  · show (s.takeBacks.erase a).count b = ((s.coord.regained a granted).attempts b).reacquireOutstanding.toNat
    rw [State.regained_toControl]
    by_cases hba : b = a
    · subst hba
      rw [if_pos rfl, List.count_erase_self, hcount, hout]
      rfl
    · rw [if_neg hba, List.count_erase_of_ne hba, h.takeBacks]
  · show holds b false (s.leases ++ _) =
      some (decide (((s.coord.regained a granted).attempts b).permit = .held))
    rw [State.regained_toControl, holds_append, h.leases]
    by_cases hba : b = a
    · subst hba
      rw [if_pos rfl, hreac]
      cases granted <;> simp [holds]
    · rw [if_neg hba]
      cases granted <;> simp [holds, Ne.symm hba]

/-- An attempt completed stays so. -/
def Recorded (s : System) : Prop :=
  ∀ p ∈ s.completions, p.1 < s.coord.attemptCount ∧ (s.coord.attempts p.1).result ≠ none

theorem Recorded.absorb (h : Recorded s) (hcount : s.coord.attemptCount ≤ t.attemptCount)
    (hres : ∀ b < s.coord.attemptCount, (s.coord.attempts b).result ≠ none →
      (t.attempts b).result ≠ none) : Recorded (s.absorb t) := fun p hp =>
  have hp := h p hp
  ⟨Nat.lt_of_lt_of_le hp.1 hcount, hres p.1 hp.1 hp.2⟩

/-- What holds of the coordinator in every state between two transitions. -/
structure Sound (s : System) : Prop extends Answered s, Counted s where
  recorded : Recorded s

theorem Sound.absorb (h : Sound s) {out : List (WaitId × ErrorCode)}
    (hs : State.Step (fun a e => (a, e) ∈ s.completions) s.coord.start t out)
    (ha : State.Accounted s.coord.start t) : Sound (s.absorb t) :=
  ⟨h.toAnswered.absorb hs, h.toCounted.absorb ha,
    h.recorded.absorb (Nat.le_of_eq hs.moved.kept.attemptCount.symm) fun b _ => hs.finished b⟩

/-- Before the first step there is nothing. -/
theorem State.inv_init : State.Inv {} where
  links := by
    refine ⟨List.nodup_nil, fun _ => List.nodup_nil, fun _ => List.nodup_nil, ?_, ?_, fun _ _ => rfl⟩
    · simp
    · simp
  owned := by simp
  unfinished := by simp
  control a := ⟨by simp, fun _ => ⟨rfl, rfl⟩, by simp, by simp⟩
  running := by simp
  inRange := ⟨by simp, by simp, by simp, fun _ _ => rfl, fun _ _ => rfl⟩

theorem sound_init : Sound {} where
  inv := State.inv_init
  nodup := List.nodup_nil
  gone := by simp
  result := by simp
  waiting w hw := by simp at hw
  asked := by simp
  sourced := ⟨by simp, by simp⟩
  takeBacks _ := rfl
  leases _ := rfl
  recorded := by simp [Recorded]

theorem Sound.createAttempt (h : Sound s) (output : Path) (predecessor : Option AttemptId)
    (he : ∀ p, predecessor = some p → p < s.coord.attemptCount) :
    Sound (s.step (.createAttempt output predecessor)) := by
  have hc := h.inv.createAttempt output he
  obtain ⟨o, p, hself, _⟩ := hc.self
  have hpending := h.inv.inRange.freshAttempt _ (Nat.le_refl _)
  have hun := (h.inv.control s.coord.attemptCount).unstarted (.inl hpending)
  have hout := (h.inv.control s.coord.attemptCount).outstanding
  rw [hun.1] at hout
  refine ⟨h.toAnswered.relinked hc.inv hc.links.waits hc.links.requests hc.waitCount
    (fun a e ha => ?_) hc.effects, h.toCounted.relinked (fun b => ?_) hc.effects hc.calls,
    h.recorded.absorb (by rw [hc.attemptCount]; omega) fun b hlt hb => ?_⟩
  · by_cases hb : a = s.coord.attemptCount
    · rw [hb, hself] at ha
      simp at ha
    · rw [hc.others a hb] at ha
      exact ha
  · by_cases hb : b = s.coord.attemptCount
    · rw [hb, hself, hun.1]
      refine ⟨rfl, ?_⟩
      simpa using hout
    · rw [hc.others b hb]
      exact ⟨rfl, rfl⟩
  · rw [hc.others b (Nat.ne_of_lt hlt)]
    exact hb

theorem Sound.onPermit (h : Sound s) {a : AttemptId} (he : (s.coord.attempts a).phase = .queued) :
    Sound (s.step (.onPermit a)) := by
  have hp := h.inv.onPermit he
  have hres : ∀ b, ((s.coord.onPermit a).attempts b).result = (s.coord.attempts b).result := by
    intro b
    by_cases hba : b = a
    · subst hba; rw [hp.self]
    · rw [hp.others b hba]
  refine ⟨(h.toAnswered.ledger s.takeBacks _).relinked hp.inv hp.links.waits hp.links.requests
    hp.kept.waitCount (fun b e hb => (hres b).symm.trans hb) hp.effects,
    h.toCounted.permitted hp ((h.inv.control a).unstarted (.inr he)).1,
    h.recorded.absorb (Nat.le_of_eq hp.kept.attemptCount.symm) fun b _ hb => ?_⟩
  rw [hres]
  exact hb

theorem Sound.onReacquired (h : Sound s) {a : AttemptId} (he : a ∈ s.takeBacks) (granted : Bool) :
    Sound (s.step (.onReacquired a granted)) := by
  obtain ⟨hout, hcounted⟩ := h.toCounted.regained h.inv granted he
  obtain ⟨⟨out, hstep⟩, hacc, _⟩ := h.inv.onReacquired hout granted
  exact ⟨(h.toAnswered.ledger _ _).absorb hstep, hcounted.absorb hacc,
    h.recorded.absorb (Nat.le_of_eq hstep.moved.kept.attemptCount.symm) fun b _ => hstep.finished b⟩

theorem Sound.wait (h : Sound s) (order later : AttemptId → List AttemptId) {target : AttemptId}
    (requester : Option Path) (stopRequested : Bool) (he : target < s.coord.attemptCount) :
    Sound (s.step (.wait order later target requester stopRequested)) := by
  have hstepDef : s.step (.wait order later target requester stopRequested) =
      { s with
        asked := Function.update s.asked s.coord.waitCount target
        answers := s.answers ++ (s.coord.wait order later target requester
          stopRequested).2.toList.map fun e => (s.coord.waitCount, e) }.absorb
        (s.coord.wait order later target requester stopRequested).1 := rfl
  rw [hstepDef]
  obtain ⟨e, heq, hrefused, hhalted⟩ | ⟨q, heq, hsusp, _⟩ :=
    h.inv.wait order later target requester stopRequested he
  · rw [heq]
    obtain ⟨out, hstep⟩ := hhalted.step (K := fun a e => (a, e) ∈ s.completions)
    have hcounted : Counted { s with
        coord := s.coord.allotted
        asked := Function.update s.asked s.coord.waitCount target
        answers := s.answers ++ [(s.coord.waitCount, e)] } := ⟨h.takeBacks, h.leases⟩
    exact ⟨(h.toAnswered.refused hrefused).absorb hstep, hcounted.absorb hhalted.accounted,
      h.recorded.absorb (Nat.le_of_eq hstep.moved.kept.attemptCount.symm) fun b _ => hstep.finished b⟩
  · rw [heq]
    have hcounted : Counted { s with
        coord := s.coord.allotted
        asked := Function.update s.asked s.coord.waitCount target
        answers := s.answers ++ [] } := ⟨h.takeBacks, h.leases⟩
    have hnil : s.answers ++ ((none : Option ErrorCode).toList.map fun e =>
        (s.coord.waitCount, e)) = s.answers := List.append_nil _
    refine ⟨?_, hcounted.absorb hsusp.accounted,
      h.recorded.absorb (Nat.le_of_eq hsusp.kept.attemptCount.symm) fun b _ hb => ?_⟩
    · rw [hnil]
      exact h.toAnswered.suspended hsusp
    · obtain ⟨m, p, hc, _⟩ := hsusp.control b
      rw [hc]
      exact hb

/-- Every event keeps the coordinator sound. -/
theorem Sound.step (h : Sound s) (he : s.enabled e) : Sound (s.step e) := by
  cases e with
  | createAttempt output predecessor => exact h.createAttempt output predecessor he
  | run a =>
    obtain ⟨hstep, hacc, _⟩ := h.inv.run (K := fun a e => (a, e) ∈ s.completions) he.2.1 he.1
    exact h.absorb hstep hacc
  | onPermit a => exact h.onPermit he
  | wait order later target requester stopRequested =>
    exact h.wait order later requester stopRequested he.1
  | cancelWait w =>
    obtain ⟨⟨out, hstep⟩, hacc, _⟩ := h.inv.cancelWait (K := fun a e => (a, e) ∈ s.completions) he
    exact h.absorb hstep hacc
  | complete a result =>
    have hk : (a, result) ∈ s.completions ++ [(a, result)] := by simp
    obtain ⟨⟨out, hstep⟩, hacc, _, hres⟩ := h.inv.complete
      (K := fun b e => (b, e) ∈ s.completions ++ [(a, result)]) hk
    have hcounted : Counted { s with completions := s.completions ++ [(a, result)] } :=
      ⟨h.takeBacks, h.leases⟩
    have hcount := hstep.moved.kept.attemptCount
    refine ⟨(h.toAnswered.completed (a, result)).absorb hstep, hcounted.absorb hacc, fun p hp => ?_⟩
    obtain hp | hp := List.mem_append.mp hp
    · have hold := h.recorded p hp
      exact ⟨hcount ▸ hold.1, hstep.finished p.1 hold.2⟩
    · rw [List.mem_singleton.mp hp]
      refine ⟨hcount ▸ he, ?_⟩
      show ((s.coord.complete a result).attempts a).result ≠ none
      rw [hres]
      simp
  | onReacquired a granted => exact h.onReacquired he granted
  | onOuterStop a =>
    have hh := h.inv.onOuterStop a
    obtain ⟨out, hstep⟩ := hh.step (K := fun a e => (a, e) ∈ s.completions)
    exact h.absorb hstep hh.accounted
  | finish a =>
    have hf := h.inv.finish he
    exact h.absorb hf.step hf.accounted

/-- Every state any run leads to is sound. -/
theorem sound {ok : System → Event → Prop} (h : machine.Reachable ok s) : Sound s :=
  h.invariant (fun s hs => by
    have hs' : s = {} := hs
    exact hs' ▸ sound_init) (fun _ _ hs he _ => hs.step he)

/-- A wait begun and not answered yet. -/
def Unanswered (s : System) (w : WaitId) : Prop :=
  w < s.coord.waitCount ∧ w ∉ s.answers.map Prod.fst

/-- An unanswered wait whose target is unfinished. -/
def BlockedWait (s : System) (w : WaitId) : Prop :=
  s.Unanswered w ∧ (s.coord.requests w).state = .blocked

instance (s : System) (w : WaitId) : Decidable (s.Unanswered w) :=
  inferInstanceAs (Decidable (_ ∧ _))

instance (s : System) (w : WaitId) : Decidable (s.BlockedWait w) :=
  inferInstanceAs (Decidable (_ ∧ _))

/-- The blocked waits that the attempt `a` makes on `b`. -/
def blockedWaits (s : System) (a b : AttemptId) : Finset WaitId :=
  (Finset.range s.coord.waitCount).filter fun w =>
    s.BlockedWait w ∧ (s.coord.requests w).requester = some a ∧ (s.coord.requests w).target = b

theorem mem_blockedWaits {a b : AttemptId} {w : WaitId} : w ∈ s.blockedWaits a b ↔
    s.BlockedWait w ∧ (s.coord.requests w).requester = some a ∧
      (s.coord.requests w).target = b := by
  rw [blockedWaits, Finset.mem_filter, Finset.mem_range]
  exact ⟨And.right, fun hw => ⟨hw.1.1.1, hw⟩⟩

theorem Answered.mem_waits (h : Answered s) (w : WaitId) : w ∈ s.coord.waits ↔ s.Unanswered w := by
  constructor
  · intro hw
    refine ⟨h.inv.inRange.wait w hw, fun hanswered => ?_⟩
    obtain ⟨p, hp, rfl⟩ := List.mem_map.mp hanswered
    exact (h.gone p hp).2 hw
  · rintro ⟨hlt, hnot⟩
    exact h.waiting w hlt hnot

/-- An edge counts the waits there are along it, each once. -/
theorem Answered.count_between (h : Answered s) (a b : AttemptId) :
    s.coord.waits.countP (s.coord.between a b) = (s.blockedWaits a b).card := by
  have hfilter : (s.coord.waits.filter (s.coord.between a b)).toFinset = s.blockedWaits a b := by
    ext w
    rw [List.mem_toFinset, List.mem_filter, h.mem_waits, State.between_iff, mem_blockedWaits,
      BlockedWait, and_assoc]
  rw [← hfilter, List.toFinset_card_of_nodup (h.inv.links.waits.filter _),
    List.countP_eq_length_filter]

/-- Whatever has happened, the four structures hold exactly the waits that are to be in them. -/
theorem waits_entered {ok : System → Event → Prop} (h : machine.Reachable ok s)
    (a b : AttemptId) :
    (s.coord.attempts a).edgesOut b =
        (if (s.blockedWaits a b).card = 0 then none else some (s.blockedWaits a b).card) ∧
      ((s.coord.attempts b).waitsOnMe.Nodup ∧ ∀ w, w ∈ (s.coord.attempts b).waitsOnMe ↔
        s.BlockedWait w ∧ (s.coord.requests w).target = b) ∧
      ((s.coord.attempts a).waitsByMe.Nodup ∧ ∀ w, w ∈ (s.coord.attempts a).waitsByMe ↔
        s.Unanswered w ∧ (s.coord.requests w).requester = some a) ∧
      s.coord.waits.Nodup ∧ ∀ w, w ∈ s.coord.waits ↔ s.Unanswered w := by
  have hs := sound h
  have hlinks := hs.inv.links
  refine ⟨?_, ⟨hlinks.onMeNodup b, fun w => ?_⟩, ⟨hlinks.byMeNodup a, fun w => ?_⟩, hlinks.waits,
    hs.toAnswered.mem_waits⟩
  · rw [hlinks.edges, hs.toAnswered.count_between]
    cases (s.blockedWaits a b).card <;> simp [entry]
  · rw [hlinks.onMe, hs.toAnswered.mem_waits]
    exact and_assoc.symm
  · rw [hlinks.byMe, hs.toAnswered.mem_waits]

/-- Two attempts, the first of which waits on the second until that is completed. -/
def firstWaits : List Event :=
  [.createAttempt [['a']] none, .createAttempt [['b']] none, .run 0, .onPermit 0,
    .wait (fun _ => []) (fun a => if a = 0 then [1] else []) 1 (some [['a']]) false,
    .complete 1 .success]

theorem firstWaits_reachable : machine.Reachable StoppedFirst (machine.runs {} firstWaits) := by
  let s := machine.runs {} (firstWaits.take 4)
  have hbefore : machine.Reachable StoppedFirst s :=
    Machine.Reachable.runs (.start rfl)
      ⟨nofun, trivial, nofun, trivial, ⟨by decide, rfl, rfl⟩, trivial, rfl, trivial, trivial⟩
  have hnone : ∀ a b, (s.coord.attempts a).edgesOut b = none := by
    intro a b
    rw [(sound hbefore).inv.links.edges]
    rfl
  have hwait : s.enabled (.wait (fun _ => []) (fun a => if a = 0 then [1] else []) 1
      (some [['a']]) false) := by
    refine ⟨by decide, fun a b => ?_, fun a b => ?_⟩
    · rw [hnone]
      simp
    · have hreq : (some [['a']]).bind s.coord.running = some 0 := by decide
      rw [hreq, State.enter_attempts]
      by_cases ha : a = 0
      · subst ha
        by_cases hb : b = 1
        · subst hb; simp [increment]
        · simp [hb, hnone]
      · have hne : ¬0 = a := fun h => ha h.symm
        simp [ha, hne, hnone]
  have hlt : 1 < (s.step (.wait (fun _ => []) (fun a => if a = 0 then [1] else []) 1
      (some [['a']]) false)).coord.attemptCount := by decide
  have hafter : machine.Reachable StoppedFirst (machine.runs s (firstWaits.drop 4)) :=
    hbefore.runs ⟨hwait, trivial, hlt, trivial, trivial⟩
  exact hafter

theorem waits_entered_firstWaits :
    ((machine.runs {} firstWaits).blockedWaits 0 1).card = 0 ∧
      ((machine.runs {} firstWaits).coord.attempts 0).edgesOut 1 = none := by
  have hcard : ((machine.runs {} firstWaits).blockedWaits 0 1).card = 0 := by decide
  obtain ⟨hedges, _⟩ := waits_entered firstWaits_reachable 0 1
  exact ⟨hcard, by rw [hedges, if_pos hcard]⟩

end MakeBelieve.Coordinator.System
