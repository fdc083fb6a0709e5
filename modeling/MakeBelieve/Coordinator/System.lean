import MakeBelieve.Coordinator.Waits
import MakeBelieve.Library.Machine

namespace MakeBelieve.Coordinator

open Library

/-- A permit taken for an attempt, or given back for it through its lease. -/
inductive LeaseCall
  | taken (a : AttemptId)
  | released (a : AttemptId)
  deriving DecidableEq, Repr

/-- The coordinator and what has come of its transitions so far: the target each request named,
what it was answered, what attempts were completed with, the take-backs yet to be answered and
every permit taken or given back. -/
structure System where
  coord : State := {}
  asked : WaitId → AttemptId := fun _ => 0
  answers : List (WaitId × ErrorCode) := []
  completions : List (AttemptId × ErrorCode) := []
  takeBacks : List AttemptId := []
  leases : List LeaseCall := []

inductive Event
  | createAttempt (output : Path) (predecessor : Option AttemptId)
  | run (a : AttemptId)
  | onPermit (a : AttemptId)
  | wait (order later : AttemptId → List AttemptId) (target : AttemptId)
      (requester : Option Path) (stopRequested : Bool)
  | cancelWait (w : WaitId)
  | complete (a : AttemptId) (result : ErrorCode)
  | onReacquired (a : AttemptId) (granted : Bool)
  | onOuterStop (a : AttemptId)
  | finish (a : AttemptId)

def PermitCall.lease? : PermitCall → Option LeaseCall
  | .release a => some (.released a)
  | .promote _ => none

/-- Whether an attempt holds its permit after these calls, if it takes it only while without it and
gives it back only while holding it. -/
def holds (a : AttemptId) : Bool → List LeaseCall → Option Bool
  | held, [] => some held
  | held, .taken b :: calls =>
    if b = a then if held then none else holds a true calls else holds a held calls
  | held, .released b :: calls =>
    if b = a then if held then holds a false calls else none else holds a held calls

theorem holds_append (a : AttemptId) (held : Bool) (calls calls' : List LeaseCall) :
    holds a held (calls ++ calls') = (holds a held calls).bind fun held => holds a held calls' := by
  induction calls generalizing held with
  | nil => rfl
  | cons c calls ih =>
    cases c with
    | taken b =>
      simp only [List.cons_append, holds]
      split
      · split
        · rfl
        · exact ih true
      · exact ih held
    | released b =>
      simp only [List.cons_append, holds]
      split
      · split
        · exact ih false
        · rfl
      · exact ih held

/-- A transition that gives a permit back as often as it leaves its attempt's hands gives it back
only from there. -/
theorem holds_released {a : AttemptId} {held held' : Bool} {calls : List PermitCall}
    (h : calls.count (.release a) + held'.toNat = held.toNat) :
    holds a held (calls.filterMap PermitCall.lease?) = some held' := by
  induction calls generalizing held with
  | nil =>
    have : held = held' := by
      cases held <;> cases held' <;> simp_all
    rw [this]
    rfl
  | cons c calls ih =>
    cases c with
    | promote b =>
      rw [List.filterMap_cons_none rfl]
      apply ih
      rwa [List.count_cons_of_ne (by simp)] at h
    | release b =>
      rw [List.filterMap_cons_some (f := PermitCall.lease?) rfl, holds]
      by_cases hb : b = a
      · subst hb
        rw [List.count_cons_self] at h
        rw [if_pos rfl]
        cases held with
        | false =>
          have hz : calls.count (.release b) + 1 + held'.toNat = 0 := h
          omega
        | true =>
          apply ih
          have h1 : calls.count (.release b) + 1 + held'.toNat = 1 := h
          have h0 : Bool.toNat false = 0 := rfl
          omega
      · rw [if_neg hb]
        apply ih
        rwa [List.count_cons_of_ne (by simpa using hb)] at h

namespace System

/-- Takes in the state a transition leads to and, in no order of their own, what it gathered. -/
def absorb (s : System) (t : State) : System :=
  { s with
    coord := t
    answers := s.answers ++ t.effects.answered.map fun w => (w, (t.requests w).result)
    takeBacks := s.takeBacks ++ t.effects.reacquires
    leases := s.leases ++ t.calls.filterMap PermitCall.lease? }

def step (s : System) : Event → System
  | .createAttempt output predecessor => s.absorb (s.coord.createAttempt output predecessor)
  | .run a => s.absorb (s.coord.run a)
  | .onPermit a => { s with leases := s.leases ++ [LeaseCall.taken a] }.absorb (s.coord.onPermit a)
  | .wait order later target requester stopRequested =>
    let (t, answer) := s.coord.wait order later target requester stopRequested
    { s with
      asked := Function.update s.asked s.coord.waitCount target
      answers := s.answers ++ answer.toList.map fun e => (s.coord.waitCount, e) }.absorb t
  | .cancelWait w => s.absorb (s.coord.cancelWait w)
  | .complete a result =>
    { s with completions := s.completions ++ [(a, result)] }.absorb (s.coord.complete a result)
  | .onReacquired a granted =>
    { s with
      takeBacks := s.takeBacks.erase a
      leases := s.leases ++ if granted then [LeaseCall.taken a] else [] }.absorb
      (s.coord.onReacquired a granted)
  | .onOuterStop a => s.absorb (s.coord.onOuterStop a)
  | .finish a => s.absorb (s.coord.finish a)

/-- What the coordinator's callers keep to: they name attempts and waits there are, run an attempt
once and not after completing it, and end it once while it runs; a take-back is answered once. -/
def enabled (s : System) : Event → Prop
  | .createAttempt _ predecessor => ∀ p, predecessor = some p → p < s.coord.attemptCount
  | .run a => a < s.coord.attemptCount ∧ (s.coord.attempts a).phase = .pending ∧
      (s.coord.attempts a).result = none
  | .onPermit a => (s.coord.attempts a).phase = .queued
  | .wait order later target requester _ => target < s.coord.attemptCount ∧
      s.coord.Enumerates order ∧
      (s.coord.enter s.coord.waitCount target (requester.bind s.coord.running)).Enumerates later
  | .cancelWait w => w ∈ s.coord.waits ∨ (s.coord.requests w).state = .done
  | .complete a _ => a < s.coord.attemptCount
  | .onReacquired a _ => a ∈ s.takeBacks
  | .onOuterStop a => a < s.coord.attemptCount
  | .finish a => (s.coord.attempts a).phase = .running

/-- What a permit provider promises: it turns a take-back down only for an attempt that was
stopped. -/
def StoppedFirst (s : System) : Event → Prop
  | .onReacquired a false => (s.coord.attempts a).stopping = true
  | _ => True

/-- The coordinator under any number of attempts and any interleaving of their steps. -/
def machine : Machine System Event where
  init s := s = {}
  enabled := enabled
  step := step

/-- Every answer is accounted for: given once, for a reason, and to a request in no list any
longer; and every request without one is in line. -/
structure Answered (s : System) : Prop where
  inv : s.coord.Inv
  nodup : (s.answers.map Prod.fst).Nodup
  gone : ∀ p ∈ s.answers, p.1 < s.coord.waitCount ∧ p.1 ∉ s.coord.waits
  result : ∀ p ∈ s.answers, p.2 = canceled ∨ p.2 = dependencyCycle ∨
    (s.asked p.1, p.2) ∈ s.completions
  waiting : ∀ w < s.coord.waitCount, w ∉ s.answers.map Prod.fst → w ∈ s.coord.waits
  asked : ∀ w ∈ s.coord.waits, (s.coord.requests w).target = s.asked w
  sourced : s.coord.Sourced fun a e => (a, e) ∈ s.completions

variable {s : System} {t : State} {out : List (WaitId × ErrorCode)}

/-- The answers a transition gathers are those it gave, with their results. -/
theorem answered_eq (hm : State.Moved s.coord.start t out) :
    t.effects.answered.map (fun w => (w, (t.requests w).result)) = out := by
  rw [hm.answered]
  show (out.map Prod.fst).map _ = out
  rw [List.map_map]
  conv_rhs => rw [← List.map_id out]
  apply List.map_congr_left
  intro p hp
  exact Prod.ext rfl (hm.done p hp).2

theorem Answered.absorb (h : Answered s)
    (hs : State.Step (fun a e => (a, e) ∈ s.completions) s.coord.start t out) :
    Answered (s.absorb t) := by
  have hm := hs.moved
  have heq : (s.absorb t).answers = s.answers ++ out := by
    show s.answers ++ _ = _
    rw [answered_eq hm]
  have hsrc : s.coord.start.Sourced fun a e => (a, e) ∈ s.completions :=
    ⟨h.sourced.result, h.sourced.ready⟩
  have hcount : t.waitCount = s.coord.waitCount := hm.kept.waitCount
  refine ⟨hs.inv, ?_, fun p hp => ?_, fun p hp => ?_, fun w hw hnot => ?_, fun w hw => ?_,
    hs.sourced hsrc⟩
  · rw [heq, List.map_append]
    refine List.nodup_append.mpr ⟨h.nodup, hm.nodup, fun a ha b hb hab => ?_⟩
    obtain ⟨p, hp, rfl⟩ := List.mem_map.mp ha
    exact (h.gone p hp).2 (hab ▸ hm.found b hb)
  · rw [heq] at hp
    show p.1 < t.waitCount ∧ p.1 ∉ t.waits
    rw [hcount, hm.waits]
    obtain hp | hp := List.mem_append.mp hp
    · obtain ⟨hlt, hnot⟩ := h.gone p hp
      exact ⟨hlt, fun hmem => hnot hmem.1⟩
    · have hmem := List.mem_map_of_mem (f := Prod.fst) hp
      exact ⟨h.inv.inRange.wait _ (hm.found _ hmem), fun hw => hw.2 hmem⟩
  · rw [heq] at hp
    obtain hp | hp := List.mem_append.mp hp
    · exact h.result p hp
    · have hw := hm.found _ (List.mem_map_of_mem (f := Prod.fst) hp)
      obtain hcan | hk := hs.answers hsrc p hp
      · exact .inl hcan
      · refine .inr (.inr ?_)
        show (s.asked p.1, p.2) ∈ s.completions
        rw [← h.asked p.1 hw]
        exact hk
  · rw [heq, List.map_append, List.mem_append, not_or] at hnot
    have hw' : w < s.coord.waitCount := by
      rw [← hcount]; exact hw
    exact (hm.waits w).mpr ⟨h.waiting w hw' hnot.1, hnot.2⟩
  · show (t.requests w).target = s.asked w
    rw [hm.target]
    exact h.asked w ((hm.waits w).mp hw).1

/-- More completions make no answer wrong. -/
theorem Answered.completed (h : Answered s) (p : AttemptId × ErrorCode) :
    Answered { s with completions := s.completions ++ [p] } where
  inv := h.inv
  nodup := h.nodup
  gone := h.gone
  result q hq := (h.result q hq).imp_right (Or.imp_right (List.mem_append_left _))
  waiting := h.waiting
  asked := h.asked
  sourced := ⟨fun a e ha => List.mem_append_left _ (h.sourced.result a e ha),
    fun w hw hr => List.mem_append_left _ (h.sourced.ready w hw hr)⟩

/-- Who holds a permit is nothing to the answers. -/
theorem Answered.ledger (h : Answered s) (takeBacks : List AttemptId) (leases : List LeaseCall) :
    Answered { s with takeBacks := takeBacks, leases := leases } :=
  ⟨h.inv, h.nodup, h.gone, h.result, h.waiting, h.asked, h.sourced⟩

/-- The fields of attempts and the effects may change in any way that keeps the invariant and sets
no result. -/
theorem Answered.relinked (h : Answered s) (hinv : t.Inv) (hwaits : t.waits = s.coord.waits)
    (hrequests : t.requests = s.coord.requests) (hcount : t.waitCount = s.coord.waitCount)
    (hresult : ∀ a e, (t.attempts a).result = some e → (s.coord.attempts a).result = some e)
    (heffects : t.effects = {}) : Answered (s.absorb t) := by
  have heq : (s.absorb t).answers = s.answers := by
    show s.answers ++ List.map _ t.effects.answered = _
    rw [heffects]
    exact List.append_nil _
  refine ⟨hinv, ?_, fun p hp => ?_, fun p hp => ?_, fun w hw hnot => ?_, fun w hw => ?_, ?_, ?_⟩
  · rw [heq]; exact h.nodup
  · rw [heq] at hp
    show p.1 < t.waitCount ∧ p.1 ∉ t.waits
    rw [hcount, hwaits]; exact h.gone p hp
  · rw [heq] at hp; exact h.result p hp
  · rw [heq] at hnot
    show w ∈ t.waits
    have hw' : w < s.coord.waitCount := by
      rw [← hcount]; exact hw
    rw [hwaits]; exact h.waiting w hw' hnot
  · have hw' : w ∈ s.coord.waits := by
      rw [← hwaits]; exact hw
    show (t.requests w).target = s.asked w
    rw [hrequests]; exact h.asked w hw'
  · intro a e ha
    exact h.sourced.result a e (hresult a e ha)
  · intro w hw hr
    have hw' : w ∈ s.coord.waits := by
      rw [← hwaits]; exact hw
    have hr' : (s.coord.requests w).state = .ready := by
      rw [← hrequests]; exact hr
    show ((t.requests w).target, (t.requests w).result) ∈ s.completions
    rw [hrequests]; exact h.sourced.ready w hw' hr'

/-- A request answered at once is given its number and its answer together. -/
theorem Answered.refused (h : Answered s) {target : AttemptId} {e : ErrorCode}
    (he : State.Refused target s.coord e) : Answered { s with
      coord := s.coord.allotted
      asked := Function.update s.asked s.coord.waitCount target
      answers := s.answers ++ [(s.coord.waitCount, e)] } := by
  let w := s.coord.waitCount
  have hne : ∀ p ∈ s.answers, p.1 ≠ w := fun p hp => Nat.ne_of_lt (h.gone p hp).1
  have hfresh : w ∉ s.coord.waits := fun hmem => Nat.lt_irrefl _ (h.inv.inRange.wait w hmem)
  refine ⟨h.inv.allotted, ?_, fun p hp => ?_, fun p hp => ?_, fun v hv hnot => ?_, fun v hv => ?_,
    ⟨h.sourced.result, h.sourced.ready⟩⟩
  · rw [List.map_append]
    refine List.nodup_append.mpr ⟨h.nodup, List.nodup_singleton _, fun a ha b hb hab => ?_⟩
    obtain ⟨p, hp, rfl⟩ := List.mem_map.mp ha
    have hbw : b = w := List.mem_singleton.mp hb
    exact hne p hp (hab.trans hbw)
  · obtain hp | hp := List.mem_append.mp hp
    · obtain ⟨hlt, hnot⟩ := h.gone p hp
      exact ⟨Nat.lt_succ_of_lt hlt, hnot⟩
    · rw [List.mem_singleton.mp hp]
      exact ⟨Nat.lt_succ_self _, hfresh⟩
  · obtain hp | hp := List.mem_append.mp hp
    · show _ ∨ _ ∨ (Function.update s.asked w target p.1, p.2) ∈ _
      rw [Function.update_of_ne (hne p hp)]
      exact h.result p hp
    · rw [List.mem_singleton.mp hp]
      cases he with
      | canceled => exact .inl rfl
      | finished hres =>
        refine .inr (.inr ?_)
        show (Function.update s.asked w target w, e) ∈ _
        rw [Function.update_self]
        exact h.sourced.result target e hres
      | cycle => exact .inr (.inl rfl)
  · rw [List.map_append, List.mem_append, not_or] at hnot
    have hvw : v ≠ w := by simpa using hnot.2
    have hlt : v < s.coord.waitCount + 1 := hv
    exact h.waiting v (by omega) hnot.1
  · have hvw : v ≠ w := fun hvw => hfresh (hvw ▸ hv)
    show _ = Function.update s.asked w target v
    rw [Function.update_of_ne hvw]
    exact h.asked v hv

/-- A request that suspends is in line from then on. -/
theorem Answered.suspended (h : Answered s) {target : AttemptId} {q : Option AttemptId}
    (hs : State.Suspended s.coord.allotted t s.coord.waitCount target q) :
    Answered ({ s with asked := Function.update s.asked s.coord.waitCount target }.absorb t) := by
  let w := s.coord.waitCount
  have hwaits : t.waits = s.coord.waits ++ [w] := hs.waits
  have hcount : t.waitCount = w + 1 := hs.kept.waitCount
  have hne : ∀ p ∈ s.answers, p.1 ≠ w := fun p hp => Nat.ne_of_lt (h.gone p hp).1
  have hfresh : ∀ v ∈ s.coord.waits, v ≠ w := fun v hv =>
    Nat.ne_of_lt (h.inv.inRange.wait v hv)
  have hblocked := h.inv.inRange.freshWait w (Nat.le_refl _)
  have hself : t.requests w = { s.coord.requests w with target := target, requester := q } := by
    rw [hs.requests, if_pos rfl]; rfl
  have hother : ∀ v, v ≠ w → t.requests v = s.coord.requests v := fun v hv => by
    rw [hs.requests, if_neg hv]; rfl
  have heq : ∀ asked, ({ s with asked := asked }.absorb t).answers = s.answers := by
    intro asked
    show s.answers ++ List.map _ t.effects.answered = _
    rw [hs.effects]
    exact List.append_nil _
  refine ⟨hs.inv, ?_, fun p hp => ?_, fun p hp => ?_, fun v hv hnot => ?_, fun v hv => ?_, ?_, ?_⟩
  · rw [heq]; exact h.nodup
  · rw [heq] at hp
    obtain ⟨hlt, hnot⟩ := h.gone p hp
    show p.1 < t.waitCount ∧ p.1 ∉ t.waits
    rw [hcount, hwaits]
    refine ⟨Nat.lt_succ_of_lt hlt, ?_⟩
    simpa using ⟨hnot, hne p hp⟩
  · rw [heq] at hp
    show _ ∨ _ ∨ (Function.update s.asked w target p.1, p.2) ∈ _
    rw [Function.update_of_ne (hne p hp)]
    exact h.result p hp
  · rw [heq] at hnot
    have hlt : v < w + 1 := by
      rw [← hcount]; exact hv
    show v ∈ t.waits
    rw [hwaits, List.mem_append, List.mem_singleton]
    by_cases hvw : v = w
    · exact .inr hvw
    · exact .inl (h.waiting v (by omega) hnot)
  · have hv' : v ∈ s.coord.waits ++ [w] := by
      rw [← hwaits]; exact hv
    show (t.requests v).target = Function.update s.asked w target v
    obtain hv' | hv' := List.mem_append.mp hv'
    · rw [hother v (hfresh v hv'), Function.update_of_ne (hfresh v hv')]
      exact h.asked v hv'
    · rw [List.mem_singleton.mp hv', hself, Function.update_self]
  · intro a e ha
    obtain ⟨m, p, hc, _⟩ := hs.control a
    have ha' : (t.attempts a).result = some e := ha
    rw [hc] at ha'
    exact h.sourced.result a e ha'
  · intro v hv hr
    have hv' : v ∈ s.coord.waits ++ [w] := by
      rw [← hwaits]; exact hv
    have hr' : (t.requests v).state = .ready := hr
    show ((t.requests v).target, (t.requests v).result) ∈ s.completions
    obtain hv' | hv' := List.mem_append.mp hv'
    · rw [hother v (hfresh v hv')] at hr' ⊢
      exact h.sourced.ready v hv' hr'
    · rw [List.mem_singleton.mp hv', hself] at hr'
      rw [hblocked] at hr'
      simp at hr'

end System

end MakeBelieve.Coordinator
