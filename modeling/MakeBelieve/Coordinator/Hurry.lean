import Mathlib.Algebra.Order.BigOperators.Group.List
import Mathlib.Algebra.Order.Group.Nat
import MakeBelieve.Coordinator.Deadlock
import MakeBelieve.Coordinator.Marks

namespace MakeBelieve.Coordinator

open Library Relation

namespace State

/-- Everyone waiting for a reader, in the end, is hurried: the targets of requests from outside
every build, and whatever a hurried attempt waits for. -/
structure Urgent (s : State) : Prop where
  readers : ∀ w ∈ s.waits, (s.requests w).state = .blocked → (s.requests w).requester = none →
    (s.attempts (s.requests w).target).hurried = true
  closed : ∀ a b, (s.attempts a).hurried = true → s.WaitsFor a b → (s.attempts b).hurried = true

/-- What `hurry` makes of the marks: none is taken away, its attempt is marked and so is all that
follows what it marks, each of which it promotes. -/
structure Hastened (s t : State) (a : AttemptId) : Prop where
  self : (t.attempts a).hurried = true
  kept : ∀ b, (s.attempts b).hurried = true → (t.attempts b).hurried = true
  closed : ∀ b, (t.attempts b).hurried = true → (s.attempts b).hurried = true ∨
    ∀ c, s.WaitsFor b c → (t.attempts c).hurried = true
  promoted : ∀ b, (t.attempts b).hurried = true → (s.attempts b).hurried = true ∨
    .promote b ∈ t.calls

variable {s t : State} {K : AttemptId → ErrorCode → Prop} {out : List (WaitId × ErrorCode)}
  {a : AttemptId}

theorem markHurried_hurried (s : State) (a b : AttemptId) :
    ((s.markHurried a).attempts b).hurried = true ↔ b = a ∨ (s.attempts b).hurried = true := by
  show ((s.setAttempt a fun x => { x with hurried := true }).attempts b).hurried = true ↔ _
  rw [setAttempt_attempts]
  split
  · next hb => simp [hb]
  · next hb => simp [hb]

theorem markHurried_nexts (order : AttemptId → List AttemptId) (s : State) (a b : AttemptId) :
    (s.markHurried a).nexts order b = s.nexts order b := by
  have hsame : ((s.markHurried a).attempts b).phase = (s.attempts b).phase ∧
      ((s.markHurried a).attempts b).predecessor = (s.attempts b).predecessor := by
    obtain ⟨_, hc⟩ := s.markHurried_toControl a b
    rw [hc]
    exact ⟨rfl, rfl⟩
  unfold nexts
  rw [hsame.1, hsame.2]

theorem hurry_hastened {order : AttemptId → List AttemptId} (ho : s.Enumerates order)
    (hlt : ∀ a b, s.WaitsFor a b → b < s.attemptCount) (ha : a < s.attemptCount) :
    Hastened s (s.hurry order a) a := by
  have hmem : ∀ b c, c ∈ (s.nexts order b).reverse ↔ s.WaitsFor b c := fun b c => by
    rw [List.mem_reverse, ho.mem_nexts]
  have hfuel : Worklist.left (fun s node => (State.attempts s node).hurried)
      (fun s node => (State.nexts s order node).reverse) (List.range s.attemptCount) s [a] ≤
      s.hurryFuel order := by
    have hsum : ((List.range s.attemptCount).map fun b => if (s.attempts b).hurried then 0
        else (s.nexts order b).reverse.length).sum ≤
        ((List.range s.attemptCount).map fun b => (s.nexts order b).length).sum := by
      refine List.sum_le_sum fun b _ => ?_
      by_cases hb : (s.attempts b).hurried = true
      · simp [hb]
      · simp [hb]
    unfold Worklist.left hurryFuel
    simpa using hsum
  have hstack : ∀ b ∈ [a], (s.attempts b).hurried = true ∨ b ∈ List.range s.attemptCount := by
    intro b hb
    rw [List.mem_singleton.mp hb]
    exact .inr (List.mem_range.mpr ha)
  obtain ⟨hall, hkept, hclosed⟩ := Worklist.loop_closed
    (fun s node => (State.attempts s node).hurried) markHurried
    (fun s node => (State.nexts s order node).reverse) List.nodup_range
    (fun s a b => s.markHurried_hurried a b)
    (fun s a b => by rw [s.markHurried_nexts order a b]) hstack
    (fun b _ c hc => .inr (List.mem_range.mpr (hlt b c ((hmem b c).mp hc)))) hfuel
  refine ⟨hall a (by simp), hkept, fun b hb => ?_, ?_⟩
  · exact (hclosed b hb).imp_right fun hnext c hc => hnext c ((hmem b c).mpr hc)
  · refine Worklist.loop_keeps (P := fun t : State => ∀ b, (t.attempts b).hurried = true →
      (s.attempts b).hurried = true ∨ .promote b ∈ t.calls) ?_ fun b hb => .inl hb
    intro t node _ h b hb
    have hcalls : (t.markHurried node).calls = t.calls ++ [.promote node] := rfl
    rw [hcalls, List.mem_append]
    obtain rfl | hb := (t.markHurried_hurried node b).mp hb
    · exact .inr (.inr (List.mem_singleton_self _))
    · exact (h b hb).imp_right .inl

theorem Urgent.kept (h : Urgent s) (hs : Links s) (hstep : Step K s t out)
    (hmarks : ∀ b, (t.attempts b).hurried = (s.attempts b).hurried) : Urgent t where
  readers w hw hb hr := by
    rw [hstep.moved.requester] at hr
    rw [hstep.moved.target, hmarks]
    exact h.readers w ((hstep.moved.waits w).mp hw).1 (hstep.moved.blocked w hb) hr
  closed a b ha hab := by
    rw [hmarks] at ha ⊢
    exact h.closed a b ha (hstep.waitsFor hs a b hab)

/-- Nobody hurries an attempt only now made, nor waits for it. -/
theorem Urgent.created (h : Urgent s) (hs : Inv s) (hc : Created s t) : Urgent t where
  readers w hw hb hr := by
    rw [hc.links.waits] at hw
    rw [hc.links.requests] at hb hr ⊢
    rw [hc.others _ (Nat.ne_of_lt (hs.inRange.target w hw))]
    exact h.readers w hw hb hr
  closed a b ha hab := by
    obtain ⟨output, p, hself, _⟩ := hc.self
    have hne : a ≠ s.attemptCount := by
      rintro rfl
      rw [hself] at ha
      simp at ha
    rw [hc.others a hne] at ha
    have hold : s.WaitsFor a b := by
      obtain hedge | ⟨hp, hpred⟩ := hab
      · rw [hc.links.edges] at hedge
        exact .inl hedge
      · rw [hc.others a hne] at hp hpred
        exact .inr ⟨hp, hpred⟩
    rw [hc.others b (Nat.ne_of_lt (hs.waitsFor_lt hold))]
    exact h.closed a b ha hold

theorem Urgent.permitted (h : Urgent s) (hp : Permitted s t a)
    (hmarks : ∀ b, (t.attempts b).hurried = (s.attempts b).hurried) : Urgent t where
  readers w hw hb hr := by
    rw [hp.links.waits] at hw
    rw [hp.links.requests] at hb hr ⊢
    rw [hmarks]
    exact h.readers w hw hb hr
  closed b c hb hbc := by
    rw [hmarks] at hb ⊢
    exact h.closed b c hb (hp.waitsFor b c hbc)

/-- Giving the permit back takes no mark away and no promotion back. -/
theorem Hastened.block (h : Hastened s t a) (r : AttemptId) : Hastened s (t.block r) a := by
  have hmarks : ∀ b, ((t.block r).attempts b).hurried = (t.attempts b).hurried := by
    unfold State.block
    split
    · exact (t.giveBack_unmarked r).hurried
    · exact fun _ => rfl
  have hcalls : ∀ c ∈ t.calls, c ∈ (t.block r).calls := by
    intro c hc
    unfold State.block
    split
    · rw [giveBack_calls]
      split
      · exact List.mem_append_left _ hc
      · exact hc
    · exact hc
  refine ⟨(hmarks a).trans h.self, fun b hb => (hmarks b).trans (h.kept b hb), fun b hb => ?_,
    fun b hb => ?_⟩
  · rw [hmarks] at hb
    refine (h.closed b hb).imp_right fun hnext c hc => ?_
    rw [hmarks]
    exact hnext c hc
  · rw [hmarks] at hb
    exact (h.promoted b hb).imp_right (hcalls _)

/-- A wait hurries its target if it is a reader's, or from an attempt hurried for one, and marks
nobody otherwise. -/
theorem suspend_hastened {later : AttemptId → List AttemptId} {w : WaitId} {target : AttemptId}
    {q : Option AttemptId} (ho : (s.enter w target q).Enumerates later)
    (hlt : ∀ a b, (s.enter w target q).WaitsFor a b → b < s.attemptCount)
    (ht : target < s.attemptCount) :
    Hastened (s.enter w target q) (s.suspend later w target q) target ∨
      ((∃ r, q = some r ∧ (s.attempts r).hurried = false) ∧
        ∀ b, ((s.suspend later w target q).attempts b).hurried = (s.attempts b).hurried) := by
  have hcount := (s.enter_kept w target q).attemptCount
  have hhurry : Hastened (s.enter w target q) ((s.enter w target q).hurry later target) target :=
    hurry_hastened ho (by rwa [hcount]) (by rwa [hcount])
  have hentered : ∀ b, ((s.enter w target q).attempts b).hurried = (s.attempts b).hurried :=
    fun b => by rw [enter_attempts]
  cases q with
  | none => exact .inl hhurry
  | some r =>
    let u := s.enter w target (some r)
    have hdef : s.suspend later w target (some r) =
        (if (u.attempts r).hurried then u.hurry later target else u).block r := rfl
    by_cases hr : (s.attempts r).hurried = true
    · rw [hdef, if_pos ((hentered r).trans hr)]
      exact .inl (hhurry.block r)
    · rw [hdef, if_neg (by rw [hentered r]; exact hr)]
      refine .inr ⟨⟨r, rfl, by simpa using hr⟩, fun b => ?_⟩
      rw [← hentered b]
      unfold State.block
      split
      · exact (u.giveBack_unmarked r).hurried b
      · rfl

theorem Urgent.suspended (h : Urgent s) (hs : Inv s) {later : AttemptId → List AttemptId}
    {w : WaitId} {target : AttemptId} {q : Option AttemptId}
    (ho : (s.enter w target q).Enumerates later) (ht : target < s.attemptCount)
    (hsusp : Suspended s (s.suspend later w target q) w target q)
    (honly : OnlyControl (s.enter w target q) (s.suspend later w target q)) :
    Urgent (s.suspend later w target q) ∧
      (∀ b, (s.attempts b).hurried = true →
        ((s.suspend later w target q).attempts b).hurried = true) ∧
      ∀ b, ((s.suspend later w target q).attempts b).hurried = true →
        (s.attempts b).hurried = true ∨ .promote b ∈ (s.suspend later w target q).calls := by
  have hnew := hsusp.waitsFor hs.links
  have hsame : ∀ b, ((s.enter w target q).attempts b).toControl = (s.attempts b).toControl :=
    fun b => by rw [enter_attempts]
  -- Who waits for whom is settled once the wait is entered.
  have hwaits : ∀ a b, (s.suspend later w target q).WaitsFor a b ↔
      (s.enter w target q).WaitsFor a b := by
    intro a b
    obtain ⟨m, p, hc, _⟩ := hsusp.control a
    have hphase : ((s.suspend later w target q).attempts a).phase =
        ((s.enter w target q).attempts a).phase := by rw [hc, hsame]
    have hpred : ((s.suspend later w target q).attempts a).predecessor =
        ((s.enter w target q).attempts a).predecessor := by rw [hc, hsame]
    unfold WaitsFor
    rw [honly.edges, hphase, hpred]
  have hlt : ∀ a b, (s.enter w target q).WaitsFor a b → b < s.attemptCount := fun a b hab => by
    rw [← hsusp.kept.attemptCount]
    exact hsusp.inv.waitsFor_lt ((hwaits a b).mpr hab)
  have hwait : ∀ v ∈ (s.suspend later w target q).waits,
      v ∈ s.waits ∧ (s.suspend later w target q).requests v = s.requests v ∨
      ((s.suspend later w target q).requests v).target = target ∧
        ((s.suspend later w target q).requests v).requester = q := by
    intro v hv
    rw [hsusp.waits, List.mem_append, List.mem_singleton] at hv
    rw [hsusp.requests]
    by_cases hvw : v = w
    · rw [if_pos hvw]
      exact .inr ⟨rfl, rfl⟩
    · rw [if_neg hvw]
      exact .inl ⟨hv.resolve_right hvw, rfl⟩
  have hhurry := suspend_hastened ho hlt ht
  generalize s.suspend later w target q = t at *
  obtain hh | ⟨⟨r, rfl, hr⟩, hmarks⟩ := hhurry
  · have hkept : ∀ b, (s.attempts b).hurried = true → (t.attempts b).hurried = true := fun b hb =>
      hh.kept b (by rw [hsame]; exact hb)
    refine ⟨⟨fun v hv hb hnone => ?_, fun a b ha hab => ?_⟩, hkept, fun b hb => ?_⟩
    · obtain ⟨hold, heq⟩ | ⟨htarget, _⟩ := hwait v hv
      · rw [heq] at hb hnone ⊢
        exact hkept _ (h.readers v hold hb hnone)
      · rw [htarget]
        exact hh.self
    · obtain ha | ha := hh.closed a ha
      · rw [hsame] at ha
        obtain hold | ⟨_, rfl⟩ := hnew a b hab
        · exact hkept b (h.closed a b ha hold)
        · exact hh.self
      · exact ha b ((hwaits a b).mp hab)
    · obtain hb | hb := hh.promoted b hb
      · exact .inl (by rwa [hsame] at hb)
      · exact .inr hb
  · refine ⟨⟨fun v hv hb hnone => ?_, fun a b ha hab => ?_⟩, fun b hb => (hmarks b).trans hb,
      fun b hb => .inl ((hmarks b).symm.trans hb)⟩
    · obtain ⟨hold, heq⟩ | ⟨_, hreq⟩ := hwait v hv
      · rw [heq] at hb hnone ⊢
        exact (hmarks _).trans (h.readers v hold hb hnone)
      · rw [hreq] at hnone
        simp at hnone
    · rw [hmarks] at ha ⊢
      obtain hold | ⟨hra, _⟩ := hnew a b hab
      · exact h.closed a b ha hold
      · rw [← Option.some.inj hra, hr] at ha
        simp at ha

end State

namespace System

variable {s : System} {e : Event}

/-- Every transition keeps who is hurried closed, clears no mark and promotes whom it marks. -/
theorem Sound.urgent (h : Sound s) (he : s.enabled e) (hu : s.coord.Urgent) :
    (s.step e).coord.Urgent ∧
    (∀ a < s.coord.attemptCount, (s.coord.attempts a).hurried = true →
      ((s.step e).coord.attempts a).hurried = true) ∧
    ∀ a, ((s.step e).coord.attempts a).hurried = true →
      (s.coord.attempts a).hurried = true ∨ .promote a ∈ (s.step e).coord.calls := by
  have hstep : ∀ {out} {t : State}, State.Step (fun _ _ => True) s.coord.start t out →
      State.Unmarked s.coord.start t → t.Urgent ∧
      (∀ a < s.coord.attemptCount, (s.coord.attempts a).hurried = true →
        (t.attempts a).hurried = true) ∧
      ∀ a, (t.attempts a).hurried = true → (s.coord.attempts a).hurried = true ∨
        .promote a ∈ t.calls := fun {_ t} hs hm =>
    have hstart : s.coord.start.Urgent := ⟨hu.readers, hu.closed⟩
    ⟨hstart.kept h.inv.start.links hs hm.hurried, fun a _ ha => (hm.hurried a).trans ha,
      fun a ha => .inl ((hm.hurried a).symm.trans ha)⟩
  cases e with
  | createAttempt output predecessor =>
    have hc := h.inv.createAttempt output he
    obtain ⟨o, p, hself, _⟩ := hc.self
    refine ⟨hu.created h.inv hc, fun a hlt ha => ?_, fun a ha => .inl ?_⟩
    · show ((s.coord.createAttempt output predecessor).attempts a).hurried = true
      rw [hc.others a (Nat.ne_of_lt hlt)]
      exact ha
    · have ha' : ((s.coord.createAttempt output predecessor).attempts a).hurried = true := ha
      by_cases hnew : a = s.coord.attemptCount
      · rw [hnew, hself] at ha'
        simp at ha'
      · rwa [hc.others a hnew] at ha'
  | run a => exact hstep (h.inv.run he.2.1 he.1).1 (s.coord.run_unmarked a)
  | onPermit a =>
    have hm := s.coord.onPermit_unmarked a
    exact ⟨hu.permitted (h.inv.onPermit he) hm.hurried, fun b _ hb => (hm.hurried b).trans hb,
      fun b hb => .inl ((hm.hurried b).symm.trans hb)⟩
  | wait order later target requester stopRequested =>
    have hallotted : s.coord.allotted.Urgent := ⟨hu.readers, hu.closed⟩
    have hcoord : (s.step (.wait order later target requester stopRequested)).coord =
        (s.coord.wait order later target requester stopRequested).1 := rfl
    rw [hcoord]
    have hends := s.coord.wait_ends order later target requester stopRequested
    generalize s.coord.wait order later target requester stopRequested = ended at hends ⊢
    cases hends with
    | stopped | finished | stopping => exact ⟨hallotted, fun _ _ ha => ha, fun _ ha => .inl ha⟩
    | @cycle r _ _ _ _ _ =>
      have hh := h.inv.allotted.doomAll (s.coord.allotted.pathTo order target r)
      obtain ⟨out, hs⟩ := hh.step (K := fun _ _ => True)
      have hmarks : ∀ b, (((s.coord.allotted.pathTo order target r).foldl State.doom
          s.coord.allotted).attempts b).hurried = (s.coord.attempts b).hurried := fun b => by
        obtain ⟨_, _, hc, _⟩ := hh.only b
        rw [hc]
        rfl
      exact ⟨hallotted.kept h.inv.allotted.links hs hmarks, fun b _ hb => (hmarks b).trans hb,
        fun b hb => .inl ((hmarks b).symm.trans hb)⟩
    | suspended _ hres hq hok =>
      have hrun : ∀ r, requester.bind s.coord.running = some r →
          (s.coord.attempts r).phase = .running := fun r hr => by
        obtain ⟨p, _, hp⟩ := Option.bind_eq_some_iff.mp hr
        exact (h.inv.running p r hp).1
      have hsusp := h.inv.allotted.suspend later (fun hmem =>
        Nat.lt_irrefl _ (h.inv.inRange.wait _ hmem)) (Nat.lt_succ_self _)
        (h.inv.inRange.freshWait _ (Nat.le_refl _)) he.1 hres
        fun r hr => ⟨hrun r (hq.trans hr), (hok r hr).1⟩
      have hquiet := State.suspend_quieted later s.coord.waitCount target
        h.inv.allotted.control fun r hr => hrun r (hq.trans hr)
      subst hq
      have horder : (s.coord.allotted.enter s.coord.waitCount target
          (requester.bind s.coord.running)).Enumerates later := fun a b => by
        have := he.2.2 a b
        rw [State.enter_attempts] at this ⊢
        exact this
      obtain ⟨hurgent, hkept, hcalled⟩ := hallotted.suspended h.inv.allotted horder he.1 hsusp
        hquiet.only
      exact ⟨hurgent, fun a _ ha => hkept a ha, hcalled⟩
  | cancelWait w =>
    obtain ⟨out, hs⟩ := (h.inv.cancelWait (K := fun _ _ => True) he).1
    exact hstep hs (s.coord.cancelWait_unmarked w)
  | complete a result =>
    obtain ⟨out, hs⟩ := (h.inv.complete (K := fun _ _ => True) (a := a) (e := result) trivial).1
    exact hstep hs (s.coord.complete_unmarked a result)
  | onReacquired a granted =>
    obtain ⟨hout, _⟩ := h.toCounted.regained h.inv granted he
    obtain ⟨out, hs⟩ := (h.inv.onReacquired (K := fun _ _ => True) hout granted).1
    exact hstep hs (s.coord.onReacquired_unmarked a granted)
  | onOuterStop a =>
    obtain ⟨out, hs⟩ := (h.inv.onOuterStop a).step (K := fun _ _ => True)
    exact hstep hs (s.coord.onOuterStop_unmarked a)
  | finish a =>
    exact hstep ((h.inv.finish he).step (K := fun _ _ => True)) (s.coord.finish_unmarked a)

end System

/-- The ticket a call promotes. -/
def PermitCall.promoted? : PermitCall → Option AttemptId
  | .promote a => some a
  | .release _ => none

/-- The coordinator, and the attempts whose tickets it has had promoted. -/
structure Hurrying where
  system : System := {}
  promoted : List AttemptId := []

namespace Hurrying

def step (h : Hurrying) (e : Event) : Hurrying where
  system := h.system.step e
  promoted := h.promoted ++ (h.system.step e).coord.calls.filterMap PermitCall.promoted?

def machine : Machine Hurrying Event where
  init h := h = {}
  enabled h := h.system.enabled
  step := step

variable {h : Hurrying} {e : Event}

/-- In every state any interleaving of the steps leads to, the targets of readers' requests and all
that hurried attempts wait for, directly or through others, are hurried; the ticket of each has been
promoted; and no step takes the mark away. -/
theorem hurried_closed (hr : machine.Reachable (fun _ _ => True) h) :
    (∀ w ∈ h.system.coord.waits, (h.system.coord.requests w).state = .blocked →
      (h.system.coord.requests w).requester = none →
      (h.system.coord.attempts (h.system.coord.requests w).target).hurried = true) ∧
    (∀ a b, (h.system.coord.attempts a).hurried = true →
      ReflTransGen h.system.coord.WaitsFor a b → (h.system.coord.attempts b).hurried = true) ∧
    (∀ a, (h.system.coord.attempts a).hurried = true → a ∈ h.promoted) ∧
    ∀ e, h.system.enabled e → ∀ a < h.system.coord.attemptCount,
      (h.system.coord.attempts a).hurried = true →
        ((h.step e).system.coord.attempts a).hurried = true := by
  have hall : System.Sound h.system ∧ h.system.coord.Urgent ∧
      ∀ a, (h.system.coord.attempts a).hurried = true → a ∈ h.promoted := by
    refine hr.invariant (P := fun h => System.Sound h.system ∧ h.system.coord.Urgent ∧
      ∀ a, (h.system.coord.attempts a).hurried = true → a ∈ h.promoted) (fun h hs => ?_)
      fun h e ⟨hsound, hurgent, hpromoted⟩ he _ => ?_
    · obtain rfl : h = {} := hs
      refine ⟨System.sound_init, ⟨fun w hw => ?_, fun a b ha => ?_⟩, fun a ha => ?_⟩
      · simp at hw
      · simp at ha
      · simp at ha
    · obtain ⟨hnext, _, hcalled⟩ := hsound.urgent he hurgent
      refine ⟨hsound.step he, hnext, fun a ha => ?_⟩
      show a ∈ h.promoted ++ _
      rw [List.mem_append]
      obtain ha | ha := hcalled a ha
      · exact .inl (hpromoted a ha)
      · exact .inr (List.mem_filterMap.mpr ⟨_, ha, rfl⟩)
  obtain ⟨hsound, hurgent, hpromoted⟩ := hall
  refine ⟨hurgent.readers, fun a b ha hab => ?_, hpromoted, fun e he => (hsound.urgent he hurgent).2.1⟩
  induction hab with
  | refl => exact ha
  | tail _ hbc ih => exact hurgent.closed _ _ ih hbc

/-- A reader waits for an attempt that waits for the one before it to end. -/
def readerWaits : List Event :=
  [.createAttempt [['a']] none, .createAttempt [['a']] (some 0),
    .wait (fun _ => []) (fun _ => []) 1 none false]

theorem readerWaits_reachable :
    machine.Reachable (fun _ _ => True) (machine.runs {} readerWaits) := by
  have hnone : ∀ a b, ¬(((machine.runs {} (readerWaits.take 2)).system.coord.attempts a).edgesOut
      b).isSome = true := by
    intro a b
    simp [readerWaits, machine, Machine.runs, Hurrying.step, System.step, System.absorb,
      State.createAttempt, Function.update_apply, State.start]
    split <;> [rfl; split <;> rfl]
  refine (Machine.Reachable.start rfl).runs ⟨nofun, trivial, fun p hp => ?_, trivial,
    ⟨by decide, fun a b => iff_of_false List.not_mem_nil (hnone a b), fun a b => ?_⟩, trivial, trivial⟩
  · rw [← Option.some.inj hp]
    decide
  · refine iff_of_false List.not_mem_nil ?_
    rw [State.enter_attempts]
    exact hnone a b

theorem hurried_closed_readerWaits :
    ((machine.runs {} readerWaits).system.coord.attempts 0).hurried = true ∧
      0 ∈ (machine.runs {} readerWaits).promoted := by
  have h := hurried_closed readerWaits_reachable
  have hmarked : ((machine.runs {} readerWaits).system.coord.attempts 0).hurried = true := by decide
  exact ⟨hmarked, h.2.2.1 0 hmarked⟩

end Hurrying

end MakeBelieve.Coordinator
