import MakeBelieve.Coordinator.Runs
import MakeBelieve.Library.Acyclic

namespace MakeBelieve.Coordinator

open Library Relation

namespace State

variable {s t : State} {K : AttemptId → ErrorCode → Prop} {out : List (WaitId × ErrorCode)}

/-- Waits answered or made ready take edges away and add none. -/
theorem Moved.edge (h : Moved s t out) (hs : Links s) (ht : Links t) {a b : AttemptId}
    (hab : ((t.attempts a).edgesOut b).isSome) : ((s.attempts a).edgesOut b).isSome := by
  obtain ⟨w, hw, hb, hreq, htarget⟩ := (ht.edge_iff a b).mp hab
  refine (hs.edge_iff a b).mpr ⟨w, ((h.waits w).mp hw).1, h.blocked w hb, ?_, ?_⟩
  · rw [← h.requester]; exact hreq
  · rw [← h.target]; exact htarget

theorem Step.waitsFor (h : Step K s t out) (hs : Links s) (a b : AttemptId)
    (hab : t.WaitsFor a b) : s.WaitsFor a b := by
  obtain hedge | ⟨hp, hpred⟩ := hab
  · exact .inl (h.moved.edge hs h.inv.links hedge)
  · exact .inr (h.behind a b hp hpred)

theorem Permitted.waitsFor {a : AttemptId} (h : Permitted s t a) (b c : AttemptId)
    (hbc : t.WaitsFor b c) : s.WaitsFor b c := by
  obtain hedge | ⟨hp, hpred⟩ := hbc
  · rw [h.links.edges] at hedge
    exact .inl hedge
  · by_cases hb : b = a
    · subst hb
      rw [h.self] at hp
      simp at hp
    · rw [h.others b hb] at hp hpred
      exact .inr ⟨hp, hpred⟩

/-- A new attempt waits for its predecessor alone, and nothing waits for it. -/
theorem Created.acyclic (h : Created s t) (hs : Inv s) (hacyclic : Acyclic s.WaitsFor) :
    Acyclic t.WaitsFor := by
  obtain ⟨output, p, hself, hlt⟩ := h.self
  have hold : ∀ a b, t.WaitsFor a b →
      s.WaitsFor a b ∨ (a = s.attemptCount ∧ p = some b) := by
    rintro a b (hedge | ⟨hp, hpred⟩)
    · rw [h.links.edges] at hedge
      exact .inl (.inl hedge)
    · by_cases ha : a = s.attemptCount
      · rw [ha, hself] at hpred
        exact .inr ⟨ha, hpred⟩
      · rw [h.others a ha] at hp hpred
        exact .inl (.inr ⟨hp, hpred⟩)
  cases p with
  | none =>
    apply hacyclic.mono
    intro a b hab
    obtain hab | ⟨_, hnone⟩ := hold a b hab
    · exact hab
    · simp at hnone
  | some b =>
    have hb := hlt b rfl
    -- Nothing leads to an attempt that is only now being made.
    have hnot : ¬ReflTransGen s.WaitsFor b s.attemptCount := by
      intro hreach
      obtain heq | ⟨c, _, hc⟩ := hreach.cases_tail
      · exact Nat.ne_of_lt hb heq.symm
      · exact Nat.lt_irrefl _ (hs.waitsFor_lt hc)
    apply hacyclic.add_edge hnot
    intro a c hac
    refine (hold a c hac).imp_right (fun ⟨ha, hc⟩ => ⟨ha, ?_⟩)
    exact (Option.some.inj hc).symm

/-- A wait that suspends adds one edge at most, from its attempt to its target. -/
theorem Suspended.waitsFor {w : WaitId} {target : AttemptId} {q : Option AttemptId}
    (h : Suspended s t w target q) (hs : Links s) (a b : AttemptId) (hab : t.WaitsFor a b) :
    s.WaitsFor a b ∨ (q = some a ∧ b = target) := by
  obtain hedge | ⟨hp, hpred⟩ := hab
  · obtain ⟨v, hv, hb, hreq, htarget⟩ := (h.inv.links.edge_iff a b).mp hedge
    rw [h.waits] at hv
    rw [h.requests] at hb hreq htarget
    by_cases hvw : v = w
    · rw [if_pos hvw] at hreq htarget
      exact .inr ⟨hreq, htarget.symm⟩
    · rw [if_neg hvw] at hb hreq htarget
      have hv' : v ∈ s.waits := by
        obtain hv | hv := List.mem_append.mp hv
        · exact hv
        · exact absurd (List.mem_singleton.mp hv) hvw
      exact .inl (.inl ((hs.edge_iff a b).mpr ⟨v, hv', hb, hreq, htarget⟩))
  · obtain ⟨m, p, hc, _⟩ := h.control a
    rw [hc] at hp hpred
    exact .inl (.inr ⟨hp, hpred⟩)

/-- All that `wait` can come to, and when. -/
inductive WaitEnds (s : State) (order later : AttemptId → List AttemptId) (target : AttemptId)
    (requester : Option Path) (stopRequested : Bool) : State × Option ErrorCode → Prop
  | stopped (h : stopRequested = true) :
    WaitEnds s order later target requester stopRequested (s.allotted, some canceled)
  | finished {e : ErrorCode} (h : stopRequested = false)
      (hres : (s.attempts target).result = some e) :
    WaitEnds s order later target requester stopRequested (s.allotted, some e)
  | stopping {r : AttemptId} (h : stopRequested = false)
      (hres : (s.attempts target).result = none) (hr : requester.bind s.running = some r)
      (hstop : (s.attempts r).stopping = true) :
    WaitEnds s order later target requester stopRequested (s.allotted, some canceled)
  | cycle {r : AttemptId} (h : stopRequested = false)
      (hres : (s.attempts target).result = none) (hr : requester.bind s.running = some r)
      (hstop : (s.attempts r).stopping = false)
      (hpath : s.allotted.pathTo order target r ≠ []) :
    WaitEnds s order later target requester stopRequested
      ((s.allotted.pathTo order target r).foldl State.doom s.allotted, some dependencyCycle)
  | suspended {q : Option AttemptId} (h : stopRequested = false)
      (hres : (s.attempts target).result = none) (hq : requester.bind s.running = q)
      (hok : ∀ r, q = some r → (s.attempts r).stopping = false ∧
        s.allotted.pathTo order target r = []) :
    WaitEnds s order later target requester stopRequested
      (s.allotted.suspend later s.waitCount target q, none)

theorem wait_ends (s : State) (order later : AttemptId → List AttemptId) (target : AttemptId)
    (requester : Option Path) (stopRequested : Bool) :
    WaitEnds s order later target requester stopRequested
      (s.wait order later target requester stopRequested) := by
  rw [wait_eq]
  cases stopRequested with
  | true => exact .stopped rfl
  | false =>
    rw [if_neg (by simp)]
    cases hres : (s.attempts target).result with
    | some e => exact .finished rfl hres
    | none =>
      cases hq : requester.bind s.running with
      | none => exact .suspended rfl hres hq (by simp)
      | some r =>
        dsimp only
        by_cases hstop : (s.attempts r).stopping = true
        · rw [if_pos hstop]
          exact .stopping rfl hres hq hstop
        · have hnot : (s.attempts r).stopping = false := by simpa using hstop
          rw [if_neg hstop]
          by_cases hpath : s.allotted.pathTo order target r = []
          · rw [if_pos hpath]
            refine .suspended rfl hres hq fun r' hr' => ?_
            rw [← Option.some.inj hr']
            exact ⟨hnot, hpath⟩
          · rw [if_neg hpath]
            exact .cycle rfl hres hq hnot hpath

/-- What `wait` comes to where `path_to` finds a cycle. -/
theorem wait_cycle (s : State) {order : AttemptId → List AttemptId}
    (later : AttemptId → List AttemptId) {target r : AttemptId} {requester : Option Path}
    (hnone : (s.attempts target).result = none) (hr : requester.bind s.running = some r)
    (hstop : (s.attempts r).stopping = false) (hpath : s.allotted.pathTo order target r ≠ []) :
    s.wait order later target requester false =
      ((s.allotted.pathTo order target r).foldl State.doom s.allotted, some dependencyCycle) := by
  rw [wait_eq, hnone, hr]
  dsimp only
  rw [hstop, if_neg hpath]
  rfl

end State

namespace System

variable {s : System} {e : Event}

theorem acyclic_init : Acyclic ({} : System).coord.WaitsFor := by
  have hnone : ∀ a b, ¬({} : System).coord.WaitsFor a b := by
    intro a b hab
    simp [State.WaitsFor] at hab
  intro a hc
  obtain ⟨b, _, hb⟩ := TransGen.tail'_iff.mp hc
  exact hnone _ _ hb

theorem Sound.acyclic (h : Sound s) (he : s.enabled e) (hacyclic : Acyclic s.coord.WaitsFor) :
    Acyclic (s.step e).coord.WaitsFor := by
  have hstep : ∀ {out} {t : State} {K : AttemptId → ErrorCode → Prop},
      State.Step K s.coord.start t out → Acyclic t.WaitsFor := fun hs =>
    hacyclic.mono fun a b hab => hs.waitsFor h.inv.start.links a b hab
  cases e with
  | createAttempt output predecessor =>
    exact (h.inv.createAttempt output he).acyclic h.inv hacyclic
  | run a => exact hstep (h.inv.run (K := fun _ _ => True) he.2.1 he.1).1
  | onPermit a => exact hacyclic.mono (h.inv.onPermit he).waitsFor
  | wait order later target requester stopRequested =>
    obtain ⟨e, _, _, hhalted⟩ | ⟨q, _, hsusp, hq⟩ :=
      h.inv.wait order later target requester stopRequested he.1
    · obtain ⟨out, hs⟩ := hhalted.step (K := fun _ _ => True)
      exact hacyclic.mono fun a b hab => hs.waitsFor h.inv.allotted.links a b hab
    · have hedge := hsusp.waitsFor h.inv.allotted.links
      cases q with
      | none =>
        apply hacyclic.mono
        intro a b hab
        obtain hab | ⟨hnone, _⟩ := hedge a b hab
        · exact hab
        · simp at hnone
      | some r =>
        -- The check of `wait`: the target does not reach the attempt the request is from.
        have horder : s.coord.allotted.Enumerates order := he.2.1
        have hnot : ¬ReflTransGen s.coord.WaitsFor target r := by
          obtain ⟨_, hnot⟩ | ⟨hpath, _⟩ := h.inv.allotted.pathTo_spec horder he.1 r
          · exact hnot
          · exact absurd (hq r rfl).2.2 hpath
        apply hacyclic.add_edge hnot
        intro a b hab
        refine (hedge a b hab).imp_right (fun ⟨ha, hb⟩ => ⟨?_, hb⟩)
        exact (Option.some.inj ha).symm
  | cancelWait w =>
    obtain ⟨out, hs⟩ := (h.inv.cancelWait (K := fun _ _ => True) he).1
    exact hstep hs
  | complete a result =>
    obtain ⟨out, hs⟩ := (h.inv.complete (K := fun _ _ => True) (a := a) (e := result) trivial).1
    exact hstep hs
  | onReacquired a granted =>
    obtain ⟨hout, _⟩ := h.toCounted.regained h.inv granted he
    obtain ⟨out, hs⟩ := (h.inv.onReacquired (K := fun _ _ => True) hout granted).1
    exact hstep hs
  | onOuterStop a =>
    obtain ⟨out, hs⟩ := (h.inv.onOuterStop a).step (K := fun _ _ => True)
    exact hstep hs
  | finish a => exact hstep ((h.inv.finish he).step (K := fun _ _ => True))

/-- A request whose attempt its target already waits for, directly or through others, is answered
at once and adds no edge. -/
theorem Sound.refuses (h : Sound s) {order later : AttemptId → List AttemptId} {target r : AttemptId}
    {requester : Option Path} (he : s.enabled (.wait order later target requester false))
    (hnone : (s.coord.attempts target).result = none)
    (hr : requester.bind s.coord.running = some r) (hstop : (s.coord.attempts r).stopping = false)
    (hreach : ReflTransGen s.coord.WaitsFor target r) :
    (s.coord.waitCount, dependencyCycle) ∈
        (s.step (.wait order later target requester false)).answers ∧
      ∀ a b, (s.step (.wait order later target requester false)).coord.WaitsFor a b →
        s.coord.WaitsFor a b := by
  have horder : s.coord.allotted.Enumerates order := he.2.1
  have hpath : s.coord.allotted.pathTo order target r ≠ [] := by
    obtain ⟨_, hnot⟩ | ⟨hpath, _⟩ := h.inv.allotted.pathTo_spec horder he.1 r
    · exact absurd hreach hnot
    · exact hpath
  have hwait := s.coord.wait_cycle later hnone hr hstop hpath
  have hhalted := h.inv.allotted.doomAll (s.coord.allotted.pathTo order target r)
  obtain ⟨out, hs⟩ := hhalted.step (K := fun _ _ => True)
  constructor
  · show _ ∈ (s.answers ++ (s.coord.wait order later target requester false).2.toList.map
      fun e => (s.coord.waitCount, e)) ++ _
    rw [hwait]
    simp
  · intro a b hab
    have hab' : (s.coord.wait order later target requester false).1.WaitsFor a b := hab
    rw [hwait] at hab'
    exact hs.waitsFor h.inv.allotted.links a b hab'

/-- The wait-for graph has no cycle in any state any interleaving of the steps leads to, and a
request that would close one is refused. -/
theorem wait_graph_acyclic (h : machine.Reachable (fun _ _ => True) s) :
    Acyclic s.coord.WaitsFor ∧
    ∀ order later target requester r, s.enabled (.wait order later target requester false) →
      (s.coord.attempts target).result = none → requester.bind s.coord.running = some r →
      (s.coord.attempts r).stopping = false → ReflTransGen s.coord.WaitsFor target r →
      (s.coord.waitCount, dependencyCycle) ∈
          (s.step (.wait order later target requester false)).answers ∧
        ∀ a b, (s.step (.wait order later target requester false)).coord.WaitsFor a b →
          s.coord.WaitsFor a b := by
  have hacyclic : Acyclic s.coord.WaitsFor :=
    h.invariant_under (P := fun s => Acyclic s.coord.WaitsFor) (fun _ hr => sound hr)
      (fun s hs => by
        have hs' : s = {} := hs
        exact hs' ▸ acyclic_init)
      (fun _ _ hs ha he _ => hs.acyclic he ha)
  exact ⟨hacyclic, fun order later target requester r he hnone hr hstop hreach =>
    (sound h).refuses he hnone hr hstop hreach⟩

theorem wait_graph_acyclic_firstWaits : Acyclic (machine.runs {} firstWaits).coord.WaitsFor :=
  (wait_graph_acyclic (firstWaits_reachable.weaken fun _ _ _ => trivial)).1

end System

end MakeBelieve.Coordinator
