import MakeBelieve.Coordinator.Cycle
import MakeBelieve.Tree.Transitions

namespace MakeBelieve.Coordinator

open Library Relation

/-- What `run` completes with once the attempt has ended: what its work did, unless it was doomed. -/
def runResult (attempt : Control) (result : Tree.BuildResult) : Tree.BuildResult :=
  if attempt.doomed then .failed dependencyCycle [] else result

/-- A request from a running attempt that is not stopping, for a target not yet completed. -/
structure State.Asks (s : State) (target : AttemptId) (requester : Option Path) (r : AttemptId) :
    Prop where
  unfinished : (s.attempts target).result = none
  requester : requester.bind s.running = some r
  notStopping : (s.attempts r).stopping = false

namespace System

variable {s : System} {e : Event}

/-- Only a refused request dooms anyone, and nobody doomed is let off. -/
theorem Sound.dooms (h : Sound s) (he : s.enabled e) :
    (∀ b < s.coord.attemptCount, (s.coord.attempts b).doomed = true →
      ((s.step e).coord.attempts b).doomed = true) ∧
    ∀ b, ((s.step e).coord.attempts b).doomed = true → (s.coord.attempts b).doomed = true ∨
      ∃ order later target requester r, e = .wait order later target requester false ∧
        s.coord.Asks target requester r ∧ s.coord.allotted.pathTo order target r ≠ [] ∧
        b ∈ s.coord.allotted.pathTo order target r ∧ s.coord.Stoppable b := by
  have hsame : ∀ {t : State}, (∀ b, (t.attempts b).doomed = (s.coord.attempts b).doomed) →
      (∀ b < s.coord.attemptCount, (s.coord.attempts b).doomed = true →
        (t.attempts b).doomed = true) ∧
      ∀ b, (t.attempts b).doomed = true → (s.coord.attempts b).doomed = true ∨
        ∃ order later target requester r, e = .wait order later target requester false ∧
          s.coord.Asks target requester r ∧ s.coord.allotted.pathTo order target r ≠ [] ∧
          b ∈ s.coord.allotted.pathTo order target r ∧ s.coord.Stoppable b := fun ht =>
    ⟨fun b _ hb => (ht b).trans hb, fun b hb => .inl ((ht b).symm.trans hb)⟩
  cases e with
  | createAttempt output predecessor =>
    have hc := h.inv.createAttempt output he
    obtain ⟨o, p, hself, _⟩ := hc.self
    refine ⟨fun b hlt hb => ?_, fun b hb => .inl ?_⟩
    · show ((s.coord.createAttempt output predecessor).attempts b).doomed = true
      rw [hc.others b (Nat.ne_of_lt hlt)]
      exact hb
    · have hb' : ((s.coord.createAttempt output predecessor).attempts b).doomed = true := hb
      by_cases hnew : b = s.coord.attemptCount
      · rw [hnew, hself] at hb'
        simp at hb'
      · rwa [hc.others b hnew] at hb'
  | run a => exact hsame (s.coord.run_unmarked a).doomed
  | onPermit a => exact hsame (s.coord.onPermit_unmarked a).doomed
  | wait order later target requester stopRequested =>
    have hcoord : (s.step (.wait order later target requester stopRequested)).coord =
        (s.coord.wait order later target requester stopRequested).1 := rfl
    rw [hcoord]
    have hends := s.coord.wait_ends order later target requester stopRequested
    generalize s.coord.wait order later target requester stopRequested = ended at hends ⊢
    cases hends with
    | stopped | finished | stopping => exact hsame fun _ => rfl
    | @cycle r hstop hres hr hrunning hpath =>
      have hspec := fun b => (State.doomAll_spec s.coord.allotted
        (s.coord.allotted.pathTo order target r) b).1
      subst hstop
      refine ⟨fun b _ hb => (hspec b).mpr (.inl hb), fun b hb => ?_⟩
      refine ((hspec b).mp hb).imp_right fun ⟨hmem, hstoppable⟩ => ?_
      exact ⟨order, later, target, requester, r, rfl, ⟨hres, hr, hrunning⟩, hpath, hmem, hstoppable⟩
    | @suspended q _ hres hq hok =>
      have hrun : ∀ r, q = some r → (s.coord.attempts r).phase = .running := fun r hr => by
        obtain ⟨p, _, hp⟩ := Option.bind_eq_some_iff.mp (hq.trans hr)
        exact (h.inv.running p r hp).1
      have hquiet := State.suspend_quieted later s.coord.waitCount target
        h.inv.allotted.control hrun
      refine hsame fun b => ?_
      obtain ⟨m, p, hc, _⟩ := hquiet.control b
      show ((s.coord.allotted.suspend later s.coord.waitCount target q).attempts b).doomed = _
      rw [hc, State.enter_attempts]
      rfl
  | cancelWait w => exact hsame (s.coord.cancelWait_unmarked w).doomed
  | complete a result => exact hsame (s.coord.complete_unmarked a result).doomed
  | onReacquired a granted => exact hsame (s.coord.onReacquired_unmarked a granted).doomed
  | onOuterStop a => exact hsame (s.coord.onOuterStop_unmarked a).doomed
  | finish a => exact hsame (s.coord.finish_unmarked a).doomed

/-- What `wait` answers such a request, and whom it dooms. -/
theorem Sound.refused (h : Sound s) {order later : AttemptId → List AttemptId} {target r : AttemptId}
    {requester : Option Path} (he : s.enabled (.wait order later target requester false))
    (hasks : s.coord.Asks target requester r) :
    ((s.coord.wait order later target requester false).2 = some dependencyCycle ↔
      ReflTransGen s.coord.WaitsFor target r) ∧
    (ReflTransGen s.coord.WaitsFor target r →
      (s.coord.allotted.pathTo order target r).head? = some r ∧
      (s.coord.allotted.pathTo order target r).getLast? = some target ∧
      (s.coord.allotted.pathTo order target r).IsChain (fun a b => s.coord.WaitsFor b a) ∧
      (s.coord.wait order later target requester false).1 =
        (s.coord.allotted.pathTo order target r).foldl State.doom s.coord.allotted) := by
  have horder : s.coord.allotted.Enumerates order := he.2.1
  have hspec := h.inv.allotted.pathTo_spec horder he.1 r
  have hends := s.coord.wait_ends order later target requester false
  generalize s.coord.wait order later target requester false = ended at hends ⊢
  cases hends with
  | stopped hstop => simp at hstop
  | finished _ hres =>
    rw [hasks.unfinished] at hres
    simp at hres
  | stopping _ _ hr hstop =>
    obtain rfl := Option.some.inj (hr.symm.trans hasks.requester)
    rw [hasks.notStopping] at hstop
    simp at hstop
  | cycle _ _ hr _ hpath =>
    obtain rfl := Option.some.inj (hr.symm.trans hasks.requester)
    obtain ⟨hnil, _⟩ | ⟨_, hreach, hispath⟩ := hspec
    · exact absurd hnil hpath
    · refine ⟨iff_of_true rfl hreach, fun _ => ⟨hispath.head, hispath.last, ?_, rfl⟩⟩
      exact hispath.chain.imp fun a b hab => (horder.mem_nexts b a).mp hab
  | suspended _ _ hq hok =>
    obtain ⟨_, hnot⟩ | ⟨hpath, _⟩ := hspec
    · exact ⟨iff_of_false (by simp) hnot, fun hreach => absurd hreach hnot⟩
    · exact absurd (hok r (hq.symm.trans hasks.requester)).2 hpath

/-- A request is refused exactly where its target reaches its attempt through who waits for whom;
the path found is one, those on it that run and are not stopping already are doomed and stopped, and
nobody else ever is; and what a doomed attempt's work did comes to nothing. -/
theorem cycle_doomed (hr : machine.Reachable (fun _ _ => True) s) :
    (∀ order later target requester r, s.enabled (.wait order later target requester false) →
      s.coord.Asks target requester r →
      ((s.coord.wait order later target requester false).2 = some dependencyCycle ↔
        ReflTransGen s.coord.WaitsFor target r) ∧
      (ReflTransGen s.coord.WaitsFor target r →
        (s.coord.allotted.pathTo order target r).head? = some r ∧
        (s.coord.allotted.pathTo order target r).getLast? = some target ∧
        (s.coord.allotted.pathTo order target r).IsChain (fun a b => s.coord.WaitsFor b a) ∧
        ∀ b, (((s.step (.wait order later target requester false)).coord.attempts b).doomed = true ↔
            (s.coord.attempts b).doomed = true ∨
              (b ∈ s.coord.allotted.pathTo order target r ∧ s.coord.Stoppable b)) ∧
          (((s.step (.wait order later target requester false)).coord.attempts b).stopping = true ↔
            (s.coord.attempts b).stopping = true ∨
              (b ∈ s.coord.allotted.pathTo order target r ∧ s.coord.Stoppable b)) ∧
          (b ∈ (s.step (.wait order later target requester false)).coord.effects.stopAttempts ↔
            b ∈ s.coord.allotted.pathTo order target r ∧ s.coord.Stoppable b))) ∧
    (∀ e, s.enabled e → ∀ b, ((s.step e).coord.attempts b).doomed = true →
      (s.coord.attempts b).doomed = true ∨ ∃ order later target requester r,
        e = .wait order later target requester false ∧ s.coord.Asks target requester r ∧
        ReflTransGen s.coord.WaitsFor target r ∧
        b ∈ s.coord.allotted.pathTo order target r ∧ s.coord.Stoppable b) ∧
    (∀ e, s.enabled e → ∀ b < s.coord.attemptCount, (s.coord.attempts b).doomed = true →
      ((s.step e).coord.attempts b).doomed = true) ∧
    ∀ a, (s.coord.attempts a).doomed = true → ∀ result,
      runResult (s.coord.attempts a).toControl result = .failed dependencyCycle [] ∧
      ∀ contentHash cached (t : Tree.State) output builtAt,
        t.finishContent contentHash cached output builtAt
          (runResult (s.coord.attempts a).toControl result) = (none, t) := by
  have hs := sound hr
  refine ⟨fun order later target requester r he hasks => ?_, fun e he b hb => ?_,
    fun e he => (hs.dooms he).1, fun a ha result => ?_⟩
  · obtain ⟨hiff, hpath⟩ := hs.refused he hasks
    refine ⟨hiff, fun hreach => ?_⟩
    obtain ⟨hhead, hlast, hchain, hstate⟩ := hpath hreach
    refine ⟨hhead, hlast, hchain, fun b => ?_⟩
    have hcoord : (s.step (.wait order later target requester false)).coord =
        (s.coord.allotted.pathTo order target r).foldl State.doom s.coord.allotted := hstate
    obtain ⟨hdoomed, hstopping, hasked⟩ := State.doomAll_spec s.coord.allotted
      (s.coord.allotted.pathTo order target r) b
    rw [hcoord]
    refine ⟨hdoomed, hstopping, hasked.trans ⟨fun hb => ?_, .inr⟩⟩
    exact hb.resolve_left List.not_mem_nil
  · refine ((hs.dooms he).2 b hb).imp_right ?_
    rintro ⟨order, later, target, requester, r, rfl, hasks, hpath, hmem, hstoppable⟩
    refine ⟨order, later, target, requester, r, rfl, hasks, ?_, hmem, hstoppable⟩
    have horder : s.coord.allotted.Enumerates order := he.2.1
    obtain ⟨hnil, _⟩ | ⟨_, hreach, _⟩ := hs.inv.allotted.pathTo_spec horder he.1 r
    · exact absurd hnil hpath
    · exact hreach
  · have hfailed : runResult (s.coord.attempts a).toControl result = .failed dependencyCycle [] :=
      if_pos ha
    refine ⟨hfailed, fun contentHash cached t output builtAt => ?_⟩
    rw [hfailed]
    rfl

/-- An attempt that asks for its own output. -/
def opensItself : List Event := [.createAttempt [['a']] none, .run 0, .onPermit 0]

theorem cycle_doomed_opensItself :
    ((machine.runs {} opensItself).coord.wait (fun _ => []) (fun a => if a = 0 then [0] else []) 0
      (some [['a']]) false).2 = some dependencyCycle := by
  have hr : machine.Reachable (fun _ _ => True) (machine.runs {} opensItself) :=
    (Machine.Reachable.start rfl).runs
      ⟨nofun, trivial, ⟨by decide, rfl, rfl⟩, trivial, rfl, trivial, trivial⟩
  have hnone : ∀ a b, ((machine.runs {} opensItself).coord.attempts a).edgesOut b = none := by
    intro a b
    rw [(sound hr).inv.links.edges]
    rfl
  have hreq : (some [['a']]).bind (machine.runs {} opensItself).coord.running = some 0 := by decide
  refine ((cycle_doomed hr).1 _ _ 0 _ 0 ⟨by decide, fun a b => ?_, fun a b => ?_⟩
    ⟨by decide, hreq, by decide⟩).1.mpr .refl
  · rw [hnone]
    simp
  · rw [hreq, State.enter_attempts]
    by_cases ha : a = 0
    · subst ha
      by_cases hb : b = 0
      · subst hb; simp [increment]
      · simp [hb, hnone]
    · have hne : ¬0 = a := fun h => ha h.symm
      simp [ha, hne, hnone]

end System

end MakeBelieve.Coordinator
