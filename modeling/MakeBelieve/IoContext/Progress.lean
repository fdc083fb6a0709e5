import Mathlib.Data.List.Perm.Subperm
import Mathlib.Logic.Function.Iterate
import MakeBelieve.IoContext.Wakes
import MakeBelieve.Library.Fair

namespace MakeBelieve.IoContext

open Library

namespace State

variable (s : State)

/-- Nothing keeps the context's thread waiting: it waits on the poller until it is woken, and in
`disarm` for a stop callback that is running. -/
def Able : Prop :=
  match s.phase with
  | .exited => False
  | .polling => 0 < s.wakes
  | .finishing w _ .disarm _ =>
    (∀ head, s.stages w ≠ .cancelling head) ∧ s.stages w ≠ .waking
  | _ => True

/-- The thread has not returned, and is not left in the poller. -/
def Lively : Prop := s.phase ≠ .exited ∧ (s.phase = .polling → s.Waking)

end State

/-- The context's thread goes on where it is able to, and every other thread that is in `submit`
or in `cancel`. -/
structure Fair {ok : State → Event → Prop} (r : Run machine ok) : Prop where
  thread : ∀ n, (∀ k, n ≤ k → (r.state k).Able) →
    ∃ k, n ≤ k ∧ ∃ e, r.event k = some e ∧ e.ofThread = true
  wake : ∀ n i, (r.state n).submits i = .waking → ∃ k, n ≤ k ∧ r.event k = some (.wake i)
  pushCancel : ∀ n w head, (r.state n).stages w = .cancelling head →
    ∃ k, n ≤ k ∧ r.event k = some (.pushCancel w)
  wakeCancel : ∀ n w, (r.state n).stages w = .waking →
    ∃ k, n ≤ k ∧ r.event k = some (.wakeCancel w)

/-- The steps a stop callback has left. -/
def Stage.rank : Stage → Nat
  | armed => 3
  | cancelling _ => 2
  | waking => 1
  | _ => 0

namespace State

variable (s : State)

def finishWork (w : Wait) : Finish → Nat
  | .disarm => 3 + (s.stages w).rank
  | .takeCancels => 2
  | .complete => 1

/-- The waits begun and not completed. -/
def unfinished : Nat := s.begun.length - s.completed.length

def callerWork : Caller → Nat
  | .beginWait tasks => 10 * tasks.length
  | .cancellations => 10 * (s.unfinished - 1)
  | .batch waits => 10 * waits.length

/-- A bound on the steps the thread takes in this part of the pass. -/
def work : Nat :=
  match s.phase with
  | .top => 1
  | .running tasks => 10 * tasks.length
  | .adding _ tasks => 10 * tasks.length + 7
  | .stopping => 10 * s.unfinished
  | .reporting waits => 10 * waits.length
  | .rearming _ waits => 10 * waits.length + 7
  | .finishing w _ stage caller => s.callerWork caller + s.finishWork w stage
  | .taking | .polling | .exited => 0

/-- What brings the thread on: its own steps, and those of a callback it waits for. -/
def Helps (e : Event) : Prop :=
  e.ofThread = true ∨ ∃ w resolution caller, s.phase = .finishing w resolution .disarm caller ∧
    (e = .pushCancel w ∨ e = .wakeCancel w)

end State

variable {s t : State} {e : Event} {w : Wait} {ok : State → Event → Prop} {r : Run machine ok}
  {G P : State → Prop}

theorem Stage.rank_le (b : Stage) : b.rank ≤ 3 := by
  cases b <;> simp [rank]

theorem Counted.length_lt (h : Counted s) (hw : s.stages w ≠ .idle) :
    s.completed.length < s.begun.length := by
  have hsub : (w :: s.completed.map Prod.fst).Subperm s.begun := by
    rw [List.subperm_ext_iff]
    intro x _
    rw [h x, List.count_cons]
    by_cases heq : w = x
    · subst heq
      rw [if_neg hw]
      simp
    · simp [heq]
  have hlength := hsub.length_le
  rw [List.length_cons, List.length_map] at hlength
  exact hlength

theorem rank_others (he : s.enabled e) (h : e.ofThread = false) (w : Wait) :
    ((s.step e).stages w).rank ≤ (s.stages w).rank := by
  have hset : ∀ (t : State) (x : Wait) (b : Stage), b.rank ≤ (s.stages x).rank →
      t.stages = (s.setStage x b).stages → (t.stages w).rank ≤ (s.stages w).rank := by
    intro t x b hb hstages
    rw [hstages]
    by_cases heq : w = x
    · subst heq
      rw [State.stages_self]
      exact hb
    · rw [stages_of_ne heq]
  cases e with
  | push i =>
    obtain ⟨task, hi⟩ := he
    rw [State.step_push hi]
    exact Nat.le_refl _
  | reload i =>
    obtain ⟨task, head, hi⟩ := he
    simp only [State.step, State.reload, hi]
    exact Nat.le_refl _
  | loadCancel x =>
    have hx : s.stages x = .armed := he
    apply hset (s.step (.loadCancel x)) x (.cancelling s.cancels.head?) _ rfl
    rw [hx]
    simp [Stage.rank]
  | pushCancel x =>
    have hx : s.stages x = .cancelling s.cancels.head? := he
    rw [State.step_pushCancel hx]
    apply hset _ x _ _ rfl
    rw [hx]
    split <;> simp [Stage.rank]
  | reloadCancel x =>
    obtain ⟨head, hx⟩ := he
    apply hset (s.step (.reloadCancel x)) x (.cancelling s.cancels.head?) _ rfl
    rw [hx]
    simp [Stage.rank]
  | wakeCancel x =>
    have hx : s.stages x = .waking := he
    apply hset (s.step (.wakeCancel x)) x .cancelled _ rfl
    rw [hx]
    simp [Stage.rank]
  | load i task => exact Nat.le_refl _
  | wake i => exact Nat.le_refl _
  | destroy i => exact Nat.le_refl _
  | _ => cases h

/-- Other threads leave the thread no more to do. -/
theorem work_others (he : s.enabled e) (h : e.ofThread = false) : (s.step e).work ≤ s.work := by
  obtain ⟨hphase, -, -, -, -, -, hbegun, hcompleted⟩ := s.step_others h
  have hunfinished : (s.step e).unfinished = s.unfinished := by
    unfold State.unfinished
    rw [hbegun, hcompleted]
  have hcaller : ∀ caller, (s.step e).callerWork caller = s.callerWork caller := by
    intro caller
    cases caller <;> simp only [State.callerWork, hunfinished]
  have hfinish : ∀ w stage, (s.step e).finishWork w stage ≤ s.finishWork w stage := by
    intro w stage
    have hrank := rank_others he h w
    cases stage with
    | disarm => exact Nat.add_le_add_left hrank 3
    | takeCancels => exact Nat.le_refl _
    | complete => exact Nat.le_refl _
  unfold State.work
  rw [hphase]
  cases s.phase with
  | stopping => simp only [hunfinished, Nat.le_refl]
  | finishing w resolution stage caller =>
    have hle := hfinish w stage
    simp only [hcaller]
    omega
  | _ => exact Nat.le_refl _

/-- A callback that the thread waits for comes nearer to its end. -/
theorem work_callback {resolution : Resolution} {caller : Caller} (he : s.enabled e)
    (hphase : s.phase = .finishing w resolution .disarm caller)
    (h : e = .pushCancel w ∨ e = .wakeCancel w) : (s.step e).work < s.work := by
  have hrank : ((s.step e).stages w).rank < (s.stages w).rank := by
    rcases h with rfl | rfl
    · have hw : s.stages w = .cancelling s.cancels.head? := he
      rw [State.step_pushCancel hw]
      change ((s.setStage w _).stages w).rank < _
      rw [State.stages_self, hw]
      split <;> simp [Stage.rank]
    · have hw : s.stages w = .waking := he
      change ((s.setStage w .cancelled).stages w).rank < _
      rw [State.stages_self, hw]
      simp [Stage.rank]
  have hothers : e.ofThread = false := by rcases h with rfl | rfl <;> rfl
  obtain ⟨hphase', -, -, -, -, -, hbegun, hcompleted⟩ := s.step_others hothers
  unfold State.work
  rw [hphase', hphase]
  cases caller <;> simp only [State.callerWork, State.finishWork, State.unfinished, hbegun,
    hcompleted] <;> omega

/-- Each step of the thread leaves it less to do in this part of the pass. -/
theorem work_thread (hs : Sound s) (he : s.enabled e) (h : e.ofThread = true)
    (hsegment : (s.step e).phase.segment = s.phase.segment) : (s.step e).work < s.work := by
  cases e with
  | loadStopping =>
    have hphase : s.phase = .top := he
    simp [State.work, State.step, hphase]
  | takeTasks =>
    have hphase : s.phase = .taking := he
    rw [hphase] at hsegment
    cases hsegment
  | execute stopped =>
    obtain ⟨task, tasks, hphase⟩ := he
    rcases State.step_execute hphase stopped with heq | ⟨w, -, heq⟩
    · rw [heq]
      simp only [State.work, hphase, List.length_cons]
      omega
    · rw [heq]
      simp only [State.work, hphase, List.length_cons]
      omega
  | add failure =>
    obtain ⟨w, tasks, hphase⟩ := he
    have hrank := (s.stages w).rank_le
    cases failure with
    | none =>
      rw [State.step_add hphase]
      simp only [State.work, hphase]
      omega
    | some error =>
      rw [State.step_add_failed hphase]
      simp only [State.work, State.callerWork, State.finishWork, hphase]
      omega
  | takeCancels =>
    have hphase : s.phase = .running [] := he
    rw [hphase] at hsegment
    cases hsegment
  | stopNext =>
    have hphase : s.phase = .stopping := he
    cases hcancelled : s.cancelled with
    | nil =>
      rw [State.step_stopNext_nil hcancelled, hphase] at hsegment
      cases hseen : s.seen <;> rw [hseen] at hsegment <;> cases hsegment
    | cons w waits =>
      have hrank := (s.stages w).rank_le
      have hw : s.stages w ≠ .idle := by
        intro hidle
        apply (hs.waits.idle w hidle).1
        apply List.mem_append_right
        rw [hcancelled]
        exact List.mem_cons_self
      have hlt := hs.counted.length_lt hw
      rw [State.step_stopNext hcancelled]
      simp only [State.work, State.callerWork, State.finishWork, State.unfinished,
        State.unregister, hphase]
      omega
  | poll waits wakes =>
    rw [he.1] at hsegment
    cases hsegment
  | handleReady done =>
    obtain ⟨w, waits, hphase⟩ := he
    have hrank := (s.stages w).rank_le
    cases done with
    | false =>
      rw [State.step_handleReady_again hphase]
      simp only [State.work, hphase, List.length_cons]
      omega
    | true =>
      rw [State.step_handleReady hphase]
      simp only [State.work, State.callerWork, State.finishWork, State.unregister, hphase,
        List.length_cons]
      omega
  | rearm failure =>
    obtain ⟨w, waits, hphase⟩ := he
    have hrank := (s.stages w).rank_le
    cases failure with
    | none =>
      rw [State.step_rearm hphase]
      simp only [State.work, hphase]
      omega
    | some error =>
      rw [State.step_rearm_failed hphase]
      simp only [State.work, State.callerWork, State.finishWork, State.unregister, hphase]
      omega
  | disarm =>
    obtain ⟨w, resolution, caller, hphase, -⟩ := he
    rw [State.step_disarm hphase]
    cases caller <;> simp only [State.work, State.callerWork, State.finishWork,
      State.unfinished, State.setStage, hphase] <;> omega
  | finishTake =>
    obtain ⟨w, resolution, caller, hphase⟩ := he
    obtain ⟨registered, cancelled, heq⟩ := s.takeCancels_frame
    rw [State.step_finishTake hphase, heq]
    cases caller <;> simp only [State.work, State.callerWork, State.finishWork,
      State.unfinished, hphase] <;> omega
  | complete =>
    obtain ⟨w, resolution, caller, hphase⟩ := he
    rw [State.step_complete hphase]
    cases caller <;> simp only [State.work, State.callerWork, State.finishWork,
      State.unfinished, State.setStage, Caller.resume, hphase, List.length_append,
      List.length_singleton] <;>
      omega
  | nextPass =>
    have hphase : s.phase = .reporting [] := he
    rw [hphase] at hsegment
    cases hsegment
  | _ => cases h

theorem wakes_others (he : s.enabled e) (h : e.ofThread = false) : s.wakes ≤ (s.step e).wakes := by
  cases e with
  | push i =>
    obtain ⟨task, hi⟩ := he
    rw [State.step_push hi]
    exact Nat.le_refl _
  | reload i =>
    obtain ⟨task, head, hi⟩ := he
    simp only [State.step, State.reload, hi]
    exact Nat.le_refl _
  | pushCancel w =>
    rw [State.step_pushCancel he]
    exact Nat.le_refl _
  | wake i => exact Nat.le_succ _
  | wakeCancel w => exact Nat.le_succ _
  | load i task => exact Nat.le_refl _
  | loadCancel w => exact Nat.le_refl _
  | reloadCancel w => exact Nat.le_refl _
  | destroy i => exact Nat.le_refl _
  | _ => cases h

/-- Unless the thread has returned or is left in the poller, something brings it on. -/
theorem Fair.helped (h : Fair r) {n : Nat} (hlively : (r.state n).Lively) :
    ∃ k, n ≤ k ∧ ∃ e, r.event k = some e ∧ (r.state k).Helps e := by
  by_contra hnone
  have hothers : ∀ k, n ≤ k → ∀ e, r.event k = some e → e.ofThread = false := by
    intro k hk e hevent
    by_contra hthread
    exact hnone ⟨k, hk, e, hevent, .inl (Bool.of_not_eq_false hthread)⟩
  have hphase : ∀ k, n ≤ k → (r.state k).phase = (r.state n).phase := by
    intro k hk
    induction k, hk using Nat.le_induction with
    | base => rfl
    | succ k hk ih =>
      cases hevent : r.event k with
      | none => rw [r.idle k hevent, ih]
      | some e =>
        obtain ⟨-, -, hnext⟩ := r.next k e hevent
        rw [hnext]
        exact ((r.state k).step_others (hothers k hk e hevent)).1.trans ih
  have hunable : ∀ m, n ≤ m → ∃ k, m ≤ k ∧ ¬ (r.state k).Able := by
    intro m hm
    by_contra hable
    have hable : ∀ k, m ≤ k → (r.state k).Able := by
      intro k hk
      by_contra hunable
      exact hable ⟨k, hk, hunable⟩
    obtain ⟨k, hk, e, hevent, hthread⟩ := h.thread m hable
    rw [hothers k (by omega) e hevent] at hthread
    cases hthread
  cases hcase : (r.state n).phase with
  | exited => exact hlively.1 hcase
  | polling =>
    -- The wake that is pending, or on its way, stays until the poller returns.
    have hwoken : ∃ m, n ≤ m ∧ 0 < (r.state m).wakes := by
      rcases hlively.2 hcase with hpending | ⟨i, hi⟩ | ⟨w, hw⟩
      · exact ⟨n, Nat.le_refl n, hpending⟩
      · obtain ⟨k, hk, hevent⟩ := h.wake n i hi
        obtain ⟨-, -, hnext⟩ := r.next k _ hevent
        refine ⟨k + 1, by omega, ?_⟩
        rw [hnext]
        exact Nat.succ_pos _
      · obtain ⟨k, hk, hevent⟩ := h.wakeCancel n w hw
        obtain ⟨-, -, hnext⟩ := r.next k _ hevent
        refine ⟨k + 1, by omega, ?_⟩
        rw [hnext]
        exact Nat.succ_pos _
    obtain ⟨m, hm, hpending⟩ := hwoken
    have hstays : ∀ k, m ≤ k → 0 < (r.state k).wakes := by
      intro k hk
      induction k, hk using Nat.le_induction with
      | base => exact hpending
      | succ k hk ih =>
        cases hevent : r.event k with
        | none =>
          rw [r.idle k hevent]
          exact ih
        | some e =>
          obtain ⟨he, -, hnext⟩ := r.next k e hevent
          have hle := wakes_others he (hothers k (by omega) e hevent)
          rw [hnext]
          exact Nat.lt_of_lt_of_le ih hle
    obtain ⟨k, hk, hunable⟩ := hunable m hm
    apply hunable
    unfold State.Able
    rw [hphase k (by omega), hcase]
    exact hstays k hk
  | finishing w resolution stage caller =>
    obtain ⟨k, hk, hunable⟩ := hunable n (Nat.le_refl n)
    unfold State.Able at hunable
    rw [hphase k hk, hcase] at hunable
    cases stage with
    | disarm =>
      have hfinishing : ∀ l, n ≤ l →
          (r.state l).phase = .finishing w resolution .disarm caller := by
        intro l hl
        rw [hphase l hl, hcase]
      apply hunable
      constructor
      · intro head hstage
        obtain ⟨l, hl, hevent⟩ := h.pushCancel k w head hstage
        have hl' : n ≤ l := by omega
        exact hnone ⟨l, hl', _, hevent, .inr ⟨w, resolution, caller, hfinishing l hl', .inl rfl⟩⟩
      · intro hstage
        obtain ⟨l, hl, hevent⟩ := h.wakeCancel k w hstage
        have hl' : n ≤ l := by omega
        exact hnone ⟨l, hl', _, hevent, .inr ⟨w, resolution, caller, hfinishing l hl', .inr rfl⟩⟩
    | takeCancels => exact hunable trivial
    | complete => exact hunable trivial
  | _ =>
    obtain ⟨k, hk, hunable⟩ := hunable n (Nat.le_refl n)
    apply hunable
    unfold State.Able
    rw [hphase k hk, hcase]
    trivial

/-- `P` holds until `G` does, and keeps the thread going round. -/
structure Until (ok : State → Event → Prop) (P G : State → Prop) : Prop where
  keeps : ∀ s e, machine.Reachable ok s → s.enabled e → P s → P (s.step e) ∨ G (s.step e)
  lively : ∀ s, machine.Reachable ok s → P s → s.Lively

/-- From each part of a pass the thread comes to the next one. -/
theorem Until.next (h : Until ok P G) (hfair : Fair r) (segment : Segment) :
    r.LeadsTo (fun s => P s ∧ s.phase.segment = segment)
      (fun s => G s ∨ P s ∧ s.phase.segment = segment.next) := by
  refine Run.leadsTo_of_rank State.work State.Helps ?_ ?_
  · intro s e hs he hok hp
    obtain ⟨hp, rfl⟩ := hp
    rcases h.keeps s e hs he hp with hp' | hg
    · rcases segment_step he with hsame | ⟨-, hnext⟩ | hexited
      · have hwork : s.Helps e → (s.step e).work < s.work := by
          intro hhelps
          rcases hhelps with hthread | ⟨w, resolution, caller, hphase, hcallback⟩
          · exact work_thread (sound hs) he hthread hsame
          · exact work_callback he hphase hcallback
        refine .inr ⟨⟨hp', hsame⟩, ?_, hwork⟩
        cases hthread : e.ofThread with
        | false => exact work_others he hthread
        | true => exact Nat.le_of_lt (hwork (.inl hthread))
      · exact .inl (.inr ⟨hp', hnext⟩)
      · exact absurd hexited (h.lively _ (hs.next he hok) hp').1
    · exact .inl (.inl hg)
  · intro n hn
    exact hfair.helped (h.lively _ (r.reachable n) hn.1)

theorem Segment.goes_round (a b : Segment) (ha : a ≠ exited) (hb : b ≠ exited) :
    ∃ k, next^[k] a = b := by
  cases a <;> cases b <;> first
    | exact absurd rfl ha
    | exact absurd rfl hb
    | exact ⟨0, rfl⟩
    | exact ⟨1, rfl⟩
    | exact ⟨2, rfl⟩
    | exact ⟨3, rfl⟩
    | exact ⟨4, rfl⟩

/-- So it comes to any part of a pass. -/
theorem Until.comes_to (h : Until ok P G) (hfair : Fair r) {segment : Segment}
    (hsegment : segment ≠ .exited) :
    r.LeadsTo P (fun s => G s ∨ P s ∧ s.phase.segment = segment) := by
  have hround : ∀ a k, r.LeadsTo (fun s => P s ∧ s.phase.segment = a)
      (fun s => G s ∨ P s ∧ s.phase.segment = Segment.next^[k] a) := by
    intro a k
    induction k with
    | zero =>
      apply Run.LeadsTo.of_imp
      intro n hn
      exact .inr hn
    | succ k ih =>
      rw [Function.iterate_succ_apply']
      apply ih.trans
      apply Run.LeadsTo.or _ (h.next hfair _)
      apply Run.LeadsTo.of_imp
      intro n hg
      exact .inl hg
  intro n hn
  have hexited : (r.state n).phase.segment ≠ .exited := by
    intro heq
    exact (h.lively _ (r.reachable n) hn).1 (Phase.eq_exited heq)
  obtain ⟨k, hk⟩ := Segment.goes_round _ segment hexited hsegment
  have hcomes := hround _ k n ⟨hn, rfl⟩
  rw [hk] at hcomes
  exact hcomes

end MakeBelieve.IoContext
