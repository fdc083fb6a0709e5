import Mathlib.Data.List.Infix
import Mathlib.Tactic.IntervalCases
import MakeBelieve.IoContext.Progress

namespace MakeBelieve.IoContext

open Library

namespace State

variable (s : State)

/-- How often a wait has been completed. -/
def completions (w : Wait) : Nat := (s.completed.map Prod.fst).count w

def Finishes (w : Wait) : Prop :=
  ∃ resolution stage caller, s.phase = .finishing w resolution stage caller

/-- The wait's stop callback has pushed it, or the thread is finishing it. -/
def Due (w : Wait) : Prop := (s.stages w).Fired ∨ s.Finishes w

/-- The wait's stop callback has begun, or the thread is finishing it. -/
def Ending (w : Wait) : Prop := (∃ head, s.stages w = .cancelling head) ∨ s.Due w

/-- The thread finishes the wait before it is back in the poller. -/
def Stopping (w : Wait) : Prop := w ∈ s.cancelled ∨ s.Finishes w

end State

variable {s t : State} {e : Event} {w : Wait} {ok : State → Event → Prop} {r : Run machine ok}

/-- A task is pushed, or all are taken, or the stack is as it was. -/
theorem step_tasks (he : s.enabled e) :
    (s.step e).pushed = s.pushed ∧ (s.step e).tasks = s.tasks ∨
      (∃ task, (s.step e).pushed = s.pushed ++ [task] ∧ (s.step e).tasks = task :: s.tasks) ∨
      (s.step e).pushed = s.pushed ∧ (s.step e).tasks = [] := by
  cases e with
  | push i =>
    obtain ⟨task, hi⟩ := he
    rw [State.step_push hi]
    exact .inr (.inl ⟨task, rfl, rfl⟩)
  | reload i =>
    obtain ⟨task, head, hi⟩ := he
    simp only [State.step, State.reload, hi]
    exact .inl ⟨rfl, rfl⟩
  | pushCancel w =>
    rw [State.step_pushCancel he]
    exact .inl ⟨rfl, rfl⟩
  | takeTasks => exact .inr (.inr ⟨rfl, rfl⟩)
  | execute stopped =>
    obtain ⟨task, tasks, hphase⟩ := he
    rcases State.step_execute hphase stopped with heq | ⟨w, -, heq⟩
    · rw [heq]
      exact .inl ⟨rfl, rfl⟩
    · rw [heq]
      exact .inl ⟨rfl, rfl⟩
  | add failure =>
    obtain ⟨w, tasks, hphase⟩ := he
    cases failure with
    | none =>
      rw [State.step_add hphase]
      exact .inl ⟨rfl, rfl⟩
    | some error =>
      rw [State.step_add_failed hphase]
      exact .inl ⟨rfl, rfl⟩
  | takeCancels =>
    obtain ⟨registered, cancelled, heq⟩ := s.takeCancels_frame
    simp only [State.step]
    rw [heq]
    exact .inl ⟨rfl, rfl⟩
  | stopNext =>
    cases hcancelled : s.cancelled with
    | nil =>
      rw [State.step_stopNext_nil hcancelled]
      exact .inl ⟨rfl, rfl⟩
    | cons w waits =>
      rw [State.step_stopNext hcancelled]
      exact .inl ⟨rfl, rfl⟩
  | handleReady done =>
    obtain ⟨w, waits, hphase⟩ := he
    cases done with
    | false =>
      rw [State.step_handleReady_again hphase]
      exact .inl ⟨rfl, rfl⟩
    | true =>
      rw [State.step_handleReady hphase]
      exact .inl ⟨rfl, rfl⟩
  | rearm failure =>
    obtain ⟨w, waits, hphase⟩ := he
    cases failure with
    | none =>
      rw [State.step_rearm hphase]
      exact .inl ⟨rfl, rfl⟩
    | some error =>
      rw [State.step_rearm_failed hphase]
      exact .inl ⟨rfl, rfl⟩
  | disarm =>
    obtain ⟨w, resolution, caller, hphase, -⟩ := he
    rw [State.step_disarm hphase]
    exact .inl ⟨rfl, rfl⟩
  | finishTake =>
    obtain ⟨w, resolution, caller, hphase⟩ := he
    obtain ⟨registered, cancelled, heq⟩ := s.takeCancels_frame
    rw [State.step_finishTake hphase, heq]
    exact .inl ⟨rfl, rfl⟩
  | complete =>
    obtain ⟨w, resolution, caller, hphase⟩ := he
    rw [State.step_complete hphase]
    exact .inl ⟨rfl, rfl⟩
  | _ => exact .inl ⟨rfl, rfl⟩

theorem pushed_step (he : s.enabled e) : s.pushed <+: (s.step e).pushed := by
  rcases step_tasks he with ⟨hpushed, -⟩ | ⟨task, hpushed, -⟩ | ⟨hpushed, -⟩
  · rw [hpushed]
  · rw [hpushed]
    exact List.prefix_append ..
  · rw [hpushed]

/-- The thread takes the tasks before it goes on to run them. -/
theorem taking_step (he : s.enabled e) (h : s.phase.segment = .taking)
    (hleft : (s.step e).phase.segment ≠ .taking) :
    (s.step e).pushed = s.pushed ∧ (s.step e).tasks = [] := by
  cases hthread : e.ofThread with
  | false =>
    rw [(s.step_others hthread).1] at hleft
    exact absurd h hleft
  | true =>
    cases hphase : s.phase with
    | top =>
      cases e <;> simp [State.enabled, Event.ofThread, hphase] at he hthread
      exact absurd rfl hleft
    | taking =>
      cases e <;> simp [State.enabled, Event.ofThread, hphase] at he hthread
      exact ⟨rfl, rfl⟩
    | finishing w resolution stage caller =>
      rw [hphase] at h
      cases caller <;> cases h
    | _ =>
      rw [hphase] at h
      cases h

theorem begun_step (hs : Sound s) (he : s.enabled e) : s.begun <+: (s.step e).begun := by
  rcases step_waits hs.waits hs.queued he with ⟨hbegun, -⟩ | ⟨w, -, hbegun, -⟩ |
    ⟨w, resolution, -, hbegun, -⟩
  · rw [hbegun]
  · rw [hbegun]
    exact List.prefix_append ..
  · rw [hbegun]

/-- A wait that is due stays so until it is completed, and no part of a pass loses it. -/
theorem due_step (hs : Sound s) (he : s.enabled e) (h : s.Due w) :
    (s.step e).stages w = .idle ∨
      (s.step e).Due w ∧ (s.Stopping w → (s.step e).Stopping w) ∧
        (s.phase.segment = .tasks →
          (s.step e).phase.segment = .tasks ∨ (s.step e).Stopping w) := by
  by_cases hfinishes : s.Finishes w
  · have hstays : (s.step e).stages w = .idle ∨ (s.step e).Finishes w := by
      obtain ⟨resolution, stage, caller, hphase⟩ := hfinishes
      cases hthread : e.ofThread with
      | false =>
        refine .inr ⟨resolution, stage, caller, ?_⟩
        rw [(s.step_others hthread).1, hphase]
      | true =>
        cases e <;> simp [State.enabled, Event.ofThread, hphase] at he hthread
        · rw [State.step_disarm hphase]
          exact .inr ⟨resolution, .takeCancels, caller, rfl⟩
        · rw [State.step_finishTake hphase]
          exact .inr ⟨resolution, .complete, caller, rfl⟩
        · rw [State.step_complete hphase]
          exact .inl (s.stages_self w .idle)
    rcases hstays with hidle | hfinishes
    · exact .inl hidle
    · exact .inr ⟨.inr hfinishes, fun _ => .inr hfinishes, fun _ => .inr (.inr hfinishes)⟩
  · have hfired : (s.stages w).Fired := h.resolve_right hfinishes
    have hkeep : ∀ t : State, (t.stages w).Fired → (w ∈ s.cancelled → w ∈ t.cancelled) →
        (s.phase.segment = .tasks → t.phase.segment = .tasks ∨ w ∈ t.cancelled) →
        t.stages w = .idle ∨ t.Due w ∧ (s.Stopping w → t.Stopping w) ∧
          (s.phase.segment = .tasks → t.phase.segment = .tasks ∨ t.Stopping w) := by
      intro t hstage hcancelled hsegment
      refine .inr ⟨.inl hstage, ?_, ?_⟩
      · intro hstopping
        exact .inl (hcancelled (hstopping.resolve_right hfinishes))
      · intro htasks
        exact (hsegment htasks).imp id .inl
    have hset : ∀ x b, x ≠ w → ((s.setStage x b).stages w).Fired := by
      intro x b hx
      rw [stages_of_ne (Ne.symm hx)]
      exact hfired
    have hunfired : ∀ x, (s.stages x).Unfired → x ≠ w := by
      intro x hx
      rintro rfl
      cases hstage : s.stages x <;> rw [hstage] at hx hfired <;> first
        | exact hx.elim
        | exact hfired.elim
    cases e with
    | push i =>
      obtain ⟨task, hi⟩ := he
      rw [State.step_push hi]
      exact hkeep _ hfired id .inl
    | reload i =>
      obtain ⟨task, head, hi⟩ := he
      simp only [State.step, State.reload, hi]
      exact hkeep _ hfired id .inl
    | loadCancel x =>
      have hx : s.stages x = .armed := he
      exact hkeep _ (hset x _ (hunfired x (by rw [hx]; trivial))) id .inl
    | pushCancel x =>
      have hx : s.stages x = .cancelling s.cancels.head? := he
      rw [State.step_pushCancel hx]
      exact hkeep _ (hset x _ (hunfired x (by rw [hx]; trivial))) id .inl
    | reloadCancel x =>
      obtain ⟨head, hx⟩ := he
      exact hkeep _ (hset x _ (hunfired x (by rw [hx]; trivial))) id .inl
    | wakeCancel x =>
      refine hkeep _ ?_ id .inl
      change ((s.setStage x .cancelled).stages w).Fired
      by_cases hx : x = w
      · subst hx
        rw [State.stages_self]
        trivial
      · exact hset x _ hx
    | takeTasks =>
      have hphase : s.phase = .taking := he
      exact hkeep _ hfired id fun _ => .inl rfl
    | execute stopped =>
      obtain ⟨task, tasks, hphase⟩ := he
      rcases State.step_execute hphase stopped with heq | ⟨x, rfl, heq⟩
      · rw [heq]
        exact hkeep _ hfired id fun _ => .inl rfl
      · have hidle : s.stages x = .idle := by
          apply hs.queued.queued x
          unfold State.taken
          rw [hphase]
          exact List.mem_append_left _ List.mem_cons_self
        rw [heq]
        exact hkeep _ (hset x _ (hunfired x (by rw [hidle]; trivial))) id fun _ => .inl rfl
    | add failure =>
      obtain ⟨x, tasks, hphase⟩ := he
      cases failure with
      | none =>
        rw [State.step_add hphase]
        exact hkeep _ hfired id fun _ => .inl rfl
      | some error =>
        rw [State.step_add_failed hphase]
        exact hkeep _ hfired id fun _ => .inl rfl
    | takeCancels =>
      have hin : w ∈ s.takeCancels.cancelled := by
        rw [hs.waits.takeCancels_eq]
        exact List.mem_append.mpr (hs.waits.fired w hfired)
      have hstages : s.takeCancels.stages = s.stages := by rw [hs.waits.takeCancels_eq]
      refine hkeep _ ?_ (fun _ => hin) (fun _ => .inr hin)
      change (s.takeCancels.stages w).Fired
      rw [hstages]
      exact hfired
    | stopNext =>
      have hphase : s.phase = .stopping := he
      cases hcancelled : s.cancelled with
      | nil =>
        rw [State.step_stopNext_nil hcancelled]
        refine hkeep _ hfired id ?_
        rw [hphase]
        intro htasks
        cases htasks
      | cons x waits =>
        rw [State.step_stopNext hcancelled]
        refine hkeep _ hfired id ?_
        rw [hphase]
        intro htasks
        cases htasks
    | poll waits wakes =>
      refine hkeep _ hfired id ?_
      rw [he.1]
      intro htasks
      cases htasks
    | handleReady done =>
      obtain ⟨x, waits, hphase⟩ := he
      have hsegment : s.phase.segment ≠ .tasks := by
        simp [hphase, Phase.segment]
      cases done with
      | false =>
        rw [State.step_handleReady_again hphase]
        exact hkeep _ hfired id fun htasks => absurd htasks hsegment
      | true =>
        rw [State.step_handleReady hphase]
        exact hkeep _ hfired id fun htasks => absurd htasks hsegment
    | rearm failure =>
      obtain ⟨x, waits, hphase⟩ := he
      have hsegment : s.phase.segment ≠ .tasks := by
        simp [hphase, Phase.segment]
      cases failure with
      | none =>
        rw [State.step_rearm hphase]
        exact hkeep _ hfired id fun htasks => absurd htasks hsegment
      | some error =>
        rw [State.step_rearm_failed hphase]
        exact hkeep _ hfired id fun htasks => absurd htasks hsegment
    | disarm =>
      obtain ⟨x, resolution, caller, hphase, -⟩ := he
      have hx : x ≠ w := by
        rintro rfl
        exact hfinishes ⟨resolution, .disarm, caller, hphase⟩
      rw [State.step_disarm hphase]
      refine hkeep _ (hset x _ hx) id ?_
      rw [hphase]
      cases caller <;> exact .inl
    | finishTake =>
      obtain ⟨x, resolution, caller, hphase⟩ := he
      have hin : w ∈ s.takeCancels.cancelled := by
        rw [hs.waits.takeCancels_eq]
        exact List.mem_append.mpr (hs.waits.fired w hfired)
      have hstages : s.takeCancels.stages = s.stages := by rw [hs.waits.takeCancels_eq]
      rw [State.step_finishTake hphase]
      refine hkeep _ ?_ (fun _ => hin) (fun _ => .inr hin)
      change (s.takeCancels.stages w).Fired
      rw [hstages]
      exact hfired
    | complete =>
      obtain ⟨x, resolution, caller, hphase⟩ := he
      have hx : x ≠ w := by
        rintro rfl
        exact hfinishes ⟨resolution, .complete, caller, hphase⟩
      rw [State.step_complete hphase]
      refine hkeep _ (hset x _ hx) ?_ ?_
      · exact (List.mem_erase_of_ne (Ne.symm hx)).mpr
      · rw [hphase]
        cases caller <;> exact .inl
    | loadStopping =>
      have hphase : s.phase = .top := he
      refine hkeep _ hfired id ?_
      rw [hphase]
      intro htasks
      cases htasks
    | nextPass =>
      have hphase : s.phase = .reporting [] := he
      refine hkeep _ hfired id ?_
      rw [hphase]
      intro htasks
      cases htasks
    | _ => exact hkeep _ hfired id .inl

/-- In a state the thread has returned in, nothing is queued and no wait is under way. -/
theorem Sound.exited (h : Sound s) (hphase : s.phase = .exited) : s.Quiet :=
  h.queued.quiet (h.queued.seen (h.queued.exited hphase))

theorem taken_polling (hphase : s.phase = .polling) : s.taken = [] := by
  unfold State.taken
  rw [hphase]

theorem Sound.pushed_length (h : Sound s) :
    s.pushed.length = s.ran.length + s.taken.length + s.tasks.length := by
  rw [h.queued.log, List.length_append, List.length_append, List.length_reverse]

/-- While a task pushed is not run, the thread does not return, nor stay in the poller. -/
theorem lively_tasks (hs : machine.Reachable ok s) (hlt : s.ran.length < s.pushed.length) :
    s.Lively := by
  have h := sound hs
  have hlength := h.pushed_length
  constructor
  · intro hphase
    have hempty := (h.exited hphase).1
    have hnone := congrArg List.length hempty
    rw [List.length_append, List.length_nil] at hnone
    omega
  · intro hphase
    rw [taken_polling hphase, List.length_nil] at hlength
    apply (woken hs).waking_tasks
    · intro hnil
      rw [hnil, List.length_nil] at hlength
      omega
    · simp [hphase, Phase.segment]
    · simp [hphase, Phase.segment]

theorem Sound.due_begun (h : Sound s) (hdue : s.Due w) : s.stages w ≠ .idle := by
  rcases hdue with hfired | ⟨resolution, stage, caller, hphase⟩
  · intro hidle
    rw [hidle] at hfired
    exact hfired
  · apply h.waits.held_begun
    rw [hphase]
    rfl

theorem lively_due (hs : machine.Reachable ok s) (hdue : s.Due w) : s.Lively := by
  have h := sound hs
  have hbegun := h.due_begun hdue
  constructor
  · intro hphase
    exact hbegun ((h.exited hphase).2.2 w)
  · intro hphase
    have hin := h.waits.inHand
    unfold State.InHand at hin
    rw [hphase] at hin
    have hfired : (s.stages w).Fired := by
      apply hdue.resolve_right
      rintro ⟨resolution, stage, caller, heq⟩
      rw [hphase] at heq
      cases heq
    have hcancels : w ∈ s.cancels := by
      apply (h.waits.fired w hfired).resolve_left
      rw [hin]
      exact List.not_mem_nil
    apply (woken hs).waking_cancels (List.ne_nil_of_mem hcancels)
    · simp [hphase, Phase.segment]
    · simp [hphase, Phase.segment]
    · simp [hphase, Phase.segment]

/-- The first `n` tasks pushed are run, unless they are. -/
theorem until_run (n : Nat) : Until ok (fun s => n ≤ s.pushed.length ∧ s.ran.length < n)
    (fun s => n ≤ s.ran.length) := by
  constructor
  · intro s e _ he hp
    have hle := (pushed_step he).length_le
    by_cases hran : n ≤ (s.step e).ran.length
    · exact .inr hran
    · exact .inl ⟨by omega, by omega⟩
  · intro s hs hp
    exact lively_tasks hs (by omega)

/-- They are in no stack once all are taken. -/
theorem until_run_taken (n : Nat) : Until ok
    (fun s => (n ≤ s.pushed.length ∧ s.ran.length < n) ∧
      (s.phase.segment = .taking ∨ n + s.tasks.length ≤ s.pushed.length))
    (fun s => n ≤ s.ran.length) := by
  constructor
  · intro s e hs he hp
    obtain ⟨hp, htaken⟩ := hp
    rcases (until_run n).keeps s e hs he hp with hp' | hg
    · refine .inl ⟨hp', ?_⟩
      rcases htaken with htaking | htaken
      · by_cases hleft : (s.step e).phase.segment = .taking
        · exact .inl hleft
        · obtain ⟨hpushed, htasks⟩ := taking_step he htaking hleft
          refine .inr ?_
          rw [hpushed, htasks]
          exact hp.1
      · refine .inr ?_
        rcases step_tasks he with ⟨hpushed, htasks⟩ | ⟨task, hpushed, htasks⟩ |
          ⟨hpushed, htasks⟩
        · rw [hpushed, htasks]
          exact htaken
        · rw [hpushed, htasks, List.length_append, List.length_singleton, List.length_cons]
          omega
        · rw [hpushed, htasks, List.length_nil]
          omega
    · exact .inr hg
  · intro s hs hp
    exact (until_run n).lively s hs hp.1

theorem Fair.runs (h : Fair r) (n : Nat) :
    ∃ k, n ≤ k ∧ (r.state n).pushed.length ≤ (r.state k).ran.length := by
  by_cases hran : (r.state n).pushed.length ≤ (r.state n).ran.length
  · exact ⟨n, Nat.le_refl n, hran⟩
  have htaking : Segment.taking ≠ .exited := by simp
  have hpolling : Segment.polling ≠ .exited := by simp
  obtain ⟨k, hk, hran | ⟨hp, hsegment⟩⟩ := (until_run (r.state n).pushed.length).comes_to h
    htaking n ⟨Nat.le_refl _, by omega⟩
  · exact ⟨k, hk, hran⟩
  obtain ⟨l, hl, hran | ⟨⟨hp, htaken⟩, hsegment⟩⟩ :=
    (until_run_taken (r.state n).pushed.length).comes_to h hpolling k ⟨hp, .inl hsegment⟩
  · exact ⟨l, by omega, hran⟩
  · have hlength := (sound (r.reachable l)).pushed_length
    rw [hsegment] at htaken
    have htaken := htaken.resolve_left (by simp)
    rw [taken_polling (Phase.eq_polling hsegment), List.length_nil] at hlength
    omega

/-- Every wait begun is completed, but for one that is under way. -/
theorem Sound.begun_count (h : Sound s) (w : Wait) :
    s.begun.count w = s.completions w + if s.stages w = .idle then 0 else 1 :=
  h.counted w

/-- A wait that is due is completed as often as it is begun by then. -/
theorem until_completed (w : Wait) (n : Nat) :
    Until ok (fun s => n ≤ s.begun.count w ∧ s.Due w) (fun s => n ≤ s.completions w) := by
  constructor
  · intro s e hs he hp
    obtain ⟨hn, hdue⟩ := hp
    have h := sound hs
    have hle := (begun_step h he).sublist.count_le w
    rcases due_step h he hdue with hidle | ⟨hdue, -⟩
    · have hcount := (h.step he).begun_count w
      rw [if_pos hidle] at hcount
      exact .inr (by omega)
    · exact .inl ⟨by omega, hdue⟩
  · intro s hs hp
    exact lively_due hs hp.2

theorem until_stopped (w : Wait) (n : Nat) : Until ok
    (fun s => (n ≤ s.begun.count w ∧ s.Due w) ∧ (s.phase.segment = .tasks ∨ s.Stopping w))
    (fun s => n ≤ s.completions w) := by
  constructor
  · intro s e hs he hp
    obtain ⟨hp, hstopping⟩ := hp
    rcases (until_completed w n).keeps s e hs he hp with hp' | hg
    · rcases due_step (sound hs) he hp.2 with hidle | ⟨-, hkeeps, hleaves⟩
      · exact absurd hidle ((sound hs).step he |>.due_begun hp'.2)
      · refine .inl ⟨hp', ?_⟩
        rcases hstopping with htasks | hstopping
        · exact hleaves htasks
        · exact .inr (hkeeps hstopping)
    · exact .inr hg
  · intro s hs hp
    exact (until_completed w n).lively s hs hp.1

theorem Fair.completes_due (h : Fair r) {n : Nat} {w : Wait} {m : Nat}
    (hm : m ≤ (r.state n).begun.count w) (hdue : (r.state n).Due w) :
    ∃ k, n ≤ k ∧ m ≤ (r.state k).completions w := by
  have htasks : Segment.tasks ≠ .exited := by simp
  have hpolling : Segment.polling ≠ .exited := by simp
  obtain ⟨k, hk, hdone | ⟨hp, hsegment⟩⟩ := (until_completed w m).comes_to h htasks n ⟨hm, hdue⟩
  · exact ⟨k, hk, hdone⟩
  obtain ⟨l, hl, hdone | ⟨⟨hp, hstopping⟩, hsegment⟩⟩ :=
    (until_stopped w m).comes_to h hpolling k ⟨hp, .inl hsegment⟩
  · exact ⟨l, by omega, hdone⟩
  · have hphase := Phase.eq_polling hsegment
    have hin := (sound (r.reachable l)).waits.inHand
    unfold State.InHand at hin
    rw [hphase] at hin
    rw [hsegment] at hstopping
    rcases hstopping.resolve_left (by simp) with hcancelled | ⟨resolution, stage, caller, heq⟩
    · rw [hin] at hcancelled
      cases hcancelled
    · rw [hphase] at heq
      cases heq

theorem Fair.completes (h : Fair r) {n : Nat} {w : Wait} (hending : (r.state n).Ending w) :
    ∃ k, n ≤ k ∧ (r.state n).begun.count w ≤ (r.state k).completions w := by
  rcases hending with ⟨head, hcancelling⟩ | hdue
  · obtain ⟨k, hk, hevent⟩ := h.pushCancel n w head hcancelling
    obtain ⟨he, -, hnext⟩ := r.next k _ hevent
    have hstage : (r.state k).stages w = .cancelling (r.state k).cancels.head? := he
    have hdue : (r.state (k + 1)).Due w := by
      rw [hnext]
      change State.Due ((r.state k).step (.pushCancel w)) w
      rw [State.step_pushCancel hstage]
      apply Or.inl
      change (((r.state k).setStage w _).stages w).Fired
      rw [State.stages_self]
      split
      · trivial
      · trivial
    have hbegun : (r.state n).begun.count w ≤ (r.state (k + 1)).begun.count w := by
      have hle : n ≤ k + 1 := by omega
      refine r.keeps (P := fun s => (r.state n).begun.count w ≤ s.begun.count w) ?_ hle
        (Nat.le_refl _)
      intro s e hs he _ hle
      exact Nat.le_trans hle ((begun_step (sound hs) he).sublist.count_le w)
    obtain ⟨l, hl, hdone⟩ := h.completes_due hbegun hdue
    exact ⟨l, by omega, hdone⟩
  · exact h.completes_due (Nat.le_refl _) hdue

/-- Whatever the interleaving, each task pushed is run once, in the order of the pushes, no wake
is lost, and each wait begun is completed once and is then in no list. Where every thread goes
on, each task pushed is run and each wait that is ending is completed. -/
theorem tasks_run_waits_completed :
    (∀ s, machine.Reachable (fun _ _ => True) s →
      s.pushed = s.ran ++ s.taken ++ s.tasks.reverse ∧
      (s.phase = .polling → s.tasks ≠ [] ∨ s.cancels ≠ [] → s.Waking) ∧
      (∀ w, s.completions w ≤ s.begun.count w ∧ s.begun.count w ≤ s.completions w + 1 ∧
        (s.completions w = s.begun.count w →
          w ∉ s.registered ∧ w ∉ s.cancelled ∧ w ∉ s.cancels)) ∧
      (s.phase = .exited → s.ran = s.pushed ∧ ∀ w, s.completions w = s.begun.count w)) ∧
    ∀ r : Run machine (fun _ _ => True), Fair r →
      (∀ n, ∃ k, n ≤ k ∧ (r.state n).pushed <+: (r.state k).ran) ∧
      ∀ n w, (r.state n).Ending w →
        ∃ k, n ≤ k ∧ (r.state n).begun.count w ≤ (r.state k).completions w := by
  constructor
  · intro s hs
    have h := sound hs
    refine ⟨h.queued.log, ?_, ?_, ?_⟩
    · intro hphase hpushed
      rcases hpushed with htasks | hcancels
      · apply (woken hs).waking_tasks htasks
        · simp [hphase, Phase.segment]
        · simp [hphase, Phase.segment]
      · apply (woken hs).waking_cancels hcancels
        · simp [hphase, Phase.segment]
        · simp [hphase, Phase.segment]
        · simp [hphase, Phase.segment]
    · intro w
      have hcount := h.begun_count w
      by_cases hidle : s.stages w = .idle
      · rw [if_pos hidle] at hcount
        obtain ⟨hlisted, -⟩ := h.waits.idle w hidle
        have hregistered : w ∉ s.registered := fun hin => hlisted (List.mem_append_left _ hin)
        have hcancelled : w ∉ s.cancelled := fun hin => hlisted (List.mem_append_right _ hin)
        obtain ⟨-, hcancels⟩ := h.waits.unfired w (by rw [hidle]; trivial)
        exact ⟨by omega, by omega, fun _ => ⟨hregistered, hcancelled, hcancels⟩⟩
      · rw [if_neg hidle] at hcount
        exact ⟨by omega, by omega, fun heq => by omega⟩
    · intro hphase
      obtain ⟨hempty, -, hidle⟩ := h.exited hphase
      obtain ⟨htaken, htasks⟩ := List.append_eq_nil_iff.mp hempty
      constructor
      · rw [h.queued.log, htaken, htasks]
        simp
      · intro w
        have hcount := h.begun_count w
        rw [if_pos (hidle w)] at hcount
        exact hcount.symm
  · intro r hfair
    constructor
    · intro n
      obtain ⟨k, hk, hle⟩ := hfair.runs n
      refine ⟨k, hk, ?_⟩
      have hpushed : (r.state n).pushed <+: (r.state k).pushed := by
        refine r.keeps (P := fun s => (r.state n).pushed <+: s.pushed) ?_ hk
          (List.prefix_refl _)
        intro s e _ he _ hprefix
        exact hprefix.trans (pushed_step he)
      have hran : (r.state k).ran <+: (r.state k).pushed := by
        rw [(sound (r.reachable k)).queued.log, List.append_assoc]
        exact List.prefix_append ..
      exact List.prefix_of_prefix_length_le hpushed hran hle
    · intro n w hending
      exact hfair.completes hending

/-- A wait is found ready while its stop callback is pushing it. -/
def stoppedWhenReady : List Event :=
  [.load 0 (.wait 0), .push 0, .loadStopping, .takeTasks, .execute false, .wake 0, .add none,
    .takeCancels, .stopNext, .loadCancel 0, .pushCancel 0, .poll [0] 0, .handleReady true,
    .wakeCancel 0, .disarm, .finishTake, .complete, .nextPass, .loadStopping, .takeTasks,
    .takeCancels, .stopNext, .poll [] 0, .nextPass, .loadStopping, .takeTasks, .takeCancels,
    .stopNext]

theorem stoppedWhenReady_fires : machine.Fires (fun _ _ => True) {} stoppedWhenReady := by
  have hstart : State.Startable {} (.wait 0) :=
    ⟨List.not_mem_nil, fun i head => Submit.noConfusion, fun w _ => rfl⟩
  have hpolled : ∀ w ∈ [0], (machine.runs {} (stoppedWhenReady.take 11)).polled w = true := by
    intro w hw
    rw [List.mem_singleton.mp hw]
    rfl
  refine ⟨⟨rfl, rfl, hstart⟩, trivial, ⟨_, rfl⟩, trivial, rfl, trivial, rfl, trivial,
    ⟨_, _, rfl⟩, trivial, rfl, trivial, ⟨_, _, rfl⟩, trivial, rfl, trivial, rfl, trivial, rfl,
    trivial, rfl, trivial, ⟨rfl, by simp [maxReady], by simp, hpolled, Nat.zero_le _⟩, trivial,
    ⟨_, _, rfl⟩, trivial, rfl, trivial, ⟨0, .ready, .batch [], rfl, ?_, ?_⟩, trivial,
    ⟨_, _, _, rfl⟩, trivial, ⟨_, _, _, rfl⟩, trivial, rfl, trivial, rfl, trivial, rfl, trivial, rfl,
    trivial, rfl, trivial, ⟨rfl, Nat.zero_le _, List.nodup_nil, ?_, Nat.zero_le _⟩, trivial, rfl,
    trivial, rfl, trivial, rfl, trivial, rfl, trivial, rfl, trivial, trivial⟩
  · intro head heq
    cases heq
  · intro heq
    cases heq
  · intro w hw
    cases hw

def stoppedRun : Run machine fun _ _ => True := .ofFires rfl stoppedWhenReady_fires

theorem stoppedRun_fair : Fair stoppedRun := by
  have hafter : ∀ n, 28 ≤ n → stoppedRun.state n = machine.runs {} stoppedWhenReady := by
    intro n hn
    change machine.runs {} (stoppedWhenReady.take n) = _
    rw [List.take_of_length_le hn]
  constructor
  · intro n hable
    have hlast := hable (n + 28) (by omega)
    rw [hafter (n + 28) (by omega)] at hlast
    exact absurd hlast (Nat.lt_irrefl 0)
  · intro n i hi
    by_cases hn : n < 28
    · interval_cases n <;> cases i <;> first
        | exact ⟨5, by omega, rfl⟩
        | cases hi
    · rw [hafter n (by omega)] at hi
      cases i <;> cases hi
  · intro n w head hw
    by_cases hn : n < 28
    · interval_cases n <;> cases w <;> first
        | exact ⟨10, by omega, rfl⟩
        | cases hw
    · rw [hafter n (by omega)] at hw
      cases w <;> cases hw
  · intro n w hw
    by_cases hn : n < 28
    · interval_cases n <;> cases w <;> first
        | exact ⟨13, by omega, rfl⟩
        | cases hw
    · rw [hafter n (by omega)] at hw
      cases w <;> cases hw

/-- It is completed once, as ready, and is stopped no more. -/
theorem tasks_run_waits_completed_once :
    (stoppedRun.state 28).completed = [(0, .ready)] ∧ (stoppedRun.state 28).cancelled = [] ∧
    ((stoppedRun.state 11).cancels ≠ [] ∧ (stoppedRun.state 11).Waking) ∧
    (∃ k, 11 ≤ k ∧ (stoppedRun.state 11).pushed <+: (stoppedRun.state k).ran) ∧
    ∃ k, 11 ≤ k ∧ 1 ≤ (stoppedRun.state k).completions 0 := by
  obtain ⟨hstates, hruns⟩ := tasks_run_waits_completed
  obtain ⟨-, hwoken, -⟩ := hstates _ (stoppedRun.reachable 11)
  obtain ⟨hran, hcompleted⟩ := hruns stoppedRun stoppedRun_fair
  have hcancels : (stoppedRun.state 11).cancels ≠ [] := List.cons_ne_nil 0 []
  refine ⟨rfl, rfl, ⟨hcancels, hwoken rfl (.inr hcancels)⟩, hran 11, ?_⟩
  exact hcompleted 11 0 (.inr (.inl trivial))

end MakeBelieve.IoContext
