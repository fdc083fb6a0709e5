import MakeBelieve.IoContext.Invariant

namespace MakeBelieve.IoContext

open Library

/-- The parts of a pass of `run`. -/
inductive Segment
  | taking
  | tasks
  | cancels
  | polling
  | batch
  | exited
  deriving DecidableEq

def Segment.next : Segment → Segment
  | taking => tasks
  | tasks => cancels
  | cancels => polling
  | polling => batch
  | batch => taking
  | exited => exited

def Phase.segment : Phase → Segment
  | top | taking => .taking
  | running _ | adding _ _ | finishing _ _ _ (.beginWait _) => .tasks
  | stopping | finishing _ _ _ .cancellations => .cancels
  | polling => .polling
  | reporting _ | rearming _ _ | finishing _ _ _ (.batch _) => .batch
  | exited => .exited

/-- A wake is pending or is about to be sent. -/
def State.Waking (s : State) : Prop :=
  0 < s.wakes ∨ (∃ i, s.submits i = .waking) ∨ ∃ w, s.stages w = .waking

/-- What is pushed is taken on this pass, or has a wake on its way. -/
structure Woken (s : State) : Prop where
  tasks : s.tasks ≠ [] →
    s.phase.segment = .batch ∨ s.phase.segment = .taking ∨ s.Waking
  cancels : s.cancels ≠ [] → s.phase.segment = .batch ∨ s.phase.segment = .taking ∨
    s.phase.segment = .tasks ∨ s.Waking

variable {s t : State} {e : Event} {i : ThreadId} {w : Wait} {ok : State → Event → Prop}

theorem Phase.segment_resume (w : Wait) (resolution : Resolution) (stage : Finish)
    (caller : Caller) : caller.resume.segment = (finishing w resolution stage caller).segment := by
  cases caller <;> rfl

theorem Phase.eq_polling {phase : Phase} (h : phase.segment = .polling) : phase = .polling := by
  cases phase with
  | polling => rfl
  | finishing w resolution stage caller => cases caller <;> cases h
  | _ => cases h

theorem Phase.eq_exited {phase : Phase} (h : phase.segment = .exited) : phase = .exited := by
  cases phase with
  | exited => rfl
  | finishing w resolution stage caller => cases caller <;> cases h
  | _ => cases h

/-- The thread goes round the parts of a pass, until it returns. -/
theorem segment_step (he : s.enabled e) :
    (s.step e).phase.segment = s.phase.segment ∨
      e.ofThread = true ∧ (s.step e).phase.segment = s.phase.segment.next ∨
      (s.step e).phase = .exited := by
  cases hthread : e.ofThread with
  | false =>
    rw [(s.step_others hthread).1]
    exact .inl rfl
  | true =>
    cases e with
    | loadStopping =>
      have hphase : s.phase = .top := he
      rw [hphase]
      exact .inl rfl
    | takeTasks =>
      have hphase : s.phase = .taking := he
      rw [hphase]
      exact .inr (.inl ⟨rfl, rfl⟩)
    | execute stopped =>
      obtain ⟨task, tasks, hphase⟩ := he
      rcases State.step_execute hphase stopped with heq | ⟨w, -, heq⟩
      · rw [heq, hphase]
        exact .inl rfl
      · rw [heq, hphase]
        exact .inl rfl
    | add failure =>
      obtain ⟨w, tasks, hphase⟩ := he
      cases failure with
      | none =>
        rw [State.step_add hphase, hphase]
        exact .inl rfl
      | some error =>
        rw [State.step_add_failed hphase, hphase]
        exact .inl rfl
    | takeCancels =>
      have hphase : s.phase = .running [] := he
      rw [hphase]
      exact .inr (.inl ⟨rfl, rfl⟩)
    | stopNext =>
      have hphase : s.phase = .stopping := he
      cases hcancelled : s.cancelled with
      | nil =>
        rw [State.step_stopNext_nil hcancelled, hphase]
        cases s.seen with
        | true => exact .inr (.inr rfl)
        | false => exact .inr (.inl ⟨rfl, rfl⟩)
      | cons w waits =>
        rw [State.step_stopNext hcancelled, hphase]
        exact .inl rfl
    | poll waits wakes =>
      have hphase : s.phase = .polling := he.1
      rw [hphase]
      exact .inr (.inl ⟨rfl, rfl⟩)
    | handleReady done =>
      obtain ⟨w, waits, hphase⟩ := he
      cases done with
      | false =>
        rw [State.step_handleReady_again hphase, hphase]
        exact .inl rfl
      | true =>
        rw [State.step_handleReady hphase, hphase]
        exact .inl rfl
    | rearm failure =>
      obtain ⟨w, waits, hphase⟩ := he
      cases failure with
      | none =>
        rw [State.step_rearm hphase, hphase]
        exact .inl rfl
      | some error =>
        rw [State.step_rearm_failed hphase, hphase]
        exact .inl rfl
    | disarm =>
      obtain ⟨w, resolution, caller, hphase, -⟩ := he
      rw [State.step_disarm hphase, hphase]
      cases caller <;> exact .inl rfl
    | finishTake =>
      obtain ⟨w, resolution, caller, hphase⟩ := he
      rw [State.step_finishTake hphase, hphase]
      cases caller <;> exact .inl rfl
    | complete =>
      obtain ⟨w, resolution, caller, hphase⟩ := he
      rw [State.step_complete hphase, hphase]
      exact .inl (Phase.segment_resume w resolution .complete caller)
    | nextPass =>
      have hphase : s.phase = .reporting [] := he
      rw [hphase]
      exact .inr (.inl ⟨rfl, rfl⟩)
    | _ => cases hthread

theorem State.Waking.keep (h : s.Waking) (hwakes : s.wakes ≤ t.wakes)
    (hsubmits : ∀ i, s.submits i = .waking → t.submits i = .waking ∨ 0 < t.wakes)
    (hstages : ∀ w, s.stages w = .waking → t.stages w = .waking ∨ 0 < t.wakes) : t.Waking := by
  rcases h with hpending | ⟨i, hi⟩ | ⟨w, hw⟩
  · exact .inl (by omega)
  · rcases hsubmits i hi with hi | hpending
    · exact .inr (.inl ⟨i, hi⟩)
    · exact .inl hpending
  · rcases hstages w hw with hw | hpending
    · exact .inr (.inr ⟨w, hw⟩)
    · exact .inl hpending

theorem State.Waking.setSubmit (h : s.Waking) (hi : s.submits i ≠ .waking)
    (hwakes : t.wakes = s.wakes) {submit : Submit}
    (hsubmits : t.submits = (s.setSubmit i submit).submits) (hstages : t.stages = s.stages) :
    t.Waking := by
  apply h.keep (Nat.le_of_eq hwakes.symm)
  · intro j hj
    have hne : j ≠ i := by
      rintro rfl
      exact hi hj
    rw [hsubmits]
    exact .inl ((Function.update_of_ne hne ..).trans hj)
  · intro w hw
    rw [hstages]
    exact .inl hw

theorem State.Waking.setStage (h : s.Waking) (hw : s.stages w ≠ .waking)
    (hwakes : t.wakes = s.wakes) (hsubmits : t.submits = s.submits) {b : Stage}
    (hstages : t.stages = (s.setStage w b).stages) : t.Waking := by
  apply h.keep (Nat.le_of_eq hwakes.symm)
  · intro i hi
    rw [hsubmits]
    exact .inl hi
  · intro x hx
    have hne : x ≠ w := by
      rintro rfl
      exact hw hx
    rw [hstages, stages_of_ne hne]
    exact .inl hx

/-- Only the poller takes a wake. -/
theorem State.Waking.step (h : s.Waking) (hs : Sound s) (he : s.enabled e)
    (hpoll : ∀ waits wakes, e ≠ .poll waits wakes) : (s.step e).Waking := by
  have hin := hs.waits.inHand
  cases e with
  | load i task =>
    refine h.setSubmit (i := i) ?_ rfl rfl rfl
    simp [he.1]
  | push i =>
    obtain ⟨task, hi⟩ := he
    rw [State.step_push hi]
    refine h.setSubmit (i := i) ?_ rfl rfl rfl
    simp [hi]
  | reload i =>
    obtain ⟨task, head, hi⟩ := he
    simp only [State.step, State.reload, hi]
    refine h.setSubmit (i := i) ?_ rfl rfl rfl
    simp [hi]
  | wake i => exact .inl (Nat.succ_pos _)
  | destroy i => exact .inr (.inl ⟨i, Function.update_self ..⟩)
  | loadCancel w =>
    have hw : s.stages w = .armed := he
    refine h.setStage (w := w) ?_ rfl rfl rfl
    simp [hw]
  | pushCancel w =>
    have hw : s.stages w = .cancelling s.cancels.head? := he
    rw [State.step_pushCancel hw]
    refine h.setStage (w := w) ?_ rfl rfl rfl
    simp [hw]
  | reloadCancel w =>
    obtain ⟨head, hw⟩ := he
    refine h.setStage (w := w) ?_ rfl rfl rfl
    simp [hw]
  | wakeCancel w => exact .inl (Nat.succ_pos _)
  | loadStopping => exact h
  | takeTasks => exact h
  | execute stopped =>
    obtain ⟨task, tasks, hphase⟩ := he
    rcases State.step_execute hphase stopped with heq | ⟨w, rfl, heq⟩
    · rw [heq]
      exact h
    · have hw : s.stages w = .idle := by
        apply hs.queued.queued w
        unfold State.taken
        rw [hphase]
        exact List.mem_append_left _ List.mem_cons_self
      rw [heq]
      refine h.setStage (w := w) ?_ rfl rfl rfl
      simp [hw]
  | add failure =>
    obtain ⟨w, tasks, hphase⟩ := he
    cases failure with
    | none =>
      rw [State.step_add hphase]
      exact h
    | some error =>
      rw [State.step_add_failed hphase]
      exact h
  | takeCancels =>
    obtain ⟨registered, cancelled, heq⟩ := s.takeCancels_frame
    simp only [State.step]
    rw [heq]
    exact h
  | stopNext =>
    cases hcancelled : s.cancelled with
    | nil =>
      rw [State.step_stopNext_nil hcancelled]
      exact h
    | cons w waits =>
      rw [State.step_stopNext hcancelled]
      exact h
  | poll waits wakes => exact absurd rfl (hpoll waits wakes)
  | handleReady done =>
    obtain ⟨w, waits, hphase⟩ := he
    cases done with
    | false =>
      rw [State.step_handleReady_again hphase]
      exact h
    | true =>
      rw [State.step_handleReady hphase]
      exact h
  | rearm failure =>
    obtain ⟨w, waits, hphase⟩ := he
    cases failure with
    | none =>
      rw [State.step_rearm hphase]
      exact h
    | some error =>
      rw [State.step_rearm_failed hphase]
      exact h
  | disarm =>
    obtain ⟨w, resolution, caller, hphase, -, hw⟩ := he
    rw [State.step_disarm hphase]
    exact h.setStage hw rfl rfl rfl
  | finishTake =>
    obtain ⟨w, resolution, caller, hphase⟩ := he
    obtain ⟨registered, cancelled, heq⟩ := s.takeCancels_frame
    rw [State.step_finishTake hphase, heq]
    exact h
  | complete =>
    obtain ⟨w, resolution, caller, hphase⟩ := he
    unfold State.InHand at hin
    rw [hphase] at hin
    rw [State.step_complete hphase]
    refine h.setStage (w := w) ?_ rfl rfl rfl
    simp [hin.1]
  | nextPass => exact h

theorem Woken.init : Woken {} := by
  constructor
  · intro h
    exact absurd rfl h
  · intro h
    exact absurd rfl h

theorem Woken.keep (h : Woken s) (htasks : t.tasks = s.tasks) (hcancels : t.cancels = s.cancels)
    (hsegment : t.phase.segment = s.phase.segment) (hwaking : s.Waking → t.Waking) : Woken t := by
  constructor
  · intro hne
    rw [htasks] at hne
    rw [hsegment]
    rcases h.tasks hne with hbatch | htaking | hwake
    · exact .inl hbatch
    · exact .inr (.inl htaking)
    · exact .inr (.inr (hwaking hwake))
  · intro hne
    rw [hcancels] at hne
    rw [hsegment]
    rcases h.cancels hne with hbatch | htaking | hrunning | hwake
    · exact .inl hbatch
    · exact .inr (.inl htaking)
    · exact .inr (.inr (.inl hrunning))
    · exact .inr (.inr (.inr (hwaking hwake)))

/-- Past the taking of tasks, or of both, what is pushed since has a wake on its way. -/
theorem Woken.waking_tasks (h : Woken s) (hne : s.tasks ≠ []) (hbatch : s.phase.segment ≠ .batch)
    (htaking : s.phase.segment ≠ .taking) : s.Waking :=
  ((h.tasks hne).resolve_left hbatch).resolve_left htaking

theorem Woken.waking_cancels (h : Woken s) (hne : s.cancels ≠ [])
    (hbatch : s.phase.segment ≠ .batch) (htaking : s.phase.segment ≠ .taking)
    (htasks : s.phase.segment ≠ .tasks) : s.Waking :=
  (((h.cancels hne).resolve_left hbatch).resolve_left htaking).resolve_left htasks

theorem Woken.step (h : Woken s) (hs : Sound s) (he : s.enabled e) : Woken (s.step e) := by
  by_cases hpoll : ∃ waits wakes, e = .poll waits wakes
  · obtain ⟨waits, wakes, rfl⟩ := hpoll
    exact ⟨fun _ => .inl rfl, fun _ => .inl rfl⟩
  have hwaking : s.Waking → (s.step e).Waking := by
    intro hwake
    apply hwake.step hs he
    intro waits wakes heq
    exact hpoll ⟨waits, wakes, heq⟩
  have hsame : (s.step e).tasks = s.tasks → (s.step e).cancels = s.cancels →
      (s.step e).phase.segment = s.phase.segment → Woken (s.step e) := by
    intro htasks hcancels hsegment
    exact h.keep htasks hcancels hsegment hwaking
  cases e with
  | push i =>
    obtain ⟨task, hi⟩ := he
    rw [State.step_push hi] at hwaking ⊢
    constructor
    · intro _
      cases htasks : s.tasks with
      | nil =>
        refine .inr (.inr (.inr (.inl ⟨i, ?_⟩)))
        simp [State.setSubmit]
      | cons first rest =>
        have hne : s.tasks ≠ [] := by
          simp [htasks]
        rw [htasks] at hwaking
        exact (h.tasks hne).imp id (Or.imp id hwaking)
    · intro hne
      exact (h.cancels hne).imp id (Or.imp id (Or.imp id hwaking))
  | pushCancel w =>
    rw [State.step_pushCancel he] at hwaking ⊢
    constructor
    · intro hne
      exact (h.tasks hne).imp id (Or.imp id hwaking)
    · intro _
      cases hcancels : s.cancels with
      | nil =>
        refine .inr (.inr (.inr (.inr (.inr ⟨w, ?_⟩))))
        simp [State.setStage]
      | cons first rest =>
        have hne : s.cancels ≠ [] := by
          simp [hcancels]
        rw [hcancels] at hwaking
        exact (h.cancels hne).imp id (Or.imp id (Or.imp id hwaking))
  | reload i =>
    obtain ⟨task, head, hi⟩ := he
    simp only [State.step, State.reload, hi] at hsame ⊢
    exact hsame rfl rfl rfl
  | loadStopping =>
    have hphase : s.phase = .top := he
    apply hsame rfl rfl
    rw [hphase]
    rfl
  | takeTasks =>
    constructor
    · intro hne
      exact absurd rfl hne
    · intro _
      exact .inr (.inr (.inl rfl))
  | execute stopped =>
    obtain ⟨task, tasks, hphase⟩ := he
    rcases State.step_execute hphase stopped with heq | ⟨w, -, heq⟩
    · rw [heq, hphase] at hsame
      rw [heq]
      exact hsame rfl rfl rfl
    · rw [heq, hphase] at hsame
      rw [heq]
      exact hsame rfl rfl rfl
  | add failure =>
    obtain ⟨w, tasks, hphase⟩ := he
    cases failure with
    | none =>
      rw [State.step_add hphase, hphase] at hsame
      rw [State.step_add hphase]
      exact hsame rfl rfl rfl
    | some error =>
      rw [State.step_add_failed hphase, hphase] at hsame
      rw [State.step_add_failed hphase]
      exact hsame rfl rfl rfl
  | takeCancels =>
    have hphase : s.phase = .running [] := he
    obtain ⟨registered, cancelled, heq⟩ := s.takeCancels_frame
    simp only [State.step] at hwaking ⊢
    rw [heq] at hwaking ⊢
    constructor
    · intro hne
      refine .inr (.inr (hwaking (h.waking_tasks hne ?_ ?_)))
      · simp [hphase, Phase.segment]
      · simp [hphase, Phase.segment]
    · intro hne
      exact absurd rfl hne
  | stopNext =>
    have hphase : s.phase = .stopping := he
    cases hcancelled : s.cancelled with
    | nil =>
      rw [State.step_stopNext_nil hcancelled] at hwaking ⊢
      constructor
      · intro hne
        refine .inr (.inr (hwaking (h.waking_tasks hne ?_ ?_)))
        · simp [hphase, Phase.segment]
        · simp [hphase, Phase.segment]
      · intro hne
        refine .inr (.inr (.inr (hwaking (h.waking_cancels hne ?_ ?_ ?_))))
        · simp [hphase, Phase.segment]
        · simp [hphase, Phase.segment]
        · simp [hphase, Phase.segment]
    | cons w waits =>
      rw [State.step_stopNext hcancelled, hphase] at hsame
      rw [State.step_stopNext hcancelled]
      exact hsame rfl rfl rfl
  | poll waits wakes => exact absurd ⟨waits, wakes, rfl⟩ hpoll
  | handleReady done =>
    obtain ⟨w, waits, hphase⟩ := he
    cases done with
    | false =>
      rw [State.step_handleReady_again hphase, hphase] at hsame
      rw [State.step_handleReady_again hphase]
      exact hsame rfl rfl rfl
    | true =>
      rw [State.step_handleReady hphase, hphase] at hsame
      rw [State.step_handleReady hphase]
      exact hsame rfl rfl rfl
  | rearm failure =>
    obtain ⟨w, waits, hphase⟩ := he
    cases failure with
    | none =>
      rw [State.step_rearm hphase, hphase] at hsame
      rw [State.step_rearm hphase]
      exact hsame rfl rfl rfl
    | some error =>
      rw [State.step_rearm_failed hphase, hphase] at hsame
      rw [State.step_rearm_failed hphase]
      exact hsame rfl rfl rfl
  | disarm =>
    obtain ⟨w, resolution, caller, hphase, -⟩ := he
    rw [State.step_disarm hphase] at hsame ⊢
    apply hsame rfl rfl
    rw [hphase]
    cases caller <;> rfl
  | finishTake =>
    obtain ⟨w, resolution, caller, hphase⟩ := he
    obtain ⟨registered, cancelled, heq⟩ := s.takeCancels_frame
    have hsegment : (Phase.finishing w resolution .complete caller).segment =
        s.phase.segment := by
      rw [hphase]
      cases caller <;> rfl
    rw [State.step_finishTake hphase, heq] at hwaking ⊢
    constructor
    · intro hne
      dsimp only
      rw [hsegment]
      exact (h.tasks hne).imp id (Or.imp id hwaking)
    · intro hne
      exact absurd rfl hne
  | complete =>
    obtain ⟨w, resolution, caller, hphase⟩ := he
    rw [State.step_complete hphase] at hsame ⊢
    apply hsame rfl rfl
    rw [hphase]
    exact Phase.segment_resume w resolution .complete caller
  | nextPass => exact ⟨fun _ => .inr (.inl rfl), fun _ => .inr (.inl rfl)⟩
  | _ => exact hsame rfl rfl rfl

theorem woken (h : machine.Reachable ok s) : Woken s := by
  apply h.invariant_under (fun s => sound)
  · rintro s rfl
    exact Woken.init
  · intro s e hs h he _
    exact h.step hs he

end MakeBelieve.IoContext
