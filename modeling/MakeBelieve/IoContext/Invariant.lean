import MakeBelieve.IoContext.Tasks

namespace MakeBelieve.IoContext

open Library

variable {s t : State} {e : Event} {i : ThreadId} {w : Wait}

theorem Waits.held_begun (h : Waits s) (hw : s.phase.held = some w) : s.stages w ≠ .idle := by
  intro hidle
  exact (h.idle w hidle).2 hw

/-- A wait that is cancelled after all is in a stack or a list, and otherwise each is where it
was. -/
theorem Waits.step (h : Waits s) (hq : Queued s) (he : s.enabled e) : Waits (s.step e) := by
  have hsame : ∀ t : State, t.registered = s.registered → t.cancelled = s.cancelled →
      t.cancels = s.cancels → t.stages = s.stages → t.polled = s.polled → t.phase = s.phase →
      Waits t := by
    intro t hregistered hcancelled hcancels hstages hpolled hphase
    apply h.rephase hregistered hcancelled hcancels hstages hpolled
    · rw [hphase]
    · have hin := h.inHand
      unfold State.InHand State.listed at hin ⊢
      rw [hphase, hregistered, hcancelled, hcancels, hstages]
      exact hin
    · rw [hphase]
      exact h.batch
    · rw [hphase]
      exact h.reported
  have hnone : ∀ x ∈ ([] : List Wait), s.polled x = true := by simp
  cases e with
  | load i task => exact hsame _ rfl rfl rfl rfl rfl rfl
  | push i =>
    obtain ⟨task, hi⟩ := he
    rw [State.step_push hi]
    exact hsame _ rfl rfl rfl rfl rfl rfl
  | reload i =>
    obtain ⟨task, head, hi⟩ := he
    simp only [State.step, State.reload, hi]
    exact hsame _ rfl rfl rfl rfl rfl rfl
  | wake i => exact hsame _ rfl rfl rfl rfl rfl rfl
  | destroy i => exact hsame _ rfl rfl rfl rfl rfl rfl
  | loadCancel w =>
    exact h.goOn (b := .cancelling s.cancels.head?) he (by simp) (by simp) (by simp) (by simp)
      (fun _ => trivial) (fun hfired => hfired.elim) s.wakes
  | pushCancel w =>
    rw [State.step_pushCancel he]
    apply h.pushCancel he
    split
    · trivial
    · trivial
  | reloadCancel w =>
    obtain ⟨head, hw⟩ := he
    exact h.goOn (b := .cancelling s.cancels.head?) hw (by simp) (by simp) (by simp) (by simp)
      (fun _ => trivial) (fun hfired => hfired.elim) s.wakes
  | wakeCancel w =>
    exact h.goOn (b := .cancelled) he (by simp) (by simp) (by simp) (by simp)
      (fun hunfired => hunfired.elim) (fun _ => trivial) (s.wakes + 1)
  | loadStopping =>
    have hphase : s.phase = .top := he
    refine h.rephase rfl rfl rfl rfl rfl ?_ trivial List.nodup_nil hnone
    rw [hphase]
    rfl
  | takeTasks =>
    have hphase : s.phase = .taking := he
    refine h.rephase rfl rfl rfl rfl rfl ?_ trivial List.nodup_nil hnone
    rw [hphase]
    rfl
  | execute stopped =>
    obtain ⟨task, tasks, hphase⟩ := he
    have hheld : s.phase.held = none := by
      rw [hphase]
      rfl
    rcases State.step_execute hphase stopped with heq | ⟨w, rfl, heq⟩
    · rw [heq]
      exact h.rephase rfl rfl rfl rfl rfl hheld.symm trivial List.nodup_nil hnone
    · rw [heq]
      apply h.begin _ hheld
      apply hq.queued w
      unfold State.taken
      rw [hphase]
      exact List.mem_append_left _ List.mem_cons_self
  | add failure =>
    obtain ⟨w, tasks, hphase⟩ := he
    cases failure with
    | none =>
      rw [State.step_add hphase]
      exact h.add hphase
    | some error =>
      have hin := h.inHand
      unfold State.InHand at hin
      rw [hphase] at hin
      rw [State.step_add_failed hphase]
      refine h.rephase rfl rfl rfl rfl rfl ?_ hin.2 List.nodup_nil hnone
      rw [hphase]
      rfl
  | takeCancels =>
    have hphase : s.phase = .running [] := he
    apply h.takeCancels
    · rw [hphase]
      rfl
    · rw [hphase]
      rfl
    · trivial
  | stopNext =>
    have hphase : s.phase = .stopping := he
    have hheld : s.phase.held = none := by
      rw [hphase]
      rfl
    cases hcancelled : s.cancelled with
    | nil =>
      rw [State.step_stopNext_nil hcancelled]
      cases s.seen with
      | true => exact h.rephase rfl rfl rfl rfl rfl hheld.symm trivial List.nodup_nil hnone
      | false => exact h.rephase rfl rfl rfl rfl rfl hheld.symm hcancelled List.nodup_nil hnone
    | cons w waits =>
      rw [State.step_stopNext hcancelled]
      refine h.hold ?_ hheld List.nodup_nil (fun x hx => by cases hx)
      apply List.mem_append_right
      rw [hcancelled]
      exact List.mem_cons_self
  | poll waits wakes =>
    obtain ⟨hphase, -, hnodup, hpolled, -⟩ := he
    refine h.rephase rfl rfl rfl rfl rfl ?_ trivial hnodup hpolled
    rw [hphase]
    rfl
  | handleReady done =>
    obtain ⟨w, waits, hphase⟩ := he
    have hheld : s.phase.held = none := by
      rw [hphase]
      rfl
    have hbatch : (w :: waits).Nodup := by
      have hnodup := h.batch
      rw [hphase] at hnodup
      exact hnodup
    have hpolled : ∀ x ∈ w :: waits, s.polled x = true := by
      have hreported := h.reported
      rw [hphase] at hreported
      exact hreported
    cases done with
    | false =>
      rw [State.step_handleReady_again hphase]
      exact h.rephase rfl rfl rfl rfl rfl hheld.symm trivial hbatch hpolled
    | true =>
      obtain ⟨hnot, hnodup⟩ := List.nodup_cons.mp hbatch
      rw [State.step_handleReady hphase]
      refine h.hold ((h.polled w).mp (hpolled w List.mem_cons_self)).1 hheld hnodup ?_
      intro x hx
      refine ⟨hpolled x (List.mem_cons_of_mem w hx), ?_⟩
      rintro rfl
      exact hnot hx
  | rearm failure =>
    obtain ⟨w, waits, hphase⟩ := he
    have hheld : s.phase.held = none := by
      rw [hphase]
      rfl
    have hbatch : (w :: waits).Nodup := by
      have hnodup := h.batch
      rw [hphase] at hnodup
      exact hnodup
    have hpolled : ∀ x ∈ w :: waits, s.polled x = true := by
      have hreported := h.reported
      rw [hphase] at hreported
      exact hreported
    obtain ⟨hnot, hnodup⟩ := List.nodup_cons.mp hbatch
    cases failure with
    | none =>
      rw [State.step_rearm hphase]
      refine h.rephase rfl rfl rfl rfl rfl hheld.symm trivial hnodup ?_
      intro x hx
      exact hpolled x (List.mem_cons_of_mem w hx)
    | some error =>
      rw [State.step_rearm_failed hphase]
      refine h.hold ((h.polled w).mp (hpolled w List.mem_cons_self)).1 hheld hnodup ?_
      intro x hx
      refine ⟨hpolled x (List.mem_cons_of_mem w hx), ?_⟩
      rintro rfl
      exact hnot hx
  | disarm =>
    obtain ⟨w, resolution, caller, hphase, -⟩ := he
    rw [State.step_disarm hphase]
    exact h.disarm hphase
  | finishTake =>
    obtain ⟨w, resolution, caller, hphase⟩ := he
    have hin := h.inHand
    unfold State.InHand at hin
    rw [hphase] at hin
    rw [State.step_finishTake hphase]
    apply h.takeCancels
    · rw [hphase]
      rfl
    · rw [hphase, Phase.batch_finishing, Phase.batch_finishing]
    · rw [h.takeCancels_eq]
      exact ⟨hin, List.not_mem_nil⟩
  | complete =>
    obtain ⟨w, resolution, caller, hphase⟩ := he
    rw [State.step_complete hphase]
    exact h.complete hphase _
  | nextPass =>
    have hphase : s.phase = .reporting [] := he
    refine h.rephase rfl rfl rfl rfl rfl ?_ trivial List.nodup_nil hnone
    rw [hphase]
    rfl

/-- No event takes a task from the queue, or puts one there, out of turn. -/
theorem Queued.step (h : Queued s) (hw : Waits s) (he : s.enabled e) : Queued (s.step e) := by
  have hstage : ∀ (w : Wait) (b : Stage), s.stages w ≠ .idle → ∀ x, s.stages x = .idle →
      (s.setStage w b).stages x = .idle := by
    intro w b hidle x hx
    rw [stages_of_ne]
    · exact hx
    · rintro rfl
      exact hidle hx
  have hsame : ∀ t : State, t.pushed = s.pushed → t.ran = s.ran → t.taken = s.taken →
      t.tasks = s.tasks → t.submits = s.submits →
      (∀ w, s.stages w = .idle → t.stages w = .idle) → t.stopping = s.stopping →
      t.seen = s.seen → (t.phase = .exited → t.seen = true) → Queued t := by
    intro t hpushed hran htaken htasks hsubmits hstages hstopping hseen hexited
    apply h.keep hpushed hran htaken htasks _ hstages hstopping hseen hexited
    intro i task head hi
    rw [hsubmits] at hi
    exact ⟨head, hi⟩
  cases e with
  | load i task =>
    obtain ⟨hidle, hstopping, hstart⟩ := he
    exact h.load hidle hstopping hstart _
  | push i =>
    obtain ⟨task, hi⟩ := he
    rw [State.step_push hi]
    apply h.push hi
    intro other head
    split
    · simp
    · simp
  | reload i =>
    obtain ⟨task, head, hi⟩ := he
    simp only [State.step, State.reload, hi]
    apply h.submit s.wakes
    intro other head' heq
    cases heq
    exact ⟨head, hi⟩
  | wake i =>
    apply h.submit (s.wakes + 1)
    intro other head heq
    cases heq
  | destroy i => exact h.destroy he.2
  | loadCancel w =>
    have hw : s.stages w = .armed := he
    refine hsame _ rfl rfl rfl rfl rfl ?_ rfl rfl h.exited
    apply hstage
    simp [hw]
  | pushCancel w =>
    rw [State.step_pushCancel he]
    refine hsame _ rfl rfl rfl rfl rfl ?_ rfl rfl h.exited
    apply hstage
    simp [show s.stages w = _ from he]
  | reloadCancel w =>
    obtain ⟨head, hw⟩ := he
    refine hsame _ rfl rfl rfl rfl rfl ?_ rfl rfl h.exited
    apply hstage
    simp [hw]
  | wakeCancel w =>
    have hw : s.stages w = .waking := he
    refine hsame _ rfl rfl rfl rfl rfl ?_ rfl rfl h.exited
    apply hstage
    simp [hw]
  | loadStopping => exact h.loadStopping he
  | takeTasks => exact h.takeTasks he
  | execute stopped =>
    obtain ⟨task, tasks, hphase⟩ := he
    rcases State.step_execute hphase stopped with heq | ⟨w, rfl, heq⟩
    · rw [heq]
      exact h.execute hphase rfl rfl rfl rfl rfl (fun _ _ hx => hx) rfl rfl (fun heq => by cases heq)
    · rw [heq]
      refine h.execute hphase rfl rfl rfl rfl rfl ?_ rfl rfl (fun heq => by cases heq)
      intro x hne hx
      have hx' : x ≠ w := by
        rintro rfl
        exact hne rfl
      exact (stages_of_ne hx').trans hx
  | add failure =>
    obtain ⟨w, tasks, hphase⟩ := he
    cases failure with
    | none =>
      rw [State.step_add hphase]
      refine hsame _ rfl rfl ?_ rfl rfl (fun _ hx => hx) rfl rfl (fun heq => by cases heq)
      simp only [State.taken, hphase]
    | some error =>
      rw [State.step_add_failed hphase]
      refine hsame _ rfl rfl ?_ rfl rfl (fun _ hx => hx) rfl rfl (fun heq => by cases heq)
      simp only [State.taken, hphase]
  | takeCancels =>
    have hphase : s.phase = .running [] := he
    obtain ⟨registered, cancelled, heq⟩ := s.takeCancels_frame
    simp only [State.step]
    rw [heq]
    refine hsame _ rfl rfl ?_ rfl rfl (fun _ hx => hx) rfl rfl (fun heq => by cases heq)
    simp only [State.taken, hphase]
  | stopNext =>
    have hphase : s.phase = .stopping := he
    cases hcancelled : s.cancelled with
    | nil =>
      rw [State.step_stopNext_nil hcancelled]
      refine hsame _ rfl rfl ?_ rfl rfl (fun _ hx => hx) rfl rfl ?_
      · cases s.seen <;> simp [State.taken, hphase]
      · intro hexited
        by_contra hseen
        have hseen : s.seen ≠ true := hseen
        simp [hseen] at hexited
    | cons w waits =>
      rw [State.step_stopNext hcancelled]
      refine hsame _ rfl rfl ?_ rfl rfl (fun _ hx => hx) rfl rfl (fun heq => by cases heq)
      simp only [State.taken, hphase]
  | poll waits wakes =>
    obtain ⟨hphase, -⟩ := he
    refine hsame _ rfl rfl ?_ rfl rfl (fun _ hx => hx) rfl rfl (fun heq => by cases heq)
    simp only [State.taken, State.step, hphase]
  | handleReady done =>
    obtain ⟨w, waits, hphase⟩ := he
    cases done with
    | false =>
      rw [State.step_handleReady_again hphase]
      refine hsame _ rfl rfl ?_ rfl rfl (fun _ hx => hx) rfl rfl (fun heq => by cases heq)
      simp only [State.taken, hphase]
    | true =>
      rw [State.step_handleReady hphase]
      refine hsame _ rfl rfl ?_ rfl rfl (fun _ hx => hx) rfl rfl (fun heq => by cases heq)
      simp only [State.taken, hphase]
  | rearm failure =>
    obtain ⟨w, waits, hphase⟩ := he
    cases failure with
    | none =>
      rw [State.step_rearm hphase]
      refine hsame _ rfl rfl ?_ rfl rfl (fun _ hx => hx) rfl rfl (fun heq => by cases heq)
      simp only [State.taken, hphase]
    | some error =>
      rw [State.step_rearm_failed hphase]
      refine hsame _ rfl rfl ?_ rfl rfl (fun _ hx => hx) rfl rfl (fun heq => by cases heq)
      simp only [State.taken, hphase]
  | disarm =>
    obtain ⟨w, resolution, caller, hphase, -⟩ := he
    have hidle : s.stages w ≠ .idle := hw.held_begun (by rw [hphase]; rfl)
    rw [State.step_disarm hphase]
    refine hsame _ rfl rfl ?_ rfl rfl (hstage w .disarmed hidle) rfl rfl (fun heq => by cases heq)
    cases caller <;> simp only [State.taken, hphase]
  | finishTake =>
    obtain ⟨w, resolution, caller, hphase⟩ := he
    obtain ⟨registered, cancelled, heq⟩ := s.takeCancels_frame
    rw [State.step_finishTake hphase, heq]
    refine hsame _ rfl rfl ?_ rfl rfl (fun _ hx => hx) rfl rfl (fun heq => by cases heq)
    cases caller <;> simp only [State.taken, hphase]
  | complete =>
    obtain ⟨w, resolution, caller, hphase⟩ := he
    have hidle : s.stages w ≠ .idle := hw.held_begun (by rw [hphase]; rfl)
    rw [State.step_complete hphase]
    refine hsame _ rfl rfl ?_ rfl rfl (hstage w .idle hidle) rfl rfl ?_
    · cases caller <;> simp only [State.taken, hphase, Caller.resume]
    · intro hexited
      cases caller <;> cases hexited
  | nextPass =>
    have hphase : s.phase = .reporting [] := he
    refine hsame _ rfl rfl ?_ rfl rfl (fun _ hx => hx) rfl rfl (fun heq => by cases heq)
    simp only [State.taken, State.step, hphase]

/-- Every wait begun is completed but for one that is under way. -/
def Counted (s : State) : Prop :=
  ∀ w, s.begun.count w =
    (s.completed.map Prod.fst).count w + if s.stages w = .idle then 0 else 1

theorem Counted.begin (h : Counted s) (hw : s.stages w = .idle)
    (hbegun : t.begun = s.begun ++ [w]) (hcompleted : t.completed = s.completed)
    (hstages : t.stages = (s.setStage w .armed).stages) : Counted t := by
  intro x
  have hx := h x
  rw [hbegun, hcompleted, hstages, List.count_append]
  by_cases heq : x = w
  · subst heq
    rw [hw] at hx
    rw [State.stages_self, hx]
    simp
  · rw [stages_of_ne heq, hx, List.count_singleton]
    simp [Ne.symm heq]

theorem Counted.complete (h : Counted s) {resolution : Resolution} (hw : s.stages w ≠ .idle)
    (hbegun : t.begun = s.begun) (hcompleted : t.completed = s.completed ++ [(w, resolution)])
    (hstages : t.stages = (s.setStage w .idle).stages) : Counted t := by
  intro x
  have hx := h x
  rw [hbegun, hcompleted, hstages, List.map_append, List.count_append]
  by_cases heq : x = w
  · subst heq
    rw [if_neg hw] at hx
    rw [State.stages_self, hx]
    simp
  · rw [stages_of_ne heq, hx]
    simp [Ne.symm heq]

/-- One wait is begun, or one is completed, or those that are under way are the same. -/
theorem step_waits (hw : Waits s) (hq : Queued s) (he : s.enabled e) :
    ((s.step e).begun = s.begun ∧ (s.step e).completed = s.completed ∧
        ∀ x, (s.step e).stages x = .idle ↔ s.stages x = .idle) ∨
      (∃ w, s.stages w = .idle ∧ (s.step e).begun = s.begun ++ [w] ∧
        (s.step e).completed = s.completed ∧
        (s.step e).stages = (s.setStage w .armed).stages) ∨
      ∃ w resolution, s.stages w ≠ .idle ∧ (s.step e).begun = s.begun ∧
        (s.step e).completed = s.completed ++ [(w, resolution)] ∧
        (s.step e).stages = (s.setStage w .idle).stages := by
  have hmoved : ∀ (w : Wait) (b : Stage), s.stages w ≠ .idle → b ≠ .idle →
      ∀ x, (s.setStage w b).stages x = .idle ↔ s.stages x = .idle := by
    intro w b hw hb x
    by_cases hx : x = w
    · subst hx
      rw [State.stages_self]
      exact iff_of_false hb hw
    · rw [stages_of_ne hx]
  cases e with
  | push i =>
    obtain ⟨task, hi⟩ := he
    rw [State.step_push hi]
    exact .inl ⟨rfl, rfl, fun x => Iff.rfl⟩
  | reload i =>
    obtain ⟨task, head, hi⟩ := he
    simp only [State.step, State.reload, hi]
    exact .inl ⟨rfl, rfl, fun x => Iff.rfl⟩
  | loadCancel w =>
    have hw : s.stages w = .armed := he
    refine .inl ⟨rfl, rfl, hmoved w (.cancelling s.cancels.head?) ?_ ?_⟩
    · simp [hw]
    · simp
  | pushCancel w =>
    have hw : s.stages w = .cancelling s.cancels.head? := he
    rw [State.step_pushCancel hw]
    refine .inl ⟨rfl, rfl, hmoved w _ ?_ ?_⟩
    · simp [hw]
    · split
      · simp
      · simp
  | reloadCancel w =>
    obtain ⟨head, hw⟩ := he
    refine .inl ⟨rfl, rfl, hmoved w (.cancelling s.cancels.head?) ?_ ?_⟩
    · simp [hw]
    · simp
  | wakeCancel w =>
    have hw : s.stages w = .waking := he
    refine .inl ⟨rfl, rfl, hmoved w .cancelled ?_ ?_⟩
    · simp [hw]
    · simp
  | execute stopped =>
    obtain ⟨task, tasks, hphase⟩ := he
    rcases State.step_execute hphase stopped with heq | ⟨w, rfl, heq⟩
    · rw [heq]
      exact .inl ⟨rfl, rfl, fun x => Iff.rfl⟩
    · rw [heq]
      refine .inr (.inl ⟨w, ?_, rfl, rfl, rfl⟩)
      apply hq.queued w
      unfold State.taken
      rw [hphase]
      exact List.mem_append_left _ List.mem_cons_self
  | add failure =>
    obtain ⟨w, tasks, hphase⟩ := he
    cases failure with
    | none =>
      rw [State.step_add hphase]
      exact .inl ⟨rfl, rfl, fun x => Iff.rfl⟩
    | some error =>
      rw [State.step_add_failed hphase]
      exact .inl ⟨rfl, rfl, fun x => Iff.rfl⟩
  | takeCancels =>
    obtain ⟨registered, cancelled, heq⟩ := s.takeCancels_frame
    simp only [State.step]
    rw [heq]
    exact .inl ⟨rfl, rfl, fun x => Iff.rfl⟩
  | stopNext =>
    cases hcancelled : s.cancelled with
    | nil =>
      rw [State.step_stopNext_nil hcancelled]
      exact .inl ⟨rfl, rfl, fun x => Iff.rfl⟩
    | cons w waits =>
      rw [State.step_stopNext hcancelled]
      exact .inl ⟨rfl, rfl, fun x => Iff.rfl⟩
  | handleReady done =>
    obtain ⟨w, waits, hphase⟩ := he
    cases done with
    | false =>
      rw [State.step_handleReady_again hphase]
      exact .inl ⟨rfl, rfl, fun x => Iff.rfl⟩
    | true =>
      rw [State.step_handleReady hphase]
      exact .inl ⟨rfl, rfl, fun x => Iff.rfl⟩
  | rearm failure =>
    obtain ⟨w, waits, hphase⟩ := he
    cases failure with
    | none =>
      rw [State.step_rearm hphase]
      exact .inl ⟨rfl, rfl, fun x => Iff.rfl⟩
    | some error =>
      rw [State.step_rearm_failed hphase]
      exact .inl ⟨rfl, rfl, fun x => Iff.rfl⟩
  | disarm =>
    obtain ⟨w, resolution, caller, hphase, -⟩ := he
    have hidle : s.stages w ≠ .idle := hw.held_begun (by rw [hphase]; rfl)
    rw [State.step_disarm hphase]
    exact .inl ⟨rfl, rfl, hmoved w .disarmed hidle (by simp)⟩
  | finishTake =>
    obtain ⟨w, resolution, caller, hphase⟩ := he
    obtain ⟨registered, cancelled, heq⟩ := s.takeCancels_frame
    rw [State.step_finishTake hphase, heq]
    exact .inl ⟨rfl, rfl, fun x => Iff.rfl⟩
  | complete =>
    obtain ⟨w, resolution, caller, hphase⟩ := he
    have hidle : s.stages w ≠ .idle := hw.held_begun (by rw [hphase]; rfl)
    rw [State.step_complete hphase]
    exact .inr (.inr ⟨w, resolution, hidle, rfl, rfl, rfl⟩)
  | _ => exact .inl ⟨rfl, rfl, fun x => Iff.rfl⟩

theorem Counted.step (h : Counted s) (hw : Waits s) (hq : Queued s) (he : s.enabled e) :
    Counted (s.step e) := by
  rcases step_waits hw hq he with ⟨hbegun, hcompleted, hstages⟩ |
    ⟨w, hidle, hbegun, hcompleted, hstages⟩ | ⟨w, resolution, hidle, hbegun, hcompleted, hstages⟩
  · intro x
    rw [hbegun, hcompleted, h x]
    simp only [hstages]
  · exact h.begin hidle hbegun hcompleted hstages
  · exact h.complete hidle hbegun hcompleted hstages

/-- What holds of the context whatever the interleaving. -/
structure Sound (s : State) : Prop where
  waits : Waits s
  queued : Queued s
  counted : Counted s

theorem Sound.step (h : Sound s) (he : s.enabled e) : Sound (s.step e) :=
  ⟨h.waits.step h.queued he, h.queued.step h.waits he, h.counted.step h.waits h.queued he⟩

theorem sound {ok : State → Event → Prop} (h : machine.Reachable ok s) : Sound s := by
  apply h.invariant
  · rintro s rfl
    exact ⟨Waits.init, Queued.init, fun w => rfl⟩
  · intro s e h he _
    exact h.step he

end MakeBelieve.IoContext
