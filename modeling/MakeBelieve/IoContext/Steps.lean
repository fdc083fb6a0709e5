import MakeBelieve.IoContext.State
import Mathlib.Data.List.Nodup

namespace MakeBelieve.IoContext

open Library

def Event.ofThread : Event → Bool
  | .load .. | .push _ | .reload _ | .wake _ | .loadCancel _ | .pushCancel _ | .reloadCancel _
  | .wakeCancel _ | .destroy _ => false
  | _ => true

/-- The wait the thread has in hand, which may be in no list. -/
def Phase.held : Phase → Option Wait
  | adding w _ | finishing w _ _ _ => some w
  | _ => none

/-- The waits the poller has reported and the thread has not come to. -/
def Phase.batch : Phase → List Wait
  | reporting waits | finishing _ _ _ (.batch waits) => waits
  | rearming w waits => w :: waits
  | _ => []

namespace State

variable {s : State} {e : Event}

theorem reverseOnto_eq (pushed tasks : List Task) :
    reverseOnto pushed tasks = pushed.reverse ++ tasks := by
  induction pushed generalizing tasks with
  | nil => rfl
  | cons task pushed ih => simp [reverseOnto, ih]

theorem foldl_cancelOne (ws : List Wait) (s : State) (hnodup : (s.registered ++ s.cancelled).Nodup)
    (hws : ws.Nodup) (hapart : ∀ w ∈ ws, w ∉ s.cancelled) :
    ws.foldl cancelOne s =
      { s with
        registered := s.registered.filter (fun w => w ∉ ws)
        cancelled := s.cancelled ++ ws } := by
  induction ws generalizing s with
  | nil => simp
  | cons w ws ih =>
    obtain ⟨hw, hws⟩ := List.nodup_cons.mp hws
    have hnot : w ∉ s.cancelled := hapart w List.mem_cons_self
    have hregistered : s.registered.Nodup := (List.nodup_append.mp hnodup).1
    have hone : s.cancelOne w =
        { s with
          registered := s.registered.filter (fun x => x != w)
          cancelled := s.cancelled ++ [w] } := by
      rw [cancelOne, List.erase_of_not_mem hnot, hregistered.erase_eq_filter]
    have hapart' : ∀ x ∈ ws, x ∉ s.cancelled ++ [w] := by
      intro x hx hmem
      rcases List.mem_append.mp hmem with hmem | hmem
      · exact hapart x (List.mem_cons_of_mem w hx) hmem
      · exact hw (List.mem_singleton.mp hmem ▸ hx)
    have hnodup' : (s.registered.filter (fun x => x != w) ++ (s.cancelled ++ [w])).Nodup := by
      rw [← List.append_assoc]
      refine List.nodup_append.mpr ⟨hnodup.sublist (List.filter_sublist.append_right _), by simp, ?_⟩
      rintro x hx y hy rfl
      obtain rfl := List.mem_singleton.mp hy
      simp [hnot] at hx
    rw [List.foldl_cons, hone, ih _ hnodup' hws hapart']
    simp only [List.filter_filter, List.append_assoc, List.singleton_append]
    congr 1
    refine List.filter_congr fun x _ => ?_
    by_cases hx : x = w <;> simp [hx]

/-- Taking the cancellations changes nothing but where the waits are. -/
theorem takeCancels_frame (s : State) : ∃ registered cancelled, s.takeCancels =
    { s with
      cancels := []
      registered
      cancelled } := by
  have hfold : ∀ (ws : List Wait) (t : State), ∃ registered cancelled, ws.foldl cancelOne t =
      { t with
        registered
        cancelled } := by
    intro ws
    induction ws with
    | nil => exact fun t => ⟨t.registered, t.cancelled, rfl⟩
    | cons w ws ih =>
      intro t
      obtain ⟨registered, cancelled, heq⟩ := ih (t.cancelOne w)
      exact ⟨registered, cancelled, heq⟩
  obtain ⟨registered, cancelled, heq⟩ := hfold s.cancels { s with cancels := [] }
  exact ⟨registered, cancelled, heq⟩

theorem takeCancels_eq (hnodup : (s.registered ++ s.cancelled).Nodup) (hcancels : s.cancels.Nodup)
    (hapart : ∀ w ∈ s.cancels, w ∉ s.cancelled) :
    s.takeCancels =
      { s with
        cancels := []
        registered := s.registered.filter (fun w => w ∉ s.cancels)
        cancelled := s.cancelled ++ s.cancels } :=
  foldl_cancelOne s.cancels { s with cancels := [] } hnodup hcancels hapart

/-- What other threads do leaves alone what the context's thread has. -/
theorem step_others (s : State) (h : e.ofThread = false) :
    (s.step e).phase = s.phase ∧ (s.step e).seen = s.seen ∧
      (s.step e).registered = s.registered ∧ (s.step e).cancelled = s.cancelled ∧
      (s.step e).polled = s.polled ∧ (s.step e).ran = s.ran ∧ (s.step e).begun = s.begun ∧
      (s.step e).completed = s.completed := by
  cases e with
  | push i =>
    simp only [step, push]
    cases s.submits i <;> exact ⟨rfl, rfl, rfl, rfl, rfl, rfl, rfl, rfl⟩
  | reload i =>
    simp only [step, reload]
    cases s.submits i <;> exact ⟨rfl, rfl, rfl, rfl, rfl, rfl, rfl, rfl⟩
  | pushCancel w =>
    simp only [step, pushCancel]
    cases s.stages w <;> exact ⟨rfl, rfl, rfl, rfl, rfl, rfl, rfl, rfl⟩
  | _ => first | exact ⟨rfl, rfl, rfl, rfl, rfl, rfl, rfl, rfl⟩ | cases h

/-- What the context's thread does leaves alone what submits tasks. -/
theorem step_thread (s : State) (h : e.ofThread = true) :
    (s.step e).submits = s.submits ∧ (s.step e).stopping = s.stopping ∧
      (s.step e).pushed = s.pushed := by
  cases e with
  | execute stopped =>
    simp only [step, execute]
    split
    · split <;> exact ⟨rfl, rfl, rfl⟩
    · exact ⟨rfl, rfl, rfl⟩
  | add failure =>
    simp only [step, add]
    split <;> exact ⟨rfl, rfl, rfl⟩
  | takeCancels =>
    obtain ⟨registered, cancelled, heq⟩ := s.takeCancels_frame
    simp only [step]
    rw [heq]
    exact ⟨rfl, rfl, rfl⟩
  | stopNext =>
    simp only [step, stopNext]
    split <;> exact ⟨rfl, rfl, rfl⟩
  | handleReady done =>
    simp only [step, handleReady]
    split
    · split <;> exact ⟨rfl, rfl, rfl⟩
    · exact ⟨rfl, rfl, rfl⟩
  | rearm failure =>
    simp only [step, rearm]
    split <;> exact ⟨rfl, rfl, rfl⟩
  | disarm =>
    simp only [step, disarm]
    split <;> exact ⟨rfl, rfl, rfl⟩
  | finishTake =>
    obtain ⟨registered, cancelled, heq⟩ := s.takeCancels_frame
    simp only [step, finishTake]
    split
    · rw [heq]
      exact ⟨rfl, rfl, rfl⟩
    · exact ⟨rfl, rfl, rfl⟩
  | complete =>
    simp only [step, complete]
    split <;> exact ⟨rfl, rfl, rfl⟩
  | _ => first | exact ⟨rfl, rfl, rfl⟩ | cases h

section Equations

variable {i : ThreadId} {task : Task} {tasks : List Task} {w : Wait} {waits : List Wait}
  {resolution : Resolution} {stage : Finish} {caller : Caller} {error : ErrorCode}

theorem step_push (h : s.submits i = .pushing task s.tasks.head?) : s.step (.push i) =
    { s.setSubmit i (if s.tasks.head? = none then .waking else .idle) with
      tasks := task :: s.tasks
      pushed := s.pushed ++ [task] } := by
  simp only [step, push, h]

theorem step_pushCancel (h : s.stages w = .cancelling s.cancels.head?) : s.step (.pushCancel w) =
    { s.setStage w (if s.cancels.head? = none then .waking else .cancelled) with
      cancels := w :: s.cancels } := by
  simp only [step, pushCancel, h]

/-- A task is run, and begins a wait or none. -/
theorem step_execute (h : s.phase = .running (task :: tasks)) (stopped : Bool) :
    s.step (.execute stopped) =
        { s with
          ran := s.ran ++ [task]
          phase := .running tasks } ∨
      ∃ w, task = .wait w ∧ s.step (.execute stopped) =
        { s.setStage w .armed with
          ran := s.ran ++ [task]
          begun := s.begun ++ [w]
          phase := .adding w tasks } := by
  simp only [step, execute, h]
  cases task with
  | schedule operation => exact .inl rfl
  | wait w =>
    cases stopped with
    | false => exact .inr ⟨w, rfl, rfl⟩
    | true => exact .inl rfl

theorem step_add (h : s.phase = .adding w tasks) : s.step (.add none) =
    { s with
      polled := Function.update s.polled w true
      registered := s.registered ++ [w]
      phase := .running tasks } := by
  simp only [step, add, h]

theorem step_add_failed (h : s.phase = .adding w tasks) : s.step (.add (some error)) =
    { s with phase := .finishing w (.failed error) .disarm (.beginWait tasks) } := by
  simp only [step, add, h]

theorem step_stopNext (h : s.cancelled = w :: waits) : s.step .stopNext =
    { s.unregister w with phase := .finishing w .stopped .disarm .cancellations } := by
  simp only [step, stopNext, h]

theorem step_stopNext_nil (h : s.cancelled = []) : s.step .stopNext =
    { s with phase := if s.seen then .exited else .polling } := by
  simp only [step, stopNext, h]

theorem step_handleReady (h : s.phase = .reporting (w :: waits)) : s.step (.handleReady true) =
    { s.unregister w with phase := .finishing w .ready .disarm (.batch waits) } := by
  simp only [step, handleReady, h, ↓reduceIte]

theorem step_handleReady_again (h : s.phase = .reporting (w :: waits)) :
    s.step (.handleReady false) = { s with phase := .rearming w waits } := by
  simp [step, handleReady, h]

theorem step_rearm (h : s.phase = .rearming w waits) : s.step (.rearm none) =
    { s with phase := .reporting waits } := by
  simp only [step, rearm, h]

theorem step_rearm_failed (h : s.phase = .rearming w waits) : s.step (.rearm (some error)) =
    { s.unregister w with phase := .finishing w (.failed error) .disarm (.batch waits) } := by
  simp only [step, rearm, h]

theorem step_disarm (h : s.phase = .finishing w resolution stage caller) : s.step .disarm =
    { s.setStage w .disarmed with phase := .finishing w resolution .takeCancels caller } := by
  simp only [step, disarm, h]

theorem step_finishTake (h : s.phase = .finishing w resolution stage caller) :
    s.step .finishTake =
      { s.takeCancels with phase := .finishing w resolution .complete caller } := by
  simp only [step, finishTake, h]

theorem step_complete (h : s.phase = .finishing w resolution stage caller) : s.step .complete =
    { s.setStage w .idle with
      registered := s.registered.erase w
      cancelled := s.cancelled.erase w
      completed := s.completed ++ [(w, resolution)]
      phase := caller.resume } := by
  simp only [step, complete, h]

end Equations

end State

end MakeBelieve.IoContext
