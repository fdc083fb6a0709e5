import MakeBelieve.IoContext.Waits

namespace MakeBelieve.IoContext

open Library

/-- Where each task is: run, taken or pushed, in the order of the pushes. -/
structure Queued (s : State) : Prop where
  log : s.pushed = s.ran ++ s.taken ++ s.tasks.reverse
  nodup : (s.taken ++ s.tasks).Nodup
  apart : ∀ i task head, s.submits i = .pushing task head → task ∉ s.taken ++ s.tasks
  alone : ∀ i j task head head', s.submits i = .pushing task head →
    s.submits j = .pushing task head' → i = j
  queued : ∀ w, .wait w ∈ s.taken ++ s.tasks → s.stages w = .idle
  pushing : ∀ i w head, s.submits i = .pushing (.wait w) head → s.stages w = .idle
  quiet : s.stopping = true → s.Quiet
  seen : s.seen = true → s.stopping = true
  exited : s.phase = .exited → s.seen = true

variable {s t : State} {e : Event} {i : ThreadId} {task : Task} {tasks : List Task} {w : Wait}

/-- The queue is as it was, and no wait that was idle is begun. -/
theorem Queued.keep (h : Queued s) (hpushed : t.pushed = s.pushed) (hran : t.ran = s.ran)
    (htaken : t.taken = s.taken) (htasks : t.tasks = s.tasks)
    (hpushing : ∀ i task head, t.submits i = .pushing task head →
      ∃ head', s.submits i = .pushing task head')
    (hstages : ∀ w, s.stages w = .idle → t.stages w = .idle)
    (hstopping : t.stopping = s.stopping) (hseen : t.seen = s.seen)
    (hexited : t.phase = .exited → t.seen = true) : Queued t := by
  constructor
  · rw [hpushed, hran, htaken, htasks]
    exact h.log
  · rw [htaken, htasks]
    exact h.nodup
  · intro i task head hi
    obtain ⟨head', hi⟩ := hpushing i task head hi
    rw [htaken, htasks]
    exact h.apart i task head' hi
  · intro i j task head head' hi hj
    obtain ⟨_, hi⟩ := hpushing i task head hi
    obtain ⟨_, hj⟩ := hpushing j task head' hj
    exact h.alone i j task _ _ hi hj
  · intro w hw
    rw [htaken, htasks] at hw
    exact hstages w (h.queued w hw)
  · intro i w head hi
    obtain ⟨_, hi⟩ := hpushing i _ head hi
    exact hstages w (h.pushing i w _ hi)
  · intro hstop
    rw [hstopping] at hstop
    obtain ⟨hempty, hnone, hidle⟩ := h.quiet hstop
    refine ⟨?_, ?_, ?_⟩
    · rw [htaken, htasks]
      exact hempty
    · intro i task head hi
      obtain ⟨head', hi⟩ := hpushing i task head hi
      exact hnone i task head' hi
    · intro w
      exact hstages w (hidle w)
  · rw [hseen, hstopping]
    exact h.seen
  · exact hexited

theorem Queued.init : Queued {} := by
  constructor <;> simp [State.taken]

theorem pushing_setSubmit {submit : Submit} {j : ThreadId} {head : Option Task}
    (h : (s.setSubmit i submit).submits j = .pushing task head) :
    (j = i ∧ submit = .pushing task head) ∨ (j ≠ i ∧ s.submits j = .pushing task head) := by
  unfold State.setSubmit at h
  dsimp only at h
  by_cases heq : j = i
  · subst heq
    rw [Function.update_self] at h
    exact .inl ⟨rfl, h⟩
  · rw [Function.update_of_ne heq] at h
    exact .inr ⟨heq, h⟩

/-- A submission goes on, with no task of its own or the one it had. -/
theorem Queued.submit (h : Queued s) {submit : Submit} (wakes : Nat)
    (hsubmit : ∀ task head, submit = .pushing task head →
      ∃ head', s.submits i = .pushing task head') :
    Queued { s.setSubmit i submit with wakes } := by
  apply h.keep (t := { s.setSubmit i submit with wakes }) rfl rfl rfl rfl _ (fun _ hw => hw) rfl
    rfl h.exited
  intro j task head hj
  rcases pushing_setSubmit hj with ⟨rfl, heq⟩ | ⟨-, hj⟩
  · exact hsubmit task head heq
  · exact ⟨head, hj⟩

theorem Queued.load (h : Queued s) (hidle : s.submits i = .idle) (hstopping : s.stopping = false)
    (hstart : s.Startable task) (head : Option Task) :
    Queued (s.setSubmit i (.pushing task head)) := by
  obtain ⟨hapart, halone, hstage⟩ := hstart
  constructor
  · exact h.log
  · exact h.nodup
  · intro j other head' hj
    rcases pushing_setSubmit hj with ⟨-, heq⟩ | ⟨-, hj⟩
    · cases heq
      exact hapart
    · exact h.apart j other head' hj
  · intro j k other head' head'' hj hk
    rcases pushing_setSubmit hj with ⟨rfl, heq⟩ | ⟨-, hj⟩
    · cases heq
      rcases pushing_setSubmit hk with ⟨rfl, -⟩ | ⟨-, hk⟩
      · rfl
      · exact absurd hk (halone k head'')
    · rcases pushing_setSubmit hk with ⟨-, heq⟩ | ⟨-, hk⟩
      · cases heq
        exact absurd hj (halone j head')
      · exact h.alone j k other _ _ hj hk
  · exact h.queued
  · intro j w head' hj
    rcases pushing_setSubmit hj with ⟨-, heq⟩ | ⟨-, hj⟩
    · cases heq
      exact hstage w rfl
    · exact h.pushing j w head' hj
  · intro hstop
    have hstop : s.stopping = true := hstop
    rw [hstopping] at hstop
    exact absurd hstop Bool.false_ne_true
  · exact h.seen
  · exact h.exited

theorem Queued.push (h : Queued s) {head : Option Task} (hi : s.submits i = .pushing task head)
    {submit : Submit} (hsubmit : ∀ other head, submit ≠ .pushing other head) :
    Queued { s.setSubmit i submit with
      tasks := task :: s.tasks
      pushed := s.pushed ++ [task] } := by
  have hapart := h.apart i task head hi
  have hmem : ∀ other, other ∈ s.taken ++ task :: s.tasks ↔
      other = task ∨ other ∈ s.taken ++ s.tasks := by
    intro other
    rw [List.mem_append, List.mem_cons, List.mem_append]
    tauto
  constructor
  · change s.pushed ++ [task] = s.ran ++ s.taken ++ (task :: s.tasks).reverse
    rw [h.log, List.reverse_cons, List.append_assoc]
  · change (s.taken ++ task :: s.tasks).Nodup
    rw [List.nodup_middle]
    exact List.nodup_cons.mpr ⟨hapart, h.nodup⟩
  · intro j other head' hj
    change other ∉ s.taken ++ task :: s.tasks
    rw [hmem]
    rcases pushing_setSubmit hj with ⟨-, heq⟩ | ⟨hne, hpushing⟩
    · exact absurd heq (hsubmit other head')
    · intro hor
      rcases hor with rfl | hin
      · exact hne (h.alone j i other _ _ hpushing hi)
      · exact h.apart j other head' hpushing hin
  · intro j k other head' head'' hj hk
    rcases pushing_setSubmit hj with ⟨-, heq⟩ | ⟨-, hj⟩
    · exact absurd heq (hsubmit other head')
    · rcases pushing_setSubmit hk with ⟨-, heq⟩ | ⟨-, hk⟩
      · exact absurd heq (hsubmit other head'')
      · exact h.alone j k other _ _ hj hk
  · intro w hw
    rcases (hmem (.wait w)).mp hw with heq | hin
    · subst heq
      exact h.pushing i w head hi
    · exact h.queued w hin
  · intro j w head' hj
    rcases pushing_setSubmit hj with ⟨-, heq⟩ | ⟨-, hj⟩
    · exact absurd heq (hsubmit _ head')
    · exact h.pushing j w head' hj
  · intro hstop
    exact absurd hi ((h.quiet hstop).2.1 i task head)
  · exact h.seen
  · exact h.exited

theorem Queued.destroy (h : Queued s) (hquiet : s.Quiet) :
    Queued { s.setSubmit i .waking with stopping := true } := by
  obtain ⟨hempty, hnone, hidle⟩ := hquiet
  have hpushing : ∀ j task head, (s.setSubmit i .waking).submits j ≠ .pushing task head := by
    intro j task head hj
    rcases pushing_setSubmit hj with ⟨-, heq⟩ | ⟨-, hj⟩
    · cases heq
    · exact hnone j task head hj
  constructor
  · exact h.log
  · exact h.nodup
  · intro j task head hj
    exact absurd hj (hpushing j task head)
  · intro j k task head head' hj
    exact absurd hj (hpushing j task head)
  · exact h.queued
  · intro j w head hj
    exact absurd hj (hpushing j _ head)
  · intro _
    exact ⟨hempty, hpushing, hidle⟩
  · intro _
    rfl
  · exact h.exited

theorem Queued.loadStopping (h : Queued s) (hphase : s.phase = .top) :
    Queued { s with
      seen := s.stopping
      phase := .taking } := by
  have htaken : s.taken = [] := by
    unfold State.taken
    rw [hphase]
  have htaken' : State.taken { s with
      seen := s.stopping
      phase := .taking } = s.taken := by
    rw [htaken]
    rfl
  constructor
  · rw [htaken']
    exact h.log
  · rw [htaken']
    exact h.nodup
  · rw [htaken']
    exact h.apart
  · exact h.alone
  · rw [htaken']
    exact h.queued
  · exact h.pushing
  · unfold State.Quiet
    rw [htaken']
    exact h.quiet
  · intro hseen
    exact hseen
  · intro hexited
    cases hexited

theorem Queued.takeTasks (h : Queued s) (hphase : s.phase = .taking) : Queued s.takeTasks := by
  have htaken : s.taken = [] := by
    unfold State.taken
    rw [hphase]
  have htaken' : s.takeTasks.taken = s.tasks.reverse := by
    unfold State.takeTasks State.taken
    dsimp only
    rw [State.reverseOnto_eq, List.append_nil]
  have hlog := h.log
  have hnodup := h.nodup
  have hapart := h.apart
  have hqueued := h.queued
  have hquiet := h.quiet
  rw [htaken, List.append_nil] at hlog
  rw [htaken, List.nil_append] at hnodup hapart hqueued
  have hmem : ∀ other, other ∈ s.takeTasks.taken ++ s.takeTasks.tasks ↔ other ∈ s.tasks := by
    intro other
    rw [htaken']
    change other ∈ s.tasks.reverse ++ [] ↔ _
    rw [List.append_nil, List.mem_reverse]
  constructor
  · rw [htaken']
    change s.pushed = s.ran ++ s.tasks.reverse ++ [].reverse
    rw [List.reverse_nil, List.append_nil]
    exact hlog
  · rw [htaken']
    change (s.tasks.reverse ++ []).Nodup
    rw [List.append_nil]
    exact List.nodup_reverse.mpr hnodup
  · intro j other head hj hin
    exact hapart j other head hj ((hmem other).mp hin)
  · exact h.alone
  · intro w hw
    exact hqueued w ((hmem _).mp hw)
  · exact h.pushing
  · intro hstop
    obtain ⟨hempty, hnone, hidle⟩ := hquiet hstop
    refine ⟨?_, hnone, hidle⟩
    rw [htaken, List.nil_append] at hempty
    rw [htaken', hempty]
    change s.takeTasks.tasks = []
    rfl
  · exact h.seen
  · intro hexited
    cases hexited

/-- The next task is run, and it may begin its wait. -/
theorem Queued.execute (h : Queued s) (hphase : s.phase = .running (task :: tasks)) {t : State}
    (hpushed : t.pushed = s.pushed) (hran : t.ran = s.ran ++ [task]) (htaken : t.taken = tasks)
    (htasks : t.tasks = s.tasks) (hsubmits : t.submits = s.submits)
    (hstages : ∀ w, task ≠ .wait w → s.stages w = .idle → t.stages w = .idle)
    (hstopping : t.stopping = s.stopping) (hseen : t.seen = s.seen) (hexited : t.phase ≠ .exited) :
    Queued t := by
  have htaken' : s.taken = task :: tasks := by
    unfold State.taken
    rw [hphase]
  have hlog := h.log
  have hnodup := h.nodup
  have hapart := h.apart
  have hqueued := h.queued
  rw [htaken'] at hlog
  rw [htaken', List.cons_append] at hnodup hapart hqueued
  obtain ⟨hnot, hnodup⟩ := List.nodup_cons.mp hnodup
  constructor
  · rw [hpushed, hran, htaken, htasks, hlog]
    simp
  · rw [htaken, htasks]
    exact hnodup
  · intro i other head hi hin
    rw [hsubmits] at hi
    rw [htaken, htasks] at hin
    exact hapart i other head hi (List.mem_cons_of_mem _ hin)
  · rw [hsubmits]
    exact h.alone
  · intro w hw
    rw [htaken, htasks] at hw
    apply hstages w
    · rintro rfl
      exact hnot hw
    · exact hqueued w (List.mem_cons_of_mem _ hw)
  · intro i w head hi
    rw [hsubmits] at hi
    apply hstages w
    · rintro rfl
      exact hapart i _ head hi List.mem_cons_self
    · exact h.pushing i w head hi
  · intro hstop
    rw [hstopping] at hstop
    have hempty := (h.quiet hstop).1
    rw [htaken'] at hempty
    simp at hempty
  · rw [hseen, hstopping]
    exact h.seen
  · intro hexit
    exact absurd hexit hexited

end MakeBelieve.IoContext
