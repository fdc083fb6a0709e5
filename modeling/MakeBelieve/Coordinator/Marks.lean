import MakeBelieve.Coordinator.Steady

namespace MakeBelieve.Coordinator.State

/-- No attempt is hurried or doomed that was not, and none is so no longer; each is at the output
it was. -/
structure Unmarked (s t : State) : Prop where
  hurried : ∀ b, (t.attempts b).hurried = (s.attempts b).hurried
  doomed : ∀ b, (t.attempts b).doomed = (s.attempts b).doomed
  output : ∀ b, (t.attempts b).output = (s.attempts b).output

variable {s t u : State}

theorem Unmarked.trans (h : Unmarked s t) (h' : Unmarked t u) : Unmarked s u where
  hurried b := (h'.hurried b).trans (h.hurried b)
  doomed b := (h'.doomed b).trans (h.doomed b)
  output b := (h'.output b).trans (h.output b)

theorem unmarked_of_control (hc : ∀ b, (t.attempts b).toControl = (s.attempts b).toControl) :
    Unmarked s t :=
  ⟨fun b => by rw [hc], fun b => by rw [hc], fun b => by rw [hc]⟩

theorem Unmarked.refl (s : State) : Unmarked s s := unmarked_of_control fun _ => rfl

theorem unmarked_setAttempt (s : State) (a : AttemptId) {f : Attempt → Attempt}
    (hf : ∀ x, (f x).hurried = x.hurried ∧ (f x).doomed = x.doomed ∧ (f x).output = x.output) :
    Unmarked s (s.setAttempt a f) :=
  ⟨s.setAttempt_keep (fun x => x.hurried) fun x => (hf x).1,
    s.setAttempt_keep (fun x => x.doomed) fun x => (hf x).2.1,
    s.setAttempt_keep (fun x => x.output) fun x => (hf x).2.2⟩

theorem answer_unmarked (s : State) (w : WaitId) (e : ErrorCode) : Unmarked s (s.answer w e) :=
  unmarked_of_control (s.answer_toControl w e)

theorem foldl_unmarked {α : Type*} {f : State → α → State} (hf : ∀ s x, Unmarked s (f s x))
    (l : List α) (s : State) : Unmarked s (l.foldl f s) := by
  induction l generalizing s with
  | nil => exact .refl s
  | cons x l ih => exact (hf s x).trans (ih (f s x))

theorem giveBack_unmarked (s : State) (a : AttemptId) : Unmarked s (s.giveBack a) := by
  have hset := s.unmarked_setAttempt a (f := fun x => { x with permit := .released })
    fun x => ⟨rfl, rfl, rfl⟩
  unfold giveBack
  dsimp only
  split
  · exact hset.trans (unmarked_of_control fun _ => rfl)
  · exact hset

theorem giveBackIfWaiting_unmarked (s : State) (a : AttemptId) :
    Unmarked s (s.giveBackIfWaiting a) := by
  unfold giveBackIfWaiting
  split
  · exact s.giveBack_unmarked a
  · exact .refl s

theorem reacquire_unmarked (s : State) (a : AttemptId) : Unmarked s (s.reacquire a) :=
  (s.unmarked_setAttempt a (f := fun x =>
    { x with permit := .reacquiring, reacquire := true, reacquireOutstanding := true })
    fun _ => ⟨rfl, rfl, rfl⟩).trans (unmarked_of_control fun _ => rfl)

theorem ready_unmarked (s : State) (w : WaitId) (e : ErrorCode) : Unmarked s (s.ready w e) := by
  have hmake : ∀ (t : State) r, Unmarked t (t.makeReady w r e) := fun t r =>
    unmarked_of_control (t.makeReady_toControl w r e)
  unfold ready
  split
  · exact s.answer_unmarked w e
  · next r _ =>
    split
    · exact s.answer_unmarked w canceled
    · split
      · exact (s.answer_unmarked w e).trans (giveBackIfWaiting_unmarked _ r)
      · exact (s.reacquire_unmarked r).trans (hmake _ r)
      · exact hmake s r
      · exact s.answer_unmarked w canceled

theorem cancelWaitsOf_unmarked (s : State) (a : AttemptId) : Unmarked s (s.cancelWaitsOf a) :=
  foldl_unmarked (fun s w => s.answer_unmarked w canceled) _ s

theorem stopAttempt_unmarked (s : State) (a : AttemptId) : Unmarked s (s.stopAttempt a) := by
  have hall := (s.unmarked_setAttempt a (f := fun x => { x with stopping := true })
    fun x => ⟨rfl, rfl, rfl⟩).trans (cancelWaitsOf_unmarked _ a)
  unfold stopAttempt
  dsimp only
  split
  · exact hall.trans (unmarked_of_control fun _ => rfl)
  · exact hall.trans (unmarked_of_control fun _ => rfl)

theorem cancelWait_unmarked (s : State) (w : WaitId) : Unmarked s.start (s.cancelWait w) := by
  have hans := s.start.answer_unmarked w canceled
  unfold cancelWait
  dsimp only
  split
  · exact .refl _
  · split
    · exact hans
    · split
      · exact hans.trans (reacquire_unmarked _ _)
      · exact hans

theorem complete_unmarked (s : State) (a : AttemptId) (e : ErrorCode) :
    Unmarked s.start (s.complete a e) :=
  (s.start.unmarked_setAttempt a (f := fun x => { x with result := some e, predecessor := none })
    fun _ => ⟨rfl, rfl, rfl⟩).trans (foldl_unmarked (fun s w => s.ready_unmarked w e) _ _)

theorem onOuterStop_unmarked (s : State) (a : AttemptId) : Unmarked s.start (s.onOuterStop a) := by
  unfold onOuterStop
  dsimp only
  split
  · exact s.start.stopAttempt_unmarked a
  · exact unmarked_of_control fun _ => rfl

theorem run_unmarked (s : State) (a : AttemptId) : Unmarked s.start (s.run a) :=
  s.start.unmarked_setAttempt a (f := fun x => { x with phase := .queued, predecessor := none })
    fun _ => ⟨rfl, rfl, rfl⟩

theorem onPermit_unmarked (s : State) (a : AttemptId) : Unmarked s.start (s.onPermit a) := by
  have hset := s.start.unmarked_setAttempt a
    (f := fun x => { x with phase := .running, permit := .held, lease := true })
    fun _ => ⟨rfl, rfl, rfl⟩
  unfold onPermit
  dsimp only
  split
  · exact ⟨hset.hurried, hset.doomed, hset.output⟩
  · exact hset

theorem finish_unmarked (s : State) (a : AttemptId) : Unmarked s.start (s.finish a) := by
  let ended := s.start.setAttempt a fun x => { x with phase := .ended, stopping := true }
  let gone : State :=
    { ended with running := Function.update ended.running (ended.attempts a).output none }
  have hset : Unmarked s.start ended := s.start.unmarked_setAttempt a fun _ => ⟨rfl, rfl, rfl⟩
  have hgone : Unmarked ended gone := ⟨fun _ => rfl, fun _ => rfl, fun _ => rfl⟩
  have hcancel := (hset.trans hgone).trans (cancelWaitsOf_unmarked gone a)
  have hfin : s.finish a = if ((gone.cancelWaitsOf a).attempts a).reacquireOutstanding then
      ((gone.cancelWaitsOf a).setAttempt a fun x => { x with drain := true }).pushStopReacquire a
      else { gone.cancelWaitsOf a with effects := { (gone.cancelWaitsOf a).effects with
        drains := (gone.cancelWaitsOf a).effects.drains ++ [a] } } := rfl
  rw [hfin]
  split
  · exact hcancel.trans ((unmarked_setAttempt _ a (f := fun x => { x with drain := true })
      fun _ => ⟨rfl, rfl, rfl⟩).trans (unmarked_of_control fun _ => rfl))
  · exact ⟨hcancel.hurried, hcancel.doomed, hcancel.output⟩

theorem onReacquired_unmarked (s : State) (a : AttemptId) (granted : Bool) :
    Unmarked s.start (s.onReacquired a granted) := by
  let s1 := s.regained a granted
  have hset : Unmarked s.start s1 := s.start.unmarked_setAttempt a fun _ => ⟨rfl, rfl, rfl⟩
  have hanswer : ∀ (t : State) w, Unmarked t (t.answerReady a granted w) := fun t w => by
    unfold answerReady
    split
    · exact t.answer_unmarked w _
    · exact .refl t
  have hdef : s.onReacquired a granted = (((s1.attempts a).waitsByMe.foldl
      (fun s w => s.answerReady a granted w) s1).giveBackIfWaiting a).drained a := rfl
  rw [hdef]
  refine ((hset.trans (foldl_unmarked hanswer (s1.attempts a).waitsByMe s1)).trans (giveBackIfWaiting_unmarked _ a)).trans
    ⟨fun b => ?_, fun b => ?_, fun b => ?_⟩
  · rw [drained_toControl]
  · rw [drained_toControl]
  · rw [drained_toControl]

end MakeBelieve.Coordinator.State
