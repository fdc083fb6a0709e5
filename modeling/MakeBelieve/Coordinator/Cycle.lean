import MakeBelieve.Coordinator.Hurry

namespace MakeBelieve.Coordinator

open Library Relation

namespace State

variable {s t : State} {a b : AttemptId}

/-- Whom `wait` dooms: what is running and has not been told to stop. -/
def Stoppable (s : State) (a : AttemptId) : Prop :=
  (s.attempts a).phase = .running ∧ (s.attempts a).stopping = false

instance (s : State) (a : AttemptId) : Decidable (s.Stoppable a) :=
  inferInstanceAs (Decidable (_ ∧ _))

theorem doom_eq (s : State) (a : AttemptId) : s.doom a = if s.Stoppable a then
    (s.setAttempt a fun x => { x with doomed := true }).stopAttempt a else s := rfl

theorem cancelWaitsOf_same (s : State) (a b : AttemptId) :
    ((s.cancelWaitsOf a).attempts b).toControl = (s.attempts b).toControl ∧
      (s.cancelWaitsOf a).effects.stopAttempts = s.effects.stopAttempts := by
  have hfold : ∀ (ws : List WaitId) (s : State),
      ((ws.foldl (fun s w => s.answer w canceled) s).attempts b).toControl =
        (s.attempts b).toControl ∧
      (ws.foldl (fun s w => s.answer w canceled) s).effects.stopAttempts =
        s.effects.stopAttempts := by
    intro ws
    induction ws with
    | nil => exact fun s => ⟨rfl, rfl⟩
    | cons w ws ih =>
      intro s
      obtain ⟨hc, he⟩ := ih (s.answer w canceled)
      exact ⟨hc.trans (s.answer_toControl w canceled b), he.trans (by rw [answer_effects])⟩
  exact hfold _ s

theorem stopAttempt_toControl (s : State) (a b : AttemptId) :
    ((s.stopAttempt a).attempts b).toControl = if b = a then
      { (s.attempts a).toControl with stopping := true } else (s.attempts b).toControl := by
  let marked := s.setAttempt a fun x => { x with stopping := true }
  have hmarked : (marked.attempts b).toControl = if b = a then
      { (s.attempts a).toControl with stopping := true } else (s.attempts b).toControl :=
    s.setAttempt_toControl a b (g := fun c => { c with stopping := true }) fun _ => rfl
  have hcancel := (marked.cancelWaitsOf_same a b).1
  rw [← hmarked, ← hcancel]
  unfold stopAttempt
  dsimp only
  split <;> rfl

theorem stopAttempt_stopAttempts (s : State) (a : AttemptId) :
    (s.stopAttempt a).effects.stopAttempts = s.effects.stopAttempts ++ [a] := by
  let marked := s.setAttempt a fun x => { x with stopping := true }
  have hcancel : (marked.cancelWaitsOf a).effects.stopAttempts = s.effects.stopAttempts :=
    (marked.cancelWaitsOf_same a a).2
  rw [← hcancel]
  unfold stopAttempt
  dsimp only
  split <;> rfl

/-- Dooming is for whoever can still be stopped, and stops them. -/
theorem doom_toControl (s : State) (a b : AttemptId) :
    ((s.doom a).attempts b).toControl = if b = a ∧ s.Stoppable a then
      { (s.attempts b).toControl with stopping := true, doomed := true }
      else (s.attempts b).toControl := by
  rw [doom_eq]
  by_cases ha : s.Stoppable a
  · rw [if_pos ha, stopAttempt_toControl]
    by_cases hb : b = a
    · subst hb
      rw [if_pos rfl, if_pos ⟨rfl, ha⟩, setAttempt_attempts, if_pos rfl]
    · rw [if_neg hb, if_neg (fun h => hb h.1), setAttempt_attempts, if_neg hb]
  · rw [if_neg ha, if_neg (fun h => ha h.2)]

theorem doom_stopAttempts (s : State) (a : AttemptId) :
    b ∈ (s.doom a).effects.stopAttempts ↔
      b ∈ s.effects.stopAttempts ∨ (b = a ∧ s.Stoppable a) := by
  rw [doom_eq]
  by_cases ha : s.Stoppable a
  · rw [if_pos ha, stopAttempt_stopAttempts, List.mem_append, List.mem_singleton]
    simp [ha]
  · rw [if_neg ha]
    simp [ha]

/-- Over a path, those on it that could be stopped are doomed and told to stop, and nobody else. -/
theorem doomAll_spec (s : State) (path : List AttemptId) (b : AttemptId) :
    (((path.foldl doom s).attempts b).doomed = true ↔
      (s.attempts b).doomed = true ∨ (b ∈ path ∧ s.Stoppable b)) ∧
    (((path.foldl doom s).attempts b).stopping = true ↔
      (s.attempts b).stopping = true ∨ (b ∈ path ∧ s.Stoppable b)) ∧
    (b ∈ (path.foldl doom s).effects.stopAttempts ↔
      b ∈ s.effects.stopAttempts ∨ (b ∈ path ∧ s.Stoppable b)) := by
  induction path generalizing s with
  | nil => simp
  | cons a path ih =>
    obtain ⟨hdoomed, hstopping, hasked⟩ := ih (s.doom a)
    have hc := s.doom_toControl a b
    by_cases hb : b = a ∧ s.Stoppable a
    · -- It is told to stop now, and not again further on.
      rw [if_pos hb] at hc
      obtain ⟨rfl, hstoppable⟩ := hb
      have hnot : ¬(s.doom b).Stoppable b := by
        intro hs
        have := hs.2
        rw [hc] at this
        simp at this
      rw [List.foldl_cons, hdoomed, hstopping, hasked, doom_stopAttempts, hc]
      simp [hnot, hstoppable]
    · rw [if_neg hb] at hc
      have hsame : (s.doom a).Stoppable b ↔ s.Stoppable b := by
        unfold Stoppable
        rw [hc]
      have hcons : b ∈ a :: path ∧ s.Stoppable b ↔ b ∈ path ∧ s.Stoppable b := by
        rw [List.mem_cons]
        refine ⟨fun ⟨hmem, hs⟩ => ⟨hmem.resolve_left fun hba => hb ⟨hba, hba ▸ hs⟩, hs⟩,
          fun ⟨hmem, hs⟩ => ⟨.inr hmem, hs⟩⟩
      rw [List.foldl_cons, hdoomed, hstopping, hasked, doom_stopAttempts, hsame, hcons, hc]
      simp [hb]

end State

end MakeBelieve.Coordinator
