import MakeBelieve.Coordinator.Frame
import MakeBelieve.Library.Count

namespace MakeBelieve.Coordinator

open Library

/-- An entry of `edges_out` for this many waits: none at all rather than a zero. -/
def entry : Nat → Option Nat
  | 0 => none
  | n + 1 => some (n + 1)

theorem entry_isSome (n : Nat) : (entry n).isSome ↔ 0 < n := by
  cases n <;> simp [entry]

theorem decrement_entry (n : Nat) : decrement (entry (n + 1)) = entry n := by
  cases n <;> simp [entry, decrement]

theorem increment_entry (n : Nat) : increment (entry n) = entry (n + 1) := by
  cases n <;> simp [entry, increment]

namespace State

/-- Whether a wait is a blocked one made by `a` on `b`. -/
def between (s : State) (a b : AttemptId) (w : WaitId) : Bool :=
  (s.requests w).state = .blocked ∧ (s.requests w).requester = some a ∧ (s.requests w).target = b

/-- The four structures a wait is entered in agree, between any two steps of a transition. -/
structure Links (s : State) : Prop where
  waits : s.waits.Nodup
  byMeNodup : ∀ a, (s.attempts a).waitsByMe.Nodup
  onMeNodup : ∀ a, (s.attempts a).waitsOnMe.Nodup
  byMe : ∀ a w, w ∈ (s.attempts a).waitsByMe ↔
    w ∈ s.waits ∧ (s.requests w).requester = some a
  onMe : ∀ b w, w ∈ (s.attempts b).waitsOnMe ↔
    w ∈ s.waits ∧ (s.requests w).state = .blocked ∧ (s.requests w).target = b
  edges : ∀ a b, (s.attempts a).edgesOut b = entry (s.waits.countP (s.between a b))

variable {s t : State}

theorem between_iff {a b : AttemptId} {w : WaitId} : s.between a b w = true ↔
    (s.requests w).state = .blocked ∧ (s.requests w).requester = some a ∧
      (s.requests w).target = b := by
  simp [between]

theorem between_false {a b : AttemptId} {w : WaitId} (h : ¬((s.requests w).state = .blocked ∧
    (s.requests w).requester = some a ∧ (s.requests w).target = b)) : s.between a b w = false := by
  simpa [between] using h

/-- The edges are the blocked waits, whoever they are from. -/
theorem Links.edge_iff (h : Links s) (a b : AttemptId) :
    ((s.attempts a).edgesOut b).isSome ↔ ∃ w ∈ s.waits, (s.requests w).state = .blocked ∧
      (s.requests w).requester = some a ∧ (s.requests w).target = b := by
  rw [h.edges, entry_isSome, List.countP_pos_iff]
  simp only [between_iff]

theorem Links.same (h : Links s) (ho : SameLinks s t) : Links t := by
  have hb : ∀ a b, t.between a b = s.between a b := fun a b => by
    funext w; simp only [between, ho.requests]
  refine ⟨ho.waits ▸ h.waits, fun a => ?_, fun a => ?_, fun a w => ?_, fun b w => ?_,
    fun a b => ?_⟩
  · rw [ho.byMe]; exact h.byMeNodup a
  · rw [ho.onMe]; exact h.onMeNodup a
  · rw [ho.byMe, ho.waits, ho.requests]; exact h.byMe a w
  · rw [ho.onMe, ho.waits, ho.requests]; exact h.onMe b w
  · rw [ho.edges, ho.waits, hb]; exact h.edges a b

/-- Answering a wait takes it out of everything at once. -/
theorem Links.answer (h : Links s) {w : WaitId} (hw : w ∈ s.waits) (e : ErrorCode) :
    Links (s.answer w e) := by
  have hother : ∀ {v}, v ≠ w → (s.answer w e).requests v = s.requests v := fun hv => by
    rw [answer_requests, if_neg hv]
  refine ⟨?_, fun a => ?_, fun a => ?_, fun a v => ?_, fun b v => ?_, fun a b => ?_⟩
  · rw [answer_waits]; exact h.waits.erase w
  · rw [answer_waitsByMe]; split
    · exact (h.byMeNodup a).erase w
    · exact h.byMeNodup a
  · rw [answer_waitsOnMe]; split
    · exact (h.onMeNodup a).erase w
    · exact h.onMeNodup a
  · rw [answer_waitsByMe, answer_waits, h.waits.mem_erase_iff]
    by_cases hv : v = w
    · subst hv
      by_cases ha : (s.requests v).requester = some a
      · simp [ha, (h.byMeNodup a).mem_erase_iff]
      · have := h.byMe a v
        simp [ha] at this ⊢
        exact this
    · rw [hother hv]
      by_cases ha : (s.requests w).requester = some a
      · rw [if_pos ha, (h.byMeNodup a).mem_erase_iff, h.byMe]; tauto
      · rw [if_neg ha, h.byMe]; tauto
  · rw [answer_waitsOnMe, answer_waits, h.waits.mem_erase_iff]
    by_cases hv : v = w
    · subst hv
      by_cases hb : (s.requests v).target = b
      · simp [hb, (h.onMeNodup b).mem_erase_iff]
      · have := h.onMe b v
        simp [hb] at this ⊢
        exact this
    · rw [hother hv]
      by_cases hb : (s.requests w).target = b
      · rw [if_pos hb, (h.onMeNodup b).mem_erase_iff, h.onMe]; tauto
      · rw [if_neg hb, h.onMe]; tauto
  · have hcount : (s.waits.erase w).countP ((s.answer w e).between a b) =
        (s.waits.erase w).countP (s.between a b) := List.countP_congr fun v hv => by
      have hvw : v ≠ w := (h.waits.mem_erase_iff.mp hv).1
      simp only [between, hother hvw]
    have hsum := countP_erase_add (p := s.between a b) hw
    rw [answer_edgesOut, answer_waits, hcount]
    by_cases hcond : (s.requests w).state = .blocked ∧ (s.requests w).requester = some a ∧
        (s.requests w).target = b
    · rw [if_pos (between_iff.mpr hcond)] at hsum
      rw [if_pos hcond, h.edges, ← hsum, decrement_entry]
    · rw [between_false hcond] at hsum
      rw [if_neg hcond, h.edges, ← hsum]
      simp

/-- A blocked wait that becomes ready leaves its target and its edge, and nothing else. -/
theorem Links.makeReady (h : Links s) {w : WaitId} (hw : w ∈ s.waits) {r : AttemptId}
    (hb : (s.requests w).state = .blocked) (hr : (s.requests w).requester = some r)
    (e : ErrorCode) : Links (s.makeReady w r e) := by
  have hother : ∀ {v}, v ≠ w → (s.makeReady w r e).requests v = s.requests v := fun hv => by
    rw [makeReady_requests, if_neg hv]
  have hself : (s.makeReady w r e).requests w =
      { s.requests w with result := e, state := .ready } := by
    rw [makeReady_requests, if_pos rfl]
  refine ⟨h.waits, fun a => ?_, fun a => ?_, fun a v => ?_, fun b v => ?_, fun a b => ?_⟩
  · rw [makeReady_waitsByMe]; exact h.byMeNodup a
  · rw [makeReady_waitsOnMe]; split
    · exact (h.onMeNodup a).erase w
    · exact h.onMeNodup a
  · rw [makeReady_waitsByMe, makeReady_waits, h.byMe]
    by_cases hv : v = w
    · subst hv; rw [hself]
    · rw [hother hv]
  · rw [makeReady_waitsOnMe, makeReady_waits]
    by_cases hv : v = w
    · subst hv
      rw [hself]
      by_cases hbt : (s.requests v).target = b
      · simp [hbt, (h.onMeNodup b).mem_erase_iff]
      · have := h.onMe b v
        simp [hbt] at this ⊢
        exact this
    · rw [hother hv]
      by_cases hbt : (s.requests w).target = b
      · rw [if_pos hbt, (h.onMeNodup b).mem_erase_iff, h.onMe]; tauto
      · rw [if_neg hbt, h.onMe]
  · rw [makeReady_edgesOut, makeReady_waits]
    have hnot : (s.makeReady w r e).between a b w = false := between_false (by rw [hself]; simp)
    by_cases hcond : a = r ∧ b = (s.requests w).target
    · obtain ⟨rfl, rfl⟩ := hcond
      have hflip := countP_flip h.waits hw (between_iff.mpr ⟨hb, hr, rfl⟩) hnot
        (fun v _ hv => by simp only [between, hother hv])
      rw [if_pos ⟨rfl, rfl⟩, h.edges, ← hflip, decrement_entry]
    · have hsame : s.waits.countP ((s.makeReady w r e).between a b) =
          s.waits.countP (s.between a b) := List.countP_congr fun v _ => by
        by_cases hv : v = w
        · subst hv
          have : s.between a b v = false := between_false (by
            rw [hr]; rintro ⟨-, h1, h2⟩; exact hcond ⟨(Option.some.inj h1).symm, h2.symm⟩)
          rw [hnot, this]
        · simp only [between, hother hv]
      rw [if_neg hcond, h.edges, hsame]

end State

end MakeBelieve.Coordinator
