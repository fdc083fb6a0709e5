import MakeBelieve.Coordinator.Runs

namespace MakeBelieve.Coordinator.System

open Library

variable {s : System}

/-- A request answered is out of every list. -/
theorem Sound.gone_everywhere (h : Sound s) {w : WaitId} {e : ErrorCode} (hw : (w, e) ∈ s.answers) :
    w ∉ s.coord.waits ∧ ∀ a, w ∉ (s.coord.attempts a).waitsByMe ∧
      w ∉ (s.coord.attempts a).waitsOnMe := by
  have hnot := (h.gone (w, e) hw).2
  refine ⟨hnot, fun a => ⟨fun hmem => ?_, fun hmem => ?_⟩⟩
  · exact hnot ((h.inv.links.byMe a w).mp hmem).1
  · exact hnot ((h.inv.links.onMe a w).mp hmem).1

/-- A request in line is blocked on an attempt yet to be completed, or ready and about to be
answered by the one take-back of its attempt. -/
theorem Sound.in_line (h : Sound s) {w : WaitId} (hw : w ∈ s.coord.waits) :
    ((s.coord.requests w).state = .blocked ∧ ∀ e, (s.asked w, e) ∉ s.completions) ∨
    ((s.coord.requests w).state = .ready ∧ ∃ r, (s.coord.requests w).requester = some r ∧
      (s.coord.attempts r).phase = .running ∧ (s.coord.attempts r).stopping = false ∧
      s.takeBacks.count r = 1) := by
  obtain ⟨hdone, halone, howner⟩ := h.inv.owned w hw
  cases hstate : (s.coord.requests w).state with
  | blocked =>
    refine .inl ⟨rfl, fun e he => ?_⟩
    have hnone := h.inv.unfinished w hw hstate
    rw [h.asked w hw] at hnone
    exact (h.recorded _ he).2 hnone
  | ready =>
    cases hreq : (s.coord.requests w).requester with
    | none =>
      have hb := halone hreq
      rw [hstate] at hb
      simp at hb
    | some r =>
      obtain ⟨hrun, hstop, hp | ⟨_, hb⟩⟩ := howner r hreq
      · have hout := (h.inv.control r).outstanding.mp hp
        refine .inr ⟨rfl, r, rfl, hrun, hstop, ?_⟩
        rw [h.takeBacks, hout]
        rfl
      · rw [hstate] at hb
        simp at hb
  | done => exact absurd hstate hdone

/-- Where every target has been completed and no take-back is unanswered, nothing is left. -/
theorem Sound.all_answered (h : Sound s)
    (hdone : ∀ w ∈ s.coord.waits, ∃ e, (s.asked w, e) ∈ s.completions) (hback : s.takeBacks = []) :
    s.coord.waits = [] ∧ ∀ a b, (s.coord.attempts a).edgesOut b = none := by
  have hnil : s.coord.waits = [] := by
    rw [List.eq_nil_iff_forall_not_mem]
    intro w hw
    obtain ⟨e, he⟩ := hdone w hw
    obtain ⟨_, hnot⟩ | ⟨_, r, _, _, _, hcount⟩ := h.in_line hw
    · exact hnot e he
    · rw [hback] at hcount
      simp at hcount
  refine ⟨hnil, fun a b => ?_⟩
  rw [h.inv.links.edges, hnil]
  rfl

/-- Every request is answered at most once, for its own attempt's result or for a reason of its
own, and none is lost, in every state any interleaving of the steps leads to. -/
theorem requests_answered (h : machine.Reachable (fun _ _ => True) s) :
    (s.answers.map Prod.fst).Nodup ∧
    (∀ w e, (w, e) ∈ s.answers →
      (e = canceled ∨ e = dependencyCycle ∨ (s.asked w, e) ∈ s.completions) ∧
      w ∉ s.coord.waits ∧ ∀ a, w ∉ (s.coord.attempts a).waitsByMe ∧
        w ∉ (s.coord.attempts a).waitsOnMe) ∧
    (∀ w < s.coord.waitCount, (∀ e, (w, e) ∉ s.answers) →
      w ∈ s.coord.waits ∧ (s.coord.requests w).target = s.asked w ∧
      (((s.coord.requests w).state = .blocked ∧ ∀ e, (s.asked w, e) ∉ s.completions) ∨
      ((s.coord.requests w).state = .ready ∧ ∃ r, (s.coord.requests w).requester = some r ∧
        (s.coord.attempts r).phase = .running ∧ (s.coord.attempts r).stopping = false ∧
        s.takeBacks.count r = 1))) ∧
    ((∀ w < s.coord.waitCount, ∃ e, (s.asked w, e) ∈ s.completions) → s.takeBacks = [] →
      s.coord.waits = [] ∧ ∀ a b, (s.coord.attempts a).edgesOut b = none) := by
  have hs := sound h
  refine ⟨hs.nodup, fun w e hw => ⟨hs.result (w, e) hw, hs.gone_everywhere hw⟩,
    fun w hlt hnot => ?_, fun hdone hback => ?_⟩
  · have hw : w ∈ s.coord.waits := hs.waiting w hlt fun hmem => by
      obtain ⟨p, hp, hpw⟩ := List.mem_map.mp hmem
      exact hnot p.2 (hpw ▸ hp)
    exact ⟨hw, hs.asked w hw, hs.in_line hw⟩
  · exact hs.all_answered (fun w hw => hdone w (hs.inv.inRange.wait w hw)) hback

/-- There the one request is ready, for the take-back under way. -/
theorem requests_answered_firstWaits :
    0 ∈ (machine.runs {} firstWaits).coord.waits ∧
      (machine.runs {} firstWaits).takeBacks.count 0 = 1 := by
  have h := requests_answered (firstWaits_reachable.weaken fun _ _ _ => trivial)
  obtain ⟨hw, _, ⟨hb, _⟩ | ⟨_, r, hr, _, _, hcount⟩⟩ := h.2.2.1 0 (by decide) (by
    intro e he
    exact absurd he (List.not_mem_nil))
  · exact absurd hb (by decide)
  · have h0 : r = 0 := (Option.some.inj (hr.symm.trans (by decide)))
    exact ⟨hw, h0 ▸ hcount⟩

end MakeBelieve.Coordinator.System
