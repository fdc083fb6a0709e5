import MakeBelieve.Coordinator.Answers

namespace MakeBelieve.Coordinator.State

/-- Every result in the state, kept by a target or for a ready wait, is one `K` holds of. -/
structure Sourced (s : State) (K : AttemptId → ErrorCode → Prop) : Prop where
  result : ∀ a e, (s.attempts a).result = some e → K a e
  ready : ∀ w ∈ s.waits, (s.requests w).state = .ready →
    K (s.requests w).target (s.requests w).result

/-- What every transition over the waits it finds does, where `K` says which attempts have been
completed with which results. -/
structure Step (K : AttemptId → ErrorCode → Prop) (s t : State) (out : List (WaitId × ErrorCode)) :
    Prop where
  inv : Inv t
  moved : Moved s t out
  stopping : ∀ b, (s.attempts b).stopping = true → (t.attempts b).stopping = true
  behind : ∀ b p, (t.attempts b).phase = .pending → (t.attempts b).predecessor = some p →
    (s.attempts b).phase = .pending ∧ (s.attempts b).predecessor = some p
  finished : ∀ b, (s.attempts b).result ≠ none → (t.attempts b).result ≠ none
  sourced : Sourced s K → Sourced t K
  answers : Sourced s K → ∀ p ∈ out, p.2 = canceled ∨ K (s.requests p.1).target p.2

/-- An attempt without a permit it should have had back is still waiting for something. -/
def Restored (s : State) (a : AttemptId) : Prop :=
  (s.attempts a).phase = .running → (s.attempts a).stopping = false →
    (s.attempts a).permit = .released → (s.attempts a).waitsByMe ≠ []

/-- How a transition treats permits given up: none is forgotten, and one is taken back only for a
wait that is ready or for want of any. -/
structure Restores (s t : State) : Prop where
  restored : (∀ b, s.Restored b) → ∀ b, t.Restored b
  reacquires : ∀ b ∈ t.effects.reacquires, (t.attempts b).waitsByMe = [] ∨
    ∃ w ∈ (t.attempts b).waitsByMe, (t.requests w).state = .ready

variable {K : AttemptId → ErrorCode → Prop} {s t u : State} {out out' : List (WaitId × ErrorCode)}

theorem Step.trans (h : Step K s t out) (h' : Step K t u out') : Step K s u (out ++ out') where
  inv := h'.inv
  moved := h.moved.trans h'.moved
  stopping b hb := h'.stopping b (h.stopping b hb)
  behind b p hphase hp := by
    obtain ⟨hphase', hp'⟩ := h'.behind b p hphase hp
    exact h.behind b p hphase' hp'
  finished b hb := h'.finished b (h.finished b hb)
  sourced hs := h'.sourced (h.sourced hs)
  answers hs p hp := by
    obtain hp | hp := List.mem_append.mp hp
    · exact h.answers hs p hp
    · have := h'.answers (h.sourced hs) p hp
      rwa [h.moved.target] at this

/-- The waits by an attempt are those it had and were not answered. -/
theorem Moved.byMe (h : Moved s t out) (hs : Links s) (ht : Links t) (b : AttemptId) (w : WaitId) :
    w ∈ (t.attempts b).waitsByMe ↔ w ∈ (s.attempts b).waitsByMe ∧ w ∉ out.map Prod.fst := by
  rw [ht.byMe, hs.byMe, h.waits, h.requester]
  tauto

/-- Where no wait is made ready and no result set, whatever is left was there before. -/
theorem Moved.sourced (h : Moved s t out)
    (hres : ∀ a, (t.attempts a).result = (s.attempts a).result)
    (hready : ∀ w ∈ t.waits, (t.requests w).state = .ready → t.requests w = s.requests w)
    (hs : Sourced s K) : Sourced t K where
  result a e ha := hs.result a e ((hres a).symm.trans ha)
  ready w hw hr := by
    have hsame := hready w hw hr
    rw [hsame] at hr ⊢
    exact hs.ready w ((h.waits w).mp hw).1 hr

theorem Inv.answering (h : Inv s) (ha : Answering s t out) : Inv t := by
  have hleft : ∀ w ∈ t.waits, w ∈ s.waits ∧ t.requests w = s.requests w := fun w hw => by
    obtain ⟨hmem, hnot⟩ := (ha.waits w).mp hw
    exact ⟨hmem, ha.others w hnot⟩
  refine ⟨ha.links, fun w hw => ?_, fun w hw hb => ?_, fun b => ?_, fun p b hp => ?_, ?_⟩
  · obtain ⟨hmem, hsame⟩ := hleft w hw
    obtain ⟨hdone, halone, howner⟩ := h.owned w hmem
    refine ⟨?_, ?_, ?_⟩ <;> rw [hsame]
    · exact hdone
    · exact halone
    · intro b hb
      rw [ha.control]; exact howner b hb
  · obtain ⟨hmem, hsame⟩ := hleft w hw
    rw [hsame] at hb ⊢
    rw [ha.control]
    exact h.unfinished w hmem hb
  · rw [ha.control]; exact h.control b
  · rw [ha.running] at hp
    rw [ha.control]; exact h.running p b hp
  · apply h.inRange.moved ha.toMoved
    · intro b p hb
      rwa [ha.control] at hb
    · intro b _
      rw [ha.control]

theorem Inv.answering_step (h : Inv s) (ha : Answering s t out)
    (hout : Sourced s K → ∀ p ∈ out, p.2 = canceled ∨ K (s.requests p.1).target p.2) :
    Step K s t out where
  inv := h.answering ha
  moved := ha.toMoved
  stopping b hb := by rw [ha.control]; exact hb
  behind b p hphase hp := by
    rw [ha.control] at hphase hp
    exact ⟨hphase, hp⟩
  finished b hb := by rw [ha.control]; exact hb
  sourced := ha.toMoved.sourced (fun a => by rw [ha.control])
    (fun w hw _ => ha.others w ((ha.waits w).mp hw).2)
  answers := hout

theorem TakesBack.result {c d : Control} (h : TakesBack c d) : d.result = c.result := by
  obtain rfl | ⟨_, _, _, rfl⟩ := h <;> rfl

theorem TakesBack.stopping {c d : Control} (h : TakesBack c d) : d.stopping = c.stopping := by
  obtain rfl | ⟨_, _, _, rfl⟩ := h <;> rfl

theorem TakesBack.phase {c d : Control} (h : TakesBack c d) : d.phase = c.phase := by
  obtain rfl | ⟨_, _, _, rfl⟩ := h <;> rfl

theorem TakesBack.output {c d : Control} (h : TakesBack c d) : d.output = c.output := by
  obtain rfl | ⟨_, _, _, rfl⟩ := h <;> rfl

theorem TakesBack.predecessor {c d : Control} (h : TakesBack c d) :
    d.predecessor = c.predecessor := by
  obtain rfl | ⟨_, _, _, rfl⟩ := h <;> rfl

theorem Inv.takesBack (h : Inv s) (ho : OnlyControl s t)
    (hc : ∀ b, TakesBack (s.attempts b).toControl (t.attempts b).toControl) : Step K s t [] where
  inv := by
    apply h.of_control ho.toSameLinks ho.kept ho.running
    · intro w hw b hb
      exact (hc b).owner ((h.owned w hw).owner b hb)
    · intro w hw hb
      rw [(hc _).result]; exact h.unfinished w hw hb
    · intro b
      exact (hc b).ok (h.control b)
    · intro b hb
      exact ⟨(hc b).phase.trans hb, (hc b).output⟩
    · intro b p hb
      rwa [(hc b).predecessor] at hb
    · intro b _
      exact (hc b).phase
  moved := ho.moved
  stopping b hb := (hc b).stopping.trans hb
  behind b p hphase hp := ⟨(hc b).phase.symm.trans hphase, (hc b).predecessor.symm.trans hp⟩
  finished b hb := by rw [(hc b).result]; exact hb
  sourced := ho.moved.sourced (fun a => (hc a).result) (fun w _ _ => by rw [ho.requests])
  answers _ p hp := by simp at hp

/-- An attempt that has lost no wait, and could not have gone without its permit unnoticed, still
waits for something. -/
theorem restored_of_keeps {b : AttemptId}
    (hphase : (t.attempts b).phase = .running → (s.attempts b).phase = .running)
    (hstop : (t.attempts b).stopping = false → (s.attempts b).stopping = false)
    (hpermit : (t.attempts b).permit = .released → (s.attempts b).permit = .released)
    (hwaits : (t.attempts b).stopping = false →
      ∀ w ∈ (s.attempts b).waitsByMe, w ∈ (t.attempts b).waitsByMe)
    (hs : s.Restored b) : t.Restored b := by
  intro hrun hnot hp hnil
  have hold := hs (hphase hrun) (hstop hnot) (hpermit hp)
  obtain ⟨w, hw⟩ := List.exists_mem_of_ne_nil _ hold
  have hmem := hwaits hnot w hw
  rw [hnil] at hmem
  simp at hmem

theorem Halted.step (h : Halted s t) : ∃ out, Step K s t out := by
  obtain ⟨ws, hm, hws⟩ := h.moved
  refine ⟨_, h.inv, hm, fun b => h.stopping, fun b p hphase hp => ?_, fun b hb => ?_, ?_,
    fun _ p hp => ?_⟩
  · obtain ⟨st, d, hc, _⟩ := h.only b
    rw [hc] at hphase hp
    exact ⟨hphase, hp⟩
  · obtain ⟨st, d, hc, _⟩ := h.only b
    rw [hc]
    exact hb
  · refine hm.sourced (fun a => ?_) (fun w hw _ => h.left w hw)
    obtain ⟨st, d, hc, _⟩ := h.only a
    rw [hc]
  · obtain ⟨w, _, rfl⟩ := List.mem_map.mp hp
    exact .inl rfl

theorem Halted.restores (h : Halted s t) (hs : Inv s) (he : s.effects.reacquires = []) :
    Restores s t where
  restored hr b := by
    obtain ⟨st, d, hc, hmono⟩ := h.only b
    have hmono' : (t.attempts b).stopping = false → (s.attempts b).stopping = false := by
      intro hnot
      apply Bool.eq_false_iff.mpr
      intro hstop
      have := h.stopping hstop
      simp [hnot] at this
    apply restored_of_keeps _ hmono' _ _ (hr b)
    · intro hrun
      rwa [hc] at hrun
    · intro hp
      rwa [hc] at hp
    · intro hnot w hw
      obtain ⟨ws, hm, hws⟩ := h.moved
      refine (hm.byMe hs.links h.inv.links b w).mpr ⟨hw, fun hout => ?_⟩
      have hmem : w ∈ ws := by simpa using hout
      have := hws w hmem b ((hs.links.byMe b w).mp hw).2
      simp [hnot] at this
  reacquires b hb := by
    rw [h.reacquires, he] at hb
    simp at hb

theorem Finished.step {a : AttemptId} (h : Finished s t a) :
    Step K s t ((s.attempts a).waitsByMe.map fun w => (w, canceled)) where
  inv := h.inv
  moved := h.moved
  stopping b hb := by
    by_cases hba : b = a
    · subst hba; exact h.ended.2.1
    · rw [h.others b hba]; exact hb
  behind b p hphase hp := by
    by_cases hba : b = a
    · subst hba
      rw [h.ended.1] at hphase
      simp at hphase
    · rw [h.others b hba] at hphase hp
      exact ⟨hphase, hp⟩
  finished b hb := by
    by_cases hba : b = a
    · subst hba; rw [h.ended.2.2.2.1]; exact hb
    · rw [h.others b hba]; exact hb
  sourced := by
    refine h.moved.sourced (fun b => ?_) (fun w hw _ => h.left w hw)
    by_cases hba : b = a
    · subst hba; exact h.ended.2.2.2.1
    · rw [h.others b hba]
  answers _ p hp := by
    obtain ⟨w, _, rfl⟩ := List.mem_map.mp hp
    exact .inl rfl

theorem Finished.restores {a : AttemptId} (h : Finished s t a) (hs : Inv s) : Restores s t where
  restored hr b := by
    by_cases hba : b = a
    · subst hba
      intro hrun
      rw [h.ended.1] at hrun
      simp at hrun
    · have hc := h.others b hba
      refine restored_of_keeps (fun hrun => ?_) (fun hnot => ?_) (fun hp => ?_)
        (fun _ w hw => ?_) (hr b)
      · rwa [hc] at hrun
      · rwa [hc] at hnot
      · rwa [hc] at hp
      · refine (h.moved.byMe hs.links h.inv.links b w).mpr ⟨hw, fun hout => hba ?_⟩
        have hmem : w ∈ (s.attempts a).waitsByMe := by simpa using hout
        have h1 := ((hs.links.byMe a w).mp hmem).2
        have h2 := ((hs.links.byMe b w).mp hw).2
        exact Option.some.inj (h2.symm.trans h1)
  reacquires b hb := by
    rw [h.reacquires] at hb
    simp at hb

/-- `complete` answers what waits on the attempt from outside every build, and leaves every other
wait on it ready, its attempt taking its permit back. -/
theorem Inv.complete (h : Inv s) {a : AttemptId} {e : ErrorCode} (hk : K a e) :
    (∃ out, Step K s.start (s.complete a e) out) ∧ Accounted s.start (s.complete a e) ∧
      Restores s.start (s.complete a e) ∧ ((s.complete a e).attempts a).result = some e := by
  let g : Control → Control := fun c => { c with result := some e, predecessor := none }
  let s1 := s.start.setAttempt a fun x => { x with result := some e, predecessor := none }
  let ws := (s.attempts a).waitsOnMe
  have honly : OnlyControl s.start s1 := s.start.setAttempt_onlyControl a
    (f := fun x => { x with result := some e, predecessor := none })
    (by intro _; rfl) (by intro _; rfl) (by intro _; rfl)
  have hctl : ∀ b, (s1.attempts b).toControl =
      if b = a then g (s.attempts a).toControl else (s.attempts b).toControl :=
    fun b => s.start.setAttempt_toControl a b (f := fun x =>
      { x with result := some e, predecessor := none }) (g := g) (by intro _; rfl)
  have hl1 : Links s1 := h.links.same ⟨honly.byMe, honly.onMe, honly.edges, rfl, rfl⟩
  have howned : ∀ w ∈ s1.waits, s1.Owned w := by
    intro w hw
    obtain ⟨hdone, halone, howner⟩ := h.owned w hw
    refine ⟨hdone, halone, fun b hb => ?_⟩
    have hown := howner b hb
    rw [hctl]
    split
    · rename_i hba
      subst hba
      exact ⟨hown.running, hown.notStopping, hown.permit⟩
    · exact hown
  have hok : ∀ b, ControlOk (s1.attempts b).toControl := by
    intro b
    rw [hctl]
    split
    · have hc := h.control a
      exact ⟨hc.outstanding, hc.unstarted, hc.started, hc.ended⟩
    · exact h.control b
  have hws : ∀ w ∈ ws, w ∈ s1.waits ∧ (s1.requests w).state = .blocked ∧
      (s1.requests w).target = a := fun w hw => (h.links.onMe a w).mp hw
  have hread := hl1.readyAll howned hok (h.links.onMeNodup a)
    (fun w hw => ⟨(hws w hw).1, (hws w hw).2.1⟩) e
  have hcomp : s.complete a e = ws.foldl (fun s w => s.ready w e) s1 := by
    have : (s1.attempts a).waitsOnMe = ws := honly.onMe a
    rw [← this]; rfl
  rw [hcomp]
  generalize ws.foldl (fun s w => s.ready w e) s1 = t at hread
  have hmoved := honly.moved.trans hread.moved
  rw [List.nil_append] at hmoved
  have hres : ∀ b, (t.attempts b).result = if b = a then some e else (s.attempts b).result := by
    intro b
    rw [(hread.control b).result, hctl]
    split <;> rfl
  have hphase : ∀ b, (t.attempts b).phase = (s.attempts b).phase := by
    intro b
    rw [(hread.control b).phase, hctl]
    split
    · rename_i hba; subst hba; rfl
    · rfl
  have hpred : ∀ b p, (t.attempts b).predecessor = some p →
      (s.attempts b).predecessor = some p := by
    intro b p hb
    rw [(hread.control b).predecessor, hctl] at hb
    split at hb
    · simp [g] at hb
    · exact hb
  have hstop : ∀ b, (t.attempts b).stopping = (s.attempts b).stopping := by
    intro b
    rw [(hread.control b).stopping, hctl]
    split
    · rename_i hba; subst hba; rfl
    · rfl
  have hleft : ∀ w ∈ t.waits, w ∈ s.waits ∧ (w ∈ ws ∧ (t.requests w).state = .ready ∧
      (t.requests w).result = e ∨ w ∉ ws ∧ t.requests w = s.requests w) := by
    intro w hw
    refine ⟨((hread.moved.waits w).mp hw).1, ?_⟩
    by_cases hmem : w ∈ ws
    · exact .inl ⟨hmem, hread.ready w hmem hw⟩
    · exact .inr ⟨hmem, hread.others w hmem⟩
  have hacc : Accounted s.start s1 :=
    accounted_of_control (fun b => by
      rw [hctl]
      split
      · rename_i hba; subst hba; exact ⟨rfl, rfl⟩
      · exact ⟨rfl, rfl⟩) rfl (fun _ => rfl)
  refine ⟨⟨_, ?_, hmoved, fun b hb => (hstop b).trans hb,
    fun b p hp hb => ⟨(hphase b).symm.trans hp, hpred b p hb⟩, fun b hb => ?_, fun hs => ?_,
    fun _ p hp => ?_⟩, hacc.trans hread.accounted, ⟨fun hr b => ?_, fun b hb => ?_⟩, ?_⟩
  · refine ⟨hread.links, hread.owned, fun w hw hb => ?_, fun b => (hread.control b).ok (hok b),
      fun p b hp => ?_, ?_⟩
    · obtain ⟨hmem, ⟨_, hready, _⟩ | ⟨hnot, hsame⟩⟩ := hleft w hw
      · simp [hready] at hb
      · rw [hsame] at hb ⊢
        have hne : (s.requests w).target ≠ a := fun hta =>
          hnot ((h.links.onMe a w).mpr ⟨hmem, hb, hta⟩)
        rw [hres, if_neg hne]
        exact h.unfinished w hmem hb
    · rw [hread.running] at hp
      obtain ⟨hrun, hout⟩ := h.running p b hp
      refine ⟨(hphase b).trans hrun, ?_⟩
      rw [(hread.control b).output, hctl]
      split
      · rename_i hba; subst hba; exact hout
      · exact hout
    · apply h.start.inRange.moved hmoved hpred
      intro b _
      exact hphase b
  · rw [hres]
    split
    · simp
    · exact hb
  · refine ⟨fun b f hb => ?_, fun w hw hr => ?_⟩
    · rw [hres] at hb
      split at hb
      · rename_i hba
        rw [hba, ← Option.some.inj hb]
        exact hk
      · exact hs.result b f hb
    · obtain ⟨hmem, ⟨hw', _, hresult⟩ | ⟨_, hsame⟩⟩ := hleft w hw
      · have htarget : (t.requests w).target = a := (hmoved.target w).trans (hws w hw').2.2
        rw [hresult, htarget]
        exact hk
      · rw [hsame] at hr ⊢
        exact hs.ready w hmem hr
  · obtain ⟨w, hw, rfl⟩ := List.mem_map.mp hp
    have htarget : (s.start.requests w).target = a := (hws w (List.mem_of_mem_filter hw)).2.2
    exact .inr (by rw [htarget]; exact hk)
  · refine restored_of_keeps (fun hrun => (hphase b).symm.trans hrun)
      (fun hnot => (hstop b).symm.trans hnot) (fun hp => ?_) (fun _ w hw => ?_) (hr b)
    · obtain hc | ⟨_, _, _, hc⟩ := hread.control b
      · rw [hc, hctl] at hp
        split at hp
        · rename_i hba; subst hba; exact hp
        · exact hp
      · rw [hc] at hp
        simp [Control.takeBack] at hp
    · obtain ⟨hmem, hreq⟩ := (h.links.byMe b w).mp hw
      refine (hread.links.byMe b w).mpr ⟨?_, (hmoved.requester w).trans hreq⟩
      refine (hmoved.waits w).mpr ⟨hmem, fun hout => ?_⟩
      simp only [List.map_map, List.mem_map, List.mem_filter] at hout
      obtain ⟨x, ⟨_, hx⟩, rfl⟩ := hout
      have hnone : (s1.requests x).requester = none := by simpa using hx
      exact absurd (hnone.symm.trans hreq) (by simp)
  · obtain hb | ⟨w, hw, hby⟩ := hread.reacquires b hb
    · have : s1.effects.reacquires = [] := rfl
      simp [this] at hb
    · exact .inr ⟨w, hby, (hread.ready w hw ((hread.links.byMe b w).mp hby).1).1⟩
  · rw [hres, if_pos rfl]

theorem giveBackIfWaiting_cases (a : AttemptId) :
    (s.giveBackIfWaiting a = s ∧ ¬((s.attempts a).permit = .held ∧
      (s.attempts a).stopping = false ∧
      ∃ w ∈ (s.attempts a).waitsByMe, (s.requests w).state = .blocked)) ∨
    (s.giveBackIfWaiting a = s.giveBack a ∧ (s.attempts a).permit = .held ∧
      (s.attempts a).stopping = false ∧
      ∃ w ∈ (s.attempts a).waitsByMe, (s.requests w).state = .blocked) := by
  unfold giveBackIfWaiting
  split
  · rename_i hcond
    obtain ⟨hheld, hstop, hany⟩ := hcond
    obtain ⟨w, hw, hb⟩ := List.any_eq_true.mp hany
    exact .inr ⟨rfl, hheld, hstop, w, hw, by simpa using hb⟩
  · rename_i hcond
    refine .inl ⟨rfl, fun ⟨hheld, hstop, w, hw, hb⟩ => hcond ⟨hheld, hstop, ?_⟩⟩
    exact List.any_eq_true.mpr ⟨w, hw, by simpa using hb⟩

/-- Where `on_reacquired` starts from: the take-back is over, granted or not. -/
def regained (s : State) (a : AttemptId) (granted : Bool) : State :=
  s.start.setAttempt a fun x =>
    { x with reacquireOutstanding := false, permit := if granted then .held else .released }

theorem regained_toControl (a : AttemptId) (granted : Bool) (b : AttemptId) :
    ((s.regained a granted).attempts b).toControl = if b = a then
      { (s.attempts a).toControl with
        reacquireOutstanding := false, permit := if granted then .held else .released }
    else (s.attempts b).toControl :=
  s.start.setAttempt_toControl a b (g := fun c =>
    { c with reacquireOutstanding := false, permit := if granted then .held else .released })
    (by intro _; rfl)

theorem regained_onlyControl (a : AttemptId) (granted : Bool) :
    OnlyControl s.start (s.regained a granted) :=
  s.start.setAttempt_onlyControl a (by intro _; rfl) (by intro _; rfl) (by intro _; rfl)

/-- Clearing `drain` is seen by nothing else. -/
def drained (s : State) (a : AttemptId) : State :=
  if (s.attempts a).drain then
    let s := s.setAttempt a fun x => { x with drain := false }
    { s with effects := { s.effects with drains := s.effects.drains ++ [a] } }
  else s

theorem drained_onlyControl (a : AttemptId) : OnlyControl s (s.drained a) := by
  have h := s.setAttempt_onlyControl a (f := fun x => { x with drain := false })
    (by intro _; rfl) (by intro _; rfl) (by intro _; rfl)
  unfold drained
  split
  · exact ⟨⟨h.byMe, h.onMe, h.edges, rfl, rfl⟩, ⟨rfl, rfl⟩, rfl, rfl⟩
  · exact .refl s

theorem drained_toControl (a b : AttemptId) : ((s.drained a).attempts b).toControl =
    { (s.attempts b).toControl with
      drain := if b = a then ((s.drained a).attempts a).drain else (s.attempts b).drain } := by
  unfold drained
  split
  · show ((s.setAttempt a fun x => { x with drain := false }).attempts b).toControl = _
    rw [s.setAttempt_toControl a b (g := fun c => { c with drain := false }) (by intro _; rfl)]
    by_cases hba : b = a
    · subst hba; simp [setAttempt_attempts]
    · rw [if_neg hba, if_neg hba]
  · by_cases hba : b = a
    · subst hba; simp
    · rw [if_neg hba]

theorem drained_other {a b : AttemptId} (hba : b ≠ a) :
    ((s.drained a).attempts b).toControl = (s.attempts b).toControl := by
  rw [drained_toControl, if_neg hba]

theorem drained_calls (a : AttemptId) : (s.drained a).calls = s.calls := by
  unfold drained
  split <;> rfl

theorem drained_reacquires (a : AttemptId) :
    (s.drained a).effects.reacquires = s.effects.reacquires := by
  unfold drained
  split <;> rfl

/-- What `on_reacquired` leaves of an attempt `a`: the permit is with it only if nothing by it is
blocked, and every wait left is. -/
structure Regained (s t : State) (a : AttemptId) (granted : Bool)
    (out : List (WaitId × ErrorCode)) : Prop where
  links : Links t
  moved : Moved s t out
  left : ∀ w ∈ t.waits, t.requests w = s.requests w
  ready : ∀ p ∈ out, (s.requests p.1).state = .ready ∧
    (p.2 = canceled ∨ p.2 = (s.requests p.1).result)
  blocked : ∀ w ∈ (t.attempts a).waitsByMe, (t.requests w).state ≠ .ready
  others : ∀ b, b ≠ a → (t.attempts b).toControl = (s.attempts b).toControl
  self : ∃ p d, (t.attempts a).toControl = { (s.attempts a).toControl with
    reacquireOutstanding := false, permit := p, drain := d } ∧ (p = .held ∨ p = .released) ∧
      (∀ w ∈ (t.attempts a).waitsByMe, (t.requests w).state = .blocked →
        (s.attempts a).stopping = false → p = .released) ∧
      (granted = true → p = .released → (t.attempts a).waitsByMe ≠ [])
  keptWaits : ∀ b, b ≠ a → ∀ w ∈ (s.attempts b).waitsByMe, w ∈ (t.attempts b).waitsByMe
  accounted : Accounted (s.regained a granted) t
  running : t.running = s.running
  reacquires : t.effects.reacquires = []

theorem Links.onReacquired (h : Links s) {a : AttemptId} (granted : Bool)
    (hlease : (s.attempts a).lease = true) :
    ∃ out, Regained s.start (s.onReacquired a granted) a granted out := by
  let s1 := s.regained a granted
  have honly : OnlyControl s.start s1 := regained_onlyControl a granted
  have hl1 : Links s1 := h.same ⟨honly.byMe, honly.onMe, honly.edges, rfl, rfl⟩
  have hby : (s1.attempts a).waitsByMe = (s.attempts a).waitsByMe := honly.byMe a
  have hans := foldl_answerReady a granted hl1 (fun w hw => ((hl1.byMe a w).mp hw).1)
    (hl1.byMeNodup a)
  have hdef : s.onReacquired a granted = (((s1.attempts a).waitsByMe.foldl
      (fun s w => s.answerReady a granted w) s1).giveBackIfWaiting a).drained a := rfl
  rw [hdef]
  generalize (s1.attempts a).waitsByMe.foldl (fun s w => s.answerReady a granted w) s1 = s2 at hans
  have hself : (s2.attempts a).toControl = { (s.attempts a).toControl with
      reacquireOutstanding := false, permit := if granted then .held else .released } := by
    rw [hans.control, regained_toControl, if_pos rfl]
  have hother : ∀ b, b ≠ a → (s2.attempts b).toControl = (s.attempts b).toControl := fun b hb => by
    rw [hans.control, regained_toControl, if_neg hb]
  have hgive : ∃ p, OnlyControl s2 (s2.giveBackIfWaiting a) ∧
      Accounted s2 (s2.giveBackIfWaiting a) ∧
      ((s2.giveBackIfWaiting a).attempts a).toControl =
        { (s2.attempts a).toControl with permit := p } ∧
      (∀ b, b ≠ a → ((s2.giveBackIfWaiting a).attempts b).toControl = (s2.attempts b).toControl) ∧
      (s2.giveBackIfWaiting a).effects = s2.effects ∧ (p = .held ∨ p = .released) ∧
      (∀ w ∈ (s2.attempts a).waitsByMe, (s2.requests w).state = .blocked →
        (s2.attempts a).stopping = false → p = .released) ∧
      (granted = true → p = .released → (s2.attempts a).waitsByMe ≠ []) := by
    obtain ⟨heq, hnot⟩ | ⟨heq, hheld, hstop, w, hw, hb⟩ := giveBackIfWaiting_cases (s := s2) a
    · rw [heq]
      refine ⟨(s2.attempts a).permit, .refl s2, .refl s2, rfl, fun _ _ => rfl, rfl, ?_, ?_, ?_⟩
      · rw [hself]; cases granted <;> simp
      · intro w hw hb hstop
        rw [hself]
        cases granted
        · rfl
        · exact absurd ⟨by rw [hself]; rfl, hstop, w, hw, hb⟩ hnot
      · intro hg hp
        rw [hself, hg] at hp
        simp at hp
    · rw [heq]
      refine ⟨.released, s2.giveBack_onlyControl a, giveBack_accounted hheld ?_, ?_, fun b hb => ?_,
        s2.giveBack_effects a, .inr rfl, fun _ _ _ _ => rfl, fun _ _ => List.ne_nil_of_mem hw⟩
      · rw [hself]; exact hlease
      · rw [giveBack_toControl, if_pos rfl]
      · rw [giveBack_toControl, if_neg hb]
  obtain ⟨p, honly2, hacc2, hp, hpo, heff, hpcases, hpb, hpg⟩ := hgive
  generalize s2.giveBackIfWaiting a = s3 at honly2 hacc2 hp hpo heff
  have honly3 : OnlyControl s3 (s3.drained a) := drained_onlyControl a
  have honly' := honly2.trans honly3
  have hmoved := (honly.moved.trans hans.toMoved).trans honly'.moved
  rw [List.nil_append, List.append_nil] at hmoved
  have hready : ∀ q ∈ ((s1.attempts a).waitsByMe.filter fun w => (s1.requests w).state = .ready).map
      (fun w => (w, if granted && !(s1.attempts a).stopping then (s1.requests w).result
        else canceled)), (s.requests q.1).state = .ready ∧
          (q.2 = canceled ∨ q.2 = (s.requests q.1).result) := by
    intro q hq
    obtain ⟨w, hw, rfl⟩ := List.mem_map.mp hq
    obtain ⟨_, hr⟩ := List.mem_filter.mp hw
    have hr' : (s1.requests w).state = .ready := by simpa using hr
    refine ⟨hr', ?_⟩
    show (if _ then _ else _) = _ ∨ (if _ then _ else _) = _
    split
    · exact .inr rfl
    · exact .inl rfl
  have hleft : ∀ w ∈ (s3.drained a).waits, (s3.drained a).requests w = s.requests w := by
    intro w hw
    rw [honly'.waits] at hw
    rw [honly'.requests]
    exact hans.others w ((hans.waits w).mp hw).2
  have hlinks := hans.links.same honly'.toSameLinks
  refine ⟨_, hlinks, hmoved, hleft, hready, fun w hw hr => ?_, fun b hb => ?_, ?_,
    fun b hb w hw => ?_, ?_, ?_, ?_⟩
  · have hw2 : w ∈ (s2.attempts a).waitsByMe := by rwa [honly'.byMe] at hw
    obtain ⟨hmem, hreq⟩ := (hans.links.byMe a w).mp hw2
    obtain ⟨hmem1, hnot⟩ := (hans.waits w).mp hmem
    rw [hans.requester] at hreq
    rw [honly'.requests, hans.others w hnot] at hr
    apply hnot
    rw [List.map_map]
    exact List.mem_map.mpr ⟨w, List.mem_filter.mpr
      ⟨(hl1.byMe a w).mpr ⟨hmem1, hreq⟩, by simpa using hr⟩, rfl⟩
  · rw [drained_other hb, hpo b hb, hother b hb]; rfl
  · refine ⟨p, _, by rw [drained_toControl, hp, hself]; rfl, hpcases, fun w hw hb hstop => ?_, fun hg hpr => ?_⟩
    · rw [honly'.byMe] at hw
      rw [honly'.requests] at hb
      exact hpb w hw hb (by rw [hself]; exact hstop)
    · rw [honly'.byMe]; exact hpg hg hpr
  · obtain ⟨hmem, hreq⟩ := (h.byMe b w).mp hw
    refine (hlinks.byMe b w).mpr ⟨(hmoved.waits w).mpr ⟨hmem, fun hout => ?_⟩,
      (hmoved.requester w).trans hreq⟩
    rw [List.map_map] at hout
    obtain ⟨v, hv, rfl⟩ := List.mem_map.mp hout
    have hva := ((hl1.byMe a v).mp (List.mem_of_mem_filter hv)).2
    exact hb (Option.some.inj (hreq.symm.trans hva))
  · refine hans.accounted.trans (hacc2.trans (accounted_of_control (fun b => ?_)
      (drained_reacquires a) (fun b => by rw [drained_calls])))
    rw [drained_toControl]
    exact ⟨rfl, rfl⟩
  · exact honly'.running.trans (hans.running.trans honly.running)
  · rw [drained_reacquires, heff, hans.effects]
    rfl

/-- `on_reacquired` answers every wait of the attempt that is ready, and gives the permit straight
back if others are blocked. -/
theorem Inv.onReacquired (h : Inv s) {a : AttemptId}
    (hout : (s.attempts a).reacquireOutstanding = true) (granted : Bool) :
    (∃ out, Step K s.start (s.onReacquired a granted) out) ∧
      Accounted (s.regained a granted) (s.onReacquired a granted) ∧
      (granted = true ∨ (s.attempts a).stopping = true →
        Restores s.start (s.onReacquired a granted)) := by
  have hca := h.control a
  have hreac : (s.attempts a).permit = .reacquiring := hca.outstanding.mpr hout
  have hphase : (s.attempts a).phase = .running ∨ (s.attempts a).phase = .ended := by
    cases hp : (s.attempts a).phase
    · have := (hca.unstarted (.inl hp)).1
      rw [hreac] at this
      simp at this
    · have := (hca.unstarted (.inr hp)).1
      rw [hreac] at this
      simp at this
    · exact .inl rfl
    · exact .inr rfl
  have hlt : a < s.attemptCount := h.inRange.lt_of_phase (by
    obtain hp | hp := hphase <;> simp [hp])
  obtain ⟨out, hr⟩ := h.links.onReacquired granted (hca.started hphase).2
  obtain ⟨p, d, hself, hpcases, hblocked, hgranted⟩ := hr.self
  generalize s.onReacquired a granted = t at hr hself hblocked hgranted
  have hctl : ∀ b, (t.attempts b).phase = (s.attempts b).phase ∧
      (t.attempts b).stopping = (s.attempts b).stopping ∧
      (t.attempts b).result = (s.attempts b).result ∧
      (t.attempts b).predecessor = (s.attempts b).predecessor ∧
      (t.attempts b).output = (s.attempts b).output := by
    intro b
    by_cases hba : b = a
    · subst hba
      rw [hself]
      exact ⟨rfl, rfl, rfl, rfl, rfl⟩
    · rw [hr.others b hba]
      exact ⟨rfl, rfl, rfl, rfl, rfl⟩
  have hreq : ∀ {w b}, w ∈ t.waits → (s.requests w).requester = some b →
      w ∈ (t.attempts b).waitsByMe := fun hw hb =>
    (hr.links.byMe _ _).mpr ⟨hw, (hr.moved.requester _).trans hb⟩
  have hinv : Inv t := by
    refine ⟨hr.links, fun w hw => ?_, fun w hw hb => ?_, fun b => ?_, fun q b hq => ?_, ?_⟩
    · have hmem := ((hr.moved.waits w).mp hw).1
      obtain ⟨hdone, halone, howner⟩ := h.owned w hmem
      refine ⟨?_, ?_, ?_⟩ <;> rw [hr.left w hw]
      · exact hdone
      · exact halone
      · intro b hb
        have hown := howner b hb
        have hst := hctl b
        refine ⟨hst.1.trans hown.running, hst.2.1.trans hown.notStopping, ?_⟩
        by_cases hba : b = a
        · subst hba
          have hwait := hreq hw hb
          have hnot := hr.blocked w hwait
          rw [hr.left w hw] at hnot
          have hblk : (s.requests w).state = .blocked := by
            cases hs : (s.requests w).state
            · rfl
            · exact absurd hs hnot
            · exact absurd hs hdone
          have := hblocked w hwait (by rw [hr.left w hw]; exact hblk) hown.notStopping
          rw [hself]
          exact .inr ⟨this, hblk⟩
        · rw [hr.others b hba]
          exact hown.permit
    · rw [hr.left w hw] at hb ⊢
      rw [(hctl _).2.2.1]
      exact h.unfinished w ((hr.moved.waits w).mp hw).1 hb
    · by_cases hba : b = a
      · subst hba
        rw [hself]
        refine ⟨?_, fun hq => ?_, fun _ => ⟨?_, (hca.started hphase).2⟩, hca.ended⟩
        · obtain rfl | rfl := hpcases <;> simp
        · have := (hca.unstarted hq).1
          rw [hreac] at this
          simp at this
        · obtain rfl | rfl := hpcases <;> simp
      · rw [hr.others b hba]
        exact h.control b
    · rw [hr.running] at hq
      obtain ⟨hrun, ho⟩ := h.running q b hq
      exact ⟨(hctl b).1.trans hrun, (hctl b).2.2.2.2.trans ho⟩
    · refine ⟨fun w hw => ?_, fun w hw => ?_, fun b q hq => ?_, fun b hb => ?_, fun w hw => ?_⟩
      · rw [hr.moved.kept.waitCount]
        exact h.inRange.wait w ((hr.moved.waits w).mp hw).1
      · rw [hr.moved.kept.attemptCount, hr.left w hw]
        exact h.inRange.target w ((hr.moved.waits w).mp hw).1
      · rw [(hctl b).2.2.2.1] at hq
        rw [hr.moved.kept.attemptCount]
        exact h.inRange.predecessor b q hq
      · rw [hr.moved.kept.attemptCount] at hb
        have hba : b ≠ a := fun hba => Nat.not_lt.mpr hb (hba ▸ hlt)
        rw [hr.others b hba]
        exact h.inRange.freshAttempt b hb
      · rw [hr.moved.kept.waitCount] at hw
        rw [hr.moved.rest w (fun hmem => Nat.not_lt.mpr hw (h.inRange.wait w hmem))]
        exact h.inRange.freshWait w hw
  refine ⟨⟨out, hinv, hr.moved, fun b hb => (hctl b).2.1.trans hb, fun b q hp hq => ?_,
    fun b hb => by rw [(hctl b).2.2.1]; exact hb, hr.moved.sourced (fun b => (hctl b).2.2.1) (fun w hw _ => hr.left w hw), fun hs q hq => ?_⟩,
    hr.accounted, fun hg => ⟨fun hres b => ?_, fun b hb => ?_⟩⟩
  · rw [(hctl b).1] at hp
    rw [(hctl b).2.2.2.1] at hq
    exact ⟨hp, hq⟩
  · obtain ⟨hready, hcan | hresult⟩ := hr.ready q hq
    · exact .inl hcan
    · rw [hresult]
      refine .inr (hs.ready q.1 ?_ hready)
      exact hr.moved.found q.1 (List.mem_map_of_mem hq)
  · by_cases hba : b = a
    · subst hba
      intro _ hstop hp
      have hg' : granted = true := by
        obtain hg | hg := hg
        · exact hg
        · rw [(hctl b).2.1] at hstop
          exact absurd (hstop.symm.trans hg) (by simp)
      apply hgranted hg'
      rw [hself] at hp
      exact hp
    · refine restored_of_keeps (fun hrun => (hctl b).1.symm.trans hrun)
        (fun hnot => (hctl b).2.1.symm.trans hnot) (fun hp => ?_)
        (fun _ => hr.keptWaits b hba) (hres b)
      rw [hr.others b hba] at hp
      exact hp
  · rw [hr.reacquires] at hb
    simp at hb

theorem Restores.refl (he : s.effects.reacquires = []) : Restores s s where
  restored h := h
  reacquires b hb := by
    rw [he] at hb
    simp at hb

/-- `cancel_wait` answers the wait it is for, and has the attempt take its permit back if that was
the last. -/
theorem Inv.cancelWait (h : Inv s) {w : WaitId}
    (hw : w ∈ s.waits ∨ (s.requests w).state = .done) :
    (∃ out, Step K s.start (s.cancelWait w) out) ∧ Accounted s.start (s.cancelWait w) ∧
      Restores s.start (s.cancelWait w) := by
  by_cases hdone : (s.requests w).state = .done
  · have heq : s.cancelWait w = s.start := by
      simp [State.cancelWait, hdone]
    rw [heq]
    exact ⟨⟨[], h.start.answering_step (.nil h.start.links) (by simp)⟩, .refl _, .refl rfl⟩
  have hmem : w ∈ s.start.waits := hw.resolve_right hdone
  have hans := h.start.links.answering hmem canceled
  have hstep : Step K s.start (s.start.answer w canceled) [(w, canceled)] :=
    h.start.answering_step hans (by simp)
  let u := s.start.answer w canceled
  have hreq : (u.requests w).requester = (s.requests w).requester := hans.requester w
  have hreac : u.effects.reacquires = [] := by
    rw [hans.effects]; rfl
  have hby : ∀ b, (s.requests w).requester ≠ some b →
      ∀ v ∈ (s.attempts b).waitsByMe, v ∈ (u.attempts b).waitsByMe := fun b hb v hv => by
    refine (hans.byMe h.start.links hans.links b v).mpr ⟨hv, fun hout => hb ?_⟩
    have hvw : v = w := by simpa using hout
    rw [← hvw]
    exact ((h.links.byMe b v).mp hv).2
  have hrest : ∀ b, (s.requests w).requester ≠ some b → s.start.Restored b → u.Restored b :=
    fun b hb => restored_of_keeps (fun hrun => by rwa [hans.control] at hrun)
      (fun hnot => by rwa [hans.control] at hnot) (fun hp => by rwa [hans.control] at hp)
      (fun _ => hby b hb)
  rw [cancelWait_unanswered u hdone rfl, hreq]
  cases hr : (s.requests w).requester with
  | none =>
    refine ⟨⟨_, hstep⟩, hans.accounted, fun hres b => ?_, fun b hb => ?_⟩
    · exact hrest b (by simp [hr]) (hres b)
    · rw [hreac] at hb
      simp at hb
  | some r =>
    dsimp only
    by_cases hcond : (u.attempts r).stopping = false ∧ (u.attempts r).waitsByMe = [] ∧
        (u.attempts r).permit = .released
    · rw [if_pos hcond]
      obtain ⟨hstop, hnil, hrel⟩ := hcond
      have hown := (h.owned w hmem).owner r hr
      have honly := u.reacquire_onlyControl r
      have htb : ∀ b, TakesBack (u.attempts b).toControl ((u.reacquire r).attempts b).toControl := by
        intro b
        rw [reacquire_toControl]
        split
        · subst b
          have hrun : (u.attempts r).phase = .running := by
            rw [hans.control]; exact hown.running
          exact .inr ⟨hrun, hstop, hrel, rfl⟩
        · exact .inl rfl
      have htb' := hstep.inv.takesBack (K := K) honly htb
      refine ⟨⟨_, hstep.trans htb'⟩,
        hans.accounted.trans (reacquire_accounted hrel (hstep.inv.control r)),
        fun hres b => ?_, fun b hb => ?_⟩
      · by_cases hbr : b = r
        · subst hbr
          intro _ _ hp
          rw [reacquire_toControl, if_pos rfl] at hp
          simp at hp
        · have hc : ((u.reacquire r).attempts b).toControl = (u.attempts b).toControl := by
            rw [reacquire_toControl, if_neg hbr]
          have hne : (s.requests w).requester ≠ some b := by
            rw [hr]
            intro hrb
            exact hbr (Option.some.inj hrb).symm
          refine restored_of_keeps (fun hrun => by rwa [hc] at hrun)
            (fun hnot => by rwa [hc] at hnot) (fun hp => by rwa [hc] at hp)
            (fun _ v hv => by rwa [honly.byMe]) (hrest b hne (hres b))
      · rw [reacquire_effects] at hb
        have hbr : b = r := by simpa [hreac] using hb
        subst hbr
        refine .inl ?_
        rw [honly.byMe]; exact hnil
    · rw [if_neg hcond]
      refine ⟨⟨_, hstep⟩, hans.accounted, fun hres b => ?_, fun b hb => ?_⟩
      · by_cases hbr : b = r
        · subst hbr
          intro _ hstop hp hnil
          exact hcond ⟨hstop, hnil, hp⟩
        · apply hrest b _ (hres b)
          rw [hr]
          intro hrb
          exact hbr (Option.some.inj hrb).symm
      · rw [hreac] at hb
        simp at hb

end MakeBelieve.Coordinator.State
