import MakeBelieve.Coordinator.Steps

namespace MakeBelieve.Coordinator.State

variable {s t : State} {K : AttemptId → ErrorCode → Prop}

/-- An attempt not made yet is named by no wait and waits for nothing. -/
theorem Inv.fresh (h : Inv s) {a : AttemptId} (ha : s.attemptCount ≤ a) :
    (s.attempts a).waitsByMe = [] ∧ (s.attempts a).waitsOnMe = [] ∧
      ∀ b, (s.attempts a).edgesOut b = none := by
  have hctl := h.inRange.freshAttempt a ha
  have hby : (s.attempts a).waitsByMe = [] := h.no_waits fun state hown => by
    have := hown.running
    rw [hctl] at this
    simp at this
  have hon : (s.attempts a).waitsOnMe = [] := by
    rw [List.eq_nil_iff_forall_not_mem]
    intro w hw
    obtain ⟨hmem, _, ht⟩ := (h.links.onMe a w).mp hw
    exact Nat.not_lt.mpr ha (ht ▸ h.inRange.target w hmem)
  refine ⟨hby, hon, fun b => ?_⟩
  cases hedge : (s.attempts a).edgesOut b with
  | none => rfl
  | some n =>
    obtain ⟨w, hw, _, hreq, _⟩ := (h.links.edge_iff a b).mp (by rw [hedge]; rfl)
    have hmem := (h.links.byMe a w).mpr ⟨hw, hreq⟩
    rw [hby] at hmem
    simp at hmem

/-- What making an attempt does: it comes after all others, with nothing waiting on it. -/
structure Created (s t : State) : Prop where
  inv : Inv t
  links : SameLinks s t
  attemptCount : t.attemptCount = s.attemptCount + 1
  waitCount : t.waitCount = s.waitCount
  others : ∀ b, b ≠ s.attemptCount → (t.attempts b).toControl = (s.attempts b).toControl
  self : ∃ output, ∃ p, (t.attempts s.attemptCount).toControl =
    { output := output, predecessor := p } ∧ ∀ b, p = some b → b < s.attemptCount
  effects : t.effects = {}
  calls : t.calls = []

theorem Inv.createAttempt (h : Inv s) (output : Path) {predecessor : Option AttemptId}
    (hp : ∀ p, predecessor = some p → p < s.attemptCount) :
    Created s (s.createAttempt output predecessor) := by
  let n := s.attemptCount
  let before := predecessor.filter (fun p => (s.attempts p).phase ≠ .ended)
  have hbefore : ∀ b, before = some b → b < s.attemptCount := fun b hb =>
    hp b (Option.mem_filter_iff.mp hb).1
  obtain ⟨hby, hon, hedges⟩ := h.fresh (Nat.le_refl n)
  have hdef : ∀ b, (s.createAttempt output predecessor).attempts b =
      if b = n then { output := output, predecessor := before } else s.attempts b :=
    fun b => Function.update_apply ..
  have hctl : ∀ b, ((s.createAttempt output predecessor).attempts b).toControl =
      if b = n then { output := output, predecessor := before } else (s.attempts b).toControl := by
    intro b
    rw [hdef]
    split <;> rfl
  have hlinks : SameLinks s (s.createAttempt output predecessor) := by
    refine ⟨fun b => ?_, fun b => ?_, fun b => ?_, rfl, rfl⟩
    · rw [hdef]
      split
      · rename_i hbn; rw [hbn]; exact hby.symm
      · rfl
    · rw [hdef]
      split
      · rename_i hbn; rw [hbn]; exact hon.symm
      · rfl
    · rw [hdef]
      split
      · rename_i hbn; rw [hbn]; exact (funext hedges).symm
      · rfl
  refine ⟨⟨h.links.same hlinks, fun w hw => ?_, fun w hw hb => ?_, fun b => ?_, fun p b hb => ?_,
    fun w hw => h.inRange.wait w hw, fun w hw => ?_, fun b p hb => ?_, fun b hb => ?_,
    h.inRange.freshWait⟩, hlinks, rfl, rfl, fun b hb => ?_, ⟨output, before, ?_, hbefore⟩, rfl, rfl⟩
  · obtain ⟨hdone, halone, howner⟩ := h.owned w hw
    refine ⟨hdone, halone, fun b hb => ?_⟩
    have hown := howner b hb
    have hbn : b ≠ n := by
      intro hbn
      have hmem := (h.links.byMe b w).mpr ⟨hw, hb⟩
      rw [hbn, hby] at hmem
      simp at hmem
    rw [hctl, if_neg hbn]
    exact hown
  · have hlt := h.inRange.target w hw
    have hne : ((s.createAttempt output predecessor).requests w).target ≠ n := Nat.ne_of_lt hlt
    rw [hctl, if_neg hne]
    exact h.unfinished w hw hb
  · rw [hctl]
    split
    · exact ⟨by simp, fun _ => ⟨rfl, rfl⟩, by simp, by simp⟩
    · exact h.control b
  · obtain ⟨hrun, ho⟩ := h.running p b hb
    have hbn : b ≠ n := Nat.ne_of_lt (h.inRange.lt_of_phase (by simp [hrun]))
    rw [hctl, if_neg hbn]
    exact ⟨hrun, ho⟩
  · exact Nat.lt_succ_of_lt (h.inRange.target w hw)
  · rw [hctl] at hb
    split at hb
    · exact Nat.lt_succ_of_lt (hbefore p hb)
    · exact Nat.lt_succ_of_lt (h.inRange.predecessor b p hb)
  · have hb' : n + 1 ≤ b := hb
    have hbn : b ≠ n := by omega
    rw [hctl, if_neg hbn]
    exact h.inRange.freshAttempt b (by omega)
  · rw [hctl, if_neg hb]
  · rw [hctl, if_pos rfl]

/-- `run` only puts the attempt in line. -/
theorem Inv.run (h : Inv s) {a : AttemptId} (hp : (s.attempts a).phase = .pending)
    (ha : a < s.attemptCount) :
    Step K s.start (s.run a) [] ∧ Accounted s.start (s.run a) ∧ Restores s.start (s.run a) := by
  have honly : OnlyControl s.start (s.run a) := s.start.setAttempt_onlyControl a
    (f := fun x => { x with phase := .queued, predecessor := none })
    (by intro _; rfl) (by intro _; rfl) (by intro _; rfl)
  have hctl : ∀ b, ((s.run a).attempts b).toControl = if b = a then
      { (s.attempts a).toControl with phase := .queued, predecessor := none }
      else (s.attempts b).toControl :=
    fun b => s.start.setAttempt_toControl a b
      (f := fun x => { x with phase := .queued, predecessor := none })
      (g := fun c => { c with phase := .queued, predecessor := none }) (by intro _; rfl)
  have hstop : ∀ b, ((s.run a).attempts b).stopping = (s.attempts b).stopping := by
    intro b
    rw [hctl]
    split
    · subst b; rfl
    · rfl
  have hresult : ∀ b, ((s.run a).attempts b).result = (s.attempts b).result := by
    intro b
    rw [hctl]
    split
    · subst b; rfl
    · rfl
  have hpermit : ∀ b, ((s.run a).attempts b).permit = (s.attempts b).permit ∧
      ((s.run a).attempts b).reacquireOutstanding = (s.attempts b).reacquireOutstanding := by
    intro b
    rw [hctl]
    split
    · subst b; exact ⟨rfl, rfl⟩
    · exact ⟨rfl, rfl⟩
  have hinv : Inv (s.run a) := by
    apply h.start.of_control honly.toSameLinks honly.kept honly.running
    · intro w hw b hb
      have hown := (h.owned w hw).owner b hb
      have hba : b ≠ a := by
        intro hba
        have := hown.running
        rw [hba, hp] at this
        simp at this
      rw [hctl, if_neg hba]
      exact hown
    · intro w hw hb
      rw [hresult]
      exact h.unfinished w hw hb
    · intro b
      rw [hctl]
      split
      · have hc := (h.control a)
        have hun := hc.unstarted (.inl hp)
        exact ⟨hc.outstanding, fun _ => hun, by simp, by simp⟩
      · exact h.control b
    · intro b hb
      have hba : b ≠ a := by
        intro hba
        rw [hba] at hb
        exact absurd (hb.symm.trans hp) (by simp)
      rw [hctl, if_neg hba]
      exact ⟨hb, rfl⟩
    · intro b p hb
      rw [hctl] at hb
      split at hb
      · simp at hb
      · exact hb
    · intro b hb
      have hba : b ≠ a := fun hba => Nat.not_lt.mpr hb (hba ▸ ha)
      rw [hctl, if_neg hba]
      rfl
  refine ⟨⟨hinv, honly.moved, fun b hb => (hstop b).trans hb, fun b p hb hbp => ?_,
    fun b hb => by rw [hresult]; exact hb, honly.moved.sourced hresult (fun w _ _ => by rw [honly.requests]), by simp⟩,
    accounted_of_control hpermit rfl (fun _ => rfl), fun hr b => ?_, fun b hb => ?_⟩
  · rw [hctl] at hb hbp
    split at hb
    · simp at hb
    · rename_i hba
      rw [if_neg hba] at hbp
      exact ⟨hb, hbp⟩
  · refine restored_of_keeps (fun hrun => ?_) (fun hnot => (hstop b).symm.trans hnot)
      (fun hrel => (hpermit b).1.symm.trans hrel) (fun _ w hw => by rwa [honly.byMe]) (hr b)
    rw [hctl] at hrun
    split at hrun
    · simp at hrun
    · exact hrun
  · have : (s.run a).effects.reacquires = [] := rfl
    rw [this] at hb
    simp at hb

/-- What getting its first permit does to an attempt. -/
structure Permitted (s t : State) (a : AttemptId) : Prop where
  inv : Inv t
  links : SameLinks s t
  kept : Kept s t
  others : ∀ b, b ≠ a → (t.attempts b).toControl = (s.attempts b).toControl
  self : (t.attempts a).toControl = { (s.attempts a).toControl with
    phase := .running, permit := .held, lease := true }
  effects : t.effects = {}
  calls : t.calls = []

theorem Inv.onPermit (h : Inv s) {a : AttemptId} (hp : (s.attempts a).phase = .queued) :
    Permitted s (s.onPermit a) a := by
  let s1 := s.start.setAttempt a fun x => { x with phase := .running, permit := .held, lease := true }
  have honly : OnlyControl s.start s1 := s.start.setAttempt_onlyControl a
    (f := fun x => { x with phase := .running, permit := .held, lease := true })
    (by intro _; rfl) (by intro _; rfl) (by intro _; rfl)
  have hctl : ∀ b, (s1.attempts b).toControl = if b = a then
      { (s.attempts a).toControl with phase := .running, permit := .held, lease := true }
      else (s.attempts b).toControl :=
    fun b => s.start.setAttempt_toControl a b
      (f := fun x => { x with phase := .running, permit := .held, lease := true })
      (g := fun c => { c with phase := .running, permit := .held, lease := true })
      (by intro _; rfl)
  have hlt : a < s.attemptCount := h.inRange.lt_of_phase (by simp [hp])
  have hne : ∀ b, (s.attempts b).phase = .running → b ≠ a := by
    intro b hb hba
    rw [hba, hp] at hb
    simp at hb
  have hun := (h.control a).unstarted (.inr hp)
  have hinv : Inv s1 := by
    apply h.start.of_control honly.toSameLinks honly.kept honly.running
    · intro w hw b hb
      have hown := (h.owned w hw).owner b hb
      rw [hctl, if_neg (hne b hown.running)]
      exact hown
    · intro w hw hb
      have hnone := h.unfinished w hw hb
      rw [hctl]
      split
      · rename_i hta
        have hta' : (s.requests w).target = a := hta
        rw [hta'] at hnone
        exact hnone
      · exact hnone
    · intro b
      rw [hctl]
      split
      · have hc := (h.control a).outstanding
        rw [hun.1] at hc
        refine ⟨?_, by simp, fun _ => ⟨by simp, rfl⟩, by simp⟩
        simpa using hc
      · exact h.control b
    · intro b hb
      rw [hctl, if_neg (hne b hb)]
      exact ⟨hb, rfl⟩
    · intro b p hb
      rw [hctl] at hb
      split at hb
      · rename_i hba; subst hba; exact hb
      · exact hb
    · intro b hb
      have hba : b ≠ a := fun hba => Nat.not_lt.mpr hb (hba ▸ hlt)
      rw [hctl, if_neg hba]
      rfl
  have hout : (s1.attempts a).output = (s.attempts a).output := by
    rw [hctl, if_pos rfl]
  have hdef : ∃ running, s.onPermit a = { s1 with running := running } ∧
      ∀ p b, running p = some b → s.running p = some b ∨ (b = a ∧ p = (s.attempts a).output) := by
    show ∃ running, (if (s1.running (s1.attempts a).output).isNone then _ else s1) = _ ∧ _
    split
    · refine ⟨_, rfl, fun p b hb => ?_⟩
      rw [Function.update_apply] at hb
      split at hb
      · rename_i hpo
        exact .inr ⟨(Option.some.inj hb).symm, hpo.trans hout⟩
      · exact .inl hb
    · exact ⟨s1.running, rfl, fun p b hb => .inl hb⟩
  obtain ⟨running, heq, hrunning⟩ := hdef
  rw [heq]
  refine ⟨⟨hinv.links.same ⟨fun _ => rfl, fun _ => rfl, fun _ => rfl, rfl, rfl⟩,
      fun w hw => ⟨(hinv.owned w hw).notDone, (hinv.owned w hw).alone, (hinv.owned w hw).owner⟩,
      hinv.unfinished, hinv.control, fun p b hb => ?_,
      ⟨hinv.inRange.wait, hinv.inRange.target, hinv.inRange.predecessor,
        hinv.inRange.freshAttempt, hinv.inRange.freshWait⟩⟩,
    ⟨honly.byMe, honly.onMe, honly.edges, rfl, rfl⟩, ⟨rfl, rfl⟩, fun b hb => ?_, ?_, rfl, rfl⟩
  · show (s1.attempts b).phase = _ ∧ (s1.attempts b).output = _
    obtain hb | ⟨hba, hpo⟩ := hrunning p b hb
    · exact hinv.running p b hb
    · rw [hba, hctl, if_pos rfl]
      exact ⟨rfl, hpo.symm⟩
  · show (s1.attempts b).toControl = _
    rw [hctl, if_neg hb]
  · show (s1.attempts a).toControl = _
    rw [hctl, if_pos rfl]

section enter

variable (s) (w : WaitId) (target : AttemptId) (requester : Option AttemptId)

theorem enter_attempts (b : AttemptId) : (s.enter w target requester).attempts b =
    { s.attempts b with
      waitsByMe := (s.attempts b).waitsByMe ++ if requester = some b then [w] else []
      waitsOnMe := (s.attempts b).waitsOnMe ++ if b = target then [w] else []
      edgesOut := if requester = some b then
        Function.update (s.attempts b).edgesOut target (increment ((s.attempts b).edgesOut target))
        else (s.attempts b).edgesOut } := by
  cases requester with
  | none =>
    simp only [enter, setAttempt_attempts, setWait_attempts]
    by_cases hb : b = target
    · subst hb; simp
    · simp [hb]
  | some r =>
    simp only [enter, setAttempt_attempts, setWait_attempts]
    by_cases hr : b = r
    · subst hr
      by_cases hb : b = target
      · subst hb; simp
      · simp [hb]
    · by_cases hb : b = target
      · subst hb; simp [hr, Ne.symm hr]
      · simp [hr, Ne.symm hr, hb]

theorem enter_requests (v : WaitId) : (s.enter w target requester).requests v =
    if v = w then { s.requests w with target := target, requester := requester }
    else s.requests v := by
  have h := s.setWait_requests w v fun x => { x with target := target, requester := requester }
  cases requester <;> exact h

@[simp] theorem enter_waits : (s.enter w target requester).waits = s.waits ++ [w] := by
  cases requester <;> rfl

@[simp] theorem enter_running : (s.enter w target requester).running = s.running := by
  cases requester <;> rfl

@[simp] theorem enter_effects : (s.enter w target requester).effects = s.effects := by
  cases requester <;> rfl

@[simp] theorem enter_calls : (s.enter w target requester).calls = s.calls := by
  cases requester <;> rfl

theorem enter_kept : Kept s (s.enter w target requester) := by
  cases requester <;> exact ⟨rfl, rfl⟩

end enter

private theorem nodup_append_if {l : List WaitId} {w : WaitId} (h : l.Nodup) (hw : w ∉ l) (P : Prop)
    [Decidable P] : (l ++ if P then [w] else []).Nodup := by
  split
  · have := List.Nodup.concat hw h
    rwa [List.concat_eq_append] at this
  · rwa [List.append_nil]

/-- Entering a wait that is in no list yet keeps the lists and the edges in step. -/
theorem Links.enter (h : Links s) {w : WaitId} (hw : w ∉ s.waits)
    (hb : (s.requests w).state = .blocked) (target : AttemptId) (requester : Option AttemptId) :
    Links (s.enter w target requester) := by
  have hself : (s.enter w target requester).requests w =
      { s.requests w with target := target, requester := requester } := by
    rw [enter_requests, if_pos rfl]
  have hother : ∀ {v}, v ≠ w → (s.enter w target requester).requests v = s.requests v :=
    fun hv => by rw [enter_requests, if_neg hv]
  have hne : ∀ {v}, v ∈ s.waits → v ≠ w := fun hv hvw => hw (hvw ▸ hv)
  have hby : ∀ a, w ∉ (s.attempts a).waitsByMe := fun a hmem => hw ((h.byMe a w).mp hmem).1
  have hon : ∀ a, w ∉ (s.attempts a).waitsOnMe := fun a hmem => hw ((h.onMe a w).mp hmem).1
  refine ⟨?_, fun a => ?_, fun a => ?_, fun a v => ?_, fun b v => ?_, fun a b => ?_⟩
  · rw [enter_waits]
    simpa using nodup_append_if h.waits hw True
  · rw [enter_attempts]
    exact nodup_append_if (h.byMeNodup a) (hby a) _
  · rw [enter_attempts]
    exact nodup_append_if (h.onMeNodup a) (hon a) _
  · rw [enter_attempts, enter_waits]
    by_cases hv : v = w
    · subst hv
      rw [hself]
      by_cases ha : requester = some a <;> simp [ha, hby a]
    · rw [hother hv]
      have := h.byMe a v
      by_cases ha : requester = some a <;> simp [ha, hv, this]
  · rw [enter_attempts, enter_waits]
    by_cases hv : v = w
    · subst hv
      rw [hself]
      by_cases ht : b = target
      · subst ht; simp [hb]
      · simp [ht, hon b, Ne.symm ht]
    · rw [hother hv]
      have := h.onMe b v
      by_cases ht : b = target
      · subst ht; simp [hv, this]
      · simp [ht, hv, this]
  · have hold : s.waits.countP ((s.enter w target requester).between a b) =
        s.waits.countP (s.between a b) := List.countP_congr fun v hv => by
      simp only [between, hother (hne hv)]
    have hnew : (s.enter w target requester).between a b w =
        decide (requester = some a ∧ target = b) := by
      simp [between, hself, hb]
    rw [enter_attempts, enter_waits, List.countP_append, hold, List.countP_singleton, hnew]
    have hedge := h.edges a b
    by_cases ha : requester = some a
    · by_cases ht : target = b
      · subst ht
        simp [ha, hedge, increment_entry]
      · simp [ha, ht, Function.update_of_ne (Ne.symm ht), hedge]
    · simp [ha, hedge]

theorem Hurried.refl (s : State) : Hurried s s := ⟨.refl s, fun _ => ⟨_, rfl⟩, rfl, [], by simp⟩

theorem Hurried.accounted (h : Hurried s t) : Accounted s t := by
  obtain ⟨promoted, hcalls⟩ := h.calls
  refine accounted_of_control (fun b => ?_) (by rw [h.effects]) (fun b => ?_)
  · obtain ⟨m, hc⟩ := h.control b
    rw [hc]
    exact ⟨rfl, rfl⟩
  · have hnone : (promoted.map PermitCall.promote).count (.release b) = 0 := by
      apply List.count_eq_zero_of_not_mem
      simp
    rw [hcalls, List.count_append, hnone]
    rfl

/-- How a new wait leaves the fields of an attempt: perhaps hurried and, if it is the wait's own,
without the permit it held. -/
def GivesBack (mine : Prop) (c d : Control) : Prop :=
  ∃ m p, d = { c with hurried := m, permit := p } ∧
    (p = c.permit ∨ mine ∧ c.permit = .held ∧ p = .released)

theorem GivesBack.ok {mine : Prop} {c d : Control} (h : GivesBack mine c d) (hc : ControlOk c) :
    ControlOk d := by
  obtain ⟨m, p, rfl, rfl | ⟨_, hheld, rfl⟩⟩ := h
  · exact ⟨hc.outstanding, hc.unstarted, hc.started, hc.ended⟩
  · have hout := hc.outstanding
    rw [hheld] at hout
    refine ⟨by simpa using hout, fun hp => ?_, fun hp => ⟨by simp, (hc.started hp).2⟩, hc.ended⟩
    have := (hc.unstarted hp).1
    rw [hheld] at this
    simp at this

theorem GivesBack.owner {mine : Prop} {c d : Control} (h : GivesBack mine c d) {state : WaitState}
    (hc : OwnerOk c state) : OwnerOk d state := by
  obtain ⟨m, p, rfl, rfl | ⟨_, hheld, rfl⟩⟩ := h
  · exact ⟨hc.running, hc.notStopping, hc.permit⟩
  · obtain hp | ⟨hp, _⟩ := hc.permit
    · rw [hheld] at hp; simp at hp
    · rw [hheld] at hp; simp at hp

/-- What entering a wait does to the fields of attempts, and to nothing else. -/
structure Quieted (s t : State) (requester : Option AttemptId) : Prop where
  only : OnlyControl s t
  control : ∀ b, GivesBack (requester = some b) (s.attempts b).toControl (t.attempts b).toControl
  notHeld : ∀ r, requester = some r → (t.attempts r).permit ≠ .held
  accounted : Accounted s t
  effects : t.effects = s.effects

theorem Hurried.quieted (h : Hurried s t) : Quieted s t none where
  only := h.only
  control b := by
    obtain ⟨m, hm⟩ := h.control b
    exact ⟨m, _, hm, .inl rfl⟩
  notHeld := by simp
  accounted := h.accounted
  effects := h.effects

/-- `block` takes the permit of the attempt a new wait is from, if it held it. -/
theorem Hurried.block (h : Hurried s t) {r : AttemptId} (hok : ControlOk (s.attempts r).toControl)
    (hrun : (s.attempts r).phase = .running) : Quieted s (t.block r) (some r) := by
  have hlease : (t.attempts r).lease = true := by
    obtain ⟨m, hm⟩ := h.control r
    rw [hm]
    exact (hok.started (.inl hrun)).2
  unfold State.block
  split
  · rename_i hheld
    refine ⟨h.only.trans (t.giveBack_onlyControl r), fun b => ?_, fun q hq => ?_,
      h.accounted.trans (giveBack_accounted hheld hlease), (t.giveBack_effects r).trans h.effects⟩
    · obtain ⟨m, hm⟩ := h.control b
      rw [giveBack_toControl]
      split
      · rename_i hbr
        subst hbr
        rw [hm] at hheld ⊢
        exact ⟨m, .released, rfl, .inr ⟨rfl, hheld, rfl⟩⟩
      · exact ⟨m, _, hm, .inl rfl⟩
    · rw [← Option.some.inj hq, giveBack_toControl, if_pos rfl]
      simp
  · rename_i hnot
    refine ⟨h.only, fun b => ?_, fun q hq => ?_, h.accounted, h.effects⟩
    · obtain ⟨m, hm⟩ := h.control b
      exact ⟨m, _, hm, .inl rfl⟩
    · rw [← Option.some.inj hq]
      exact hnot

theorem suspend_quieted (order : AttemptId → List AttemptId) (w : WaitId) (target : AttemptId)
    {requester : Option AttemptId} (hok : ∀ b, ControlOk (s.attempts b).toControl)
    (hrun : ∀ r, requester = some r → (s.attempts r).phase = .running) :
    Quieted (s.enter w target requester) (s.suspend order w target requester) requester := by
  cases requester with
  | none => exact ((s.enter w target none).hurry_spec target order).quieted
  | some r =>
    let u := s.enter w target (some r)
    have hctl : (u.attempts r).toControl = (s.attempts r).toControl := by rw [enter_attempts]
    have hh : Hurried u (if (u.attempts r).hurried then u.hurry order target else u) := by
      split
      · exact u.hurry_spec target order
      · exact .refl u
    apply hh.block
    · rw [hctl]; exact hok r
    · rw [hctl]; exact hrun r rfl

/-- What suspending a wait does: it is entered, its attempt gives its permit back, and attempts are
hurried. -/
structure Suspended (s t : State) (w : WaitId) (target : AttemptId)
    (requester : Option AttemptId) : Prop where
  inv : Inv t
  kept : Kept s t
  waits : t.waits = s.waits ++ [w]
  requests : ∀ v, t.requests v =
    if v = w then { s.requests w with target := target, requester := requester } else s.requests v
  control : ∀ b, GivesBack (requester = some b) (s.attempts b).toControl (t.attempts b).toControl
  accounted : Accounted s t
  effects : t.effects = s.effects

theorem Inv.suspend (h : Inv s) (order : AttemptId → List AttemptId) {w : WaitId}
    {target : AttemptId} {requester : Option AttemptId} (hw : w ∉ s.waits) (hlt : w < s.waitCount)
    (hb : (s.requests w).state = .blocked) (ht : target < s.attemptCount)
    (hnone : (s.attempts target).result = none)
    (hreq : ∀ r, requester = some r →
      (s.attempts r).phase = .running ∧ (s.attempts r).stopping = false) :
    Suspended s (s.suspend order w target requester) w target requester := by
  have hq := suspend_quieted order w target h.control (fun r hr => (hreq r hr).1)
  have hlinks := (h.links.enter hw hb target requester).same hq.only.toSameLinks
  have hkept := (s.enter_kept w target requester).trans hq.only.kept
  generalize s.suspend order w target requester = t at hq hlinks hkept
  have hctl : ∀ b, GivesBack (requester = some b) (s.attempts b).toControl
      (t.attempts b).toControl := fun b => by
    have := hq.control b
    rwa [enter_attempts] at this
  have hsame : ∀ b, (t.attempts b).phase = (s.attempts b).phase ∧
      (t.attempts b).stopping = (s.attempts b).stopping ∧
      (t.attempts b).result = (s.attempts b).result ∧
      (t.attempts b).predecessor = (s.attempts b).predecessor ∧
      (t.attempts b).output = (s.attempts b).output := fun b => by
    obtain ⟨m, p, hc, _⟩ := hctl b
    rw [hc]
    exact ⟨rfl, rfl, rfl, rfl, rfl⟩
  have hok : ∀ b, ControlOk (t.attempts b).toControl := fun b => (hctl b).ok (h.control b)
  have hrequests : ∀ v, t.requests v = if v = w then
      { s.requests w with target := target, requester := requester } else s.requests v := fun v => by
    rw [hq.only.requests, enter_requests]
  have hwaits : t.waits = s.waits ++ [w] := by rw [hq.only.waits, enter_waits]
  have hnew : ∀ v ∈ t.waits, v ∈ s.waits ∧ t.requests v = s.requests v ∨ v = w ∧
      t.requests v = { s.requests w with target := target, requester := requester } := by
    intro v hv
    rw [hwaits, List.mem_append, List.mem_singleton] at hv
    obtain hv | rfl := hv
    · have hne : v ≠ w := fun hvw => hw (hvw ▸ hv)
      exact .inl ⟨hv, by rw [hrequests, if_neg hne]⟩
    · exact .inr ⟨rfl, by rw [hrequests, if_pos rfl]⟩
  have hacc : Accounted s t := by
    refine Accounted.trans (accounted_of_control (fun b => ?_) ?_ (fun b => ?_)) hq.accounted
    · rw [enter_attempts]; exact ⟨rfl, rfl⟩
    · rw [enter_effects]
    · rw [enter_calls]
  refine ⟨⟨hlinks, fun v hv => ?_, fun v hv hvb => ?_, hok, fun p b hp => ?_,
    fun v hv => ?_, fun v hv => ?_, fun b p hb => ?_, fun b hb => ?_, fun v hv => ?_⟩, hkept, hwaits,
    hrequests, hctl, hacc, by rw [hq.effects, enter_effects]⟩
  · obtain ⟨hmem, hv⟩ | ⟨rfl, hv⟩ := hnew v hv
    · obtain ⟨hdone, halone, howner⟩ := h.owned v hmem
      refine ⟨?_, ?_, ?_⟩ <;> rw [hv]
      · exact hdone
      · exact halone
      · intro b hb
        exact (hctl b).owner (howner b hb)
    · refine ⟨?_, ?_, ?_⟩ <;> rw [hv]
      · simp [hb]
      · exact fun _ => hb
      · intro b hr
        obtain ⟨hrun, hstop⟩ := hreq b hr
        have hphase := (hsame b).1.trans hrun
        refine ⟨hphase, (hsame b).2.1.trans hstop, ?_⟩
        have hheld := hq.notHeld b hr
        have hpermit := ((hok b).started (.inl hphase)).1
        cases hp : (t.attempts b).permit with
        | none => exact absurd hp hpermit
        | held => exact absurd hp hheld
        | released => exact .inr ⟨rfl, hb⟩
        | reacquiring => exact .inl rfl
  · obtain ⟨hmem, hv⟩ | ⟨rfl, hv⟩ := hnew v hv
    · rw [hv] at hvb ⊢
      rw [(hsame _).2.2.1]
      exact h.unfinished v hmem hvb
    · rw [hv, (hsame _).2.2.1]
      exact hnone
  · rw [hq.only.running, enter_running] at hp
    obtain ⟨hrun, ho⟩ := h.running p b hp
    exact ⟨(hsame b).1.trans hrun, (hsame b).2.2.2.2.trans ho⟩
  · rw [hkept.waitCount]
    obtain ⟨hmem, _⟩ | ⟨rfl, _⟩ := hnew v hv
    · exact h.inRange.wait v hmem
    · exact hlt
  · rw [hkept.attemptCount]
    obtain ⟨hmem, hv⟩ | ⟨rfl, hv⟩ := hnew v hv
    · rw [hv]; exact h.inRange.target v hmem
    · rw [hv]; exact ht
  · rw [(hsame b).2.2.2.1] at hb
    rw [hkept.attemptCount]
    exact h.inRange.predecessor b p hb
  · rw [hkept.attemptCount] at hb
    rw [(hsame b).1]
    exact h.inRange.freshAttempt b hb
  · rw [hkept.waitCount] at hv
    have hne : v ≠ w := fun hvw => Nat.not_lt.mpr hv (hvw ▸ hlt)
    rw [hrequests, if_neg hne]
    exact h.inRange.freshWait v hv

/-- Where `wait` starts from, once its own frame is made. -/
def allotted (s : State) : State := { s.start with waitCount := s.waitCount + 1 }

theorem Inv.allotted (h : Inv s) : Inv s.allotted where
  links := h.links.same ⟨fun _ => rfl, fun _ => rfl, fun _ => rfl, rfl, rfl⟩
  owned w hw := ⟨(h.owned w hw).notDone, (h.owned w hw).alone, (h.owned w hw).owner⟩
  unfinished := h.unfinished
  control := h.control
  running := h.running
  inRange := by
    have hr := h.inRange
    refine ⟨fun w hw => Nat.lt_succ_of_lt (hr.wait w hw), hr.target, hr.predecessor,
      hr.freshAttempt, fun w hw => ?_⟩
    have hw' : s.waitCount + 1 ≤ w := hw
    exact hr.freshWait w (by omega)

/-- `order` is one in which each attempt's `edges_out` can iterate. -/
def Enumerates (s : State) (order : AttemptId → List AttemptId) : Prop :=
  ∀ a b, b ∈ order a ↔ ((s.attempts a).edgesOut b).isSome

theorem Enumerates.mem_nexts {order : AttemptId → List AttemptId} (h : s.Enumerates order)
    (a b : AttemptId) : b ∈ s.nexts order a ↔ s.WaitsFor a b := by
  rw [nexts, List.mem_append, h]
  apply or_congr_right
  split
  · rename_i hp
    simp [hp]
  · rename_i hp
    simp [hp]

/-- Everything waited for has been made. -/
theorem Inv.waitsFor_lt (h : Inv s) {a b : AttemptId} (hab : s.WaitsFor a b) :
    b < s.attemptCount := by
  obtain hedge | ⟨_, hp⟩ := hab
  · obtain ⟨w, hw, _, _, ht⟩ := (h.links.edge_iff a b).mp hedge
    exact ht ▸ h.inRange.target w hw
  · exact h.inRange.predecessor a b hp

/-- `path_to` finds a path exactly where there is one, and what it finds is one. -/
theorem Inv.pathTo_spec (h : Inv s) {order : AttemptId → List AttemptId} (ho : s.Enumerates order)
    {source : AttemptId} (hs : source < s.attemptCount) (goal : AttemptId) :
    (s.pathTo order source goal = [] ∧ ¬Relation.ReflTransGen s.WaitsFor source goal) ∨
      (s.pathTo order source goal ≠ [] ∧ Relation.ReflTransGen s.WaitsFor source goal ∧
        Library.Search.IsPath (s.nexts order) source goal (s.pathTo order source goal)) := by
  have hrel : (fun a b => b ∈ s.nexts order a) = s.WaitsFor := by
    funext a b
    exact propext (ho.mem_nexts a b)
  have hclosed : ∀ a ∈ List.range s.attemptCount, ∀ b ∈ s.nexts order a,
      b ∈ List.range s.attemptCount := fun a _ b hb =>
    List.mem_range.mpr (h.waitsFor_lt ((ho.mem_nexts a b).mp hb))
  have hlen : (List.range s.attemptCount).length ≤ s.attemptCount :=
    Nat.le_of_eq List.length_range
  have hend : ∃ path, Library.Search.search (s.nexts order) goal s.attemptCount
      [(source, none)] [source] = some path ∧
      (path = [] ∧ ¬Relation.ReflTransGen (fun a b => b ∈ s.nexts order a) source goal ∨
        Library.Search.IsPath (s.nexts order) source goal path) :=
    Library.Search.search_spec (List.mem_range.mpr hs) hclosed hlen
  obtain ⟨path, hpath, hspec⟩ := hend
  have heq : s.pathTo order source goal = path := by
    rw [pathTo, hpath, Option.getD_some]
  rw [heq]
  obtain ⟨hnil, hnot⟩ | hp := hspec
  · rw [hrel] at hnot
    exact .inl ⟨hnil, hnot⟩
  · have hreach := hp.reflTransGen
    rw [hrel] at hreach
    refine .inr ⟨fun hnil => ?_, hreach, hp⟩
    have := hp.head
    rw [hnil] at this
    simp at this

section wait

variable (order later : AttemptId → List AttemptId) (target : AttemptId) (requester : Option Path)
  (stopRequested : Bool)

theorem wait_eq (s : State) : s.wait order later target requester stopRequested =
    if stopRequested then (s.allotted, some canceled)
    else match (s.attempts target).result with
      | some result => (s.allotted, some result)
      | none =>
        match requester.bind s.running with
        | none => (s.allotted.suspend later s.waitCount target none, none)
        | some r =>
          if (s.attempts r).stopping then (s.allotted, some canceled)
          else if s.allotted.pathTo order target r = [] then
            (s.allotted.suspend later s.waitCount target (some r), none)
          else ((s.allotted.pathTo order target r).foldl State.doom s.allotted,
            some dependencyCycle) := rfl

/-- What `wait` answers at once, and what for. -/
inductive Refused (s : State) : ErrorCode → Prop
  | canceled : Refused s canceled
  | finished {e : ErrorCode} (h : (s.attempts target).result = some e) : Refused s e
  | cycle : Refused s dependencyCycle

/-- `wait` answers at once, stopping at most the attempts of a cycle, or suspends. -/
theorem Inv.wait (h : Inv s) (ht : target < s.attemptCount) :
    (∃ e, (s.wait order later target requester stopRequested).2 = some e ∧ Refused target s e ∧
      Halted s.allotted (s.wait order later target requester stopRequested).1) ∨
    (∃ q, (s.wait order later target requester stopRequested).2 = none ∧
      Suspended s.allotted (s.wait order later target requester stopRequested).1 s.waitCount target q ∧
      ∀ r, q = some r → (s.attempts r).phase = .running ∧ (s.attempts r).stopping = false ∧
        s.allotted.pathTo order target r = []) := by
  have ha := h.allotted
  have hfresh : s.waitCount ∉ s.allotted.waits := fun hmem =>
    Nat.lt_irrefl _ (h.inRange.wait _ hmem)
  have hsuspend : ∀ q, (s.attempts target).result = none →
      (∀ r, q = some r → (s.attempts r).phase = .running ∧ (s.attempts r).stopping = false) →
      Suspended s.allotted (s.allotted.suspend later s.waitCount target q) s.waitCount target q :=
    fun q hnone hq => ha.suspend later hfresh (Nat.lt_succ_self _)
      (h.inRange.freshWait _ (Nat.le_refl _)) ht hnone hq
  rw [wait_eq]
  cases stopRequested with
  | true => exact .inl ⟨_, rfl, .canceled, .refl ha⟩
  | false =>
    cases hres : (s.attempts target).result with
    | some e => exact .inl ⟨e, rfl, .finished hres, .refl ha⟩
    | none =>
      cases hq : requester.bind s.running with
      | none => exact .inr ⟨none, rfl, hsuspend none hres (by simp), by simp⟩
      | some r =>
        obtain ⟨p, _, hp⟩ := Option.bind_eq_some_iff.mp hq
        have hrun := (h.running p r hp).1
        dsimp only
        by_cases hstop : (s.attempts r).stopping = true
        · rw [if_neg (by simp), if_pos hstop]
          exact .inl ⟨_, rfl, .canceled, .refl ha⟩
        · have hnot : (s.attempts r).stopping = false := by simpa using hstop
          rw [if_neg (by simp), if_neg hstop]
          by_cases hpath : s.allotted.pathTo order target r = []
          · rw [if_pos hpath]
            refine .inr ⟨some r, rfl, hsuspend (some r) hres (fun q hqr => ?_), fun q hqr => ?_⟩
            · have : r = q := Option.some.inj hqr
              exact this ▸ ⟨hrun, hnot⟩
            · have : r = q := Option.some.inj hqr
              exact this ▸ ⟨hrun, hnot, hpath⟩
          · rw [if_neg hpath]
            exact .inl ⟨_, rfl, .cycle, ha.doomAll _⟩

end wait

end MakeBelieve.Coordinator.State
