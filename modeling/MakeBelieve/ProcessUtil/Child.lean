import MakeBelieve.ProcessUtil.RunTraced

namespace MakeBelieve.ProcessUtil.RunTraced

open Library

variable {root : Path} {s s' : State} {e : Event}

/-! ### Whose the pid is -/

/-- Supervision has not reaped the child, and, where it threw, never will. -/
def Supervise.unreaped : Supervise → Bool
  | .lastDrain | .judging | .ending _ | .done => false
  | _ => true

/-- Between the making of `on_stop` and its destruction. -/
def Supervise.stopMade : Supervise → Bool
  | .armingAbort | .waiting _ | .draining | .waitFailed _ | .disarming _ _ | .threw _ => true
  | _ => false

/-- Between the making of `on_abort` and its destruction. -/
def Supervise.abortMade : Supervise → Bool
  | .waiting _ | .draining | .waitFailed _ | .disarming false _ | .threw false => true
  | _ => false

theorem Supervise.unreaped_of_stopMade {p : Supervise} (h : p.stopMade = true) :
    p.unreaped = true := by
  unfold Supervise.stopMade at h
  split at h
  all_goals first | rfl | simp at h

theorem Supervise.unreaped_of_abortMade {p : Supervise} (h : p.abortMade = true) :
    p.unreaped = true := by
  unfold Supervise.abortMade at h
  split at h
  all_goals first | rfl | simp at h

/-- What has become of the child, by where `run_task` and its supervision are. -/
def Fits : Phase → Supervise → Child → Prop
  | .starting, _, child | .piping, _, child | .preparing, _, child | .cloning, _, child =>
    child = .unborn
  | .tasks, supervise, child =>
    child ≠ .unborn ∧ (supervise.unreaped = true → child.own = true)
  | .destroyingSession _, _, child | .destroyingChild _, _, child => child ≠ .unborn
  | .removing _, _, child | .returned _, _, child => child.own = false
  | _, _, child => child.own = true

/-- The pid is the child's wherever it is used, and so wherever a stop callback could use it. -/
structure Owns (s : State) : Prop where
  fits : Fits s.phase s.supervise s.child
  onStop : s.onStop.live = true → s.phase = .tasks ∧ s.supervise.stopMade = true
  onAbort : s.onAbort.live = true → s.phase = .tasks ∧ s.supervise.abortMade = true
  straight : s.misdirected = false

theorem own_ne_unborn {child : Child} (h : child.own = true) : child ≠ .unborn := by
  rintro rfl
  simp [Child.own] at h

theorem own_of_alive {child : Child} (h : child.alive = true) : child.own = true := by
  cases child with
  | setup | parked | running => rfl
  | unborn | exited | reaped => simp [Child.alive] at h

namespace Owns

theorem dead (o : Owns s) (hphase : s.phase ≠ .tasks) :
    s.onStop.live = false ∧ s.onAbort.live = false := by
  constructor
  · rw [← Bool.not_eq_true]
    exact fun hlive => hphase (o.onStop hlive).1
  · rw [← Bool.not_eq_true]
    exact fun hlive => hphase (o.onAbort hlive).1

/-- A step that leaves the callbacks, which are not live. -/
theorem moved (o : Owns s) (hstop : s'.onStop = s.onStop) (habort : s'.onAbort = s.onAbort)
    (hdead : s.onStop.live = false ∧ s.onAbort.live = false)
    (hstraight : s'.misdirected = s.misdirected) (hfits : Fits s'.phase s'.supervise s'.child) :
    Owns s' := by
  constructor
  · exact hfits
  · intro hlive
    rw [hstop, hdead.1] at hlive
    simp at hlive
  · intro hlive
    rw [habort, hdead.2] at hlive
    simp at hlive
  · rw [hstraight]
    exact o.straight

/-- A step of the supervision that leaves what the callbacks need. -/
theorem supervised (o : Owns s) (hphase' : s'.phase = .tasks)
    (hfits : Fits .tasks s'.supervise s'.child)
    (hstop : s'.onStop.live = true → s'.supervise.stopMade = true)
    (habort : s'.onAbort.live = true → s'.supervise.abortMade = true)
    (hstraight : s'.misdirected = s.misdirected) : Owns s' := by
  constructor
  · rw [hphase']
    exact hfits
  · exact fun hlive => ⟨hphase', hstop hlive⟩
  · exact fun hlive => ⟨hphase', habort hlive⟩
  · rw [hstraight]
    exact o.straight

/-- What becomes of the child while it is there. -/
theorem child (o : Owns s) (hown : s.child.own = true) (hphase : s'.phase = s.phase)
    (hsupervise : s'.supervise = s.supervise) (hstop : s'.onStop = s.onStop)
    (habort : s'.onAbort = s.onAbort) (hstraight : s'.misdirected = s.misdirected)
    (hown' : s'.child.own = true) : Owns s' := by
  constructor
  · rw [hphase, hsupervise]
    have hfits := o.fits
    have hborn := own_ne_unborn hown'
    cases hphase : s.phase with
    | starting | piping | preparing | cloning =>
      rw [hphase] at hfits
      exact absurd hfits (own_ne_unborn hown)
    | removing | returned =>
      rw [hphase] at hfits
      rw [Fits, hown] at hfits
      simp at hfits
    | tasks => exact ⟨hborn, fun _ => hown'⟩
    | destroyingSession | destroyingChild => exact hborn
    | launching | attaching | opening | adding | releasing | terminating | awaitingExit | reaping
    | reapingChild => exact hown'
  · rw [hstop, hphase, hsupervise]
    exact o.onStop
  · rw [habort, hphase, hsupervise]
    exact o.onAbort
  · rw [hstraight]
    exact o.straight

theorem signal (hown : s.child.own = true) : s.signal.misdirected = s.misdirected := by
  simp [State.signal, hown]

theorem reap (hown : s.child.own = true) : s.reap.misdirected = s.misdirected := by
  simp [State.reap, hown]

/-- A callback that is live finds the child there. -/
theorem own_of_live (o : Owns s) (h : s.onStop.live = true ∨ s.onAbort.live = true) :
    s.child.own = true := by
  have hfits := o.fits
  obtain hlive | hlive := h
  · obtain ⟨hphase, hmade⟩ := o.onStop hlive
    rw [hphase] at hfits
    exact hfits.2 (Supervise.unreaped_of_stopMade hmade)
  · obtain ⟨hphase, hmade⟩ := o.onAbort hlive
    rw [hphase] at hfits
    exact hfits.2 (Supervise.unreaped_of_abortMade hmade)

end Owns

/-! ### The steps of each thread -/

def Event.ofTask : Event → Bool
  | .start | .pipe _ | .prepare _ | .clone _ | .launched | .receive _ | .openSession _ | .add _
  | .release | .terminate _ | .exitSeen _ _ | .reapTerminated _ | .throws | .conclude
  | .destroySession _ | .destroyChild _ | .reapChild _ | .removeRecord _ => true
  | _ => false

def Event.ofSupervise : Event → Bool
  | .arm | .armAbort | .outputReady _ | .childExited _ | .waitFails _ _ | .read _ | .readEnds
  | .readFails | .signalFailed _ | .disarmAbort _ | .disarmStop _ | .reap _ | .lastRead _
  | .lastReadEnds | .lastReadFails | .superviseThrows | .lastReadThrows | .unwindAbort
  | .unwindStop | .judge | .endServing _ => true
  | _ => false

theorem Owns.task (o : Owns s) (he : enabled root s e) (htask : e.ofTask = true) :
    Owns (step root s e) := by
  have hfits := o.fits
  cases e with
  | start =>
    obtain he : s.phase = .starting := he
    rw [he] at hfits
    refine o.moved rfl rfl (o.dead (by simp [he])) rfl ?_
    have hchild : s.child = .unborn := hfits
    dsimp only [step]
    split
    · rw [hchild]
      exact rfl
    · exact hchild
  | pipe failed =>
    obtain he : s.phase = .piping := he
    rw [he] at hfits
    have hchild : s.child = .unborn := hfits
    refine o.moved rfl rfl (o.dead (by simp [he])) rfl ?_
    dsimp only [step, State.proceed]
    rw [hchild]
    cases failed with
    | none => exact rfl
    | some error => exact rfl
  | prepare failed =>
    obtain he : s.phase = .preparing := he
    rw [he] at hfits
    have hchild : s.child = .unborn := hfits
    refine o.moved rfl rfl (o.dead (by simp [he])) rfl ?_
    dsimp only [step, State.proceed]
    rw [hchild]
    cases failed with
    | none => exact rfl
    | some error => exact rfl
  | clone failed =>
    obtain he : s.phase = .cloning := he
    rw [he] at hfits
    have hchild : s.child = .unborn := hfits
    cases failed with
    | none => exact o.moved rfl rfl (o.dead (by simp [he])) rfl rfl
    | some error =>
      refine o.moved rfl rfl (o.dead (by simp [he])) rfl ?_
      dsimp only [step]
      rw [hchild]
      exact rfl
  | launched =>
    obtain he : s.phase = .launching := he
    rw [he] at hfits
    exact o.moved rfl rfl (o.dead (by simp [he])) rfl hfits
  | receive interrupted =>
    obtain ⟨he, _⟩ := he
    rw [he] at hfits
    have hdead := o.dead (by simp [he])
    cases interrupted with
    | true => exact o.moved rfl rfl hdead rfl hfits
    | false =>
      dsimp only [step]
      split
      · exact o.moved rfl rfl hdead rfl hfits
      · exact o.moved rfl rfl hdead rfl hfits
      · exact o.moved rfl rfl hdead rfl hfits
  | openSession opened =>
    obtain ⟨he, _⟩ := he
    rw [he] at hfits
    cases opened with
    | error error => exact o.moved rfl rfl (o.dead (by simp [he])) rfl hfits
    | ok mount => exact o.moved rfl rfl (o.dead (by simp [he])) rfl hfits
  | add failed =>
    obtain he : s.phase = .adding := he
    rw [he] at hfits
    cases failed with
    | some error => exact o.moved rfl rfl (o.dead (by simp [he])) rfl hfits
    | none => exact o.moved rfl rfl (o.dead (by simp [he])) rfl hfits
  | release =>
    obtain he : s.phase = .releasing := he
    rw [he] at hfits
    exact o.moved rfl rfl (o.dead (by simp [he])) rfl ⟨own_ne_unborn hfits, fun _ => hfits⟩
  | terminate error =>
    obtain he : s.phase = .terminating error := he
    rw [he] at hfits
    exact o.moved rfl rfl (o.dead (by simp [he])) (Owns.signal hfits) hfits
  | exitSeen error failed =>
    obtain ⟨he, _⟩ := he
    rw [he] at hfits
    exact o.moved rfl rfl (o.dead (by simp [he])) rfl hfits
  | reapTerminated error =>
    obtain ⟨he, _⟩ := he
    rw [he] at hfits
    refine o.moved rfl rfl (o.dead (by simp [he])) (Owns.reap hfits) ?_
    exact fun h => by cases h
  | throws =>
    have hown : s.child.own = true ∧ s.phase ≠ .tasks := by
      obtain he | he | ⟨error, he⟩ := he
      all_goals
        rw [he] at hfits
        exact ⟨hfits, by simp [he]⟩
    exact o.moved rfl rfl (o.dead hown.2) rfl (own_ne_unborn hown.1)
  | conclude =>
    obtain ⟨he, hsupervise, _⟩ := he
    rw [he] at hfits
    refine o.moved rfl rfl ⟨?_, ?_⟩ rfl hfits.1
    · rw [← Bool.not_eq_true]
      intro hlive
      have hmade := (o.onStop hlive).2
      simp [hsupervise, Supervise.stopMade] at hmade
    · rw [← Bool.not_eq_true]
      intro hlive
      have hmade := (o.onAbort hlive).2
      simp [hsupervise, Supervise.abortMade] at hmade
  | destroySession result =>
    obtain he : s.phase = .destroyingSession result := he
    rw [he] at hfits
    exact o.moved rfl rfl (o.dead (by simp [he])) rfl hfits
  | destroyChild result =>
    obtain he : s.phase = .destroyingChild result := he
    rw [he] at hfits
    have hdead := o.dead (by simp [he])
    dsimp only [step]
    split
    · next hchild =>
      refine o.moved rfl rfl hdead rfl ?_
      dsimp only
      rw [hchild]
      exact rfl
    · next hreaped =>
      have hown : s.child.own = true := by
        cases hchild : s.child with
        | unborn => exact absurd hchild hfits
        | reaped status => exact absurd hchild (hreaped status)
        | setup | parked | running | exited => rfl
      exact o.moved rfl rfl hdead (Owns.signal hown) hown
  | reapChild result =>
    obtain ⟨he, _⟩ := he
    rw [he] at hfits
    exact o.moved rfl rfl (o.dead (by simp [he])) (Owns.reap hfits) rfl
  | removeRecord result =>
    obtain he : s.phase = .removing result := he
    rw [he] at hfits
    exact o.moved rfl rfl (o.dead (by simp [he])) rfl hfits
  | _ => simp [Event.ofTask] at htask

theorem Owns.stop_dead (o : Owns s) (h : s.supervise.stopMade = false) :
    s.onStop.live = false := by
  rw [← Bool.not_eq_true]
  intro hlive
  have hmade := (o.onStop hlive).2
  simp [h] at hmade

theorem Owns.abort_dead (o : Owns s) (h : s.supervise.abortMade = false) :
    s.onAbort.live = false := by
  rw [← Bool.not_eq_true]
  intro hlive
  have hmade := (o.onAbort hlive).2
  simp [h] at hmade

theorem Owns.supervise (o : Owns s) (he : enabled root s e) (hsupervise : e.ofSupervise = true) :
    Owns (step root s e) := by
  have hfits := o.fits
  have habsent : Callback.absent.live ≠ true := by simp [Callback.live]
  have hspent : Callback.spent.live ≠ true := by simp [Callback.live]
  cases e with
  | arm =>
    obtain ⟨hphase, he⟩ := he
    rw [hphase, he] at hfits
    have habort : s.onAbort.live = true → Supervise.armingAbort.abortMade = true := by
      simp [o.abort_dead (by rw [he]; rfl)]
    dsimp only [step]
    split
    · exact o.supervised hphase hfits (fun _ => rfl) habort (Owns.signal (hfits.2 rfl))
    · exact o.supervised hphase hfits (fun _ => rfl) habort rfl
  | armAbort =>
    obtain ⟨hphase, he⟩ := he
    rw [hphase, he] at hfits
    dsimp only [step]
    split
    · exact o.supervised hphase hfits (fun _ => rfl) (fun _ => rfl)
        (Owns.signal (hfits.2 rfl))
    · exact o.supervised hphase hfits (fun _ => rfl) (fun _ => rfl) rfl
  | outputReady failed =>
    obtain ⟨hphase, he, _⟩ := he
    rw [hphase, he] at hfits
    exact o.supervised hphase hfits (fun _ => rfl) (fun _ => rfl) rfl
  | childExited isOpen =>
    obtain ⟨hphase, he, _⟩ := he
    rw [hphase, he] at hfits
    dsimp only [step]
    split
    · exact o.supervised hphase hfits (fun _ => rfl) (fun _ => rfl) rfl
    · exact o.supervised hphase hfits (fun _ => rfl) (fun _ => rfl) rfl
  | waitFails isOpen error =>
    obtain ⟨hphase, he⟩ := he
    rw [hphase, he] at hfits
    exact o.supervised hphase hfits (fun _ => rfl) (fun _ => rfl) rfl
  | read count =>
    obtain ⟨hphase, he, _⟩ := he
    rw [hphase] at hfits
    exact o.supervised hphase hfits (fun hlive => (o.onStop hlive).2)
      (fun hlive => (o.onAbort hlive).2) rfl
  | readEnds =>
    obtain ⟨hphase, he, _⟩ := he
    rw [hphase, he] at hfits
    exact o.supervised hphase hfits (fun _ => rfl) (fun _ => rfl) rfl
  | readFails =>
    obtain ⟨hphase, he⟩ := he
    rw [hphase, he] at hfits
    exact o.supervised hphase hfits (fun _ => rfl) (fun _ => rfl) rfl
  | signalFailed isOpen =>
    obtain ⟨hphase, he⟩ := he
    rw [hphase, he] at hfits
    exact o.supervised hphase hfits (fun _ => rfl) (fun _ => rfl)
      (Owns.signal (hfits.2 rfl))
  | disarmAbort isOpen =>
    obtain ⟨hphase, he, _⟩ := he
    rw [hphase, he] at hfits
    exact o.supervised hphase hfits (fun _ => rfl) (fun hlive => absurd hlive habsent) rfl
  | disarmStop isOpen =>
    obtain ⟨hphase, he, _⟩ := he
    rw [hphase, he] at hfits
    have habort := o.abort_dead (by rw [he]; rfl)
    exact o.supervised hphase hfits (fun hlive => absurd hlive habsent)
      (fun hlive => by simp [step, habort] at hlive) rfl
  | reap isOpen =>
    obtain ⟨hphase, he, _⟩ := he
    rw [hphase, he] at hfits
    have hstop := o.stop_dead (by rw [he]; rfl)
    have habort := o.abort_dead (by rw [he]; rfl)
    refine o.supervised hphase ⟨(fun h => by cases h), ?_⟩
      (fun hlive => by simp [step, State.reap, hstop] at hlive)
      (fun hlive => by simp [step, State.reap, habort] at hlive) (Owns.reap (hfits.2 rfl))
    intro hunreaped
    cases isOpen with
    | true => simp [step, Supervise.unreaped] at hunreaped
    | false => simp [step, Supervise.unreaped] at hunreaped
  | lastRead count =>
    obtain ⟨hphase, he, _⟩ := he
    rw [hphase] at hfits
    exact o.supervised hphase hfits (fun hlive => (o.onStop hlive).2)
      (fun hlive => (o.onAbort hlive).2) rfl
  | superviseThrows =>
    obtain ⟨hphase, he⟩ := he
    have hown : s.child ≠ .unborn ∧ s.child.own = true := by
      rw [hphase] at hfits
      obtain ⟨isOpen, he⟩ | he := he
      · rw [he] at hfits
        exact ⟨hfits.1, hfits.2 rfl⟩
      · rw [he] at hfits
        exact ⟨hfits.1, hfits.2 rfl⟩
    exact o.supervised hphase ⟨hown.1, fun _ => hown.2⟩ (fun _ => rfl) (fun _ => rfl) rfl
  | unwindAbort =>
    obtain ⟨hphase, he, _⟩ := he
    rw [hphase, he] at hfits
    exact o.supervised hphase hfits (fun _ => rfl) (fun hlive => absurd hlive habsent) rfl
  | unwindStop =>
    obtain ⟨hphase, he, _⟩ := he
    rw [hphase, he] at hfits
    have habort := o.abort_dead (by rw [he]; rfl)
    exact o.supervised hphase ⟨hfits.1, fun h => by cases h⟩
      (fun hlive => absurd hlive habsent) (fun hlive => by simp [step, habort] at hlive) rfl
  | lastReadEnds | lastReadFails | lastReadThrows | judge | endServing =>
    have hphase := he.1
    have hmade : s.supervise.stopMade = false ∧ s.supervise.abortMade = false := by
      first
      | rw [he.2]; exact ⟨rfl, rfl⟩
      | rw [he.2.1]; exact ⟨rfl, rfl⟩
    rw [hphase] at hfits
    have hstop := o.stop_dead hmade.1
    have habort := o.abort_dead hmade.2
    exact o.supervised hphase ⟨hfits.1, fun h => by cases h⟩
      (fun hlive => by simp [step, hstop] at hlive)
      (fun hlive => by simp [step, habort] at hlive) rfl
  | _ => simp [Event.ofSupervise] at hsupervise

/-- What changes neither the child nor what its pid depends on. -/
theorem Owns.frame (o : Owns s) (hphase : s'.phase = s.phase)
    (hsupervise : s'.supervise = s.supervise) (hchild : s'.child = s.child)
    (hstop : s'.onStop.live = true → s.onStop.live = true)
    (habort : s'.onAbort.live = true → s.onAbort.live = true)
    (hstraight : s'.misdirected = s.misdirected) : Owns s' := by
  constructor
  · rw [hphase, hsupervise, hchild]
    exact o.fits
  · rw [hphase, hsupervise]
    exact fun hlive => o.onStop (hstop hlive)
  · rw [hphase, hsupervise]
    exact fun hlive => o.onAbort (habort hlive)
  · rw [hstraight]
    exact o.straight

theorem Owns.step (o : Owns s) (he : enabled root s e) : Owns (step root s e) := by
  have hspent : Callback.spent.live = true → False := by simp [Callback.live]
  cases e with
  | start | pipe | prepare | clone | launched | receive | openSession | add | release | terminate
  | exitSeen | reapTerminated | throws | conclude | destroySession | destroyChild | reapChild
  | removeRecord => exact o.task he rfl
  | arm | armAbort | outputReady | childExited | waitFails | read | readEnds | readFails
  | signalFailed | disarmAbort | disarmStop | reap | lastRead | lastReadEnds | lastReadFails
  | superviseThrows | lastReadThrows | unwindAbort | unwindStop | judge | endServing =>
    exact o.supervise he rfl
  | deviceReady | serveWaitFails | serveStopped | serveGoesOn | serveRequest | serveMore
  | serveEnded | serveFails | mountGoes | host | childWrites | childCloses | childAsks =>
    exact o.frame rfl rfl rfl id id rfl
  | requestAbort error =>
    dsimp only [RunTraced.step]
    split
    · next harmed => exact o.frame rfl rfl rfl id (fun _ => by rw [harmed]; rfl) rfl
    · exact o.frame rfl rfl rfl id id rfl
  | requestStop =>
    refine o.frame rfl rfl rfl ?_ id rfl
    dsimp only [RunTraced.step]
    split
    · next harmed =>
      intro _
      rw [harmed]
      rfl
    · exact id
  | abortKills =>
    obtain ⟨_, hrunning⟩ := he
    have hown := o.own_of_live (.inr (by rw [hrunning]; rfl))
    exact o.frame rfl rfl rfl id (fun hlive => (hspent hlive).elim) (Owns.signal hown)
  | stopKills =>
    have hrunning : s.onStop = .running := he
    have hown := o.own_of_live (.inl (by rw [hrunning]; rfl))
    exact o.frame rfl rfl rfl (fun hlive => (hspent hlive).elim) id (Owns.signal hown)
  | childFails | childHandsOff =>
    have hchild : s.child = .setup := he
    exact o.child (by rw [hchild]; rfl) rfl rfl rfl rfl rfl rfl
  | childReleased | childAbandoned =>
    have hchild : s.child = .parked := he.1
    exact o.child (by rw [hchild]; rfl) rfl rfl rfl rfl rfl rfl
  | childDies => exact o.child (own_of_alive he.1) rfl rfl rfl rfl rfl rfl
  | childExits status =>
    have hchild : s.child = .running := he
    exact o.child (by rw [hchild]; rfl) rfl rfl rfl rfl rfl rfl

theorem owns_reachable (h : (machine root).Reachable (fun _ _ => True) s) : Owns s := by
  apply h.invariant
  · rintro s rfl
    exact ⟨rfl, by simp [Callback.live], by simp [Callback.live], rfl⟩
  · exact fun s e o he _ => o.step he

end MakeBelieve.ProcessUtil.RunTraced
