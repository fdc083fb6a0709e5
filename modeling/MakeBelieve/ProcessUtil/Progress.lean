import MakeBelieve.Library.Fair
import MakeBelieve.ProcessUtil.Runs

namespace MakeBelieve.ProcessUtil.RunTraced

open Library

variable {root : Path} {s s' : State} {e : Event}

/-! ### What each wait waits for -/

def Phase.early : Phase → Bool
  | .starting | .piping | .preparing | .cloning | .launching | .attaching | .opening | .adding
  | .releasing => true
  | _ => false

/-- `run_traced` waits for a child that it has killed. -/
def Phase.awaits : Phase → Bool
  | .awaitingExit _ | .reaping _ | .reapingChild _ => true
  | _ => false

/-- Supervision has stopped waiting for the child by anything but reaping it. -/
def Supervise.awaits : Supervise → Bool
  | .disarming _ _ | .reaping _ => true
  | _ => false

/-- What is waited for comes: a child that is waited for without a callback to kill it is killed or
gone, serving is stopped once supervision has ended, and an abort under way is running its callback.
-/
structure Ready (s : State) : Prop where
  attaching : s.phase = .attaching → s.holdsChildEnd = false
  unacked : s.phase.early = true → s.ack = false
  fresh : s.ack = false → s.supervise = .arming
  acked : s.phase = .tasks → s.ack = true
  ended : s.supervise = .done → s.stopServing = true ∧ s.sessionEnded = true
  aborting : s.serve = .aborting → s.onAbort = .running
  silent : s.child.alive = false → s.child ≠ .unborn → s.writers = false
  doomed : s.phase.awaits = true ∨ s.phase = .tasks ∧ s.supervise.awaits = true →
    s.killed = true ∨ s.child.alive = false

namespace Ready

/-- A step of `run_traced`, which leaves the two tasks where they are. -/
theorem moved (r : Ready s) (hsupervise : s'.supervise = s.supervise)
    (hserving : s'.stopServing = s.stopServing) (hended : s'.sessionEnded = s.sessionEnded)
    (hserve : s'.serve = s.serve) (habort : s'.onAbort = s.onAbort)
    (hsilent : s'.child.alive = false → s'.child ≠ .unborn → s'.writers = false)
    (hattaching : s'.phase = .attaching → s'.holdsChildEnd = false)
    (hunacked : s'.phase.early = true → s'.ack = false)
    (hfresh : s'.ack = false → s.ack = false) (htasks : s'.phase ≠ .tasks)
    (hdoomed : s'.phase.awaits = true → s'.killed = true ∨ s'.child.alive = false) :
    Ready s' := by
  constructor
  · exact hattaching
  · exact hunacked
  · rw [hsupervise]
    exact fun h => r.fresh (hfresh h)
  · exact fun h => absurd h htasks
  · rw [hsupervise, hserving, hended]
    exact r.ended
  · rw [hserve, habort]
    exact r.aborting
  · exact hsilent
  · rintro (h | ⟨h, _⟩)
    · exact hdoomed h
    · exact absurd h htasks

theorem task (r : Ready s) (o : Owns s) (he : enabled root s e) (htask : e.ofTask = true) :
    Ready (RunTraced.step root s e) := by
  have hfits := o.fits
  have hearly : ∀ {p : Phase}, s.phase = p → p.early = true → s.ack = false := by
    intro p hp hearly
    apply r.unacked
    rw [hp]
    exact hearly
  have hdoomed : ∀ {p : Phase}, s.phase = p → p.awaits = true →
      s.killed = true ∨ s.child.alive = false := by
    intro p hp hawaits
    apply r.doomed
    rw [hp]
    exact .inl hawaits
  -- A kill reaches the child, or finds it gone.
  have hsignal : s.signal.killed = true ∨ s.signal.child.alive = false := by
    cases halive : s.child.alive with
    | true => exact .inl (by simp [State.signal, halive])
    | false => exact .inr halive
  cases e with
  | start =>
    have hp : s.phase = .starting := he
    dsimp only [step]
    split
    · exact r.moved rfl rfl rfl rfl rfl r.silent (fun h => by cases h) (fun h => by cases h) id
        (fun h => by cases h) (fun h => by cases h)
    · exact r.moved rfl rfl rfl rfl rfl r.silent (fun h => by cases h)
        (fun _ => hearly hp rfl) id (fun h => by cases h) (fun h => by cases h)
  | pipe failed =>
    have hp : s.phase = .piping := he
    cases failed with
    | none =>
      exact r.moved rfl rfl rfl rfl rfl r.silent (fun h => by cases h)
        (fun _ => hearly hp rfl) id (fun h => by cases h) (fun h => by cases h)
    | some error =>
      exact r.moved rfl rfl rfl rfl rfl r.silent (fun h => by cases h) (fun h => by cases h) id
        (fun h => by cases h) (fun h => by cases h)
  | prepare failed =>
    have hp : s.phase = .preparing := he
    cases failed with
    | none =>
      exact r.moved rfl rfl rfl rfl rfl r.silent (fun h => by cases h)
        (fun _ => hearly hp rfl) id (fun h => by cases h) (fun h => by cases h)
    | some error =>
      exact r.moved rfl rfl rfl rfl rfl r.silent (fun h => by cases h) (fun h => by cases h) id
        (fun h => by cases h) (fun h => by cases h)
  | clone failed =>
    have hp : s.phase = .cloning := he
    cases failed with
    | none =>
      exact r.moved rfl rfl rfl rfl rfl (fun h => by cases h) (fun h => by cases h)
        (fun _ => hearly hp rfl) id (fun h => by cases h) (fun h => by cases h)
    | some error =>
      exact r.moved rfl rfl rfl rfl rfl r.silent (fun h => by cases h) (fun h => by cases h) id
        (fun h => by cases h) (fun h => by cases h)
  | launched =>
    have hp : s.phase = .launching := he
    exact r.moved rfl rfl rfl rfl rfl r.silent (fun _ => rfl) (fun _ => hearly hp rfl) id
      (fun h => by cases h) (fun h => by cases h)
  | receive interrupted =>
    have hp : s.phase = .attaching := he.1
    cases interrupted with
    | true =>
      exact r.moved rfl rfl rfl rfl rfl r.silent (fun h => by cases h) (fun h => by cases h) id
        (fun h => by cases h) (fun h => by cases h)
    | false =>
      dsimp only [step]
      split
      · exact r.moved rfl rfl rfl rfl rfl r.silent (fun h => by cases h)
          (fun _ => hearly hp rfl) id (fun h => by cases h) (fun h => by cases h)
      all_goals
        exact r.moved rfl rfl rfl rfl rfl r.silent (fun h => by cases h) (fun h => by cases h) id
          (fun h => by cases h) (fun h => by cases h)
  | openSession opened =>
    have hp : s.phase = .opening := he.1
    cases opened with
    | error error =>
      exact r.moved rfl rfl rfl rfl rfl r.silent (fun h => by cases h) (fun h => by cases h) id
        (fun h => by cases h) (fun h => by cases h)
    | ok mount =>
      exact r.moved rfl rfl rfl rfl rfl r.silent (fun h => by cases h)
        (fun _ => hearly hp rfl) id (fun h => by cases h) (fun h => by cases h)
  | add failed =>
    have hp : s.phase = .adding := he
    cases failed with
    | some error =>
      exact r.moved rfl rfl rfl rfl rfl r.silent (fun h => by cases h) (fun h => by cases h) id
        (fun h => by cases h) (fun h => by cases h)
    | none =>
      exact r.moved rfl rfl rfl rfl rfl r.silent (fun h => by cases h)
        (fun _ => hearly hp rfl) id (fun h => by cases h) (fun h => by cases h)
  | release =>
    have hp : s.phase = .releasing := he
    have harming := r.fresh (hearly hp rfl)
    refine ⟨(fun h => by cases h), (fun h => by cases h), (fun h => by cases h), fun _ => rfl,
      r.ended, r.aborting, r.silent, ?_⟩
    rintro (h | ⟨_, h⟩)
    · cases h
    · simp [step, harming, Supervise.awaits] at h
  | terminate error =>
    exact r.moved rfl rfl rfl rfl rfl r.silent (fun h => by cases h) (fun h => by cases h) id
      (fun h => by cases h) (fun _ => hsignal)
  | exitSeen error failed =>
    exact r.moved rfl rfl rfl rfl rfl r.silent (fun h => by cases h) (fun h => by cases h) id
      (fun h => by cases h) (fun _ => hdoomed he.1 rfl)
  | reapTerminated error =>
    refine r.moved rfl rfl rfl rfl rfl ?_ (fun h => by cases h) (fun h => by cases h) id
      (fun h => by cases h) (fun h => by cases h)
    intro _ _
    rw [he.1] at hfits
    exact r.silent he.2 (own_ne_unborn hfits)
  | throws | conclude =>
    exact r.moved rfl rfl rfl rfl rfl r.silent (fun h => by cases h) (fun h => by cases h) id
      (fun h => by cases h) (fun h => by cases h)
  | destroySession result | removeRecord result =>
    exact r.moved rfl rfl rfl rfl rfl r.silent (fun h => by cases h) (fun h => by cases h) id
      (fun h => by cases h) (fun h => by cases h)
  | destroyChild result =>
    dsimp only [step]
    split
    · exact r.moved rfl rfl rfl rfl rfl r.silent (fun h => by cases h) (fun h => by cases h) id
        (fun h => by cases h) (fun h => by cases h)
    · exact r.moved rfl rfl rfl rfl rfl r.silent (fun h => by cases h) (fun h => by cases h) id
        (fun h => by cases h) (fun _ => hsignal)
  | reapChild result =>
    refine r.moved rfl rfl rfl rfl rfl ?_ (fun h => by cases h) (fun h => by cases h) id
      (fun h => by cases h) (fun h => by cases h)
    intro _ _
    rw [he.1] at hfits
    exact r.silent he.2 (own_ne_unborn hfits)
  | _ => simp [Event.ofTask] at htask

/-- A step of the supervision. -/
theorem supervised (r : Ready s) (hp : s.phase = .tasks) (hphase : s'.phase = .tasks)
    (hack : s'.ack = s.ack) (hserve : s'.serve = s.serve)
    (hended : s'.supervise = .done → s'.stopServing = true ∧ s'.sessionEnded = true)
    (habort : s.onAbort = .running → s'.onAbort = .running)
    (hsilent : s'.child.alive = false → s'.child ≠ .unborn → s'.writers = false)
    (hdoomed : s'.supervise.awaits = true → s'.killed = true ∨ s'.child.alive = false) :
    Ready s' := by
  have hacked := r.acked hp
  constructor
  · intro h
    simp [hphase] at h
  · intro h
    simp [hphase, Phase.early] at h
  · rw [hack, hacked]
    exact fun h => by cases h
  · exact fun _ => hack.trans hacked
  · exact hended
  · rw [hserve]
    exact fun h => habort (r.aborting h)
  · exact hsilent
  · rintro (h | ⟨_, h⟩)
    · simp [hphase, Phase.awaits] at h
    · exact hdoomed h

theorem supervise (r : Ready s) (o : Owns s) (he : enabled root s e)
    (hsupervise : e.ofSupervise = true) : Ready (RunTraced.step root s e) := by
  have hp : s.phase = .tasks := by
    cases e with
    | arm | armAbort | outputReady | childExited | waitFails | read | readEnds | readFails
    | signalFailed | disarmAbort | disarmStop | reap | lastRead | lastReadEnds | lastReadFails
    | superviseThrows | lastReadThrows | unwindAbort | unwindStop | judge | endServing => exact he.1
    | _ => simp [Event.ofSupervise] at hsupervise
  have hborn : s.child ≠ .unborn := by
    have hfits := o.fits
    rw [hp] at hfits
    exact hfits.1
  have hdoomed : ∀ {p : Supervise}, s.supervise = p → p.awaits = true →
      s.killed = true ∨ s.child.alive = false := by
    intro p hs hawaits
    apply r.doomed
    rw [hs]
    exact .inr ⟨hp, hawaits⟩
  cases e with
  | arm =>
    have hdead := o.abort_dead (by rw [he.2]; rfl)
    have habort : s.onAbort ≠ .running := by
      intro h
      simp [h, Callback.live] at hdead
    dsimp only [step]
    split
    all_goals
      exact r.supervised hp hp rfl rfl (fun h => by cases h) (fun h => absurd h habort) r.silent
        (fun h => by cases h)
  | armAbort =>
    have hdead := o.abort_dead (by rw [he.2]; rfl)
    have habort : s.onAbort ≠ .running := by
      intro h
      simp [h, Callback.live] at hdead
    dsimp only [step]
    split
    all_goals
      exact r.supervised hp hp rfl rfl (fun h => by cases h) (fun h => absurd h habort) r.silent
        (fun h => by cases h)
  | outputReady | waitFails | readFails | superviseThrows | lastReadEnds | lastReadFails
  | lastReadThrows | judge =>
    exact r.supervised hp hp rfl rfl (fun h => by cases h) id r.silent (fun h => by cases h)
  | readEnds =>
    exact r.supervised hp hp rfl rfl (fun h => by cases h) id r.silent (fun h => by cases h)
  | childExited isOpen =>
    dsimp only [step]
    split
    · exact r.supervised hp hp rfl rfl (fun h => by cases h) id r.silent (fun h => by cases h)
    · exact r.supervised hp hp rfl rfl (fun h => by cases h) id r.silent (fun _ => .inr he.2.2)
  | read count =>
    refine r.supervised hp hp rfl rfl ?_ id r.silent ?_
    · intro h
      simp [step, he.2.1] at h
    · intro h
      simp [step, he.2.1, Supervise.awaits] at h
  | lastRead count =>
    refine r.supervised hp hp rfl rfl ?_ id r.silent ?_
    · intro h
      simp [step, he.2.1] at h
    · intro h
      simp [step, he.2.1, Supervise.awaits] at h
  | signalFailed isOpen =>
    refine r.supervised hp hp rfl rfl (fun h => by cases h) id r.silent ?_
    intro _
    cases halive : s.child.alive with
    | true => exact .inl (by simp [step, State.signal, halive])
    | false => exact .inr halive
  | disarmAbort isOpen =>
    exact r.supervised hp hp rfl rfl (fun h => by cases h) (fun h => absurd h he.2.2) r.silent
      (fun _ => hdoomed he.2.1 rfl)
  | disarmStop isOpen =>
    exact r.supervised hp hp rfl rfl (fun h => by cases h) id r.silent
      (fun _ => hdoomed he.2.1 rfl)
  | reap isOpen =>
    have hsilent := r.silent he.2.2 hborn
    cases isOpen with
    | true =>
      exact r.supervised hp hp rfl rfl (fun h => by cases h) id (fun _ _ => hsilent)
        (fun h => by cases h)
    | false =>
      exact r.supervised hp hp rfl rfl (fun h => by cases h) id (fun _ _ => hsilent)
        (fun h => by cases h)
  | unwindAbort =>
    exact r.supervised hp hp rfl rfl (fun h => by cases h) (fun h => absurd h he.2.2) r.silent
      (fun h => by cases h)
  | unwindStop =>
    exact r.supervised hp hp rfl rfl (fun h => by cases h) id r.silent (fun h => by cases h)
  | endServing supervision =>
    exact r.supervised hp hp rfl rfl (fun _ => ⟨rfl, rfl⟩) id r.silent (fun h => by cases h)
  | _ => simp [Event.ofSupervise] at hsupervise

/-- A step of none of these, which leaves where they are. -/
theorem frame (r : Ready s) (hphase : s'.phase = s.phase)
    (hholds : s'.holdsChildEnd = s.holdsChildEnd) (hack : s'.ack = s.ack)
    (hsupervise : s'.supervise = s.supervise) (hserving : s'.stopServing = s.stopServing)
    (hended : s'.sessionEnded = s.sessionEnded)
    (haborting : s'.serve = .aborting → s'.onAbort = .running)
    (hsilent : s'.child.alive = false → s'.child ≠ .unborn → s'.writers = false)
    (hdoomed : s.killed = true ∨ s.child.alive = false →
      s'.killed = true ∨ s'.child.alive = false) : Ready s' := by
  constructor
  · rw [hphase, hholds]
    exact r.attaching
  · rw [hphase, hack]
    exact r.unacked
  · rw [hack, hsupervise]
    exact r.fresh
  · rw [hphase, hack]
    exact r.acked
  · rw [hsupervise, hserving, hended]
    exact r.ended
  · exact haborting
  · exact hsilent
  · rw [hphase, hsupervise]
    exact fun h => hdoomed (r.doomed h)

theorem step (r : Ready s) (o : Owns s) (he : enabled root s e) :
    Ready (RunTraced.step root s e) := by
  -- A step of the child while it is alive.
  have halive : ∀ {child : Child}, s.child = child → child.alive = true →
      s.killed = true ∨ s.child.alive = false → s.killed = true := by
    intro child hchild halive h
    rw [hchild, halive] at h
    exact h.resolve_right (by simp)
  cases e with
  | start | pipe | prepare | clone | launched | receive | openSession | add | release | terminate
  | exitSeen | reapTerminated | throws | conclude | destroySession | destroyChild | reapChild
  | removeRecord => exact r.task o he rfl
  | arm | armAbort | outputReady | childExited | waitFails | read | readEnds | readFails
  | signalFailed | disarmAbort | disarmStop | reap | lastRead | lastReadEnds | lastReadFails
  | superviseThrows | lastReadThrows | unwindAbort | unwindStop | judge | endServing =>
    exact r.supervise o he rfl
  | deviceReady | serveWaitFails | serveStopped | serveGoesOn | serveMore | serveEnded
  | serveFails =>
    exact r.frame rfl rfl rfl rfl rfl rfl (fun h => by cases h) r.silent id
  | serveRequest =>
    exact r.frame rfl rfl rfl rfl rfl rfl (fun h => by cases h) r.silent id
  | childAsks | mountGoes | host =>
    exact r.frame rfl rfl rfl rfl rfl rfl r.aborting r.silent id
  | requestAbort error =>
    dsimp only [RunTraced.step]
    split
    · exact r.frame rfl rfl rfl rfl rfl rfl (fun _ => rfl) r.silent id
    · exact r.frame rfl rfl rfl rfl rfl rfl (fun h => by cases h) r.silent id
  | abortKills =>
    refine r.frame rfl rfl rfl rfl rfl rfl (fun h => by cases h) r.silent ?_
    exact Or.imp_left fun h => by simp [RunTraced.step, State.signal, h]
  | requestStop => exact r.frame rfl rfl rfl rfl rfl rfl r.aborting r.silent id
  | stopKills =>
    refine r.frame rfl rfl rfl rfl rfl rfl r.aborting r.silent ?_
    exact Or.imp_left fun h => by simp [RunTraced.step, State.signal, h]
  | childFails | childAbandoned | childDies | childExits =>
    exact r.frame rfl rfl rfl rfl rfl rfl r.aborting (fun _ _ => rfl) (fun _ => .inr rfl)
  | childHandsOff sent =>
    have hchild : s.child = .setup := he
    exact r.frame rfl rfl rfl rfl rfl rfl r.aborting (fun h => by cases h)
      (fun h => .inl (halive hchild rfl h))
  | childReleased =>
    exact r.frame rfl rfl rfl rfl rfl rfl r.aborting (fun h => by cases h)
      (fun h => .inl (halive he.1 rfl h))
  | childWrites bytes =>
    refine r.frame rfl rfl rfl rfl rfl rfl r.aborting ?_ id
    intro h
    simp [RunTraced.step, he.1, Child.alive] at h
  | childCloses => exact r.frame rfl rfl rfl rfl rfl rfl r.aborting (fun _ _ => rfl) id

theorem of_reachable (h : (machine root).Reachable (fun _ _ => True) s) : Ready s := by
  apply h.invariant_under (fun s hs => owns_reachable hs)
  · rintro s rfl
    refine ⟨(fun h => by cases h), fun _ => rfl, fun _ => rfl, (fun h => by cases h),
      (fun h => by cases h), (fun h => by cases h), (fun _ h => absurd rfl h), ?_⟩
    rintro (h | ⟨h, _⟩)
    · cases h
    · cases h
  · exact fun s e o r he _ => r.step o he

end Ready

/-! ### Who goes on -/

/-- What goes on beside the rest: `run_task`, the two tasks, the threads that run a callback, and
the child as it sets up, is let go and is killed. The command itself goes on as it likes. -/
inductive Party
  | task
  | supervision
  | serving
  | aborting
  | stopping
  | child
  deriving DecidableEq

def Event.party : Event → Option Party
  | .start | .pipe _ | .prepare _ | .clone _ | .launched | .receive _ | .openSession _ | .add _
  | .release | .terminate _ | .exitSeen _ _ | .reapTerminated _ | .throws | .conclude
  | .destroySession _ | .destroyChild _ | .reapChild _ | .removeRecord _ => some .task
  | .arm | .armAbort | .outputReady _ | .childExited _ | .waitFails _ _ | .read _ | .readEnds
  | .readFails | .signalFailed _ | .disarmAbort _ | .disarmStop _ | .reap _ | .lastRead _
  | .lastReadEnds | .lastReadFails | .superviseThrows | .lastReadThrows | .unwindAbort
  | .unwindStop | .judge | .endServing _ => some .supervision
  | .deviceReady | .serveWaitFails _ | .serveStopped | .serveGoesOn | .serveRequest _ _ _
  | .serveMore | .serveEnded | .serveFails _ | .requestAbort _ => some .serving
  | .abortKills => some .aborting
  | .stopKills => some .stopping
  | .childFails _ _ | .childHandsOff _ | .childReleased | .childAbandoned | .childDies =>
    some .child
  | .requestStop | .childExits _ | .childWrites _ | .childCloses | .childAsks | .mountGoes
  | .host _ => none

/-- A wait or a read that fails, or an exception, which nothing may count on. -/
def Event.fails : Event → Bool
  | .receive true | .exitSeen _ true | .throws | .waitFails _ _ | .readFails | .superviseThrows
  | .lastReadFails | .lastReadThrows | .serveWaitFails _ | .serveFails _ => true
  | _ => false

/-- It can go on without any of that. -/
def State.Able (root : Path) (s : State) (party : Party) : Prop :=
  ∃ e : Event, e.party = some party ∧ e.fails = false ∧ enabled root s e

theorem supervision_able (hp : s.phase = .tasks) (hgone : s.child.alive = false)
    (hdone : s.supervise ≠ .done) (hstop : s.onStop ≠ .running) (habort : s.onAbort ≠ .running) :
    s.Able root .supervision := by
  -- A read of all there is, or the end of reading.
  have hread : s.supervise = .draining ∨ s.supervise = .lastDrain → s.Able root .supervision := by
    intro hs
    by_cases hpipe : s.pipe = []
    · obtain hs | hs := hs
      · exact ⟨.readEnds, rfl, rfl, hp, hs, hpipe⟩
      · exact ⟨.lastReadEnds, rfl, rfl, hp, hs, hpipe⟩
    · obtain hs | hs := hs
      · exact ⟨.read 4095, rfl, rfl, hp, hs, hpipe⟩
      · exact ⟨.lastRead 4095, rfl, rfl, hp, hs, hpipe⟩
  cases hs : s.supervise with
  | arming => exact ⟨.arm, rfl, rfl, hp, hs⟩
  | armingAbort => exact ⟨.armAbort, rfl, rfl, hp, hs⟩
  | waiting isOpen => exact ⟨.childExited isOpen, rfl, rfl, hp, hs, hgone⟩
  | draining => exact hread (.inl hs)
  | waitFailed isOpen => exact ⟨.signalFailed isOpen, rfl, rfl, hp, hs⟩
  | disarming abortGone isOpen =>
    cases abortGone with
    | false => exact ⟨.disarmAbort isOpen, rfl, rfl, hp, hs, habort⟩
    | true => exact ⟨.disarmStop isOpen, rfl, rfl, hp, hs, hstop⟩
  | reaping isOpen => exact ⟨.reap isOpen, rfl, rfl, hp, hs, hgone⟩
  | lastDrain => exact hread (.inr hs)
  | judging => exact ⟨.judge, rfl, rfl, hp, hs⟩
  | threw abortGone =>
    cases abortGone with
    | false => exact ⟨.unwindAbort, rfl, rfl, hp, hs, habort⟩
    | true => exact ⟨.unwindStop, rfl, rfl, hp, hs, hstop⟩
  | ending supervision => exact ⟨.endServing supervision, rfl, rfl, hp, hs⟩
  | done => exact absurd hs hdone

/-- Once supervision has ended, serving ends. -/
theorem serving_able (r : Ready s) (hp : s.phase = .tasks) (hsupervise : s.supervise = .done)
    (hdone : s.serve ≠ .done) :
    s.Able root (if s.serve = .aborting then .aborting else .serving) := by
  obtain ⟨hstopped, hended⟩ := r.ended hsupervise
  cases hs : s.serve with
  | waiting => exact ⟨.serveStopped, rfl, rfl, hp, hs, hstopped⟩
  | processing => exact ⟨.serveEnded, rfl, rfl, hp, .inl ⟨hended, .inl hs⟩⟩
  | receiving => exact ⟨.serveEnded, rfl, rfl, hp, .inl ⟨hended, .inr hs⟩⟩
  | failing error => exact ⟨.requestAbort error, rfl, rfl, hp, hs⟩
  | aborting => exact ⟨.abortKills, rfl, rfl, hp, r.aborting hs⟩
  | done => exact absurd hs hdone

/-- Who goes on next, once nothing more can be waited for from the command. -/
def State.helper (s : State) : Party :=
  match s.phase with
  | .tasks =>
    match s.supervise with
    | .done =>
      if s.serve = .done then .task else if s.serve = .aborting then .aborting else .serving
    | _ =>
      if s.onStop = .running then .stopping
      else if s.onAbort = .running then .aborting
      else .supervision
  | .attaching => if s.child = .setup then .child else .task
  | _ => .task

theorem helper_done (hp : s.phase = .tasks) (hs : s.supervise = .done) :
    s.helper =
      if s.serve = .done then .task else if s.serve = .aborting then .aborting else .serving := by
  simp only [State.helper, hp, hs]

theorem helper_supervise (hp : s.phase = .tasks) (hs : s.supervise ≠ .done) :
    s.helper =
      if s.onStop = .running then .stopping
      else if s.onAbort = .running then .aborting
      else .supervision := by
  cases hcase : s.supervise with
  | done => exact absurd hcase hs
  | _ => simp only [State.helper, hp, hcase]

/-- In the two tasks, where supervision is not waited for. -/
theorem tasks_able (r : Ready s) (hp : s.phase = .tasks)
    (hsupervision : s.supervise ≠ .done → s.onStop ≠ .running → s.onAbort ≠ .running →
      s.Able root .supervision) : s.Able root s.helper := by
  by_cases hs : s.supervise = .done
  · rw [helper_done hp hs]
    by_cases hserve : s.serve = .done
    · rw [if_pos hserve]
      exact ⟨.conclude, rfl, rfl, hp, hs, hserve⟩
    · rw [if_neg hserve]
      exact serving_able r hp hs hserve
  · rw [helper_supervise hp hs]
    by_cases hstop : s.onStop = .running
    · rw [if_pos hstop]
      exact ⟨.stopKills, rfl, rfl, hstop⟩
    · rw [if_neg hstop]
      by_cases habort : s.onAbort = .running
      · rw [if_pos habort]
        exact ⟨.abortKills, rfl, rfl, hp, habort⟩
      · rw [if_neg habort]
        exact hsupervision hs hstop habort

/-- Outside the tasks `run_task` goes on, unless it waits for the child. -/
theorem task_able (hp : s.phase ≠ .tasks) (hreturned : ∀ result, s.phase ≠ .returned result)
    (hattaching : s.phase = .attaching → s.Able root .task)
    (hawaits : s.phase.awaits = true → s.child.alive = false) : s.Able root .task := by
  cases hphase : s.phase with
  | starting => exact ⟨.start, rfl, rfl, hphase⟩
  | piping => exact ⟨.pipe none, rfl, rfl, hphase⟩
  | preparing => exact ⟨.prepare none, rfl, rfl, hphase⟩
  | cloning => exact ⟨.clone none, rfl, rfl, hphase⟩
  | launching => exact ⟨.launched, rfl, rfl, hphase⟩
  | attaching => exact hattaching hphase
  | opening =>
    exact ⟨.openSession (.error Errno.EIO), rfl, rfl, hphase, fun mount h => by cases h⟩
  | adding => exact ⟨.add none, rfl, rfl, hphase⟩
  | releasing => exact ⟨.release, rfl, rfl, hphase⟩
  | terminating error => exact ⟨.terminate error, rfl, rfl, hphase⟩
  | awaitingExit error =>
    exact ⟨.exitSeen error false, rfl, rfl, hphase, .inr (hawaits (by rw [hphase]; rfl))⟩
  | reaping error =>
    exact ⟨.reapTerminated error, rfl, rfl, hphase, hawaits (by rw [hphase]; rfl)⟩
  | tasks => exact absurd hphase hp
  | destroyingSession result => exact ⟨.destroySession result, rfl, rfl, hphase⟩
  | destroyingChild result => exact ⟨.destroyChild result, rfl, rfl, hphase⟩
  | reapingChild result =>
    exact ⟨.reapChild result, rfl, rfl, hphase, hawaits (by rw [hphase]; rfl)⟩
  | removing result => exact ⟨.removeRecord result, rfl, rfl, hphase⟩
  | returned result => exact absurd hphase (hreturned result)

theorem helper_task (hp : s.phase ≠ .tasks) (hsetup : s.phase = .attaching → s.child ≠ .setup) :
    s.helper = .task := by
  cases hphase : s.phase with
  | tasks => exact absurd hphase hp
  | attaching => simp only [State.helper, hphase, if_neg (hsetup hphase)]
  | _ => simp only [State.helper, hphase]

/-- Once the child is gone, or before there was one, a run that has not returned goes on. -/
theorem goes_on (r : Ready s) (hgone : s.child.alive = false)
    (hreturned : ∀ result, s.phase ≠ .returned result) : s.Able root s.helper := by
  by_cases hp : s.phase = .tasks
  · exact tasks_able r hp fun hdone hstop habort =>
      supervision_able hp hgone hdone hstop habort
  · have hsetup : s.child ≠ .setup := by
      intro h
      simp [h, Child.alive] at hgone
    rw [helper_task hp fun _ => hsetup]
    apply task_able hp hreturned
    · exact fun hattaching =>
        ⟨.receive false, rfl, rfl, hattaching, .inr (.inr ⟨r.attaching hattaching, hgone⟩)⟩
    · exact fun _ => hgone

/-- A run never deadlocks: until it has returned, some part of it can go on without anything having
to fail, unless the command is running, which may take its time, or the child's handing over the
device failed, which neither side is told. -/
theorem never_stuck (h : (machine root).Reachable (fun _ _ => True) s)
    (hreturned : ∀ result, s.phase ≠ .returned result) :
    (∃ party, s.Able root party) ∨ s.child = .running ∨
      s.phase = .attaching ∧ s.child = .parked ∧ s.handoff = none := by
  have r := Ready.of_reachable h
  -- A child that is waited for was killed.
  have hdies : s.child.alive = true → s.phase.awaits = true → s.Able root .child := by
    intro halive hawaits
    have hkilled := (r.doomed (.inl hawaits)).resolve_right (by simp [halive])
    exact ⟨.childDies, rfl, rfl, halive, hkilled⟩
  cases hchild : s.child with
  | unborn | exited | reaped =>
    exact .inl ⟨_, goes_on r (by rw [hchild]; rfl) hreturned⟩
  | running => exact .inr (.inl rfl)
  | setup => exact .inl ⟨.child, .childHandsOff true, rfl, rfl, hchild⟩
  | parked =>
    have halive : s.child.alive = true := by
      rw [hchild]
      rfl
    by_cases hack : s.ack = true
    · exact .inl ⟨.child, .childReleased, rfl, rfl, hchild, hack⟩
    by_cases hawaits : s.phase.awaits = true
    · exact .inl ⟨.child, hdies halive hawaits⟩
    by_cases hlost : s.phase = .attaching ∧ s.handoff = none
    · exact .inr (.inr ⟨hlost.1, rfl, hlost.2⟩)
    refine .inl ⟨.task, task_able ?_ hreturned ?_ (fun h => absurd h hawaits)⟩
    · exact fun hp => hack (r.acked hp)
    · intro hattaching
      have hsent : s.handoff.isSome = true := by
        rw [Option.isSome_iff_ne_none]
        exact fun hnone => hlost ⟨hattaching, hnone⟩
      exact ⟨.receive false, rfl, rfl, hattaching, .inr (.inl hsent)⟩

theorem never_stuck_stopped :
    ∃ party, ((machine [['r']]).runs {} (setsUp ++ stops)).Able [['r']] party := by
  have hreachable : (machine [['r']]).Reachable (fun _ _ => True)
      ((machine [['r']]).runs {} (setsUp ++ stops)) :=
    .runs (.start rfl) (setsUp_fires.append stops_fires)
  have hstuck := never_stuck hreachable fun result h => by cases h
  exact hstuck.resolve_right (by decide +kernel)

end MakeBelieve.ProcessUtil.RunTraced
