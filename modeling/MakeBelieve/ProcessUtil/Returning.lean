import MakeBelieve.ProcessUtil.Ending

namespace MakeBelieve.ProcessUtil.RunTraced

open Library

variable {root : Path} {s s' : State} {e : Event}

/-! ### What is watched for -/

def State.Doomed (s : State) : Prop := s.killed = true ∨ s.child.alive = false

theorem doomed_signal (s : State) : s.signal.Doomed := by
  cases halive : s.child.alive with
  | true => exact .inl (by simp [State.signal, halive])
  | false => exact .inr halive

/-- Where a callback is, by whether what it waits for was requested. -/
def Watches (s : State) (asked : Bool) : Callback → Prop
  | .absent => False
  | .armed => asked = false
  | .running => True
  | .spent => s.Doomed

/-- What is asked for while supervision watches for it kills the child. -/
structure Watched (s : State) : Prop where
  stop : s.phase = .tasks → s.supervise.stopMade = true → Watches s s.stop s.onStop
  abort : s.phase = .tasks → s.supervise.abortMade = true → Watches s s.abort s.onAbort

namespace Watched

theorem watches_of_doomed {asked : Bool} {callback : Callback} (h : Watches s asked callback)
    (hdoomed : s.Doomed → s'.Doomed) : Watches s' asked callback := by
  cases callback with
  | spent => exact hdoomed h
  | absent | armed | running => exact h

/-- What was not armed as it is asked for has run, or runs. -/
theorem watches_asked {asked : Bool} {callback : Callback} (h : Watches s asked callback)
    (hdoomed : s.Doomed → s'.Doomed) :
    Watches s' true (if callback = .armed then .running else callback) := by
  cases callback with
  | armed | running => trivial
  | spent => exact hdoomed h
  | absent => exact h

theorem outside (hp : s'.phase ≠ .tasks) : Watched s' :=
  ⟨fun h => absurd h hp, fun h => absurd h hp⟩

/-- A step that leaves the callbacks and what they wait for. -/
theorem same (w : Watched s) (hphase : s'.phase = s.phase)
    (hstopMade : s'.supervise.stopMade = true → s.supervise.stopMade = true)
    (habortMade : s'.supervise.abortMade = true → s.supervise.abortMade = true)
    (hstop : s'.stop = s.stop) (honStop : s'.onStop = s.onStop) (habort : s'.abort = s.abort)
    (honAbort : s'.onAbort = s.onAbort) (hdoomed : s.Doomed → s'.Doomed) : Watched s' := by
  constructor
  · intro hp hmade
    rw [hstop, honStop]
    exact watches_of_doomed (w.stop (hphase ▸ hp) (hstopMade hmade)) hdoomed
  · intro hp hmade
    rw [habort, honAbort]
    exact watches_of_doomed (w.abort (hphase ▸ hp) (habortMade hmade)) hdoomed

theorem signalled (h : s.Doomed) : s.signal.Doomed :=
  Or.imp_left (fun hkilled => by simp [State.signal, hkilled]) h

theorem task (r : Ready s) (he : enabled root s e) (htask : e.ofTask = true) :
    Watched (RunTraced.step root s e) := by
  cases e with
  | start =>
    apply outside
    dsimp only [RunTraced.step]
    split
    all_goals exact fun h => by cases h
  | pipe failed | prepare failed | clone failed | add failed =>
    apply outside
    cases failed
    all_goals exact fun h => by cases h
  | openSession opened =>
    apply outside
    cases opened
    all_goals exact fun h => by cases h
  | receive interrupted =>
    apply outside
    cases interrupted with
    | true => exact fun h => by cases h
    | false =>
      dsimp only [RunTraced.step]
      split
      all_goals exact fun h => by cases h
  | release =>
    have hp : s.phase = .releasing := he
    have harming := r.fresh (r.unacked (by rw [hp]; rfl))
    constructor
    · intro _ hmade
      simp [RunTraced.step, harming, Supervise.stopMade] at hmade
    · intro _ hmade
      simp [RunTraced.step, harming, Supervise.abortMade] at hmade
  | destroyChild result =>
    apply outside
    dsimp only [RunTraced.step]
    split
    all_goals exact fun h => by cases h
  | launched | terminate | exitSeen | reapTerminated | throws | conclude | destroySession
  | reapChild | removeRecord => exact outside fun h => by cases h
  | _ => simp [Event.ofTask] at htask

theorem supervise (w : Watched s) (he : enabled root s e) (hsupervise : e.ofSupervise = true) :
    Watched (RunTraced.step root s e) := by
  cases e with
  | arm =>
    obtain ⟨hp, hs⟩ := he
    constructor
    · intro _ _
      dsimp only [RunTraced.step]
      split
      · exact doomed_signal s
      · rename_i hstop
        exact Bool.eq_false_of_not_eq_true hstop
    · intro _ hmade
      dsimp only [RunTraced.step] at hmade
      split at hmade
      all_goals simp [Supervise.abortMade] at hmade
  | armAbort =>
    obtain ⟨hp, hs⟩ := he
    have hstop := w.stop hp (by rw [hs]; rfl)
    constructor
    · intro _ _
      dsimp only [RunTraced.step]
      split
      · exact watches_of_doomed hstop signalled
      · exact watches_of_doomed hstop id
    · intro _ _
      dsimp only [RunTraced.step]
      split
      · exact doomed_signal s
      · rename_i habort
        exact Bool.eq_false_of_not_eq_true habort
  | outputReady failed =>
    exact w.same rfl (fun _ => by rw [he.2.1]; rfl) (fun _ => by rw [he.2.1]; rfl) rfl rfl rfl rfl
      id
  | childExited isOpen =>
    exact w.same rfl (fun _ => by rw [he.2.1]; rfl) (fun _ => by rw [he.2.1]; rfl) rfl rfl rfl rfl
      id
  | waitFails isOpen =>
    exact w.same rfl (fun _ => by rw [he.2]; rfl) (fun _ => by rw [he.2]; rfl) rfl rfl rfl rfl id
  | read | readEnds =>
    exact w.same rfl (fun _ => by rw [he.2.1]; rfl) (fun _ => by rw [he.2.1]; rfl) rfl rfl rfl rfl
      id
  | readFails =>
    exact w.same rfl (fun _ => by rw [he.2]; rfl) (fun _ => by rw [he.2]; rfl) rfl rfl rfl rfl id
  | signalFailed isOpen =>
    exact w.same rfl (fun _ => by rw [he.2]; rfl) (fun _ => by rw [he.2]; rfl) rfl rfl rfl rfl
      signalled
  | superviseThrows =>
    obtain ⟨_, ⟨isOpen, hs⟩ | hs⟩ := he
    all_goals
      exact w.same rfl (fun _ => by rw [hs]; rfl) (fun _ => by rw [hs]; rfl) rfl rfl rfl rfl id
  | disarmAbort isOpen | unwindAbort =>
    constructor
    · intro hp _
      exact watches_of_doomed (w.stop hp (by rw [he.2.1]; rfl)) id
    · intro _ hmade
      simp [RunTraced.step, Supervise.abortMade] at hmade
  | disarmStop | unwindStop | lastReadEnds | lastReadFails | lastReadThrows | judge
  | endServing =>
    constructor
    · intro _ hmade
      simp [RunTraced.step, Supervise.stopMade] at hmade
    · intro _ hmade
      simp [RunTraced.step, Supervise.abortMade] at hmade
  | reap isOpen =>
    constructor
    · intro _ hmade
      cases isOpen
      all_goals simp [RunTraced.step, Supervise.stopMade] at hmade
    · intro _ hmade
      cases isOpen
      all_goals simp [RunTraced.step, Supervise.abortMade] at hmade
  | lastRead => exact w.same rfl id id rfl rfl rfl rfl id
  | _ => simp [Event.ofSupervise] at hsupervise

/-- A step of the child while it is there, which leaves it killed if it was. -/
theorem killed (halive : s.child.alive = true) (h : s.Doomed) :
    s.killed = true ∨ s'.child.alive = false := by
  left
  exact h.resolve_right (by simp [halive])

theorem step (w : Watched s) (r : Ready s) (he : enabled root s e) :
    Watched (RunTraced.step root s e) := by
  cases e with
  | start | pipe | prepare | clone | launched | receive | openSession | add | release | terminate
  | exitSeen | reapTerminated | throws | conclude | destroySession | destroyChild | reapChild
  | removeRecord => exact task r he rfl
  | arm | armAbort | outputReady | childExited | waitFails | read | readEnds | readFails
  | signalFailed | disarmAbort | disarmStop | reap | lastRead | lastReadEnds | lastReadFails
  | superviseThrows | lastReadThrows | unwindAbort | unwindStop | judge | endServing =>
    exact w.supervise he rfl
  | deviceReady | serveWaitFails | serveStopped | serveGoesOn | serveRequest | serveMore
  | serveEnded | serveFails | childWrites | childCloses | childAsks | mountGoes | host =>
    exact w.same rfl id id rfl rfl rfl rfl id
  | requestAbort error =>
    by_cases harmed : s.onAbort = .armed
    · simp only [RunTraced.step, if_pos harmed]
      exact ⟨fun hp hmade => watches_of_doomed (w.stop hp hmade) id, fun _ _ => trivial⟩
    · simp only [RunTraced.step, if_neg harmed]
      refine ⟨fun hp hmade => watches_of_doomed (w.stop hp hmade) id, fun hp hmade => ?_⟩
      have hwatches := watches_asked (w.abort hp hmade) id
      rw [if_neg harmed] at hwatches
      exact hwatches
  | abortKills =>
    exact ⟨fun hp hmade => watches_of_doomed (w.stop hp hmade) signalled,
      fun _ _ => doomed_signal s⟩
  | requestStop =>
    exact ⟨fun hp hmade => watches_asked (w.stop hp hmade) id,
      fun hp hmade => watches_of_doomed (w.abort hp hmade) id⟩
  | stopKills =>
    exact ⟨fun _ _ => doomed_signal s,
      fun hp hmade => watches_of_doomed (w.abort hp hmade) signalled⟩
  | childFails | childAbandoned | childDies | childExits =>
    exact w.same rfl id id rfl rfl rfl rfl fun _ => .inr rfl
  | childHandsOff sent =>
    have hchild : s.child = .setup := he
    exact w.same rfl id id rfl rfl rfl rfl (killed (by rw [hchild]; rfl))
  | childReleased => exact w.same rfl id id rfl rfl rfl rfl (killed (by rw [he.1]; rfl))

theorem of_reachable (h : (machine root).Reachable (fun _ _ => True) s) : Watched s := by
  apply h.invariant_under (fun s hs => Ready.of_reachable hs)
  · rintro s rfl
    exact outside fun h => by cases h
  · exact fun s e r w he _ => w.step r he

end Watched

/-! ### A run that is asked to end -/

def Phase.unlaunched : Phase → Bool
  | .starting | .piping | .preparing | .cloning => true
  | _ => false

/-- It was asked to end, which has yet to reach the child. -/
structure State.Asked (s : State) : Prop where
  asked : s.stop = true ∨ s.abort = true
  spared : s.child.alive = true → s.killed = false
  child : s.child.alive = true ∨ s.child = .unborn ∧ s.phase.unlaunched = true

/-- Supervision on its way to being asked, or to its end. -/
def Supervise.pending : Supervise → Nat
  | .arming => 10
  | .armingAbort => 8
  | .threw true => 4
  | .ending _ => 2
  | .done => 0
  | _ => 6

def Serve.pending : Serve → Nat
  | .waiting => 4
  | .processing => 3
  | .receiving => 5
  | .failing _ => 2
  | .aborting => 1
  | .done => 0

def Callback.pending : Callback → Nat
  | .armed => 1
  | _ => 0

/-- Until supervision has ended, serving may go on as it likes. -/
def Serve.pendingBeside (serve : Serve) (supervise : Supervise) : Nat :=
  if supervise = .done then serve.pending else 6

def State.pending (s : State) : Nat :=
  s.phase.left + s.child.left + s.supervise.pending + s.onStop.pending + s.onAbort.pending +
    s.serve.pendingBeside s.supervise

theorem left_of_gone {child : Child} (hgone : child.alive = false) (hborn : child ≠ .unborn) :
    child.left = 0 := by
  cases child with
  | exited | reaped => rfl
  | unborn => exact absurd rfl hborn
  | setup | parked | running => simp [Child.alive] at hgone

theorem child_left_step (o : Owns s) (he : enabled root s e) :
    (step root s e).child.left ≤ s.child.left := by
  by_cases halive : s.child.alive = true
  · obtain ⟨hgone, hborn⟩ | ⟨_, hlt | ⟨hsame, _⟩⟩ := child_step o halive he
    · rw [left_of_gone hgone hborn]
      exact Nat.zero_le _
    · exact Nat.le_of_lt hlt
    · exact Nat.le_of_eq (congrArg Child.left hsame)
  · have hgone := Bool.eq_false_of_not_eq_true halive
    by_cases hborn : s.child = .unborn
    · rw [hborn]
      cases (step root s e).child
      all_goals simp [Child.left]
    · obtain ⟨hgone', hborn'⟩ := child_stays_gone o hgone hborn he
      rw [left_of_gone hgone' hborn']
      exact Nat.zero_le _

theorem pending_task (o : Owns s) (he : enabled root s e) (htask : e.ofTask = true) :
    (step root s e).pending < s.pending := by
  have hphase := phase_left he htask
  have hchild := child_left_step o he
  obtain ⟨hsupervise, hserve, _, hstop, habort, _, _, _, _⟩ := beside_task root s htask
  simp only [State.pending, hsupervise, hserve, hstop, habort]
  omega

namespace State.Asked

theorem not_doomed (a : s.Asked) (hp : s.phase = .tasks) : ¬ s.Doomed := by
  obtain halive | ⟨_, hphase⟩ := a.child
  · rintro (hkilled | hgone)
    · simp [a.spared halive] at hkilled
    · simp [hgone] at halive
  · simp [hp, Phase.unlaunched] at hphase

/-- What was asked for while supervision watches for it is on its way to the child. -/
theorem running (a : s.Asked) (w : Watched s) (hp : s.phase = .tasks)
    (hstopMade : s.supervise.stopMade = true) (habortMade : s.supervise.abortMade = true) :
    s.onStop = .running ∨ s.onAbort = .running := by
  have hdoomed := a.not_doomed hp
  have hruns : ∀ {callback : Callback}, Watches s true callback → callback = .running := by
    intro callback h
    cases callback with
    | running => rfl
    | spent => exact absurd h hdoomed
    | absent => exact h.elim
    | armed => simp [Watches] at h
  obtain hstop | habort := a.asked
  · have hwatches := w.stop hp hstopMade
    rw [hstop] at hwatches
    exact .inl (hruns hwatches)
  · have hwatches := w.abort hp habortMade
    rw [habort] at hwatches
    exact .inr (hruns hwatches)

theorem born (a : s.Asked) (hp : s.phase = .tasks) : s.child.alive = true := by
  have hdoomed := a.not_doomed hp
  rw [← Bool.not_eq_false]
  exact fun hgone => hdoomed (.inr hgone)

/-- Its supervision is asked, watches, or has thrown. -/
theorem supervise (a : s.Asked) (r : Ready s) (c : Collected s) (hp : s.phase = .tasks) :
    s.supervise.awaits = false ∧ s.supervise ≠ .lastDrain ∧ s.supervise ≠ .judging := by
  have hdoomed := a.not_doomed hp
  have halive := a.born hp
  have hended := c.ended
  refine ⟨?_, ?_, ?_⟩
  · rw [← Bool.not_eq_true]
    exact fun hawaits => hdoomed (r.doomed (.inr ⟨hp, hawaits⟩))
  · intro hs
    rw [hs] at hended
    obtain ⟨status, hchild⟩ := hended
    simp [hchild, Child.alive] at halive
  · intro hs
    rw [hs] at hended
    obtain ⟨⟨status, hchild⟩, _⟩ := hended
    simp [hchild, Child.alive] at halive

theorem able (a : s.Asked) (o : Owns s) (r : Ready s) (c : Collected s) (w : Watched s)
    (released : s.child = .running → s.ack = true)
    (hsent : s.phase = .attaching → s.child = .parked → s.handoff.isSome = true) :
    s.Able root s.helper := by
  by_cases hp : s.phase = .tasks
  · apply tasks_able r hp
    intro hdone hstop habort
    obtain ⟨hawaits, hdrain, hjudging⟩ := a.supervise r c hp
    have hwatching : s.supervise.stopMade = true → s.supervise.abortMade = true → False := by
      intro hstopMade habortMade
      obtain hrunning | hrunning := a.running w hp hstopMade habortMade
      · exact hstop hrunning
      · exact habort hrunning
    cases hs : s.supervise with
    | arming => exact ⟨.arm, rfl, rfl, hp, hs⟩
    | armingAbort => exact ⟨.armAbort, rfl, rfl, hp, hs⟩
    | waiting | draining | waitFailed =>
      rw [hs] at hwatching
      exact (hwatching rfl rfl).elim
    | threw abortGone =>
      cases abortGone with
      | false =>
        rw [hs] at hwatching
        exact (hwatching rfl rfl).elim
      | true => exact ⟨.unwindStop, rfl, rfl, hp, hs, hstop⟩
    | disarming | reaping => simp [hs, Supervise.awaits] at hawaits
    | lastDrain => exact absurd hs hdrain
    | judging => exact absurd hs hjudging
    | ending supervision => exact ⟨.endServing supervision, rfl, rfl, hp, hs⟩
    | done => exact absurd hs hdone
  · by_cases hsetup : s.phase = .attaching ∧ s.child = .setup
    · have hhelper : s.helper = .child := by simp [State.helper, hsetup]
      rw [hhelper]
      exact ⟨.childHandsOff true, rfl, rfl, hsetup.2⟩
    · rw [helper_task hp fun hattaching hchild => hsetup ⟨hattaching, hchild⟩]
      apply task_able hp
      · intro result hreturned
        obtain halive | ⟨_, hphase⟩ := a.child
        · have hfits := o.fits
          rw [hreturned, Fits, own_of_alive halive] at hfits
          simp at hfits
        · simp [hreturned, Phase.unlaunched] at hphase
      · intro hattaching
        obtain halive | ⟨_, hphase⟩ := a.child
        · have hparked : s.child = .parked := by
            cases hchild : s.child with
            | parked => rfl
            | setup => exact absurd ⟨hattaching, hchild⟩ hsetup
            | running =>
              have hacked := released hchild
              rw [r.unacked (by rw [hattaching]; rfl)] at hacked
              simp at hacked
            | unborn | exited | reaped => simp [hchild, Child.alive] at halive
          exact ⟨.receive false, rfl, rfl, hattaching, .inr (.inl (hsent hattaching hparked))⟩
        · simp [hattaching, Phase.unlaunched] at hphase
      · intro hawaits
        obtain halive | ⟨hborn, _⟩ := a.child
        · exact (r.doomed (.inl hawaits)).resolve_left (by simp [a.spared halive])
        · rw [hborn]
          rfl

theorem helper_ne (a : s.Asked) (w : Watched s) (hp : s.phase = .tasks)
    (hdone : s.supervise ≠ .done) (hstopMade : s.supervise.stopMade = true)
    (habortMade : s.supervise.abortMade = true) : s.helper ≠ .supervision := by
  rw [helper_supervise hp hdone]
  by_cases hstop : s.onStop = .running
  · simp [hstop]
  · have habort := (a.running w hp hstopMade habortMade).resolve_left hstop
    simp [habort]
    split
    all_goals simp

end State.Asked

/-- Where a step leads: the child is dying, it is over, or there is less to do until then. -/
def Nearer (s s' : State) (party : Option Party) : Prop :=
  s'.Dying ∨ s'.pending < s.pending ∨
    s'.pending ≤ s.pending ∧ s'.helper = s.helper ∧ party ≠ some s.helper

theorem nearer_supervise (a : s.Asked) (r : Ready s) (c : Collected s) (w : Watched s)
    (he : enabled root s e) (hsupervise : e.ofSupervise = true) :
    Nearer s (step root s e) (some .supervision) := by
  have hp : s.phase = .tasks := by
    cases e with
    | arm | armAbort | outputReady | childExited | waitFails | read | readEnds | readFails
    | signalFailed | disarmAbort | disarmStop | reap | lastRead | lastReadEnds | lastReadFails
    | superviseThrows | lastReadThrows | unwindAbort | unwindStop | judge | endServing => exact he.1
    | _ => simp [Event.ofSupervise] at hsupervise
  have halive := a.born hp
  obtain ⟨hawaits, hdrain, hjudging⟩ := a.supervise r c hp
  have hsignal : s.signal.killed = true := by simp [State.signal, halive]
  -- Supervision goes on watching.
  have hwatches : ∀ {s' : State}, s'.phase = .tasks → s'.supervise ≠ .done →
      s.supervise ≠ .done → s.supervise.stopMade = true → s.supervise.abortMade = true →
      s'.supervise.pending = s.supervise.pending → s'.child = s.child → s'.onStop = s.onStop →
      s'.onAbort = s.onAbort → Nearer s s' (some .supervision) := by
    intro s' hp' hdone' hdone hstopMade habortMade hsame hchild hstop habort
    refine .inr (.inr ⟨?_, ?_, ?_⟩)
    · simp only [State.pending, Serve.pendingBeside, hp, hp', hsame, hchild, hstop, habort,
        if_neg hdone, if_neg hdone', le_refl]
    · rw [helper_supervise hp hdone, helper_supervise hp' hdone', hstop, habort]
    · intro h
      exact a.helper_ne w hp hdone hstopMade habortMade (Option.some.inj h).symm
  -- It is on its way to that, or to its end.
  have hlower : ∀ {s' : State}, s'.supervise.pending + s'.onStop.pending + s'.onAbort.pending <
        s.supervise.pending + s.onStop.pending + s.onAbort.pending → s'.supervise ≠ .done →
      s.supervise ≠ .done → s'.phase = s.phase → s'.child = s.child →
      Nearer s s' (some .supervision) := by
    intro s' hlt hdone' hdone hphase hchild
    refine .inr (.inl ?_)
    simp only [State.pending, Serve.pendingBeside, hphase, hchild, if_neg hdone, if_neg hdone']
    omega
  cases e with
  | arm =>
    by_cases hstop : s.stop = true
    · simp only [step, if_pos hstop]
      exact .inl ⟨hsignal, halive⟩
    · simp only [step, if_neg hstop]
      refine hlower ?_ (by simp) (by simp [he.2]) rfl rfl
      simp only [he.2, Supervise.pending, Callback.pending]
      omega
  | armAbort =>
    by_cases habort : s.abort = true
    · simp only [step, if_pos habort]
      exact .inl ⟨hsignal, halive⟩
    · simp only [step, if_neg habort]
      refine hlower ?_ (by simp) (by simp [he.2]) rfl rfl
      simp only [he.2, Supervise.pending, Callback.pending]
      omega
  | outputReady failed =>
    have hs := he.2.1
    exact hwatches hp (by simp [step]) (by simp [hs]) (by rw [hs]; rfl) (by rw [hs]; rfl)
      (by rw [hs]; rfl) rfl rfl rfl
  | read count =>
    have hs := he.2.1
    exact hwatches hp (by simp [step, hs]) (by simp [hs]) (by rw [hs]; rfl) (by rw [hs]; rfl)
      rfl rfl rfl rfl
  | readEnds =>
    have hs := he.2.1
    exact hwatches hp (by simp [step]) (by simp [hs]) (by rw [hs]; rfl) (by rw [hs]; rfl)
      (by rw [hs]; rfl) rfl rfl rfl
  | waitFails | readFails =>
    have hs := he.2
    exact hwatches hp (by simp [step]) (by simp [hs]) (by rw [hs]; rfl) (by rw [hs]; rfl)
      (by rw [hs]; rfl) rfl rfl rfl
  | superviseThrows =>
    obtain ⟨_, ⟨isOpen, hs⟩ | hs⟩ := he
    all_goals
      exact hwatches hp (by simp [step]) (by simp [hs]) (by rw [hs]; rfl) (by rw [hs]; rfl)
        (by rw [hs]; rfl) rfl rfl rfl
  | childExited isOpen => simp [he.2.2] at halive
  | signalFailed isOpen => exact .inl ⟨hsignal, halive⟩
  | disarmAbort | disarmStop | reap => simp [he.2.1, Supervise.awaits] at hawaits
  | lastRead | lastReadEnds => exact absurd he.2.1 hdrain
  | lastReadFails | lastReadThrows => exact absurd he.2 hdrain
  | judge => exact absurd he.2 hjudging
  | unwindAbort =>
    refine hlower ?_ (by simp [step]) (by simp [he.2.1]) rfl rfl
    simp only [step, he.2.1, Supervise.pending, Callback.pending]
    omega
  | unwindStop =>
    refine hlower ?_ (by simp [step]) (by simp [he.2.1]) rfl rfl
    simp only [step, he.2.1, Supervise.pending, Callback.pending]
    omega
  | endServing supervision =>
    refine .inr (.inl ?_)
    have hserve : s.serve.pending ≤ 5 := by
      cases s.serve
      all_goals simp [Serve.pending]
    simp [State.pending, Serve.pendingBeside, step, he.2, Supervise.pending]
    omega
  | _ => simp [Event.ofSupervise] at hsupervise

/-- Serving comes to its end once supervision has, and until then is not waited for. -/
theorem nearer_serve (r : Ready s) (he : enabled root s e)
    (hparty : e.party = some .serving) : Nearer s (step root s e) (some .serving) := by
  have hp : s.phase = .tasks := by
    cases e with
    | deviceReady | serveWaitFails | serveStopped | serveGoesOn | serveRequest | serveMore
    | serveEnded | serveFails | requestAbort => exact he.1
    | _ => simp [Event.party] at hparty
  by_cases hdone : s.supervise = .done
  · -- Each step lowers what serving has left.
    have hended := (r.ended hdone).2
    have hlower : ∀ {s' : State}, s'.serve.pending + s'.onAbort.pending <
          s.serve.pending + s.onAbort.pending → s'.supervise = s.supervise →
        s'.phase = s.phase → s'.child = s.child → s'.onStop = s.onStop →
        Nearer s s' (some .serving) := by
      intro s' hlt hsupervise hphase hchild hstop
      refine .inr (.inl ?_)
      simp only [State.pending, Serve.pendingBeside, hphase, hchild, hsupervise, hdone, hstop,
        if_true]
      omega
    cases e with
    | deviceReady => exact hlower (by simp [step, he.2.1, Serve.pending]) rfl rfl rfl rfl
    | serveWaitFails => exact hlower (by simp [step, he.2, Serve.pending]) rfl rfl rfl rfl
    | serveStopped => exact hlower (by simp [step, he.2.1, Serve.pending]) rfl rfl rfl rfl
    | serveGoesOn => simp [he.2.2] at hended
    | serveRequest =>
      exact hlower (by simp [step, mountStep, he.2.1, Serve.pending]) rfl rfl rfl rfl
    | serveMore => exact hlower (by simp [step, he.2.1, Serve.pending]) rfl rfl rfl rfl
    | serveEnded =>
      obtain ⟨_, ⟨_, hs | hs⟩ | ⟨_, hs⟩⟩ := he
      all_goals exact hlower (by simp [step, hs, Serve.pending]) rfl rfl rfl rfl
    | serveFails =>
      obtain ⟨_, hs | hs | hs⟩ := he
      all_goals exact hlower (by simp [step, hs, Serve.pending]) rfl rfl rfl rfl
    | requestAbort error =>
      by_cases harmed : s.onAbort = .armed
      · simp only [step, if_pos harmed]
        refine hlower ?_ rfl rfl rfl rfl
        simp [he.2, harmed, Serve.pending, Callback.pending]
      · simp only [step, if_neg harmed]
        refine hlower ?_ rfl rfl rfl rfl
        simp [he.2, Serve.pending]
    | _ => simp [Event.party] at hparty
  · have hother : s.helper ≠ .serving := by
      rw [helper_supervise hp hdone]
      split
      · simp
      · split
        all_goals simp
    have hsame : ∀ {s' : State}, s'.phase = s.phase → s'.child = s.child →
        s'.supervise = s.supervise → s'.onStop = s.onStop → s'.onAbort = s.onAbort →
        Nearer s s' (some .serving) := by
      intro s' hphase hchild hsupervise hstop habort
      refine .inr (.inr ⟨?_, ?_, fun h => hother (Option.some.inj h).symm⟩)
      · simp only [State.pending, Serve.pendingBeside, hphase, hchild, hsupervise, hstop, habort,
          if_neg hdone, le_refl]
      · have hp' := hphase.trans hp
        have hdone' : s'.supervise ≠ .done := by
          rw [hsupervise]
          exact hdone
        rw [helper_supervise hp hdone, helper_supervise hp' hdone', hstop, habort]
    cases e with
    | requestAbort error =>
      by_cases harmed : s.onAbort = .armed
      · refine .inr (.inl ?_)
        simp only [State.pending, Serve.pendingBeside, step, harmed, if_true, if_neg hdone,
          Callback.pending]
        omega
      · simp only [step, if_neg harmed]
        exact hsame rfl rfl rfl rfl rfl
    | deviceReady | serveWaitFails | serveStopped | serveGoesOn | serveRequest | serveMore
    | serveEnded | serveFails => exact hsame rfl rfl rfl rfl rfl
    | _ => simp [Event.party] at hparty

theorem asked_stays (h : s.stop = true ∨ s.abort = true) :
    (step root s e).stop = true ∨ (step root s e).abort = true := by
  cases e with
  | clone failed | openSession failed | add failed =>
    cases failed
    all_goals exact h
  | receive interrupted =>
    cases interrupted with
    | true => exact h
    | false =>
      dsimp only [step]
      split
      all_goals exact h
  | arm | armAbort | destroyChild =>
    dsimp only [step]
    split
    all_goals exact h
  | requestAbort =>
    dsimp only [step]
    split
    all_goals exact .inr rfl
  | requestStop => exact .inl rfl
  | _ => exact h

/-- What becomes of a run that has not launched its child. -/
theorem unborn_step (o : Owns s) (hborn : s.child = .unborn) (hp : s.phase.unlaunched = true)
    (he : enabled root s e) :
    (step root s e).Over ∨ (step root s e).child.alive = true ∨
      (step root s e).child = .unborn ∧ (step root s e).phase.unlaunched = true := by
  have hdead := o.dead (by rintro h; simp [h, Phase.unlaunched] at hp)
  have hother : ∀ {p : Phase}, s.phase = p → p.unlaunched = true := by
    rintro p rfl
    exact hp
  have hgone : s.child.alive = false := by
    rw [hborn]
    rfl
  cases e with
  | start =>
    by_cases hstop : s.stop = true
    · exact .inl ⟨hgone, fun _ => ⟨.error .ECANCELED, by simp [step, hstop]⟩⟩
    · exact .inr (.inr ⟨hborn, by simp [step, hstop, Phase.unlaunched]⟩)
  | pipe failed | prepare failed =>
    cases failed with
    | none => exact .inr (.inr ⟨hborn, rfl⟩)
    | some error => exact .inl ⟨hgone, fun _ => ⟨.error error, rfl⟩⟩
  | clone failed =>
    cases failed with
    | none => exact .inr (.inl rfl)
    | some error => exact .inl ⟨hgone, fun _ => ⟨.error error, rfl⟩⟩
  | requestStop | host => exact .inr (.inr ⟨hborn, hp⟩)
  | stopKills =>
    have hrunning : s.onStop = .running := he
    simp [hrunning, Callback.live] at hdead
  | mountGoes => exact absurd hborn he.2
  | childFails | childHandsOff | childExits | childCloses | childAsks =>
    have hpresent : s.child = _ := he
    simp [hborn] at hpresent
  | childReleased | childAbandoned | childWrites => simp [enabled, hborn] at he
  | childDies => simp [enabled, hgone] at he
  | launched | add | release | terminate | destroySession | destroyChild | removeRecord =>
    have he : s.phase = _ := he
    cases hother he
  | throws =>
    obtain he | he | ⟨error, he⟩ := he
    all_goals cases hother he
  | _ => cases hother he.1

/-- A run that is asked to end stays so until its child is dying or over, on its way there. -/
theorem asked_step (a : s.Asked) (o : Owns s) (r : Ready s) (c : Collected s) (w : Watched s)
    (he : enabled root s e) :
    ((step root s e).Dying ∨ (step root s e).Over) ∨
      (step root s e).Asked ∧ ((step root s e).pending < s.pending ∨
        (step root s e).pending ≤ s.pending ∧ (step root s e).helper = s.helper ∧
          e.party ≠ some s.helper) := by
  have hbecomes : (step root s e).Over ∨ (step root s e).child.alive = true ∨
      (step root s e).child = .unborn ∧ (step root s e).phase.unlaunched = true := by
    obtain halive | ⟨hborn, hp⟩ := a.child
    · obtain ⟨hgone, hborn⟩ | ⟨halive, _⟩ := child_step o halive he
      · exact .inl ⟨hgone, fun h => absurd h hborn⟩
      · exact .inr (.inl halive)
    · exact unborn_step o hborn hp he
  obtain hover | hchild := hbecomes
  · exact .inl (.inr hover)
  by_cases hdying : (step root s e).Dying
  · exact .inl (.inl hdying)
  have hspared : (step root s e).child.alive = true → (step root s e).killed = false := by
    intro halive
    rw [← Bool.not_eq_true]
    exact fun hkilled => hdying ⟨hkilled, halive⟩
  refine .inr ⟨⟨asked_stays a.asked, hspared, hchild⟩, ?_⟩
  suffices hnearer : Nearer s (step root s e) e.party from hnearer.resolve_left hdying
  cases e with
  | start | pipe | prepare | clone | launched | receive | openSession | add | release | terminate
  | exitSeen | reapTerminated | throws | conclude | destroySession | destroyChild | reapChild
  | removeRecord => exact .inr (.inl (pending_task o he rfl))
  | arm | armAbort | outputReady | childExited | waitFails | read | readEnds | readFails
  | signalFailed | disarmAbort | disarmStop | reap | lastRead | lastReadEnds | lastReadFails
  | superviseThrows | lastReadThrows | unwindAbort | unwindStop | judge | endServing =>
    exact nearer_supervise a r c w he rfl
  | deviceReady | serveWaitFails | serveStopped | serveGoesOn | serveRequest | serveMore
  | serveEnded | serveFails | requestAbort => exact nearer_serve r he rfl
  | abortKills =>
    have halive := a.born he.1
    exact .inl ⟨by simp [step, State.signal, halive], halive⟩
  | stopKills =>
    have hrunning : s.onStop = .running := he
    have halive := a.born (o.onStop (by rw [hrunning]; rfl)).1
    exact .inl ⟨by simp [step, State.signal, halive], halive⟩
  | childFails | childAbandoned | childDies | childExits =>
    simp [step, State.exits, Child.alive] at hchild
  | childHandsOff sent =>
    have hsetup : s.child = .setup := he
    refine .inr (.inl ?_)
    simp only [State.pending, step, hsetup, Child.left]
    omega
  | childReleased =>
    refine .inr (.inl ?_)
    simp only [State.pending, step, he.1, Child.left]
    omega
  | requestStop =>
    by_cases harmed : s.onStop = .armed
    · refine .inr (.inl ?_)
      simp only [State.pending, step, harmed, if_true, Callback.pending]
      omega
    · simp only [step, if_neg harmed]
      exact .inr (.inr ⟨Nat.le_refl _, rfl, by simp [Event.party]⟩)
  | childWrites | childCloses | childAsks | mountGoes | host =>
    exact .inr (.inr ⟨Nat.le_refl _, rfl, by simp [Event.party]⟩)

/-! ### Every run returns -/

/-- The child's handing over the device, which neither side is told of failing, does not fail. -/
def sends (_ : State) (e : Event) : Prop := e ≠ .childHandsOff false

/-- Until `run_traced` has the device, a parked child has sent it. -/
def Sent (s : State) : Prop :=
  s.phase = .launching ∨ s.phase = .attaching → s.child = .parked → s.handoff.isSome = true

theorem sent_step (h : Sent s) (he : enabled root s e) (hsends : sends s e) :
    Sent (step root s e) := by
  -- Elsewhere nothing is left to be sent.
  have houtside : ∀ {s' : State}, s'.phase ≠ .launching → s'.phase ≠ .attaching → Sent s' := by
    rintro s' hlaunching hattaching (hp | hp)
    · exact absurd hp hlaunching
    · exact absurd hp hattaching
  cases e with
  | start =>
    dsimp only [step]
    split
    all_goals exact houtside (fun h => by cases h) (fun h => by cases h)
  | pipe failed | prepare failed | openSession failed | add failed =>
    cases failed
    all_goals exact houtside (fun h => by cases h) (fun h => by cases h)
  | clone failed =>
    cases failed with
    | none =>
      intro _ hchild
      cases hchild
    | some error => exact houtside (fun h => by cases h) (fun h => by cases h)
  | launched => exact fun _ => h (.inl he)
  | receive interrupted =>
    cases interrupted with
    | true => exact houtside (fun h => by cases h) (fun h => by cases h)
    | false =>
      dsimp only [step]
      split
      all_goals exact houtside (fun h => by cases h) (fun h => by cases h)
  | destroyChild result =>
    dsimp only [step]
    split
    all_goals exact houtside (fun h => by cases h) (fun h => by cases h)
  | release | terminate | exitSeen | reapTerminated | throws | conclude | destroySession
  | reapChild | removeRecord => exact houtside (fun h => by cases h) (fun h => by cases h)
  | arm | armAbort | requestAbort =>
    dsimp only [step]
    split
    all_goals exact h
  | reap | childFails | childReleased | childAbandoned | childDies | childExits =>
    intro _ hchild
    cases hchild
  | childHandsOff sent =>
    cases sent with
    | true => exact fun _ _ => rfl
    | false => exact absurd rfl hsends
  | _ => exact h

theorem sent_reachable (h : (machine root).Reachable sends s) : Sent s := by
  apply h.invariant
  · rintro s rfl
    rintro (hp | hp)
    all_goals cases hp
  · exact fun s e hsent he hok => sent_step hsent he hok

theorem unborn_phase (o : Owns s) (hborn : s.child = .unborn) :
    s.phase.unlaunched = true ∨ (∃ result, s.phase = .removing result) ∨
      ∃ result, s.phase = .returned result := by
  have hfits := o.fits
  rw [hborn] at hfits
  cases hp : s.phase with
  | starting | piping | preparing | cloning => exact .inl rfl
  | removing result => exact .inr (.inl ⟨result, rfl⟩)
  | returned result => exact .inr (.inr ⟨result, rfl⟩)
  | tasks =>
    rw [hp] at hfits
    exact absurd rfl hfits.1
  | destroyingSession | destroyingChild =>
    rw [hp] at hfits
    exact absurd rfl hfits
  | _ =>
    rw [hp] at hfits
    cases hfits

/-- A run that has returned does nothing more. -/
theorem returned_unable (o : Owns s) {result : Result} (hp : s.phase = .returned result)
    (party : Party) : ¬ s.Able root party := by
  have hdead := (o.dead (by simp [hp])).1
  have hown : s.child.own = false := by
    have hfits := o.fits
    rw [hp] at hfits
    exact hfits
  have hother : ∀ {p : Phase}, s.phase = p → p = .returned result := by
    rintro p rfl
    exact hp
  rintro ⟨e, hparty, hfails, he⟩
  cases e with
  | start | pipe | prepare | clone | launched | add | release | terminate | destroySession
  | destroyChild | removeRecord =>
    have he : s.phase = _ := he
    cases hother he
  | throws => simp [Event.fails] at hfails
  | stopKills =>
    have hrunning : s.onStop = .running := he
    simp [hrunning, Callback.live] at hdead
  | childFails | childHandsOff =>
    have hpresent : s.child = _ := he
    simp [hpresent, Child.own] at hown
  | childReleased | childAbandoned => simp [he.1, Child.own] at hown
  | childDies => simp [own_of_alive he.1] at hown
  | requestStop | childExits | childWrites | childCloses | childAsks | mountGoes | host =>
    simp [Event.party] at hparty
  | _ => cases hother he.1

def returnsStopped : List Event :=
  [.childExited true, .disarmAbort true, .disarmStop true, .reap true, .lastReadEnds, .judge,
    .endServing { canceled := true, exitStatus := 137 }, .serveStopped, .conclude,
    .destroySession (.error .ECANCELED), .destroyChild (.error .ECANCELED),
    .removeRecord (.error .ECANCELED)]

theorem returnsStopped_fires : (machine [['r']]).Fires (fun _ _ => True)
    ((machine [['r']]).runs {} (setsUp ++ stops)) returnsStopped :=
  ⟨⟨rfl, rfl, rfl⟩, trivial, ⟨rfl, rfl, by decide⟩, trivial, ⟨rfl, rfl, by decide⟩, trivial,
    ⟨rfl, rfl, rfl⟩, trivial, ⟨rfl, rfl, rfl⟩, trivial, ⟨rfl, rfl⟩, trivial, ⟨rfl, rfl⟩, trivial,
    ⟨rfl, rfl, rfl⟩, trivial, ⟨rfl, rfl, rfl⟩, trivial, rfl, trivial, rfl, trivial, rfl, trivial,
    trivial⟩

theorem stopped_fires : (machine [['r']]).Fires sends {} (setsUp ++ stops ++ returnsStopped) := by
  apply Machine.Fires.of_forall ((setsUp_fires.append stops_fires).append returnsStopped_fires)
  intro e he s
  simp only [setsUp, stops, returnsStopped, List.cons_append, List.nil_append, List.mem_cons,
    List.not_mem_nil, or_false] at he
  rintro rfl
  simp at he

/-- A run that is asked to end, by a stop or because its mount could not be served, returns. So does
one whose command has ended, however much is left of what that wrote and asked for. -/
theorem asked_returns {r : Run (machine root) sends}
    (hjust : r.Just Event.party (State.Able root)) :
    r.LeadsTo
      (fun s => s.stop = true ∨ s.abort = true ∨ s.child.alive = false ∧ s.child ≠ .unborn)
      (fun s => ∃ result, s.phase = .returned result) := by
  have hends : r.LeadsTo State.Asked fun s => s.Dying ∨ s.Over := by
    apply hjust.leadsTo State.pending State.helper
    · intro s hs a
      have hsent := sent_reachable hs
      have hs := hs.weaken fun _ _ _ => trivial
      exact a.able (owns_reachable hs) (Ready.of_reachable hs) (Collected.of_reachable hs)
        (Watched.of_reachable hs) (Released.of_reachable hs).running
        fun hattaching => hsent (.inr hattaching)
    · intro s e hs he _ a
      have hs := hs.weaken fun _ _ _ => trivial
      exact asked_step a (owns_reachable hs) (Ready.of_reachable hs) (Collected.of_reachable hs)
        (Watched.of_reachable hs) he
  have hover : r.LeadsTo State.Over fun s => ∃ result, s.phase = .returned result :=
    over_returns hjust
  have hdying := (dying_goes hjust).trans hover
  have hreturns := hends.trans (hdying.or hover)
  intro n hasked
  have howns := owns_reachable ((r.reachable n).weaken fun _ _ _ => trivial)
  by_cases halive : (r.state n).child.alive = true
  · by_cases hkilled : (r.state n).killed = true
    · exact hdying n ⟨hkilled, halive⟩
    · have hasked : (r.state n).stop = true ∨ (r.state n).abort = true := by
        obtain hstop | habort | ⟨hgone, _⟩ := hasked
        · exact .inl hstop
        · exact .inr habort
        · simp [hgone] at halive
      exact hreturns n ⟨hasked, fun _ => Bool.eq_false_of_not_eq_true hkilled, .inl halive⟩
  have hgone := Bool.eq_false_of_not_eq_true halive
  by_cases hborn : (r.state n).child = .unborn
  · obtain hunlaunched | hremoving | hreturned := unborn_phase howns hborn
    · have hasked : (r.state n).stop = true ∨ (r.state n).abort = true := by
        obtain hstop | habort | ⟨_, hborn'⟩ := hasked
        · exact .inl hstop
        · exact .inr habort
        · exact absurd hborn hborn'
      exact hreturns n ⟨hasked, fun h => absurd h halive, .inr ⟨hborn, hunlaunched⟩⟩
    · exact hover n ⟨hgone, fun _ => hremoving⟩
    · exact ⟨n, Nat.le_refl n, hreturned⟩
  · exact hover n ⟨hgone, fun h => absurd h hborn⟩

theorem asked_returns_stopped : ∃ k, 14 ≤ k ∧ ∃ result,
    ((machine [['r']]).runs {} ((setsUp ++ stops ++ returnsStopped).take k)).phase =
      .returned result := by
  have hjust : (Run.ofFires rfl stopped_fires).Just Event.party (State.Able [['r']]) := by
    apply Run.Just.ofFires
    have howns := owns_reachable
      ((Machine.Reachable.runs (.start rfl) stopped_fires).weaken fun _ _ _ => trivial)
    have hreturned : ((machine [['r']]).runs {} (setsUp ++ stops ++ returnsStopped)).phase =
        .returned (.error .ECANCELED) := by decide +kernel
    exact returned_unable howns hreturned
  exact asked_returns hjust 14 (.inl rfl)

end MakeBelieve.ProcessUtil.RunTraced
