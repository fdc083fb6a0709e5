import MakeBelieve.ProcessUtil.Progress

namespace MakeBelieve.ProcessUtil.RunTraced

open Library

variable {root : Path} {s s' : State} {e : Event}

/-! ### What is left once the child is gone -/

def Phase.left : Phase → Nat
  | .starting => 16
  | .piping => 15
  | .preparing => 14
  | .cloning => 13
  | .launching => 12
  | .attaching => 11
  | .opening => 10
  | .adding => 9
  | .releasing | .terminating _ => 8
  | .awaitingExit _ => 7
  | .reaping _ => 6
  | .tasks => 5
  | .destroyingSession _ => 4
  | .destroyingChild _ => 3
  | .reapingChild _ => 2
  | .removing _ => 1
  | .returned _ => 0

def Supervise.left : Supervise → Nat
  | .arming => 19
  | .armingAbort => 16
  | .waiting true => 13
  | .draining => 12
  | .waiting false => 11
  | .waitFailed _ => 10
  | .disarming false _ | .threw false => 9
  | .disarming true _ | .threw true => 8
  | .reaping _ => 7
  | .lastDrain => 6
  | .judging => 5
  | .ending _ => 4
  | .done => 0

def Callback.left : Callback → Nat
  | .armed => 2
  | .running => 1
  | .absent | .spent => 0

/-- A mount that is left has the requests it was asked, and may yet go, which wakes serving. -/
def Serve.left (requests : Nat) (gone : Bool) : Serve → Nat
  | .waiting => if 0 < requests ∨ gone = true then 6 else 3
  | .processing => 5
  | .receiving => 4
  | .failing _ => 2
  | .aborting => 1
  | .done => 0

def State.left (s : State) : Nat :=
  s.phase.left + s.supervise.left + s.pipe.length + s.onStop.left + s.onAbort.left +
    s.serve.left s.requests s.gone + 2 * s.requests + if s.gone then 0 else 3

/-- Each step of `run_task` is one on its way to returning. -/
theorem phase_left (he : enabled root s e) (htask : e.ofTask = true) :
    (step root s e).phase.left < s.phase.left := by
  cases e with
  | start =>
    have hp : s.phase = .starting := he
    by_cases hstop : s.stop = true
    all_goals simp [step, hp, hstop, Phase.left]
  | pipe failed =>
    have hp : s.phase = .piping := he
    cases failed
    all_goals simp [step, State.proceed, hp, Phase.left]
  | prepare failed =>
    have hp : s.phase = .preparing := he
    cases failed
    all_goals simp [step, State.proceed, hp, Phase.left]
  | clone failed =>
    have hp : s.phase = .cloning := he
    cases failed
    all_goals simp [step, hp, Phase.left]
  | receive interrupted =>
    have hp : s.phase = .attaching := he.1
    cases interrupted with
    | true => simp [step, hp, Phase.left]
    | false =>
      dsimp only [step]
      split
      all_goals simp [hp, Phase.left]
  | openSession opened =>
    have hp : s.phase = .opening := he.1
    cases opened
    all_goals simp [step, hp, Phase.left]
  | add failed =>
    have hp : s.phase = .adding := he
    cases failed
    all_goals simp [step, hp, Phase.left]
  | launched | release | terminate | destroySession | removeRecord =>
    have hp : s.phase = _ := he
    simp [step, mountStep, hp, Phase.left]
  | exitSeen | reapTerminated | conclude | reapChild => simp [step, he.1, Phase.left]
  | throws =>
    obtain hp | hp | ⟨error, hp⟩ := he
    all_goals simp [step, hp, Phase.left]
  | destroyChild result =>
    have hp : s.phase = .destroyingChild result := he
    dsimp only [step]
    split
    all_goals simp [hp, Phase.left]
  | _ => simp [Event.ofTask] at htask

/-- What a step of `run_task` leaves to the others. -/
structure Beside (s s' : State) : Prop where
  supervise : s'.supervise = s.supervise
  serve : s'.serve = s.serve
  pipe : s'.pipe = s.pipe
  onStop : s'.onStop = s.onStop
  onAbort : s'.onAbort = s.onAbort
  requests : s'.requests = s.requests
  gone : s'.gone = s.gone
  stop : s'.stop = s.stop
  abort : s'.abort = s.abort

theorem beside_task (root : Path) (s : State) (htask : e.ofTask = true) : Beside s (step root s e) := by
  cases e with
  | pipe failed | prepare failed | clone failed | add failed =>
    cases failed
    all_goals exact ⟨rfl, rfl, rfl, rfl, rfl, rfl, rfl, rfl, rfl⟩
  | openSession opened =>
    cases opened
    all_goals exact ⟨rfl, rfl, rfl, rfl, rfl, rfl, rfl, rfl, rfl⟩
  | receive interrupted =>
    cases interrupted with
    | true => exact ⟨rfl, rfl, rfl, rfl, rfl, rfl, rfl, rfl, rfl⟩
    | false =>
      dsimp only [step]
      split
      all_goals exact ⟨rfl, rfl, rfl, rfl, rfl, rfl, rfl, rfl, rfl⟩
  | destroyChild result =>
    dsimp only [step]
    split
    all_goals exact ⟨rfl, rfl, rfl, rfl, rfl, rfl, rfl, rfl, rfl⟩
  | start | launched | release | terminate | exitSeen | reapTerminated | throws | conclude
  | destroySession | reapChild | removeRecord =>
    exact ⟨rfl, rfl, rfl, rfl, rfl, rfl, rfl, rfl, rfl⟩
  | _ => simp [Event.ofTask] at htask

theorem left_task (he : enabled root s e) (htask : e.ofTask = true) :
    (step root s e).left < s.left := by
  have hphase := phase_left he htask
  obtain ⟨hsupervise, hserve, hpipe, hstop, habort, hrequests, hgone, _, _⟩ :=
    beside_task root s htask
  simp only [State.left, hsupervise, hserve, hpipe, hstop, habort, hrequests, hgone]
  omega

theorem waiting_left (requests : Nat) (gone : Bool) : 3 ≤ Serve.waiting.left requests gone := by
  dsimp only [Serve.left]
  split
  all_goals omega

/-- A mount that goes wakes serving, once. -/
theorem mount_left (requests : Nat) (gone : Bool) (serve : Serve) :
    serve.left requests true ≤ serve.left requests gone + if gone then 0 else 3 := by
  cases gone with
  | true => exact Nat.le_refl _
  | false =>
    cases serve with
    | waiting =>
      have hwaiting := waiting_left requests false
      have hwoken : Serve.waiting.left requests true = 6 := by simp [Serve.left]
      simp only [hwoken, Bool.false_eq_true, if_false]
      omega
    | _ => exact Nat.le_add_right _ _

theorem not_live_left {callback : Callback} (h : callback.live = false) : callback.left = 0 := by
  cases callback with
  | absent | spent => rfl
  | armed | running => simp [Callback.live] at h

theorem left_supervise (r : Ready s) (o : Owns s) (hgone : s.child.alive = false)
    (hborn : s.child ≠ .unborn) (he : enabled root s e) (hsupervise : e.ofSupervise = true) :
    (step root s e).left < s.left := by
  -- Such a step leaves `run_task` and serving where they are.
  have hmoved : ∀ {s' : State}, s'.supervise.left + s'.pipe.length + s'.onStop.left +
        s'.onAbort.left < s.supervise.left + s.pipe.length + s.onStop.left + s.onAbort.left →
      s'.phase = s.phase → s'.serve = s.serve → s'.requests = s.requests → s'.gone = s.gone →
      s'.left < s.left := by
    intro s' hlt hphase hserve hrequests hmount
    simp only [State.left, hphase, hserve, hrequests, hmount]
    omega
  -- It goes on to what it does next, with the callbacks as they are.
  have hnext : ∀ {s' : State}, s'.supervise.left < s.supervise.left → s'.phase = s.phase →
      s'.pipe = s.pipe → s'.onStop = s.onStop → s'.onAbort = s.onAbort → s'.serve = s.serve →
      s'.requests = s.requests → s'.gone = s.gone → s'.left < s.left := by
    intro s' hlt hphase hpipe hstop habort hserve hrequests hmount
    apply hmoved _ hphase hserve hrequests hmount
    rw [hpipe, hstop, habort]
    omega
  have hread : ∀ count, s.pipe ≠ [] →
      (s.pipe.drop (min (count + 1) 4096)).length < s.pipe.length := by
    intro count hpipe
    have hlength := List.length_pos_of_ne_nil hpipe
    rw [List.length_drop]
    omega
  have hsilent := r.silent hgone hborn
  cases e with
  | arm =>
    have hdead := not_live_left (o.stop_dead (by rw [he.2]; rfl))
    by_cases hstop : s.stop = true
    · simp only [step, if_pos hstop]
      refine hmoved ?_ rfl rfl rfl rfl
      simp [State.signal, he.2, Supervise.left, Callback.left]
      omega
    · simp only [step, if_neg hstop]
      refine hmoved ?_ rfl rfl rfl rfl
      simp [he.2, Supervise.left, Callback.left]
      omega
  | armAbort =>
    have hdead := not_live_left (o.abort_dead (by rw [he.2]; rfl))
    by_cases habort : s.abort = true
    · simp only [step, if_pos habort]
      refine hmoved ?_ rfl rfl rfl rfl
      simp [State.signal, he.2, Supervise.left, Callback.left]
      omega
    · simp only [step, if_neg habort]
      refine hmoved ?_ rfl rfl rfl rfl
      simp [he.2, Supervise.left, Callback.left]
      omega
  | outputReady failed =>
    exact hnext (by simp [step, he.2.1, Supervise.left]) rfl rfl rfl rfl rfl rfl rfl
  | childExited isOpen =>
    refine hnext ?_ rfl rfl rfl rfl rfl rfl rfl
    cases isOpen
    all_goals
      cases hwait : s.waitError
      all_goals simp [step, hwait, he.2.1, Supervise.left]
  | waitFails isOpen error =>
    refine hnext ?_ rfl rfl rfl rfl rfl rfl rfl
    cases isOpen
    all_goals simp [step, he.2, Supervise.left]
  | read count =>
    have hlt := hread count he.2.2
    refine hmoved ?_ rfl rfl rfl rfl
    simp only [step]
    omega
  | lastRead count =>
    have hlt := hread count he.2.2
    refine hmoved ?_ rfl rfl rfl rfl
    simp only [step]
    omega
  | readEnds =>
    exact hnext (by simp [step, he.2.1, hsilent, Supervise.left]) rfl rfl rfl rfl rfl rfl rfl
  | signalFailed | judge | readFails | lastReadFails | lastReadThrows | endServing =>
    exact hnext (by simp [step, he.2, Supervise.left]) rfl rfl rfl rfl rfl rfl rfl
  | lastReadEnds =>
    exact hnext (by simp [step, he.2.1, Supervise.left]) rfl rfl rfl rfl rfl rfl rfl
  | reap isOpen =>
    refine hnext ?_ rfl rfl rfl rfl rfl rfl rfl
    cases isOpen
    all_goals simp [step, he.2.1, Supervise.left]
  | superviseThrows =>
    refine hnext ?_ rfl rfl rfl rfl rfl rfl rfl
    obtain ⟨_, ⟨isOpen, hs⟩ | hs⟩ := he
    · cases isOpen
      all_goals simp [step, hs, Supervise.left]
    · simp [step, hs, Supervise.left]
  | disarmAbort isOpen | unwindAbort =>
    refine hmoved ?_ rfl rfl rfl rfl
    simp [step, he.2.1, Supervise.left, Callback.left]
    omega
  | disarmStop isOpen | unwindStop =>
    refine hmoved ?_ rfl rfl rfl rfl
    simp [step, he.2.1, Supervise.left, Callback.left]
    omega
  | _ => simp [Event.ofSupervise] at hsupervise

/-- A step of serving, or of a callback. -/
theorem left_serve (he : enabled root s e)
    (hparty : e.party = some .serving ∨ e.party = some .aborting ∨ e.party = some .stopping) :
    (step root s e).left < s.left := by
  -- Such a step leaves `run_task` and supervision where they are.
  have hmoved : ∀ {s' : State}, s'.serve.left s'.requests s'.gone + 2 * s'.requests +
        s'.onStop.left + s'.onAbort.left < s.serve.left s.requests s.gone + 2 * s.requests +
        s.onStop.left + s.onAbort.left →
      s'.phase = s.phase → s'.supervise = s.supervise → s'.pipe = s.pipe → s'.gone = s.gone →
      s'.left < s.left := by
    intro s' hlt hphase hsupervise hpipe hmount
    simp only [State.left, hphase, hsupervise, hpipe, hmount] at hlt ⊢
    omega
  cases e with
  | deviceReady =>
    refine hmoved ?_ rfl rfl rfl rfl
    simp [step, he.2.1, Serve.left, he.2.2]
  | serveWaitFails error =>
    have hwaiting := waiting_left s.requests s.gone
    refine hmoved ?_ rfl rfl rfl rfl
    simp only [step, he.2, Serve.left] at hwaiting ⊢
    omega
  | serveStopped =>
    have hwaiting := waiting_left s.requests s.gone
    refine hmoved ?_ rfl rfl rfl rfl
    simp only [step, he.2.1, Serve.left] at hwaiting ⊢
    omega
  | serveGoesOn =>
    refine hmoved ?_ rfl rfl rfl rfl
    simp [step, he.2.1, Serve.left]
  | serveRequest r c delivered =>
    have hsome := he.2.2.1
    refine hmoved ?_ rfl rfl rfl rfl
    simp only [step, mountStep, he.2.1, Serve.left]
    omega
  | serveMore =>
    refine hmoved ?_ rfl rfl rfl rfl
    simp [step, he.2.1, Serve.left, he.2.2.1, he.2.2.2]
  | serveEnded =>
    refine hmoved ?_ rfl rfl rfl rfl
    obtain ⟨_, ⟨_, hs | hs⟩ | ⟨_, hs⟩⟩ := he
    all_goals
      simp only [step, hs, Serve.left]
      omega
  | serveFails error =>
    have hwaiting := waiting_left s.requests s.gone
    refine hmoved ?_ rfl rfl rfl rfl
    obtain ⟨_, hs | hs | hs⟩ := he
    all_goals
      simp only [step, hs, Serve.left] at hwaiting ⊢
      omega
  | requestAbort error =>
    by_cases harmed : s.onAbort = .armed
    · simp only [step, if_pos harmed]
      refine hmoved ?_ rfl rfl rfl rfl
      simp only [he.2, harmed, Serve.left, Callback.left]
      omega
    · simp only [step, if_neg harmed]
      refine hmoved ?_ rfl rfl rfl rfl
      simp [he.2, Serve.left]
  | abortKills =>
    refine hmoved ?_ rfl rfl rfl rfl
    simp only [step, State.signal, he.2, Serve.left, Callback.left]
    omega
  | stopKills =>
    have hrunning : s.onStop = .running := he
    refine hmoved ?_ rfl rfl rfl rfl
    simp [step, State.signal, hrunning, Callback.left]
  | _ => simp [Event.party] at hparty

theorem left_requestStop (s : State) :
    (step root s .requestStop).left < s.left ∨
      (step root s .requestStop).left ≤ s.left ∧ (step root s .requestStop).helper = s.helper ∧
        Event.requestStop.party = none := by
  by_cases harmed : s.onStop = .armed
  · left
    simp only [State.left, step, harmed, if_true, Callback.left]
    omega
  · right
    simp only [State.left, step, if_neg harmed]
    exact ⟨Nat.le_refl _, rfl, rfl⟩

/-- Every step that is a party's is one on the way to returning, and no other is one back, or
changes who goes on. -/
theorem left_step (r : Ready s) (o : Owns s) (hgone : s.child.alive = false)
    (hborn : s.child ≠ .unborn) (he : enabled root s e) :
    (step root s e).left < s.left ∨
      (step root s e).left ≤ s.left ∧ (step root s e).helper = s.helper ∧ e.party = none := by
  have hchild : ∀ {child : Child}, s.child = child → child.alive = true → False := by
    rintro child rfl halive
    simp [hgone] at halive
  cases e with
  | start | pipe | prepare | clone | launched | receive | openSession | add | release | terminate
  | exitSeen | reapTerminated | throws | conclude | destroySession | destroyChild | reapChild
  | removeRecord => exact .inl (left_task he rfl)
  | arm | armAbort | outputReady | childExited | waitFails | read | readEnds | readFails
  | signalFailed | disarmAbort | disarmStop | reap | lastRead | lastReadEnds | lastReadFails
  | superviseThrows | lastReadThrows | unwindAbort | unwindStop | judge | endServing =>
    exact .inl (left_supervise r o hgone hborn he rfl)
  | deviceReady | serveWaitFails | serveStopped | serveGoesOn | serveRequest | serveMore
  | serveEnded | serveFails | requestAbort => exact .inl (left_serve he (.inl rfl))
  | abortKills => exact .inl (left_serve he (.inr (.inl rfl)))
  | stopKills => exact .inl (left_serve he (.inr (.inr rfl)))
  | childFails | childHandsOff | childExits | childCloses | childAsks =>
    have hpresent : s.child = _ := he
    exact (hchild hpresent rfl).elim
  | childReleased | childAbandoned | childWrites => exact (hchild he.1 rfl).elim
  | childDies => exact (hchild rfl he.1).elim
  | requestStop => exact left_requestStop s
  | mountGoes =>
    have hmount := mount_left s.requests s.gone s.serve
    refine .inr ⟨?_, rfl, rfl⟩
    simp only [State.left, step, if_true]
    omega
  | host e => exact .inr ⟨Nat.le_refl _, rfl, rfl⟩

/-- The child is gone, or there was none to be launched. -/
def State.Over (s : State) : Prop :=
  s.child.alive = false ∧ (s.child = .unborn → ∃ result, s.phase = .removing result)

/-- No child is launched again. -/
theorem child_stays_gone (o : Owns s) (hgone : s.child.alive = false) (hborn : s.child ≠ .unborn)
    (he : enabled root s e) :
    (step root s e).child.alive = false ∧ (step root s e).child ≠ .unborn := by
  cases e with
  | clone failed =>
    have hp : s.phase = .cloning := he
    have hfits := o.fits
    rw [hp] at hfits
    exact absurd hfits hborn
  | receive interrupted =>
    cases interrupted with
    | true => exact ⟨hgone, hborn⟩
    | false =>
      dsimp only [step]
      split
      all_goals exact ⟨hgone, hborn⟩
  | openSession opened =>
    cases opened
    all_goals exact ⟨hgone, hborn⟩
  | add failed =>
    cases failed
    all_goals exact ⟨hgone, hborn⟩
  | arm | armAbort | destroyChild | requestAbort =>
    dsimp only [step]
    split
    all_goals exact ⟨hgone, hborn⟩
  | reapTerminated | reapChild | reap => exact ⟨rfl, fun h => by cases h⟩
  | childFails | childHandsOff | childExits =>
    have hpresent : s.child = _ := he
    simp [hpresent, Child.alive] at hgone
  | childReleased | childAbandoned => simp [he.1, Child.alive] at hgone
  | childDies => simp [he.1] at hgone
  | _ => exact ⟨hgone, hborn⟩

/-- Until it returns it stays so, and goes on. -/
theorem over_step (r : Ready s) (o : Owns s) (hover : s.Over) (he : enabled root s e) :
    (∃ result, (step root s e).phase = .returned result) ∨
      (step root s e).Over ∧ ((step root s e).left < s.left ∨
        (step root s e).left ≤ s.left ∧ (step root s e).helper = s.helper ∧ e.party = none) := by
  obtain ⟨hgone, hremoving⟩ := hover
  by_cases hborn : s.child = .unborn
  · obtain ⟨result, hp⟩ := hremoving hborn
    have hother : ∀ {p : Phase}, s.phase = p → p = .removing result := by
      rintro p rfl
      exact hp
    cases e with
    | removeRecord result => exact .inl ⟨result, rfl⟩
    | requestStop => exact .inr ⟨⟨hgone, fun _ => ⟨result, hp⟩⟩, left_requestStop s⟩
    | host => exact .inr ⟨⟨hgone, fun _ => ⟨result, hp⟩⟩, .inr ⟨Nat.le_refl _, rfl, rfl⟩⟩
    | start | pipe | prepare | clone | launched | add | release | terminate | destroySession
    | destroyChild =>
      have he : s.phase = _ := he
      cases hother he
    | throws =>
      obtain he | he | ⟨error, he⟩ := he
      all_goals cases hother he
    | stopKills =>
      have hdead := (o.dead (by simp [hp])).1
      have hrunning : s.onStop = .running := he
      simp [hrunning, Callback.live] at hdead
    | childFails | childHandsOff | childExits | childCloses | childAsks =>
      have hpresent : s.child = _ := he
      simp [hborn] at hpresent
    | childReleased | childAbandoned | childWrites => simp [enabled, hborn] at he
    | childDies => simp [enabled, hgone] at he
    | mountGoes => exact absurd hborn he.2
    | _ => cases hother he.1
  · have hstays := child_stays_gone o hgone hborn he
    exact .inr ⟨⟨hstays.1, fun h => absurd h hstays.2⟩, left_step r o hgone hborn he⟩

/-- As long as each part of it that can go on does, a run whose child is gone returns. -/
theorem over_returns {ok : State → Event → Prop} {r : Run (machine root) ok}
    (hjust : r.Just Event.party (State.Able root)) :
    r.LeadsTo State.Over fun s => ∃ result, s.phase = .returned result := by
  have hpending : r.LeadsTo
      (fun s => s.Over ∧ ∀ result, s.phase ≠ .returned result)
      (fun s => ∃ result, s.phase = .returned result) := by
    apply hjust.leadsTo State.left State.helper
    · intro s hs hp
      have hs := hs.weaken fun _ _ _ => trivial
      exact goes_on (Ready.of_reachable hs) hp.1.1 hp.2
    · intro s e hs he _ hp
      have hs := hs.weaken fun _ _ _ => trivial
      obtain hreturned | ⟨hover, hleft⟩ :=
        over_step (Ready.of_reachable hs) (owns_reachable hs) hp.1 he
      · exact .inl hreturned
      by_cases hreturned : ∃ result, (step root s e).phase = .returned result
      · exact .inl hreturned
      · refine .inr ⟨⟨hover, fun result h => hreturned ⟨result, h⟩⟩, hleft.imp_right ?_⟩
        rintro ⟨hle, hhelper, hparty⟩
        exact ⟨hle, hhelper, by simp [hparty]⟩
  intro n hover
  by_cases hreturned : ∃ result, (r.state n).phase = .returned result
  · exact ⟨n, Nat.le_refl n, hreturned⟩
  · exact hpending n ⟨hover, fun result h => hreturned ⟨result, h⟩⟩

/-! ### A child that was killed -/

def Child.left : Child → Nat
  | .unborn => 3
  | .setup => 2
  | .parked => 1
  | .running | .exited _ | .reaped _ => 0

/-- A child is there until it has gone, as it comes to run its command. -/
theorem child_step (o : Owns s) (halive : s.child.alive = true) (he : enabled root s e) :
    (step root s e).child.alive = false ∧ (step root s e).child ≠ .unborn ∨
      (step root s e).child.alive = true ∧ ((step root s e).child.left < s.child.left ∨
        (step root s e).child = s.child ∧ e.party ≠ some .child) := by
  cases e with
  | clone failed =>
    have hp : s.phase = .cloning := he
    have hfits := o.fits
    rw [hp] at hfits
    exact absurd hfits (own_ne_unborn (own_of_alive halive))
  | receive interrupted =>
    cases interrupted with
    | true => exact .inr ⟨halive, .inr ⟨rfl, by simp [Event.party]⟩⟩
    | false =>
      dsimp only [step]
      split
      all_goals exact .inr ⟨halive, .inr ⟨rfl, by simp [Event.party]⟩⟩
  | openSession opened =>
    cases opened
    all_goals exact .inr ⟨halive, .inr ⟨rfl, by simp [Event.party]⟩⟩
  | add failed =>
    cases failed
    all_goals exact .inr ⟨halive, .inr ⟨rfl, by simp [Event.party]⟩⟩
  | arm | armAbort | destroyChild | requestAbort =>
    dsimp only [step]
    split
    all_goals exact .inr ⟨halive, .inr ⟨rfl, by simp [Event.party]⟩⟩
  | reapTerminated | reapChild => simp [he.2] at halive
  | reap => simp [he.2.2] at halive
  | childFails | childAbandoned | childDies | childExits =>
    exact .inl ⟨rfl, fun h => by cases h⟩
  | childHandsOff sent =>
    have hchild : s.child = .setup := he
    exact .inr ⟨rfl, .inl (by simp [step, hchild, Child.left])⟩
  | childReleased => exact .inr ⟨rfl, .inl (by simp [step, he.1, Child.left])⟩
  | _ => exact .inr ⟨halive, .inr ⟨rfl, by simp [Event.party]⟩⟩

theorem killed_stays (hkilled : s.killed = true) : (step root s e).killed = true := by
  cases e with
  | clone failed | openSession failed | add failed =>
    cases failed
    all_goals exact hkilled
  | receive interrupted =>
    cases interrupted with
    | true => exact hkilled
    | false =>
      dsimp only [step]
      split
      all_goals exact hkilled
  | terminate | signalFailed | abortKills | stopKills => simp [step, State.signal, hkilled]
  | arm | armAbort | destroyChild | requestAbort =>
    dsimp only [step]
    split
    all_goals simp [State.signal, hkilled]
  | _ => exact hkilled

def State.Dying (s : State) : Prop := s.killed = true ∧ s.child.alive = true

theorem dying_goes {ok : State → Event → Prop} {r : Run (machine root) ok}
    (hjust : r.Just Event.party (State.Able root)) : r.LeadsTo State.Dying State.Over := by
  apply hjust.leadsTo (fun s => s.child.left) (fun _ => .child)
  · exact fun s _ hdying => ⟨.childDies, rfl, rfl, hdying.2, hdying.1⟩
  · intro s e hs he _ hdying
    have howns := owns_reachable (hs.weaken fun _ _ _ => trivial)
    obtain ⟨hgone, hborn⟩ | ⟨halive, hstep⟩ := child_step howns hdying.2 he
    · exact .inl ⟨hgone, fun h => absurd h hborn⟩
    · refine .inr ⟨⟨killed_stays hdying.1, halive⟩, hstep.imp_right ?_⟩
      rintro ⟨hsame, hparty⟩
      exact ⟨Nat.le_of_eq (congrArg Child.left hsame), rfl, hparty⟩

end MakeBelieve.ProcessUtil.RunTraced
