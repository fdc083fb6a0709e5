import MakeBelieve.ProcessUtil.Child

namespace MakeBelieve.ProcessUtil.RunTraced

open Library

variable {root : Path} {s s' : State} {e : Event}

/-! ### The record and the mount -/

/-- The phases in which the command may run, or is about to be let to. -/
def Phase.letsRun : Phase → Bool
  | .releasing | .tasks => true
  | _ => false

/-- The phases but those, that in which the record is added and that in which it is gone. -/
def Phase.quiet : Phase → Bool
  | .adding | .releasing | .tasks | .returned _ => false
  | _ => true

def Phase.isReturned : Phase → Bool
  | .returned _ => true
  | _ => false

/-- The command runs only once it is released, which is once it is in the tracker and its mount is
served; and its record stays until the run has returned. -/
structure Released (s : State) : Prop where
  added : s.phase.letsRun = true ∨ s.ack = true → s.addedAs = true
  record : s.addedAs = true → s.record = true ∨ ∃ result, s.phase = .returned result
  running : s.child = .running → s.ack = true
  mount : s.phase = .adding ∨ s.phase.letsRun = true ∨ s.ack = true → s.mount.isSome = true

namespace Released

/-- A step into a phase in which the command is not let run, or that is not a new one. -/
theorem moved (r : Released s) (hack : s'.ack = s.ack) (hadded : s'.addedAs = s.addedAs)
    (hrecord : s'.record = s.record) (hmount : s'.mount.isSome = s.mount.isSome)
    (hchild : s'.child = .running → s.child = .running)
    (hphase : (∃ result, s.phase = .returned result) → s'.phase = s.phase)
    (hlets : s'.phase.letsRun = true → s.phase.letsRun = true)
    (hadding : s'.phase = .adding → s.phase = .adding) : Released s' := by
  constructor
  · rw [hack, hadded]
    exact fun h => r.added (h.imp_left hlets)
  · rw [hadded, hrecord]
    intro h
    obtain hrec | hreturned := r.record h
    · exact .inl hrec
    · right
      rw [hphase hreturned]
      exact hreturned
  · rw [hack]
    exact fun h => r.running (hchild h)
  · rw [hack, hmount]
    exact fun h => r.mount (h.imp hadding (Or.imp_left hlets))

/-- A step within a phase. -/
theorem frame (r : Released s) (hphase : s'.phase = s.phase) (hack : s'.ack = s.ack)
    (hadded : s'.addedAs = s.addedAs) (hrecord : s'.record = s.record)
    (hmount : s'.mount.isSome = s.mount.isSome)
    (hchild : s'.child = .running → s.child = .running) : Released s' := by
  apply r.moved hack hadded hrecord hmount hchild
  · exact fun _ => hphase
  · rw [hphase]
    exact id
  · rw [hphase]
    exact id

/-- A step from one phase into another in which the command is not let run. -/
theorem leave (r : Released s) {p : Phase} (hp : s.phase = p) (hreturned : p.isReturned = false)
    (hquiet : s'.phase.quiet = true) (hack : s'.ack = s.ack) (hadded : s'.addedAs = s.addedAs)
    (hrecord : s'.record = s.record) (hmount : s'.mount.isSome = s.mount.isSome)
    (hchild : s'.child = .running → s.child = .running) : Released s' := by
  apply r.moved hack hadded hrecord hmount hchild
  · intro ⟨result, h⟩
    rw [← hp, h] at hreturned
    simp [Phase.isReturned] at hreturned
  · intro h
    cases hphase : s'.phase with
    | releasing | tasks => simp [hphase, Phase.quiet] at hquiet
    | _ => simp [hphase, Phase.letsRun] at h
  · intro h
    simp [h, Phase.quiet] at hquiet

theorem mountStep_isSome (s : State) (e : ProcessUtil.Event) :
    (mountStep root s e).mount.isSome = s.mount.isSome := by
  simp [mountStep]

theorem task (r : Released s) (he : enabled root s e) (htask : e.ofTask = true) :
    Released (RunTraced.step root s e) := by
  cases e with
  | start =>
    have he : s.phase = .starting := he
    dsimp only [step]
    split
    · exact r.leave he rfl rfl rfl rfl rfl rfl id
    · exact r.leave he rfl rfl rfl rfl rfl rfl id
  | pipe failed =>
    have he : s.phase = .piping := he
    cases failed with
    | none => exact r.leave he rfl rfl rfl rfl rfl rfl id
    | some error => exact r.leave he rfl rfl rfl rfl rfl rfl id
  | prepare failed =>
    have he : s.phase = .preparing := he
    cases failed with
    | none => exact r.leave he rfl rfl rfl rfl rfl rfl id
    | some error => exact r.leave he rfl rfl rfl rfl rfl rfl id
  | clone failed =>
    have he : s.phase = .cloning := he
    cases failed with
    | none =>
      exact r.leave he rfl rfl rfl rfl rfl rfl (fun h => by cases h)
    | some error => exact r.leave he rfl rfl rfl rfl rfl rfl id
  | launched =>
    have he : s.phase = .launching := he
    exact r.leave he rfl rfl rfl rfl rfl rfl id
  | receive interrupted =>
    have hp : s.phase = .attaching := he.1
    cases interrupted with
    | true => exact r.leave hp rfl rfl rfl rfl rfl rfl id
    | false =>
      dsimp only [step]
      split
      · exact r.leave hp rfl rfl rfl rfl rfl rfl id
      · exact r.leave hp rfl rfl rfl rfl rfl rfl id
      · exact r.leave hp rfl rfl rfl rfl rfl rfl id
  | openSession opened =>
    have hp : s.phase = .opening := he.1
    cases opened with
    | error error => exact r.leave hp rfl rfl rfl rfl rfl rfl id
    | ok mount =>
      constructor
      · rintro (h | h)
        · simp [step, Phase.letsRun] at h
        · exact r.added (.inr h)
      · intro h
        obtain hrec | ⟨result, hreturned⟩ := r.record h
        · exact .inl hrec
        · simp [hp] at hreturned
      · exact r.running
      · intro _
        rfl
  | add failed =>
    have he : s.phase = .adding := he
    cases failed with
    | some error => exact r.leave he rfl rfl rfl rfl rfl rfl id
    | none =>
      constructor
      · intro _
        rfl
      · intro _
        exact .inl rfl
      · exact r.running
      · intro _
        exact r.mount (.inl he)
  | release =>
    have he : s.phase = .releasing := he
    have hlets : s.phase.letsRun = true := by
      rw [he]
      rfl
    constructor
    · intro _
      exact r.added (.inl hlets)
    · intro h
      obtain hrec | ⟨result, hreturned⟩ := r.record h
      · exact .inl hrec
      · simp [he] at hreturned
    · intro _
      rfl
    · intro _
      exact r.mount (.inr (.inl hlets))
  | terminate error =>
    have he : s.phase = .terminating error := he
    exact r.leave he rfl rfl rfl rfl rfl rfl id
  | exitSeen error failed =>
    have he : s.phase = .awaitingExit error := he.1
    exact r.leave he rfl rfl rfl rfl rfl rfl id
  | reapTerminated error =>
    have he : s.phase = .reaping error := he.1
    exact r.leave he rfl rfl rfl rfl rfl rfl (fun h => by cases h)
  | throws =>
    obtain he | he | ⟨error, he⟩ := he
    all_goals exact r.leave he rfl rfl rfl rfl rfl rfl id
  | conclude =>
    have he : s.phase = .tasks := he.1
    exact r.leave he rfl rfl rfl rfl rfl rfl id
  | destroySession result =>
    have he : s.phase = .destroyingSession result := he
    exact r.leave he rfl rfl rfl rfl rfl (mountStep_isSome s _) id
  | destroyChild result =>
    have he : s.phase = .destroyingChild result := he
    dsimp only [step]
    split
    · exact r.leave he rfl rfl rfl rfl rfl rfl id
    · exact r.leave he rfl rfl rfl rfl rfl rfl id
  | reapChild result =>
    have he : s.phase = .reapingChild result := he.1
    exact r.leave he rfl rfl rfl rfl rfl rfl (fun h => by cases h)
  | removeRecord result =>
    constructor
    · rintro (h | h)
      · simp [step, Phase.letsRun] at h
      · exact r.added (.inr h)
    · intro _
      exact .inr ⟨result, rfl⟩
    · exact r.running
    · rintro (h | h | h)
      · simp [step] at h
      · simp [step, Phase.letsRun] at h
      · exact r.mount (.inr (.inr h))
  | _ => simp [Event.ofTask] at htask

theorem step (r : Released s) (he : enabled root s e) : Released (RunTraced.step root s e) := by
  cases e with
  | start | pipe | prepare | clone | launched | receive | openSession | add | release | terminate
  | exitSeen | reapTerminated | throws | conclude | destroySession | destroyChild | reapChild
  | removeRecord => exact r.task he rfl
  | outputReady | waitFails | read | readEnds | readFails | signalFailed | disarmAbort
  | disarmStop | lastRead | lastReadEnds | lastReadFails | superviseThrows | lastReadThrows
  | unwindAbort | unwindStop | judge | endServing | deviceReady | serveWaitFails | serveStopped
  | serveGoesOn | serveMore | serveEnded | serveFails | abortKills | requestStop | stopKills
  | mountGoes | childWrites | childCloses | childAsks | childExited =>
    exact r.frame rfl rfl rfl rfl rfl id
  | arm | armAbort | requestAbort =>
    dsimp only [RunTraced.step]
    split
    · exact r.frame rfl rfl rfl rfl rfl id
    · exact r.frame rfl rfl rfl rfl rfl id
  | reap | childFails | childHandsOff | childAbandoned | childDies | childExits =>
    exact r.frame rfl rfl rfl rfl rfl (fun h => by cases h)
  | serveRequest | host => exact r.frame rfl rfl rfl rfl (mountStep_isSome s _) id
  | childReleased =>
    constructor
    · exact r.added
    · exact r.record
    · exact fun _ => he.2
    · exact r.mount

theorem of_reachable (h : (machine root).Reachable (fun _ _ => True) s) : Released s := by
  apply h.invariant
  · rintro s rfl
    constructor
    · intro h
      simp [Phase.letsRun] at h
    · intro h
      simp at h
    · intro h
      cases h
    · intro h
      simp [Phase.letsRun] at h
  · exact fun s e r he _ => r.step he

end Released

/-! ### What is collected -/

def Result.isOutput : Result → Bool
  | .output _ _ _ => true
  | _ => false

/-- The result that is being returned, once there is one. -/
def Phase.result : Phase → Option Result
  | .destroyingSession result | .destroyingChild result | .reapingChild result
  | .removing result | .returned result => some result
  | _ => none

/-- The pipe's end has been reached, or reading it has failed. -/
def Supervise.outputClosed : Supervise → Bool
  | .waiting false | .waitFailed false | .disarming _ false | .reaping false => true
  | _ => false

/-- A supervision without an error has the status its child ended with and all that it wrote. -/
def Complete (s : State) (supervision : Supervision) : Prop :=
  supervision.error = none → s.child = .reaped supervision.exitStatus ∧
    (s.lossy = false → supervision.output = s.written)

def Ended (s : State) : Supervise → Prop
  | .lastDrain => ∃ status, s.child = .reaped status
  | .judging => (∃ status, s.child = .reaped status) ∧ (s.lossy = false → s.pipe = [])
  | .ending supervision => Complete s supervision
  | .done => ∀ supervision, s.supervision = some supervision → Complete s supervision
  | _ => True

/-- An output is reported with the status the child ended with, all that it wrote, unless reading
that failed, and the inputs of its mount, which did not fail to be served. -/
def Reported (s : State) : Result → Prop
  | .output standardOutput inputs exitStatus =>
    s.child = .reaped exitStatus ∧ (s.lossy = false → standardOutput = s.written) ∧
      s.failure = none ∧ ∃ mount, s.mount = some mount ∧ mount.1.tracer.takeInputs = .ok inputs
  | _ => True

structure Collected (s : State) : Prop where
  split : s.written = s.output ++ s.pipe
  fresh : s.child = .unborn → s.supervise.outputClosed = false
  closed : s.supervise.outputClosed = true → s.lossy = false → s.pipe = [] ∧ s.writers = false
  ended : Ended s s.supervise
  reported : ∀ result, s.phase.result = some result → Reported s result

namespace Collected

/-- What has ended has its child reaped, so a step that needs it there keeps what has ended. -/
theorem ended_of_own {p : Supervise} (hown : ∀ status, s.child ≠ .reaped status)
    (hsupervision : s'.supervision = s.supervision) (h : Ended s p) : Ended s' p := by
  have hvoid : ∀ supervision, Complete s supervision → Complete s' supervision :=
    fun supervision hcomplete herror => absurd (hcomplete herror).1 (hown _)
  cases p with
  | lastDrain =>
    obtain ⟨status, hchild⟩ := h
    exact absurd hchild (hown status)
  | judging =>
    obtain ⟨⟨status, hchild⟩, _⟩ := h
    exact absurd hchild (hown status)
  | ending supervision => exact hvoid supervision h
  | done =>
    intro supervision hs
    rw [hsupervision] at hs
    exact hvoid supervision (h supervision hs)
  | _ => trivial

theorem reported_of_own {result : Result} (hown : ∀ status, s.child ≠ .reaped status)
    (h : Reported s result) : Reported s' result := by
  cases result with
  | output standardOutput inputs exitStatus => exact absurd h.1 (hown exitStatus)
  | error | thrown => trivial

theorem ended_frame {p : Supervise} (hchild : s'.child = s.child)
    (hsupervision : s'.supervision = s.supervision) (hlossy : s'.lossy = s.lossy)
    (hwritten : s'.written = s.written) (hpipe : s'.pipe = s.pipe) (h : Ended s p) :
    Ended s' p := by
  have hcomplete : ∀ supervision, Complete s supervision → Complete s' supervision := by
    intro supervision hcomplete
    unfold Complete
    rw [hchild, hlossy, hwritten]
    exact hcomplete
  cases p with
  | lastDrain =>
    unfold Ended
    rw [hchild]
    exact h
  | judging =>
    unfold Ended
    rw [hchild, hlossy, hpipe]
    exact h
  | ending supervision => exact hcomplete supervision h
  | done =>
    intro supervision hs
    rw [hsupervision] at hs
    exact hcomplete supervision (h supervision hs)
  | _ => trivial

theorem reported_frame {result : Result} (hchild : s'.child = s.child)
    (hfailure : s'.failure = s.failure)
    (hlossy : s'.lossy = s.lossy) (hwritten : s'.written = s.written)
    (hmount : ∀ mount, s.mount = some mount → ∃ mount', s'.mount = some mount' ∧
      mount'.1.tracer = mount.1.tracer)
    (h : Reported s result) : Reported s' result := by
  cases result with
  | output standardOutput inputs exitStatus =>
    obtain ⟨hreaped, houtput, hserved, mount, hsome, hinputs⟩ := h
    obtain ⟨mount', hsome', htracer⟩ := hmount mount hsome
    refine ⟨by rw [hchild, hreaped], ?_, by rw [hfailure, hserved], mount', hsome',
      by rw [htracer, hinputs]⟩
    rw [hlossy, hwritten]
    exact houtput
  | error | thrown => trivial

/-- A step that leaves what is collected, and reports no new output. -/
theorem frame (c : Collected s) (hsupervise : s'.supervise = s.supervise)
    (hsupervision : s'.supervision = s.supervision) (hfailure : s'.failure = s.failure)
    (hchild : s'.child = s.child)
    (hlossy : s'.lossy = s.lossy) (hwritten : s'.written = s.written)
    (houtput : s'.output = s.output) (hpipe : s'.pipe = s.pipe) (hwriters : s'.writers = s.writers)
    (hmount : ∀ mount, s.mount = some mount → ∃ mount', s'.mount = some mount' ∧
      mount'.1.tracer = mount.1.tracer)
    (hresult : ∀ result, s'.phase.result = some result →
      s.phase.result = some result ∨ result.isOutput = false) : Collected s' := by
  constructor
  · rw [hwritten, houtput, hpipe]
    exact c.split
  · rw [hchild, hsupervise]
    exact c.fresh
  · rw [hsupervise, hlossy, hpipe, hwriters]
    exact c.closed
  · rw [hsupervise]
    exact ended_frame hchild hsupervision hlossy hwritten hpipe c.ended
  · intro result h
    obtain hold | hnew := hresult result h
    · exact reported_frame hchild hfailure hlossy hwritten hmount (c.reported result hold)
    · cases result with
      | output => simp [Result.isOutput] at hnew
      | error | thrown => trivial

/-- A step of the child, which is there, or of what reaps it. -/
theorem child (c : Collected s) (hown : ∀ status, s.child ≠ .reaped status)
    (hsupervise : s'.supervise = s.supervise) (hsupervision : s'.supervision = s.supervision)
    (hsplit : s'.written = s'.output ++ s'.pipe) (hborn : s'.child ≠ .unborn)
    (hclosed : s.writers = false → s.pipe = [] → s'.pipe = [] ∧ s'.writers = false)
    (hlossy : s'.lossy = s.lossy)
    (hresult : ∀ result, s'.phase.result = some result →
      s.phase.result = some result ∨ result.isOutput = false) : Collected s' := by
  constructor
  · exact hsplit
  · exact fun h => absurd h hborn
  · rw [hsupervise, hlossy]
    intro h hok
    obtain ⟨hpipe, hwriters⟩ := c.closed h hok
    exact hclosed hwriters hpipe
  · rw [hsupervise]
    exact ended_of_own hown hsupervision c.ended
  · intro result h
    obtain hold | hnew := hresult result h
    · exact reported_of_own hown (c.reported result hold)
    · cases result with
      | output => simp [Result.isOutput] at hnew
      | error | thrown => trivial

theorem not_reaped {child : Child} (h : child.own = true) (status : Nat) :
    child ≠ .reaped status := by
  rintro rfl
  simp [Child.own] at h

/-- A step of `run_traced` that only moves it on, to no output. -/
theorem moved (c : Collected s) (hsupervise : s'.supervise = s.supervise)
    (hsupervision : s'.supervision = s.supervision) (hfailure : s'.failure = s.failure)
    (hchild : s'.child = s.child)
    (hlossy : s'.lossy = s.lossy) (hwritten : s'.written = s.written)
    (houtput : s'.output = s.output) (hpipe : s'.pipe = s.pipe) (hwriters : s'.writers = s.writers)
    (hmount : s'.mount = s.mount)
    (hresult : ∀ result, s'.phase.result = some result → result.isOutput = false) :
    Collected s' := by
  apply c.frame hsupervise hsupervision hfailure hchild hlossy hwritten houtput hpipe hwriters
  · intro mount h
    exact ⟨mount, hmount.trans h, rfl⟩
  · exact fun result h => .inr (hresult result h)

/-- The two tasks have ended, and what they leave is reported. -/
theorem conclude (c : Collected s) (hsupervise : s.supervise = .done) :
    Reported { s with phase := .destroyingSession s.conclusion } s.conclusion := by
  have hended := c.ended
  rw [hsupervise] at hended
  unfold State.conclusion
  split
  · trivial
  · trivial
  · next supervision hfailure hsupervision =>
    split
    · trivial
    · next herror =>
      split
      · trivial
      · split
        · trivial
        · next mount hmount =>
          split
          · trivial
          · next inputs hinputs =>
            obtain ⟨hchild, houtput⟩ := hended supervision hsupervision herror
            exact ⟨hchild, houtput, hfailure, mount, hmount, hinputs⟩

theorem tracer_of_host {mount : ProcessUtil.State × Notes} {e : ProcessUtil.Event}
    (h : ofHost e = true ∨ e = .destroy) :
    ((tracing root).step mount e).1.tracer = mount.1.tracer := by
  cases e with
  | request => simp [ofHost] at h
  | world | opens | closes | destroy => rfl

theorem task (c : Collected s) (o : Owns s) (he : enabled root s e) (htask : e.ofTask = true) :
    Collected (RunTraced.step root s e) := by
  have hfits := o.fits
  cases e with
  | start =>
    dsimp only [step]
    split
    · exact c.moved rfl rfl rfl rfl rfl rfl rfl rfl rfl rfl (fun _ h => by cases h; rfl)
    · exact c.moved rfl rfl rfl rfl rfl rfl rfl rfl rfl rfl (fun _ h => by cases h)
  | pipe failed =>
    cases failed with
    | none => exact c.moved rfl rfl rfl rfl rfl rfl rfl rfl rfl rfl (fun _ h => by cases h)
    | some error =>
      exact c.moved rfl rfl rfl rfl rfl rfl rfl rfl rfl rfl (fun _ h => by cases h; rfl)
  | prepare failed =>
    cases failed with
    | none => exact c.moved rfl rfl rfl rfl rfl rfl rfl rfl rfl rfl (fun _ h => by cases h)
    | some error =>
      exact c.moved rfl rfl rfl rfl rfl rfl rfl rfl rfl rfl (fun _ h => by cases h; rfl)
  | clone failed =>
    have hp : s.phase = .cloning := he
    cases failed with
    | some error =>
      exact c.moved rfl rfl rfl rfl rfl rfl rfl rfl rfl rfl (fun _ h => by cases h; rfl)
    | none =>
      rw [hp] at hfits
      have hchild : s.child = .unborn := hfits
      have hfresh : s.supervise.outputClosed = false := c.fresh hchild
      constructor
      · exact c.split
      · exact fun _ => hfresh
      · intro h
        simp [step, hfresh] at h
      · exact ended_of_own (s := s) (by simp [hchild]) rfl c.ended
      · intro result h
        simp [step, Phase.result] at h
  | launched | release =>
    exact c.moved rfl rfl rfl rfl rfl rfl rfl rfl rfl rfl (fun _ h => by cases h)
  | receive interrupted =>
    cases interrupted with
    | true => exact c.moved rfl rfl rfl rfl rfl rfl rfl rfl rfl rfl (fun _ h => by cases h)
    | false =>
      dsimp only [step]
      split
      all_goals exact c.moved rfl rfl rfl rfl rfl rfl rfl rfl rfl rfl (fun _ h => by cases h)
  | openSession opened =>
    cases opened with
    | error error => exact c.moved rfl rfl rfl rfl rfl rfl rfl rfl rfl rfl (fun _ h => by cases h)
    | ok mount =>
      refine ⟨c.split, c.fresh, c.closed, c.ended, ?_⟩
      intro result h
      simp [step, Phase.result] at h
  | add failed =>
    cases failed with
    | some error => exact c.moved rfl rfl rfl rfl rfl rfl rfl rfl rfl rfl (fun _ h => by cases h)
    | none => exact c.moved rfl rfl rfl rfl rfl rfl rfl rfl rfl rfl (fun _ h => by cases h)
  | terminate | exitSeen =>
    exact c.moved rfl rfl rfl rfl rfl rfl rfl rfl rfl rfl (fun _ h => by cases h)
  | reapTerminated error =>
    rw [he.1] at hfits
    exact c.child (not_reaped hfits) rfl rfl c.split (fun h => by cases h)
      (fun hw hp => ⟨hp, hw⟩) rfl
      (fun _ h => .inr (by cases h; rfl))
  | throws => exact c.moved rfl rfl rfl rfl rfl rfl rfl rfl rfl rfl (fun _ h => by cases h; rfl)
  | conclude =>
    refine ⟨c.split, c.fresh, c.closed, c.ended, ?_⟩
    intro result h
    obtain rfl := Option.some.inj h
    exact c.conclude he.2.1
  | destroySession result =>
    have hp : s.phase = .destroyingSession result := he
    refine c.frame rfl rfl rfl rfl rfl rfl rfl rfl rfl ?_ ?_
    · intro mount hmount
      refine ⟨(tracing root).step mount .destroy, ?_, tracer_of_host (.inr rfl)⟩
      simp [step, mountStep, hmount]
    · intro other h
      rw [hp]
      exact .inl h
  | destroyChild result =>
    have hp : s.phase = .destroyingChild result := he
    dsimp only [step]
    split
    all_goals
      refine c.frame rfl rfl rfl rfl rfl rfl rfl rfl rfl (fun mount h => ⟨mount, h, rfl⟩) ?_
      intro other h
      rw [hp]
      exact .inl h
  | reapChild result =>
    have hp : s.phase = .reapingChild result := he.1
    rw [hp] at hfits
    refine c.child (not_reaped hfits) rfl rfl c.split (fun h => by cases h)
      (fun hw hp => ⟨hp, hw⟩) rfl ?_
    intro other h
    rw [hp]
    exact .inl h
  | removeRecord result =>
    have hp : s.phase = .removing result := he
    refine c.frame rfl rfl rfl rfl rfl rfl rfl rfl rfl (fun mount h => ⟨mount, h, rfl⟩) ?_
    intro other h
    rw [hp]
    exact .inl h
  | _ => simp [Event.ofTask] at htask

/-- A step of the supervision: it reports nothing yet. -/
theorem supervised (hphase : s'.phase = .tasks) (hsplit : s'.written = s'.output ++ s'.pipe)
    (hborn : s'.child ≠ .unborn)
    (hclosed : s'.supervise.outputClosed = true → s'.lossy = false →
      s'.pipe = [] ∧ s'.writers = false)
    (hended : Ended s' s'.supervise) : Collected s' := by
  refine ⟨hsplit, fun h => absurd h hborn, hclosed, hended, ?_⟩
  intro result h
  simp [hphase, Phase.result] at h

theorem supervise (c : Collected s) (o : Owns s) (he : enabled root s e)
    (hsupervise : e.ofSupervise = true) : Collected (RunTraced.step root s e) := by
  have hp : s.phase = .tasks := by
    cases e with
    | arm | armAbort | outputReady | childExited | waitFails | read | readEnds | readFails
    | signalFailed | disarmAbort | disarmStop | reap | lastRead | lastReadEnds | lastReadFails
    | superviseThrows | lastReadThrows | unwindAbort | unwindStop | judge | endServing => exact he.1
    | _ => simp [Event.ofSupervise] at hsupervise
  have hborn : s.child ≠ .unborn := by
    have hfits := o.fits
    rw [hp] at hfits
    exact hfits.1
  have hclosed := c.closed
  have hended := c.ended
  have hread : ∀ count, s.written =
      s.output ++ s.pipe.take (min (count + 1) 4096) ++ s.pipe.drop (min (count + 1) 4096) := by
    intro count
    rw [List.append_assoc, List.take_append_drop]
    exact c.split
  cases e with
  | arm =>
    dsimp only [step]
    split
    all_goals exact supervised hp c.split hborn (fun h => by cases h) trivial
  | armAbort =>
    dsimp only [step]
    split
    all_goals exact supervised hp c.split hborn (fun h => by cases h) trivial
  | outputReady | superviseThrows | unwindAbort =>
    exact supervised hp c.split hborn (fun h => by cases h) trivial
  | childExited isOpen =>
    rw [he.2.1] at hclosed
    dsimp only [step]
    cases isOpen with
    | true =>
      split
      all_goals exact supervised hp c.split hborn (fun h => by cases h) trivial
    | false =>
      split
      all_goals exact supervised hp c.split hborn (fun _ => hclosed rfl) trivial
  | waitFails isOpen error =>
    rw [he.2] at hclosed
    cases isOpen with
    | true => exact supervised hp c.split hborn (fun h => by cases h) trivial
    | false => exact supervised hp c.split hborn (fun _ => hclosed rfl) trivial
  | read count =>
    refine supervised hp (hread count) hborn ?_ ?_
    · intro h
      simp [step, he.2.1, Supervise.outputClosed] at h
    · dsimp only [step]
      rw [he.2.1]
      trivial
  | readEnds =>
    refine supervised hp c.split hborn ?_ trivial
    intro h _
    cases hwriters : s.writers with
    | true => simp [step, hwriters, Supervise.outputClosed] at h
    | false => exact ⟨he.2.2, hwriters⟩
  | readFails =>
    exact supervised hp c.split hborn (fun _ h => by cases h) trivial
  | signalFailed isOpen =>
    rw [he.2] at hclosed
    cases isOpen with
    | true => exact supervised hp c.split hborn (fun h => by cases h) trivial
    | false => exact supervised hp c.split hborn (fun _ => hclosed rfl) trivial
  | disarmAbort isOpen =>
    rw [he.2.1] at hclosed
    cases isOpen with
    | true => exact supervised hp c.split hborn (fun h => by cases h) trivial
    | false => exact supervised hp c.split hborn (fun _ => hclosed rfl) trivial
  | disarmStop isOpen =>
    rw [he.2.1] at hclosed
    cases isOpen with
    | true => exact supervised hp c.split hborn (fun h => by cases h) trivial
    | false => exact supervised hp c.split hborn (fun _ => hclosed rfl) trivial
  | reap isOpen =>
    rw [he.2.1] at hclosed
    cases isOpen with
    | true => exact supervised hp c.split (fun h => by cases h) (fun h => by cases h) ⟨_, rfl⟩
    | false =>
      exact supervised hp c.split (fun h => by cases h) (fun h => by cases h)
        ⟨⟨_, rfl⟩, fun h => (hclosed rfl h).1⟩
  | lastRead count =>
    rw [he.2.1] at hended
    refine supervised hp (hread count) hborn ?_ ?_
    · intro h
      simp [step, he.2.1, Supervise.outputClosed] at h
    · dsimp only [step]
      rw [he.2.1]
      exact hended
  | lastReadEnds =>
    rw [he.2.1] at hended
    exact supervised hp c.split hborn (fun h => by cases h) ⟨hended, fun _ => he.2.2⟩
  | lastReadFails =>
    rw [he.2] at hended
    exact supervised hp c.split hborn (fun h => by cases h) ⟨hended, fun h => by cases h⟩
  | lastReadThrows | unwindStop =>
    exact supervised hp c.split hborn (fun h => by cases h) (fun h => by cases h)
  | judge =>
    rw [he.2] at hended
    obtain ⟨⟨status, hchild⟩, hpipe⟩ := hended
    refine supervised hp c.split hborn (fun h => by cases h) ?_
    intro _
    dsimp only [step]
    rw [hchild]
    refine ⟨rfl, ?_⟩
    intro hlossy
    have hsplit := c.split
    rw [hpipe hlossy, List.append_nil] at hsplit
    exact hsplit.symm
  | endServing supervision =>
    rw [he.2] at hended
    refine supervised hp c.split hborn (fun h => by cases h) ?_
    intro other hother
    obtain rfl := Option.some.inj hother
    exact hended
  | _ => simp [Event.ofSupervise] at hsupervise

theorem step (c : Collected s) (o : Owns s) (he : enabled root s e) :
    Collected (RunTraced.step root s e) := by
  cases e with
  | start | pipe | prepare | clone | launched | receive | openSession | add | release | terminate
  | exitSeen | reapTerminated | throws | conclude | destroySession | destroyChild | reapChild
  | removeRecord => exact c.task o he rfl
  | arm | armAbort | outputReady | childExited | waitFails | read | readEnds | readFails
  | signalFailed | disarmAbort | disarmStop | reap | lastRead | lastReadEnds | lastReadFails
  | superviseThrows | lastReadThrows | unwindAbort | unwindStop | judge | endServing =>
    exact c.supervise o he rfl
  | deviceReady | serveWaitFails | serveStopped | serveGoesOn | serveMore | serveEnded | serveFails
  | abortKills | requestStop | stopKills | childAsks | mountGoes =>
    exact c.frame rfl rfl rfl rfl rfl rfl rfl rfl rfl (fun mount h => ⟨mount, h, rfl⟩)
      fun _ h => .inl h
  | requestAbort =>
    dsimp only [RunTraced.step]
    split
    all_goals
      refine ⟨c.split, c.fresh, c.closed, ended_frame rfl rfl rfl rfl rfl c.ended, ?_⟩
      intro result h
      simp [he.1, Phase.result] at h
  | serveRequest r a delivered =>
    refine ⟨c.split, c.fresh, c.closed, ended_frame rfl rfl rfl rfl rfl c.ended, ?_⟩
    intro result h
    have hp : s.phase = .tasks := he.1
    simp [RunTraced.step, mountStep, hp, Phase.result] at h
  | host e =>
    refine c.frame rfl rfl rfl rfl rfl rfl rfl rfl rfl ?_ fun _ h => .inl h
    intro mount hmount
    refine ⟨(tracing root).step mount e, ?_, tracer_of_host (.inl he.1)⟩
    simp [RunTraced.step, mountStep, hmount]
  | childFails | childHandsOff =>
    have hchild : s.child = .setup := he
    exact c.child (by simp [hchild]) rfl rfl c.split (fun h => by cases h)
      (fun hw hp => ⟨hp, by first | rfl | exact hw⟩) rfl fun _ h => .inl h
  | childReleased | childAbandoned =>
    have hchild : s.child = .parked := he.1
    exact c.child (by simp [hchild]) rfl rfl c.split (fun h => by cases h)
      (fun hw hp => ⟨hp, by first | rfl | exact hw⟩) rfl fun _ h => .inl h
  | childDies =>
    exact c.child (not_reaped (own_of_alive he.1)) rfl rfl c.split (fun h => by cases h)
      (fun _ hp => ⟨hp, rfl⟩) rfl fun _ h => .inl h
  | childExits status =>
    have hchild : s.child = .running := he
    exact c.child (by simp [hchild]) rfl rfl c.split (fun h => by cases h)
      (fun _ hp => ⟨hp, rfl⟩) rfl fun _ h => .inl h
  | childWrites bytes =>
    obtain ⟨hchild, hwriters⟩ := he
    refine c.child (by simp [hchild]) rfl rfl ?_ (by simp [RunTraced.step, hchild]) ?_ rfl
      fun _ h => .inl h
    · dsimp only [RunTraced.step]
      rw [c.split, List.append_assoc]
    · intro hw
      simp [hwriters] at hw
  | childCloses =>
    have hchild : s.child = .running := he
    exact c.child (by simp [hchild]) rfl rfl c.split (by simp [RunTraced.step, hchild])
      (fun _ hp => ⟨hp, rfl⟩) rfl fun _ h => .inl h

theorem of_reachable (h : (machine root).Reachable (fun _ _ => True) s) : Collected s := by
  apply h.invariant_under (fun s hs => owns_reachable hs)
  · rintro s rfl
    refine ⟨rfl, fun _ => rfl, (fun h => by cases h), trivial, ?_⟩
    intro result h
    cases h
  · exact fun s e o c he _ => c.step o he

end Collected

/-! ### Why the child is killed -/

/-- The supervision is not of a command that ran to its end. -/
def Supervision.blamed (supervision : Supervision) : Prop :=
  supervision.error.isSome = true ∨ supervision.canceled = true

def BlamedBy (s : State) : Supervise → Prop
  | .ending supervision => supervision.blamed
  | .done => ∀ supervision, s.supervision = some supervision → supervision.blamed
  | _ => s.stop = true ∨ s.waitError.isSome = true

/-- Something that keeps the run from reporting an output. -/
def Blamed (s : State) : Phase → Prop
  | .awaitingExit _ | .reaping _ => True
  | .tasks => s.failure.isSome = true ∨ BlamedBy s s.supervise
  | .destroyingSession result | .destroyingChild result | .reapingChild result
  | .removing result | .returned result => result.isOutput = false
  | _ => False

/-- Each kill has its reason, which stays. -/
structure Blame (s : State) : Prop where
  stop : s.onStop = .running → s.stop = true
  abort : s.abort = true ∨ s.onAbort = .running → s.failure.isSome = true
  waitFailed : ∀ isOpen, s.supervise = .waitFailed isOpen → s.waitError.isSome = true
  killed : s.killed = true → Blamed s s.phase

namespace Blame

/-- Steps of `run_traced` on its own, outside the two tasks, whose callbacks are not live. -/
theorem moved (b : Blame s) (o : Owns s) (hlive : s.phase ≠ .tasks)
    (hstop : s'.onStop = s.onStop) (hsabort : s'.onAbort = s.onAbort)
    (habort : s'.abort = s.abort) (hfailure : s'.failure = s.failure)
    (hwait : s'.waitError = s.waitError) (hsupervise : s'.supervise = s.supervise)
    (hkilled : s'.killed = true → Blamed s' s'.phase) : Blame s' := by
  have hdead := o.dead hlive
  constructor
  · intro h
    rw [hstop] at h
    simp [h, Callback.live] at hdead
  · rw [habort, hsabort, hfailure]
    exact b.abort
  · rw [hsupervise, hwait]
    exact b.waitFailed
  · exact hkilled

theorem task (b : Blame s) (o : Owns s) (c : Collected s) (he : enabled root s e)
    (htask : e.ofTask = true) : Blame (RunTraced.step root s e) := by
  have hkilled := b.killed
  -- A kill in a phase that no kill comes before.
  have hnone : ∀ {p : Phase} {P : Prop}, s.phase = p → Blamed s p = False → s.killed = true →
      P := by
    intro p P hp hfalse h
    have hblamed := hkilled h
    rw [hp, hfalse] at hblamed
    exact hblamed.elim
  cases e with
  | start | pipe | prepare | launched =>
    have he : s.phase = _ := he
    exact b.moved o (by rw [he]; simp) rfl rfl rfl rfl rfl rfl (hnone he rfl)
  | clone failed =>
    have hp : s.phase = .cloning := he
    cases failed with
    | none => exact b.moved o (by rw [hp]; simp) rfl rfl rfl rfl rfl rfl (hnone hp rfl)
    | some error => exact b.moved o (by rw [hp]; simp) rfl rfl rfl rfl rfl rfl (hnone hp rfl)
  | receive interrupted =>
    have hp : s.phase = .attaching := he.1
    cases interrupted with
    | true => exact b.moved o (by rw [hp]; simp) rfl rfl rfl rfl rfl rfl (hnone hp rfl)
    | false =>
      dsimp only [step]
      split
      all_goals exact b.moved o (by rw [hp]; simp) rfl rfl rfl rfl rfl rfl (hnone hp rfl)
  | openSession opened =>
    have hp : s.phase = .opening := he.1
    cases opened with
    | error error => exact b.moved o (by rw [hp]; simp) rfl rfl rfl rfl rfl rfl (hnone hp rfl)
    | ok mount => exact b.moved o (by rw [hp]; simp) rfl rfl rfl rfl rfl rfl (hnone hp rfl)
  | add failed =>
    have hp : s.phase = .adding := he
    cases failed with
    | some error => exact b.moved o (by rw [hp]; simp) rfl rfl rfl rfl rfl rfl (hnone hp rfl)
    | none => exact b.moved o (by rw [hp]; simp) rfl rfl rfl rfl rfl rfl (hnone hp rfl)
  | release =>
    have hp : s.phase = .releasing := he
    exact b.moved o (by rw [hp]; simp) rfl rfl rfl rfl rfl rfl (hnone hp rfl)
  | terminate error =>
    have hp : s.phase = .terminating error := he
    exact b.moved o (by rw [hp]; simp) rfl rfl rfl rfl rfl rfl (fun _ => trivial)
  | exitSeen error failed =>
    have hp : s.phase = .awaitingExit error := he.1
    exact b.moved o (by rw [hp]; simp) rfl rfl rfl rfl rfl rfl (fun _ => trivial)
  | reapTerminated error =>
    have hp : s.phase = .reaping error := he.1
    exact b.moved o (by rw [hp]; simp) rfl rfl rfl rfl rfl rfl (fun _ => rfl)
  | throws =>
    have hp : s.phase ≠ .tasks := by
      obtain he | he | ⟨error, he⟩ := he
      all_goals simp [he]
    exact b.moved o hp rfl rfl rfl rfl rfl rfl (fun _ => rfl)
  | conclude =>
    obtain ⟨hp, hsupervise, _⟩ := he
    refine ⟨b.stop, b.abort, b.waitFailed, ?_⟩
    intro h
    have hblamed := hkilled h
    rw [hp] at hblamed
    change s.conclusion.isOutput = false
    unfold State.conclusion
    obtain hfailure | hby := hblamed
    · obtain ⟨error, hfailure⟩ := Option.isSome_iff_exists.mp hfailure
      rw [hfailure]
      rfl
    · rw [hsupervise] at hby
      split
      · rfl
      · rfl
      · next supervision _ hsupervision =>
        split
        · rfl
        · next herror =>
          obtain hsome | hcanceled := hby supervision hsupervision
          · simp [herror] at hsome
          · rw [if_pos hcanceled]
            rfl
  | destroySession result =>
    have hp : s.phase = .destroyingSession result := he
    refine b.moved o (by rw [hp]; simp) rfl rfl rfl rfl rfl rfl ?_
    intro h
    have hblamed := hkilled h
    rw [hp] at hblamed
    exact hblamed
  | destroyChild result =>
    have hp : s.phase = .destroyingChild result := he
    dsimp only [step]
    split
    · refine b.moved o (by rw [hp]; simp) rfl rfl rfl rfl rfl rfl ?_
      intro h
      have hblamed := hkilled h
      rw [hp] at hblamed
      exact hblamed
    · next hreaped =>
      refine b.moved o (by rw [hp]; simp) rfl rfl rfl rfl rfl rfl ?_
      intro _
      cases result with
      | output standardOutput inputs exitStatus =>
        have hreported := c.reported _ (by rw [hp]; rfl)
        exact absurd hreported.1 (hreaped exitStatus)
      | error | thrown => rfl
  | reapChild result =>
    have hp : s.phase = .reapingChild result := he.1
    refine b.moved o (by rw [hp]; simp) rfl rfl rfl rfl rfl rfl ?_
    intro h
    have hblamed := hkilled h
    rw [hp] at hblamed
    exact hblamed
  | removeRecord result =>
    have hp : s.phase = .removing result := he
    refine b.moved o (by rw [hp]; simp) rfl rfl rfl rfl rfl rfl ?_
    intro h
    have hblamed := hkilled h
    rw [hp] at hblamed
    exact hblamed
  | _ => simp [Event.ofTask] at htask

/-- A step that leaves where the two tasks are. -/
theorem frame (b : Blame s) (hphase : s'.phase = s.phase)
    (hstop : s'.onStop = .running → s'.stop = true) (hstopped : s.stop = true → s'.stop = true)
    (hsabort : s'.onAbort = s.onAbort) (habort : s'.abort = s.abort)
    (hfailure : s'.failure = s.failure) (hwait : s'.waitError = s.waitError)
    (hsupervise : s'.supervise = s.supervise) (hsupervision : s'.supervision = s.supervision)
    (hkilled : s'.killed = s.killed) : Blame s' := by
  constructor
  · exact hstop
  · rw [habort, hsabort, hfailure]
    exact b.abort
  · rw [hsupervise, hwait]
    exact b.waitFailed
  · rw [hkilled, hphase]
    intro h
    have hblamed := b.killed h
    cases hp : s.phase with
    | tasks =>
      rw [hp] at hblamed
      unfold Blamed at hblamed ⊢
      rw [hfailure, hsupervise]
      apply hblamed.imp_right
      cases s.supervise with
      | ending => exact id
      | done =>
        unfold BlamedBy
        rw [hsupervision]
        exact id
      | _ =>
        unfold BlamedBy
        rw [hwait]
        exact Or.imp_left hstopped
    | _ =>
      rw [hp] at hblamed
      exact hblamed

/-- A step of the supervision. -/
theorem supervised (b : Blame s) (hphase' : s'.phase = .tasks)
    (hstop : s'.onStop = .running → s.onStop = .running) (hstopped : s'.stop = s.stop)
    (hsabort : s'.onAbort = .running → s.onAbort = .running) (habort : s'.abort = s.abort)
    (hfailure : s'.failure = s.failure)
    (hwait : ∀ isOpen, s'.supervise = .waitFailed isOpen → s'.waitError.isSome = true)
    (hkilled : s'.killed = true → s'.failure.isSome = true ∨ BlamedBy s' s'.supervise) :
    Blame s' := by
  constructor
  · rw [hstopped]
    exact fun h => b.stop (hstop h)
  · rw [habort, hfailure]
    exact fun h => b.abort (h.imp_right hsabort)
  · exact hwait
  · rw [hphase']
    exact hkilled

theorem supervise (b : Blame s) (he : enabled root s e)
    (hsupervise : e.ofSupervise = true) : Blame (RunTraced.step root s e) := by
  have hp : s.phase = .tasks := by
    cases e with
    | arm | armAbort | outputReady | childExited | waitFails | read | readEnds | readFails
    | signalFailed | disarmAbort | disarmStop | reap | lastRead | lastReadEnds | lastReadFails
    | superviseThrows | lastReadThrows | unwindAbort | unwindStop | judge | endServing => exact he.1
    | _ => simp [Event.ofSupervise] at hsupervise
  have hkilled := b.killed
  rw [hp] at hkilled
  -- Where supervision goes on, what is to blame before is to blame after.
  have hon : ∀ {p : Supervise}, s.supervise = p → BlamedBy s p = BlamedBy s .arming →
      s.killed = true → s.failure.isSome = true ∨ s.stop = true ∨ s.waitError.isSome = true := by
    intro p hs hgoes h
    have hblamed := hkilled h
    unfold Blamed at hblamed
    rw [hs, hgoes] at hblamed
    exact hblamed
  cases e with
  | arm =>
    dsimp only [step]
    split
    · next hstop =>
      exact b.supervised hp (fun h => by cases h) rfl id rfl rfl (fun _ h => by cases h)
        (fun _ => .inr (.inl hstop))
    · exact b.supervised hp (fun h => by cases h) rfl id rfl rfl (fun _ h => by cases h)
        (hon he.2 rfl)
  | armAbort =>
    dsimp only [step]
    split
    · next habort =>
      exact b.supervised hp id rfl (fun h => by cases h) rfl rfl (fun _ h => by cases h)
        (fun _ => .inl (b.abort (.inl habort)))
    · exact b.supervised hp id rfl (fun h => by cases h) rfl rfl (fun _ h => by cases h)
        (hon he.2 rfl)
  | outputReady failed =>
    refine b.supervised hp id rfl id rfl rfl (fun _ h => by cases h) ?_
    intro h
    refine (hon he.2.1 rfl h).imp_right (Or.imp_right ?_)
    intro hsome
    cases failed with
    | none => exact hsome
    | some error => rfl
  | childExited isOpen =>
    dsimp only [step]
    split
    · next hfailed =>
      exact b.supervised hp id rfl id rfl rfl (fun _ _ => hfailed) (hon he.2.1 rfl)
    · exact b.supervised hp id rfl id rfl rfl (fun _ h => by cases h) (hon he.2.1 rfl)
  | waitFails isOpen error =>
    exact b.supervised hp id rfl id rfl rfl (fun _ _ => rfl) (fun _ => .inr (.inr rfl))
  | read count =>
    refine b.supervised hp id rfl id rfl rfl b.waitFailed ?_
    intro h
    dsimp only [step]
    rw [he.2.1]
    exact hon he.2.1 rfl h
  | readEnds => exact b.supervised hp id rfl id rfl rfl (fun _ h => by cases h) (hon he.2.1 rfl)
  | readFails => exact b.supervised hp id rfl id rfl rfl (fun _ h => by cases h) (hon he.2 rfl)
  | signalFailed isOpen =>
    exact b.supervised hp id rfl id rfl rfl (fun _ h => by cases h)
      (fun _ => .inr (.inr (b.waitFailed isOpen he.2)))
  | disarmAbort isOpen =>
    exact b.supervised hp id rfl (fun h => by cases h) rfl rfl (fun _ h => by cases h)
      (hon he.2.1 rfl)
  | disarmStop isOpen =>
    exact b.supervised hp (fun h => by cases h) rfl id rfl rfl (fun _ h => by cases h)
      (hon he.2.1 rfl)
  | reap isOpen =>
    cases isOpen with
    | true => exact b.supervised hp id rfl id rfl rfl (fun _ h => by cases h) (hon he.2.1 rfl)
    | false => exact b.supervised hp id rfl id rfl rfl (fun _ h => by cases h) (hon he.2.1 rfl)
  | lastRead count =>
    refine b.supervised hp id rfl id rfl rfl b.waitFailed ?_
    intro h
    dsimp only [step]
    rw [he.2.1]
    exact hon he.2.1 rfl h
  | lastReadEnds =>
    exact b.supervised hp id rfl id rfl rfl (fun _ h => by cases h) (hon he.2.1 rfl)
  | lastReadFails =>
    exact b.supervised hp id rfl id rfl rfl (fun _ h => by cases h) (hon he.2 rfl)
  | superviseThrows =>
    refine b.supervised hp id rfl id rfl rfl (fun _ h => by cases h) ?_
    obtain ⟨isOpen, hs⟩ | hs := he.2
    · exact hon hs rfl
    · exact hon hs rfl
  | lastReadThrows =>
    exact b.supervised hp id rfl id rfl rfl (fun _ h => by cases h) (fun _ => .inr (.inl rfl))
  | unwindAbort =>
    exact b.supervised hp id rfl (fun h => by cases h) rfl rfl (fun _ h => by cases h)
      (hon he.2.1 rfl)
  | unwindStop =>
    exact b.supervised hp (fun h => by cases h) rfl id rfl rfl (fun _ h => by cases h)
      (fun _ => .inr (.inl rfl))
  | judge =>
    refine b.supervised hp id rfl id rfl rfl (fun _ h => by cases h) ?_
    intro h
    obtain hfailure | hstop | hwait := hon he.2 rfl h
    · exact .inl hfailure
    · right
      cases hfailed : s.waitError with
      | none => exact .inr (by simp [hfailed, hstop])
      | some error => exact .inl (by simp [hfailed])
    · exact .inr (.inl hwait)
  | endServing supervision =>
    refine b.supervised hp id rfl id rfl rfl (fun _ h => by cases h) ?_
    intro h
    have hblamed := hkilled h
    unfold Blamed at hblamed
    rw [he.2] at hblamed
    apply hblamed.imp_right
    intro hby other hother
    obtain rfl := Option.some.inj hother
    exact hby
  | _ => simp [Event.ofSupervise] at hsupervise

theorem step (b : Blame s) (o : Owns s) (c : Collected s) (he : enabled root s e) :
    Blame (RunTraced.step root s e) := by
  cases e with
  | start | pipe | prepare | clone | launched | receive | openSession | add | release | terminate
  | exitSeen | reapTerminated | throws | conclude | destroySession | destroyChild | reapChild
  | removeRecord => exact b.task o c he rfl
  | arm | armAbort | outputReady | childExited | waitFails | read | readEnds | readFails
  | signalFailed | disarmAbort | disarmStop | reap | lastRead | lastReadEnds | lastReadFails
  | superviseThrows | lastReadThrows | unwindAbort | unwindStop | judge | endServing =>
    exact b.supervise he rfl
  | deviceReady | serveWaitFails | serveStopped | serveGoesOn | serveRequest | serveMore
  | serveEnded | serveFails | childFails | childHandsOff | childReleased | childAbandoned | childDies
  | childExits | childWrites | childCloses | childAsks | mountGoes | host =>
    exact b.frame rfl b.stop id rfl rfl rfl rfl rfl rfl rfl
  | requestAbort error =>
    dsimp only [RunTraced.step]
    split
    all_goals
      refine ⟨b.stop, fun _ => rfl, b.waitFailed, ?_⟩
      intro _
      dsimp only
      rw [he.1]
      exact .inl rfl
  | abortKills =>
    have hfailure := b.abort (.inr he.2)
    refine ⟨b.stop, fun _ => hfailure, b.waitFailed, ?_⟩
    intro _
    dsimp only [RunTraced.step, State.signal]
    rw [he.1]
    exact .inl hfailure
  | requestStop =>
    exact b.frame rfl (fun _ => rfl) (fun _ => rfl) rfl rfl rfl rfl rfl rfl rfl
  | stopKills =>
    have hrunning : s.onStop = .running := he
    have hstop := b.stop hrunning
    obtain ⟨hp, hmade⟩ := o.onStop (by rw [hrunning]; rfl)
    refine ⟨(fun h => by cases h), b.abort, b.waitFailed, ?_⟩
    intro _
    dsimp only [RunTraced.step, State.signal]
    rw [hp]
    apply Or.inr
    dsimp only
    cases hs : s.supervise with
    | ending | done => simp [hs, Supervise.stopMade] at hmade
    | _ => exact .inl hstop

theorem of_reachable (h : (machine root).Reachable (fun _ _ => True) s) : Blame s := by
  apply h.invariant_under (fun s hs => And.intro (owns_reachable hs) (Collected.of_reachable hs))
  · rintro s rfl
    refine ⟨(fun h => by cases h), ?_, (fun _ h => by cases h), (fun h => by cases h)⟩
    rintro (h | h)
    · cases h
    · cases h
  · exact fun s e hs b he _ => b.step hs.1 hs.2 he

end Blame

end MakeBelieve.ProcessUtil.RunTraced
