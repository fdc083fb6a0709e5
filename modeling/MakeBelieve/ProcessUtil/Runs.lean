import MakeBelieve.ProcessUtil.Outcome

namespace MakeBelieve.ProcessUtil.RunTraced

open Library

variable {root : Path} {s s' : State} {e : Event}

/-! ### The mount of a run -/

/-- The phases in which the session has been destroyed, if there was one. -/
def Phase.unmounted : Phase → Bool
  | .destroyingChild _ | .reapingChild _ | .removing _ | .returned _ => true
  | _ => false

/-- A run's mount is one run of a tracer, which lives until its session is destroyed. -/
def Mounted (root : Path) (s : State) : Prop :=
  ∀ mount, s.mount = some mount →
    (tracing root).Reachable (fun _ _ => True) mount ∧
      (s.phase.unmounted = false → mount.1.live = true)

namespace Mounted

theorem same (m : Mounted root s) (hmount : s'.mount = s.mount)
    (hphase : s'.phase.unmounted = false → s.phase.unmounted = false) : Mounted root s' := by
  intro mount h
  rw [hmount] at h
  exact ⟨(m mount h).1, fun hopen => (m mount h).2 (hphase hopen)⟩

/-- A step of the mount itself. -/
theorem stepped (m : Mounted root s) {e : ProcessUtil.Event}
    (hmount : s'.mount = s.mount.map fun mount => (tracing root).step mount e)
    (he : ∀ mount, s.mount = some mount → mount.1.enabled e)
    (hlive : s'.phase.unmounted = false → s.phase.unmounted = false ∧ e ≠ .destroy) :
    Mounted root s' := by
  intro mount h
  rw [hmount, Option.map_eq_some_iff] at h
  obtain ⟨before, hbefore, rfl⟩ := h
  refine ⟨(m before hbefore).1.next (he before hbefore) trivial, ?_⟩
  intro hopen
  obtain ⟨hopen, hne⟩ := hlive hopen
  have hlived := (m before hbefore).2 hopen
  cases e with
  | request r c delivered =>
    change (before.1.served r delivered _).live = true
    rw [(served_fields before.1 r delivered _).2.2.1]
    exact hlived
  | world | opens | closes => exact hlived
  | destroy => exact absurd rfl hne

theorem step (m : Mounted root s) (he : enabled root s e) :
    Mounted root (RunTraced.step root s e) := by
  -- The step begins in a phase of which this is known.
  have hopen : ∀ {p : Phase}, s.phase = p → p.unmounted = false →
      s.phase.unmounted = false := by
    intro p hp hopen
    rw [hp]
    exact hopen
  cases e with
  | start | pipe | prepare | launched | release | terminate =>
    have he : s.phase = _ := he
    exact m.same rfl (fun _ => hopen he rfl)
  | clone failed =>
    have hp : s.phase = .cloning := he
    cases failed with
    | none => exact m.same rfl (fun _ => hopen hp rfl)
    | some error => exact m.same rfl (fun _ => hopen hp rfl)
  | receive interrupted =>
    have hp : s.phase = .attaching := he.1
    cases interrupted with
    | true => exact m.same rfl (fun _ => hopen hp rfl)
    | false =>
      dsimp only [RunTraced.step]
      split
      all_goals exact m.same rfl (fun _ => hopen hp rfl)
  | openSession opened =>
    have hp : s.phase = .opening := he.1
    cases opened with
    | error error => exact m.same rfl (fun _ => hopen hp rfl)
    | ok mount =>
      intro other h
      obtain rfl := Option.some.inj h
      have hstarts := he.2 mount rfl
      refine ⟨.start ⟨hstarts, rfl⟩, ?_⟩
      intro _
      obtain ⟨_, _, _, rfl, _⟩ := hstarts
      rfl
  | add failed =>
    have hp : s.phase = .adding := he
    cases failed with
    | some error => exact m.same rfl (fun _ => hopen hp rfl)
    | none => exact m.same rfl (fun _ => hopen hp rfl)
  | exitSeen | reapTerminated | conclude => exact m.same rfl (fun _ => hopen he.1 rfl)
  | throws =>
    obtain hp | hp | ⟨error, hp⟩ := he
    all_goals exact m.same rfl (fun _ => hopen hp rfl)
  | destroySession result =>
    have hp : s.phase = .destroyingSession result := he
    refine m.stepped (e := .destroy) rfl ?_ (fun h => by cases h)
    intro mount hmount
    exact (m mount hmount).2 (hopen hp rfl)
  | destroyChild result =>
    dsimp only [RunTraced.step]
    split
    all_goals exact m.same rfl (fun h => by cases h)
  | reapChild | removeRecord => exact m.same rfl (fun h => by cases h)
  | serveRequest r c delivered =>
    obtain ⟨_, _, _, mount, hmount, henabled⟩ := he
    refine m.stepped (e := .request r c delivered) rfl ?_ (fun h => ⟨h, by simp⟩)
    intro other hother
    rw [hmount] at hother
    obtain rfl := Option.some.inj hother
    exact henabled
  | host e =>
    obtain ⟨hhost, mount, hmount, henabled⟩ := he
    refine m.stepped (e := e) rfl ?_ (fun h => ⟨h, ?_⟩)
    · intro other hother
      rw [hmount] at hother
      obtain rfl := Option.some.inj hother
      exact henabled
    · rintro rfl
      simp [ofHost] at hhost
  | arm | armAbort | requestAbort =>
    dsimp only [RunTraced.step]
    split
    all_goals exact m.same rfl id
  | _ => exact m.same rfl id

theorem of_reachable (h : (machine root).Reachable (fun _ _ => True) s) : Mounted root s := by
  apply h.invariant
  · rintro s rfl
    intro mount h
    cases h
  · exact fun s e m he _ => m.step he

end Mounted

/-! ### A run -/

/-- The child has set up, and `run_traced` its device. -/
def setsUp : List Event :=
  [.start, .pipe none, .prepare none, .clone none, .childHandsOff true, .launched,
    .receive false, .openSession (.ok linkedStart), .add none, .release, .arm, .armAbort,
    .childReleased]

/-- The command opens `b` through its mount, and writes as it runs and just before it exits. -/
def readsLinked : List Event :=
  [.childAsks, .deviceReady, .serveGoesOn, .serveRequest (.lookup 1 ['b']) { fd := 4 } true,
    .childAsks, .serveGoesOn, .serveRequest (.open 2 true) { fd := 4 } true,
    .serveGoesOn, .serveMore,
    .childWrites [104, 105], .outputReady none, .read 4095, .readEnds,
    .childWrites [33]]

def reports : List Event :=
  [.childExits 3, .childExited true, .disarmAbort true, .disarmStop true, .reap true,
    .lastRead 4095, .lastReadEnds, .judge,
    .endServing { output := [104, 105, 33], exitStatus := 3 }, .serveStopped, .conclude]

theorem setsUp_fires : (machine [['r']]).Fires (fun _ _ => True) {} setsUp := by
  have hstarts : ∀ mount, (.ok linkedStart : Except Errno ProcessUtil.State) = .ok mount →
      Starts [['r']] mount := by
    rintro mount ⟨⟩
    exact linkedStart_starts
  exact ⟨rfl, trivial, rfl, trivial, rfl, trivial, rfl, trivial, rfl, trivial, rfl, trivial,
    ⟨rfl, .inr (.inl rfl)⟩, trivial, ⟨rfl, hstarts⟩, trivial, rfl, trivial, rfl, trivial,
    ⟨rfl, rfl⟩, trivial, ⟨rfl, rfl⟩, trivial, ⟨rfl, rfl⟩, trivial, trivial⟩

theorem asks_fires {mount : ProcessUtil.State × Notes} {e : ProcessUtil.Event}
    (h : ProcessUtil.fires mount e = true) : mount.1.enabled e :=
  (@ProcessUtil.enabled_of_fires [] mount e h).1

theorem readsLinked_fires : (machine [['r']]).Fires (fun _ _ => True)
    ((machine [['r']]).runs {} setsUp) readsLinked :=
  ⟨rfl, trivial, ⟨rfl, rfl, .inl (by decide)⟩, trivial, ⟨rfl, rfl, rfl⟩, trivial,
    ⟨rfl, rfl, by decide, _, rfl, asks_fires (by decide +kernel)⟩, trivial, rfl, trivial,
    ⟨rfl, rfl, rfl⟩, trivial,
    ⟨rfl, rfl, by decide, _, rfl, asks_fires (by decide +kernel)⟩, trivial,
    ⟨rfl, rfl, rfl⟩, trivial, ⟨rfl, rfl, rfl, rfl⟩, trivial, ⟨rfl, rfl⟩, trivial,
    ⟨rfl, rfl, .inl (by decide)⟩, trivial, ⟨rfl, rfl, by decide⟩, trivial,
    ⟨rfl, rfl, rfl⟩, trivial, ⟨rfl, rfl⟩, trivial, trivial⟩

theorem reports_fires : (machine [['r']]).Fires (fun _ _ => True)
    ((machine [['r']]).runs {} (setsUp ++ readsLinked)) reports :=
  ⟨rfl, trivial, ⟨rfl, rfl, rfl⟩, trivial, ⟨rfl, rfl, by decide⟩, trivial,
    ⟨rfl, rfl, by decide⟩, trivial, ⟨rfl, rfl, rfl⟩, trivial, ⟨rfl, rfl, by decide⟩, trivial,
    ⟨rfl, rfl, rfl⟩, trivial, ⟨rfl, rfl⟩, trivial, ⟨rfl, rfl⟩, trivial, ⟨rfl, rfl, rfl⟩, trivial,
    ⟨rfl, rfl, rfl⟩, trivial, trivial⟩

/-- A stop is requested while the command runs. -/
def stops : List Event :=
  [.requestStop, .stopKills, .childDies]

theorem stops_fires : (machine [['r']]).Fires (fun _ _ => True)
    ((machine [['r']]).runs {} setsUp) stops :=
  ⟨rfl, trivial, rfl, trivial, ⟨rfl, rfl⟩, trivial, trivial⟩

/-- The run to its end, in which its session, its child and its record go. -/
def readsRun : List Event :=
  let result := .output [104, 105, 33] [[['r'], ['b']]] 3
  setsUp ++ readsLinked ++ (reports ++
    [.destroySession result, .destroyChild result, .removeRecord result])

theorem readsRun_reachable : (machine [['r']]).Reachable (fun _ _ => True)
    ((machine [['r']]).runs {} readsRun) := by
  apply Machine.Reachable.runs (.start rfl)
  apply (setsUp_fires.append readsLinked_fires).append
  apply reports_fires.append
  have hconcluded : ((machine [['r']]).runs ((machine [['r']]).runs {} (setsUp ++ readsLinked))
      reports).phase = .destroyingSession (.output [104, 105, 33] [[['r'], ['b']]] 3) := by
    decide +kernel
  exact ⟨hconcluded, trivial, rfl, trivial, rfl, trivial, trivial⟩

/-! ### Results -/

/-- An output is only ever reported for a command that ended of itself: it was not killed, whatever
was requested and whatever failed meanwhile, and the status is what it ended with. The output is all
that it wrote, unless reading it failed; its mount was served without failing; and the inputs are
the paths of the files it was handed, sorted. -/
theorem output_of_command (h : (machine root).Reachable (fun _ _ => True) s)
    {standardOutput : Bytes} {inputs : List Path} {exitStatus : Nat}
    (hreturned : s.phase = .returned (.output standardOutput inputs exitStatus)) :
    s.child = .reaped exitStatus ∧ s.killed = false ∧ s.failure = none ∧
      (s.lossy = false → standardOutput = s.written) ∧
      ∃ mount, s.mount = some mount ∧ inputs.Pairwise (· < ·) ∧
        (∀ o ∈ mount.2.opened, ∃ relative,
          o.names relative = some o.file ∧ under root relative ∈ inputs) ∧
        ∀ path ∈ inputs, ∃ o ∈ mount.2.opened, ∃ relative,
          under root relative = path ∧ o.names relative = some o.file := by
  have hblame := (Blame.of_reachable h).killed
  obtain ⟨hchild, houtput, hfailure, mount, hmount, hinputs⟩ :=
    (Collected.of_reachable h).reported (.output standardOutput inputs exitStatus)
      (by rw [hreturned]; rfl)
  have hkilled : s.killed = false := by
    rw [← Bool.not_eq_true]
    intro hkilled
    have hblamed := hblame hkilled
    rw [hreturned] at hblamed
    cases hblamed
  have hrun := (Mounted.of_reachable h mount hmount).1
  obtain ⟨hfailed, hsorted, hmem⟩ := takeInputs_ok hinputs
  have hrecorded := (inv_reachable hrun).recorded
  refine ⟨hchild, hkilled, hfailure, houtput, mount, hmount, hsorted, ?_, ?_⟩
  · intro o ho
    obtain ⟨relative, hnamed, hread⟩ := hrecorded.recorded o ho
    exact ⟨relative, hnamed, (hmem _).mpr hread⟩
  · intro path hpath
    exact hrecorded.read hfailed path ((hmem path).mp hpath)

theorem output_of_command_linked :
    let s := (machine [['r']]).runs {} readsRun
    s.phase = .returned (.output [104, 105, 33] [[['r'], ['b']]] 3) ∧
      s.child = .reaped 3 ∧ s.killed = false ∧ s.written = [104, 105, 33] := by
  intro s
  have hreturned : s.phase = .returned (.output [104, 105, 33] [[['r'], ['b']]] 3) := by
    decide +kernel
  have hlossy : s.lossy = false := by decide +kernel
  obtain ⟨hchild, hkilled, _, hwritten, _⟩ := output_of_command readsRun_reachable hreturned
  exact ⟨hreturned, hchild, hkilled, (hwritten hlossy).symm⟩

end MakeBelieve.ProcessUtil.RunTraced
