import MakeBelieve.ConsoleInterrupt.State

namespace MakeBelieve.ConsoleInterrupt

open Library

variable {s : State} {e : Event} {h : HandlerId} {r : SignalId}

/-! ### Whose interrupts they are -/

/-- Its watch's callback may be running. -/
def Phase.busy : Phase → Bool
  | .watching | .intInstalled | .installed | .intRestored | .restored | .stopping => true
  | _ => false

/-- Nothing is in the pipe. -/
def Phase.quiet : Phase → Bool
  | .slotted | .drained => true
  | _ => false

/-- Nothing was sent to it yet. -/
def Phase.fresh : Phase → Bool
  | .unborn | .slotted => true
  | _ => false

/-- No run of `handle_signal` is under way as the pipe is drained for the last time. -/
def orderly (s : State) : Event → Prop
  | .drains _ => ∀ r h, s.runs r ≠ .entered h
  | _ => True

structure Inv (s : State) : Prop where
  slot : ∀ h, (s.phase h).holds = true ↔ s.source = some h
  handled : ∀ h, s.source = some h → ∀ signal, s.handled signal = (s.phase h).handles signal
  unhandled : s.source = none → ∀ signal, s.handled signal = false
  busy : s.watch ≠ .idle → ∃ h, s.source = some h ∧ (s.phase h).busy = true
  stopping : ∀ got, s.watch = .stopping got → got ≠ []
  bytes : ∀ r, r ∈ s.pipe ∨ r ∈ s.watch.got → ∃ h, s.runs r = .returned h ∧ s.source = some h
  entered : ∀ r h, s.runs r = .entered h → s.source = some h
  quiet : ∀ h, s.source = some h → (s.phase h).quiet = true →
    s.pipe = [] ∧ ∀ r h', s.runs r ≠ .entered h'
  fresh : ∀ h, (s.phase h).fresh = true → ∀ r, s.runs r ≠ .returned h
  stops : ∀ h, s.stopRequested h = true → ∃ r, s.runs r = .returned h
  kept : ∀ r h, s.runs r = .returned h → (s.phase h).awaits = true →
    s.stopRequested h = true ∨ s.pipe ≠ [] ∨ s.watch.got ≠ []

namespace Phase

variable {phase : Phase}

theorem holds_of_quiet (hquiet : phase.quiet = true) : phase.holds = true := by
  cases phase with
  | slotted | drained => rfl
  | _ => cases hquiet

theorem busy_of_quiet (hquiet : phase.quiet = true) : phase.busy = false := by
  cases phase with
  | slotted | drained => rfl
  | _ => cases hquiet

theorem handles_of_quiet (hquiet : phase.quiet = true) (signal : Signal) :
    phase.handles signal = false := by
  cases phase with
  | slotted | drained => rfl
  | _ => cases hquiet

theorem holds_of_awaits (hawaits : phase.awaits = true) : phase.holds = true := by
  cases phase with
  | unborn | slotted | drained | ended | threw => cases hawaits
  | _ => rfl

theorem busy_of_watches (hwatches : phase.watches = true) : phase.busy = true := by
  cases phase with
  | watching | intInstalled | installed | intRestored | restored => rfl
  | _ => cases hwatches

end Phase

namespace State

theorem setPhase_self (s : State) (h : HandlerId) (phase : Phase) :
    (s.setPhase h phase).phase h = phase := by
  simp [setPhase]

theorem setPhase_of_ne (s : State) (h : HandlerId) (phase : Phase) (h' : HandlerId)
    (hne : h' ≠ h) : (s.setPhase h phase).phase h' = s.phase h' := by
  simp [setPhase, Function.update_of_ne hne]

end State

namespace Inv

theorem start : Inv {} := by
  constructor
  all_goals simp [Phase.holds, Phase.awaits, Watch.got]

/-- The handler in `g_source` moves on. -/
theorem move {phase : Phase} {handled : Signal → Bool} (i : Inv s)
    (hholds : (s.phase h).holds = true) (hphase : phase.holds = true)
    (hhandled : ∀ signal, handled signal = phase.handles signal)
    (hbusy : s.watch = .idle ∨ phase.busy = true) (hquiet : phase.quiet = false)
    (hfresh : phase.fresh = false)
    (hawaits : phase.awaits = true → (s.phase h).awaits = true ∨ (s.phase h).fresh = true) :
    Inv { s.setPhase h phase with handled } := by
  have hsource := (i.slot h).mp hholds
  have hself := s.setPhase_self h phase
  have hother := s.setPhase_of_ne h phase
  constructor
  · intro h'
    by_cases heq : h' = h
    · subst heq
      simp only [hself, hphase, true_iff]
      exact hsource
    · simp only [hother h' heq]
      exact i.slot h'
  · intro h' hh'
    obtain rfl := Option.some.inj (hsource.symm.trans hh')
    simp only [hself]
    exact hhandled
  · intro hnone
    exact absurd (hsource.symm.trans hnone) (by simp)
  · intro hwatch
    refine ⟨h, hsource, ?_⟩
    simp only [hself]
    exact hbusy.resolve_left hwatch
  · exact i.stopping
  · exact i.bytes
  · exact i.entered
  · intro h' hh'
    obtain rfl := Option.some.inj (hsource.symm.trans hh')
    simp [hself, hquiet]
  · intro h' hh'
    by_cases heq : h' = h
    · subst heq
      simp [hself, hfresh] at hh'
    · simp only [hother h' heq] at hh'
      exact i.fresh h' hh'
  · exact i.stops
  · intro r h' hr hh'
    by_cases heq : h' = h
    · subst heq
      simp only [hself] at hh'
      obtain hbefore | hbefore := hawaits hh'
      · exact i.kept r h' hr hbefore
      · exact absurd hr (i.fresh h' hbefore r)
    · simp only [hother h' heq] at hh'
      exact i.kept r h' hr hh'

/-- The callback runs for nobody but the handler in `g_source`. -/
theorem idle (i : Inv s) (hsource : s.source = some h) (hbusy : (s.phase h).busy = false) :
    s.watch = .idle := by
  by_contra hwatch
  obtain ⟨h', hh', hbusy'⟩ := i.busy hwatch
  obtain rfl := Option.some.inj (hsource.symm.trans hh')
  simp [hbusy] at hbusy'

/-- What the handler in `g_source` has installed itself for. -/
theorem handles (i : Inv s) (hholds : (s.phase h).holds = true) (signal : Signal) :
    s.handled signal = (s.phase h).handles signal :=
  i.handled h ((i.slot h).mp hholds) signal

/-- One that comes to an end while nobody uses what it leaves. -/
theorem release {phase : Phase} (i : Inv s) (hquiet : (s.phase h).quiet = true)
    (hphase : phase.holds = false) (hfresh : phase.fresh = false) :
    Inv { s.setPhase h phase with source := none } := by
  have hsource := (i.slot h).mp (Phase.holds_of_quiet hquiet)
  obtain ⟨hpipe, hentered⟩ := i.quiet h hsource hquiet
  have hidle := i.idle hsource (Phase.busy_of_quiet hquiet)
  have hself := s.setPhase_self h phase
  have hother := s.setPhase_of_ne h phase
  have hgone : ∀ h', ((s.setPhase h phase).phase h').holds = false := by
    intro h'
    by_cases heq : h' = h
    · rw [heq, hself]
      exact hphase
    · rw [hother h' heq, ← Bool.not_eq_true, i.slot h', hsource]
      simpa using Ne.symm heq
  constructor
  · intro h'
    have hnone := hgone h'
    simp only [State.setPhase] at hnone ⊢
    simp [hnone]
  · intro h' hh'
    cases hh'
  · intro _ signal
    exact (i.handled h hsource signal).trans (Phase.handles_of_quiet hquiet signal)
  · exact fun hwatch => absurd hidle hwatch
  · exact i.stopping
  · intro r hr
    have hr : r ∈ s.pipe ∨ r ∈ s.watch.got := hr
    simp [hpipe, hidle, Watch.got] at hr
  · exact fun r h' hr => absurd hr (hentered r h')
  · intro h' hh'
    cases hh'
  · intro h' hh'
    by_cases heq : h' = h
    · subst heq
      have hh' : ((s.setPhase h' phase).phase h').fresh = true := hh'
      simp [hself, hfresh] at hh'
    · have hh' : ((s.setPhase h phase).phase h').fresh = true := hh'
      rw [hother h' heq] at hh'
      exact i.fresh h' hh'
  · exact i.stops
  · intro r h' hr hh'
    have hh' : ((s.setPhase h phase).phase h').awaits = true := hh'
    have hnone := hgone h'
    rw [Phase.holds_of_awaits hh'] at hnone
    cases hnone

theorem takesSlot (i : Inv s) (hp : s.phase h = .unborn) (hnone : s.source = none) :
    Inv { s.setPhase h .slotted with source := some h } := by
  have hbytes : ∀ r, ¬ (r ∈ s.pipe ∨ r ∈ s.watch.got) := by
    intro r hr
    obtain ⟨h', _, hsource⟩ := i.bytes r hr
    simp [hnone] at hsource
  have hentered : ∀ r h', s.runs r ≠ .entered h' := by
    intro r h' hr
    have hsource := i.entered r h' hr
    simp [hnone] at hsource
  have hidle : s.watch = .idle := by
    by_contra hwatch
    obtain ⟨h', hsource, _⟩ := i.busy hwatch
    simp [hnone] at hsource
  have hself := s.setPhase_self h .slotted
  have hother := s.setPhase_of_ne h .slotted
  constructor
  · intro h'
    by_cases heq : h' = h
    · subst heq
      simp [hself, Phase.holds]
    · have hslot := i.slot h'
      simp only [hnone] at hslot
      simp only [hother h' heq, hslot]
      simp [Ne.symm heq]
  · intro h' hh' signal
    obtain rfl := Option.some.inj hh'
    simp only [hself]
    exact i.unhandled hnone signal
  · intro hnone'
    cases hnone'
  · exact fun hwatch => absurd hidle hwatch
  · exact i.stopping
  · exact fun r hr => absurd hr (hbytes r)
  · exact fun r h' hr => absurd hr (hentered r h')
  · intro h' _ _
    exact ⟨List.eq_nil_iff_forall_not_mem.mpr fun r hr => hbytes r (.inl hr), hentered⟩
  · intro h' hh'
    by_cases heq : h' = h
    · subst heq
      exact i.fresh h' (by rw [hp]; rfl)
    · simp only [hother h' heq] at hh'
      exact i.fresh h' hh'
  · exact i.stops
  · intro r h' hr hh'
    by_cases heq : h' = h
    · subst heq
      simp [hself, Phase.awaits] at hh'
    · simp only [hother h' heq] at hh'
      exact i.kept r h' hr hh'

theorem refused (i : Inv s) (hp : s.phase h = .unborn) : Inv (s.setPhase h .threw) := by
  have hself := s.setPhase_self h .threw
  have hother := s.setPhase_of_ne h .threw
  have hsame : ∀ h', s.source = some h' → (s.setPhase h .threw).phase h' = s.phase h' := by
    intro h' hh'
    apply hother
    rintro rfl
    have hholds := (i.slot h').mpr hh'
    simp [hp, Phase.holds] at hholds
  constructor
  · intro h'
    by_cases heq : h' = h
    · subst heq
      have hslot := i.slot h'
      simp only [hp, Phase.holds] at hslot
      rw [hself]
      exact hslot
    · rw [hother h' heq]
      exact i.slot h'
  · intro h' hh'
    rw [hsame h' hh']
    exact i.handled h' hh'
  · exact i.unhandled
  · intro hwatch
    obtain ⟨h', hh', hbusy⟩ := i.busy hwatch
    exact ⟨h', hh', by rwa [hsame h' hh']⟩
  · exact i.stopping
  · exact i.bytes
  · exact i.entered
  · intro h' hh' hquiet
    rw [hsame h' hh'] at hquiet
    exact i.quiet h' hh' hquiet
  · intro h' hh'
    by_cases heq : h' = h
    · subst heq
      simp [hself, Phase.fresh] at hh'
    · rw [hother h' heq] at hh'
      exact i.fresh h' hh'
  · exact i.stops
  · intro r h' hr hh'
    by_cases heq : h' = h
    · subst heq
      simp [hself, Phase.awaits] at hh'
    · rw [hother h' heq] at hh'
      exact i.kept r h' hr hh'

/-- The last read of the pipe finds nothing more, and nobody is about to write to it. -/
theorem drains (i : Inv s) (hp : s.phase h = .joined) (hok : ∀ r h, s.runs r ≠ .entered h) :
    Inv { s.setPhase h .drained with pipe := [] } := by
  have hsource := (i.slot h).mp (by rw [hp]; rfl)
  have hidle := i.idle hsource (by rw [hp]; rfl)
  have hself := s.setPhase_self h .drained
  have hother := s.setPhase_of_ne h .drained
  constructor
  · intro h'
    by_cases heq : h' = h
    · subst heq
      simp only [hself, Phase.holds, true_iff]
      exact hsource
    · simp only [hother h' heq]
      exact i.slot h'
  · intro h' hh' signal
    obtain rfl := Option.some.inj (hsource.symm.trans hh')
    have hsignal := i.handled h hsource signal
    simp only [hself]
    rw [hp] at hsignal
    exact hsignal
  · intro hnone
    exact absurd (hsource.symm.trans hnone) (by simp)
  · exact fun hwatch => absurd hidle hwatch
  · exact i.stopping
  · intro r hr
    have hr : r ∈ [] ∨ r ∈ s.watch.got := hr
    simp [hidle, Watch.got] at hr
  · exact i.entered
  · exact fun _ _ _ => ⟨rfl, hok⟩
  · intro h' hh'
    by_cases heq : h' = h
    · subst heq
      simp [hself, Phase.fresh] at hh'
    · simp only [hother h' heq] at hh'
      exact i.fresh h' hh'
  · exact i.stops
  · intro r h' _ hh'
    by_cases heq : h' = h
    · subst heq
      simp [hself, Phase.awaits] at hh'
    · simp only [hother h' heq] at hh'
      have hsource' := (i.slot h').mp (Phase.holds_of_awaits hh')
      exact absurd (Option.some.inj (hsource'.symm.trans hsource)) heq

theorem signals (i : Inv s) (hsource : s.source = some h) (hr : s.runs r = .unborn)
    {signal : Signal} (hhandled : s.handled signal = true) : Inv (s.setRun r (.entered h)) := by
  have hother : ∀ r' h', s.runs r' = .returned h' →
      (s.setRun r (.entered h)).runs r' = .returned h' := by
    intro r' h' hr'
    have hne : r' ≠ r := by
      rintro rfl
      simp [hr] at hr'
    simpa only [State.setRun, Function.update_of_ne hne] using hr'
  have hback : ∀ r' h', (s.setRun r (.entered h)).runs r' = .returned h' →
      s.runs r' = .returned h' := by
    intro r' h' hr'
    by_cases heq : r' = r
    · simp [heq, State.setRun] at hr'
    · simpa only [State.setRun, Function.update_of_ne heq] using hr'
  constructor
  · exact i.slot
  · exact i.handled
  · exact i.unhandled
  · exact i.busy
  · exact i.stopping
  · intro r' hr'
    obtain ⟨h', hh', hsource'⟩ := i.bytes r' hr'
    exact ⟨h', hother r' h' hh', hsource'⟩
  · intro r' h' hr'
    by_cases heq : r' = r
    · simp only [heq, State.setRun, Function.update_self, Run.entered.injEq] at hr'
      rw [← hr']
      exact hsource
    · simp only [State.setRun, Function.update_of_ne heq] at hr'
      exact i.entered r' h' hr'
  · intro h' hh' hquiet
    obtain rfl := Option.some.inj (hsource.symm.trans hh')
    have hhandles := (i.handled h hsource signal).trans (Phase.handles_of_quiet hquiet signal)
    simp [hhandled] at hhandles
  · exact fun h' hh' r' hr' => i.fresh h' hh' r' (hback r' h' hr')
  · intro h' hh'
    obtain ⟨r', hr'⟩ := i.stops h' hh'
    exact ⟨r', hother r' h' hr'⟩
  · exact fun r' h' hr' => i.kept r' h' (hback r' h' hr')

theorem writes (i : Inv s) (hr : s.runs r = .entered h) {pipe : List SignalId}
    (hpipe : pipe ≠ []) (hbytes : ∀ r', r' ∈ pipe → r' ∈ s.pipe ∨ r' = r) :
    Inv { s.setRun r (.returned h) with pipe } := by
  have hsource := i.entered r h hr
  have hunquiet : (s.phase h).quiet = false := by
    rw [← Bool.not_eq_true]
    intro hquiet
    exact (i.quiet h hsource hquiet).2 r h hr
  have hother : ∀ r' h', s.runs r' = .returned h' →
      (s.setRun r (.returned h)).runs r' = .returned h' := by
    intro r' h' hr'
    have hne : r' ≠ r := by
      rintro rfl
      simp [hr] at hr'
    simpa only [State.setRun, Function.update_of_ne hne] using hr'
  have hback : ∀ r' h', (s.setRun r (.returned h)).runs r' = .returned h' →
      s.runs r' = .returned h' ∨ h' = h := by
    intro r' h' hr'
    by_cases heq : r' = r
    · simp only [heq, State.setRun, Function.update_self, Run.returned.injEq] at hr'
      exact .inr hr'.symm
    · left
      simpa only [State.setRun, Function.update_of_ne heq] using hr'
  constructor
  · exact i.slot
  · exact i.handled
  · exact i.unhandled
  · exact i.busy
  · exact i.stopping
  · intro r' hr'
    have hcases : (r' ∈ s.pipe ∨ r' ∈ s.watch.got) ∨ r' = r := by
      obtain hmem | hgot := hr'
      · exact (hbytes r' hmem).imp .inl id
      · exact .inl (.inr hgot)
    obtain hbefore | rfl := hcases
    · obtain ⟨h', hh', hsource'⟩ := i.bytes r' hbefore
      exact ⟨h', hother r' h' hh', hsource'⟩
    · exact ⟨h, by simp [State.setRun], hsource⟩
  · intro r' h' hr'
    by_cases heq : r' = r
    · simp [heq, State.setRun] at hr'
    · simp only [State.setRun, Function.update_of_ne heq] at hr'
      exact i.entered r' h' hr'
  · intro h' hh' hquiet
    obtain rfl := Option.some.inj (hsource.symm.trans hh')
    have hquiet : (s.phase h).quiet = true := hquiet
    simp [hunquiet] at hquiet
  · intro h' hh' r' hr'
    obtain hbefore | rfl := hback r' h' hr'
    · exact i.fresh h' hh' r' hbefore
    · have hholds := (i.slot h').mpr hsource
      have hh' : (s.phase h').fresh = true := hh'
      cases hp : s.phase h' with
      | unborn => simp [hp, Phase.holds] at hholds
      | slotted => simp [hp, Phase.quiet] at hunquiet
      | _ => simp [hp, Phase.fresh] at hh'
  · intro h' hh'
    obtain ⟨r', hr'⟩ := i.stops h' hh'
    exact ⟨r', hother r' h' hr'⟩
  · exact fun _ _ _ _ => .inr (.inl hpipe)

/-- A step of the watch's callback. -/
theorem callback (i : Inv s) {watch : Watch} {pipe : List SignalId}
    (hbusy : watch ≠ .idle → ∃ h, s.source = some h ∧ (s.phase h).busy = true)
    (hstopping : ∀ got, watch = .stopping got → got ≠ [])
    (hbytes : ∀ r, r ∈ pipe ∨ r ∈ watch.got → r ∈ s.pipe ∨ r ∈ s.watch.got)
    (hkept : s.pipe ≠ [] ∨ s.watch.got ≠ [] → pipe ≠ [] ∨ watch.got ≠ []) :
    Inv { s with watch, pipe } := by
  constructor
  · exact i.slot
  · exact i.handled
  · exact i.unhandled
  · exact hbusy
  · exact hstopping
  · exact fun r hr => i.bytes r (hbytes r hr)
  · exact i.entered
  · intro h hsource hquiet
    obtain ⟨hpipe, hentered⟩ := i.quiet h hsource hquiet
    refine ⟨List.eq_nil_iff_forall_not_mem.mpr ?_, hentered⟩
    intro r hr
    have hbefore := hbytes r (.inl hr)
    simp [hpipe, i.idle hsource (Phase.busy_of_quiet hquiet), Watch.got] at hbefore
  · exact i.fresh
  · exact i.stops
  · exact fun r h hr hawaits => (i.kept r h hr hawaits).imp_right hkept

/-- The stop is of the handler whose interrupts were read, as nobody else is in `g_source`. -/
theorem requestsStop (i : Inv s) {got : List SignalId} (hwatch : s.watch = .stopping got)
    (hsource : s.source = some h) :
    Inv { s with watch := .idle, stopRequested := Function.update s.stopRequested h true } := by
  constructor
  · exact i.slot
  · exact i.handled
  · exact i.unhandled
  · exact fun hidle => absurd rfl hidle
  · intro got' hgot'
    cases hgot'
  · intro r hr
    obtain hmem | hmem := hr
    · exact i.bytes r (.inl hmem)
    · cases hmem
  · exact i.entered
  · exact i.quiet
  · exact i.fresh
  · intro h' hh'
    by_cases heq : h' = h
    · obtain ⟨r, hr⟩ := List.exists_mem_of_ne_nil got (i.stopping got hwatch)
      obtain ⟨h'', hreturned, hsource'⟩ := i.bytes r (.inr (by rw [hwatch]; exact hr))
      obtain rfl := Option.some.inj (hsource.symm.trans hsource')
      exact ⟨r, heq ▸ hreturned⟩
    · simp only [Function.update_of_ne heq] at hh'
      exact i.stops h' hh'
  · intro r h' _ hawaits
    left
    have hsource' := (i.slot h').mp (Phase.holds_of_awaits hawaits)
    obtain rfl := Option.some.inj (hsource.symm.trans hsource')
    simp

/-- A handler that moves on and stays installed for what it was. -/
theorem moveOn {before phase : Phase} (i : Inv s) (hp : s.phase h = before)
    (hholds : before.holds = true) (hphase : phase.holds = true)
    (hhandles : ∀ signal, before.handles signal = phase.handles signal)
    (hbusy : s.watch = .idle ∨ phase.busy = true) (hquiet : phase.quiet = false)
    (hfresh : phase.fresh = false)
    (hawaits : phase.awaits = true → before.awaits = true ∨ before.fresh = true) :
    Inv (s.setPhase h phase) := by
  subst hp
  apply i.move hholds hphase _ hbusy hquiet hfresh hawaits
  exact fun signal => (i.handles hholds signal).trans (hhandles signal)

/-- A handler that installs itself for a signal, or no longer does. -/
theorem install {before phase : Phase} {signal : Signal} {handled : Bool} (i : Inv s)
    (hp : s.phase h = before) (hholds : before.holds = true) (hphase : phase.holds = true)
    (hhandled : ∀ other, (if other = signal then handled else before.handles other) =
      phase.handles other)
    (hbusy : phase.busy = true) (hquiet : phase.quiet = false) (hfresh : phase.fresh = false)
    (hawaits : before.awaits = true) : Inv ((s.setPhase h phase).install signal handled) := by
  subst hp
  apply i.move hholds hphase _ (.inr hbusy) hquiet hfresh (fun _ => .inl hawaits)
  intro other
  rw [← hhandled other, ← i.handles hholds other]
  by_cases heq : other = signal
  · subst heq
    simp [State.setPhase]
  · simp [State.setPhase, heq]

theorem step (i : Inv s) (he : enabled s e) (hok : orderly s e) :
    Inv (ConsoleInterrupt.step s e) := by
  cases e with
  | takesSlot h => exact i.takesSlot he.1 he.2
  | refused h => exact i.refused he.1
  | fails h =>
    have hp : s.phase h = .slotted := he
    exact i.release (by rw [hp]; rfl) rfl rfl
  | watches h =>
    exact i.moveOn he rfl rfl (fun _ => rfl) (.inr rfl) rfl rfl fun _ => .inr rfl
  | installsInt h | installsTerm h | restoresInt h | restoresTerm h =>
    exact i.install he rfl rfl (fun other => by cases other <;> rfl) rfl rfl rfl rfl
  | installFails h =>
    obtain he | he := he
    · exact i.install he rfl rfl (fun other => by cases other <;> rfl) rfl rfl rfl rfl
    · exact i.install he rfl rfl (fun other => by cases other <;> rfl) rfl rfl rfl rfl
  | stopsWatch h =>
    exact i.moveOn he rfl rfl (fun _ => rfl) (.inr rfl) rfl rfl fun _ => .inl rfl
  | joins h =>
    obtain ⟨hp, hidle⟩ := he
    exact i.moveOn hp rfl rfl (fun _ => rfl) (.inl hidle) rfl rfl fun _ => .inl rfl
  | drains h => exact i.drains he hok
  | releases h =>
    have hp : s.phase h = .drained := he
    exact i.release (by rw [hp]; rfl) rfl rfl
  | signals r signal =>
    obtain ⟨⟨h, hsource⟩, hhandled, hr⟩ := he
    simp only [ConsoleInterrupt.step, hsource]
    exact i.signals hsource hr hhandled
  | writes r dropped =>
    obtain ⟨h, hr, hdropped⟩ := he
    simp only [ConsoleInterrupt.step, hr]
    cases dropped with
    | true => exact i.writes hr (hdropped rfl) fun _ hmem => .inl hmem
    | false =>
      apply i.writes hr (by simp)
      intro r' hmem
      simpa using hmem
  | ready =>
    obtain ⟨⟨h, hsource, hwatches⟩, hidle, hpipe⟩ := he
    apply i.callback
    · intro _
      exact ⟨h, hsource, Phase.busy_of_watches hwatches⟩
    · intro got hgot
      cases hgot
    · intro r hr
      exact hr.imp_right fun hmem => by cases hmem
    · exact fun _ => .inl hpipe
  | reads count =>
    obtain ⟨⟨got, hwatch⟩, hcount, _, hle⟩ := he
    apply i.callback
    · intro _
      exact i.busy (by simp [hwatch])
    · intro got' hgot'
      cases hgot'
    · rintro r (hmem | hmem)
      · exact .inl (List.mem_of_mem_drop hmem)
      · obtain hmem | hmem := List.mem_append.mp hmem
        · exact .inr hmem
        · exact .inl (List.mem_of_mem_take hmem)
    · intro _
      right
      have htake : s.pipe.take count ≠ [] := by
        intro hnil
        have hlength := congrArg List.length hnil
        simp only [List.length_take, List.length_nil] at hlength
        omega
      exact List.append_ne_nil_of_right_ne_nil _ htake
  | readsNone failed =>
    obtain ⟨⟨got, hwatch⟩, _⟩ := he
    have hbusy := i.busy (by simp [hwatch])
    by_cases hgot : s.watch.got = []
    · apply i.callback (fun _ => hbusy)
      · intro got' hgot'
        rw [if_pos hgot] at hgot'
        cases hgot'
      · rw [if_pos hgot]
        exact fun r hr => hr.imp_right fun hmem => by cases hmem
      · rintro (hsome | hsome)
        · exact .inl hsome
        · exact absurd hgot hsome
    · apply i.callback (fun _ => hbusy)
      · intro got' hgot'
        rw [if_neg hgot] at hgot'
        rw [← Watch.stopping.inj hgot']
        exact hgot
      · rw [if_neg hgot]
        exact fun r hr => hr
      · rw [if_neg hgot]
        exact fun _ => .inr hgot
  | requestsStop =>
    obtain ⟨got, hwatch⟩ := he
    obtain ⟨h, hsource, _⟩ := i.busy (by simp [hwatch])
    dsimp only [ConsoleInterrupt.step]
    split
    · next h' hsource' => exact i.requestsStop hwatch hsource'
    · next hnone => simp [hsource] at hnone

theorem of_reachable (hs : machine.Reachable orderly s) : Inv s := by
  apply hs.invariant
  · rintro s rfl
    exact start
  · exact fun s e i he hok => i.step he hok

end Inv

/-- A handler is stopped by its own signals only, one there for it is not lost, and the stop is
requested of a handler that is still there. -/
theorem interrupts_are_its_own (hs : machine.Reachable orderly s) :
    (∀ h, s.stopRequested h = true → ∃ r, s.runs r = .returned h) ∧
    (∀ r h, s.runs r = .returned h → (s.phase h).awaits = true →
      s.stopRequested h = true ∨ s.pipe ≠ [] ∨ s.watch.got ≠ []) ∧
    (∀ got, s.watch = .stopping got → ∃ h, s.source = some h ∧ (s.phase h).busy = true) ∧
    ∀ h h', (s.phase h).holds = true → (s.phase h').holds = true → h = h' := by
  have i := Inv.of_reachable hs
  refine ⟨i.stops, i.kept, ?_, ?_⟩
  · intro got hwatch
    exact i.busy (by simp [hwatch])
  · intro h h' hholds hholds'
    exact Option.some.inj (((i.slot h).mp hholds).symm.trans ((i.slot h').mp hholds'))

/-- A handler that is interrupted. -/
def interrupted : List Event :=
  [.takesSlot 0, .watches 0, .installsInt 0, .installsTerm 0, .signals 0 .term, .writes 0 false,
    .ready, .reads 1, .readsNone false, .requestsStop]

theorem interrupted_fires : machine.Fires orderly {} interrupted := by
  refine ⟨⟨rfl, rfl⟩, trivial, rfl, trivial, rfl, trivial, rfl, trivial, ⟨⟨0, rfl⟩, rfl, rfl⟩,
    trivial, ⟨0, rfl, fun h => by cases h⟩, trivial, ⟨⟨0, rfl, rfl⟩, rfl, List.cons_ne_nil _ _⟩,
    trivial, ⟨⟨[], rfl⟩, by decide, by decide, by decide⟩, trivial,
    ⟨⟨[0], rfl⟩, fun _ => rfl⟩, trivial, ⟨[0], rfl⟩, trivial, trivial⟩

theorem interrupts_are_its_own_interrupted :
    ∃ s : State, s.stopRequested 0 = true ∧ ∃ r, s.runs r = .returned 0 := by
  have hreachable : machine.Reachable orderly (machine.runs {} interrupted) :=
    .runs (.start rfl) interrupted_fires
  exact ⟨_, rfl, (interrupts_are_its_own hreachable).1 0 rfl⟩

end MakeBelieve.ConsoleInterrupt
