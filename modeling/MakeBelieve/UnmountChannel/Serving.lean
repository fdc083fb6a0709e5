import MakeBelieve.UnmountChannel.Requests

namespace MakeBelieve.UnmountChannel

open Library

variable {s : State} {e : Event} {d d' : Daemon} {c : Client} {ch ch' : Channel}

/-! ### Mounts of one mountpoint, one after the other -/

/-- It is about to have the name, and its socket does not listen yet. -/
def Phase.settles : Phase → Bool
  | .binding | .probing | .removing | .rebinding | .bound => true
  | _ => false

/-- The name is its own. -/
def Phase.owns : Phase → Bool
  | .bound | .listening | .serving | .unmounting | .unmounted | .stopping | .unlinking => true
  | _ => false

/-- No two at once settle on one name, for either could take the other's socket for a stale one, and
a probe fails only where nobody listens. -/
def alone (s : State) : Event → Prop
  | .finds d key => ∀ other, other ≠ d → (s.channels other).endpoint = endpointId key →
      (s.channels other).phase.settles = false
  | .probeFails d => s.reaches (s.channels d).endpoint = none
  | _ => True

/-- The name of each who owns one is of its socket. -/
structure Alone (s : State) : Prop where
  owner : ∀ d, (s.channels d).phase.owns = true → s.files (s.channels d).endpoint = some d
  one : ∀ d d', (s.channels d).phase.settles = true → (s.channels d').phase.settles = true →
    (s.channels d').endpoint = (s.channels d).endpoint → d' = d
  stale : ∀ d d', (s.channels d).phase = .removing → (s.channels d').phase.owns = true →
    (s.channels d').endpoint ≠ (s.channels d).endpoint
  free : ∀ d, (s.channels d).phase = .rebinding → s.files (s.channels d).endpoint = none

/-- A step that takes no name. -/
structure Channel.Leaves (ch ch' : Channel) : Prop where
  endpoint : ch'.endpoint = ch.endpoint
  owns : ch'.phase.owns = true → ch.phase.owns = true
  settles : ch'.phase.settles = true → ch.phase.settles = true
  removing : ch'.phase = .removing → ch.phase = .removing
  rebinding : ch'.phase = .rebinding → ch.phase = .rebinding

namespace Channel.Leaves

theorem same (hendpoint : ch'.endpoint = ch.endpoint) (hphase : ch'.phase = ch.phase) :
    ch.Leaves ch' := by
  refine ⟨hendpoint, ?_, ?_, ?_, ?_⟩
  all_goals
    rw [hphase]
    exact id

/-- One that has the name or never will. -/
theorem on (hendpoint : ch'.endpoint = ch.endpoint)
    (howns : ch'.phase.owns = true → ch.phase.owns = true)
    (hsettles : ch'.phase.settles = false) : ch.Leaves ch' := by
  refine ⟨hendpoint, howns, ?_, ?_, ?_⟩
  · simp [hsettles]
  all_goals
    intro hphase
    simp [hphase, Phase.settles] at hsettles

end Channel.Leaves

namespace Alone

/-- What each channel leaves, of whatever else the step changes. -/
theorem leaves (a : Alone s) {t : State} (hfiles : t.files = s.files)
    (hleaves : ∀ d, (s.channels d).Leaves (t.channels d)) : Alone t := by
  constructor
  · intro d howns
    rw [hfiles, (hleaves d).endpoint]
    exact a.owner d ((hleaves d).owns howns)
  · intro d d' hsettles hsettles' heq
    rw [(hleaves d).endpoint, (hleaves d').endpoint] at heq
    exact a.one d d' ((hleaves d).settles hsettles) ((hleaves d').settles hsettles') heq
  · intro d d' hremoving howns
    rw [(hleaves d).endpoint, (hleaves d').endpoint]
    exact a.stale d d' ((hleaves d).removing hremoving) ((hleaves d').owns howns)
  · intro d hrebinding
    rw [hfiles, (hleaves d).endpoint]
    exact a.free d ((hleaves d).rebinding hrebinding)

theorem setChannel (a : Alone s) (hleaves : (s.channels d).Leaves ch') :
    Alone (s.setChannel d ch') := by
  refine a.leaves rfl ?_
  intro other
  by_cases heq : other = d
  · subst heq
    rw [State.setChannel_self]
    exact hleaves
  · rw [State.setChannel_of_ne s ch' heq]
    exact .same rfl rfl

theorem setPhase (a : Alone s) {before phase : Phase} (hp : (s.channels d).phase = before)
    (howns : phase.owns = true → before.owns = true) (hsettles : phase.settles = false) :
    Alone (s.setPhase d phase) := by
  subst hp
  exact a.setChannel (.on rfl howns hsettles)

/-- Who settles after a step that only settles on. -/
theorem settled {phase : Phase} {other : Daemon}
    (hsettles : phase.settles = true → (s.channels d).phase.settles = true)
    (hother : ((s.setPhase d phase).channels other).phase.settles = true) :
    (s.channels other).phase.settles = true := by
  by_cases heq : other = d
  · subst heq
    rw [State.setPhase_self] at hother
    exact hsettles hother
  · rw [State.setPhase_of_ne s phase heq] at hother
    exact hother

/-- Whoever starts to settle does so alone. -/
theorem finds (a : Alone s) (endpoint : Endpoint)
    (hp : (s.channels d).phase.owns = false)
    (halone : ∀ other, other ≠ d → (s.channels other).endpoint = endpoint →
      (s.channels other).phase.settles = false) :
    Alone (s.setChannel d { s.channels d with phase := .binding, endpoint }) := by
  constructor
  · intro other howns
    by_cases heq : other = d
    · subst heq
      simp [Phase.owns] at howns
    · rw [State.setChannel_of_ne s _ heq] at howns ⊢
      exact a.owner other howns
  · intro other other' hsettles hsettles' heq
    by_cases hother : other = d
    · subst hother
      by_contra hne
      rw [State.setChannel_of_ne s _ hne] at hsettles' heq
      rw [State.setChannel_self] at heq
      simp [halone other' hne heq] at hsettles'
    · rw [State.setChannel_of_ne s _ hother] at hsettles heq
      by_cases hother' : other' = d
      · subst hother'
        rw [State.setChannel_self] at heq
        simp [halone other hother heq.symm] at hsettles
      · rw [State.setChannel_of_ne s _ hother'] at hsettles' heq
        exact a.one other other' hsettles hsettles' heq
  · intro other other' hremoving howns
    have hother : other ≠ d := by
      rintro rfl
      simp at hremoving
    have hother' : other' ≠ d := by
      rintro rfl
      simp [Phase.owns] at howns
    rw [State.setChannel_of_ne s _ hother] at hremoving ⊢
    rw [State.setChannel_of_ne s _ hother'] at howns ⊢
    exact a.stale other other' hremoving howns
  · intro other hrebinding
    have hother : other ≠ d := by
      rintro rfl
      simp at hrebinding
    rw [State.setChannel_of_ne s _ hother] at hrebinding ⊢
    exact a.free other hrebinding

/-- One that settles goes on to. -/
theorem goesOn (a : Alone s) {before phase : Phase} (hp : (s.channels d).phase = before)
    (hbefore : before.settles = true) (howns : phase.owns = false)
    (hstale : phase = .removing → ∀ other, (s.channels other).phase.owns = true →
      (s.channels other).endpoint ≠ (s.channels d).endpoint)
    (hrebinding : phase ≠ .rebinding) : Alone (s.setPhase d phase) := by
  subst hp
  constructor
  · intro other hother
    by_cases heq : other = d
    · simp [heq, howns] at hother
    · rw [State.setPhase_of_ne s phase heq] at hother ⊢
      exact a.owner other hother
  · intro other other' hsettles hsettles' heq
    simp only [State.setPhase_endpoint] at heq
    exact a.one other other' (settled (fun _ => hbefore) hsettles)
      (settled (fun _ => hbefore) hsettles') heq
  · intro other other' hremoving hother'
    simp only [State.setPhase_endpoint]
    have hne' : other' ≠ d := by
      rintro rfl
      simp [howns] at hother'
    rw [State.setPhase_of_ne s phase hne'] at hother'
    by_cases heq : other = d
    · subst heq
      rw [State.setPhase_self] at hremoving
      exact hstale hremoving other' hother'
    · rw [State.setPhase_of_ne s phase heq] at hremoving
      exact a.stale other other' hremoving hother'
  · intro other hother
    have hne : other ≠ d := by
      rintro rfl
      rw [State.setPhase_self] at hother
      exact hrebinding hother
    rw [State.setPhase_of_ne s phase hne] at hother ⊢
    exact a.free other hother

theorem takes (a : Alone s) (hsettles : (s.channels d).phase.settles = true)
    (hfree : s.files (s.channels d).endpoint = none) :
    Alone { s.setPhase d .bound with
      files := Function.update s.files (s.channels d).endpoint (some d) } := by
  constructor
  · intro other howns
    by_cases heq : other = d
    · simp [heq]
    · have howns : (s.channels other).phase.owns = true := by
        rw [← State.setPhase_of_ne s .bound heq]
        exact howns
      have hfile := a.owner other howns
      have hne : (s.channels other).endpoint ≠ (s.channels d).endpoint := by
        intro hsame
        simp [hsame, hfree] at hfile
      simp only [State.setPhase_endpoint, Function.update_of_ne hne]
      exact hfile
  · intro other other' hother hother' heq
    simp only [State.setPhase_endpoint] at heq
    exact a.one other other' (settled (fun _ => hsettles) hother)
      (settled (fun _ => hsettles) hother') heq
  · intro other other' hremoving howns
    have hne : other ≠ d := by
      rintro rfl
      simp at hremoving
    have hbefore : (s.channels other).phase = .removing := by
      rw [← State.setPhase_of_ne s .bound hne]
      exact hremoving
    simp only [State.setPhase_endpoint]
    by_cases heq : other' = d
    · subst heq
      intro hsame
      exact hne (a.one other' other hsettles (by rw [hbefore]; rfl) hsame.symm)
    · have howns : (s.channels other').phase.owns = true := by
        rw [← State.setPhase_of_ne s .bound heq]
        exact howns
      exact a.stale other other' hbefore howns
  · intro other hrebinding
    have hne : other ≠ d := by
      rintro rfl
      simp at hrebinding
    have hrebinding : (s.channels other).phase = .rebinding := by
      rw [← State.setPhase_of_ne s .bound hne]
      exact hrebinding
    have hother : (s.channels other).endpoint ≠ (s.channels d).endpoint := by
      intro hsame
      exact hne (a.one d other hsettles (by rw [hrebinding]; rfl) hsame)
    simp only [State.setPhase_endpoint, Function.update_of_ne hother]
    exact a.free other hrebinding

/-- The name removed is nobody's, or its own. -/
theorem unlink (a : Alone s) {phase : Phase} (howns : phase.owns = false)
    (hsettles : phase.settles = true → (s.channels d).phase.settles = true)
    (hremoving : phase ≠ .removing)
    (halone : ∀ other, other ≠ d → (s.channels other).phase.owns = true →
      (s.channels other).endpoint ≠ (s.channels d).endpoint) : Alone (s.unlink d phase) := by
  unfold State.unlink
  constructor
  · intro other hother
    have hne : other ≠ d := by
      rintro rfl
      simp [howns] at hother
    have hother : (s.channels other).phase.owns = true := by
      rw [← State.setPhase_of_ne s phase hne]
      exact hother
    simp only [State.setPhase_endpoint, Function.update_of_ne (halone other hne hother)]
    exact a.owner other hother
  · intro other other' hother hother' heq
    have hother : ((s.setPhase d phase).channels other).phase.settles = true := hother
    have hother' : ((s.setPhase d phase).channels other').phase.settles = true := hother'
    simp only [State.setPhase_endpoint] at heq
    exact a.one other other' (settled hsettles hother) (settled hsettles hother') heq
  · intro other other' hother hother'
    have hne : other ≠ d := by
      rintro rfl
      rw [State.setPhase_self] at hother
      exact hremoving hother
    have hne' : other' ≠ d := by
      rintro rfl
      simp [howns] at hother'
    have hbefore : (s.channels other).phase = .removing := by
      rw [← State.setPhase_of_ne s phase hne]
      exact hother
    have hbefore' : (s.channels other').phase.owns = true := by
      rw [← State.setPhase_of_ne s phase hne']
      exact hother'
    simp only [State.setPhase_endpoint]
    exact a.stale other other' hbefore hbefore'
  · intro other hother
    simp only [State.setPhase_endpoint]
    by_cases heq : (s.channels other).endpoint = (s.channels d).endpoint
    · rw [heq, Function.update_self]
    · have hne : other ≠ d := by
        rintro rfl
        exact heq rfl
      have hother : (s.channels other).phase = .rebinding := by
        rw [← State.setPhase_of_ne s phase hne]
        exact hother
      rw [Function.update_of_ne heq]
      exact a.free other hother

/-- Who owns a name that nobody is reached by has yet to listen. -/
theorem unreached (a : Alone s) (hsettles : (s.channels d).phase.settles = true)
    (howns : (s.channels d).phase.owns = false)
    (hreaches : s.reaches (s.channels d).endpoint = none) (other : Daemon)
    (hother : (s.channels other).phase.owns = true) :
    (s.channels other).endpoint ≠ (s.channels d).endpoint := by
  intro heq
  have hfile := a.owner other hother
  rw [heq] at hfile
  have hlistens : (s.channels other).phase.listens = false := by
    simpa [State.reaches, hfile] using hreaches
  have hbound : (s.channels other).phase.settles = true := by
    cases hp : (s.channels other).phase with
    | bound => rfl
    | listening | serving | unmounting | unmounted | stopping | unlinking =>
      simp [hp, Phase.listens] at hlistens
    | _ => simp [hp, Phase.owns] at hother
  obtain rfl := a.one d other hsettles hbound heq
  simp [howns] at hother

theorem step (a : Alone s) (he : enabled s e) (hok : alone s e) :
    Alone (UnmountChannel.step s e) := by
  cases e with
  | mounts d | disables d | listens d | watches d | unmounts d | stopsWatch d | closes d =>
    have hp : (s.channels d).phase = _ := he
    exact a.setChannel (.on rfl (by simp [hp, Phase.owns]) rfl)
  | stops d asked | joins d | released d =>
    have hp : (s.channels d).phase = _ := he.1
    exact a.setChannel (.on rfl (by simp [hp, Phase.owns]) rfl)
  | finds d key =>
    have hp : (s.channels d).phase = .mounted := he
    exact a.finds (endpointId key) (by rw [hp]; rfl) hok
  | binds d =>
    have hp : (s.channels d).phase = .binding := he
    dsimp only [UnmountChannel.step, State.bind]
    split
    · next hfree => exact a.takes (by rw [hp]; rfl) hfree
    · exact a.goesOn hp rfl rfl (fun h => by cases h) (fun h => by cases h)
  | probes d =>
    have hp : (s.channels d).phase = .probing := he
    dsimp only [UnmountChannel.step]
    split
    · have hfailed : (s.channels d).Leaves (s.channels d).fail :=
        .on rfl (fun h => by cases h) rfl
      exact (a.setChannel hfailed).setChannel (.same rfl rfl)
    · next hreaches =>
      have hother := a.unreached (by rw [hp]; rfl) (by rw [hp]; rfl) hreaches
      exact a.goesOn hp rfl rfl (fun _ => hother) (fun h => by cases h)
  | probeFails d =>
    have hp : (s.channels d).phase = .probing := he
    have hother := a.unreached (by rw [hp]; rfl) (by rw [hp]; rfl) hok
    exact a.goesOn hp rfl rfl (fun _ => hother) (fun h => by cases h)
  | removes d =>
    have hp : (s.channels d).phase = .removing := he
    exact a.unlink rfl (fun _ => by rw [hp]; rfl) (fun h => by cases h)
      fun other _ => a.stale d other hp
  | rebinds d =>
    have hp : (s.channels d).phase = .rebinding := he
    have hfree := a.free d hp
    simp only [UnmountChannel.step, State.bind, hfree]
    exact a.takes (by rw [hp]; rfl) hfree
  | unlinks d =>
    have hp : (s.channels d).phase = .unlinking := he
    have hfile := a.owner d (by rw [hp]; rfl)
    apply a.unlink rfl (fun h => by cases h) (fun h => by cases h)
    intro other hne hother heq
    have hfile' := a.owner other hother
    rw [heq, hfile] at hfile'
    exact hne (Option.some.inj hfile').symm
  | listenThrows d | unwinds d | exits d | dies d =>
    exact a.setChannel (.on rfl (fun h => by cases h) rfl)
  | releases d | ready d | accepts d | drained d | acceptFails d =>
    exact a.setChannel (.same rfl rfl)
  | keeps d tracked =>
    apply a.setChannel
    cases tracked with
    | true => exact .same rfl rfl
    | false => exact .same rfl rfl
  | asks c key | asksNowhere c | refused c | connectFails c | recvFails c =>
    exact ⟨a.owner, a.one, a.stale, a.free⟩
  | connects c =>
    dsimp only [UnmountChannel.step]
    split
    · split
      · next endpoint _ d _ =>
        have hqueued : Alone (s.queue d (.client c)) := a.setChannel (.same rfl rfl)
        exact ⟨hqueued.owner, hqueued.one, hqueued.stale, hqueued.free⟩
      · exact a
    · exact a
  | returns c =>
    dsimp only [UnmountChannel.step]
    split
    · exact ⟨a.owner, a.one, a.stale, a.free⟩
    · exact a

theorem of_reachable (h : machine.Reachable alone s) : Alone s := by
  apply h.invariant
  · rintro s rfl
    constructor
    all_goals simp [Phase.owns, Phase.settles]
  · exact fun s e a he hok => a.step he hok

end Alone

/-- One mount at a time has the endpoint of a mountpoint, and as long as it listens there whoever
asks for that mountpoint reaches it. -/
theorem one_serves (h : machine.Reachable alone s) (howns : (s.channels d).phase.owns = true) :
    (∀ other, (s.channels other).phase.owns = true →
      (s.channels other).endpoint = (s.channels d).endpoint → other = d) ∧
    ((s.channels d).phase.listens = true →
      ∀ c, s.requests c = .connecting (s.channels d).endpoint →
        ¬ enabled s (.refused c) ∧ enabled s (.connects c) ∧
          (step s (.connects c)).requests c = .waiting (s.channels d).endpoint d) := by
  have a := Alone.of_reachable h
  have hfile := a.owner d howns
  constructor
  · intro other hother heq
    have hfile' := a.owner other hother
    rw [heq, hfile] at hfile'
    exact (Option.some.inj hfile').symm
  · intro hlistens c hrequest
    have hreaches : s.reaches (s.channels d).endpoint = some d := by
      simp [State.reaches, hfile, hlistens]
    refine ⟨?_, ⟨_, hrequest, by simp [hreaches]⟩, ?_⟩
    · rintro ⟨endpoint, hconnecting, hnone⟩
      rw [hrequest] at hconnecting
      obtain rfl := Request.connecting.inj hconnecting
      simp [hreaches] at hnone
    · simp [step, hrequest, hreaches, State.queue, State.setChannel, State.setRequest]

/-- A mount that finds what an earlier one, which died, has left, and is then asked to stop. -/
def replaced : List Event :=
  [.mounts 0, .finds 0 [], .binds 0, .listens 0, .watches 0, .dies 0, .mounts 1, .finds 1 [],
    .binds 1, .probes 1, .removes 1, .rebinds 1, .listens 1, .asks 0 []]

theorem replaced_fires : machine.Fires alone {} replaced := by
  refine ⟨rfl, trivial, rfl, ?_, rfl, trivial, rfl, trivial, rfl, trivial, ⟨?_, ?_⟩, trivial, rfl,
    trivial, rfl, ?_, rfl, trivial, rfl, trivial, rfl, trivial, rfl, trivial, rfl, trivial, rfl,
    trivial, trivial⟩
  · intro other hne _
    simp only [machine, step, State.setPhase, State.setChannel_of_ne _ _ hne]
    rfl
  · exact fun h => by cases h
  · exact fun h => by cases h
  · intro other hne _
    by_cases heq : other = 0
    · subst heq
      rfl
    · simp [machine, step, State.bind, State.setPhase, State.setChannel, heq, hne, Phase.settles]

/-- It replaces what the earlier one has left, and a request reaches it. -/
theorem replaced_serves :
    (machine.runs {} replaced).files (endpointId []) = some 1 ∧
      ¬ enabled (machine.runs {} replaced) (.refused 0) ∧
      (step (machine.runs {} replaced) (.connects 0)).requests 0 =
        .waiting (endpointId []) 1 := by
  have hreachable : machine.Reachable alone (machine.runs {} replaced) :=
    .runs (.start rfl) replaced_fires
  obtain ⟨_, hreaches⟩ := one_serves (d := 1) hreachable rfl
  obtain ⟨hrefused, _, hwaits⟩ := hreaches rfl 0 rfl
  exact ⟨rfl, hrefused, hwaits⟩

end MakeBelieve.UnmountChannel
