import MakeBelieve.UnmountChannel.State

namespace MakeBelieve.UnmountChannel

open Library

variable {s : State} {e : Event} {d : Daemon} {c : Client} {ch ch' : Channel} {endpoint : Endpoint}

/-! ### One channel -/

/-- Its name may be its own: it has bound it, and has yet to remove it, if it ever does. -/
def Phase.named : Phase → Bool
  | .bound | .listening | .serving | .unmounting | .unmounted | .stopping | .unlinking | .failed
  | .exited => true
  | _ => false

/-- It lets go of whoever waits for it, as the last it does. -/
def Phase.letsGo : Phase → Bool
  | .releasing | .destroyed | .failed | .exited => true
  | _ => false

/-- Its watch was started. -/
def Phase.watched : Phase → Bool
  | .serving | .unmounting | .unmounted | .stopping | .unlinking | .closing | .releasing
  | .destroyed => true
  | _ => false

/-- Its watch may be in `accept_pokes`. -/
def Phase.watches : Phase → Bool
  | .serving | .unmounting | .unmounted | .stopping => true
  | _ => false

theorem Phase.watches_of_unwatched {phase : Phase} (h : phase.watched = false) :
    phase.watches = false := by
  cases phase with
  | serving | unmounting | unmounted | stopping => simp [Phase.watched] at h
  | _ => rfl

theorem Phase.unwatched_of_constructs {phase : Phase} (h : phase.constructs = true) :
    phase.watched = false := by
  cases phase with
  | mounted | binding | probing | removing | rebinding | bound | listening => rfl
  | _ => simp [Phase.constructs] at h

structure Channel.Sound (ch : Channel) : Prop where
  queued : ch.backlog ≠ [] → ch.phase.listens = true
  accepting : ch.accepting = true → ch.phase.watches = true
  taken : ch.taken.isSome = true → ch.accepting = true
  watched : ch.phase.watched = false → ch.clients = [] ∧ ch.untracked = []
  asked : ch.clients ≠ [] ∨ ch.untracked ≠ [] → ch.asked = true

/-- A step of one that keeps its name until it removes it, and who waits until it lets go. -/
structure Channel.Moves (ch ch' : Channel) : Prop where
  endpoint : ch'.endpoint = ch.endpoint
  named : ch.phase.named = true → ch'.phase.named = true
  letsGo : ch.phase.letsGo = true → ch'.phase.letsGo = true
  holds : ∀ conn, ch.Holds conn → ch'.Holds conn ∨ ch'.phase.letsGo = true

namespace Channel.Sound

theorem start : ({} : Channel).Sound := by
  constructor
  all_goals simp

/-- A step of the constructor, before the socket listens, which holds nothing. -/
theorem constructs (h : ch.Sound) (hlistens : ch.phase.listens = false)
    (hwatched : ch.phase.watched = false) (conn : Conn) : ¬ ch.Holds conn := by
  have hwatches := Phase.watches_of_unwatched hwatched
  rintro (hconn | hconn | hconn | hconn)
  · have hqueued := h.queued (List.ne_nil_of_mem hconn)
    simp [hlistens] at hqueued
  · have haccepting := h.accepting (h.taken (by simp [hconn]))
    simp [hwatches] at haccepting
  · simp [(h.watched hwatched).1] at hconn
  · simp [(h.watched hwatched).2] at hconn

/-- A step that moves on. -/
theorem phase (h : ch.Sound) (phase : Phase)
    (hlistens : ch.phase.listens = true → phase.listens = true ∨ ch.backlog = [])
    (hwatches : ch.phase.watches = true → phase.watches = true ∨ ch.accepting = false)
    (hwatched : ch.phase.watched = true → phase.watched = true) :
    ({ ch with phase } : Channel).Sound := by
  constructor
  · intro hbacklog
    exact (hlistens (h.queued hbacklog)).resolve_right hbacklog
  · intro haccepting
    have haccepting : ch.accepting = true := haccepting
    exact (hwatches (h.accepting haccepting)).resolve_right (by simp [haccepting])
  · exact h.taken
  · intro hunwatched
    apply h.watched
    rw [← Bool.not_eq_true]
    intro hbefore
    simp [hwatched hbefore] at hunwatched
  · exact h.asked

theorem exit : ch.exit.Sound := by
  constructor
  all_goals simp [Channel.exit]

end Channel.Sound

/-! ### Every channel -/

/-- Names are of those who have bound them, and whoever has connected is held until let go. -/
structure Kept (s : State) : Prop where
  sound : ∀ d, (s.channels d).Sound
  named : ∀ endpoint d, s.files endpoint = some d →
    (s.channels d).endpoint = endpoint ∧ (s.channels d).phase.named = true
  waiting : ∀ c endpoint d, s.requests c = .waiting endpoint d →
    (s.channels d).endpoint = endpoint ∧
      ((s.channels d).Holds (.client c) ∨ (s.channels d).phase.letsGo = true)
  ok : ∀ c endpoint d, s.requests c = .ok endpoint d →
    (s.channels d).endpoint = endpoint ∧ (s.channels d).phase.letsGo = true

namespace Kept

theorem sounds (k : Kept s) (hsound : ch'.Sound) (other : Daemon) :
    ((s.setChannel d ch').channels other).Sound := by
  by_cases heq : other = d
  · rw [heq, State.setChannel_self]
    exact hsound
  · rw [State.setChannel_of_ne s ch' heq]
    exact k.sound other

theorem move (k : Kept s) (hsound : ch'.Sound) (hmoves : (s.channels d).Moves ch') :
    Kept (s.setChannel d ch') := by
  constructor
  · exact k.sounds hsound
  · intro endpoint other hfile
    have hnamed := k.named endpoint other hfile
    by_cases heq : other = d
    · subst heq
      rw [State.setChannel_self, hmoves.endpoint]
      exact ⟨hnamed.1, hmoves.named hnamed.2⟩
    · rw [State.setChannel_of_ne s ch' heq]
      exact hnamed
  · intro c endpoint other hrequest
    have hwaiting := k.waiting c endpoint other hrequest
    by_cases heq : other = d
    · subst heq
      rw [State.setChannel_self, hmoves.endpoint]
      refine ⟨hwaiting.1, ?_⟩
      obtain hholds | hletsGo := hwaiting.2
      · exact hmoves.holds _ hholds
      · exact .inr (hmoves.letsGo hletsGo)
    · rw [State.setChannel_of_ne s ch' heq]
      exact hwaiting
  · intro c endpoint other hrequest
    have hok := k.ok c endpoint other hrequest
    by_cases heq : other = d
    · subst heq
      rw [State.setChannel_self, hmoves.endpoint]
      exact ⟨hok.1, hmoves.letsGo hok.2⟩
    · rw [State.setChannel_of_ne s ch' heq]
      exact hok

/-- A step on to a phase that keeps all there is. -/
theorem moved (k : Kept s) {phase : Phase} {before : Phase} (hp : (s.channels d).phase = before)
    (hlistens : before.listens = true → phase.listens = true)
    (hwatches : before.watches = true → phase.watches = true ∨ (s.channels d).accepting = false)
    (hwatched : before.watched = true → phase.watched = true)
    (hnamed : before.named = true → phase.named = true)
    (hletsGo : before.letsGo = true → phase.letsGo = true) : Kept (s.setPhase d phase) := by
  subst hp
  apply k.move
  · exact (k.sound d).phase phase (fun h => .inl (hlistens h)) hwatches hwatched
  · exact ⟨rfl, hnamed, hletsGo, fun conn hconn => .inl hconn⟩

/-- One that nobody can know of may take any name. -/
theorem finds (k : Kept s) (hp : (s.channels d).phase = .mounted) (endpoint : Endpoint) :
    Kept (s.setChannel d { s.channels d with phase := .binding, endpoint }) := by
  have hnone := (k.sound d).constructs (by rw [hp]; rfl) (by rw [hp]; rfl)
  constructor
  · apply k.sounds
    have hsound := (k.sound d).phase .binding (by simp [hp, Phase.listens])
      (by simp [hp, Phase.watches]) (by simp [hp, Phase.watched])
    exact ⟨hsound.queued, hsound.accepting, hsound.taken, hsound.watched, hsound.asked⟩
  · intro other d' hfile
    have hnamed := k.named other d' hfile
    have hne : d' ≠ d := by
      rintro rfl
      simp [hp, Phase.named] at hnamed
    rw [State.setChannel_of_ne s _ hne]
    exact hnamed
  · intro c other d' hrequest
    have hwaiting := k.waiting c other d' hrequest
    have hne : d' ≠ d := by
      rintro rfl
      simp [hp, Phase.letsGo, hnone] at hwaiting
    rw [State.setChannel_of_ne s _ hne]
    exact hwaiting
  · intro c other d' hrequest
    have hok := k.ok c other d' hrequest
    have hne : d' ≠ d := by
      rintro rfl
      simp [hp, Phase.letsGo] at hok
    rw [State.setChannel_of_ne s _ hne]
    exact hok

theorem bind (k : Kept s) {before taken : Phase} (hp : (s.channels d).phase = before)
    (hlistens : before.listens = false) (hwatched : before.watched = false)
    (hnamed : before.named = false) (hletsGo : before.letsGo = false) :
    Kept (s.bind d taken) := by
  have hwatches := Phase.watches_of_unwatched hwatched
  have hmoved : ∀ phase, Kept (s.setPhase d phase) := fun phase =>
    k.moved hp (by simp [hlistens]) (by simp [hwatches]) (by simp [hwatched]) (by simp [hnamed])
      (by simp [hletsGo])
  unfold State.bind
  dsimp only
  split
  · have hbound := hmoved .bound
    constructor
    · exact hbound.sound
    · intro endpoint other hfile
      by_cases heq : endpoint = (s.channels d).endpoint
      · subst heq
        simp only [Function.update_self, Option.some.injEq] at hfile
        subst hfile
        simp [State.setPhase, Phase.named]
      · simp only [Function.update_of_ne heq] at hfile
        exact hbound.named endpoint other hfile
    · exact hbound.waiting
    · exact hbound.ok
  · exact hmoved taken

/-- Whoever's name it is, no name is left that it has bound. -/
theorem unlink (k : Kept s) {before phase : Phase} (hp : (s.channels d).phase = before)
    (hlistens : before.listens = true → phase.listens = true)
    (hwatches : before.watches = false)
    (hwatched : before.watched = true → phase.watched = true)
    (hletsGo : before.letsGo = true → phase.letsGo = true) : Kept (s.unlink d phase) := by
  subst hp
  have hsound := (k.sound d).phase phase (fun h => .inl (hlistens h)) (by simp [hwatches]) hwatched
  unfold State.unlink
  constructor
  · exact k.sounds hsound
  · intro endpoint other hfile
    by_cases heq : endpoint = (s.channels d).endpoint
    · simp [heq] at hfile
    · simp only [Function.update_of_ne heq] at hfile
      have hfile : s.files endpoint = some other := hfile
      have hnamed := k.named endpoint other hfile
      have hne : other ≠ d := by
        rintro rfl
        exact heq hnamed.1.symm
      change ((s.setPhase d phase).channels other).endpoint = _ ∧
        ((s.setPhase d phase).channels other).phase.named = true
      rw [State.setPhase, State.setChannel_of_ne s _ hne]
      exact hnamed
  · intro c endpoint other hrequest
    have hwaiting := k.waiting c endpoint other hrequest
    change ((s.setPhase d phase).channels other).endpoint = _ ∧
      (((s.setPhase d phase).channels other).Holds _ ∨
        ((s.setPhase d phase).channels other).phase.letsGo = true)
    by_cases heq : other = d
    · subst heq
      rw [State.setPhase, State.setChannel_self]
      exact ⟨hwaiting.1, hwaiting.2.imp_right hletsGo⟩
    · rw [State.setPhase, State.setChannel_of_ne s _ heq]
      exact hwaiting
  · intro c endpoint other hrequest
    have hok := k.ok c endpoint other hrequest
    change ((s.setPhase d phase).channels other).endpoint = _ ∧
      ((s.setPhase d phase).channels other).phase.letsGo = true
    by_cases heq : other = d
    · subst heq
      rw [State.setPhase, State.setChannel_self]
      exact ⟨hok.1, hletsGo hok.2⟩
    · rw [State.setPhase, State.setChannel_of_ne s _ heq]
      exact hok

theorem unwatched (k : Kept s) (hwatches : (s.channels d).phase.watches = false) :
    (s.channels d).accepting = false := by
  rw [← Bool.not_eq_true]
  intro haccepting
  simp [(k.sound d).accepting haccepting] at hwatches

theorem fail (k : Kept s) (hconstructs : (s.channels d).phase.constructs = true) :
    Kept (s.setChannel d (s.channels d).fail) := by
  have hwatched := Phase.unwatched_of_constructs hconstructs
  have haccepting := k.unwatched (Phase.watches_of_unwatched hwatched)
  apply k.move
  · constructor
    · intro hbacklog
      exact absurd rfl hbacklog
    · intro haccepts
      exact absurd haccepts (by simp [Channel.fail, haccepting])
    · exact (k.sound d).taken
    · exact fun _ => (k.sound d).watched hwatched
    · exact (k.sound d).asked
  · exact ⟨rfl, fun _ => rfl, fun _ => rfl, fun _ _ => .inr rfl⟩

theorem queue (k : Kept s) (hlistens : (s.channels d).phase.listens = true) (conn : Conn) :
    Kept (s.queue d conn) := by
  apply k.move
  · have hsound := k.sound d
    exact ⟨fun _ => hlistens, hsound.accepting, hsound.taken, hsound.watched, hsound.asked⟩
  · refine ⟨rfl, id, id, ?_⟩
    intro other hholds
    left
    exact hholds.imp_left fun hmem => List.mem_append_left _ hmem

theorem request (k : Kept s) {request : Request}
    (hwaiting : ∀ endpoint d, request = .waiting endpoint d →
      (s.channels d).endpoint = endpoint ∧
        ((s.channels d).Holds (.client c) ∨ (s.channels d).phase.letsGo = true))
    (hok : ∀ endpoint d, request = .ok endpoint d →
      (s.channels d).endpoint = endpoint ∧ (s.channels d).phase.letsGo = true) :
    Kept (s.setRequest c request) := by
  constructor
  · exact k.sound
  · exact k.named
  · intro other endpoint d hrequest
    by_cases heq : other = c
    · subst heq
      simp only [State.setRequest, Function.update_self] at hrequest
      exact hwaiting endpoint d hrequest
    · simp only [State.setRequest, Function.update_of_ne heq] at hrequest
      exact k.waiting other endpoint d hrequest
  · intro other endpoint d hrequest
    by_cases heq : other = c
    · subst heq
      simp only [State.setRequest, Function.update_self] at hrequest
      exact hok endpoint d hrequest
    · simp only [State.setRequest, Function.update_of_ne heq] at hrequest
      exact k.ok other endpoint d hrequest

theorem reaches_some {endpoint : Endpoint} (h : s.reaches endpoint = some d) :
    s.files endpoint = some d ∧ (s.channels d).phase.listens = true := by
  exact Option.filter_eq_some_iff.mp h

/-- The watch moves a connection on, and lets go of none. -/
theorem watch (k : Kept s) (hwatches : (s.channels d).phase.watches = true)
    (hphase : ch'.phase = (s.channels d).phase) (hendpoint : ch'.endpoint = (s.channels d).endpoint)
    (hbacklog : ch'.backlog ≠ [] → (s.channels d).backlog ≠ [])
    (htaken : ch'.taken.isSome = true → ch'.accepting = true)
    (hasked : ch'.clients ≠ [] ∨ ch'.untracked ≠ [] → ch'.asked = true)
    (hholds : ∀ conn, (s.channels d).Holds conn → ch'.Holds conn) : Kept (s.setChannel d ch') := by
  have hwatched : (s.channels d).phase.watched = true := by
    cases hp : (s.channels d).phase with
    | serving | unmounting | unmounted | stopping => rfl
    | _ => simp [hp, Phase.watches] at hwatches
  apply k.move
  · constructor
    · intro h
      rw [hphase]
      exact (k.sound d).queued (hbacklog h)
    · intro _
      rw [hphase]
      exact hwatches
    · exact htaken
    · intro h
      rw [hphase, hwatched] at h
      simp at h
    · exact hasked
  · refine ⟨hendpoint, ?_, ?_, fun conn h => .inl (hholds conn h)⟩
    all_goals
      rw [hphase]
      exact id

theorem step (k : Kept s) (he : enabled s e) : Kept (UnmountChannel.step s e) := by
  cases e with
  | mounts d | disables d | listens d | watches d | unmounts d | stopsWatch d =>
    have hp : (s.channels d).phase = _ := he
    exact k.moved hp (by simp [Phase.listens]) (by simp [Phase.watches]) (by simp [Phase.watched])
      (by simp [Phase.named]) (by simp [Phase.letsGo])
  | finds d key => exact k.finds he (endpointId key)
  | binds d | rebinds d => exact k.bind he rfl rfl rfl rfl
  | probes d =>
    have hp : (s.channels d).phase = .probing := he
    dsimp only [UnmountChannel.step]
    split
    · next other hreaches =>
      obtain ⟨_, hlistens⟩ := reaches_some hreaches
      have hne : other ≠ d := by
        rintro rfl
        simp [hp, Phase.listens] at hlistens
      apply (k.fail (by rw [hp]; rfl)).queue
      rw [State.setChannel_of_ne s _ hne]
      exact hlistens
    · exact k.moved hp (by simp [Phase.listens]) (by simp [Phase.watches])
        (by simp [Phase.watched]) (by simp [Phase.named]) (by simp [Phase.letsGo])
  | probeFails d =>
    exact k.moved he (by simp [Phase.listens]) (by simp [Phase.watches])
      (by simp [Phase.watched]) (by simp [Phase.named]) (by simp [Phase.letsGo])
  | removes d | unlinks d =>
    exact k.unlink he (by simp [Phase.listens]) rfl (by simp [Phase.watched])
      (by simp [Phase.letsGo])
  | listenThrows d => exact k.fail he
  | stops d asked =>
    exact k.moved he.1 (by simp [Phase.listens]) (by simp [Phase.watches])
      (by simp [Phase.watched]) (by simp [Phase.named]) (by simp [Phase.letsGo])
  | joins d =>
    exact k.moved he.1 (by simp [Phase.listens]) (fun _ => .inr he.2)
      (by simp [Phase.watched]) (by simp [Phase.named]) (by simp [Phase.letsGo])
  | closes d =>
    have hp : (s.channels d).phase = .closing := he
    have haccepting := k.unwatched (by rw [hp]; rfl)
    have hsound := k.sound d
    apply k.move
    · refine ⟨fun h => absurd rfl h, ?_, hsound.taken, (fun h => by cases h), hsound.asked⟩
      intro h
      exact absurd h (by simp [haccepting])
    · exact ⟨rfl, by simp [hp, Phase.named], fun _ => rfl, fun _ _ => .inr rfl⟩
  | releases d =>
    obtain ⟨hp, _⟩ := he
    have hsound := k.sound d
    apply k.move
    · refine ⟨hsound.queued, hsound.accepting, hsound.taken, ?_, ?_⟩
      · intro h
        simp [hp, Phase.watched] at h
      · intro h
        apply hsound.asked
        refine h.imp_left ?_
        rintro htail hnil
        simp [hnil] at htail
    · exact ⟨rfl, id, id, fun _ _ => .inr (by rw [hp]; rfl)⟩
  | released d =>
    exact k.moved he.1 (by simp [Phase.listens]) (by simp [Phase.watches])
      (by simp [Phase.watched]) (by simp [Phase.named]) (by simp [Phase.letsGo])
  | unwinds d | exits d | dies d =>
    exact k.move .exit ⟨rfl, fun _ => rfl, fun _ => rfl, fun _ _ => .inr rfl⟩
  | ready d =>
    have hsound := k.sound d
    have hwatches : (s.channels d).phase.watches = true := by
      obtain ⟨hp | hp | hp, _⟩ := he
      all_goals rw [hp]; rfl
    exact k.watch hwatches rfl rfl id (fun _ => rfl) hsound.asked fun _ => id
  | accepts d =>
    obtain ⟨haccepting, htaken, hbacklog⟩ := he
    have hsound := k.sound d
    obtain ⟨conn, rest, hcons⟩ := List.exists_cons_of_ne_nil hbacklog
    refine k.watch (hsound.accepting haccepting) rfl rfl (fun _ => hbacklog)
      (fun _ => haccepting) hsound.asked ?_
    rintro other (hmem | hother | hmem)
    · rw [hcons, List.mem_cons] at hmem
      obtain rfl | hmem := hmem
      · exact .inr (.inl (by rw [hcons]; rfl))
      · exact .inl (by rw [hcons]; exact hmem)
    · simp [htaken] at hother
    · exact .inr (.inr hmem)
  | keeps d tracked =>
    have hsound := k.sound d
    have haccepting := hsound.accepting (hsound.taken he)
    cases tracked with
    | true =>
      refine k.watch haccepting rfl rfl id (fun h => by cases h) (fun _ => rfl) ?_
      rintro other (hmem | hother | hmem | hmem)
      · exact .inl hmem
      · exact .inr (.inr (.inl (List.mem_append_right _ (by simp [hother]))))
      · exact .inr (.inr (.inl (List.mem_append_left _ hmem)))
      · exact .inr (.inr (.inr hmem))
    | false =>
      refine k.watch haccepting rfl rfl id (fun h => by cases h) (fun _ => rfl) ?_
      rintro other (hmem | hother | hmem | hmem)
      · exact .inl hmem
      · exact .inr (.inr (.inr (List.mem_append_right _ (by simp [hother]))))
      · exact .inr (.inr (.inl hmem))
      · exact .inr (.inr (.inr (List.mem_append_left _ hmem)))
  | drained d =>
    obtain ⟨haccepting, htaken, _⟩ := he
    have hsound := k.sound d
    exact k.watch (hsound.accepting haccepting) rfl rfl id (by simp [htaken]) hsound.asked
      fun _ => id
  | acceptFails d =>
    obtain ⟨haccepting, htaken⟩ := he
    have hsound := k.sound d
    exact k.watch (hsound.accepting haccepting) rfl rfl id (by simp [htaken]) (fun _ => rfl)
      fun _ => id
  | asks c key => exact k.request (fun _ _ h => by cases h) (fun _ _ h => by cases h)
  | connects c =>
    obtain ⟨endpoint, hrequest, hreached⟩ := he
    obtain ⟨d, hreaches⟩ := Option.isSome_iff_exists.mp hreached
    obtain ⟨hfile, hlistens⟩ := reaches_some hreaches
    have hqueued := k.queue hlistens (.client c)
    have hstep : UnmountChannel.step s (.connects c) =
        (s.queue d (.client c)).setRequest c (.waiting endpoint d) := by
      simp only [UnmountChannel.step, hrequest, hreaches]
      rfl
    rw [hstep]
    apply hqueued.request
    · intro endpoint' d' h
      obtain ⟨rfl, rfl⟩ := Request.waiting.inj h
      rw [State.queue, State.setChannel_self]
      exact ⟨(k.named endpoint d hfile).1, .inl (.inl (by simp))⟩
    · intro _ _ h
      cases h
  | asksNowhere c | refused c | connectFails c | recvFails c =>
    exact k.request (fun _ _ h => by cases h) (fun _ _ h => by cases h)
  | returns c =>
    obtain ⟨endpoint, d, hrequest, hholds⟩ := he
    obtain ⟨hendpoint, hwaiting⟩ := k.waiting c endpoint d hrequest
    simp only [UnmountChannel.step, hrequest]
    apply k.request
    · intro _ _ h
      cases h
    · intro endpoint' d' h
      obtain ⟨rfl, rfl⟩ := Request.ok.inj h
      exact ⟨hendpoint, hwaiting.resolve_left hholds⟩

theorem of_reachable {ok : State → Event → Prop} (h : machine.Reachable ok s) : Kept s := by
  apply h.invariant
  · rintro s rfl
    refine ⟨fun _ => .start, ?_, ?_, ?_⟩
    all_goals simp
  · exact fun s e k he _ => k.step he

end Kept

/-! ### Requests that end well -/

/-- A mount that is asked to stop, and goes to the end. -/
def unmounted : List Event :=
  [.mounts 0, .finds 0 [], .binds 0, .listens 0, .watches 0, .asks 0 [], .connects 0, .ready 0,
    .accepts 0, .keeps 0 true, .drained 0, .stops 0 true, .unmounts 0, .stopsWatch 0,
    .joins 0, .unlinks 0, .closes 0, .releases 0, .returns 0]

theorem unmounted_fires : machine.Fires (fun _ _ => True) {} unmounted := by
  refine ⟨rfl, trivial, rfl, trivial, rfl, trivial, rfl, trivial, rfl, trivial, rfl, trivial,
    ⟨_, rfl, rfl⟩, trivial, ⟨.inl rfl, rfl, ?_⟩, trivial, ⟨rfl, rfl, ?_⟩, trivial, rfl, trivial,
    ⟨rfl, rfl, rfl⟩, trivial, ⟨rfl, fun _ => rfl⟩, trivial, rfl, trivial, rfl, trivial, ⟨rfl, rfl⟩,
    trivial, rfl, trivial, rfl, trivial, ⟨rfl, ?_⟩, trivial, ⟨endpointId [], 0, rfl, ?_⟩, trivial,
    trivial⟩
  · exact List.cons_ne_nil _ _
  · exact List.cons_ne_nil _ _
  · exact List.cons_ne_nil _ _
  · rintro (hconn | hconn | hconn | hconn)
    all_goals cases hconn

end MakeBelieve.UnmountChannel
