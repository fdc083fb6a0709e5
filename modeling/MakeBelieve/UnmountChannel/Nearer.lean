import MakeBelieve.UnmountChannel.Parties

namespace MakeBelieve.UnmountChannel

variable {s t : State} {e : Event} {d other : Daemon} {c : Client} {ch ch' : Channel} {N : Nat}

/-! ### What is left -/

def Phase.left : Phase → Nat
  | .listening => 27
  | .serving => 24
  | .unmounting => 21
  | .unmounted => 18
  | .stopping => 15
  | .unlinking => 12
  | .closing => 9
  | .releasing => 6
  | .destroyed => 3
  | _ => 0

/-- The steps that a channel has yet to take until it lets go of whoever waits for it. -/
def Channel.left (ch : Channel) : Nat :=
  ch.phase.left + 3 * ch.backlog.length + 2 * ch.taken.toList.length + ch.clients.length +
    (if ch.asked = true then 0 else 1) +
    (if ch.phase = .serving ∧ ch.asked = false ∧ ch.accepting = false then 1 else 0) +
    (if ch.phase = .stopping ∧ ch.accepting = true then 1 else 0)

instance (conn : Conn) : Decidable (ch.Holds conn) :=
  inferInstanceAs (Decidable (_ ∨ _ ∨ _ ∨ _))

def State.left (N : Nat) (c : Client) (d : Daemon) (s : State) : Nat :=
  if (s.channels d).Holds (.client c) then 1 + 4 * s.toCome N + (s.channels d).left else 0

def Channel.helper (ch : Channel) (d : Daemon) : Party :=
  match ch.phase with
  | .serving => if ch.asked = true then .main d else .watch d
  | .stopping => if ch.accepting = true then .watch d else .main d
  | _ => .main d

def State.helper (c : Client) (d : Daemon) (s : State) : Party :=
  if (s.channels d).Holds (.client c) then (s.channels d).helper d else .client c

/-! ### One channel -/

/-- A step of one channel, for a request that waits for it: the channel is nearer to letting go, or
it is not for who could go on to wait for this step's party. -/
structure Channel.Nears (c : Client) (d : Daemon) (p : Option Party) (ch ch' : Channel) : Prop where
  holds : ch'.Holds (.client c) → ch.Holds (.client c)
  nears : ch.Holds (.client c) → ch'.Holds (.client c) → ch'.left < ch.left ∨
    ch'.left ≤ ch.left ∧ ch'.helper d = ch.helper d ∧ p ≠ some (ch.helper d)

namespace Channel.Nears

theorem helper_main_or_watch (ch : Channel) (d : Daemon) :
    ch.helper d = .main d ∨ ch.helper d = .watch d := by
  unfold Channel.helper
  split
  · split
    · exact .inl rfl
    · exact .inr rfl
  · split
    · exact .inr rfl
    · exact .inl rfl
  · exact .inl rfl

theorem beside {p : Option Party} (hmain : p ≠ some (.main d)) (hwatch : p ≠ some (.watch d)) :
    ch.Nears c d p ch := by
  refine ⟨id, fun _ _ => .inr ⟨Nat.le_refl _, rfl, ?_⟩⟩
  obtain h | h := helper_main_or_watch ch d
  · rwa [h]
  · rwa [h]

theorem released {p : Option Party} (hnone : ¬ ch'.Holds (.client c)) : ch.Nears c d p ch' :=
  ⟨fun h => absurd h hnone, fun _ h => absurd h hnone⟩

theorem lower {p : Option Party} (hholds : ch'.Holds (.client c) → ch.Holds (.client c))
    (hlt : ch'.left < ch.left) : ch.Nears c d p ch' :=
  ⟨hholds, fun _ _ => .inl hlt⟩

/-- Before its socket listens nobody waits for it. -/
theorem constructs {p : Option Party} (h : ch.Sound) (hlistens : ch.phase.listens = false)
    (hwatched : ch.phase.watched = false)
    (hholds : ch'.Holds (.client c) → ch.Holds (.client c)) : ch.Nears c d p ch' :=
  ⟨hholds, fun hheld => absurd hheld (h.constructs hlistens hwatched _)⟩

/-- It goes on to a later phase. -/
theorem on {p : Option Party} {before phase : Phase} (hp : ch.phase = before)
    (hlt : phase.left + 2 < before.left) : ch.Nears c d p { ch with phase } := by
  refine lower (fun h => h) ?_
  subst hp
  simp only [Channel.left]
  split_ifs
  all_goals omega

theorem fail {p : Option Party} (h : ch.Sound) (hwatched : ch.phase.watched = false) :
    ch.Nears c d p ch.fail := by
  apply released
  have hwatches := Phase.watches_of_unwatched hwatched
  rintro (hconn | hconn | hconn | hconn)
  · cases hconn
  · have haccepting := h.accepting (h.taken (by simp [show ch.taken = _ from hconn]))
    simp [hwatches] at haccepting
  · have hclients : _ ∈ ch.clients := hconn
    simp [(h.watched hwatched).1] at hclients
  · have huntracked : _ ∈ ch.untracked := hconn
    simp [(h.watched hwatched).2] at huntracked

theorem exit {p : Option Party} : ch.Nears c d p ch.exit := by
  apply released
  rintro (hconn | hconn | hconn | hconn)
  all_goals cases hconn

theorem closes {p : Option Party} (hp : ch.phase = .closing) :
    ch.Nears c d p { ch with phase := .releasing, backlog := [] } := by
  apply lower
  · rintro (hconn | hconn)
    · cases hconn
    · exact .inr hconn
  · simp [Channel.left, hp, Phase.left]
    omega

theorem releases {p : Option Party} (hclients : ch.clients ≠ []) :
    ch.Nears c d p { ch with clients := ch.clients.tail } := by
  obtain ⟨conn, rest, hcons⟩ := List.exists_cons_of_ne_nil hclients
  apply lower
  · rintro (hconn | hconn | hconn | hconn)
    · exact .inl hconn
    · exact .inr (.inl hconn)
    · exact .inr (.inr (.inl (List.mem_of_mem_tail hconn)))
    · exact .inr (.inr (.inr hconn))
  · simp [Channel.left, hcons]

/-- As long as no stop was asked for, whoever waits has yet to be accepted. -/
theorem unasked (h : ch.Sound) (hasked : ch.asked = false) {conn : Conn} (hholds : ch.Holds conn) :
    conn ∈ ch.backlog ∨ ch.taken = some conn := by
  have hnone : ¬ (ch.clients ≠ [] ∨ ch.untracked ≠ []) := by
    intro hsome
    simp [h.asked hsome] at hasked
  obtain hconn | hconn | hconn | hconn := hholds
  · exact .inl hconn
  · exact .inr hconn
  · exact absurd (.inl (List.ne_nil_of_mem hconn)) hnone
  · exact absurd (.inr (List.ne_nil_of_mem hconn)) hnone

theorem ready (hp : ch.phase = .serving ∨ ch.phase = .unmounting ∨ ch.phase = .unmounted)
    (haccepting : ch.accepting = false) :
    ch.Nears c d (some (.watch d)) { ch with accepting := true } := by
  refine ⟨id, fun _ _ => ?_⟩
  obtain hp | hp | hp := hp
  · cases hasked : ch.asked with
    | false =>
      left
      simp [Channel.left, hp, hasked, haccepting]
    | true =>
      right
      simp [Channel.left, Channel.helper, hp, hasked]
  · right
    simp [Channel.left, Channel.helper, hp]
  · right
    simp [Channel.left, Channel.helper, hp]

theorem accepts {p : Option Party} (haccepting : ch.accepting = true) (htaken : ch.taken = none)
    (hbacklog : ch.backlog ≠ []) :
    ch.Nears c d p { ch with taken := ch.backlog.head?, backlog := ch.backlog.tail } := by
  obtain ⟨conn, rest, hcons⟩ := List.exists_cons_of_ne_nil hbacklog
  apply lower
  · rintro (hconn | hconn | hconn)
    · exact .inl (List.mem_of_mem_tail hconn)
    · exact .inl (List.mem_of_mem_head? hconn)
    · exact .inr (.inr hconn)
  · simp [Channel.left, hcons, htaken, haccepting]
    omega

/-- What it has accepted it keeps, and asks for the stop. -/
theorem keeps {p : Option Party} {clients untracked : List Conn} (haccepting : ch.accepting = true)
    (htaken : ch.taken.isSome = true)
    (hclients : clients = ch.clients ++ ch.taken.toList ∧ untracked = ch.untracked ∨
      clients = ch.clients ∧ untracked = ch.untracked ++ ch.taken.toList) :
    ch.Nears c d p { ch with taken := none, asked := true, clients, untracked } := by
  obtain ⟨conn, hconn⟩ := Option.isSome_iff_exists.mp htaken
  rw [hconn, Option.toList_some] at hclients
  apply lower
  · rintro (hheld | hheld | hheld | hheld)
    · exact .inl hheld
    · cases hheld
    · have hheld : Conn.client c ∈ clients := hheld
      obtain ⟨rfl, -⟩ | ⟨rfl, -⟩ := hclients
      · obtain hmem | hmem := List.mem_append.mp hheld
        · exact .inr (.inr (.inl hmem))
        · exact .inr (.inl (by rw [hconn, List.mem_singleton.mp hmem]))
      · exact .inr (.inr (.inl hheld))
    · have hheld : Conn.client c ∈ untracked := hheld
      obtain ⟨-, rfl⟩ | ⟨-, rfl⟩ := hclients
      · exact .inr (.inr (.inr hheld))
      · obtain hmem | hmem := List.mem_append.mp hheld
        · exact .inr (.inr (.inr hmem))
        · exact .inr (.inl (by rw [hconn, List.mem_singleton.mp hmem]))
  · have hlength : clients.length ≤ ch.clients.length + 1 := by
      obtain ⟨rfl, -⟩ | ⟨rfl, -⟩ := hclients
      all_goals simp
    simp only [Channel.left, hconn, haccepting]
    simp
    split_ifs
    all_goals omega

theorem drained (h : ch.Sound) (haccepting : ch.accepting = true) (htaken : ch.taken = none)
    (hbacklog : ch.backlog = []) :
    ch.Nears c d (some (.watch d)) { ch with accepting := false } := by
  refine ⟨id, fun hholds _ => ?_⟩
  have hasked : ch.asked = true := by
    by_contra hunasked
    obtain hconn | hconn := unasked h (by simpa using hunasked) hholds
    · simp [hbacklog] at hconn
    · simp [htaken] at hconn
  have hwatches := h.accepting haccepting
  cases hp : ch.phase with
  | serving | unmounting | unmounted =>
    right
    simp [Channel.left, Channel.helper, hp, hasked]
  | stopping =>
    left
    simp [Channel.left, hp, haccepting]
  | _ => simp [hp, Phase.watches] at hwatches

theorem acceptFails (h : ch.Sound) (haccepting : ch.accepting = true) :
    ch.Nears c d (some (.watch d)) { ch with accepting := false, asked := true } := by
  refine ⟨id, fun hholds _ => ?_⟩
  have hwatches := h.accepting haccepting
  cases hp : ch.phase with
  | serving | unmounting | unmounted =>
    cases hasked : ch.asked with
    | false =>
      left
      simp [Channel.left, hp, hasked, haccepting]
    | true =>
      right
      simp [Channel.left, Channel.helper, hp, hasked]
  | stopping =>
    left
    cases hasked : ch.asked with
    | true | false =>
      simp only [Channel.left, hp, haccepting, hasked, reduceCtorEq, false_and, and_false, and_self,
        if_true, if_false]
      omega
  | _ => simp [hp, Phase.watches] at hwatches

end Channel.Nears

/-! ### All of them -/

/-- As `Channel.Nears`, of the whole state. -/
def Nearer (N : Nat) (c : Client) (d : Daemon) (s t : State) (p : Option Party) : Prop :=
  t.left N c d < s.left N c d ∨
    t.left N c d ≤ s.left N c d ∧ t.helper c d = s.helper c d ∧ p ≠ some (s.helper c d)

namespace Nearer

variable {p : Option Party}

theorem of_channel (hcome : t.toCome N ≤ s.toCome N)
    (h : (s.channels d).Nears c d p (t.channels d)) (hclient : p ≠ some (.client c)) :
    Nearer N c d s t p := by
  by_cases hholds : (s.channels d).Holds (.client c)
  · by_cases hheld : (t.channels d).Holds (.client c)
    · obtain hlt | ⟨hle, hhelper, hparty⟩ := h.nears hholds hheld
      · left
        simp only [State.left, if_pos hholds, if_pos hheld]
        omega
      · right
        simp only [State.left, State.helper, if_pos hholds, if_pos hheld]
        exact ⟨by omega, hhelper, hparty⟩
    · left
      simp only [State.left, if_pos hholds, if_neg hheld]
      omega
  · have hheld : ¬ (t.channels d).Holds (.client c) := fun hheld => hholds (h.holds hheld)
    right
    simp only [State.left, State.helper, if_neg hholds, if_neg hheld]
    exact ⟨Nat.le_refl _, trivial, hclient⟩

/-- A connection that was to come has come, to this channel or another. -/
theorem of_come (hcome : t.toCome N < s.toCome N)
    (hholds : (t.channels d).Holds (.client c) → (s.channels d).Holds (.client c))
    (hleft : (t.channels d).left ≤ (s.channels d).left + 3) (hclient : p ≠ some (.client c)) :
    Nearer N c d s t p := by
  by_cases hheld : (t.channels d).Holds (.client c)
  · left
    simp only [State.left, if_pos hheld, if_pos (hholds hheld)]
    omega
  · by_cases hbefore : (s.channels d).Holds (.client c)
    · left
      simp only [State.left, if_pos hbefore, if_neg hheld]
      omega
    · right
      simp only [State.left, State.helper, if_neg hbefore, if_neg hheld]
      exact ⟨Nat.le_refl _, trivial, hclient⟩

/-- A step of one channel, ours or another. -/
theorem setChannel {ch' : Channel} (hchannels : t.channels = Function.update s.channels other ch')
    (hrequests : t.requests = s.requests)
    (hphase : ch'.phase.toCome ≤ (s.channels other).phase.toCome)
    (hparty : p = none ∨ p = some (.main other) ∨ p = some (.watch other))
    (h : (s.channels other).Nears c other p ch') : Nearer N c d s t p := by
  apply of_channel
  · apply toCome_le
    · intro _
      rw [hrequests]
    · intro d'
      rw [hchannels]
      by_cases heq : d' = other
      · subst heq
        rw [Function.update_self]
        exact hphase
      · rw [Function.update_of_ne heq]
  · by_cases heq : d = other
    · subst heq
      rw [hchannels, Function.update_self]
      exact h
    · rw [hchannels, Function.update_of_ne heq]
      apply Channel.Nears.beside
      all_goals
        obtain rfl | rfl | rfl := hparty
        all_goals simp [Ne.symm heq]
  · obtain rfl | rfl | rfl := hparty
    all_goals simp

/-- A step of another request, which reaches no channel. -/
theorem setRequest {other : Client} (hne : other ≠ c) {request : Request}
    (hcome : request.toCome ≤ (s.requests other).toCome) :
    Nearer N c d s (s.setRequest other request) (some (.client other)) := by
  apply of_channel
  · apply toCome_le
    · intro c'
      by_cases heq : c' = other
      · subst heq
        simpa [State.setRequest] using hcome
      · simp [State.setRequest, Function.update_of_ne heq]
    · exact fun _ => Nat.le_refl _
  · apply Channel.Nears.beside
    all_goals simp
  · simpa using hne

/-- A connection of another than the request's, which was to come, to a channel of `u`. -/
theorem queue {u : State} {conn : Conn} (hcome : t.toCome N < s.toCome N)
    (hholds : (u.channels d).Holds (.client c) → (s.channels d).Holds (.client c))
    (hleft : (u.channels d).left ≤ (s.channels d).left)
    (hchannels : t.channels = Function.update u.channels other
      { u.channels other with backlog := (u.channels other).backlog ++ [conn] })
    (hconn : conn ≠ .client c) (hclient : p ≠ some (.client c)) : Nearer N c d s t p := by
  apply of_come hcome
  · rw [hchannels]
    by_cases heq : d = other
    · subst heq
      rw [Function.update_self]
      rintro (hheld | hheld)
      · obtain hmem | hmem := List.mem_append.mp hheld
        · exact hholds (.inl hmem)
        · exact absurd (List.mem_singleton.mp hmem).symm hconn
      · exact hholds (.inr hheld)
    · rw [Function.update_of_ne heq]
      exact hholds
  · rw [hchannels]
    by_cases heq : d = other
    · subst heq
      rw [Function.update_self]
      simp only [Channel.left, List.length_append, List.length_singleton] at hleft ⊢
      omega
    · rw [Function.update_of_ne heq]
      omega
  · exact hclient

end Nearer

/-- A step of one channel, with what its `enabled` gives. -/
theorem channel_nearer {p : Option Party} {before phase : Phase}
    (hp : (s.channels other).phase = before) (hlt : phase.left + 2 < before.left)
    (hcome : phase.toCome = 0)
    (hparty : p = none ∨ p = some (.main other) ∨ p = some (.watch other))
    (hchannels : t.channels = (s.setPhase other phase).channels)
    (hrequests : t.requests = s.requests) : Nearer N c d s t p :=
  .setChannel hchannels hrequests (by simp [hcome]) hparty (.on hp hlt)

theorem constructs_nearer {before phase : Phase} (k : Kept s) {endpoint : Endpoint}
    (hp : (s.channels other).phase = before)
    (hlistens : before.listens = false) (hwatched : before.watched = false)
    (hcome : phase.toCome ≤ before.toCome)
    (hchannels : t.channels = Function.update s.channels other
      { s.channels other with phase, endpoint })
    (hrequests : t.requests = s.requests) : Nearer N c d s t (some (.main other)) := by
  subst hp
  exact .setChannel hchannels hrequests hcome (.inr (.inl rfl))
    (.constructs (k.sound other) hlistens hwatched fun h => h)

theorem fail_left (ch : Channel) : ch.fail.left ≤ ch.left := by
  have hfail : ch.fail.left =
      2 * ch.taken.toList.length + ch.clients.length + (if ch.asked = true then 0 else 1) := by
    cases hasked : ch.asked with
    | true | false => simp [Channel.left, Channel.fail, Phase.left, hasked]
  rw [hfail, Channel.left]
  omega

theorem queue_phase (s : State) (d other : Daemon) (conn : Conn) :
    ((s.queue d conn).channels other).phase = (s.channels other).phase := by
  by_cases heq : other = d
  · subst heq
    rw [State.queue, State.setChannel_self]
  · rw [State.queue, State.setChannel_of_ne s _ heq]

theorem fail_phase_toCome (s : State) (d other : Daemon) :
    ((s.setChannel d (s.channels d).fail).channels other).phase.toCome ≤
      (s.channels other).phase.toCome := by
  by_cases heq : other = d
  · subst heq
    rw [State.setChannel_self]
    exact Nat.zero_le _
  · rw [State.setChannel_of_ne s _ heq]

/-- A probe that reaches a live mount, which it pokes. -/
theorem probes_nearer {d' : Daemon} (k : Kept s) (f : Few N s)
    (hp : (s.channels d').phase = .probing) :
    Nearer N c d s ((s.setChannel d' (s.channels d').fail).queue other (.probe d'))
      (some (.main d')) := by
  have hfails : (s.channels d').Nears c d' none (s.channels d').fail :=
    .fail (k.sound d') (by rw [hp]; rfl)
  apply Nearer.queue (u := s.setChannel d' (s.channels d').fail)
  · apply toCome_lt_of_channel
    · exact fun _ => Nat.le_refl _
    · intro d''
      rw [queue_phase]
      exact fail_phase_toCome s d' d''
    · exact f.channels d' (by simp [hp])
    · rw [queue_phase, State.setChannel_self, hp]
      exact Nat.zero_lt_one
  · by_cases heq : d = d'
    · subst heq
      rw [State.setChannel_self]
      exact hfails.holds
    · rw [State.setChannel_of_ne s _ heq]
      exact id
  · by_cases heq : d = d'
    · subst heq
      rw [State.setChannel_self]
      exact fail_left _
    · rw [State.setChannel_of_ne s _ heq]
  · rfl
  · simp
  · simp

theorem connects_nearer {c' : Client} {d' : Daemon} {endpoint endpoint' : Endpoint} (f : Few N s)
    (hne : c' ≠ c) (hconnects : s.requests c' = .connecting endpoint') :
    Nearer N c d s ((s.setRequest c' (.waiting endpoint d')).queue d' (.client c'))
      (some (.client c')) := by
  apply Nearer.queue (u := s.setRequest c' (.waiting endpoint d'))
  · apply toCome_lt_of_request (c := c')
    · intro c''
      by_cases heq : c'' = c'
      · subst heq
        simp [State.queue, State.setChannel, State.setRequest, Request.toCome]
      · simp [State.queue, State.setChannel, State.setRequest, Function.update_of_ne heq]
    · intro d''
      rw [queue_phase]
      exact Nat.le_refl _
    · exact f.requests c' (by simp [hconnects])
    · simp [State.queue, State.setChannel, State.setRequest, Request.toCome, hconnects]
  · exact id
  · exact Nat.le_refl _
  · rfl
  · simpa using hne
  · simpa using hne

theorem request_nearer {other : Client} {endpoint : Endpoint} {request : Request}
    (hne : other ≠ c) (hwaits : s.requests c = .waiting endpoint d)
    (hcome : request.toCome ≤ (s.requests other).toCome) :
    (s.setRequest other request).requests c = .waiting endpoint d ∧
      Nearer N c d s (s.setRequest other request) (some (.client other)) := by
  refine ⟨?_, .setRequest hne hcome⟩
  simpa [State.setRequest, Function.update_of_ne (Ne.symm hne)] using hwaits

/-- Each step of another brings whoever waits nearer, or leaves who is to go on. -/
theorem step_nearer {endpoint : Endpoint} (k : Kept s) (f : Few N s) (he : enabled s e)
    (hwaits : s.requests c = .waiting endpoint d) :
    ((step s e).requests c = .ok endpoint d ∨ (step s e).requests c = .threw) ∨
      (step s e).requests c = .waiting endpoint d ∧ Nearer N c d s (step s e) e.party := by
  cases e with
  | mounts d' | disables d' | probeFails d' | removes d' | listens d' =>
    have hp : (s.channels d').phase = _ := he
    exact .inr ⟨hwaits, constructs_nearer k hp rfl rfl (by decide) rfl rfl⟩
  | finds d' key =>
    have hp : (s.channels d').phase = _ := he
    exact .inr ⟨hwaits, constructs_nearer k hp rfl rfl (by decide) rfl rfl⟩
  | binds d' | rebinds d' =>
    have hp : (s.channels d').phase = _ := he
    right
    dsimp only [step, State.bind]
    split
    · exact ⟨hwaits, constructs_nearer k hp rfl rfl (by decide) rfl rfl⟩
    · exact ⟨hwaits, constructs_nearer k hp rfl rfl (by decide) rfl rfl⟩
  | probes d' =>
    have hp : (s.channels d').phase = .probing := he
    right
    dsimp only [step]
    split
    · exact ⟨hwaits, probes_nearer k f hp⟩
    · exact ⟨hwaits, constructs_nearer k hp rfl rfl (by decide) rfl rfl⟩
  | watches d' | unmounts d' | stopsWatch d' | unlinks d' =>
    have hp : (s.channels d').phase = _ := he
    exact .inr ⟨hwaits, channel_nearer hp (by decide) rfl (.inr (.inl rfl)) rfl rfl⟩
  | stops d' asked | joins d' | released d' =>
    have hp : (s.channels d').phase = _ := he.1
    exact .inr ⟨hwaits, channel_nearer hp (by decide) rfl (.inr (.inl rfl)) rfl rfl⟩
  | listenThrows d' =>
    have hwatched := Phase.unwatched_of_constructs he
    exact .inr ⟨hwaits, .setChannel rfl rfl (Nat.zero_le _) (.inr (.inl rfl))
      (.fail (k.sound d') hwatched)⟩
  | closes d' =>
    have hp : (s.channels d').phase = _ := he
    exact .inr ⟨hwaits, .setChannel rfl rfl (Nat.zero_le _) (.inr (.inl rfl)) (.closes hp)⟩
  | releases d' =>
    exact .inr ⟨hwaits, .setChannel rfl rfl (Nat.le_refl _) (.inr (.inl rfl)) (.releases he.2)⟩
  | unwinds d' | exits d' =>
    exact .inr ⟨hwaits, .setChannel rfl rfl (Nat.zero_le _) (.inr (.inl rfl)) .exit⟩
  | dies d' =>
    exact .inr ⟨hwaits, .setChannel rfl rfl (Nat.zero_le _) (.inl rfl) .exit⟩
  | ready d' =>
    exact .inr ⟨hwaits, .setChannel rfl rfl (Nat.le_refl _) (.inr (.inr rfl))
      (.ready he.1 he.2.1)⟩
  | accepts d' =>
    exact .inr ⟨hwaits, .setChannel rfl rfl (Nat.le_refl _) (.inr (.inr rfl))
      (.accepts he.1 he.2.1 he.2.2)⟩
  | keeps d' tracked =>
    have haccepting := (k.sound d').taken he
    cases tracked with
    | true =>
      exact .inr ⟨hwaits, .setChannel rfl rfl (Nat.le_refl _) (.inr (.inr rfl))
        (.keeps haccepting he (.inl ⟨rfl, rfl⟩))⟩
    | false =>
      exact .inr ⟨hwaits, .setChannel rfl rfl (Nat.le_refl _) (.inr (.inr rfl))
        (.keeps haccepting he (.inr ⟨rfl, rfl⟩))⟩
  | drained d' =>
    exact .inr ⟨hwaits, .setChannel rfl rfl (Nat.le_refl _) (.inr (.inr rfl))
      (.drained (k.sound d') he.1 he.2.1 he.2.2)⟩
  | acceptFails d' =>
    exact .inr ⟨hwaits, .setChannel rfl rfl (Nat.le_refl _) (.inr (.inr rfl))
      (.acceptFails (k.sound d') he.1)⟩
  | asks c' key | asksNowhere c' =>
    have hunborn : s.requests c' = .unborn := he
    have hne : c' ≠ c := by
      rintro rfl
      simp [hwaits] at hunborn
    exact .inr (request_nearer hne hwaits (by simp [hunborn, Request.toCome]))
  | connects c' =>
    obtain ⟨endpoint', hconnects, hreached⟩ := he
    obtain ⟨d', hreaches⟩ := Option.isSome_iff_exists.mp hreached
    have hne : c' ≠ c := by
      rintro rfl
      simp [hwaits] at hconnects
    have hstep : step s (.connects c') =
        (s.setRequest c' (.waiting endpoint' d')).queue d' (.client c') := by
      simp only [step, hconnects, hreaches]
    rw [hstep]
    right
    constructor
    · simpa [State.queue, State.setChannel, State.setRequest,
        Function.update_of_ne (Ne.symm hne)] using hwaits
    · exact connects_nearer f hne hconnects
  | refused c' | connectFails c' =>
    have hne : c' ≠ c := by
      rintro rfl
      obtain ⟨_, hconnects⟩ := he
      simp [hwaits] at hconnects
    exact .inr (request_nearer hne hwaits (Nat.zero_le _))
  | returns c' =>
    obtain ⟨endpoint', d', hrequest, _⟩ := he
    simp only [step, hrequest]
    by_cases heq : c' = c
    · subst heq
      obtain ⟨rfl, rfl⟩ := Request.waiting.inj (hwaits.symm.trans hrequest)
      exact .inl (.inl (by simp [State.setRequest]))
    · exact .inr (request_nearer heq hwaits (Nat.zero_le _))
  | recvFails c' =>
    by_cases heq : c' = c
    · subst heq
      exact .inl (.inr (by simp [step, State.setRequest]))
    · exact .inr (request_nearer heq hwaits (Nat.zero_le _))

end MakeBelieve.UnmountChannel
