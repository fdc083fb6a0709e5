import MakeBelieve.Library.Fair
import MakeBelieve.UnmountChannel.Nearer

namespace MakeBelieve.UnmountChannel

open Library

variable {s : State} {e : Event} {d : Daemon} {c : Client} {N : Nat}

/-! ### Requests return -/

theorem watch_able (haccepting : (s.channels d).accepting = true) : s.Able (.watch d) := by
  cases htaken : (s.channels d).taken with
  | some conn => exact ⟨.keeps d true, rfl, rfl, by simp [enabled, htaken]⟩
  | none =>
    by_cases hbacklog : (s.channels d).backlog = []
    · exact ⟨.drained d, rfl, rfl, haccepting, htaken, hbacklog⟩
    · exact ⟨.accepts d, rfl, rfl, haccepting, htaken, hbacklog⟩

/-- Whoever is to go on can. -/
theorem helper_able {endpoint : Endpoint} (k : Kept s)
    (hwaits : s.requests c = .waiting endpoint d) :
    s.Able (s.helper c d) := by
  by_cases hholds : (s.channels d).Holds (.client c)
  · have hsound := k.sound d
    have hnone := fun hlistens hwatched => hsound.constructs hlistens hwatched (.client c) hholds
    rw [State.helper, if_pos hholds]
    cases hp : (s.channels d).phase with
    | listening =>
      simp only [Channel.helper, hp]
      exact ⟨.watches d, rfl, rfl, hp⟩
    | serving =>
      cases hasked : (s.channels d).asked with
      | true =>
        simp only [Channel.helper, hp, hasked, if_true]
        exact ⟨.stops d true, rfl, rfl, hp, fun _ => hasked⟩
      | false =>
        simp only [Channel.helper, hp, hasked]
        cases haccepting : (s.channels d).accepting with
        | true => exact watch_able haccepting
        | false =>
          have hbacklog : (s.channels d).backlog ≠ [] := by
            obtain hmem | htaken := Channel.Nears.unasked hsound hasked hholds
            · exact List.ne_nil_of_mem hmem
            · have haccepts := hsound.taken (by simp [htaken])
              simp [haccepting] at haccepts
          exact ⟨.ready d, rfl, rfl, .inl hp, haccepting, hbacklog⟩
    | unmounting =>
      simp only [Channel.helper, hp]
      exact ⟨.unmounts d, rfl, rfl, hp⟩
    | unmounted =>
      simp only [Channel.helper, hp]
      exact ⟨.stopsWatch d, rfl, rfl, hp⟩
    | stopping =>
      cases haccepting : (s.channels d).accepting with
      | true =>
        simp only [Channel.helper, hp, haccepting, if_true]
        exact watch_able haccepting
      | false =>
        simp only [Channel.helper, hp, haccepting]
        exact ⟨.joins d, rfl, rfl, hp, haccepting⟩
    | unlinking =>
      simp only [Channel.helper, hp]
      exact ⟨.unlinks d, rfl, rfl, hp⟩
    | closing =>
      simp only [Channel.helper, hp]
      exact ⟨.closes d, rfl, rfl, hp⟩
    | releasing =>
      simp only [Channel.helper, hp]
      by_cases hclients : (s.channels d).clients = []
      · exact ⟨.released d, rfl, rfl, hp, hclients⟩
      · exact ⟨.releases d, rfl, rfl, hp, hclients⟩
    | destroyed =>
      simp only [Channel.helper, hp]
      exact ⟨.exits d, rfl, rfl, hp⟩
    | _ => exact absurd (by rw [hp]; rfl) (fun h => hnone h (by rw [hp]; rfl))
  · rw [State.helper, if_neg hholds]
    exact ⟨.returns c, rfl, rfl, endpoint, d, hwaits, hholds⟩

/-- Where each who can go on does, a request that has reached a mount returns: the mount is stopped,
and lets it go. -/
theorem waiting_returns {r : Run machine (few N)} (hjust : r.Just Event.party State.Able)
    (endpoint : Endpoint) :
    r.LeadsTo (fun s => s.requests c = .waiting endpoint d)
      (fun s => s.requests c = .ok endpoint d ∨ s.requests c = .threw) := by
  apply hjust.leadsTo (State.left N c d) (State.helper c d)
  · intro s hs hwaits
    exact helper_able (Kept.of_reachable hs) hwaits
  · intro s e hs he _ hwaits
    exact step_nearer (Kept.of_reachable hs) (Few.of_reachable hs) he hwaits

theorem step_request (he : enabled s e) (hparty : e.party ≠ some (.client c)) :
    (step s e).requests c = s.requests c := by
  cases e with
  | asks c' _ | asksNowhere c' | refused c' | connectFails c' | recvFails c' =>
    have hne : c ≠ c' := by
      rintro rfl
      exact hparty rfl
    simp [step, State.setRequest, Function.update_of_ne hne]
  | connects c' =>
    have hne : c ≠ c' := by
      rintro rfl
      exact hparty rfl
    obtain ⟨endpoint, hconnects, hreached⟩ := he
    obtain ⟨d, hreaches⟩ := Option.isSome_iff_exists.mp hreached
    simp [step, hconnects, hreaches, State.queue, State.setChannel, State.setRequest,
      Function.update_of_ne hne]
  | returns c' =>
    have hne : c ≠ c' := by
      rintro rfl
      exact hparty rfl
    obtain ⟨endpoint, d, hrequest, _⟩ := he
    simp [step, hrequest, State.setRequest, Function.update_of_ne hne]
  | binds d | rebinds d =>
    simp only [step, State.bind]
    split
    all_goals rfl
  | probes d =>
    simp only [step]
    split
    all_goals rfl
  | _ => rfl

/-- What a request that connects comes to. -/
theorem connecting_step {endpoint : Endpoint} (he : enabled s e)
    (hconnecting : s.requests c = .connecting endpoint) (hparty : e.party = some (.client c)) :
    (step s e).requests c = .notMounted ∨ (step s e).requests c = .threw ∨
      ∃ d, (step s e).requests c = .waiting endpoint d := by
  cases e with
  | asks c' _ | asksNowhere c' =>
    obtain rfl := Party.client.inj (Option.some.inj hparty)
    have hunborn : s.requests c' = .unborn := he
    simp [hconnecting] at hunborn
  | refused c' =>
    obtain rfl := Party.client.inj (Option.some.inj hparty)
    simp [step, State.setRequest]
  | connectFails c' | recvFails c' =>
    obtain rfl := Party.client.inj (Option.some.inj hparty)
    simp [step, State.setRequest]
  | connects c' =>
    obtain rfl := Party.client.inj (Option.some.inj hparty)
    obtain ⟨endpoint', hconnects, hreached⟩ := he
    obtain ⟨d, hreaches⟩ := Option.isSome_iff_exists.mp hreached
    obtain rfl := Request.connecting.inj (hconnecting.symm.trans hconnects)
    simp [step, hconnects, hreaches, State.queue, State.setChannel, State.setRequest]
  | returns c' =>
    obtain rfl := Party.client.inj (Option.some.inj hparty)
    obtain ⟨_, _, hwaits, _⟩ := he
    simp [hconnecting] at hwaits
  | _ => simp [Event.party] at hparty

theorem connecting_returns {r : Run machine (few N)} (hjust : r.Just Event.party State.Able)
    (endpoint : Endpoint) :
    r.LeadsTo (fun s => s.requests c = .connecting endpoint)
      (fun s => s.requests c = .notMounted ∨ s.requests c = .threw ∨
        ∃ d, s.requests c = .waiting endpoint d) := by
  apply hjust.leadsTo (fun _ => 0) (fun _ => .client c)
  · intro s _ hconnecting
    cases hreaches : s.reaches endpoint with
    | none => exact ⟨.refused c, rfl, rfl, endpoint, hconnecting, hreaches⟩
    | some d => exact ⟨.connects c, rfl, rfl, endpoint, hconnecting, by simp [hreaches]⟩
  · intro s e _ he _ hconnecting
    by_cases hparty : e.party = some (.client c)
    · exact .inl (connecting_step he hconnecting hparty)
    · right
      exact ⟨(step_request he hparty).trans hconnecting, .inr ⟨Nat.le_refl _, rfl, hparty⟩⟩

/-- Where each who can go on does, every `request_unmount` returns, if it reaches a mount once that
has let it go. -/
theorem request_returns {r : Run machine (few N)} (hjust : r.Just Event.party State.Able)
    (endpoint : Endpoint) :
    r.LeadsTo (fun s => s.requests c = .connecting endpoint)
      (fun s => s.requests c = .notMounted ∨ s.requests c = .threw ∨
        ∃ d, s.requests c = .ok endpoint d) := by
  apply (connecting_returns hjust endpoint).trans
  rintro n (hnone | hthrew | ⟨d, hwaits⟩)
  · exact ⟨n, Nat.le_refl n, .inl hnone⟩
  · exact ⟨n, Nat.le_refl n, .inr (.inl hthrew)⟩
  · obtain ⟨k, hle, hok | hthrew⟩ := waiting_returns hjust endpoint n hwaits
    · exact ⟨k, hle, .inr (.inr ⟨d, hok⟩)⟩
    · exact ⟨k, hle, .inr (.inl hthrew)⟩

/-- Each mount has ended, and each request returned. -/
theorem unable_of_over (k : Kept s)
    (hphase : ∀ d, (s.channels d).phase = .unborn ∨ (s.channels d).phase = .exited)
    (hrequest : ∀ c, s.requests c = .unborn ∨ ∃ endpoint d, s.requests c = .ok endpoint d)
    (p : Party) : ¬ s.Able p := by
  have haccepting : ∀ d, (s.channels d).accepting = false := by
    intro d
    apply k.unwatched
    obtain hp | hp := hphase d
    all_goals rw [hp]; rfl
  rintro ⟨e, -, hdue, he⟩
  cases e with
  | mounts d | disables d | probeFails d | listenThrows d | dies d | acceptFails d | asks c _
  | asksNowhere c | connectFails c | recvFails c => cases hdue
  | finds d _ | binds d | probes d | removes d | rebinds d | listens d | watches d | unmounts d
  | stopsWatch d
  | unlinks d | closes d | exits d =>
    have he : (s.channels d).phase = _ := he
    have hp := hphase d
    simp [he] at hp
  | stops d _ | joins d | releases d | released d =>
    have he : (s.channels d).phase = _ := he.1
    have hp := hphase d
    simp [he] at hp
  | unwinds d =>
    have hp := hphase d
    obtain he | he := he
    all_goals simp [he] at hp
  | ready d =>
    have hp := hphase d
    obtain ⟨he | he | he, _⟩ := he
    all_goals simp [he] at hp
  | accepts d | drained d =>
    have haccepts := he.1
    simp [haccepting d] at haccepts
  | keeps d _ =>
    have haccepts := (k.sound d).taken he
    simp [haccepting d] at haccepts
  | connects c | refused c =>
    obtain ⟨_, hconnecting, _⟩ := he
    have hreturned := hrequest c
    simp [hconnecting] at hreturned
  | returns c =>
    obtain ⟨_, _, hwaits, _⟩ := he
    have hreturned := hrequest c
    simp [hwaits] at hreturned

/-- As `unmounted`, to the end of the process. -/
def exited : List Event := unmounted ++ [.released 0, .exits 0]

theorem exited_fires : machine.Fires (few 1) {} exited := by
  have hfires : machine.Fires (fun _ _ => True) {} exited :=
    unmounted_fires.append ⟨⟨rfl, rfl⟩, trivial, rfl, trivial, trivial⟩
  refine hfires.of_forall ?_
  simp [exited, unmounted, few]

theorem exited_returns : ∃ k, 6 ≤ k ∧
    (((machine.runs {} (exited.take k)).requests 0 = .notMounted) ∨
      ((machine.runs {} (exited.take k)).requests 0 = .threw) ∨
      ∃ d, (machine.runs {} (exited.take k)).requests 0 = .ok (endpointId []) d) := by
  have hjust : (Run.ofFires rfl exited_fires).Just Event.party State.Able := by
    apply Run.Just.ofFires
    have hreachable := Machine.Reachable.runs (.start rfl) exited_fires
    have f := Few.of_reachable hreachable
    apply unable_of_over (Kept.of_reachable hreachable)
    · intro d
      by_cases hborn : ((machine.runs {} exited).channels d).phase = .unborn
      · exact .inl hborn
      · obtain rfl : d = 0 := Nat.lt_one_iff.mp (f.channels d hborn)
        exact .inr rfl
    · intro c
      by_cases hborn : (machine.runs {} exited).requests c = .unborn
      · exact .inl hborn
      · obtain rfl : c = 0 := Nat.lt_one_iff.mp (f.requests c hborn)
        exact .inr ⟨endpointId [], 0, rfl⟩
  exact request_returns hjust (endpointId []) 6 rfl

end MakeBelieve.UnmountChannel
