import Mathlib.Algebra.Order.BigOperators.Group.Finset
import MakeBelieve.UnmountChannel.Requests

namespace MakeBelieve.UnmountChannel

open Library

variable {s t : State} {e : Event} {d : Daemon} {c : Client} {ch' : Channel} {N : Nat}

/-! ### Who goes on -/

inductive Party
  | main (d : Daemon)
  | watch (d : Daemon)
  | client (c : Client)

def Event.party : Event → Option Party
  | .dies _ => none
  | .ready d | .accepts d | .keeps d _ | .drained d | .acceptFails d => some (.watch d)
  | .asks c _ | .asksNowhere c | .connects c | .refused c | .connectFails c | .returns c
  | .recvFails c => some (.client c)
  | .mounts d | .finds d _ | .disables d | .binds d | .probes d | .probeFails d | .removes d
  | .rebinds d | .listens d | .watches d | .listenThrows d | .stops d _ | .unmounts d
  | .stopsWatch d | .joins d
  | .unlinks d | .closes d | .releases d | .released d | .unwinds d | .exits d => some (.main d)

/-- It is no failure, and waits for nobody's wish. -/
def State.due (s : State) : Event → Bool
  | .mounts _ | .asks _ _ | .asksNowhere _ | .dies _ | .disables _ | .probeFails _ | .listenThrows _
  | .acceptFails _ | .connectFails _ | .recvFails _ => false
  | .stops _ asked => asked
  | .unwinds d => (s.channels d).phase = .failed
  | _ => true

def State.Able (s : State) (p : Party) : Prop :=
  ∃ e : Event, e.party = some p ∧ s.due e = true ∧ enabled s e

/-- Only so many mount and ask. -/
def few (N : Nat) (_ : State) : Event → Prop
  | .mounts d => d < N
  | .asks c _ | .asksNowhere c => c < N
  | _ => True

/-! ### What is to come -/

/-- Whether it has yet to connect. -/
def Request.toCome : Request → Nat
  | .unborn | .connecting _ => 1
  | _ => 0

/-- Whether it may yet probe. -/
def Phase.toCome : Phase → Nat
  | .unborn | .mounted | .binding | .probing => 1
  | _ => 0

/-- The connections to come. -/
def State.toCome (N : Nat) (s : State) : Nat :=
  ∑ c ∈ Finset.range N, (s.requests c).toCome +
    ∑ d ∈ Finset.range N, (s.channels d).phase.toCome

theorem toCome_le (hrequests : ∀ c, (t.requests c).toCome ≤ (s.requests c).toCome)
    (hchannels : ∀ d, (t.channels d).phase.toCome ≤ (s.channels d).phase.toCome) :
    t.toCome N ≤ s.toCome N :=
  Nat.add_le_add (Finset.sum_le_sum fun c _ => hrequests c)
    (Finset.sum_le_sum fun d _ => hchannels d)

theorem toCome_lt_of_request (hrequests : ∀ c, (t.requests c).toCome ≤ (s.requests c).toCome)
    (hchannels : ∀ d, (t.channels d).phase.toCome ≤ (s.channels d).phase.toCome) (hc : c < N)
    (hlt : (t.requests c).toCome < (s.requests c).toCome) : t.toCome N < s.toCome N :=
  Nat.add_lt_add_of_lt_of_le
    (Finset.sum_lt_sum (fun c _ => hrequests c) ⟨c, Finset.mem_range.mpr hc, hlt⟩)
    (Finset.sum_le_sum fun d _ => hchannels d)

theorem toCome_lt_of_channel (hrequests : ∀ c, (t.requests c).toCome ≤ (s.requests c).toCome)
    (hchannels : ∀ d, (t.channels d).phase.toCome ≤ (s.channels d).phase.toCome) (hd : d < N)
    (hlt : (t.channels d).phase.toCome < (s.channels d).phase.toCome) :
    t.toCome N < s.toCome N :=
  Nat.add_lt_add_of_le_of_lt (Finset.sum_le_sum fun c _ => hrequests c)
    (Finset.sum_lt_sum (fun d _ => hchannels d) ⟨d, Finset.mem_range.mpr hd, hlt⟩)

/-- Who has come is one of the few. -/
structure Few (N : Nat) (s : State) : Prop where
  channels : ∀ d, (s.channels d).phase ≠ .unborn → d < N
  requests : ∀ c, s.requests c ≠ .unborn → c < N

namespace Few

theorem setChannel (f : Few N s) (hchannels : t.channels = Function.update s.channels d ch')
    (hrequests : t.requests = s.requests) (hd : d < N ∨ ch'.phase = (s.channels d).phase) :
    Few N t := by
  constructor
  · intro other hborn
    rw [hchannels] at hborn
    by_cases heq : other = d
    · subst heq
      rw [Function.update_self] at hborn
      obtain hd | hphase := hd
      · exact hd
      · exact f.channels other (hphase ▸ hborn)
    · rw [Function.update_of_ne heq] at hborn
      exact f.channels other hborn
  · rw [hrequests]
    exact f.requests

theorem setRequest (f : Few N s) (hc : c < N) (request : Request) :
    Few N (s.setRequest c request) := by
  constructor
  · exact f.channels
  · intro other hborn
    by_cases heq : other = c
    · rwa [heq]
    · simp only [State.setRequest, Function.update_of_ne heq] at hborn
      exact f.requests other hborn

theorem bind (f : Few N s) (hd : d < N) (taken : Phase) : Few N (s.bind d taken) := by
  unfold State.bind
  dsimp only
  split
  · exact f.setChannel rfl rfl (.inl hd)
  · exact f.setChannel rfl rfl (.inl hd)

theorem step (f : Few N s) (he : enabled s e) (hok : few N s e) :
    Few N (UnmountChannel.step s e) := by
  cases e with
  | mounts d => exact f.setChannel rfl rfl (.inl hok)
  | finds d _ | disables d | probeFails d | removes d | listens d | watches d | unmounts d
  | stopsWatch d
  | unlinks d | closes d | exits d =>
    have hp : (s.channels d).phase = _ := he
    exact f.setChannel rfl rfl (.inl (f.channels d (by simp [hp])))
  | binds d | rebinds d =>
    have hp : (s.channels d).phase = _ := he
    exact f.bind (f.channels d (by simp [hp])) _
  | probes d =>
    have hp : (s.channels d).phase = .probing := he
    have hd := f.channels d (by simp [hp])
    dsimp only [UnmountChannel.step]
    split
    · have hfailed : Few N (s.setChannel d (s.channels d).fail) := f.setChannel rfl rfl (.inl hd)
      exact hfailed.setChannel rfl rfl (.inr rfl)
    · exact f.setChannel rfl rfl (.inl hd)
  | stops d _ | joins d | released d =>
    have hp : (s.channels d).phase = _ := he.1
    exact f.setChannel rfl rfl (.inl (f.channels d (by simp [hp])))
  | listenThrows d =>
    have hborn : (s.channels d).phase ≠ .unborn := by
      intro hp
      have he : (s.channels d).phase.constructs = true := he
      simp [hp, Phase.constructs] at he
    exact f.setChannel rfl rfl (.inl (f.channels d hborn))
  | unwinds d =>
    have hborn : (s.channels d).phase ≠ .unborn := by
      intro hp
      simp [enabled, hp] at he
    exact f.setChannel rfl rfl (.inl (f.channels d hborn))
  | dies d => exact f.setChannel rfl rfl (.inl (f.channels d he.1))
  | releases d | ready d | accepts d | drained d | acceptFails d =>
    exact f.setChannel rfl rfl (.inr rfl)
  | keeps d tracked =>
    cases tracked with
    | true => exact f.setChannel rfl rfl (.inr rfl)
    | false => exact f.setChannel rfl rfl (.inr rfl)
  | asks c _ | asksNowhere c => exact f.setRequest hok _
  | refused c | connectFails c =>
    obtain ⟨_, hrequest⟩ := he
    exact f.setRequest (f.requests c (by simp [hrequest])) _
  | recvFails c =>
    obtain ⟨_, _, hrequest⟩ := he
    exact f.setRequest (f.requests c (by simp [hrequest])) _
  | connects c =>
    dsimp only [UnmountChannel.step]
    split
    · next endpoint hrequest =>
      split
      · next d _ =>
        have hasked := f.setRequest (f.requests c (by simp [hrequest])) (.waiting endpoint d)
        exact hasked.setChannel rfl rfl (.inr rfl)
      · exact f
    · exact f
  | returns c =>
    dsimp only [UnmountChannel.step]
    split
    · next endpoint d hrequest =>
      exact f.setRequest (f.requests c (by simp [hrequest])) _
    · exact f

theorem of_reachable (h : machine.Reachable (few N) s) : Few N s := by
  apply h.invariant
  · rintro s rfl
    exact ⟨fun _ h => absurd rfl h, fun _ h => absurd rfl h⟩
  · exact fun s e f he hok => f.step he hok

end Few

end MakeBelieve.UnmountChannel
