import MakeBelieve.Coordinator.Deadlock

namespace MakeBelieve.Coordinator

open Library

/-- A target's result given to a request of a running attempt that is not stopping, and the
attempt's permit at that moment. -/
structure Delivery where
  wait : WaitId
  requester : AttemptId
  permit : Permit
  deriving DecidableEq

namespace State

/-- What is delivered where a step answers this wait. -/
def delivery (s t : State) (w : WaitId) : List Delivery :=
  match (s.requests w).requester with
  | none => []
  | some r =>
    if (t.requests w).state = .done ∧ (s.attempts r).phase = .running ∧
        (s.attempts r).stopping = false then
      [⟨w, r, (s.attempts r).permit⟩]
    else []

/-- What the loop of `complete` delivers. -/
def readied (result : ErrorCode) : State → List WaitId → List Delivery
  | _, [] => []
  | s, w :: ws => s.delivery (s.ready w result) w ++ readied result (s.ready w result) ws

/-- What the loop of `on_reacquired` delivers, of the results kept for when the permit is back. -/
def regainedAnswers (a : AttemptId) (granted : Bool) : State → List WaitId → List Delivery
  | _, [] => []
  | s, w :: ws =>
    (if granted ∧ (s.requests w).state = .ready ∧ (s.attempts a).stopping = false then
      [⟨w, a, (s.attempts a).permit⟩] else []) ++
      regainedAnswers a granted (s.answerReady a granted w) ws

/-- What an event delivers. A request that `wait` answers itself is its attempt's by then, for all
that `wait` has not looked it up. -/
def delivered (s : State) : Event → List Delivery
  | .wait _ _ target requester false =>
    match (s.attempts target).result, requester.bind s.running with
    | some _, some r =>
      if (s.attempts r).stopping = false then [⟨s.waitCount, r, (s.attempts r).permit⟩] else []
    | _, _ => []
  | .complete a result =>
    readied result (s.start.setAttempt a fun x => { x with result := some result, predecessor := none })
      (s.attempts a).waitsOnMe
  | .onReacquired a granted =>
    regainedAnswers a granted (s.regained a granted) (s.attempts a).waitsByMe
  | _ => []

/-- No request of an attempt without its permit names a target already completed. -/
def AsksHolding (s : State) : Event → Prop
  | .wait _ _ target requester false => (s.attempts target).result ≠ none →
      ∀ r, requester.bind s.running = some r → (s.attempts r).stopping = false →
        (s.attempts r).permit = .held
  | _ => True

/-- Whoever runs has had a permit. -/
def Started (s : State) : Prop := ∀ a, (s.attempts a).phase = .running → (s.attempts a).permit ≠ .none

variable {s t : State} {w : WaitId} {a : AttemptId}

theorem Started.of_control (h : Started s)
    (hc : ∀ b, (t.attempts b).toControl = (s.attempts b).toControl) : Started t := by
  intro b hb
  rw [hc] at hb ⊢
  exact h b hb

/-- A permit given back or asked for again is one the attempt has had. -/
theorem Started.setPermit (h : Started s) {permit : Permit} (hp : permit ≠ .none)
    (hc : ∀ b, (t.attempts b).phase = (s.attempts b).phase ∧
      ((t.attempts b).permit = (s.attempts b).permit ∨ (t.attempts b).permit = permit)) :
    Started t := by
  intro b hb
  obtain ⟨hphase, hsame | hnew⟩ := hc b
  · rw [hsame]
    exact h b (hphase ▸ hb)
  · rw [hnew]
    exact hp

theorem Started.ready (h : Started s) (w : WaitId) (e : ErrorCode) : Started (s.ready w e) := by
  have hanswer : ∀ e, Started (s.answer w e) := fun e => h.of_control (s.answer_toControl w e)
  have hgive : ∀ (u : State) r, Started u → Started (u.giveBackIfWaiting r) := by
    intro u r hu
    obtain ⟨heq, _⟩ | ⟨heq, _⟩ := u.giveBackIfWaiting_cases r
    · rwa [heq]
    · rw [heq]
      refine @Started.setPermit _ _ hu .released (by simp) fun b => ?_
      rw [giveBack_toControl]
      split
      · next hb => subst hb; exact ⟨rfl, .inr rfl⟩
      · exact ⟨rfl, .inl rfl⟩
  have hmake : ∀ (u : State) r, Started u → Started (u.makeReady w r e) := fun u r hu =>
    hu.of_control (u.makeReady_toControl w r e)
  unfold State.ready
  split
  · exact hanswer e
  · next r _ =>
    split
    · exact hanswer canceled
    · split
      · exact hgive _ r (hanswer e)
      · refine hmake _ r (@Started.setPermit _ _ h .reacquiring (by simp) fun b => ?_)
        rw [reacquire_toControl]
        split
        · next hb => subst hb; exact ⟨rfl, .inr rfl⟩
        · exact ⟨rfl, .inl rfl⟩
      · exact hmake s r h
      · exact hanswer canceled

/-- `ready` answers a running attempt's request only while the attempt holds its permit. -/
theorem Started.delivery_held (h : Started s) (e : ErrorCode) :
    ∀ d ∈ s.delivery (s.ready w e) w, d.permit = .held := by
  intro d hd
  unfold delivery at hd
  cases hr : (s.requests w).requester with
  | none => simp [hr] at hd
  | some r =>
    simp only [hr] at hd
    split at hd
    · next hcond =>
      obtain ⟨hdone, hrun, hstop⟩ := hcond
      rw [List.mem_singleton.mp hd]
      show (s.attempts r).permit = .held
      cases hp : (s.attempts r).permit with
      | held => rfl
      | none => exact absurd hp (h r hrun)
      | released =>
        simp [State.ready, hr, hstop, hp, makeReady_requests] at hdone
      | reacquiring =>
        simp [State.ready, hr, hstop, hp, makeReady_requests] at hdone
    · simp at hd

theorem Started.readied_held (h : Started s) (e : ErrorCode) (ws : List WaitId) :
    ∀ d ∈ readied e s ws, d.permit = .held := by
  induction ws generalizing s with
  | nil => simp [readied]
  | cons w ws ih =>
    intro d hd
    obtain hd | hd := List.mem_append.mp hd
    · exact h.delivery_held e d hd
    · exact ih (h.ready w e) d hd

theorem regainedAnswers_held {granted : Bool} (h : granted = true → (s.attempts a).permit = .held)
    (ws : List WaitId) : ∀ d ∈ regainedAnswers a granted s ws, d.permit = .held := by
  induction ws generalizing s with
  | nil => simp [regainedAnswers]
  | cons w ws ih =>
    intro d hd
    obtain hd | hd := List.mem_append.mp hd
    · split at hd
      · next hcond =>
        rw [List.mem_singleton.mp hd]
        exact h hcond.1
      · simp at hd
    · refine ih (fun hg => ?_) d hd
      unfold answerReady
      split
      · rw [answer_toControl]
        exact h hg
      · exact h hg

/-- Every delivery of an event finds the permit held exactly if the event is no request that an
attempt without its permit makes of a target already completed. -/
theorem Inv.delivered_held (h : Inv s) (e : Event) :
    (∀ d ∈ s.delivered e, d.permit = .held) ↔ s.AsksHolding e := by
  have hstarted : ∀ b, (s.attempts b).phase = .running → (s.attempts b).permit ≠ .none :=
    fun b hb => ((h.control b).started (.inl hb)).1
  cases e with
  | wait order later target requester stopRequested =>
    cases stopRequested with
    | true => simp [delivered, AsksHolding]
    | false =>
      unfold delivered AsksHolding
      cases hres : (s.attempts target).result with
      | none => simp [hres]
      | some result =>
        cases hr : requester.bind s.running with
        | none => simp [hres, hr]
        | some r =>
          by_cases hstop : (s.attempts r).stopping = false
          · simp [hres, hr, hstop]
          · simp [hres, hr, hstop]
  | complete a result =>
    refine iff_of_true (Started.readied_held (fun b hb => ?_) result _) trivial
    have hc := s.start.setAttempt_toControl a b (f := fun x =>
      { x with result := some result, predecessor := none })
      (g := fun c => { c with result := some result, predecessor := none }) fun _ => rfl
    rw [hc] at hb ⊢
    split at hb
    · next hba =>
      rw [if_pos hba]
      exact hstarted a hb
    · next hba =>
      rw [if_neg hba]
      exact hstarted b hb
  | onReacquired a granted =>
    refine iff_of_true (regainedAnswers_held (fun hg => ?_) _) trivial
    rw [regained_toControl, if_pos rfl, if_pos hg]
  | createAttempt | run | onPermit | cancelWait | onOuterStop | finish =>
    exact iff_of_true (by simp [delivered]) trivial

end State

/-- The coordinator, and all that it has delivered. -/
structure Delivering where
  system : System := {}
  deliveries : List Delivery := []

namespace Delivering

def step (h : Delivering) (e : Event) : Delivering where
  system := h.system.step e
  deliveries := h.deliveries ++ h.system.coord.delivered e

def machine : Machine Delivering Event where
  init h := h = {}
  enabled h := h.system.enabled
  step := step

theorem sound {ok : Delivering → Event → Prop} {h : Delivering} (hr : machine.Reachable ok h) :
    System.Sound h.system := by
  refine hr.invariant (P := fun h => System.Sound h.system) (fun h hs => ?_)
    fun _ _ hs he _ => hs.step he
  obtain rfl : h = {} := hs
  exact System.sound_init

/-- In every run in which no request of an attempt without its permit names a target already
completed, each result is delivered to an attempt that holds its permit; and any such request is
given its result without. -/
theorem delivered_holding (h : Delivering) :
    (machine.Reachable (fun h e => h.system.coord.AsksHolding e) h →
      ∀ d ∈ h.deliveries, d.permit = .held) ∧
    (machine.Reachable (fun _ _ => True) h → ∀ e, h.system.enabled e →
      (¬h.system.coord.AsksHolding e ↔ ∃ d ∈ h.system.coord.delivered e, d.permit ≠ .held)) := by
  refine ⟨fun hr => ?_, fun hr e he => ?_⟩
  · refine hr.invariant_under (P := fun h => ∀ d ∈ h.deliveries, d.permit = .held)
      (fun _ hr => sound hr) (fun h hs => ?_) fun h e hs hd he hok d hmem => ?_
    · obtain rfl : h = {} := hs
      simp
    · obtain hmem | hmem := List.mem_append.mp hmem
      · exact hd d hmem
      · exact (hs.inv.delivered_held e).mpr hok d hmem
  · rw [← (sound hr).inv.delivered_held e]
    simp

/-- Where nobody waits there is no edge. -/
theorem no_edges {s : System} (hs : System.Sound s) (hw : s.coord.waits = []) (a b : AttemptId) :
    (s.coord.attempts a).edgesOut b = none := by
  rw [hs.inv.links.edges, hw]
  rfl

/-- An attempt holding its permit asks for an output already built. -/
def asksHeld : List Event :=
  [.createAttempt [['a']] none, .createAttempt [['b']] none, .run 0, .onPermit 0,
    .complete 1 .success,
    .wait (fun _ => []) (fun a => if a = 0 then [1] else []) 1 (some [['a']]) false]

theorem delivered_holding_asksHeld : ∀ d ∈ (machine.runs {} asksHeld).deliveries, d.permit = .held := by
  refine (delivered_holding _).1 ?_
  let h := machine.runs {} (asksHeld.take 5)
  have hbefore : machine.Reachable (fun h e => h.system.coord.AsksHolding e) h :=
    (Machine.Reachable.start rfl).runs
      ⟨nofun, trivial, nofun, trivial, ⟨by decide, rfl, rfl⟩, trivial, rfl, trivial,
        (by decide : 1 < _), trivial, trivial⟩
  have hnone := no_edges (sound hbefore) rfl
  have hreq : (some [['a']]).bind h.system.coord.running = some 0 := by decide
  refine hbefore.runs ⟨⟨by decide, fun a b => ?_, fun a b => ?_⟩, fun _ r hr _ => ?_, trivial⟩
  · rw [hnone]
    simp
  · rw [hreq, State.enter_attempts]
    by_cases ha : a = 0
    · subst ha
      by_cases hb : b = 1
      · subst hb; simp [increment]
      · simp [hb, hnone]
    · have hne : ¬0 = a := fun h => ha h.symm
      simp [ha, hne, hnone]
  · rw [← Option.some.inj (hreq.symm.trans hr)]
    decide

/-- One thread of an attempt waits for an output being built, and another asks for one already
built. -/
def asksReleased : List Event :=
  [.createAttempt [['a']] none, .createAttempt [['b']] none, .createAttempt [['c']] none, .run 0,
    .onPermit 0, .wait (fun _ => []) (fun a => if a = 0 then [1] else []) 1 (some [['a']]) false,
    .complete 2 .success,
    .wait (fun a => if a = 0 then [1] else []) (fun a => if a = 0 then [1, 2] else []) 2
      (some [['a']]) false]

theorem asksReleased_reachable :
    machine.Reachable (fun _ _ => True) (machine.runs {} asksReleased) := by
  let h := machine.runs {} (asksReleased.take 5)
  have hbefore : machine.Reachable (fun _ _ => True) h :=
    (Machine.Reachable.start rfl).runs
      ⟨nofun, trivial, nofun, trivial, nofun, trivial, ⟨by decide, rfl, rfl⟩, trivial, rfl, trivial,
        trivial⟩
  have hnone := no_edges (sound hbefore) rfl
  have hwait : h.system.enabled (.wait (fun _ => []) (fun a => if a = 0 then [1] else []) 1
      (some [['a']]) false) := by
    refine ⟨by decide, fun a b => ?_, fun a b => ?_⟩
    · rw [hnone]
      simp
    · have hreq : (some [['a']]).bind h.system.coord.running = some 0 := by decide
      rw [hreq, State.enter_attempts]
      by_cases ha : a = 0
      · subst ha
        by_cases hb : b = 1
        · subst hb; simp [increment]
        · simp [hb, hnone]
      · have hne : ¬0 = a := fun h => ha h.symm
        simp [ha, hne, hnone]
  let h' := machine.runs h ((asksReleased.drop 5).take 2)
  have hafter : machine.Reachable (fun _ _ => True) h' :=
    hbefore.runs ⟨hwait, trivial, (by decide : 2 < _), trivial, trivial⟩
  have hedge : ∀ a b, ((h'.system.coord.attempts a).edgesOut b).isSome ↔ a = 0 ∧ b = 1 := by
    intro a b
    rw [(sound hafter).inv.links.edge_iff]
    have hwaits : h'.system.coord.waits = [0] := by decide
    have hblocked : (h'.system.coord.requests 0).state = .blocked := by decide
    have hreq : (h'.system.coord.requests 0).requester = some 0 := by decide
    have htarget : (h'.system.coord.requests 0).target = 1 := by decide
    rw [hwaits]
    simp [hblocked, hreq, htarget, eq_comm]
  have hagain : h'.system.enabled (.wait (fun a => if a = 0 then [1] else [])
      (fun a => if a = 0 then [1, 2] else []) 2 (some [['a']]) false) := by
    refine ⟨by decide, fun a b => ?_, fun a b => ?_⟩
    · rw [hedge]
      by_cases ha : a = 0 <;> simp [ha]
    · have hreq : (some [['a']]).bind h'.system.coord.running = some 0 := by decide
      rw [hreq, State.enter_attempts]
      by_cases ha : a = 0
      · subst ha
        by_cases hb : b = 2
        · subst hb; simp [increment]
        · have hone := hedge 0 b
          simp [hb, hone]
      · have hne : ¬0 = a := fun h => ha h.symm
        have hno := hedge a b
        simp [ha, hne] at hno ⊢
        simp [hno]
  exact hafter.runs ⟨hagain, trivial, trivial⟩

/-- The second request is given its result while its attempt is without its permit. -/
theorem asksReleased_unpermitted : ¬∀ h, machine.Reachable (fun _ _ => True) h →
    ∀ d ∈ h.deliveries, d.permit = .held := by
  intro hall
  have hlast := hall _ asksReleased_reachable ⟨1, 0, .released⟩ (by decide)
  simp at hlast

end Delivering

end MakeBelieve.Coordinator
