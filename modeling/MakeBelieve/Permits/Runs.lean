import MakeBelieve.Permits.View

namespace MakeBelieve.Permits

open Library
open Coordinator (AttemptId PermitCall)
open Queue (OpId Kind)

namespace State

/-- Which operation is whose: each takes an attempt's first slot, under its ticket, or takes one
back for its lease. -/
structure Linked (s : State) : Prop where
  firstKind : ∀ a i, s.first a = some i → (s.queue.ops i).kind = .first (some a)
  kindFirst : ∀ a i, (s.queue.ops i).kind = .first (some a) → s.first a = some i
  ticketed : ∀ i < s.queue.opCount, (s.queue.ops i).kind ≠ .first none
  takeBackKind : ∀ a j, s.takeBack a = some j → ∃ i, s.first a = some i ∧
    (s.queue.ops j).kind = .reacquire i
  kindTakeBack : ∀ i j, (s.queue.ops j).kind = .reacquire i →
    (∀ given, (s.queue.ops j).phase ≠ .completed given) → ∃ a, s.takeBack a = some j

/-- What holds of the two, and between them, in every state any run leads to. -/
structure Sound (n : Nat) (s : State) : Prop where
  coordinator : s.coordinator.Sound
  queue : ∃ q, Queue.State.Ok n s.queue q
  linked : s.Linked
  unlocked : s.locked = false → s.calls = []
  views : ∀ a, (s.view a).Ok

variable {n : Nat} {s t : State} {a b : AttemptId} {i j : OpId}

/-- No two attempts share an operation. -/
theorem Linked.first_inj (h : s.Linked) (ha : s.first a = some i) (hb : s.first b = some i) :
    a = b := by
  have hk := (h.firstKind a i ha).symm.trans (h.firstKind b i hb)
  simpa using hk

theorem Linked.takeBack_inj (h : s.Linked) (ha : s.takeBack a = some j)
    (hb : s.takeBack b = some j) : a = b := by
  obtain ⟨i, hia, hka⟩ := h.takeBackKind a j ha
  obtain ⟨i', hib, hkb⟩ := h.takeBackKind b j hb
  obtain rfl : i = i' := by simpa using hka.symm.trans hkb
  exact h.first_inj hia hib

/-- The same operations under the same names. -/
theorem Linked.keeps (h : s.Linked) (hk : ∀ i, (t.queue.ops i).kind = (s.queue.ops i).kind)
    (hp : ∀ i, (∃ given, (s.queue.ops i).phase = .completed given) →
      ∃ given, (t.queue.ops i).phase = .completed given)
    (hc : t.queue.opCount = s.queue.opCount) (hf : t.first = s.first)
    (hb : t.takeBack = s.takeBack) : t.Linked where
  firstKind a i hi := by
    rw [hk]
    exact h.firstKind a i (hf ▸ hi)
  kindFirst a i hi := by
    rw [hf]
    exact h.kindFirst a i ((hk i).symm.trans hi)
  ticketed i hi := by
    rw [hk]
    exact h.ticketed i (hc ▸ hi)
  takeBackKind a j hj := by
    obtain ⟨i, hi, hki⟩ := h.takeBackKind a j (hb ▸ hj)
    exact ⟨i, hf ▸ hi, (hk j).trans hki⟩
  kindTakeBack i j hj hnot := by
    rw [hb]
    refine h.kindTakeBack i j ((hk j).symm.trans hj) fun given hg => ?_
    obtain ⟨g, hg'⟩ := hp j ⟨given, hg⟩
    exact hnot g hg'

theorem Sound.steered (h : Sound n s) (a : AttemptId) : (s.view a).Steered := by
  have hc := h.coordinator.inv.control a
  refine ⟨fun hp => ?_, fun ho => ?_⟩
  · obtain ⟨hnone, _⟩ := hc.unstarted hp
    refine ⟨?_, ?_⟩
    · show decide (_ = _) = false
      rw [hnone]
      rfl
    · show (s.coordinator.coord.attempts a).reacquireOutstanding = false
      by_contra ho
      have := hc.outstanding.mpr (by simpa using ho)
      rw [hnone] at this
      simp at this
  · show decide (_ = _) = false
    rw [hc.outstanding.mpr ho]
    rfl

theorem view_asked (h : s.locked = false) (a : AttemptId) : (s.view a).asked = 0 := by
  simp [view, h]

theorem Sound.view_releases (hs : Sound n s) (h : s.locked = false) (a : AttemptId) :
    (s.view a).releases = 0 := by
  simp [view, hs.unlocked h]

theorem transition_view (h : s.locked = false) (e : Coordinator.Event) (b : AttemptId) :
    (s.transition e).view b = (s.view b).turned ((s.coordinator.step e).coord.attempts b).toControl
      ((s.coordinator.step e).coord.calls.count (.release b))
      ((s.coordinator.step e).coord.effects.reacquires.count b)
      ((s.coordinator.step e).coord.effects.drains.count b) := by
  simp [view, transition, View.turned, h]

/-- A transition leaves the attempts it is not about as they were with the queue. -/
theorem Sound.calm_view (hs : Sound n s) (h : s.locked = false) {e : Coordinator.Event}
    (he : s.coordinator.enabled e) (hb : e.subject ≠ some b) : ((s.transition e).view b).Ok := by
  have hsteered := hs.steered b
  have hcalm := hs.coordinator.calm he hb (hs.views b).drained
  have htaken : e.taken b = 0 ∧ e.answered b = 0 := by
    cases e with
    | onPermit c =>
      have hne : c ≠ b := fun heq => hb (heq ▸ rfl)
      simp [Coordinator.Event.taken, Coordinator.Event.answered, hne]
    | onReacquired c granted =>
      have hne : c ≠ b := fun heq => hb (heq ▸ rfl)
      simp [Coordinator.Event.taken, Coordinator.Event.answered, hne]
    | _ => exact ⟨rfl, rfl⟩
  have hreleased := hs.coordinator.released_count he b
  have hout := hs.coordinator.outstanding_count he b
  rw [htaken.1, Nat.add_zero] at hreleased
  rw [htaken.2, Nat.add_zero] at hout
  rw [transition_view h, hcalm.drains]
  refine (hs.views b).calm hsteered (view_asked h b) (hs.view_releases h b) hcalm.phase hcalm.drain
    (fun hp ho => ?_) hreleased hout
  have hstop := (hs.coordinator.inv.control b).ended (hcalm.phase.symm.trans hp)
  obtain ho' | hno := hcalm.outstanding ho
  · exact ho'
  · rw [hstop] at hno
    simp at hno

/-- The coordinator moves on, and its lock is held until the queue has heard of it. -/
theorem Sound.transition (hs : Sound n s) (h : s.locked = false) {e : Coordinator.Event}
    (he : s.coordinator.enabled e)
    (hsubject : ∀ b, e.subject = some b → ((s.transition e).view b).Ok) :
    Sound n (s.transition e) where
  coordinator := hs.coordinator.step he
  queue := hs.queue
  linked := hs.linked.keeps (fun _ => rfl) (fun _ => id) rfl rfl rfl
  unlocked hl := absurd hl (by simp [State.transition])
  views b := by
    by_cases hb : e.subject = some b
    · exact hsubject b hb
    · exact hs.calm_view h he hb

theorem Sound.started (hs : Sound n s) (h : s.locked = false) {e : Coordinator.Event}
    (hstarted : Started e) (he : s.coordinator.enabled e) : Sound n (s.transition e) := by
  refine hs.transition h he fun b hb => ?_
  have hreleased := hs.coordinator.released_count he b
  have hout := hs.coordinator.outstanding_count he b
  rw [transition_view h]
  cases e with
  | run a =>
    obtain rfl : a = b := Option.some.inj hb
    have hself : (s.coordinator.coord.run a).attempts a =
        { s.coordinator.coord.attempts a with phase := .queued, predecessor := none } := by
      show Function.update _ a _ a = _
      rw [Function.update_self]
      rfl
    exact (hs.views a).run he.2.1 (view_asked h a) (congrArg (fun x => x.phase) hself)
      (congrArg (fun x => x.reacquireOutstanding) hself) (congrArg (fun x => x.drain) hself)
  | finish a =>
    obtain rfl : a = b := Option.some.inj hb
    obtain ⟨_, hphase, hends⟩ := s.coordinator.coord.finish_ends a
    refine (hs.views a).finish (hs.steered a) he (view_asked h a) (hs.view_releases h a) hphase ?_
      hreleased hout
    obtain ⟨hd, hdrains, ho⟩ | ⟨hd, hdrains, ho⟩ := hends
    · refine .inl ⟨hd, ?_, ho⟩
      show (s.coordinator.coord.finish a).effects.drains.count a = 0
      rw [hdrains]
      rfl
    · refine .inr ⟨hd, ?_, ho⟩
      show (s.coordinator.coord.finish a).effects.drains.count a = 1
      rw [hdrains]
      simp
  | onPermit a => exact absurd hstarted id
  | onReacquired a granted => exact absurd hstarted id
  | createAttempt | wait | cancelWait | complete | onOuterStop =>
    simp [Coordinator.Event.subject] at hb

theorem Sound.onPermit (hs : Sound n s) (h : s.locked = false)
    (hp : (s.coordinator.coord.attempts a).phase = .queued) (hi : s.first a = some i)
    (hl : (s.queue.ops i).lease = some true) : Sound n (s.transition (.onPermit a)) := by
  refine hs.transition h hp fun b hb => ?_
  obtain rfl : a = b := Option.some.inj hb
  have hpermit := hs.coordinator.inv.onPermit hp
  have hself : ((s.coordinator.step (.onPermit a)).coord.attempts a).toControl =
      { (s.coordinator.coord.attempts a).toControl with
        phase := .running, permit := .held, lease := true } := hpermit.self
  have hcalls : (s.coordinator.step (.onPermit a)).coord.calls = [] := hpermit.calls
  have heffects : (s.coordinator.step (.onPermit a)).coord.effects = {} := hpermit.effects
  rw [transition_view h, hcalls, heffects]
  refine (hs.views a).onPermit (hs.steered a) hp (view_asked h a) ?_ ?_ ?_ ?_ ?_
  · show (s.first a).map _ = _
    rw [hi, Option.map_some, hl]
  · rw [hself]
  · rw [hself]
  · rw [hself]
    rfl
  · rw [hself]
    rfl

/-- What the answer to a take-back changes, whether the queue gave it or it threw. -/
theorem Sound.onReacquired (hs : Sound n s) (h : s.locked = false)
    (hout : (s.coordinator.coord.attempts a).reacquireOutstanding = true) {granted : Bool}
    (hanswer : (s.view a).takeBack = some (some granted) ∨
      (s.view a).takeBack = none ∧ granted = false)
    {t : State} (hcoord : t.coordinator = s.coordinator) (hqueue : t.queue = s.queue)
    (hlocked : t.locked = s.locked) (hlinked : t.Linked)
    (hviews : ∀ b, b ≠ a → t.view b = s.view b)
    (hview : t.view a = { s.view a with takeBack := none, pooled := 0 }) :
    Sound n (t.transition (.onReacquired a granted)) := by
  have he : s.coordinator.enabled (.onReacquired a granted) := by
    show a ∈ s.coordinator.takeBacks
    apply List.count_pos_iff.mp
    rw [hs.coordinator.takeBacks, hout]
    exact Nat.one_pos
  have ht : t.locked = false := hlocked.trans h
  have hstep : (t.transition (.onReacquired a granted)).coordinator =
      s.coordinator.step (.onReacquired a granted) := by
    rw [← hcoord]
    rfl
  refine ⟨hstep ▸ hs.coordinator.step he, hqueue ▸ hs.queue,
    hlinked.keeps (fun _ => rfl) (fun _ => id) rfl rfl rfl,
    fun hl => absurd hl (by simp [State.transition]), fun b => ?_⟩
  rw [transition_view ht, hcoord]
  by_cases hb : b = a
  · subst hb
    have hreleased := hs.coordinator.released_count he b
    have houts := hs.coordinator.outstanding_count he b
    obtain ⟨hall, hdrain, hstop, hdrains⟩ :=
      s.coordinator.coord.onReacquired_drains b granted
    have hnot : decide ((s.coordinator.coord.attempts b).permit = .held) = false :=
      (hs.steered b).outstanding hout
    rw [hnot] at hreleased
    have htaken : (Coordinator.Event.onReacquired b granted).taken b = granted.toNat := by
      cases granted <;> simp [Coordinator.Event.taken]
    have hanswered : (Coordinator.Event.onReacquired b granted).answered b = 1 := by
      simp [Coordinator.Event.answered]
    rw [htaken, Bool.toNat_false, Nat.zero_add] at hreleased
    rw [hanswered] at houts
    refine (hs.views b).onReacquired (hs.steered b) hout (hs.view_releases h b) hview hanswer
      (hall b).1 hdrain (fun hp => hstop ?_) ?_ hreleased houts
    · exact (hs.coordinator.inv.control b).ended ((hall b).1.symm.trans hp)
    · show (s.coordinator.coord.onReacquired b granted).effects.drains.count b =
        ((s.coordinator.coord.attempts b).drain).toNat
      rw [hdrains]
      cases (s.coordinator.coord.attempts b).drain <;> simp
  · rw [hviews b hb]
    have hcalm := hs.calm_view (b := b) h he (by
      simp only [Coordinator.Event.subject]
      exact fun heq => hb (Option.some.inj heq).symm)
    rwa [transition_view h] at hcalm

/-- What happens in the queue alone: the views of attempts change with the operations named in
them. -/
theorem Sound.queued (hs : Sound n s) (hqueue : ∃ q, Queue.State.Ok n t.queue q)
    (hcoord : t.coordinator = s.coordinator) (hlinked : t.Linked)
    (hunlocked : t.locked = false → t.calls = []) (hviews : ∀ a, (t.view a).Ok) : Sound n t :=
  ⟨hcoord ▸ hs.coordinator, hqueue, hlinked, hunlocked, hviews⟩

/-- Nothing an attempt's view shows changes. -/
theorem Sound.kept (hs : Sound n s) {queue : Queue.State} (hqueue : ∃ q, Queue.State.Ok n queue q)
    (hk : s.queue.Keeps queue) : Sound n { s with queue } := by
  refine hs.queued hqueue rfl (hs.linked.keeps hk.kind
    (fun i ⟨given, hg⟩ => ⟨given, (hk.completed i given).mpr hg⟩) hk.count rfl rfl) hs.unlocked
    fun a => ?_
  have hview : ({ s with queue } : State).view a = s.view a := by
    have hanswer : ∀ i, answerOf (queue.ops i).phase = answerOf (s.queue.ops i).phase := by
      intro i
      apply Option.ext
      intro given
      rw [answerOf_eq_some, answerOf_eq_some]
      exact hk.completed i given
    simp [view, hk.lease, hanswer]
  rw [hview]
  exact hs.views a

/-- A lease gives its slot back. -/
theorem Sound.releaseLease_eq (hs : Sound n s) (a : AttemptId) :
    ∃ queue, (∀ t : State, t.first = s.first → t.queue = s.queue →
        t.releaseLease a = { t with queue }) ∧ (∃ q, Queue.State.Ok n queue q) ∧
      ({ s with queue } : State).Linked ∧
      (∀ b, b ≠ a → ({ s with queue } : State).view b = s.view b) ∧
      ({ s with queue } : State).view a = { s.view a with lease := View.released (s.view a).lease } := by
  cases hi : s.first a with
  | none =>
    refine ⟨s.queue, fun t hf hq => ?_, hs.queue, hs.linked, fun _ _ => rfl, ?_⟩
    · have hsame : t.releaseLease a = t := by simp [releaseLease, hf, hi]
      rw [hsame, ← hq]
    · simp [view, hi, View.released]
  | some i =>
    obtain ⟨q, hq⟩ := hs.queue
    have hrel := Queue.State.releaseLease_releases hq i
    have hanswer : ∀ j, answerOf ((s.queue.releaseLease i).ops j).phase =
        answerOf (s.queue.ops j).phase := by
      intro j
      apply Option.ext
      intro given
      rw [answerOf_eq_some, answerOf_eq_some]
      exact hrel.completed j given
    refine ⟨s.queue.releaseLease i, fun t hf hq => by simp [releaseLease, hf, hi, hq, Queue.State.step],
      hq.releaseLease, hs.linked.keeps hrel.kind
      (fun j ⟨given, hg⟩ => ⟨given, (hrel.completed j given).mpr hg⟩) hrel.count rfl rfl,
      fun b hb => ?_, ?_⟩
    · have hlease : ((s.first b).map fun j => ((s.queue.releaseLease i).ops j).lease) =
          (s.first b).map fun j => (s.queue.ops j).lease := by
        cases hj : s.first b with
        | none => rfl
        | some j =>
          have hji : j ≠ i := fun heq => hb (hs.linked.first_inj (heq ▸ hj) hi)
          rw [Option.map_some, Option.map_some, hrel.lease, if_neg hji]
      simp [view, hlease, hanswer]
    · simp [view, hi, View.released, hrel.lease, hanswer]

theorem Sound.call (hs : Sound n s) (hc : s.calls ≠ []) : Sound n s.call := by
  unfold State.call
  cases hcalls : s.calls with
  | nil => exact absurd hcalls hc
  | cons c calls =>
    have hlocked : s.locked = true := by
      by_contra hl
      exact hc (hs.unlocked (by simpa using hl))
    cases c with
    | promote a =>
      obtain ⟨q, hq⟩ := hs.queue
      have hkept := @Sound.kept _ _ hs (s.queue.promote a) (hq.promote a) (s.queue.keeps_promote a)
      refine hkept.queued hkept.queue rfl (hkept.linked.keeps (fun _ => rfl) (fun _ => id) rfl rfl rfl)
        (fun hl => absurd hl (by simp [hlocked])) fun b => ?_
      have hv := hkept.views b
      have hsame : ({ s with calls, queue := s.queue.promote a } : State).view b =
          ({ s with queue := s.queue.promote a } : State).view b := by
        simp [view, hcalls]
      exact hsame ▸ hv
    | release a =>
      obtain ⟨queue, heq, hqueue, hlinked, hother, hself⟩ := hs.releaseLease_eq a
      show Sound n (({ s with calls } : State).releaseLease a)
      rw [heq { s with calls } rfl rfl]
      refine hs.queued hqueue rfl (hlinked.keeps (fun _ => rfl) (fun _ => id) rfl rfl rfl)
        (fun hl => absurd hl (by simp [hlocked])) fun b => ?_
      by_cases hb : b = a
      · subst hb
        have hpos : (s.view b).releases = calls.count (.release b) + 1 := by
          simp [view, hcalls]
        have hv := (hs.views b).called (by omega)
        have hsame : ({ s with calls, queue } : State).view b =
            { ({ s with queue } : State).view b with releases := calls.count (.release b) } := rfl
        rw [hsame, hself]
        rw [hpos] at hv
        exact hv
      · have hsame : ({ s with calls, queue } : State).view b = ({ s with queue } : State).view b := by
          simp [view, hcalls, Ne.symm hb]
        rw [hsame, hother b hb]
        exact hs.views b

theorem Sound.unlock (hs : Sound n s) (hl : s.locked = true) (hc : s.calls = []) :
    Sound n s.unlock := by
  refine hs.queued hs.queue rfl (hs.linked.keeps (fun _ => rfl) (fun _ => id) rfl rfl rfl)
    (fun _ => hc) fun a => ?_
  have hnone : (s.view a).releases = 0 := by simp [view, hc]
  have hview : s.unlock.view a =
      { s.view a with asked := 0, pooled := (s.view a).pooled + (s.view a).asked } := by
    simp [view, State.unlock, hl]
    rfl
  rw [hview]
  exact (hs.views a).unlocked hnone

theorem Sound.drainedOff (hs : Sound n s) (ha : a ∈ s.drains) :
    Sound n { s with drains := s.drains.erase a, ending := s.ending ++ [a] } := by
  refine hs.queued hs.queue rfl (hs.linked.keeps (fun _ => rfl) (fun _ => id) rfl rfl rfl)
    hs.unlocked fun b => ?_
  have hpos : 0 < s.drains.count a := List.count_pos_iff.mpr ha
  by_cases hb : b = a
  · subst hb
    have hv := (hs.views b).drainedOff (by
      show 0 < s.drains.count b + _
      omega)
    have hview : ({ s with drains := s.drains.erase b, ending := s.ending ++ [b] } : State).view b =
        { s.view b with drains := (s.view b).drains - 1, ending := (s.view b).ending + 1 } := by
      simp [view]
      omega
    exact hview ▸ hv
  · have hview : ({ s with drains := s.drains.erase a, ending := s.ending ++ [a] } : State).view b =
        s.view b := by
      simp [view, List.count_erase_of_ne hb, Ne.symm hb]
    exact hview ▸ hs.views b

theorem Sound.released (hs : Sound n s) (ha : a ∈ s.ending) :
    Sound n (({ s with ending := s.ending.erase a } : State).releaseLease a) := by
  obtain ⟨queue, heq, hqueue, hlinked, hother, hself⟩ := hs.releaseLease_eq a
  rw [heq { s with ending := s.ending.erase a } rfl rfl]
  refine hs.queued hqueue rfl (hlinked.keeps (fun _ => rfl) (fun _ => id) rfl rfl rfl)
    hs.unlocked fun b => ?_
  have hpos : 0 < s.ending.count a := List.count_pos_iff.mpr ha
  by_cases hb : b = a
  · subst hb
    have hv := (hs.views b).closed hpos
    have hview : ({ s with ending := s.ending.erase b, queue } : State).view b =
        { ({ s with queue } : State).view b with ending := (s.view b).ending - 1 } := by
      simp [view]
    rw [hview, hself]
    exact hv
  · have hview : ({ s with ending := s.ending.erase a, queue } : State).view b =
        ({ s with queue } : State).view b := by
      simp [view, List.count_erase_of_ne hb]
    rw [hview, hother b hb]
    exact hs.views b

/-- A new operation, of an attempt that had none of its kind. -/
theorem connect_ops (s : Queue.State) (kind : Kind) (i : OpId) :
    (s.step (.connect kind)).ops i = if i = s.opCount then { kind } else s.ops i :=
  Function.update_apply ..

theorem Sound.made (hs : Sound n s) (hi : (s.queue.ops i).kind ≠ .first none) :
    i < s.queue.opCount := by
  obtain ⟨q, hq⟩ := hs.queue
  apply hq.made
  intro heq
  rw [heq] at hi
  exact hi rfl

theorem Sound.first_made (hs : Sound n s) (ha : s.first a = some i) : i < s.queue.opCount :=
  hs.made (by simp [hs.linked.firstKind a i ha])

theorem Sound.takeBack_made (hs : Sound n s) (ha : s.takeBack a = some j) :
    j < s.queue.opCount := by
  obtain ⟨i, _, hk⟩ := hs.linked.takeBackKind a j ha
  exact hs.made (by simp [hk])

theorem Sound.schedule (hs : Sound n s)
    (hp : (s.coordinator.coord.attempts a).phase = .queued) (ha : s.first a = none) :
    Sound n (s.schedule a) := by
  obtain ⟨q, hq⟩ := hs.queue
  have hconnect : s.queue.Connectable (.first (some a)) := by
    intro t ht i hk
    obtain rfl : a = t := by simpa using ht
    rw [hs.linked.kindFirst a i hk] at ha
    simp at ha
  have hold : ∀ i, i < s.queue.opCount →
      (s.queue.step (.connect (.first (some a)))).ops i = s.queue.ops i := fun i hi => by
    rw [connect_ops, if_neg (Nat.ne_of_lt hi)]
  have hnew : (s.queue.step (.connect (.first (some a)))).ops s.queue.opCount =
      { kind := .first (some a) } := by
    rw [connect_ops, if_pos rfl]
  have hself : (s.schedule a).first a = some s.queue.opCount := Function.update_self ..
  have hother : ∀ b, b ≠ a → (s.schedule a).first b = s.first b :=
    fun b hb => Function.update_of_ne hb ..
  refine hs.queued ⟨q, hq.connect hconnect⟩ rfl ⟨fun b i hi => ?_, fun b i hi => ?_,
    fun i hi => ?_, fun b j hj => ?_, fun i j hj hnot => ?_⟩ hs.unlocked fun b => ?_
  · by_cases hb : b = a
    · subst hb
      obtain rfl : s.queue.opCount = i := Option.some.inj (hself.symm.trans hi)
      exact congrArg Queue.Op.kind hnew
    · rw [hother b hb] at hi
      exact (congrArg Queue.Op.kind (hold i (hs.first_made hi))).trans (hs.linked.firstKind b i hi)
  · have hi' : ((s.queue.step (.connect (.first (some a)))).ops i).kind = .first (some b) := hi
    rw [connect_ops] at hi'
    split at hi'
    · next heq =>
      obtain rfl : a = b := by simpa using hi'
      rw [hself, heq]
    · have hb : b ≠ a := by
        rintro rfl
        rw [hs.linked.kindFirst b i hi'] at ha
        simp at ha
      rw [hother b hb]
      exact hs.linked.kindFirst b i hi'
  · show ((s.queue.step (.connect (.first (some a)))).ops i).kind ≠ _
    have hi' : i < s.queue.opCount + 1 := hi
    rw [connect_ops]
    split
    · simp
    · next hne =>
      have hne' : ¬(i : Nat) = s.queue.opCount := hne
      exact hs.linked.ticketed i (Nat.lt_of_le_of_ne (Nat.le_of_lt_succ hi') hne')
  · obtain ⟨i, hi, hk⟩ := hs.linked.takeBackKind b j hj
    have hb : b ≠ a := by
      rintro rfl
      rw [hi] at ha
      simp at ha
    exact ⟨i, (hother b hb).trans hi,
      (congrArg Queue.Op.kind (hold j (hs.takeBack_made hj))).trans hk⟩
  · have hj' : ((s.queue.step (.connect (.first (some a)))).ops j).kind = .reacquire i := hj
    have hnot' : ∀ given, ((s.queue.step (.connect (.first (some a)))).ops j).phase ≠
      .completed given := hnot
    rw [connect_ops] at hj' hnot'
    split at hj'
    · simp at hj'
    · next hne =>
      rw [if_neg hne] at hnot'
      exact hs.linked.kindTakeBack i j hj' hnot'
  · have hback : ((s.schedule a).takeBack b).map (fun i => answerOf ((s.schedule a).queue.ops i).phase) =
        (s.takeBack b).map fun i => answerOf (s.queue.ops i).phase := by
      show (s.takeBack b).map _ = _
      cases hj : s.takeBack b with
      | none => rfl
      | some j =>
        rw [Option.map_some, Option.map_some]
        exact congrArg (fun op => some (answerOf (Queue.Op.phase op))) (hold j (hs.takeBack_made hj))
    by_cases hb : b = a
    · subst hb
      have hview : (s.schedule b).view b = { s.view b with lease := some none } := by
        have hlease : ((s.schedule b).first b).map
            (fun i => ((s.schedule b).queue.ops i).lease) = some none := by
          rw [hself, Option.map_some]
          exact congrArg (fun op => some (Queue.Op.lease op)) hnew
        unfold view
        rw [hlease, hback]
        rfl
      rw [hview]
      exact (hs.views b).scheduled hp
    · have hview : (s.schedule a).view b = s.view b := by
        have hlease : ((s.schedule a).first b).map
            (fun i => ((s.schedule a).queue.ops i).lease) =
            (s.first b).map fun i => (s.queue.ops i).lease := by
          rw [hother b hb]
          cases hi : s.first b with
          | none => rfl
          | some i =>
            rw [Option.map_some, Option.map_some]
            exact congrArg (fun op => some (Queue.Op.lease op)) (hold i (hs.first_made hi))
        unfold view
        rw [hlease, hback]
        rfl
      rw [hview]
      exact hs.views b

/-- A lease is made of the slot an attempt's work was given. -/
theorem Sound.takeLease (hs : Sound n s) (hi : (s.queue.ops i).slot = true) :
    Sound n { s with queue := s.queue.takeLease i } := by
  obtain ⟨q, hq⟩ := hs.queue
  obtain ⟨_, hnone, ticket, hkind⟩ := (hq.op i).slot hi
  have hmade : i < s.queue.opCount := hq.made fun heq => by simp [heq] at hi
  obtain ⟨a, rfl⟩ : ∃ a, ticket = some a := by
    cases ticket with
    | none => exact absurd hkind (hs.linked.ticketed i hmade)
    | some a => exact ⟨a, rfl⟩
  have ha := hs.linked.kindFirst a i hkind
  have hself : (s.queue.takeLease i).ops i =
      { s.queue.ops i with slot := false, lease := some true } := Function.update_self ..
  have hother : ∀ j, j ≠ i → (s.queue.takeLease i).ops j = s.queue.ops j :=
    fun j hj => Function.update_of_ne hj ..
  have hsame : ∀ j, ((s.queue.takeLease i).ops j).kind = (s.queue.ops j).kind ∧
      ((s.queue.takeLease i).ops j).phase = (s.queue.ops j).phase := by
    intro j
    by_cases hj : j = i
    · rw [hj, hself]
      exact ⟨rfl, rfl⟩
    · rw [hother j hj]
      exact ⟨rfl, rfl⟩
  refine hs.queued ⟨q, hq.takeLease hi⟩ rfl (hs.linked.keeps (fun j => (hsame j).1)
    (fun j ⟨given, hg⟩ => ⟨given, (hsame j).2.trans hg⟩) rfl rfl rfl) hs.unlocked fun b => ?_
  by_cases hb : b = a
  · subst hb
    have hview : ({ s with queue := s.queue.takeLease i } : State).view b =
        { s.view b with lease := some (some true) } := by
      simp [view, ha, hself, (hsame _).2]
    have hlease : (s.view b).lease = some none := by simp [view, ha, hnone]
    rw [hview]
    exact (hs.views b).leased hlease
  · have hlease : ((s.first b).map fun j => ((s.queue.takeLease i).ops j).lease) =
        (s.first b).map fun j => (s.queue.ops j).lease := by
      cases hj : s.first b with
      | none => rfl
      | some j =>
        have hji : j ≠ i := fun heq => hb (hs.linked.first_inj (heq ▸ hj) ha)
        rw [Option.map_some, Option.map_some, hother j hji]
    have hview : ({ s with queue := s.queue.takeLease i } : State).view b = s.view b := by
      simp [view, hlease, (hsame _).2]
    rw [hview]
    exact hs.views b

/-- An operation completes: a take-back tells its lease of its slot, if it was given one. -/
theorem Sound.complete (hs : Sound n s) {given : Bool}
    (hq : ∃ q, Queue.State.Ok n (s.queue.complete i given) q)
    (hnot : ∀ g, (s.queue.ops i).phase ≠ .completed g) :
    Sound n { s with queue := s.queue.complete i given } := by
  have hc := s.queue.complete_completes i given
  have hlinked : ({ s with queue := s.queue.complete i given } : State).Linked := by
    refine hs.linked.keeps hc.kind (fun j ⟨g, hg⟩ => ?_) hc.count rfl rfl
    by_cases hj : j = i
    · exact ⟨given, (hc.completed j given).mpr (by rw [if_pos hj])⟩
    · exact ⟨g, (hc.completed j g).mpr (by rwa [if_neg hj])⟩
  have hanswer : ∀ j, j ≠ i →
      answerOf ((s.queue.complete i given).ops j).phase = answerOf (s.queue.ops j).phase := by
    intro j hj
    apply Option.ext
    intro g
    rw [answerOf_eq_some, answerOf_eq_some, hc.completed, if_neg hj]
  refine hs.queued hq rfl hlinked hs.unlocked fun b => ?_
  cases hkind : (s.queue.ops i).kind with
  | first ticket =>
    have hview : ({ s with queue := s.queue.complete i given } : State).view b = s.view b := by
      have hback : ((s.takeBack b).map fun j => answerOf ((s.queue.complete i given).ops j).phase) =
          (s.takeBack b).map fun j => answerOf (s.queue.ops j).phase := by
        cases hj : s.takeBack b with
        | none => rfl
        | some j =>
          obtain ⟨l, _, hk⟩ := hs.linked.takeBackKind b j hj
          have hji : j ≠ i := by
            rintro rfl
            rw [hkind] at hk
            simp at hk
          rw [Option.map_some, Option.map_some, hanswer j hji]
      simp [view, hc.lease, hkind, hback]
    rw [hview]
    exact hs.views b
  | reacquire l =>
    obtain ⟨a, ha⟩ := hs.linked.kindTakeBack l i hkind hnot
    obtain ⟨l', hl, hk⟩ := hs.linked.takeBackKind a i ha
    obtain rfl : l = l' := by simpa using hkind.symm.trans hk
    by_cases hb : b = a
    · subst hb
      have hdone : answerOf ((s.queue.complete i given).ops i).phase = some given :=
        answerOf_eq_some.mpr ((hc.completed i given).mpr (by rw [if_pos rfl]))
      have hview : ({ s with queue := s.queue.complete i given } : State).view b =
          { s.view b with
            takeBack := some (some given)
            lease := if given then some (some true) else (s.view b).lease } := by
        cases given <;> simp [view, ha, hl, hc.lease, hkind, hdone]
      have hback : (s.view b).takeBack = some none := by
        simp [view, ha, answerOf_eq_none.mpr hnot]
      have hlease : (s.view b).lease = some (some false) := by
        obtain ⟨q, hq⟩ := hs.queue
        simp [view, hl, hq.tied.lease i l hkind hnot]
      rw [hview]
      exact (hs.views b).completed hback hlease given
    · have hback : ((s.takeBack b).map fun j => answerOf ((s.queue.complete i given).ops j).phase) =
          (s.takeBack b).map fun j => answerOf (s.queue.ops j).phase := by
        cases hj : s.takeBack b with
        | none => rfl
        | some j =>
          have hji : j ≠ i := fun heq => hb (hs.linked.takeBack_inj (heq ▸ hj) ha)
          rw [Option.map_some, Option.map_some, hanswer j hji]
      have hlease : ((s.first b).map fun j => ((s.queue.complete i given).ops j).lease) =
          (s.first b).map fun j => (s.queue.ops j).lease := by
        cases hj : s.first b with
        | none => rfl
        | some j =>
          have hjl : j ≠ l := fun heq => hb (hs.linked.first_inj (heq ▸ hj) hl)
          rw [Option.map_some, Option.map_some, hc.lease, hkind, if_neg]
          rintro ⟨_, heq⟩
          exact hjl (by simpa using heq.symm)
      have hview : ({ s with queue := s.queue.complete i given } : State).view b = s.view b := by
        simp [view, hback, hlease]
      rw [hview]
      exact hs.views b

theorem Sound.own (hs : Sound n s) {e : Queue.Event} (ho : s.Own e) (he : s.queue.enabled e) :
    Sound n { s with queue := s.queue.step e } := by
  obtain ⟨q, hq⟩ := hs.queue
  have hstep := hq.step he
  cases e with
  | start i => exact hs.kept hstep (s.queue.keeps_setPhase i (by simp [he.2]))
  | enter i => exact hs.kept hstep (Queue.State.keeps_enter he)
  | requestStop i =>
    exact hs.kept hstep (Queue.State.keeps_update rfl rfl rfl rfl fun _ => Iff.rfl)
  | onStop i => exact hs.kept hstep (Queue.State.keeps_onStop hq i)
  | handOn i given =>
    have hp : (s.queue.ops i).phase = .handed given := he
    exact hs.kept hstep (s.queue.keeps_setPhase i (by simp [hp]))
  | resume i given =>
    have hp : (s.queue.ops i).phase = .resuming given := he
    exact hs.complete hstep (by simp [hp])
  | shutDown i given => exact hs.kept hstep (Queue.State.keeps_shutDown hq he)
  | complete i given =>
    have hp : (s.queue.ops i).phase = .completing given := he
    exact hs.complete hstep (by simp [hp])
  | takeLease i => exact hs.takeLease he
  | releaseSlot i => exact hs.kept hstep (Queue.State.keeps_releaseSlot hq)
  | connect kind => exact absurd ho id
  | releaseLease i => exact absurd ho id
  | promote ticket => exact absurd ho id

theorem Sound.stopReacquire (hs : Sound n s) : Sound n (s.stopReacquire a) := by
  have hbase : ∀ queue, Sound n { s with queue } → Sound n { s with
      stopReacquires := s.stopReacquires.erase a
      stopAsked := Function.update s.stopAsked a true, queue } := fun queue h =>
    h.queued h.queue rfl (h.linked.keeps (fun _ => rfl) (fun _ => id) rfl rfl rfl) h.unlocked h.views
  unfold State.stopReacquire
  apply hbase
  cases hj : s.takeBack a with
  | none => exact hs
  | some j =>
    obtain ⟨q, hq⟩ := hs.queue
    exact hs.kept (hq.step (e := .requestStop j) (hs.takeBack_made hj))
      (Queue.State.keeps_update rfl rfl rfl rfl fun _ => Iff.rfl)

/-- A take-back is connected and started: the only one of a lease that has no slot. -/
theorem Sound.reacquire (hs : Sound n s) (ha : a ∈ s.reacquires) : Sound n (s.reacquire a) := by
  obtain ⟨q, hq⟩ := hs.queue
  have hpool : 0 < (s.view a).pooled := List.count_pos_iff.mpr ha
  obtain ⟨_, _, hback, hlease⟩ := (hs.views a).takeable (hs.steered a) hpool
  obtain ⟨lease, hfirst⟩ : ∃ lease, s.first a = some lease := by
    cases hf : s.first a with
    | none => simp [view, hf] at hlease
    | some lease => exact ⟨lease, rfl⟩
  have hheld : (s.queue.ops lease).lease = some false := by
    simpa [view, hfirst] using hlease
  have hnone : s.takeBack a = none := by
    cases hb : s.takeBack a with
    | none => rfl
    | some j => simp [view, hb] at hback
  have hconnect : s.queue.Connectable (.reacquire lease) := by
    refine ⟨hheld, fun j hk => ?_⟩
    by_contra hnot
    have hnot' : ∀ given, (s.queue.ops j).phase ≠ .completed given :=
      fun given hg => hnot ⟨given, hg⟩
    obtain ⟨b, hb⟩ := hs.linked.kindTakeBack lease j hk hnot'
    obtain ⟨l, hl, hk'⟩ := hs.linked.takeBackKind b j hb
    obtain rfl : lease = l := by simpa using hk.symm.trans hk'
    rw [hs.linked.first_inj hl hfirst, hnone] at hb
    simp at hb
  let i := s.queue.opCount
  let connected := s.queue.step (.connect (.reacquire lease))
  let stopped := if s.stopAsked a then connected.step (.requestStop i) else connected
  have hstopped : (∃ q, Queue.State.Ok n stopped q) ∧ stopped.opCount = i + 1 ∧
      (∀ j, j ≠ i → stopped.ops j = s.queue.ops j) ∧
      (stopped.ops i).kind = .reacquire lease ∧ (stopped.ops i).phase = .idle ∧
      (stopped.ops i).lease = none := by
    have hok : Queue.State.Ok n connected q := hq.connect hconnect
    have hnew : connected.ops i = { kind := .reacquire lease } := by
      rw [connect_ops, if_pos rfl]
    have hold : ∀ j, j ≠ i → connected.ops j = s.queue.ops j := fun j hj => by
      rw [connect_ops, if_neg hj]
    by_cases hst : s.stopAsked a = true
    · have heq : stopped = connected.step (.requestStop i) := if_pos hst
      have hself : stopped.ops i = { connected.ops i with stopRequested := true } := by
        rw [heq]
        exact Function.update_self ..
      have hother : ∀ j, j ≠ i → stopped.ops j = connected.ops j := fun j hj => by
        rw [heq]
        exact Function.update_of_ne hj ..
      refine ⟨?_, ?_, fun j hj => (hother j hj).trans (hold j hj), ?_, ?_, ?_⟩
      · show ∃ q, Queue.State.Ok n stopped q
        rw [heq]
        exact hok.step (e := .requestStop i) (Nat.lt_succ_self _)
      · rw [heq]
        rfl
      all_goals rw [hself, hnew]
    · have heq : stopped = connected := if_neg hst
      refine ⟨?_, ?_, fun j hj => ?_, ?_, ?_, ?_⟩
      · show ∃ q, Queue.State.Ok n stopped q
        rw [heq]
        exact ⟨q, hok⟩
      · rw [heq]
        rfl
      · rw [heq]
        exact hold j hj
      all_goals rw [heq, hnew]
  obtain ⟨⟨r, hr⟩, hcount, hold, hkind, hidle, hfresh⟩ := hstopped
  have hmade : i < stopped.opCount := by
    rw [hcount]
    exact Nat.lt_succ_self i
  have heq : s.reacquire a = { s with
      reacquires := s.reacquires.erase a
      takeBack := Function.update s.takeBack a (some i)
      queue := stopped.step (.start i) } := by
    simp [State.reacquire, hfirst, stopped, connected, i]
  have hself : (stopped.step (.start i)).ops i = { stopped.ops i with phase := .starting } :=
    Function.update_self ..
  have hother : ∀ j, j ≠ i → (stopped.step (.start i)).ops j = s.queue.ops j := fun j hj =>
    (Function.update_of_ne hj ..).trans (hold j hj)
  have hne : ∀ j, j < s.queue.opCount → j ≠ i := fun j hj => Nat.ne_of_lt hj
  have hmine : ∀ b, b ≠ a → (Function.update s.takeBack a (some i)) b = s.takeBack b :=
    fun b hb => Function.update_of_ne hb ..
  rw [heq]
  refine hs.queued (hr.step (e := .start i) ⟨hmade, hidle⟩) rfl ⟨fun b j hj => ?_, fun b j hj => ?_,
    fun j hj => ?_, fun b j hj => ?_, fun l j hj hnot => ?_⟩ hs.unlocked fun b => ?_
  · exact (congrArg Queue.Op.kind (hother j (hne j (hs.first_made hj)))).trans
      (hs.linked.firstKind b j hj)
  · have hj' : ((stopped.step (.start i)).ops j).kind = .first (some b) := hj
    have hji : j ≠ i := by
      rintro rfl
      rw [hself] at hj'
      rw [hkind] at hj'
      simp at hj'
    rw [hother j hji] at hj'
    exact hs.linked.kindFirst b j hj'
  · show ((stopped.step (.start i)).ops j).kind ≠ _
    by_cases hji : j = i
    · rw [hji, hself]
      rw [hkind]
      simp
    · have hj' : j < i + 1 := hcount ▸ hj
      rw [hother j hji]
      exact hs.linked.ticketed j (Nat.lt_of_le_of_ne (Nat.le_of_lt_succ hj') hji)
  · have hj' : Function.update s.takeBack a (some i) b = some j := hj
    by_cases hb : b = a
    · subst hb
      rw [Function.update_self] at hj'
      obtain rfl : i = j := Option.some.inj hj'
      refine ⟨lease, hfirst, ?_⟩
      show ((stopped.step (.start i)).ops i).kind = _
      rw [hself]
      exact hkind
    · rw [hmine b hb] at hj'
      obtain ⟨l, hl, hk⟩ := hs.linked.takeBackKind b j hj'
      exact ⟨l, hl, (congrArg Queue.Op.kind (hother j (hne j (hs.takeBack_made hj')))).trans hk⟩
  · have hj' : ((stopped.step (.start i)).ops j).kind = .reacquire l := hj
    have hnot' : ∀ given, ((stopped.step (.start i)).ops j).phase ≠ .completed given := hnot
    by_cases hji : j = i
    · exact ⟨a, by rw [hji]; exact Function.update_self ..⟩
    · rw [hother j hji] at hj' hnot'
      obtain ⟨b, hb⟩ := hs.linked.kindTakeBack l j hj' hnot'
      have hba : b ≠ a := by
        rintro rfl
        rw [hnone] at hb
        simp at hb
      exact ⟨b, (hmine b hba).trans hb⟩
  · have hlease' : ((s.first b).map fun j => ((stopped.step (.start i)).ops j).lease) =
        (s.first b).map fun j => (s.queue.ops j).lease := by
      cases hj : s.first b with
      | none => rfl
      | some j =>
        rw [Option.map_some, Option.map_some, hother j (hne j (hs.first_made hj))]
    by_cases hb : b = a
    · subst hb
      have hanswer : answerOf ((stopped.step (.start i)).ops i).phase = none := by
        rw [hself]
        rfl
      have hview : ({ s with
          reacquires := s.reacquires.erase b
          takeBack := Function.update s.takeBack b (some i)
          queue := stopped.step (.start i) } : State).view b =
          { s.view b with pooled := (s.view b).pooled - 1, takeBack := some none } := by
        simp [view, hlease', hanswer]
      rw [hview]
      exact (hs.views b).reacquired (hs.steered b) hpool
    · have hanswer : ((s.takeBack b).map fun j =>
          answerOf ((stopped.step (.start i)).ops j).phase) =
          (s.takeBack b).map fun j => answerOf (s.queue.ops j).phase := by
        cases hj : s.takeBack b with
        | none => rfl
        | some j =>
          rw [Option.map_some, Option.map_some, hother j (hne j (hs.takeBack_made hj))]
      have hview : ({ s with
          reacquires := s.reacquires.erase a
          takeBack := Function.update s.takeBack a (some i)
          queue := stopped.step (.start i) } : State).view b = s.view b := by
        simp [view, hlease', hmine b hb, hanswer, List.count_erase_of_ne hb]
      rw [hview]
      exact hs.views b

/-- Every event keeps the coordinator and the queue in step with each other. -/
theorem Sound.step (hs : Sound n s) {e : Event} (he : s.enabled e) : Sound n (s.step e) := by
  cases e with
  | transition e => exact hs.started he.1 he.2.1 he.2.2
  | call => exact hs.call he
  | unlock => exact hs.unlock he.1 he.2
  | schedule a => exact hs.schedule he.1 he.2
  | queue e => exact hs.own he.1 he.2
  | onPermit a =>
    obtain ⟨hl, hp, i, hi, hlease⟩ := he
    exact hs.onPermit hl hp hi hlease
  | stopReacquire a => exact hs.stopReacquire
  | reacquire a => exact hs.reacquire he
  | reacquireThrows a =>
    obtain ⟨hl, ha⟩ := he
    have hpool : 0 < (s.view a).pooled := List.count_pos_iff.mpr ha
    obtain ⟨hout, hone, hback, _⟩ := (hs.views a).takeable (hs.steered a) hpool
    refine hs.onReacquired hl hout (.inr ⟨hback, rfl⟩) rfl rfl rfl
      (hs.linked.keeps (fun _ => rfl) (fun _ => id) rfl rfl rfl) (fun b hb => ?_) ?_
    · simp [view, List.count_erase_of_ne hb]
    · have hone' : s.reacquires.count a = 1 := hone
      have hback' : (s.takeBack a).map (fun i => answerOf (s.queue.ops i).phase) = none := hback
      simp [view, hone', hback']
  | onReacquired a granted =>
    obtain ⟨hl, j, hj, hp⟩ := he
    have hanswer : (s.view a).takeBack = some (some granted) := by
      simp [view, hj, answerOf_eq_some.mpr hp]
    have howed := (hs.views a).owed
    rw [hanswer] at howed
    have h1 : (some (some granted)).isSome.toNat = 1 := rfl
    have hle := Bool.toNat_le (s.view a).outstanding
    have hpool : s.reacquires.count a = 0 := by
      have : (s.view a).pooled = 0 := by omega
      exact this
    have hout : (s.view a).outstanding = true := by
      by_contra ho
      rw [Bool.eq_false_iff.mpr ho] at howed
      have h0 : Bool.toNat false = 0 := rfl
      omega
    refine hs.onReacquired hl hout (.inl hanswer) rfl rfl rfl
      ⟨hs.linked.firstKind, hs.linked.kindFirst, hs.linked.ticketed, fun b i hb => ?_,
        fun i k hk hnot => ?_⟩ (fun b hb => ?_) ?_
    · have hb' : Function.update s.takeBack a none b = some i := hb
      by_cases hba : b = a
      · subst hba
        simp at hb'
      · rw [Function.update_of_ne hba] at hb'
        exact hs.linked.takeBackKind b i hb'
    · obtain ⟨b, hb⟩ := hs.linked.kindTakeBack i k hk hnot
      have hba : b ≠ a := by
        rintro rfl
        obtain rfl : j = k := Option.some.inj (hj.symm.trans hb)
        exact hnot granted hp
      exact ⟨b, (Function.update_of_ne hba ..).trans hb⟩
    · simp [view, Function.update_of_ne hb]
    · simp [view, hpool]
  | drained a => exact hs.drainedOff he
  | released a => exact hs.released he

theorem sound_init (n : Nat) : Sound n { queue := { free := n } } where
  coordinator := Coordinator.System.sound_init
  queue := ⟨_, Queue.State.ok_init n⟩
  linked := ⟨by simp, by simp, by simp, by simp, by simp⟩
  unlocked _ := rfl
  views a := by
    refine ⟨fun _ => rfl, ?_, ?_, ?_, rfl, ?_, ?_, ?_, ?_, ?_, ?_⟩ <;> simp [view]

/-- Every state any run leads to is sound. -/
theorem sound (h : (machine n).Reachable (fun _ _ => True) s) : Sound n s :=
  h.invariant (P := Sound n) (fun s hs => by
    have hs' : s = { queue := { free := n } } := hs
    exact hs' ▸ sound_init n) fun _ _ hs he _ => hs.step he

end State

end MakeBelieve.Permits
