import MakeBelieve.IoContext.Steps

namespace MakeBelieve.IoContext

open Library

/-- The stop callback has not pushed the wait. -/
def Stage.Unfired : Stage → Prop
  | idle | armed | cancelling _ => True
  | _ => False

/-- The stop callback has pushed the wait, which is not disarmed. -/
def Stage.Fired : Stage → Prop
  | waking | cancelled => True
  | _ => False

namespace State

/-- The waits in `m_registered` and `m_cancelled`. -/
def listed (s : State) : List Wait := s.registered ++ s.cancelled

/-- What is known of the wait the thread has in hand, by what it is about to do. -/
def InHand (s : State) : Prop :=
  match s.phase with
  | .adding w _ => w ∉ s.listed ∧ s.stages w ≠ .disarmed
  | .finishing w _ .disarm _ => s.stages w ≠ .disarmed
  | .finishing w _ .takeCancels _ => s.stages w = .disarmed
  | .finishing w _ .complete _ => s.stages w = .disarmed ∧ w ∉ s.cancels
  | .polling => s.cancelled = []
  | _ => True

end State

/-- Where each wait is, by how far it has come. -/
structure Waits (s : State) : Prop where
  nodup : s.listed.Nodup
  pushedOnce : s.cancels.Nodup
  apart : ∀ w ∈ s.cancels, w ∉ s.cancelled
  idle : ∀ w, s.stages w = .idle → w ∉ s.listed ∧ s.phase.held ≠ some w
  unfired : ∀ w, (s.stages w).Unfired → w ∉ s.cancelled ∧ w ∉ s.cancels
  fired : ∀ w, (s.stages w).Fired → w ∈ s.cancelled ∨ w ∈ s.cancels
  placed : ∀ w, s.stages w ≠ .idle → w ∈ s.listed ∨ s.phase.held = some w
  polled : ∀ w, s.polled w = true ↔ w ∈ s.listed ∧ s.phase.held ≠ some w
  disarmed : ∀ w, s.stages w = .disarmed → s.phase.held = some w
  inHand : s.InHand
  batch : s.phase.batch.Nodup
  reported : ∀ w ∈ s.phase.batch, s.polled w = true

variable {s t : State} {w x : Wait} {b : Stage} {tasks : List Task} {caller : Caller}
  {resolution : Resolution}

/-- While a wait is finished the batch it was reported in stands. -/
theorem Phase.batch_finishing (w : Wait) (resolution : Resolution) (stage : Finish)
    (caller : Caller) : (finishing w resolution stage caller).batch = caller.resume.batch := by
  cases caller <;> rfl

theorem State.stages_self (s : State) (w : Wait) (b : Stage) : (s.setStage w b).stages w = b :=
  Function.update_self ..

theorem stages_of_ne (h : x ≠ w) : (s.setStage w b).stages x = s.stages x :=
  Function.update_of_ne h ..

/-- Only where the thread is changes, and not what it has in hand. -/
theorem Waits.rephase (h : Waits s) (hregistered : t.registered = s.registered)
    (hcancelled : t.cancelled = s.cancelled) (hcancels : t.cancels = s.cancels)
    (hstages : t.stages = s.stages) (hpolled : t.polled = s.polled)
    (hheld : t.phase.held = s.phase.held) (hin : t.InHand)
    (hbatch : t.phase.batch.Nodup) (hreported : ∀ w ∈ t.phase.batch, s.polled w = true) :
    Waits t := by
  have hlisted : t.listed = s.listed := by rw [State.listed, hregistered, hcancelled, State.listed]
  constructor
  · rw [hlisted]; exact h.nodup
  · rw [hcancels]; exact h.pushedOnce
  · rw [hcancels, hcancelled]; exact h.apart
  · rw [hstages, hlisted, hheld]; exact h.idle
  · rw [hstages, hcancelled, hcancels]; exact h.unfired
  · rw [hstages, hcancelled, hcancels]; exact h.fired
  · rw [hstages, hlisted, hheld]; exact h.placed
  · rw [hpolled, hlisted, hheld]; exact h.polled
  · rw [hstages, hheld]; exact h.disarmed
  · exact hin
  · exact hbatch
  · rw [hpolled]; exact hreported

theorem Waits.init : Waits {} := by
  constructor <;> simp [State.listed, State.InHand, Phase.held, Phase.batch, Stage.Unfired,
    Stage.Fired]

/-- A callback goes on, without pushing. -/
theorem Waits.goOn (h : Waits s) {a b : Stage} (ha : s.stages w = a) (hidle : a ≠ .idle)
    (hdisarmed : a ≠ .disarmed) (hidle' : b ≠ .idle) (hdisarmed' : b ≠ .disarmed)
    (hunfired : b.Unfired → a.Unfired) (hfired : b.Fired → a.Fired) (wakes : Nat) :
    Waits { s.setStage w b with wakes } := by
  subst ha
  have hcases : ∀ x, (x = w ∧ (s.setStage w b).stages x = b) ∨
      (s.setStage w b).stages x = s.stages x := by
    intro x
    by_cases hx : x = w
    · subst hx
      exact .inl ⟨rfl, Function.update_self ..⟩
    · exact .inr (Function.update_of_ne hx ..)
  have hsame : ∀ x, (s.setStage w b).stages x = .disarmed ↔ s.stages x = .disarmed := by
    intro x
    obtain ⟨rfl, hx⟩ | hx := hcases x
    · rw [hx]
      exact ⟨fun heq => absurd heq hdisarmed', fun heq => absurd heq hdisarmed⟩
    · rw [hx]
  refine ⟨h.nodup, h.pushedOnce, h.apart, fun x hx => ?_, fun x hx => ?_, fun x hx => ?_,
    fun x hx => ?_, h.polled, fun x hx => h.disarmed x ((hsame x).mp hx), ?_, h.batch, h.reported⟩
  · obtain ⟨rfl, hstage⟩ | hstage := hcases x
    · exact absurd (hstage.symm.trans hx) hidle'
    · exact h.idle x (hstage.symm.trans hx)
  · have hx : ((s.setStage w b).stages x).Unfired := hx
    obtain ⟨rfl, hstage⟩ | hstage := hcases x
    · exact h.unfired x (hunfired (hstage ▸ hx))
    · exact h.unfired x (hstage ▸ hx)
  · have hx : ((s.setStage w b).stages x).Fired := hx
    obtain ⟨rfl, hstage⟩ | hstage := hcases x
    · exact h.fired x (hfired (hstage ▸ hx))
    · exact h.fired x (hstage ▸ hx)
  · have hx : (s.setStage w b).stages x ≠ .idle := hx
    obtain ⟨rfl, hstage⟩ | hstage := hcases x
    · exact h.placed x hidle
    · exact h.placed x (hstage ▸ hx)
  · have hin := h.inHand
    unfold State.InHand at hin ⊢
    simp only [hsame, ne_eq]
    exact hin

/-- A callback pushes its wait. -/
theorem Waits.pushCancel (h : Waits s) {head : Option Wait} (ha : s.stages w = .cancelling head)
    {b : Stage} (hb : b.Fired) :
    Waits { s.setStage w b with cancels := w :: s.cancels } := by
  have hself := s.stages_self w b
  have hne := fun x => @stages_of_ne s w x b
  have hstage : s.stages w ≠ .idle ∧ s.stages w ≠ .disarmed := by
    rw [ha]
    exact ⟨nofun, nofun⟩
  have hfired : b ≠ .idle ∧ b ≠ .disarmed ∧ ¬ b.Unfired := by
    cases b <;> simp_all [Stage.Fired, Stage.Unfired]
  obtain ⟨hcancelled, hcancels⟩ := h.unfired w (by rw [ha]; trivial)
  have hdisarmed : ∀ x, (s.setStage w b).stages x = .disarmed ↔ s.stages x = .disarmed := by
    intro x
    by_cases hx : x = w
    · subst hx
      rw [hself]
      exact ⟨fun heq => absurd heq hfired.2.1, fun heq => absurd heq hstage.2⟩
    · rw [hne x hx]
  refine ⟨h.nodup, List.nodup_cons.mpr ⟨hcancels, h.pushedOnce⟩, fun x hx => ?_, fun x hx => ?_,
    fun x hx => ?_, fun x hx => ?_, fun x hx => ?_, h.polled,
    fun x hx => h.disarmed x ((hdisarmed x).mp hx), ?_, h.batch, h.reported⟩
  · obtain rfl | hx := List.mem_cons.mp hx
    · exact hcancelled
    · exact h.apart x hx
  · have hx : (s.setStage w b).stages x = .idle := hx
    by_cases heq : x = w
    · subst heq
      exact absurd (hself.symm.trans hx) hfired.1
    · exact h.idle x ((hne x heq).symm.trans hx)
  · have hx : ((s.setStage w b).stages x).Unfired := hx
    by_cases heq : x = w
    · subst heq
      exact absurd (hself ▸ hx) hfired.2.2
    · obtain ⟨hlist, hstack⟩ := h.unfired x (hne x heq ▸ hx)
      exact ⟨hlist, List.not_mem_cons_of_ne_of_not_mem heq hstack⟩
  · have hx : ((s.setStage w b).stages x).Fired := hx
    by_cases heq : x = w
    · exact .inr (heq ▸ List.mem_cons_self)
    · exact (h.fired x (hne x heq ▸ hx)).imp id (List.mem_cons_of_mem w)
  · have hx : (s.setStage w b).stages x ≠ .idle := hx
    by_cases heq : x = w
    · exact h.placed x (heq ▸ hstage.1)
    · exact h.placed x (hne x heq ▸ hx)
  · have hin := h.inHand
    unfold State.InHand at hin ⊢
    show match s.phase with
      | .adding w' _ => w' ∉ s.listed ∧ (s.setStage w b).stages w' ≠ .disarmed
      | .finishing w' _ .disarm _ => (s.setStage w b).stages w' ≠ .disarmed
      | .finishing w' _ .takeCancels _ => (s.setStage w b).stages w' = .disarmed
      | .finishing w' _ .complete _ =>
        (s.setStage w b).stages w' = .disarmed ∧ w' ∉ w :: s.cancels
      | .polling => s.cancelled = []
      | _ => True
    simp only [hdisarmed, ne_eq]
    split at hin <;> try exact hin
    refine ⟨hin.1, List.not_mem_cons_of_ne_of_not_mem ?_ hin.2⟩
    rintro rfl
    exact hstage.2 hin.1

/-- A wait is begun, and its stop callback installed. -/
theorem Waits.begin (h : Waits s) (hidle : s.stages w = .idle) (hheld : s.phase.held = none)
    (ran : List Task) (begun : List Wait) :
    Waits { s.setStage w .armed with
      ran
      begun
      phase := .adding w tasks } := by
  have hself := s.stages_self w .armed
  have hne := fun x => @stages_of_ne s w x .armed
  obtain ⟨hlisted, _⟩ := h.idle w hidle
  refine ⟨h.nodup, h.pushedOnce, h.apart, fun x hx => ?_, fun x hx => ?_, fun x hx => ?_,
    fun x hx => ?_, fun x => ?_, fun x hx => ?_, ?_, List.nodup_nil, nofun⟩
  · have hx : (s.setStage w .armed).stages x = .idle := hx
    have heq : x ≠ w := by
      rintro rfl
      exact nomatch hself.symm.trans hx
    exact ⟨(h.idle x ((hne x heq).symm.trans hx)).1, fun hin => heq (Option.some.inj hin).symm⟩
  · have hx : ((s.setStage w .armed).stages x).Unfired := hx
    by_cases heq : x = w
    · subst heq
      exact h.unfired x (by rw [hidle]; trivial)
    · exact h.unfired x (hne x heq ▸ hx)
  · have hx : ((s.setStage w .armed).stages x).Fired := hx
    by_cases heq : x = w
    · subst heq
      rw [hself] at hx
      exact hx.elim
    · exact h.fired x (hne x heq ▸ hx)
  · have hx : (s.setStage w .armed).stages x ≠ .idle := hx
    by_cases heq : x = w
    · exact .inr (congrArg some heq.symm)
    · refine .inl ((h.placed x (hne x heq ▸ hx)).resolve_right ?_)
      rw [hheld]
      exact nofun
  · refine (h.polled x).trans ?_
    rw [hheld]
    refine ⟨fun ⟨hx, _⟩ => ⟨hx, fun heq => ?_⟩, fun ⟨hx, _⟩ => ⟨hx, nofun⟩⟩
    exact hlisted (Option.some.inj heq ▸ hx)
  · have hx : (s.setStage w .armed).stages x = .disarmed := hx
    have heq : x ≠ w := by
      rintro rfl
      exact nomatch hself.symm.trans hx
    have hx := h.disarmed x ((hne x heq).symm.trans hx)
    rw [hheld] at hx
    exact nomatch hx
  · refine ⟨hlisted, ?_⟩
    show (s.setStage w .armed).stages w ≠ .disarmed
    rw [hself]
    exact nofun

/-- A handle is added to the poller, and its wait to `m_registered`. -/
theorem Waits.add (h : Waits s) (hphase : s.phase = .adding w tasks) :
    Waits { s with
      polled := Function.update s.polled w true
      registered := s.registered ++ [w]
      phase := .running tasks } := by
  have hheld : s.phase.held = some w := by rw [hphase]; rfl
  have hin := h.inHand
  unfold State.InHand at hin
  rw [hphase] at hin
  obtain ⟨hlisted, hstage⟩ := hin
  have hperm : ((s.registered ++ [w]) ++ s.cancelled).Perm (w :: s.listed) := by
    rw [List.append_assoc]
    exact List.perm_middle
  have hmem : ∀ x, x ∈ (s.registered ++ [w]) ++ s.cancelled ↔ x = w ∨ x ∈ s.listed := fun x =>
    hperm.mem_iff.trans List.mem_cons
  refine ⟨hperm.nodup_iff.mpr (List.nodup_cons.mpr ⟨hlisted, h.nodup⟩), h.pushedOnce, h.apart,
    fun x hx => ?_, h.unfired, h.fired, fun x hx => .inl ?_, fun x => ?_, fun x hx => ?_, trivial,
    List.nodup_nil, nofun⟩
  · obtain ⟨hnot, hheld'⟩ := h.idle x hx
    refine ⟨fun hx => ?_, nofun⟩
    obtain rfl | hx := (hmem x).mp hx
    · exact hheld' hheld
    · exact hnot hx
  · refine (hmem x).mpr ((h.placed x hx).symm.imp (fun heq => ?_) id)
    rw [hheld] at heq
    exact (Option.some.inj heq).symm
  · refine Iff.trans ?_ (and_iff_left nofun).symm
    refine Iff.trans ?_ (hmem x).symm
    show Function.update s.polled w true x = true ↔ _
    by_cases heq : x = w
    · subst heq
      simp
    · rw [Function.update_of_ne heq, h.polled x, hheld, or_iff_right heq]
      exact and_iff_left fun hin => heq (Option.some.inj hin).symm
  · obtain rfl := Option.some.inj (hheld.symm.trans (h.disarmed x hx))
    exact absurd hx hstage

/-- The cancellations are moved to `m_cancelled`. -/
theorem Waits.takeCancels_eq (h : Waits s) : s.takeCancels =
    { s with
      cancels := []
      registered := s.registered.filter (fun w => w ∉ s.cancels)
      cancelled := s.cancelled ++ s.cancels } :=
  State.takeCancels_eq h.nodup h.pushedOnce h.apart

theorem Waits.mem_takeCancels (h : Waits s) (x : Wait) :
    x ∈ s.takeCancels.listed ↔ x ∈ s.listed ∨ x ∈ s.cancels := by
  rw [h.takeCancels_eq]
  simp only [State.listed, List.mem_append, List.mem_filter, decide_not, Bool.not_eq_true',
    decide_eq_false_iff_not]
  tauto

theorem Waits.nodup_takeCancels (h : Waits s) : s.takeCancels.listed.Nodup := by
  rw [h.takeCancels_eq]
  obtain ⟨hregistered, hcancelled, hapart⟩ := List.nodup_append.mp h.nodup
  have hlist : (s.cancelled ++ s.cancels).Nodup :=
    List.nodup_append.mpr ⟨hcancelled, h.pushedOnce, fun x hx y hy heq =>
      h.apart y hy (heq ▸ hx)⟩
  refine List.nodup_append.mpr ⟨hregistered.filter _, hlist, ?_⟩
  rintro x hx y hy rfl
  obtain ⟨hx, hnot⟩ := List.mem_filter.mp hx
  obtain hy | hy := List.mem_append.mp hy
  · exact hapart x hx x hy rfl
  · exact of_decide_eq_true hnot hy

theorem Waits.takeCancels (h : Waits s) {phase : Phase} (hheld : phase.held = s.phase.held)
    (hbatch : phase.batch = s.phase.batch) (hin : State.InHand { s.takeCancels with phase }) :
    Waits { s.takeCancels with phase } := by
  have hmem := h.mem_takeCancels
  have hnodup := h.nodup_takeCancels
  rw [h.takeCancels_eq] at hmem hnodup hin ⊢
  -- A wait that is pushed is begun, so it is in a list or in hand.
  have hplaced : ∀ x, x ∈ s.cancels → x ∈ s.listed ∨ s.phase.held = some x := by
    refine fun x hx => h.placed x fun hidle => ?_
    exact (h.unfired x (by rw [hidle]; trivial)).2 hx
  refine ⟨hnodup, List.nodup_nil, nofun, fun x hx => ⟨fun hx' => ?_, ?_⟩, fun x hx => ?_,
    fun x hx => .inl (List.mem_append.mpr (h.fired x hx)), fun x hx => ?_, fun x => ?_,
    fun x hx => ?_, hin, ?_, ?_⟩
  · obtain hx' | hx' := (hmem x).mp hx'
    · exact (h.idle x hx).1 hx'
    · exact (h.unfired x (by rw [show s.stages x = .idle from hx]; trivial)).2 hx'
  · exact hheld ▸ (h.idle x hx).2
  · obtain ⟨hcancelled, hcancels⟩ := h.unfired x hx
    exact ⟨fun hx => (List.mem_append.mp hx).elim hcancelled hcancels, nofun⟩
  · exact (h.placed x hx).imp (fun hx => (hmem x).mpr (.inl hx)) (hheld.trans ·)
  · refine (h.polled x).trans ?_
    show _ ↔ _ ∧ phase.held ≠ some x
    rw [hheld]
    refine Iff.trans (and_congr_left fun hne => ⟨.inl, fun hx => ?_⟩)
      (and_congr_left' (hmem x)).symm
    exact hx.elim id fun hx => (hplaced x hx).resolve_right hne
  · exact hheld.trans (h.disarmed x hx)
  · show phase.batch.Nodup
    rw [hbatch]
    exact h.batch
  · show ∀ x ∈ phase.batch, s.polled x = true
    rw [hbatch]
    exact h.reported

/-- A wait's handle is taken back from the poller, and the wait is to be finished. -/
theorem Waits.hold (h : Waits s) (hw : w ∈ s.listed) (hheld : s.phase.held = none)
    (hbatch : (Phase.finishing w resolution .disarm caller).batch.Nodup)
    (hreported : ∀ x ∈ (Phase.finishing w resolution .disarm caller).batch,
      s.polled x = true ∧ x ≠ w) :
    Waits { s.unregister w with phase := .finishing w resolution .disarm caller } := by
  have hnone : ∀ x, s.stages x ≠ .disarmed := by
    intro x hx
    rw [h.disarmed x hx] at hheld
    exact nomatch hheld
  refine ⟨h.nodup, h.pushedOnce, h.apart, fun x hx => ⟨(h.idle x hx).1, fun heq => ?_⟩, h.unfired,
    h.fired, fun x hx => .inl ?_, fun x => ?_, fun x hx => absurd hx (hnone x), hnone w, hbatch,
    fun x hx => ?_⟩
  · obtain rfl := Option.some.inj heq
    exact (h.idle w hx).1 hw
  · refine (h.placed x hx).resolve_right ?_
    rw [hheld]
    exact nofun
  · show Function.update s.polled w false x = true ↔ x ∈ s.listed ∧ some w ≠ some x
    by_cases heq : x = w
    · subst heq
      simp
    · rw [Function.update_of_ne heq, h.polled x, hheld]
      refine and_congr_right fun _ => ⟨fun _ hin => heq (Option.some.inj hin).symm, fun _ => nofun⟩
  · obtain ⟨hpolled, hne⟩ := hreported x hx
    exact (Function.update_of_ne hne ..).trans hpolled

/-- The stop callback is removed, once it is not running. -/
theorem Waits.disarm (h : Waits s) (hphase : s.phase = .finishing w resolution .disarm caller) :
    Waits { s.setStage w .disarmed with
      phase := .finishing w resolution .takeCancels caller } := by
  have hself := s.stages_self w .disarmed
  have hne := fun x => @stages_of_ne s w x .disarmed
  have hheld : s.phase.held = some w := by rw [hphase]; rfl
  have hbatch : s.phase.batch = (Phase.finishing w resolution .takeCancels caller).batch := by
    rw [hphase, Phase.batch_finishing, Phase.batch_finishing]
  refine ⟨h.nodup, h.pushedOnce, h.apart, fun x hx => ?_, fun x hx => ?_, fun x hx => ?_,
    fun x hx => ?_, fun x => ?_, fun x hx => ?_, hself, ?_, ?_⟩
  · have hx : (s.setStage w .disarmed).stages x = .idle := hx
    have heq : x ≠ w := by
      rintro rfl
      exact nomatch hself.symm.trans hx
    exact ⟨(h.idle x ((hne x heq).symm.trans hx)).1, fun hin => heq (Option.some.inj hin).symm⟩
  · have hx : ((s.setStage w .disarmed).stages x).Unfired := hx
    have heq : x ≠ w := by
      rintro rfl
      rw [hself] at hx
      exact hx
    exact h.unfired x (hne x heq ▸ hx)
  · have hx : ((s.setStage w .disarmed).stages x).Fired := hx
    have heq : x ≠ w := by
      rintro rfl
      rw [hself] at hx
      exact hx
    exact h.fired x (hne x heq ▸ hx)
  · have hx : (s.setStage w .disarmed).stages x ≠ .idle := hx
    by_cases heq : x = w
    · exact .inr (congrArg some heq.symm)
    · exact (h.placed x (hne x heq ▸ hx)).imp id (hheld.symm.trans ·)
  · refine (h.polled x).trans ?_
    rw [hheld]
    rfl
  · have hx : (s.setStage w .disarmed).stages x = .disarmed := hx
    by_cases heq : x = w
    · exact congrArg some heq.symm
    · exact hheld.symm.trans (h.disarmed x ((hne x heq).symm.trans hx))
  · exact hbatch ▸ h.batch
  · exact hbatch ▸ h.reported

/-- A wait is completed, in no list. -/
theorem Waits.complete (h : Waits s)
    (hphase : s.phase = .finishing w resolution .complete caller)
    (completed : List (Wait × Resolution)) :
    Waits { s.setStage w .idle with
      registered := s.registered.erase w
      cancelled := s.cancelled.erase w
      completed
      phase := caller.resume } := by
  have hself := s.stages_self w .idle
  have hne := fun x => @stages_of_ne s w x .idle
  have hheld : s.phase.held = some w := by rw [hphase]; rfl
  have hin := h.inHand
  unfold State.InHand at hin
  rw [hphase] at hin
  obtain ⟨_, hcancels⟩ := hin
  have hresume : caller.resume.held = none := by cases caller <;> rfl
  have hbatch : caller.resume.batch = s.phase.batch := by
    rw [hphase, Phase.batch_finishing]
  obtain ⟨hregistered, hcancelled, hapart⟩ := List.nodup_append.mp h.nodup
  have hmem : ∀ x, x ∈ s.registered.erase w ++ s.cancelled.erase w ↔ x ≠ w ∧ x ∈ s.listed := by
    intro x
    rw [List.mem_append, hregistered.mem_erase_iff, hcancelled.mem_erase_iff, State.listed,
      List.mem_append]
    tauto
  refine ⟨?_, h.pushedOnce, fun x hx hin => h.apart x hx (List.mem_of_mem_erase hin),
    fun x hx => ⟨fun hin => ?_, fun heq => ?_⟩, fun x hx => ?_, fun x hx => ?_,
    fun x hx => .inl ?_, fun x => ?_, fun x hx => ?_, ?_, ?_, ?_⟩
  · refine List.nodup_append.mpr ⟨hregistered.erase w, hcancelled.erase w, fun x hx y hy => ?_⟩
    exact hapart x (List.mem_of_mem_erase hx) y (List.mem_of_mem_erase hy)
  · obtain ⟨heq, hin⟩ := (hmem x).mp hin
    exact (h.idle x ((hne x heq).symm.trans hx)).1 hin
  · exact nomatch hresume.symm.trans heq
  · have hx : ((s.setStage w .idle).stages x).Unfired := hx
    by_cases heq : x = w
    · subst heq
      exact ⟨fun hin => (hcancelled.mem_erase_iff.mp hin).1 rfl, hcancels⟩
    · obtain ⟨hlist, hstack⟩ := h.unfired x (hne x heq ▸ hx)
      exact ⟨fun hin => hlist (List.mem_of_mem_erase hin), hstack⟩
  · have hx : ((s.setStage w .idle).stages x).Fired := hx
    have heq : x ≠ w := by
      rintro rfl
      rw [hself] at hx
      exact hx
    exact (h.fired x (hne x heq ▸ hx)).imp (fun hin => hcancelled.mem_erase_iff.mpr ⟨heq, hin⟩) id
  · have hx : (s.setStage w .idle).stages x ≠ .idle := hx
    have heq : x ≠ w := by
      rintro rfl
      exact hx hself
    refine (hmem x).mpr ⟨heq, (h.placed x (hne x heq ▸ hx)).resolve_right fun hin => ?_⟩
    exact heq (Option.some.inj (hheld.symm.trans hin)).symm
  · refine (h.polled x).trans ?_
    show _ ↔ x ∈ s.registered.erase w ++ s.cancelled.erase w ∧ caller.resume.held ≠ some x
    rw [hmem, hheld, hresume]
    refine ⟨fun ⟨hin, heq⟩ => ⟨⟨fun hx => heq (congrArg some hx.symm), hin⟩, nofun⟩,
      fun ⟨⟨heq, hin⟩, _⟩ => ⟨hin, fun hx => heq (Option.some.inj hx).symm⟩⟩
  · have hx : (s.setStage w .idle).stages x = .disarmed := hx
    have heq : x ≠ w := by
      rintro rfl
      exact nomatch hself.symm.trans hx
    have hx := h.disarmed x ((hne x heq).symm.trans hx)
    exact absurd (Option.some.inj (hheld.symm.trans hx)).symm heq
  · cases caller <;> trivial
  · show caller.resume.batch.Nodup
    rw [hbatch]
    exact h.batch
  · show ∀ x ∈ caller.resume.batch, s.polled x = true
    rw [hbatch]
    exact h.reported

end MakeBelieve.IoContext
