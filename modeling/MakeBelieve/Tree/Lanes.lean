import MakeBelieve.Library.Spans
import MakeBelieve.Tree.Attempts
import MakeBelieve.Tree.Steps

namespace MakeBelieve.Tree

open Library

/-- A row of the trace. -/
abbrev Row := Nat

/-- How far a build is with its row: `take_lane` and the beginning of its span in `launch_build`,
the end of the span and `free_lane` in `finish_build`. -/
inductive LanePhase
  | idle
  /-- The pool was empty, and a new row is being named. -/
  | making
  | took (r : Row)
  | entered (r : Row)
  | began (r : Row)
  /-- `lane_of` answered `r`. -/
  | found (r : Row)
  | ended (r : Row)
  /-- `free_lane` took `r` out of `m_busy_lanes`. -/
  | erased (r : Row)
  | done
  deriving DecidableEq

/-- The row of a build whose row `m_busy_lanes` is to hold. -/
def LanePhase.onRow : LanePhase → Option Row
  | .entered r | .began r | .found r | .ended r => some r
  | _ => none

/-- The last mark on the row a build holds. -/
def LanePhase.holding (b : BuildId) : LanePhase → Option (Mark BuildId Row)
  | .took r | .entered r => some (.took b r)
  | .began r | .found r => some (.began b r)
  | .ended r | .erased r => some (.ended b r)
  | _ => none

/-- The tree with a tracer: the rows of the pool, the one each build under way is being recorded
on, and what was noted of each. -/
structure Lanes where
  world : World
  free : List Row := []
  nextRow : Row := 0
  busyLanes : Path → Option Row := fun _ => none
  phase : BuildId → LanePhase := fun _ => .idle
  log : List (Mark BuildId Row) := []

inductive LaneEvent
  | tree (e : Event)
  | take (b : BuildId)
  | makeRow (b : BuildId) (r : Row)
  | enter (b : BuildId)
  | begin (b : BuildId)
  | laneOf (b : BuildId)
  | finish (b : BuildId)
  | erase (b : BuildId)
  | giveBack (b : BuildId)

namespace Lanes

variable (contentHash : Bytes → Hash) (cached : Bool) (s : Lanes)

def output (b : BuildId) : Path := (s.world.builds b).launch.output

/-- Whether a build is left out of the trace. -/
def Untraced (b : BuildId) : Prop := (s.world.builds b).launch.command.action = .tracing

instance (b : BuildId) : Decidable (s.Untraced b) :=
  inferInstanceAs (Decidable ((s.world.builds b).launch.command.action = .tracing))

/-- Whether the build that is to launch this one has freed its row. -/
def Follows (b : BuildId) : Prop :=
  ∀ c, (s.world.builds b).behind = some c → s.phase c = .done

def setPhase (b : BuildId) (phase : LanePhase) : Lanes :=
  { s with phase := Function.update s.phase b phase }

/-- `TraceLanePool::take`, as far as the pool's lock. -/
def take (b : BuildId) : Lanes :=
  match s.free.min? with
  | some r => { s.setPhase b (.took r) with
      free := s.free.erase r
      log := s.log ++ [.took b r] }
  | none => s.setPhase b .making

def makeRow (b : BuildId) (r : Row) : Lanes :=
  { s.setPhase b (.took r) with nextRow := r + 1, log := s.log ++ [.took b r] }

/-- The rest of `take_lane`. -/
def enter (b : BuildId) : Lanes :=
  match s.phase b with
  | .took r => { s.setPhase b (.entered r) with
      busyLanes := Function.update s.busyLanes (s.output b) (some r) }
  | _ => s

def begin (b : BuildId) : Lanes :=
  match s.phase b with
  | .entered r => { s.setPhase b (.began r) with log := s.log ++ [.began b r] }
  | _ => s

def laneOf (b : BuildId) : Lanes :=
  if s.Untraced b then s.setPhase b .done
  else match s.busyLanes (s.output b) with
    | some r => s.setPhase b (.found r)
    | none => s.setPhase b .done

def finish (b : BuildId) : Lanes :=
  match s.phase b with
  | .found r => { s.setPhase b (.ended r) with log := s.log ++ [.ended b r] }
  | _ => s

/-- `free_lane`, as far as its lock. -/
def erase (b : BuildId) : Lanes :=
  match s.busyLanes (s.output b) with
  | some r => { s.setPhase b (.erased r) with
      busyLanes := Function.update s.busyLanes (s.output b) none }
  | none => s.setPhase b .done

/-- `TraceLanePool::give_back` -/
def giveBack (b : BuildId) : Lanes :=
  match s.phase b with
  | .erased r => { s.setPhase b .done with
      free := s.free.insert r
      log := s.log ++ [.gaveBack b r] }
  | _ => s

def step : LaneEvent → Lanes
  | .tree e => { s with world := s.world.step contentHash cached e }
  | .take b => s.take b
  | .makeRow b r => s.makeRow b r
  | .enter b => s.enter b
  | .begin b => s.begin b
  | .laneOf b => s.laneOf b
  | .finish b => s.finish b
  | .erase b => s.erase b
  | .giveBack b => s.giveBack b

/-- Whether `launch_build` has come to where it runs the build. -/
def MayLaunch : Event → Prop
  | .launch b _ => if s.Untraced b then s.Follows b else ∃ r, s.phase b = .began r
  | _ => True

def enabled : LaneEvent → Prop
  | .tree e => s.world.enabled e ∧ s.MayLaunch e
  | .take b => b < s.world.buildCount ∧ ¬s.Untraced b ∧ (s.world.builds b).stage = .claimed ∧
      s.phase b = .idle ∧ s.Follows b
  -- Rows are numbered for every thread at once, so some may be skipped.
  | .makeRow b r => s.phase b = .making ∧ s.nextRow ≤ r
  | .enter b => ∃ r, s.phase b = .took r
  | .begin b => ∃ r, s.phase b = .entered r
  | .laneOf b => b < s.world.buildCount ∧ (s.world.builds b).stage = .over ∧
      if s.Untraced b then s.phase b = .idle else ∃ r, s.phase b = .began r
  | .finish b => ∃ r, s.phase b = .found r
  | .erase b => ∃ r, s.phase b = .ended r
  | .giveBack b => ∃ r, s.phase b = .erased r

/-- Builds under any interleaving, each recorded on a row of its own. -/
def machine : Machine Lanes LaneEvent where
  init s := ∃ w r, World.Starts contentHash cached w ∧ s = { world := w, nextRow := r }
  enabled := enabled
  step := step contentHash cached

/-- A build is put in `m_busy_lanes` only once every other build of its output is off its row. -/
def OffRow : LaneEvent → Prop
  | .enter b => ∀ c, c ≠ b → s.output c = s.output b → (s.phase c).onRow = none
  | _ => True

/-- The marks of a build whose row is back in the pool. -/
def fullTrail (b : BuildId) (r : Row) : List (Mark BuildId Row) :=
  [.took b r, .began b r, .ended b r, .gaveBack b r]

/-- What the log holds of a build that has come so far. -/
def Trail (b : BuildId) (untraced : Prop) (marks : List (Mark BuildId Row)) : LanePhase → Prop
  | .idle | .making => marks = []
  | .took r | .entered r => marks = [.took b r]
  | .began r | .found r => marks = [.took b r, .began b r]
  | .ended r | .erased r => marks = [.took b r, .began b r, .ended b r]
  | .done => untraced ∧ marks = [] ∨ ∃ r, marks = fullTrail b r

/-- Every row is free, new or held by one build, which `m_busy_lanes` finds by its output. -/
structure Kept (s : Lanes) : Prop where
  orderly : Orderly s.log
  trail : ∀ b, Trail b (s.Untraced b) (marksOf b s.log) (s.phase b)
  held : ∀ b m, (s.phase b).holding b = some m → lastOn m.row s.log = some m
  nodup : s.free.Nodup
  free : ∀ r ∈ s.free, ∃ j, lastOn r s.log = some (.gaveBack j r)
  unused : ∀ r ≥ s.nextRow, lastOn r s.log = none
  busy : ∀ o r, s.busyLanes o = some r ↔ ∃ b, s.output b = o ∧ (s.phase b).onRow = some r
  made : ∀ b, s.phase b ≠ .idle → b < s.world.buildCount

variable {contentHash cached s} {b c : BuildId} {r : Row} {m : Mark BuildId Row}
variable {phase : LanePhase} {busyLanes : Path → Option Row} {e : LaneEvent}

/-! ### Every build keeps the row it took -/

theorem setPhase_self (s : Lanes) (b : BuildId) (phase : LanePhase) :
    (s.setPhase b phase).phase b = phase := Function.update_self ..

theorem setPhase_of_ne (s : Lanes) (phase : LanePhase) (h : c ≠ b) :
    (s.setPhase b phase).phase c = s.phase c := Function.update_of_ne h ..

theorem holding_user (h : phase.holding b = some m) : m.user = b ∧ ∀ j r, m ≠ .gaveBack j r := by
  cases phase <;> simp only [LanePhase.holding, Option.some.injEq, reduceCtorEq] at h
  all_goals
    subst h
    exact ⟨rfl, nofun⟩

/-- Nobody else holds the row that a mark may be made on. -/
theorem Kept.not_held (h : s.Kept) (hm : m.Follows (lastOn m.row s.log)) (hc : c ≠ m.user)
    {m' : Mark BuildId Row} (hheld : (s.phase c).holding c = some m') : m'.row ≠ m.row := by
  intro hrow
  have hlast := h.held c m' hheld
  obtain ⟨huser, hnot⟩ := holding_user hheld
  rw [hrow] at hlast
  rw [hlast] at hm
  cases m with
  | took i r =>
    obtain hnone | ⟨j, hj⟩ := hm
    · simp at hnone
    · exact hnot j r (Option.some.inj hj)
  | began i r | ended i r | gaveBack i r =>
    have heq := Option.some.inj hm
    rw [heq] at huser
    exact hc huser.symm

/-- A build comes further without a mark made. -/
theorem Kept.silent (h : s.Kept) (hb : b < s.world.buildCount)
    (htrail : Trail b (s.Untraced b) (marksOf b s.log) phase)
    (hhold : phase.holding b = (s.phase b).holding b)
    (hbusy : ∀ o r, busyLanes o = some r ↔
      ∃ c, s.output c = o ∧ ((s.setPhase b phase).phase c).onRow = some r) :
    Kept { s.setPhase b phase with busyLanes } where
  orderly := h.orderly
  trail c := by
    show Trail c (s.Untraced c) (marksOf c s.log) ((s.setPhase b phase).phase c)
    by_cases hc : c = b
    · rw [hc, setPhase_self]
      exact htrail
    · rw [setPhase_of_ne s phase hc]
      exact h.trail c
  held c m hm := by
    have hm : ((s.setPhase b phase).phase c).holding c = some m := hm
    refine h.held c m ?_
    by_cases hc : c = b
    · rw [hc, setPhase_self] at hm
      rw [hc, ← hhold, hm]
    · rwa [setPhase_of_ne s phase hc] at hm
  nodup := h.nodup
  free := h.free
  unused := h.unused
  busy := hbusy
  made c hc := by
    by_cases hcb : c = b
    · rwa [hcb]
    · exact h.made c (by rwa [← setPhase_of_ne s phase hcb])

/-- A build comes further with a mark on its row. -/
theorem Kept.noted (h : s.Kept) (hb : m.user = b) (hmade : b < s.world.buildCount)
    (hm : m.Follows (lastOn m.row s.log))
    (htrail : Trail b (s.Untraced b) (marksOf b s.log ++ [m]) phase)
    (hhold : phase.holding b = none ∨ phase.holding b = some m)
    (hrow : phase.onRow = (s.phase b).onRow) {free : List Row} {nextRow : Row}
    (hnodup : free.Nodup) (hfree : ∀ r ∈ free, (r = m.row ∧ m = .gaveBack b r) ∨ (r ≠ m.row ∧ r ∈ s.free))
    (hnext : s.nextRow ≤ nextRow) (hlt : m.row < nextRow) :
    Kept { s.setPhase b phase with free, nextRow, log := s.log ++ [m] } where
  orderly := .mark h.orderly hm
  trail c := by
    show Trail c (s.Untraced c) (marksOf c (s.log ++ [m])) ((s.setPhase b phase).phase c)
    by_cases hc : c = b
    · rw [hc, setPhase_self, ← hb, marksOf_append_self, hb]
      exact htrail
    · rw [setPhase_of_ne s phase hc, marksOf_append_of_ne _ (hb ▸ Ne.symm hc)]
      exact h.trail c
  held c m' hm' := by
    have hm' : ((s.setPhase b phase).phase c).holding c = some m' := hm'
    show lastOn m'.row (s.log ++ [m]) = some m'
    by_cases hc : c = b
    · rw [hc, setPhase_self] at hm'
      obtain hnone | hsome := hhold
      · rw [hnone] at hm'
        simp at hm'
      · obtain rfl := Option.some.inj (hsome.symm.trans hm')
        exact lastOn_append_self _ _
    · rw [setPhase_of_ne s phase hc] at hm'
      have hne := h.not_held hm (hb ▸ hc) hm'
      rw [lastOn_append_of_ne _ (Ne.symm hne)]
      exact h.held c m' hm'
  nodup := hnodup
  free r hr := by
    show ∃ j, lastOn r (s.log ++ [m]) = some (.gaveBack j r)
    obtain ⟨heq, hgave⟩ | ⟨hne, hold⟩ := hfree r hr
    · refine ⟨b, ?_⟩
      rw [heq, lastOn_append_self, hgave]
      rw [hgave] at heq
      simp [Mark.row]
    · rw [lastOn_append_of_ne _ (Ne.symm hne)]
      exact h.free r hold
  unused r hr := by
    show lastOn r (s.log ++ [m]) = none
    have hr : nextRow ≤ r := hr
    rw [lastOn_append_of_ne _ (Nat.ne_of_lt (Nat.lt_of_lt_of_le hlt hr))]
    exact h.unused r (Nat.le_trans hnext hr)
  busy o r := by
    show s.busyLanes o = some r ↔
      ∃ c, s.output c = o ∧ ((s.setPhase b phase).phase c).onRow = some r
    have heq : ∀ c, ((s.setPhase b phase).phase c).onRow = (s.phase c).onRow := by
      intro c
      by_cases hc : c = b
      · rw [hc, setPhase_self, hrow]
      · rw [setPhase_of_ne s phase hc]
    simp only [heq]
    exact h.busy o r
  made c hc := by
    by_cases hcb : c = b
    · rwa [hcb]
    · exact h.made c (by rwa [← setPhase_of_ne s phase hcb])

theorem Kept.lt_nextRow (h : s.Kept) (hlast : lastOn r s.log = some m) : r < s.nextRow := by
  by_contra hnot
  rw [h.unused r (Nat.le_of_not_lt hnot)] at hlast
  simp at hlast

theorem Kept.trail_of (h : s.Kept) (hp : s.phase b = phase) :
    Trail b (s.Untraced b) (marksOf b s.log) phase := hp ▸ h.trail b

theorem Kept.held_of (h : s.Kept) (hp : s.phase b = phase) (hm : phase.holding b = some m) :
    lastOn m.row s.log = some m := h.held b m (by rw [hp]; exact hm)

theorem Kept.made_of (h : s.Kept) (hp : s.phase b = phase) (hne : phase ≠ .idle) :
    b < s.world.buildCount := h.made b (by rwa [hp])

/-- A build off its row leaves `m_busy_lanes` as it is for the others. -/
theorem Kept.busy_same (h : s.Kept) (hrow : phase.onRow = (s.phase b).onRow) (o : Path) (r : Row) :
    s.busyLanes o = some r ↔ ∃ c, s.output c = o ∧ ((s.setPhase b phase).phase c).onRow = some r := by
  have heq : ∀ c, ((s.setPhase b phase).phase c).onRow = (s.phase c).onRow := by
    intro c
    by_cases hc : c = b
    · rw [hc, setPhase_self, hrow]
    · rw [setPhase_of_ne s phase hc]
  simp only [heq]
  exact h.busy o r

/-- A row in use is not in the pool. -/
theorem Kept.ne_of_free (h : s.Kept) (hlast : lastOn r s.log = some m)
    (hm : ∀ j, m ≠ .gaveBack j r) {r' : Row} (hr' : r' ∈ s.free) : r' ≠ r := by
  rintro rfl
  obtain ⟨j, hj⟩ := h.free r' hr'
  exact hm j (Option.some.inj (hlast.symm.trans hj))

theorem Kept.took (h : s.Kept) (hb : b < s.world.buildCount)
    (hp : s.phase b = .idle ∨ s.phase b = .making) {free : List Row} {nextRow : Row}
    (hm : (Mark.took b r).Follows (lastOn r s.log)) (hnodup : free.Nodup)
    (hfree : ∀ r' ∈ free, r' ≠ r ∧ r' ∈ s.free) (hnext : s.nextRow ≤ nextRow) (hlt : r < nextRow) :
    Kept { s.setPhase b (.took r) with free, nextRow, log := s.log ++ [.took b r] } := by
  refine h.noted (b := b) (m := .took b r) rfl hb hm ?_ (.inr rfl) ?_ hnodup
    (fun r' hr' => .inr (hfree r' hr')) hnext hlt
  · have hnone : marksOf b s.log = [] := by
      obtain hp | hp := hp
      · exact h.trail_of hp
      · exact h.trail_of hp
    rw [hnone]
    exact rfl
  · obtain hp | hp := hp <;> rw [hp] <;> rfl

theorem Kept.take (h : s.Kept) (he : s.enabled (.take b)) : (s.take b).Kept := by
  obtain ⟨hb, _, _, hp, _⟩ := he
  unfold Lanes.take
  split
  · next r hmin =>
    have hmem := List.min?_mem hmin
    obtain ⟨j, hj⟩ := h.free r hmem
    refine h.took hb (.inl hp) (.inr ⟨j, hj⟩) (h.nodup.erase r) (fun r' hr' => ?_) (Nat.le_refl _)
      (h.lt_nextRow hj)
    exact (h.nodup.mem_erase_iff).mp hr'
  · exact h.silent hb (h.trail_of hp :) (by rw [hp]; rfl) (h.busy_same (by rw [hp]; rfl))

theorem Kept.makeRow (h : s.Kept) (he : s.enabled (.makeRow b r)) : (s.makeRow b r).Kept := by
  obtain ⟨hp, hr⟩ := he
  have hnone := h.unused r hr
  refine h.took (h.made_of hp (by simp)) (.inr hp) (.inl hnone) h.nodup (fun r' hr' => ⟨?_, hr'⟩)
    (Nat.le_succ_of_le hr) (Nat.lt_succ_self r)
  rintro rfl
  obtain ⟨j, hj⟩ := h.free r' hr'
  simp [hnone] at hj

theorem onRow_other (s : Lanes) (b : BuildId) (phase : LanePhase) {o : Path} (ho : o ≠ s.output b) :
    (∃ c, s.output c = o ∧ ((s.setPhase b phase).phase c).onRow = some r) ↔
      ∃ c, s.output c = o ∧ (s.phase c).onRow = some r := by
  refine exists_congr fun c => and_congr_right fun hc => ?_
  rw [setPhase_of_ne s phase (fun heq => ho (by rw [← hc, heq]))]

/-- Two builds of one output are not on a row each. -/
theorem Kept.alone (h : s.Kept) {r' : Row} (hb : (s.phase b).onRow = some r)
    (hc : (s.phase c).onRow = some r') (ho : s.output c = s.output b) : c = b := by
  have hfind := (h.busy (s.output b) r).mpr ⟨b, rfl, hb⟩
  have hfind' := (h.busy (s.output b) r').mpr ⟨c, ho, hc⟩
  obtain rfl := Option.some.inj (hfind.symm.trans hfind')
  have hlast : ∀ {d}, (s.phase d).onRow = some r → ∃ m, lastOn r s.log = some m ∧ m.user = d := by
    intro d hd
    cases hp : s.phase d <;> rw [hp] at hd <;>
      simp only [LanePhase.onRow, Option.some.injEq, reduceCtorEq] at hd <;> subst hd <;>
      exact ⟨_, h.held_of hp rfl, rfl⟩
  obtain ⟨m, hm, rfl⟩ := hlast hb
  obtain ⟨m', hm', rfl⟩ := hlast hc
  rw [Option.some.inj (hm.symm.trans hm')]

theorem Kept.enter (h : s.Kept) (he : s.enabled (.enter b)) (hok : s.OffRow (.enter b)) :
    (s.enter b).Kept := by
  obtain ⟨r, hp⟩ := he
  unfold Lanes.enter
  rw [hp]
  refine h.silent (h.made_of hp (by simp)) (h.trail_of hp :) (by rw [hp]; rfl) fun o r' => ?_
  by_cases ho : o = s.output b
  · subst ho
    rw [Function.update_self]
    constructor
    · intro heq
      obtain rfl := Option.some.inj heq
      exact ⟨b, rfl, by rw [setPhase_self]; rfl⟩
    · rintro ⟨c, hc, hrow⟩
      by_cases hcb : c = b
      · rw [hcb, setPhase_self] at hrow
        exact hrow
      · rw [setPhase_of_ne s _ hcb, hok c hcb hc] at hrow
        simp at hrow
  · rw [Function.update_of_ne ho, h.busy, s.onRow_other b _ ho]

theorem Kept.begin (h : s.Kept) (he : s.enabled (.begin b)) : (s.begin b).Kept := by
  obtain ⟨r, hp⟩ := he
  unfold Lanes.begin
  rw [hp]
  have hlast := h.held_of hp rfl
  refine h.noted (b := b) (m := .began b r) rfl (h.made_of hp (by simp)) hlast ?_ (.inr rfl)
    (by rw [hp]; rfl) h.nodup (fun r' hr' => .inr ⟨h.ne_of_free hlast nofun hr', hr'⟩)
    (Nat.le_refl _) (h.lt_nextRow hlast)
  rw [show marksOf b s.log = _ from h.trail_of hp]
  exact rfl

theorem Kept.laneOf (h : s.Kept) (he : s.enabled (.laneOf b)) : (s.laneOf b).Kept := by
  obtain ⟨hb, _, hp⟩ := he
  unfold Lanes.laneOf
  split
  · next huntraced =>
    rw [if_pos huntraced] at hp
    have htrail : marksOf b s.log = [] := h.trail_of hp
    exact h.silent hb (.inl ⟨huntraced, htrail⟩) (by rw [hp]; rfl) (h.busy_same (by rw [hp]; rfl))
  · next huntraced =>
    rw [if_neg huntraced] at hp
    obtain ⟨r, hp⟩ := hp
    have hfind := (h.busy (s.output b) r).mpr ⟨b, rfl, by rw [hp]; rfl⟩
    rw [hfind]
    exact h.silent hb (h.trail_of hp :) (by rw [hp]; rfl) (h.busy_same (by rw [hp]; rfl))

theorem Kept.finish (h : s.Kept) (he : s.enabled (.finish b)) : (s.finish b).Kept := by
  obtain ⟨r, hp⟩ := he
  unfold Lanes.finish
  rw [hp]
  have hlast := h.held_of hp rfl
  refine h.noted (b := b) (m := .ended b r) rfl (h.made_of hp (by simp)) hlast ?_ (.inr rfl)
    (by rw [hp]; rfl) h.nodup (fun r' hr' => .inr ⟨h.ne_of_free hlast nofun hr', hr'⟩)
    (Nat.le_refl _) (h.lt_nextRow hlast)
  rw [show marksOf b s.log = _ from h.trail_of hp]
  exact rfl

theorem Kept.erase (h : s.Kept) (he : s.enabled (.erase b)) : (s.erase b).Kept := by
  obtain ⟨r, hp⟩ := he
  have hrow : (s.phase b).onRow = some r := by rw [hp]; rfl
  have hfind := (h.busy (s.output b) r).mpr ⟨b, rfl, hrow⟩
  unfold Lanes.erase
  rw [hfind]
  refine h.silent (h.made_of hp (by simp)) (h.trail_of hp :) (by rw [hp]; rfl) fun o r' => ?_
  by_cases ho : o = s.output b
  · subst ho
    rw [Function.update_self]
    refine ⟨nofun, fun ⟨c, hc, hrow'⟩ => ?_⟩
    by_cases hcb : c = b
    · rw [hcb, setPhase_self] at hrow'
      simp [LanePhase.onRow] at hrow'
    · rw [setPhase_of_ne s _ hcb] at hrow'
      exact absurd (h.alone hrow hrow' hc) hcb
  · rw [Function.update_of_ne ho, h.busy, s.onRow_other b _ ho]

theorem Kept.giveBack (h : s.Kept) (he : s.enabled (.giveBack b)) : (s.giveBack b).Kept := by
  obtain ⟨r, hp⟩ := he
  unfold Lanes.giveBack
  rw [hp]
  have hlast := h.held_of hp rfl
  refine h.noted (b := b) (m := .gaveBack b r) rfl (h.made_of hp (by simp)) hlast ?_ (.inl rfl)
    (by rw [hp]; rfl) h.nodup.insert (fun r' hr' => ?_) (Nat.le_refl _) (h.lt_nextRow hlast)
  · rw [show marksOf b s.log = _ from h.trail_of hp]
    exact .inr ⟨r, rfl⟩
  · obtain rfl | hr' := List.mem_insert_iff.mp hr'
    · exact .inl ⟨rfl, rfl⟩
    · exact .inr ⟨h.ne_of_free hlast nofun hr', hr'⟩

/-- What the tree does leaves every row where it was. -/
theorem Kept.tree (h : s.Kept) (e : Event) :
    Kept { s with world := s.world.step contentHash cached e } := by
  have hon := @World.step_onward contentHash cached s.world e
  have hlaunch : ∀ b, s.phase b ≠ .idle →
      ((s.world.step contentHash cached e).builds b).launch = (s.world.builds b).launch :=
    fun b hb => hon.launch b (h.made b hb)
  refine ⟨h.orderly, fun b => ?_, h.held, h.nodup, h.free, h.unused, fun o r => ?_,
    fun b hb => Nat.lt_of_lt_of_le (h.made b hb) hon.buildCount⟩
  · show Trail b (((s.world.step contentHash cached e).builds b).launch.command.action = .tracing)
      (marksOf b s.log) (s.phase b)
    by_cases hb : s.phase b = .idle
    · rw [hb]
      exact h.trail_of hb
    · rw [hlaunch b hb]
      exact h.trail b
  · show s.busyLanes o = some r ↔ ∃ b,
      ((s.world.step contentHash cached e).builds b).launch.output = o ∧
        (s.phase b).onRow = some r
    rw [h.busy]
    refine exists_congr fun b => and_congr_left fun hrow => ?_
    have hb : s.phase b ≠ .idle := by
      intro heq
      rw [heq] at hrow
      simp [LanePhase.onRow] at hrow
    rw [hlaunch b hb]
    exact Iff.rfl

theorem Kept.step (h : s.Kept) (he : s.enabled e) (hok : s.OffRow e) :
    (s.step contentHash cached e).Kept := by
  cases e with
  | tree e => exact h.tree e
  | take b => exact h.take he
  | makeRow b r => exact h.makeRow he
  | enter b => exact h.enter he hok
  | begin b => exact h.begin he
  | laneOf b => exact h.laneOf he
  | finish b => exact h.finish he
  | erase b => exact h.erase he
  | giveBack b => exact h.giveBack he

theorem kept (h : (machine contentHash cached).Reachable OffRow s) : s.Kept := by
  refine h.invariant ?_ fun s e hs he hok => hs.step he hok
  rintro _ ⟨w, r, _, rfl⟩
  refine ⟨.nil, fun _ => rfl, nofun, .nil, nofun, fun _ _ => rfl, fun o r => ?_, fun b hb => ?_⟩
  · exact ⟨nofun, fun ⟨_, _, hrow⟩ => nomatch hrow⟩
  · exact absurd rfl hb

/-- Each span ends on the row it began on, with nothing on that row between, and before the row is
handed back; each row taken is given back once; and no row carries two open spans. -/
structure RowsKept (s : Lanes) : Prop where
  ended : ∀ b r before after, s.log = before ++ .ended b r :: after →
    lastOn r before = some (.began b r)
  gaveBack : ∀ b r before after, s.log = before ++ .gaveBack b r :: after →
    lastOn r before = some (.ended b r)
  once : ∀ b, ∃ r, marksOf b s.log <+: fullTrail b r
  all : ∀ b, s.phase b = .done → ¬s.Untraced b → ∃ r, marksOf b s.log = fullTrail b r
  single : ∀ r before, before <+: s.log → openOn r before ≤ 1

theorem Trail.part_of_full {untraced : Prop} {marks : List (Mark BuildId Row)}
    (h : Trail b untraced marks phase) : ∃ r, marks <+: fullTrail b r := by
  cases phase with
  | idle | making => exact ⟨0, h ▸ List.nil_prefix⟩
  | took r | entered r => exact ⟨r, _, congrArg (· ++ [_, _, _]) h⟩
  | began r | found r => exact ⟨r, _, congrArg (· ++ [_, _]) h⟩
  | ended r | erased r => exact ⟨r, _, congrArg (· ++ [_]) h⟩
  | done =>
    obtain ⟨_, rfl⟩ | ⟨r, rfl⟩ := h
    · exact ⟨0, List.nil_prefix⟩
    · exact ⟨r, List.prefix_rfl⟩

/-- Where a build is put on its row only once the others of its output are off theirs, every row is
kept. -/
theorem rows_kept (h : (machine contentHash cached).Reachable OffRow s) : s.RowsKept := by
  have hk := kept h
  refine ⟨fun b r before after heq => ?_, fun b r before after heq => ?_,
    fun b => (hk.trail b).part_of_full, fun b hdone htraced => ?_, fun r before hpre => ?_⟩
  · exact Orderly.follows (m := .ended b r) (heq ▸ hk.orderly)
  · exact Orderly.follows (m := .gaveBack b r) (heq ▸ hk.orderly)
  · obtain ⟨huntraced, _⟩ | hfull := (hk.trail_of hdone :)
    · exact absurd huntraced htraced
    · exact hfull
  · obtain ⟨after, heq⟩ := hpre
    exact (Orderly.of_append (heq ▸ hk.orderly)).openOn_le r

/-- The one output is opened, and its command cannot be run. -/
def failsOnRow : List LaneEvent :=
  [.tree (.bringUpToDate [['a']]), .take 0, .makeRow 0 0, .enter 0, .begin 0,
    .tree (.launch 0 (.threw (.other 1))), .tree (.settle 0), .tree (.complete 0)]

def closesRow : List LaneEvent := [.laneOf 0, .finish 0, .erase 0, .giveBack 0]

/-- It is opened again before its row is looked up. -/
def reopens : List LaneEvent :=
  [.tree (.bringUpToDate [['a']]), .take 1, .makeRow 1 1, .enter 1, .begin 1, .laneOf 0, .finish 0]

def tracesOne : Lanes := { world := World.declaresOne }

theorem tracesOne_starts {ok : Lanes → LaneEvent → Prop} :
    (machine (fun _ => []) false).Reachable ok tracesOne :=
  .start ⟨_, 0, World.declaresOne_starts, rfl⟩

theorem closesRow_fires :
    (machine (fun _ => []) false).Fires OffRow tracesOne (failsOnRow ++ closesRow) := by
  have halone : ∀ c, c ≠ 0 → (Function.update (Function.update (fun _ : BuildId => LanePhase.idle) 0
      .making) 0 (.took 0) c).onRow = none := by
    intro c hc
    rw [Function.update_of_ne hc, Function.update_of_ne hc]
    rfl
  exact ⟨⟨trivial, trivial⟩, trivial,
    ⟨by decide, (by decide : Action.run ≠ .tracing), rfl, rfl, nofun⟩, trivial,
    ⟨rfl, Nat.le_refl 0⟩, trivial, ⟨0, rfl⟩, fun c hc _ => halone c hc, ⟨0, rfl⟩, trivial,
    ⟨⟨rfl, nofun, (by decide : Action.run ≠ .tracing)⟩, ⟨0, rfl⟩⟩, trivial,
    ⟨.inl ⟨.other 1, [], rfl⟩, trivial⟩, trivial, ⟨⟨_, _, _, rfl⟩, trivial⟩, trivial,
    ⟨by decide, rfl, ⟨0, rfl⟩⟩, trivial, ⟨0, rfl⟩, trivial, ⟨0, rfl⟩, trivial, ⟨0, rfl⟩, trivial,
    trivial⟩

theorem rows_kept_closed : ∃ r, marksOf 0 ((machine (fun _ => []) false).runs tracesOne
    (failsOnRow ++ closesRow)).log = fullTrail 0 r :=
  (rows_kept (tracesOne_starts.runs closesRow_fires)).all 0 rfl (by decide)

theorem reopens_fires : (machine (fun _ => []) false).Fires (fun _ _ => True) tracesOne
    (failsOnRow ++ reopens) :=
  ⟨⟨trivial, trivial⟩, trivial,
    ⟨by decide, (by decide : Action.run ≠ .tracing), rfl, rfl, nofun⟩, trivial,
    ⟨rfl, Nat.le_refl 0⟩, trivial, ⟨0, rfl⟩, trivial, ⟨0, rfl⟩, trivial,
    ⟨⟨rfl, nofun, (by decide : Action.run ≠ .tracing)⟩, ⟨0, rfl⟩⟩, trivial,
    ⟨.inl ⟨.other 1, [], rfl⟩, trivial⟩, trivial, ⟨⟨_, _, _, rfl⟩, trivial⟩, trivial,
    ⟨trivial, trivial⟩, trivial,
    ⟨by decide, (by decide : Action.run ≠ .tracing), rfl, rfl, nofun⟩, trivial,
    ⟨rfl, Nat.le_refl 1⟩, trivial, ⟨1, rfl⟩, trivial, ⟨1, rfl⟩, trivial,
    ⟨by decide, rfl, ⟨0, rfl⟩⟩, trivial, ⟨1, rfl⟩, trivial, trivial⟩

/-- The second build takes the first one's place before the first looks its row up, and the first
ends its span on the second's row. -/
theorem rows_crossed : ¬∀ s : Lanes,
    (machine (fun _ => []) false).Reachable (fun _ _ => True) s → s.RowsKept := by
  intro hall
  have hkept := hall _ (tracesOne_starts.runs reopens_fires)
  have hlast := hkept.ended 0 1 [.took 0 0, .began 0 0, .took 1 1, .began 1 1] [] rfl
  exact absurd hlast (by decide)

end Lanes

end MakeBelieve.Tree
