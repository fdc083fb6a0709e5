import MakeBelieve.Tree.Fires
import MakeBelieve.Tree.Steps

namespace MakeBelieve.Tree

open Library

namespace World

variable {contentHash : Bytes → Hash} {cached : Bool}
variable {w : World} {b : BuildId} {s : State} {e : Event}

/-- A note of the builds struck while under way: an output they had opened was invalidated. -/
def noteStruck (w : World) (e : Event) (struck : BuildId → Bool) : BuildId → Bool :=
  match e, w.todo with
  | .resume _ _, .invalidate outputs :: _ => fun b => struck b ||
      ((w.builds b).stage.unfinished && (w.tree.invalidate outputs).seen.any fun x =>
        decide (asInput x ∈ State.membersOf w.tree.reads (w.builds b).launch.output))
  | _, _ => struck

/-- The tree's machine, with the builds struck noted. -/
def strikes (contentHash : Bytes → Hash) (cached : Bool) :
    Machine (World × (BuildId → Bool)) Event :=
  (machine contentHash cached).noting (fun _ _ => false) noteStruck

/-- Whether an invalidation that reaches what a build under way has opened reaches the build's own
output too, unless that is stale already. -/
def Reaching (w : World) : Event → Prop
  | .resume _ _ => ∀ outputs todo, w.todo = .invalidate outputs :: todo →
      ∀ b, (w.builds b).stage.unfinished = true → ∀ x, w.tree.Reached outputs x →
        asInput x ∈ State.membersOf w.tree.reads (w.builds b).launch.output →
          OutOfDate w.tree (w.builds b).launch.output ∨
            w.tree.Reached outputs (w.builds b).launch.output
  | _ => True

theorem invalidate_outOfDate (s : State) (outputs : List Path) (o : Path) :
    OutOfDate (s.invalidate outputs).state o ↔ OutOfDate s o ∨ s.Reached outputs o := by
  have hm := s.invalidate_marked outputs
  have hdeclared : (s.invalidate outputs).state.declared = s.declared := by rw [hm.only]; rfl
  rw [← s.invalidate_seen]
  constructor
  · intro h
    by_cases hseen : o ∈ (s.invalidate outputs).seen
    · exact .inr hseen
    · refine .inl fun hd => ?_
      rw [← (hm.others o hseen).1]
      exact h (by rw [hdeclared]; exact hd)
  · rintro (h | hseen)
    · exact h.invalidate outputs
    · exact fun _ => (hm.seen o hseen).2.1

/-- What is stale, has lost its rule or is claimed anew once struck. -/
def Answered (w : World) (b : BuildId) : Prop :=
  OutOfDate w.tree (w.builds b).launch.output ∨
    ∃ c, b < c ∧ c < w.buildCount ∧ (w.builds c).launch.output = (w.builds b).launch.output

theorem Answered.step (h : Answered w b) (hb : b < w.buildCount) (e : Event) :
    Answered (w.step contentHash cached e) b := by
  have honward := @step_onward contentHash cached w e
  unfold Answered
  rw [honward.launch b hb]
  obtain h | ⟨c, hbc, hc, hout⟩ := h
  · refine (h.step e).imp id fun ⟨c, hlt, hc, hout⟩ => ⟨c, ?_, hc, hout⟩
    exact Nat.lt_of_lt_of_le hb hlt
  · refine .inr ⟨c, hbc, Nat.lt_of_lt_of_le hc honward.buildCount, ?_⟩
    rw [honward.launch c hc]
    exact hout

/-- An invalidation that strikes a build reaches its output. -/
theorem answered_note (hs : Sound w) {struck : BuildId → Bool} (hok : w.Reaching e)
    (hall : ∀ b, struck b = true → b < w.buildCount ∧ Answered w b)
    (hb : noteStruck w e struck b = true) :
    b < w.buildCount ∧ Answered (w.step contentHash cached e) b := by
  by_cases hold : struck b = true
  · obtain ⟨hlt, h⟩ := hall b hold
    exact ⟨hlt, h.step hlt e⟩
  · have hnew : ∃ now ok outputs todo, e = .resume now ok ∧ w.todo = .invalidate outputs :: todo ∧
        (w.builds b).stage.unfinished = true ∧ ∃ x ∈ (w.tree.invalidate outputs).seen,
          asInput x ∈ State.membersOf w.tree.reads (w.builds b).launch.output := by
      cases e with
      | resume now ok =>
        cases htodo : w.todo with
        | nil => simp [noteStruck, htodo, hold] at hb
        | cons task todo =>
          cases task with
          | invalidate outputs =>
            simp only [noteStruck, htodo, Bool.or_eq_true, hold, Bool.and_eq_true,
              List.any_eq_true, decide_eq_true_eq, Bool.false_eq_true, false_or] at hb
            exact ⟨now, ok, outputs, todo, rfl, rfl, hb⟩
          | _ => simp [noteStruck, htodo, hold] at hb
      | _ => exact absurd hb hold
    obtain ⟨now, ok, outputs, todo, rfl, htodo, hun, x, hx, hread⟩ := hnew
    have hlt : b < w.buildCount := by
      by_contra hge
      rw [hs.ledger.numbered b (Nat.le_of_not_lt hge)] at hun
      simp [Stage.unfinished] at hun
    refine ⟨hlt, .inl ?_⟩
    rw [(@step_onward contentHash cached w _).launch b hlt]
    have htree : (w.step contentHash cached (.resume now ok)).tree =
        (w.tree.invalidate outputs).state := by
      show (w.resume now ok).tree = _
      unfold World.resume
      rw [htodo]
    rw [htree, invalidate_outOfDate]
    exact hok outputs todo htodo b hun x ((w.tree.invalidate_seen outputs x).mp hx) hread

/-- Where every invalidation of what a build under way has opened reaches the build's output, no
build that was struck leaves its output idle and up to date: the output is stale, unless its rule
is gone or a build of it has been claimed since. -/
theorem struck_answered {s : World × (BuildId → Bool)}
    (h : (strikes contentHash cached).Reachable (fun s e => s.1.Reaching e) s)
    (hb : s.2 b = true) : Answered s.1 b := by
  have hinv : ∀ b, s.2 b = true → b < s.1.buildCount ∧ Answered s.1 b := by
    refine h.invariant_under (Q := fun s => Sound s.1)
      (P := fun s => ∀ b, s.2 b = true → b < s.1.buildCount ∧ Answered s.1 b)
      (fun s hs => sound hs.unnoted) (fun s hs b hb => ?_) fun s e hs hall _ hok b hb => ?_
    · rw [hs.2] at hb
      simp at hb
    · obtain ⟨hlt, h⟩ := answered_note hs hok hall hb
      exact ⟨Nat.lt_of_lt_of_le hlt (step_onward s.1 e).buildCount, h⟩
  exact (hinv b hb).2

/-- Whether a step is seen to be `Reaching`. -/
def reaches (w : World) (e : Event) : Bool :=
  match e, w.todo with
  | .resume _ _, .invalidate outputs :: _ => (List.range w.buildCount).all fun b =>
      let output := (w.builds b).launch.output
      !((w.builds b).stage.unfinished && (w.tree.invalidate outputs).seen.any fun x =>
        decide (asInput x ∈ State.membersOf w.tree.reads output)) ||
      (!w.tree.declared output || w.tree.stale output ||
        decide (output ∈ (w.tree.invalidate outputs).seen))
  | _, _ => true

theorem reaching_of_reaches (hs : Sound w) (h : w.reaches e = true) : w.Reaching e := by
  cases e with
  | resume now ok =>
    intro outputs todo htodo b hun x hx hread
    have hlt : b < w.buildCount := by
      by_contra hge
      rw [hs.ledger.numbered b (Nat.le_of_not_lt hge)] at hun
      simp [Stage.unfinished] at hun
    simp only [reaches, htodo, List.all_eq_true, List.mem_range] at h
    have hb := h b hlt
    have hstruck : ((w.tree.invalidate outputs).seen.any fun x =>
        decide (asInput x ∈ State.membersOf w.tree.reads (w.builds b).launch.output)) = true :=
      List.any_eq_true.mpr ⟨x, (w.tree.invalidate_seen outputs x).mpr hx, decide_eq_true hread⟩
    rw [hun, hstruck] at hb
    simp only [Bool.and_true, Bool.not_true, Bool.false_or, Bool.or_eq_true, Bool.not_eq_true',
      decide_eq_true_eq, w.tree.invalidate_seen] at hb
    refine hb.imp (fun hb hd => ?_) id
    rw [hd] at hb
    simpa using hb
  | _ => trivial

/-- A tree that declares two outputs and keeps no cache. -/
def declaresTwo : World :=
  { tree := constructed { entries := [{ output := [['a']] }, { output := [['b']] }] } 0
    origin := fun output =>
      if (constructed { entries := [{ output := [['a']] }, { output := [['b']] }] } 0).declared
        output then
        some (if (constructed { entries := [{ output := [['a']] }, { output := [['b']] }] }
          0).stale output then .placeholder else .restored)
      else none }

theorem declaresTwo_starts : Starts contentHash false declaresTwo :=
  ⟨{ entries := [{ output := [['a']] }, { output := [['b']] }] }, 0, fun _ => none, {}, _,
    ⟨rfl, rfl⟩, rfl⟩

theorem declaresTwo_reachable {ok : World × (BuildId → Bool) → Event → Prop} :
    (strikes contentHash false).Reachable ok (declaresTwo, fun _ => false) :=
  .start ⟨declaresTwo_starts, rfl⟩

/-- The build `b` and its attempt `a` come to their end. -/
def ends (b : BuildId) (a : Coordinator.AttemptId) (inputs : List Path) : List Event :=
  [.coordinator (.finish a), .endWork b (.built [1] inputs), .publish b 0, .write b, .settle b,
    .complete b]

/-- `b` is built from a source file, and the build of `a` that opens it gets under way. -/
def opensB : List Event :=
  [.bringUpToDate [['b']], .launch 0 .ran, .coordinator (.onPermit 0)] ++
    ends 0 0 [[['s']]] ++
    [.bringUpToDate [['a']], .launch 1 .ran, .coordinator (.onPermit 1),
      .recordRead [['a']] [['b']], .bringUpToDate [['b']]]

/-- The source file changes, and what that invalidates is marked. -/
def changes : List Event :=
  [.sourceChange false [[['s']]] none, .resume 0 true, .resume 0 true]

/-- Known as a reader of `b` by then, `a` is reached when the source file changes again while it is
built anew. -/
theorem struck_answered_twice :
    Answered ((strikes (fun _ => []) false).runs (declaresTwo, fun _ => false)
      (opensB ++ ends 1 1 [] ++ changes ++ [.resume 0 true, .resume 0 true, .resume 0 true,
        .launch 3 .ran, .coordinator (.onPermit 3), .recordRead [['a']] [['b']]] ++ changes)).1 3 := by
  have hfires := @fires_of_allFire (fun _ => []) false _ _ _ (fun s e => s.1.reaches e)
    (fun s e => s.1.Reaching e) _ (opensB ++ ends 1 1 [] ++ changes ++ [.resume 0 true,
      .resume 0 true, .resume 0 true, .launch 3 .ran, .coordinator (.onPermit 3),
      .recordRead [['a']] [['b']]] ++ changes) declaresTwo_reachable
    (fun _ _ hs => reaching_of_reaches (sound hs.unnoted)) (by decide +kernel)
  exact struck_answered (declaresTwo_reachable.runs hfires) (by decide +kernel)

/-- When the source file changes during the first build of `a`, that build ends with `a` idle and up
to date, though struck. -/
theorem struck_upToDate :
    ∃ s, (strikes (fun _ => []) false).Reachable (fun _ _ => True) s ∧ s.2 1 = true ∧
      (s.1.builds 1).stage = .over ∧ (s.1.builds 1).launch.output = [['a']] ∧ s.1.buildCount = 2 ∧
      s.1.tree.declared [['a']] = true ∧ s.1.tree.stale [['a']] = false ∧
      s.1.tree.inFlight [['a']] = false := by
  have hfires := @fires_of_allFire (fun _ => []) false _ _ _ (fun _ _ => true)
    (fun _ _ => True) _ (opensB ++ changes ++ ends 1 1 []) declaresTwo_reachable
    (fun _ _ _ _ => trivial) (by decide +kernel)
  exact ⟨_, declaresTwo_reachable.runs hfires, by decide +kernel⟩

end World

end MakeBelieve.Tree
