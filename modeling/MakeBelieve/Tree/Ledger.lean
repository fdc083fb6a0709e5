import MakeBelieve.Tree.Tidy
import MakeBelieve.Tree.World

namespace MakeBelieve.Tree

open Coordinator (AttemptId System)

/-- Whether a build is claimed and its output still in flight. -/
def Stage.unfinished : Stage → Bool
  | .claimed | .working | .finishing _ | .writing .. | .published .. => true
  | _ => false

/-- Whether a build has its attempt still to complete. -/
def Stage.unreleased : Stage → Bool
  | .settled .. => true
  | stage => stage.unfinished

/-- The attempt a build ended without a successor to, while it has that to complete too. -/
def Stage.orphan : Stage → Option AttemptId
  | .settled _ _ orphaned => orphaned
  | .released _ _ orphaned => some orphaned
  | _ => none

/-- Where an attempt not yet completed is kept. -/
inductive Place
  | build (b : BuildId)
  | next (output : Path)
  | orphan (b : BuildId)

namespace World

variable {w w' : World} {b c : BuildId} {output : Path}

def completed (w : World) : List AttemptId := w.system.completions.map Prod.fst

def Holds (w : World) : Place → AttemptId → Prop
  | .build b, a => (w.builds b).stage.unreleased = true ∧ (w.builds b).launch.attempt = a
  | .next output, a => ((w.tree.attempts output).getD {}).next = some a
  | .orphan b, a => (w.builds b).stage.orphan = some a

/-- The output a place that holds an attempt is for, if it is for one. -/
def outputOf (w : World) : Place → Option Path
  | .build b => some (w.builds b).launch.output
  | .next output => some output
  | .orphan _ => none

/-- Every output in flight has one build, the current attempt at it, and every attempt made is
completed once or kept in one place until it is. -/
structure Ledger (w : World) : Prop where
  numbered : ∀ b, w.buildCount ≤ b → (w.builds b).stage = .over
  flight : ∀ o, w.tree.inFlight o = true ↔
    ∃ b, (w.builds b).stage.unfinished = true ∧ (w.builds b).launch.output = o
  alone : ∀ b c, (w.builds b).stage.unfinished = true → (w.builds c).stage.unfinished = true →
    (w.builds b).launch.output = (w.builds c).launch.output → b = c
  current : ∀ b, (w.builds b).stage.unfinished = true →
    ∃ next, w.tree.attempts (w.builds b).launch.output = some
      { current := some (w.builds b).launch.attempt, next
        invalidationsAtStart := (w.builds b).claimedAt }
  held : ∀ a < w.tree.attemptCount, a ∈ w.completed ∨ ∃ p, w.Holds p a
  once : ∀ p q a, w.Holds p a → w.Holds q a → p = q
  pending : ∀ p a, w.Holds p a → a ∉ w.completed ∧ a < w.tree.attemptCount
  output : ∀ p a o, w.Holds p a → w.outputOf p = some o → w.tree.attemptOutput a = o
  ended : ∀ b < w.buildCount, (w.builds b).stage.unreleased = false →
    (w.builds b).launch.attempt ∈ w.completed
  nodup : w.completed.Nodup
  recorded : ∀ a ∈ w.completed, a < w.tree.attemptCount
  count : w.system.coord.attemptCount = w.tree.attemptCount

/-- Nothing the ledger speaks of has changed. -/
structure Same (w w' : World) : Prop where
  inFlight : w'.tree.inFlight = w.tree.inFlight
  next : ∀ o, ((w'.tree.attempts o).getD {}).next = ((w.tree.attempts o).getD {}).next
  attempts : ∀ o, w.tree.inFlight o = true → ∀ attempts, w.tree.attempts o = some attempts →
    w'.tree.attempts o = some attempts
  attemptCount : w'.tree.attemptCount = w.tree.attemptCount
  attemptOutput : w'.tree.attemptOutput = w.tree.attemptOutput
  launch : ∀ b, (w'.builds b).launch = (w.builds b).launch
  claimedAt : ∀ b, (w'.builds b).claimedAt = (w.builds b).claimedAt
  unfinished : ∀ b, (w'.builds b).stage.unfinished = (w.builds b).stage.unfinished
  unreleased : ∀ b, (w'.builds b).stage.unreleased = (w.builds b).stage.unreleased
  orphan : ∀ b, (w'.builds b).stage.orphan = (w.builds b).stage.orphan
  ended : ∀ b, (w.builds b).stage = .over → (w'.builds b).stage = .over
  buildCount : w'.buildCount = w.buildCount
  completions : w'.system.completions = w.system.completions
  count : w'.system.coord.attemptCount = w.system.coord.attemptCount

theorem Same.holds (hs : Same w w') (p : Place) (a : AttemptId) :
    w'.Holds p a ↔ w.Holds p a := by
  cases p with
  | build b => simp only [Holds, hs.unreleased, hs.launch]
  | next o => simp only [Holds, hs.next]
  | orphan b => simp only [Holds, hs.orphan]

theorem Ledger.same (h : Ledger w) (hs : Same w w') : Ledger w' where
  numbered b hb := hs.ended b (h.numbered b (hs.buildCount ▸ hb))
  flight o := by simp only [hs.inFlight, hs.unfinished, hs.launch, h.flight]
  alone b c := by simp only [hs.unfinished, hs.launch]; exact h.alone b c
  current b hb := by
    rw [hs.unfinished] at hb
    rw [hs.launch, hs.claimedAt]
    obtain ⟨next, hnext⟩ := h.current b hb
    exact ⟨next, hs.attempts _ ((h.flight _).mpr ⟨b, hb, rfl⟩) _ hnext⟩
  held a := by
    simp only [completed, hs.completions, hs.holds, hs.attemptCount]
    exact h.held a
  once p q a := by simp only [hs.holds]; exact h.once p q a
  pending p a := by
    simp only [completed, hs.completions, hs.holds, hs.attemptCount]
    exact h.pending p a
  output p a o := by
    have hout : w'.outputOf p = w.outputOf p := by
      cases p <;> simp only [outputOf, hs.launch]
    simp only [hs.holds, hout, hs.attemptOutput]
    exact h.output p a o
  ended b hb := by
    rw [hs.unreleased, hs.launch, completed, hs.completions]
    exact h.ended b (hs.buildCount ▸ hb)
  nodup := by simp only [completed, hs.completions]; exact h.nodup
  recorded a := by
    simp only [completed, hs.completions, hs.attemptCount]
    exact h.recorded a
  count := by rw [hs.count, hs.attemptCount, h.count]

/-- One build is taken on, within the stages the ledger does not tell apart. -/
theorem same_setStage {stage : Stage} (hlt : (w.builds b).stage ≠ .over)
    (hu : stage.unfinished = (w.builds b).stage.unfinished)
    (hr : stage.unreleased = (w.builds b).stage.unreleased)
    (ho : stage.orphan = (w.builds b).stage.orphan) : Same w (w.setStage b stage) := by
  have hb : ∀ c, (w.setStage b stage).builds c =
      if c = b then { w.builds c with stage } else w.builds c := fun c => by
    show Function.update w.builds b { w.builds b with stage } c = _
    rw [Function.update_apply]
    split
    · next heq => rw [heq]
    · rfl
  refine ⟨rfl, fun _ => rfl, fun _ _ _ => id, rfl, rfl, fun c => ?_, fun c => ?_, fun c => ?_,
    fun c => ?_, fun c => ?_, fun c hc => ?_, rfl, rfl, rfl⟩
  · rw [hb]; split <;> rfl
  · rw [hb]; split <;> rfl
  · rw [hb]; split
    · next heq => rw [heq]; exact hu
    · rfl
  · rw [hb]; split
    · next heq => rw [heq]; exact hr
    · rfl
  · rw [hb]; split
    · next heq => rw [heq]; exact ho
    · rfl
  · have hne : c ≠ b := fun heq => hlt (heq ▸ hc)
    rw [hb, if_neg hne]
    exact hc

theorem Same.trans {w'' : World} (h : Same w w') (h' : Same w' w'') : Same w w'' where
  inFlight := h'.inFlight.trans h.inFlight
  next o := (h'.next o).trans (h.next o)
  attempts o hf attempts ha := h'.attempts o (by rw [h.inFlight]; exact hf) _ (h.attempts o hf _ ha)
  attemptCount := h'.attemptCount.trans h.attemptCount
  attemptOutput := h'.attemptOutput.trans h.attemptOutput
  launch b := (h'.launch b).trans (h.launch b)
  claimedAt b := (h'.claimedAt b).trans (h.claimedAt b)
  unfinished b := (h'.unfinished b).trans (h.unfinished b)
  unreleased b := (h'.unreleased b).trans (h.unreleased b)
  orphan b := (h'.orphan b).trans (h.orphan b)
  ended b hb := h'.ended b (h.ended b hb)
  buildCount := h'.buildCount.trans h.buildCount
  completions := h'.completions.trans h.completions
  count := h'.count.trans h.count

/-- What `Same` asks of the tree. -/
structure SameTree (s t : State) : Prop where
  inFlight : t.inFlight = s.inFlight
  next : ∀ o, ((t.attempts o).getD {}).next = ((s.attempts o).getD {}).next
  attempts : ∀ o, s.inFlight o = true → ∀ attempts, s.attempts o = some attempts →
    t.attempts o = some attempts
  attemptCount : t.attemptCount = s.attemptCount
  attemptOutput : t.attemptOutput = s.attemptOutput

theorem SameTree.same (h : SameTree w.tree w'.tree) (hb : w'.builds = w.builds)
    (hc : w'.buildCount = w.buildCount) (hs : w'.system.completions = w.system.completions)
    (hk : w'.system.coord.attemptCount = w.system.coord.attemptCount) : Same w w' :=
  ⟨h.inFlight, h.next, h.attempts, h.attemptCount, h.attemptOutput, fun _ => by rw [hb],
    fun _ => by rw [hb], fun _ => by rw [hb], fun _ => by rw [hb], fun _ => by rw [hb],
    fun _ h => by rw [hb]; exact h, hc, hs, hk⟩

theorem same_of_tree (ht : w'.tree = w.tree) (hb : w'.builds = w.builds)
    (hc : w'.buildCount = w.buildCount) (hs : w'.system.completions = w.system.completions)
    (hk : w'.system.coord.attemptCount = w.system.coord.attemptCount) : Same w w' :=
  SameTree.same ⟨by rw [ht], fun _ => by rw [ht], fun _ _ _ h => by rw [ht]; exact h, by rw [ht],
    by rw [ht]⟩ hb hc hs hk

theorem SameTree.refl (s : State) : SameTree s s :=
  ⟨rfl, fun _ => rfl, fun _ _ _ => id, rfl, rfl⟩

theorem enter_same {tree : State} (h : tree.attemptCount = w.tree.attemptCount) :
    w.enter tree = { w with tree } := by
  unfold enter
  rw [if_neg (by omega)]

theorem enter_made {tree : State} (h : tree.attemptCount = w.tree.attemptCount + 1) :
    w.enter tree = { w with
      tree
      system := w.system.step (.createAttempt (tree.attemptOutput w.tree.attemptCount)
        (tree.attemptPredecessor w.tree.attemptCount)) } := by
  unfold enter
  rw [if_pos (by omega)]

theorem addBuild_tree (w : World) (launch : Option Launch) (behind : Option BuildId) :
    (w.addBuild launch behind).tree = w.tree := by
  cases launch <;> rfl

theorem claimBuild_counts (s : State) (output : Path) :
    (((s.attempts output).getD {}).next = some (s.claimedAttempt output) ∧
      (s.claimBuild output).attemptCount = s.attemptCount ∧
      (s.claimBuild output).attemptOutput = s.attemptOutput) ∨
    (((s.attempts output).getD {}).next = none ∧ s.claimedAttempt output = s.attemptCount ∧
      (s.claimBuild output).attemptCount = s.attemptCount + 1 ∧
      (s.claimBuild output).attemptOutput =
        Function.update s.attemptOutput s.attemptCount output) := by
  unfold State.claimBuild State.claimedAttempt
  dsimp only
  cases ((s.attempts output).getD {}).next with
  | none => exact .inr ⟨rfl, rfl, rfl, rfl⟩
  | some next => exact .inl ⟨rfl, rfl, rfl⟩

/-- The world once a build has been claimed. -/
def claim (w : World) (output : Path) (behind : Option BuildId) : World :=
  (w.enter (w.tree.claimBuild output)).addBuild (some (w.tree.launch output)) behind

theorem claim_tree (w : World) (output : Path) (behind : Option BuildId) :
    (w.claim output behind).tree = w.tree.claimBuild output := rfl

theorem claim_builds (w : World) (output : Path) (behind : Option BuildId) :
    (w.claim output behind).builds = Function.update w.builds w.buildCount
      { launch := w.tree.launch output, behind
        claimedAt := w.tree.invalidations output } := by
  have hinv : (w.tree.claimBuild output).invalidations = w.tree.invalidations := by
    rw [State.claimBuild_only]
  have hclaim : (w.claim output behind).builds = Function.update w.builds w.buildCount
      { launch := w.tree.launch output, behind
        claimedAt := (w.tree.claimBuild output).invalidations output } := rfl
  rw [hclaim, hinv]

theorem claim_holds (w : World) (output : Path) (behind : Option BuildId) :
    (w.claim output behind).Holds (.build w.buildCount) (w.tree.claimedAttempt output) := by
  rw [Holds, claim_builds, Function.update_self]
  exact ⟨rfl, rfl⟩

theorem claim_output (w : World) (output : Path) (behind : Option BuildId) :
    ((w.claim output behind).builds w.buildCount).launch.output = output := by
  rw [claim_builds, Function.update_self]
  rfl

theorem Ledger.claim_counts (h : Ledger w) (output : Path) (behind : Option BuildId) :
    (w.claim output behind).system.completions = w.system.completions ∧
    (w.claim output behind).system.coord.attemptCount =
      (w.tree.claimBuild output).attemptCount := by
  have hsys : (w.claim output behind).system =
      (w.enter (w.tree.claimBuild output)).system := rfl
  rw [hsys]
  obtain ⟨_, hsame, _⟩ | ⟨_, _, hmade, _⟩ := claimBuild_counts w.tree output
  · rw [enter_same hsame, hsame]
    exact ⟨rfl, h.count⟩
  · rw [enter_made hmade, hmade, ← h.count]
    exact ⟨rfl, rfl⟩

theorem Ledger.claim (h : Ledger w) (hidle : w.tree.inFlight output = false)
    (behind : Option BuildId) : Ledger (w.claim output behind) := by
  let n := w.buildCount
  let a := w.tree.claimedAttempt output
  obtain ⟨hcompleted, hcount⟩ := h.claim_counts output behind
  have hover : (w.builds n).stage = .over := h.numbered n (Nat.le_refl _)
  have hbn : (w.claim output behind).builds n =
      { launch := w.tree.launch output, behind
        claimedAt := w.tree.invalidations output } := by
    rw [claim_builds]
    exact Function.update_self ..
  have hbo : ∀ b, b ≠ n → (w.claim output behind).builds b = w.builds b := fun b hb => by
    rw [claim_builds]
    exact Function.update_of_ne hb ..
  have hne : ∀ b, (w.builds b).stage.unfinished = true → b ≠ n := by
    rintro b hb rfl
    rw [hover] at hb
    simp [Stage.unfinished] at hb
  have haway : ∀ b, (w.builds b).stage.unfinished = true → (w.builds b).launch.output ≠ output := by
    intro b hb heq
    have hf := (h.flight output).mpr ⟨b, hb, heq⟩
    rw [hidle] at hf
    simp at hf
  have hattempts := w.tree.claimBuild_attempts output
  have hholds : ∀ p x, (w.claim output behind).Holds p x ↔
      (p = .build n ∧ x = a) ∨ (p ≠ .next output ∧ w.Holds p x) := by
    intro p x
    cases p with
    | build b =>
      by_cases hb : b = n
      · subst hb
        simp only [Holds, hbn, hover]
        simp [Stage.unreleased, Stage.unfinished, State.launch, a, eq_comm]
      · simp only [Holds, hbo b hb]
        simp [hb]
    | next o =>
      simp only [Holds, claim_tree, hattempts, Function.update_apply]
      by_cases ho : o = output
      · subst ho
        simp
      · simp [ho]
    | orphan b =>
      by_cases hb : b = n
      · subst hb
        simp only [Holds, hbn, hover]
        simp [Stage.orphan]
      · simp only [Holds, hbo b hb]
        simp
  have hcounts := claimBuild_counts w.tree output
  have hle : w.tree.attemptCount ≤ (w.tree.claimBuild output).attemptCount := by
    obtain ⟨_, hsame, _⟩ | ⟨_, _, hmade, _⟩ := hcounts <;> omega
  have ha : a ∉ w.completed ∧ a < (w.tree.claimBuild output).attemptCount ∧
      (w.tree.claimBuild output).attemptOutput a = output ∧
      ∀ p, w.Holds p a → p = .next output := by
    obtain ⟨hnext, hsame, hout⟩ | ⟨hnone, hnew, hmade, hout⟩ := hcounts
    · have hheld : w.Holds (.next output) a := hnext
      obtain ⟨hnot, hlt⟩ := h.pending _ _ hheld
      exact ⟨hnot, by rw [hsame]; exact hlt, by rw [hout]; exact h.output _ _ _ hheld rfl,
        fun p hp => h.once _ _ _ hp hheld⟩
    · have hanew : a = w.tree.attemptCount := hnew
      refine ⟨fun hc => ?_, ?_, ?_, fun p hp => ?_⟩
      · exact absurd (hanew ▸ h.recorded a hc) (Nat.lt_irrefl _)
      · rw [hanew, hmade]
        exact Nat.lt_succ_self _
      · rw [hout, hanew]
        exact Function.update_self ..
      · exact absurd (hanew ▸ (h.pending p a hp).2) (Nat.lt_irrefl _)
  have holdOutput : ∀ x < w.tree.attemptCount,
      (w.tree.claimBuild output).attemptOutput x = w.tree.attemptOutput x := by
    intro x hx
    obtain ⟨_, _, hout⟩ | ⟨_, _, _, hout⟩ := hcounts
    · rw [hout]
    · rw [hout]
      exact Function.update_of_ne (Nat.ne_of_lt hx) ..
  have hunfinished : ∀ b, ((w.claim output behind).builds b).stage.unfinished = true ↔
      b = n ∨ (w.builds b).stage.unfinished = true := by
    intro b
    by_cases hb : b = n
    · subst hb
      rw [hbn]
      simp [Stage.unfinished]
    · rw [hbo b hb]
      simp [hb]
  refine ⟨fun b hb => ?_, fun o => ?_, fun b c hb hc heq => ?_, fun b hb => ?_, fun x hx => ?_,
    fun p q x hp hq => ?_, fun p x hp => ?_, fun p x o hp ho => ?_, fun b hb hu => ?_, ?_,
    fun x hx => ?_, hcount⟩
  · have hb' : n + 1 ≤ b := hb
    rw [hbo b (by omega)]
    exact h.numbered b (by omega)
  · rw [claim_tree, State.claimBuild_inFlight, Function.update_apply]
    split
    · next heq =>
      exact iff_of_true rfl ⟨n, (hunfinished n).mpr (.inl rfl), by rw [hbn, heq]; rfl⟩
    · next hne' =>
      rw [h.flight]
      constructor
      · rintro ⟨b, hb, hbo'⟩
        exact ⟨b, (hunfinished b).mpr (.inr hb), by rw [hbo b (hne b hb)]; exact hbo'⟩
      · rintro ⟨b, hb, hbo'⟩
        obtain rfl | hb := (hunfinished b).mp hb
        · rw [hbn] at hbo'
          exact absurd hbo'.symm hne'
        · exact ⟨b, hb, by rwa [hbo b (hne b hb)] at hbo'⟩
  · obtain rfl | hb := (hunfinished b).mp hb
    · obtain rfl | hc := (hunfinished c).mp hc
      · rfl
      · rw [hbn, hbo c (hne c hc)] at heq
        exact absurd heq.symm (haway c hc)
    · rw [hbo b (hne b hb)] at heq
      obtain rfl | hc := (hunfinished c).mp hc
      · rw [hbn] at heq
        exact absurd heq (haway b hb)
      · rw [hbo c (hne c hc)] at heq
        exact h.alone b c hb hc heq
  · rw [claim_tree, hattempts]
    obtain rfl | hb := (hunfinished b).mp hb
    · rw [hbn]
      exact ⟨none, Function.update_self ..⟩
    · rw [hbo b (hne b hb), Function.update_of_ne (haway b hb)]
      exact h.current b hb
  · by_cases hxa : x = a
    · exact .inr ⟨.build n, (hholds _ _).mpr (.inl ⟨rfl, hxa⟩)⟩
    · have hlt : x < w.tree.attemptCount := by
        have hx' : x < (w.tree.claimBuild output).attemptCount := hx
        obtain ⟨_, hsame, _⟩ | ⟨_, hnew, hmade, _⟩ := hcounts
        · rwa [hsame] at hx'
        · rw [hmade] at hx'
          exact Nat.lt_of_le_of_ne (Nat.lt_succ_iff.mp hx') fun heq => hxa (heq.trans hnew.symm)
      refine (h.held x hlt).imp (fun hc => ?_) fun ⟨p, hp⟩ => ⟨p, (hholds _ _).mpr (.inr ⟨?_, hp⟩)⟩
      · unfold completed
        rw [hcompleted]
        exact hc
      · rintro rfl
        have hnext : ((w.tree.attempts output).getD {}).next = some x := hp
        obtain ⟨hsome, _⟩ | ⟨hnone, _⟩ := hcounts
        · exact hxa (Option.some.inj (hnext.symm.trans hsome))
        · rw [hnone] at hnext
          simp at hnext
  · obtain ⟨rfl, rfl⟩ | ⟨hpn, hp⟩ := (hholds _ _).mp hp
    · obtain ⟨rfl, _⟩ | ⟨hqn, hq⟩ := (hholds _ _).mp hq
      · rfl
      · exact absurd (ha.2.2.2 q hq) hqn
    · obtain ⟨rfl, rfl⟩ | ⟨hqn, hq⟩ := (hholds _ _).mp hq
      · exact absurd (ha.2.2.2 p hp) hpn
      · exact h.once p q x hp hq
  · unfold completed
    rw [hcompleted]
    obtain ⟨rfl, rfl⟩ | ⟨_, hp⟩ := (hholds _ _).mp hp
    · exact ⟨ha.1, ha.2.1⟩
    · obtain ⟨hnot, hlt⟩ := h.pending p x hp
      exact ⟨hnot, Nat.lt_of_lt_of_le hlt hle⟩
  · rw [claim_tree]
    obtain ⟨rfl, rfl⟩ | ⟨_, hp⟩ := (hholds _ _).mp hp
    · rw [outputOf, hbn] at ho
      exact ha.2.2.1.trans (Option.some.inj ho)
    · rw [holdOutput x (h.pending p x hp).2]
      refine h.output p x o hp ?_
      cases p with
      | build b =>
        by_cases hb : b = n
        · subst hb
          obtain ⟨hu, _⟩ := hp
          rw [hover] at hu
          simp [Stage.unreleased, Stage.unfinished] at hu
        · rwa [outputOf, hbo b hb] at ho
      | next o' => exact ho
      | orphan b => exact ho
  · have hb' : b < n + 1 := hb
    have hne : b ≠ n := by
      rintro rfl
      rw [hbn] at hu
      simp [Stage.unreleased, Stage.unfinished] at hu
    unfold completed
    rw [hcompleted]
    rw [hbo b hne] at hu ⊢
    exact h.ended b (Nat.lt_of_le_of_ne (Nat.lt_succ_iff.mp hb') hne) hu
  · unfold completed
    rw [hcompleted]
    exact h.nodup
  · unfold completed at hx
    rw [hcompleted] at hx
    exact Nat.lt_of_lt_of_le (h.recorded x hx) hle

/-- An attempt is made at an output in flight, behind the one under way. -/
theorem Ledger.minted (h : Ledger w) (hn : ((w.tree.attempts output).getD {}).next = none)
    (hf : w.tree.inFlight output = true) : Ledger (w.enter (w.tree.minted output)) := by
  let a := w.tree.attemptCount
  have heq : w.enter (w.tree.minted output) = { w with
      tree := w.tree.minted output
      system := w.system.step (.createAttempt ((w.tree.minted output).attemptOutput a)
        ((w.tree.minted output).attemptPredecessor a)) } := enter_made rfl
  rw [heq]
  generalize hw : ({ w with
      tree := w.tree.minted output
      system := w.system.step (.createAttempt ((w.tree.minted output).attemptOutput a)
        ((w.tree.minted output).attemptPredecessor a)) } : World) = w'
  have htree : w'.tree = w.tree.minted output := by rw [← hw]
  have hbuilds : w'.builds = w.builds := by rw [← hw]
  have hcompleted : w'.completed = w.completed := by rw [← hw]; rfl
  have hattempts : (w.tree.minted output).attempts = Function.update w.tree.attempts output
      (some { (w.tree.attempts output).getD {} with next := some a }) := rfl
  have hcount : (w.tree.minted output).attemptCount = a + 1 := rfl
  have houtput : (w.tree.minted output).attemptOutput =
      Function.update w.tree.attemptOutput a output := rfl
  have hholds : ∀ p x, w'.Holds p x ↔ (p = .next output ∧ x = a) ∨ w.Holds p x := by
    intro p x
    cases p with
    | build b => simp [Holds, hbuilds]
    | next o =>
      simp only [Holds, htree, hattempts, Function.update_apply]
      by_cases ho : o = output
      · subst ho
        simp [hn, eq_comm]
      · simp [ho]
    | orphan b => simp [Holds, hbuilds]
  have hfresh : ∀ p, ¬w.Holds p a := fun p hp => Nat.lt_irrefl _ (h.pending p a hp).2
  refine ⟨fun b hb => ?_, fun o => ?_, fun b c hb hc => ?_, fun b hb => ?_, fun x hx => ?_,
    fun p q x hp hq => ?_, fun p x hp => ?_, fun p x o hp ho => ?_, fun b hb => ?_, ?_,
    fun x hx => ?_, ?_⟩
  · rw [hbuilds]
    exact h.numbered b (by rw [← hw] at hb; exact hb)
  · rw [htree, hbuilds]
    exact h.flight o
  · rw [hbuilds] at hb hc ⊢
    exact h.alone b c hb hc
  · rw [hbuilds] at hb ⊢
    obtain ⟨next, hnext⟩ := h.current b hb
    rw [htree, hattempts, Function.update_apply]
    split
    · next heq =>
      rw [heq] at hnext
      rw [hnext]
      exact ⟨_, rfl⟩
    · exact ⟨next, hnext⟩
  · rw [htree, hcount] at hx
    by_cases hxa : x = a
    · exact .inr ⟨_, (hholds _ _).mpr (.inl ⟨rfl, hxa⟩)⟩
    · rw [hcompleted]
      exact (h.held x (Nat.lt_of_le_of_ne (Nat.lt_succ_iff.mp hx) hxa)).imp id
        fun ⟨p, hp⟩ => ⟨p, (hholds _ _).mpr (.inr hp)⟩
  · obtain ⟨rfl, rfl⟩ | hp := (hholds _ _).mp hp
    · obtain ⟨rfl, _⟩ | hq := (hholds _ _).mp hq
      · rfl
      · exact absurd hq (hfresh q)
    · obtain ⟨rfl, rfl⟩ | hq := (hholds _ _).mp hq
      · exact absurd hp (hfresh p)
      · exact h.once p q x hp hq
  · rw [hcompleted, htree, hcount]
    obtain ⟨rfl, rfl⟩ | hp := (hholds _ _).mp hp
    · exact ⟨fun hc => Nat.lt_irrefl _ (h.recorded _ hc), Nat.lt_succ_self _⟩
    · exact ⟨(h.pending p x hp).1, Nat.lt_succ_of_lt (h.pending p x hp).2⟩
  · rw [htree, houtput, Function.update_apply]
    obtain ⟨rfl, rfl⟩ | hp := (hholds _ _).mp hp
    · rw [if_pos rfl]
      exact Option.some.inj ho
    · have hne : x ≠ a := fun heq => hfresh p (heq ▸ hp)
      rw [if_neg hne]
      refine h.output p x o hp ?_
      cases p <;> simpa only [outputOf, hbuilds] using ho
  · rw [hbuilds, hcompleted]
    exact h.ended b (by rw [← hw] at hb; exact hb)
  · rw [hcompleted]
    exact h.nodup
  · rw [hcompleted] at hx
    rw [htree, hcount]
    exact Nat.lt_succ_of_lt (h.recorded x hx)
  · rw [htree, hcount, ← hw]
    show w.system.coord.attemptCount + 1 = _
    rw [h.count]

/-- A build's output is no longer in flight; a next attempt at it stays where it is, or goes with
the build if the output has lost its rule. -/
theorem Ledger.land (h : Ledger w) (hb : (w.builds b).stage.unfinished = true) {t : State}
    {result : BuildResult} {keep : Option Keep} {orphaned : Option AttemptId}
    (hflight : t.inFlight = Function.update w.tree.inFlight (w.builds b).launch.output false)
    (hcount : t.attemptCount = w.tree.attemptCount)
    (houtput : t.attemptOutput = w.tree.attemptOutput)
    (hattempts : orphaned = none ∧ t.attempts = w.tree.attempts ∨
      orphaned = ((w.tree.attempts (w.builds b).launch.output).getD {}).next ∧
        t.attempts = Function.update w.tree.attempts (w.builds b).launch.output none) :
    Ledger { w.setStage b (.settled result keep orphaned) with tree := t } := by
  let output := (w.builds b).launch.output
  generalize hw : ({ w.setStage b (.settled result keep orphaned) with tree := t } : World) = w'
  have htree : w'.tree = t := by rw [← hw]
  have hcompleted : w'.completed = w.completed := by rw [← hw]; rfl
  have hsys : w'.system = w.system := by rw [← hw]; rfl
  have hbb : w'.builds b = { w.builds b with stage := .settled result keep orphaned } := by
    rw [← hw]
    exact Function.update_self ..
  have hbo : ∀ c, c ≠ b → w'.builds c = w.builds c := fun c hc => by
    rw [← hw]
    exact Function.update_of_ne hc ..
  have hlaunch : ∀ c, (w'.builds c).launch = (w.builds c).launch := fun c => by
    by_cases hc : c = b
    · subst hc
      rw [hbb]
    · rw [hbo c hc]
  have hunfinished : ∀ c, (w'.builds c).stage.unfinished = true ↔
      c ≠ b ∧ (w.builds c).stage.unfinished = true := fun c => by
    by_cases hc : c = b
    · subst hc
      rw [hbb]
      simp [Stage.unfinished]
    · rw [hbo c hc]
      simp [hc]
  have haway : ∀ c, c ≠ b → (w.builds c).stage.unfinished = true →
      (w.builds c).launch.output ≠ output := fun c hc hu heq => hc (h.alone c b hu hb heq)
  have hunreleased : ∀ c, (w'.builds c).stage.unreleased = (w.builds c).stage.unreleased := by
    intro c
    by_cases hc : c = b
    · subst hc
      rw [hbb]
      show true = _
      cases hs : (w.builds c).stage <;> simp_all [Stage.unreleased, Stage.unfinished]
    · rw [hbo c hc]
  have hnoorphan : (w.builds b).stage.orphan = none := by
    cases hs : (w.builds b).stage <;> simp_all [Stage.orphan, Stage.unfinished]
  have hholds : ∀ p x, w'.Holds p x ↔
      (orphaned ≠ none ∧ p = .orphan b ∧ w.Holds (.next output) x) ∨
        ((orphaned = none ∨ p ≠ .next output) ∧ w.Holds p x) := by
    intro p x
    cases p with
    | build c => simp [Holds, hunreleased, hlaunch]
    | next o =>
      simp only [Holds, htree]
      obtain ⟨hnone, hsame⟩ | ⟨hnext, hgone⟩ := hattempts
      · simp [hnone, hsame]
      · rw [hgone, Function.update_apply]
        by_cases ho : o = output
        · subst ho
          rw [if_pos rfl]
          simp only [hnext]
          constructor
          · simp
          · rintro (⟨_, h, _⟩ | ⟨hnone | hne, hx⟩)
            · simp at h
            · rw [show ((w.tree.attempts output).getD {}).next = none from hnone] at hx
              simp at hx
            · exact absurd rfl hne
        · rw [if_neg ho]
          simp [ho]
    | orphan c =>
      by_cases hc : c = b
      · subst hc
        have hnew : (w'.builds c).stage.orphan = orphaned := by
          rw [hbb]
          rfl
        simp only [Holds, hnew, hnoorphan]
        obtain ⟨hnone, _⟩ | ⟨hnext, _⟩ := hattempts
        · simp [hnone]
        · rw [← hnext]
          cases orphaned <;> simp
      · simp only [Holds, hbo c hc]
        simp [hc]
  refine ⟨fun c hc => ?_, fun o => ?_, fun c d hc hd heq => ?_, fun c hc => ?_, fun x hx => ?_,
    fun p q x hp hq => ?_, fun p x hp => ?_, fun p x o hp ho => ?_, fun c hc => ?_, ?_,
    fun x hx => ?_, ?_⟩
  · have hne : c ≠ b := by
      rintro rfl
      have hover := h.numbered c (by rw [← hw] at hc; exact hc)
      rw [hover] at hb
      simp [Stage.unfinished] at hb
    rw [hbo c hne]
    exact h.numbered c (by rw [← hw] at hc; exact hc)
  · rw [htree, hflight, Function.update_apply]
    split
    · next heq =>
      refine iff_of_false (by simp) ?_
      rintro ⟨c, hc, ho⟩
      obtain ⟨hne, hu⟩ := (hunfinished c).mp hc
      exact haway c hne hu (by rw [← hlaunch]; exact ho.trans heq)
    · next hne =>
      rw [h.flight]
      constructor
      · rintro ⟨c, hc, ho⟩
        have hcb : c ≠ b := by
          rintro rfl
          exact hne ho.symm
        exact ⟨c, (hunfinished c).mpr ⟨hcb, hc⟩, by rw [hlaunch]; exact ho⟩
      · rintro ⟨c, hc, ho⟩
        exact ⟨c, ((hunfinished c).mp hc).2, by rw [← hlaunch]; exact ho⟩
  · rw [hlaunch, hlaunch] at heq
    exact h.alone c d ((hunfinished c).mp hc).2 ((hunfinished d).mp hd).2 heq
  · obtain ⟨hne, hu⟩ := (hunfinished c).mp hc
    rw [hbo c hne, htree]
    obtain ⟨_, hsame⟩ | ⟨_, hgone⟩ := hattempts
    · rw [hsame]
      exact h.current c hu
    · rw [hgone, Function.update_of_ne (haway c hne hu)]
      exact h.current c hu
  · rw [hcompleted]
    rw [htree, hcount] at hx
    refine (h.held x hx).imp id ?_
    rintro ⟨p, hp⟩
    by_cases hpn : orphaned = none ∨ p ≠ .next output
    · exact ⟨p, (hholds _ _).mpr (.inr ⟨hpn, hp⟩)⟩
    · simp only [not_or, not_not] at hpn
      exact ⟨.orphan b, (hholds _ _).mpr (.inl ⟨hpn.1, rfl, hpn.2 ▸ hp⟩)⟩
  · obtain ⟨hor, hpb, hpx⟩ | ⟨hpn, hpx⟩ := (hholds _ _).mp hp
    · obtain ⟨_, hqb, _⟩ | ⟨hqn, hqx⟩ := (hholds _ _).mp hq
      · rw [hpb, hqb]
      · exact absurd (h.once _ _ _ hqx hpx) (hqn.resolve_left hor)
    · obtain ⟨hor, _, hqx⟩ | ⟨_, hqx⟩ := (hholds _ _).mp hq
      · exact absurd (h.once _ _ _ hpx hqx) (hpn.resolve_left hor)
      · exact h.once p q x hpx hqx
  · rw [hcompleted, htree, hcount]
    obtain ⟨_, _, hp⟩ | ⟨_, hp⟩ := (hholds _ _).mp hp
    · exact h.pending _ x hp
    · exact h.pending p x hp
  · rw [htree, houtput]
    obtain ⟨_, rfl, _⟩ | ⟨_, hp⟩ := (hholds _ _).mp hp
    · simp [outputOf] at ho
    · refine h.output p x o hp ?_
      cases p <;> simpa only [outputOf, hlaunch] using ho
  · rw [hunreleased, hlaunch, hcompleted]
    exact h.ended c (by rw [← hw] at hc; exact hc)
  · rw [hcompleted]
    exact h.nodup
  · rw [hcompleted] at hx
    rw [htree, hcount]
    exact h.recorded x hx
  · rw [hsys, htree, hcount]
    exact h.count

/-- An attempt is completed, and gone from where it was kept. -/
theorem Ledger.released (h : Ledger w) {p : Place} {a : AttemptId} (hp : w.Holds p a)
    (htree : w'.tree = w.tree) (hlaunch : ∀ b, (w'.builds b).launch = (w.builds b).launch)
    (hclaimed : ∀ b, (w'.builds b).claimedAt = (w.builds b).claimedAt)
    (hunfinished : ∀ b, (w'.builds b).stage.unfinished = (w.builds b).stage.unfinished)
    (hover : ∀ b, (w.builds b).stage = .over → (w'.builds b).stage = .over)
    (hbuilds : w'.buildCount = w.buildCount)
    (hholds : ∀ q x, w'.Holds q x ↔ q ≠ p ∧ w.Holds q x)
    (hcompleted : w'.completed = w.completed ++ [a])
    (hcount : w'.system.coord.attemptCount = w.system.coord.attemptCount) : Ledger w' where
  numbered b hb := hover b (h.numbered b (hbuilds ▸ hb))
  flight o := by simp only [htree, hunfinished, hlaunch, h.flight]
  alone b c := by simp only [hunfinished, hlaunch]; exact h.alone b c
  current b := by
    simp only [hunfinished, hlaunch, htree, hclaimed]
    exact h.current b
  held x hx := by
    rw [htree] at hx
    rw [hcompleted, List.mem_append, List.mem_singleton]
    obtain hc | ⟨q, hq⟩ := h.held x hx
    · exact .inl (.inl hc)
    · by_cases hqp : q = p
      · subst hqp
        refine .inl (.inr ?_)
        have hsame : ∀ {x y}, w.Holds q x → w.Holds q y → x = y := by
          intro x y hx hy
          cases q with
          | build b => exact hx.2.symm.trans hy.2
          | next o => exact Option.some.inj (hx.symm.trans hy)
          | orphan b => exact Option.some.inj (hx.symm.trans hy)
        exact hsame hq hp
      · exact .inr ⟨q, (hholds _ _).mpr ⟨hqp, hq⟩⟩
  once q r x hq hr := h.once q r x ((hholds _ _).mp hq).2 ((hholds _ _).mp hr).2
  pending q x hq := by
    obtain ⟨hqp, hq⟩ := (hholds _ _).mp hq
    rw [hcompleted, List.mem_append, List.mem_singleton, htree]
    refine ⟨not_or.mpr ⟨(h.pending q x hq).1, ?_⟩, (h.pending q x hq).2⟩
    rintro rfl
    exact hqp (h.once q p x hq hp)
  output q x o hq ho := by
    have hout : w'.outputOf q = w.outputOf q := by
      cases q <;> simp only [outputOf, hlaunch]
    rw [htree]
    exact h.output q x o ((hholds _ _).mp hq).2 (hout ▸ ho)
  ended b hb hu := by
    rw [hcompleted, List.mem_append, List.mem_singleton, hlaunch]
    cases hold : (w.builds b).stage.unreleased with
    | false => exact .inl (h.ended b (hbuilds ▸ hb) hold)
    | true =>
      have hheld : w.Holds (.build b) (w.builds b).launch.attempt := ⟨hold, rfl⟩
      have hgone : ¬w'.Holds (.build b) (w.builds b).launch.attempt := fun hx => by
        rw [Holds, hu] at hx
        simp at hx
      have hpb : p = .build b := by
        by_contra hne
        exact hgone ((hholds _ _).mpr ⟨Ne.symm hne, hheld⟩)
      subst hpb
      exact .inr hp.2
  nodup := by
    rw [hcompleted]
    refine List.nodup_append.mpr ⟨h.nodup, List.nodup_singleton a, fun x hx y hy hxy => ?_⟩
    rw [List.mem_singleton] at hy
    exact (h.pending p a hp).1 (hy ▸ hxy ▸ hx)
  recorded x hx := by
    rw [hcompleted, List.mem_append, List.mem_singleton] at hx
    rw [htree]
    obtain hx | rfl := hx
    · exact h.recorded x hx
    · exact (h.pending p x hp).2
  count := by rw [hcount, htree, h.count]

end World

end MakeBelieve.Tree
