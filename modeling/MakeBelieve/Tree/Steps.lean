import MakeBelieve.Tree.Sound

namespace MakeBelieve.Tree

open Library

/-- Whether a step is a build's or the coordinator's alone, the tree left as it is. -/
def Event.aside : Event → Bool
  | .launch .. | .endWork .. | .complete _ | .completeOrphaned _ | .beginKeeping _ | .stamp _
  | .store .. | .editSource _ | .coordinator _ => true
  | _ => false

/-- The build a step takes on, if it is a build's. -/
def Event.build : Event → Option BuildId
  | .launch b _ | .endWork b _ | .publish b _ | .write b | .settle b | .complete b
  | .completeOrphaned b | .beginKeeping b | .stamp b | .store b _ => some b
  | _ => none

namespace World

variable {contentHash : Bytes → Hash} {cached : Bool}
variable {w w' w'' : World} {b c : BuildId} {output o : Path} {s t : State} {e : Event}

/-- The tree, the callback and what is known of each output are as they were. -/
structure Aside (w w' : World) : Prop where
  tree : w'.tree = w.tree
  layout : w'.layout = w.layout
  todo : w'.todo = w.todo
  starting : w'.starting = w.starting
  origin : w'.origin = w.origin
  lastResult : w'.lastResult = w.lastResult

theorem step_aside (h : e.aside = true) : Aside w (w.step contentHash cached e) := by
  have hrefl : ∀ w : World, Aside w w := fun w => ⟨rfl, rfl, rfl, rfl, rfl, rfl⟩
  cases e with
  | launch b start => cases start <;> exact ⟨rfl, rfl, rfl, rfl, rfl, rfl⟩
  | endWork | editSource | coordinator => exact ⟨rfl, rfl, rfl, rfl, rfl, rfl⟩
  | complete b =>
    show Aside w (w.complete b)
    unfold World.complete
    split
    · exact ⟨rfl, rfl, rfl, rfl, rfl, rfl⟩
    · exact hrefl w
  | completeOrphaned b =>
    show Aside w (w.completeOrphaned b)
    unfold World.completeOrphaned
    split
    · exact ⟨rfl, rfl, rfl, rfl, rfl, rfl⟩
    · exact hrefl w
  | beginKeeping b =>
    show Aside w (w.beginKeeping b)
    unfold World.beginKeeping
    split
    · exact ⟨rfl, rfl, rfl, rfl, rfl, rfl⟩
    · exact hrefl w
  | stamp b =>
    show Aside w (w.stamp b)
    unfold World.stamp
    split
    · exact ⟨rfl, rfl, rfl, rfl, rfl, rfl⟩
    · exact hrefl w
  | store b ok =>
    show Aside w (w.store contentHash b ok)
    unfold World.store
    split
    · exact ⟨rfl, rfl, rfl, rfl, rfl, rfl⟩
    · exact hrefl w
  | _ => simp [Event.aside] at h

/-- Every build claimed so far is the build it was. -/
structure Onward (w w' : World) : Prop where
  buildCount : w.buildCount ≤ w'.buildCount
  launch : ∀ b < w.buildCount, (w'.builds b).launch = (w.builds b).launch
  claimedAt : ∀ b < w.buildCount, (w'.builds b).claimedAt = (w.builds b).claimedAt

theorem Onward.refl (w : World) : Onward w w := ⟨Nat.le_refl _, fun _ _ => rfl, fun _ _ => rfl⟩

theorem Onward.trans (h : Onward w w') (h' : Onward w' w'') : Onward w w'' where
  buildCount := Nat.le_trans h.buildCount h'.buildCount
  launch b hb := (h'.launch b (Nat.lt_of_lt_of_le hb h.buildCount)).trans (h.launch b hb)
  claimedAt b hb := (h'.claimedAt b (Nat.lt_of_lt_of_le hb h.buildCount)).trans (h.claimedAt b hb)

theorem setStage_self (w : World) (b : BuildId) (stage : Stage) :
    (w.setStage b stage).builds b = { w.builds b with stage } := Function.update_self ..

theorem setStage_of_ne (w : World) {b c : BuildId} (h : c ≠ b) (stage : Stage) :
    (w.setStage b stage).builds c = w.builds c := Function.update_of_ne h ..

theorem setStage_launch (w : World) (b c : BuildId) (stage : Stage) :
    ((w.setStage b stage).builds c).launch = (w.builds c).launch := by
  by_cases h : c = b
  · rw [h, setStage_self]
  · rw [setStage_of_ne w h]

theorem setStage_claimedAt (w : World) (b c : BuildId) (stage : Stage) :
    ((w.setStage b stage).builds c).claimedAt = (w.builds c).claimedAt := by
  by_cases h : c = b
  · rw [h, setStage_self]
  · rw [setStage_of_ne w h]

/-- Builds that are what they were, or one of them further on. -/
theorem Onward.of_setStage {stage : Stage} (hb : w'.builds = (w.setStage b stage).builds)
    (hc : w'.buildCount = w.buildCount) : Onward w w' where
  buildCount := Nat.le_of_eq hc.symm
  launch c _ := by rw [hb, setStage_launch]
  claimedAt c _ := by rw [hb, setStage_claimedAt]

theorem Onward.of_builds (hb : w'.builds = w.builds) (hc : w'.buildCount = w.buildCount) :
    Onward w w' where
  buildCount := Nat.le_of_eq hc.symm
  launch c _ := by rw [hb]
  claimedAt c _ := by rw [hb]

theorem addBuild_onward (w : World) (launch : Option Launch) (behind : Option BuildId) :
    Onward w (w.addBuild launch behind) := by
  cases launch with
  | none => exact .refl w
  | some launch =>
    have hold : ∀ b < w.buildCount,
        (w.addBuild (some launch) behind).builds b = w.builds b := fun b hb =>
      Function.update_of_ne (Nat.ne_of_lt hb) ..
    exact ⟨Nat.le_succ _, fun b hb => by rw [hold b hb], fun b hb => by rw [hold b hb]⟩

theorem enter_onward (w : World) (tree : State) (launch : Option Launch)
    (behind : Option BuildId) : Onward w ((w.enter tree).addBuild launch behind) := by
  have hentered : Onward w (w.enter tree) := .of_builds rfl rfl
  exact hentered.trans (addBuild_onward _ _ _)

theorem settleWith_onward (w : World) (b : BuildId) (result : BuildResult) (keep : Option Keep) :
    Onward w (w.settleWith b result keep) := by
  let output := (w.builds b).launch.output
  let lasted : World := { w with lastResult := Function.update w.lastResult output (some result) }
  let staged := lasted.setStage b (.settled result keep (w.tree.settle output result).1.orphaned)
  have hstaged : Onward w staged := .of_setStage (b := b) rfl rfl
  exact hstaged.trans (enter_onward staged _ _ _)

/-- The end of a build leaves the callback where it was, and every file too. -/
theorem settleWith_aside (w : World) (b : BuildId) (result : BuildResult) (keep : Option Keep) :
    (w.settleWith b result keep).todo = w.todo ∧ (w.settleWith b result keep).layout = w.layout ∧
      (w.settleWith b result keep).starting = w.starting ∧
      (w.settleWith b result keep).origin = w.origin := by
  unfold World.settleWith
  dsimp only
  cases (w.tree.settle (w.builds b).launch.output result).1.next <;> exact ⟨rfl, rfl, rfl, rfl⟩

theorem step_onward (w : World) (e : Event) : Onward w (w.step contentHash cached e) := by
  cases e with
  | bringUpToDate output => exact enter_onward w _ _ _
  | startNext output =>
    have hw : Onward w { w with starting := w.starting.erase output } := .of_builds rfl rfl
    exact hw.trans (enter_onward _ _ _ _)
  | recordRead | materializeAll | editSource | sourceChange | coordinator =>
    exact .of_builds rfl rfl
  | launch b start => cases start <;> exact .of_setStage (b := b) rfl rfl
  | endWork b result => exact .of_setStage (b := b) rfl rfl
  | publish b builtAt =>
    show Onward w (w.publish contentHash cached b builtAt)
    unfold World.publish
    dsimp only
    split
    · split <;> exact .of_setStage (b := b) rfl rfl
    · exact .refl w
  | write b =>
    show Onward w (w.write b)
    unfold World.write
    dsimp only
    split
    · exact .of_setStage (b := b) rfl rfl
    · exact .refl w
  | settle b =>
    show Onward w (w.settle b)
    unfold World.settle
    split
    · exact settleWith_onward w b _ _
    · exact settleWith_onward w b _ _
    · exact .refl w
  | complete b =>
    show Onward w (w.complete b)
    unfold World.complete
    split
    · exact .of_setStage (b := b) rfl rfl
    · exact .refl w
  | completeOrphaned b =>
    show Onward w (w.completeOrphaned b)
    unfold World.completeOrphaned
    split
    · exact .of_setStage (b := b) rfl rfl
    · exact .refl w
  | beginKeeping b =>
    show Onward w (w.beginKeeping b)
    unfold World.beginKeeping
    split
    · exact .of_setStage (b := b) rfl rfl
    · exact .refl w
  | stamp b =>
    show Onward w (w.stamp b)
    unfold World.stamp
    split
    · exact .of_setStage (b := b) rfl rfl
    · exact .refl w
  | store b ok =>
    show Onward w (w.store contentHash b ok)
    unfold World.store
    split
    · exact .of_setStage (b := b) rfl rfl
    · exact .refl w
  | resume now ok =>
    show Onward w (w.resume now ok)
    unfold World.resume
    split
    on_goal 10 =>
      next output todo _ =>
        have hw : Onward w { w with todo } := .of_builds rfl rfl
        exact hw.trans (enter_onward _ _ _ _)
    all_goals exact .of_builds rfl rfl

theorem addBuild_builds (w : World) (launch : Option Launch) (behind : Option BuildId) {c : BuildId}
    (hc : c < w.buildCount) : (w.addBuild launch behind).builds c = w.builds c := by
  cases launch with
  | none => rfl
  | some launch => exact Function.update_of_ne (Nat.ne_of_lt hc) ..

theorem settleWith_builds (w : World) (b : BuildId) (result : BuildResult) (keep : Option Keep)
    {c : BuildId} (hc : c < w.buildCount) :
    (w.settleWith b result keep).builds c = (w.setStage b (.settled result keep
      (w.tree.settle (w.builds b).launch.output result).1.orphaned)).builds c :=
  addBuild_builds _ _ _ hc

/-- A step takes one build on at most, of those claimed before it. -/
theorem step_others (w : World) (e : Event) {c : BuildId} (he : e.build ≠ some c)
    (hc : c < w.buildCount) : (w.step contentHash cached e).builds c = w.builds c := by
  have hset : ∀ {b : BuildId} {stage : Stage}, some b ≠ some c →
      (w.setStage b stage).builds c = w.builds c := fun hb =>
    setStage_of_ne w (fun heq => hb (congrArg some heq.symm)) _
  cases e with
  | bringUpToDate output => exact addBuild_builds _ _ _ hc
  | startNext output => exact addBuild_builds _ _ _ hc
  | recordRead | materializeAll | editSource | sourceChange | coordinator => rfl
  | launch b start => cases start <;> exact hset he
  | endWork b result => exact hset he
  | publish b builtAt =>
    show (w.publish contentHash cached b builtAt).builds c = w.builds c
    unfold World.publish
    dsimp only
    split
    · split <;> exact hset he
    · rfl
  | write b =>
    show (w.write b).builds c = w.builds c
    unfold World.write
    dsimp only
    split
    · exact hset he
    · rfl
  | settle b =>
    show (w.settle b).builds c = w.builds c
    unfold World.settle
    split
    · exact (settleWith_builds w b _ _ hc).trans (hset he)
    · exact (settleWith_builds w b _ _ hc).trans (hset he)
    · rfl
  | complete b =>
    show (w.complete b).builds c = w.builds c
    unfold World.complete
    split
    · exact hset he
    · rfl
  | completeOrphaned b =>
    show (w.completeOrphaned b).builds c = w.builds c
    unfold World.completeOrphaned
    split
    · exact hset he
    · rfl
  | beginKeeping b =>
    show (w.beginKeeping b).builds c = w.builds c
    unfold World.beginKeeping
    split
    · exact hset he
    · rfl
  | stamp b =>
    show (w.stamp b).builds c = w.builds c
    unfold World.stamp
    split
    · exact hset he
    · rfl
  | store b ok =>
    show (w.store contentHash b ok).builds c = w.builds c
    unfold World.store
    split
    · exact hset he
    · rfl
  | resume now ok =>
    show (w.resume now ok).builds c = w.builds c
    unfold World.resume
    split
    on_goal 10 => exact addBuild_builds _ _ _ hc
    all_goals rfl

/-- A build that is not launched yet, whose output has not been invalidated since its claim. -/
def JustClaimed (w : World) (c : BuildId) : Prop :=
  (w.builds c).stage = .claimed ∧
    (w.builds c).claimedAt = w.tree.invalidations (w.builds c).launch.output

theorem addBuild_new (w : World) (launch : Option Launch) (behind : Option BuildId) {c : BuildId}
    (hge : w.buildCount ≤ c) (hc : c < (w.addBuild launch behind).buildCount) :
    JustClaimed (w.addBuild launch behind) c := by
  cases launch with
  | none => exact absurd hc (Nat.not_lt.mpr hge)
  | some launch =>
    have heq : c = w.buildCount := Nat.le_antisymm (Nat.le_of_lt_succ hc) hge
    have hself : (w.addBuild (some launch) behind).builds c =
        { launch, behind, claimedAt := w.tree.invalidations launch.output } := by
      rw [heq]
      exact Function.update_self ..
    exact ⟨by rw [hself], by rw [hself]; rfl⟩

/-- A build that a step adds is one just claimed. -/
theorem step_new (w : World) (e : Event) {c : BuildId} (hge : w.buildCount ≤ c)
    (hc : c < (w.step contentHash cached e).buildCount) :
    JustClaimed (w.step contentHash cached e) c := by
  have hnot : ∀ {P : Prop} {n : Nat}, n = w.buildCount → c < n → P := fun hn hc =>
    absurd (hn ▸ hc) (Nat.not_lt.mpr hge)
  cases e with
  | bringUpToDate output => exact addBuild_new _ _ _ hge hc
  | startNext output => exact addBuild_new _ _ _ hge hc
  | recordRead | materializeAll | editSource | sourceChange | coordinator => exact hnot rfl hc
  | launch b start => cases start <;> exact hnot rfl hc
  | endWork b result => exact hnot rfl hc
  | publish b builtAt =>
    refine hnot (n := (w.publish contentHash cached b builtAt).buildCount) ?_ hc
    unfold World.publish
    dsimp only
    split
    · split <;> rfl
    · rfl
  | write b =>
    refine hnot (n := (w.write b).buildCount) ?_ hc
    unfold World.write
    dsimp only
    split <;> rfl
  | settle b =>
    have hc' : c < (w.settle b).buildCount := hc
    show JustClaimed (w.settle b) c
    unfold World.settle at hc' ⊢
    split at hc'
    · exact addBuild_new _ _ _ hge hc'
    · exact addBuild_new _ _ _ hge hc'
    · exact absurd hc' (Nat.not_lt.mpr hge)
  | complete b =>
    refine hnot (n := (w.complete b).buildCount) ?_ hc
    unfold World.complete
    split <;> rfl
  | completeOrphaned b =>
    refine hnot (n := (w.completeOrphaned b).buildCount) ?_ hc
    unfold World.completeOrphaned
    split <;> rfl
  | beginKeeping b =>
    refine hnot (n := (w.beginKeeping b).buildCount) ?_ hc
    unfold World.beginKeeping
    split <;> rfl
  | stamp b =>
    refine hnot (n := (w.stamp b).buildCount) ?_ hc
    unfold World.stamp
    split <;> rfl
  | store b ok =>
    refine hnot (n := (w.store contentHash b ok).buildCount) ?_ hc
    unfold World.store
    split <;> rfl
  | resume now ok =>
    have hc' : c < (w.resume now ok).buildCount := hc
    show JustClaimed (w.resume now ok) c
    unfold World.resume at hc' ⊢
    split at hc'
    on_goal 10 => exact addBuild_new _ _ _ hge hc'
    all_goals exact absurd hc' (Nat.not_lt.mpr hge)

/-- A build that is over takes no step. -/
theorem build_of_over (he : w.enabled e) (hover : (w.builds b).stage = .over) :
    e.build ≠ some b := by
  intro hb
  cases e with
  | launch b' start | endWork b' result =>
    obtain rfl := Option.some.inj hb
    have := he.1
    simp [hover] at this
  | publish b' builtAt | beginKeeping b' =>
    obtain rfl := Option.some.inj hb
    obtain ⟨_, _, _, h⟩ := he
    simp [hover] at h
  | write b' =>
    obtain rfl := Option.some.inj hb
    obtain ⟨_, _, _, h⟩ := he
    simp [hover] at h
  | settle b' =>
    obtain rfl := Option.some.inj hb
    obtain ⟨_, _, h⟩ | ⟨_, _, h⟩ := he <;> simp [hover] at h
  | complete b' | completeOrphaned b' =>
    obtain rfl := Option.some.inj hb
    obtain ⟨_, _, _, h⟩ := he
    simp [hover] at h
  | stamp b' =>
    obtain rfl := Option.some.inj hb
    obtain ⟨_, _, _, _, _, h⟩ := he
    simp [hover] at h
  | store b' ok =>
    obtain rfl := Option.some.inj hb
    obtain ⟨_, _, _, _, h, _⟩ := he
    simp [hover] at h
  | _ => simp [Event.build] at hb

/-- A build takes a step only once it is claimed. -/
theorem Sound.build_lt (hs : Sound w) (he : w.enabled e) (hb : e.build = some b) :
    b < w.buildCount := by
  by_contra hge
  exact build_of_over he (hs.ledger.numbered b (Nat.le_of_not_lt hge)) hb

/-- Every build is as it was, takes the step, or has just been claimed or never was. -/
theorem Sound.step_builds (hs : Sound w) (he : w.enabled e) (c : BuildId) :
    (c < w.buildCount ∧ (w.step contentHash cached e).builds c = w.builds c) ∨
    (c < w.buildCount ∧ e.build = some c) ∨
    (w.buildCount ≤ c ∧ (JustClaimed (w.step contentHash cached e) c ∨
      ((w.step contentHash cached e).builds c).stage = .over)) := by
  by_cases hc : c < w.buildCount
  · by_cases hb : e.build = some c
    · exact .inr (.inl ⟨hc, hb⟩)
    · exact .inl ⟨hc, step_others w e hb hc⟩
  · have hge := Nat.le_of_not_lt hc
    refine .inr (.inr ⟨hge, ?_⟩)
    by_cases hnew : c < (w.step contentHash cached e).buildCount
    · exact .inl (step_new w e hge hnew)
    · exact .inr ((hs.step he).ledger.numbered c (Nat.le_of_not_lt hnew))

/-- A build whose output has lost its rule publishes nothing. -/
theorem publish_undeclared {bytes : Bytes} {inputs : List Path} (builtAt : Int64)
    (hs : (w.builds b).stage = .finishing (.built bytes inputs))
    (hc : w.tree.commands.find (w.builds b).launch.output = none) :
    w.publish contentHash cached b builtAt = w.setStage b (.published (.built bytes inputs) none) := by
  unfold World.publish
  simp only [hs, hc]

theorem publish_declared {bytes : Bytes} {inputs : List Path} {command : Command} (builtAt : Int64)
    (hs : (w.builds b).stage = .finishing (.built bytes inputs))
    (hc : w.tree.commands.find (w.builds b).launch.output = some command) :
    w.publish contentHash cached b builtAt =
      { w.setStage b (.writing (.built bytes inputs) builtAt (w.tree.publish contentHash cached
          (w.builds b).launch.output command bytes inputs builtAt).1) with
        tree := (w.tree.publish contentHash cached (w.builds b).launch.output command bytes inputs
          builtAt).2
        layout := some (.build b) } := by
  unfold World.publish
  simp only [hs, hc]

/-- The stage each step of a build takes it to. -/
inductive Stepped (contentHash : Bytes → Hash) (cached : Bool) (w : World) (b : BuildId) :
    Event → Stage → Prop
  | traced (bytes : Bytes) (hs : (w.builds b).stage = .claimed) :
      Stepped contentHash cached w b (.launch b (.traced bytes)) (.finishing (.built bytes []))
  | ran (hs : (w.builds b).stage = .claimed) :
      Stepped contentHash cached w b (.launch b .ran) .working
  | threw (error : ErrorCode) (hs : (w.builds b).stage = .claimed) :
      Stepped contentHash cached w b (.launch b (.threw error)) (.finishing (.failed error []))
  | ended (result : BuildResult) (hs : (w.builds b).stage = .working) :
      Stepped contentHash cached w b (.endWork b result) (.finishing (Coordinator.runResult
        (w.system.coord.attempts (w.builds b).launch.attempt).toControl result))
  | undeclared {bytes : Bytes} {inputs : List Path} (builtAt : Int64)
      (hs : (w.builds b).stage = .finishing (.built bytes inputs))
      (hc : w.tree.commands.find (w.builds b).launch.output = none) :
      Stepped contentHash cached w b (.publish b builtAt) (.published (.built bytes inputs) none)
  | published {bytes : Bytes} {inputs : List Path} {command : Command} (builtAt : Int64)
      (hs : (w.builds b).stage = .finishing (.built bytes inputs))
      (hc : w.tree.commands.find (w.builds b).launch.output = some command) :
      Stepped contentHash cached w b (.publish b builtAt) (.writing (.built bytes inputs) builtAt
        (w.tree.publish contentHash cached (w.builds b).launch.output command bytes inputs builtAt).1)
  | written {bytes : Bytes} {inputs : List Path} {builtAt : Int64} {keep : Option Keep}
      (hs : (w.builds b).stage = .writing (.built bytes inputs) builtAt keep) :
      Stepped contentHash cached w b (.write b) (.published (.built bytes inputs) keep)
  | unwritten {error : ErrorCode} {inputs : List Path} {builtAt : Int64} {keep : Option Keep}
      (hs : (w.builds b).stage = .writing (.failed error inputs) builtAt keep) :
      Stepped contentHash cached w b (.write b) (.writing (.failed error inputs) builtAt keep)
  | settled {result : BuildResult} {keep : Option Keep}
      (hs : (∃ error inputs, (w.builds b).stage = .finishing result ∧ keep = none ∧
          result = .failed error inputs) ∨ (w.builds b).stage = .published result keep) :
      Stepped contentHash cached w b (.settle b) (.settled result keep
        (w.tree.settle (w.builds b).launch.output result).1.orphaned)
  | completed {result : BuildResult} {keep : Option Keep}
      (hs : (w.builds b).stage = .settled result keep none) :
      Stepped contentHash cached w b (.complete b) (afterRelease result keep)
  | released {result : BuildResult} {keep : Option Keep} {orphaned : Coordinator.AttemptId}
      (hs : (w.builds b).stage = .settled result keep (some orphaned)) :
      Stepped contentHash cached w b (.complete b) (.released result keep orphaned)
  | orphanCompleted {result : BuildResult} {keep : Option Keep}
      {orphaned : Coordinator.AttemptId}
      (hs : (w.builds b).stage = .released result keep orphaned) :
      Stepped contentHash cached w b (.completeOrphaned b) (afterRelease result keep)
  | begun {bytes : Bytes} {keep : Keep} (hs : (w.builds b).stage = .keeping bytes keep) :
      Stepped contentHash cached w b (.beginKeeping b) (.stamping bytes keep
        (keep.inputs.filter fun input => (outputNamedBy input).isNone)
        (w.tree.stampOutputs (w.builds b).launch.output keep))
  | stamped {bytes : Bytes} {keep : Keep} {input : Path} {left : List Path} {stamps : List Input}
      (hs : (w.builds b).stage = .stamping bytes keep (input :: left) (some stamps)) :
      Stepped contentHash cached w b (.stamp b) (.stamping bytes keep left
        ((stampSource w.source input).map fun stamp => stamps ++ [stamp]))
  | stored {bytes : Bytes} {keep : Keep} {left : List Path} {stamps : Option (List Input)}
      (ok : Bool) (hs : (w.builds b).stage = .stamping bytes keep left stamps)
      (hdone : left = [] ∨ stamps = none) : Stepped contentHash cached w b (.store b ok) .over

/-- A build's own step takes it to one of these. -/
theorem Sound.stepped (hs : Sound w) (he : w.enabled e) (hb : e.build = some b) :
    Stepped contentHash cached w b e ((w.step contentHash cached e).builds b).stage := by
  have hlt := hs.build_lt he hb
  -- What is left to show is which stage it is.
  have hto : ∀ {stage stage' : Stage}, stage' = stage → Stepped contentHash cached w b e stage →
      Stepped contentHash cached w b e stage' := fun heq h => heq ▸ h
  have hset : ∀ stage, ((w.setStage b stage).builds b).stage = stage := fun stage => by
    rw [setStage_self]
  cases e with
  | launch b' start =>
    obtain rfl := Option.some.inj hb
    cases start with
    | traced bytes => exact hto (hset _) (.traced bytes he.1)
    | ran => exact hto (hset .working) (.ran he.1)
    | threw error => exact hto (hset _) (.threw error he.1)
  | endWork b' result =>
    obtain rfl := Option.some.inj hb
    exact hto (hset _) (.ended result he.1)
  | publish b' builtAt =>
    obtain rfl := Option.some.inj hb
    obtain ⟨_, bytes, inputs, hstage⟩ := he
    cases hc : w.tree.commands.find (w.builds b').launch.output with
    | none =>
      refine @hto (.published (.built bytes inputs) none) _ ?_ (.undeclared builtAt hstage hc)
      show ((w.publish contentHash cached b' builtAt).builds b').stage = _
      rw [publish_undeclared builtAt hstage hc]
      exact hset _
    | some command =>
      refine hto ?_ (.published builtAt hstage hc)
      show ((w.publish contentHash cached b' builtAt).builds b').stage = _
      rw [publish_declared builtAt hstage hc]
      exact hset _
  | write b' =>
    obtain rfl := Option.some.inj hb
    obtain ⟨result, builtAt, keep, hstage⟩ := he
    cases result with
    | built bytes inputs =>
      refine hto ?_ (.written hstage)
      show ((w.write b').builds b').stage = _
      unfold World.write
      simp only [hstage]
      exact hset _
    | failed error inputs =>
      refine hto ?_ (.unwritten hstage)
      show ((w.write b').builds b').stage = _
      unfold World.write
      simp only [hstage]
  | settle b' =>
    obtain rfl := Option.some.inj hb
    obtain ⟨error, inputs, hstage⟩ | ⟨result, keep, hstage⟩ := he
    · refine hto ?_ (.settled (.inl ⟨error, inputs, hstage, rfl, rfl⟩))
      show ((w.settle b').builds b').stage = _
      unfold World.settle
      simp only [hstage]
      rw [settleWith_builds w b' _ _ hlt, hset]
    · refine hto ?_ (.settled (.inr hstage))
      show ((w.settle b').builds b').stage = _
      unfold World.settle
      simp only [hstage]
      rw [settleWith_builds w b' _ _ hlt, hset]
  | complete b' =>
    obtain rfl := Option.some.inj hb
    obtain ⟨result, keep, orphaned, hstage⟩ := he
    have hdef : ((w.complete b').builds b').stage = match orphaned with
        | some orphaned => .released result keep orphaned
        | none => afterRelease result keep := by
      unfold World.complete
      cases orphaned <;> simp only [hstage] <;> exact hset _
    cases orphaned with
    | none => exact hto hdef (.completed hstage)
    | some orphaned => exact hto hdef (.released hstage)
  | completeOrphaned b' =>
    obtain rfl := Option.some.inj hb
    obtain ⟨result, keep, orphaned, hstage⟩ := he
    refine hto ?_ (.orphanCompleted hstage)
    show ((w.completeOrphaned b').builds b').stage = _
    unfold World.completeOrphaned
    simp only [hstage]
    exact hset _
  | beginKeeping b' =>
    obtain rfl := Option.some.inj hb
    obtain ⟨_, bytes, keep, hstage⟩ := he
    refine hto ?_ (.begun hstage)
    show ((w.beginKeeping b').builds b').stage = _
    unfold World.beginKeeping
    simp only [hstage]
    exact hset _
  | stamp b' =>
    obtain rfl := Option.some.inj hb
    obtain ⟨bytes, keep, input, left, stamps, hstage⟩ := he
    refine hto ?_ (.stamped hstage)
    show ((w.stamp b').builds b').stage = _
    unfold World.stamp
    simp only [hstage]
    exact hset _
  | store b' ok =>
    obtain rfl := Option.some.inj hb
    obtain ⟨bytes, keep, left, stamps, hstage, hdone⟩ := he
    refine hto ?_ (.stored ok hstage hdone)
    show ((w.store contentHash b' ok).builds b').stage = _
    unfold World.store
    simp only [hstage]
    exact hset .over
  | _ => simp [Event.build] at hb

theorem store_failed (w : World) (b : BuildId) :
    (w.store contentHash b false).cache = w.cache := by
  unfold World.store
  split <;> rfl

theorem store_kept {bytes : Bytes} {keep : Keep} {left : List Path} {stamps : List Input}
    (hs : (w.builds b).stage = .stamping bytes keep left (some stamps)) :
    (w.store contentHash b true).cache =
      w.cache.store contentHash keep.command bytes keep.mtime stamps := by
  unfold World.store
  simp only [hs, if_true]

theorem store_dropped {bytes : Bytes} {keep : Keep} {left : List Path}
    (hs : (w.builds b).stage = .stamping bytes keep left none) :
    (w.store contentHash b true).cache = w.cache.forget [(w.builds b).launch.output] := by
  unfold World.store
  simp only [hs, if_true]

theorem mem_store {cache : Cache} {command : Command} {bytes : Bytes} {mtime : Int64}
    {inputs : List Input} {record : Record} :
    record ∈ (cache.store contentHash command bytes mtime inputs).records ↔
      record = ⟨command, contentHash bytes, mtime, Cache.firstStamps inputs⟩ ∨
        record ∈ cache.records ∧ record.command.output ≠ command.output := by
  simp [Cache.store]

theorem addBuild_cache (w : World) (launch : Option Launch) (behind : Option BuildId) :
    (w.addBuild launch behind).cache = w.cache := by
  cases launch <;> rfl

theorem addBuild_aside (w : World) (launch : Option Launch) (behind : Option BuildId) :
    (w.addBuild launch behind).todo = w.todo ∧ (w.addBuild launch behind).layout = w.layout ∧
      (w.addBuild launch behind).cacheHolder = w.cacheHolder := by
  cases launch <;> exact ⟨rfl, rfl, rfl⟩

/-- Nothing but the end of `keep_in_cache` adds to the cache's records. -/
theorem step_cache (h : ∀ b ok, e ≠ .store b ok) {record : Record}
    (hmem : record ∈ (w.step contentHash cached e).cache.records) : record ∈ w.cache.records := by
  have hsame : (w.step contentHash cached e).cache = w.cache → record ∈ w.cache.records :=
    fun heq => heq ▸ hmem
  cases e with
  | store b ok => exact absurd rfl (h b ok)
  | bringUpToDate output => exact hsame (addBuild_cache _ _ _)
  | startNext output => exact hsame (addBuild_cache _ _ _)
  | launch b start => cases start <;> exact hsame rfl
  | recordRead | materializeAll | endWork | editSource | sourceChange | coordinator =>
    exact hsame rfl
  | publish b builtAt =>
    refine hsame (show (w.publish contentHash cached b builtAt).cache = w.cache from ?_)
    unfold World.publish
    dsimp only
    split
    · split <;> rfl
    · rfl
  | write b =>
    refine hsame (show (w.write b).cache = w.cache from ?_)
    unfold World.write
    dsimp only
    split <;> rfl
  | settle b =>
    refine hsame (show (w.settle b).cache = w.cache from ?_)
    unfold World.settle
    split
    · exact addBuild_cache _ _ _
    · exact addBuild_cache _ _ _
    · rfl
  | complete b =>
    refine hsame (show (w.complete b).cache = w.cache from ?_)
    unfold World.complete
    split <;> rfl
  | completeOrphaned b =>
    refine hsame (show (w.completeOrphaned b).cache = w.cache from ?_)
    unfold World.completeOrphaned
    split <;> rfl
  | beginKeeping b =>
    refine hsame (show (w.beginKeeping b).cache = w.cache from ?_)
    unfold World.beginKeeping
    split <;> rfl
  | stamp b =>
    refine hsame (show (w.stamp b).cache = w.cache from ?_)
    unfold World.stamp
    split <;> rfl
  | resume now ok =>
    have hmem' : record ∈ (w.resume now ok).cache.records := hmem
    unfold World.resume at hmem'
    split at hmem'
    on_goal 7 =>
      dsimp only at hmem'
      split at hmem'
      · exact (mem_forget.mp hmem').1
      · exact hmem'
    on_goal 9 => rwa [startBuild, addBuild_cache] at hmem'
    all_goals exact hmem'

/-! ### What a step leaves of one output -/


/-- Nothing of an output that a rebuild of it hangs on has changed. -/
structure SameAt (s t : State) (output : Path) : Prop where
  declared : t.declared output = s.declared output
  stale : t.stale output = s.stale output
  materialized : t.materialized output = s.materialized output
  inFlight : t.inFlight output = s.inFlight output
  invalidations : t.invalidations output = s.invalidations output
  start : ((t.attempts output).getD {}).invalidationsAtStart =
    ((s.attempts output).getD {}).invalidationsAtStart

theorem SameAt.refl (s : State) (o : Path) : SameAt s s o := ⟨rfl, rfl, rfl, rfl, rfl, rfl⟩

theorem SameAt.trans {u : State} (h : SameAt s t o) (h' : SameAt t u o) : SameAt s u o :=
  ⟨h'.declared.trans h.declared, h'.stale.trans h.stale, h'.materialized.trans h.materialized,
    h'.inFlight.trans h.inFlight, h'.invalidations.trans h.invalidations, h'.start.trans h.start⟩

theorem opened_sameAt (s : State) {output o : Path} (command : Command) (h : o ≠ output) :
    SameAt s (s.opened output command) o := by
  refine ⟨rfl, ?_, Function.update_of_ne h .., rfl, rfl, ?_⟩
  · rw [State.opened_stale]
    split
    · exact Function.update_of_ne h ..
    · rfl
  · rw [State.opened_attempts, Function.update_of_ne h]

theorem OpenedAs.sameAt (ht : OpenedAs s output t) (h : o ≠ output) : SameAt s t o := by
  obtain rfl | ⟨command, _, rfl⟩ := ht
  · exact .refl _ o
  · exact opened_sameAt s command h

/-- An open changes nothing of the attempts at an output but that they are looked up. -/
theorem OpenedAs.start (ht : OpenedAs s output t) (o : Path) :
    ((t.attempts o).getD {}).invalidationsAtStart =
      ((s.attempts o).getD {}).invalidationsAtStart := by
  obtain rfl | ⟨command, _, rfl⟩ := ht
  · rfl
  · rw [State.opened_attempts, Function.update_apply]
    split
    · next heq => rw [heq]; rfl
    · rfl

theorem OpenedAs.stale_false (ht : OpenedAs s output t) (h : t.stale o = false) :
    s.stale o = false := by
  obtain rfl | ⟨command, _, rfl⟩ := ht
  · exact h
  · rw [State.opened_stale] at h
    split at h
    · rw [Function.update_apply] at h
      split at h
      · simp at h
      · exact h
    · exact h

theorem OpenedAs.declared (ht : OpenedAs s output t) : t.declared = s.declared := by
  obtain rfl | ⟨command, _, rfl⟩ := ht <;> rfl

theorem OpenedAs.invalidations (ht : OpenedAs s output t) :
    t.invalidations = s.invalidations := by
  obtain rfl | ⟨command, _, rfl⟩ := ht <;> rfl

theorem claim_sameAt (s : State) {output o : Path} (h : o ≠ output) :
    SameAt s (s.claimBuild output) o := by
  refine ⟨by rw [State.claimBuild_declared], Function.update_of_ne h .., ?_,
    Function.update_of_ne h .., ?_, ?_⟩
  · rw [State.claimBuild_only]
  · rw [State.claimBuild_only]
  · rw [State.claimBuild_attempts, Function.update_of_ne h]

theorem claim_onward (w : World) (output : Path) (behind : Option BuildId) :
    Onward w (w.claim output behind) :=
  enter_onward w _ _ _

theorem minted_sameAt (s : State) (output o : Path) : SameAt s (s.minted output) o := by
  refine ⟨rfl, rfl, rfl, rfl, rfl, ?_⟩
  show ((Function.update s.attempts output _ o).getD {}).invalidationsAtStart = _
  rw [Function.update_apply]
  split
  · next heq => rw [heq]; rfl
  · rfl

theorem outcome_sameAt (s : State) {output o : Path} (result : BuildResult) (h : o ≠ output) :
    SameAt s (s.outcome output result) o := by
  have hout := s.outcome_only output result
  unfold State.OnlyDepends at hout
  have hdeclared : (s.outcome output result).declared = s.declared := by rw [hout]; rfl
  refine ⟨by rw [hdeclared], ?_, by rw [hout], ?_, by rw [hout], by rw [hout]⟩
  · rw [hout]
    dsimp only
    split
    · rfl
    · exact Function.update_of_ne h ..
  · rw [hout]
    exact Function.update_of_ne h ..

/-- Whether an output, if it is declared, is stale. -/
def OutOfDate (s : State) (output : Path) : Prop :=
  s.declared output = true → s.stale output = true

theorem OutOfDate.same (h : OutOfDate s o) (ht : SameAt s t o) : OutOfDate t o := by
  unfold OutOfDate
  rw [ht.declared, ht.stale]
  exact h

theorem OutOfDate.opened (h : OutOfDate s o) (ht : OpenedAs s output t) : OutOfDate t o := by
  intro hd
  by_contra hs
  rw [ht.declared] at hd
  have := ht.stale_false (by simpa using hs)
  rw [h hd] at this
  simp at this

theorem OutOfDate.outcome (h : OutOfDate s o) (output : Path) (result : BuildResult) :
    OutOfDate (s.outcome output result) o := by
  have hout := s.outcome_only output result
  unfold State.OnlyDepends at hout
  have hdeclared : (s.outcome output result).declared = s.declared := by rw [hout]; rfl
  intro hd
  rw [hdeclared] at hd
  rw [hout]
  dsimp only
  split
  · exact h hd
  · rw [Function.update_apply]
    split
    · rfl
    · exact h hd

theorem OutOfDate.takeCommands (h : OutOfDate s o) (commands : Commands) :
    OutOfDate (s.takeCommands commands).2 o := by
  have ht := s.takeCommands_taken commands
  generalize (s.takeCommands commands).2 = t at ht ⊢
  have hdeclared : t.declared o = (commands.find o).isSome := by rw [ht.only]; rfl
  intro hd
  rw [hdeclared] at hd
  by_cases hold : s.declared o = true
  · rw [(ht.untouched o (fun hnew => by simp [hold] at hnew)
      fun hgone => by rw [hgone.2] at hd; simp at hd).1]
    exact h hold
  · exact ht.added o (by simpa using hold) hd

theorem OutOfDate.invalidate (h : OutOfDate s o) (outputs : List Path) :
    OutOfDate (s.invalidate outputs).state o := by
  have hm := s.invalidate_marked outputs
  have hdeclared : (s.invalidate outputs).state.declared = s.declared := by rw [hm.only]; rfl
  intro hd
  rw [hdeclared] at hd
  by_cases hseen : o ∈ (s.invalidate outputs).seen
  · exact (hm.seen o hseen).2.1
  · rw [(hm.others o hseen).1]
    exact h hd

/-- Whether a build of an output has been claimed between two worlds. -/
def ClaimedSince (w w' : World) (output : Path) : Prop :=
  ∃ b, w.buildCount ≤ b ∧ b < w'.buildCount ∧ (w'.builds b).launch.output = output

theorem OutOfDate.claim (h : OutOfDate w.tree o) (output : Path) (behind : Option BuildId) :
    OutOfDate (w.claim output behind).tree o ∨ ClaimedSince w (w.claim output behind) o := by
  by_cases ho : o = output
  · subst ho
    refine .inr ⟨w.buildCount, Nat.le_refl _, Nat.lt_succ_self _, ?_⟩
    rw [claim_builds, Function.update_self]
    rfl
  · exact .inl (h.same (claim_sameAt w.tree ho))

theorem OutOfDate.brought (h : OutOfDate w.tree o) (hb : Brought w output w') :
    OutOfDate w'.tree o ∨ ClaimedSince w w' o := by
  cases hb with
  | none ht => exact .inl (h.opened ht)
  | minted ht => exact .inl ((h.opened ht).same (minted_sameAt _ _ _))
  | @claimed t ht => exact OutOfDate.claim (w := { w with tree := t }) (h.opened ht) output none

theorem OutOfDate.landed (h : OutOfDate w.tree o) {result : BuildResult} {keep : Option Keep}
    (hland : Landed w b result keep w') : OutOfDate w'.tree o ∨ ClaimedSince w w' o := by
  cases hland with
  | removed hd =>
    have hland := w.tree.landed_only (w.builds b).launch.output result
    unfold State.OnlyDepends at hland
    refine .inl fun hd => ?_
    have hd' : (w.tree.landed (w.builds b).launch.output result).declared o = true := hd
    show (w.tree.landed (w.builds b).launch.output result).stale o = true
    rw [hland] at hd' ⊢
    exact h hd'
  | rebuilt => exact OutOfDate.claim (h.outcome _ result) _ _
  | idle => exact .inl (h.outcome _ result)

/-- A stale output stays so until a build of it is claimed, and one that comes is stale. -/
theorem OutOfDate.step (h : OutOfDate w.tree o) (e : Event) :
    OutOfDate (w.step contentHash cached e).tree o ∨
      ClaimedSince w (w.step contentHash cached e) o := by
  cases e with
  | bringUpToDate output => exact h.brought (w.brought output)
  | startNext output =>
    exact OutOfDate.brought (w := { w with starting := w.starting.erase output }) h
      (brought_startBuild _ output)
  | recordRead reader output =>
    refine .inl ?_
    show OutOfDate (w.tree.recordRead reader output) o
    unfold State.recordRead
    split
    · exact h
    · exact h
  | materializeAll | sourceChange => exact .inl h
  | publish b builtAt =>
    refine .inl ?_
    show OutOfDate (w.publish contentHash cached b builtAt).tree o
    unfold World.publish State.publish
    dsimp only
    split
    · split
      · exact h
      · cases cached <;> exact h
    · exact h
  | write b =>
    refine .inl ?_
    show OutOfDate (w.write b).tree o
    unfold World.write
    dsimp only
    split
    · exact h
    · exact h
  | settle b =>
    show OutOfDate (w.settle b).tree o ∨ ClaimedSince w (w.settle b) o
    unfold World.settle
    split
    · exact h.landed (w.landed b _ _)
    · exact h.landed (w.landed b _ _)
    · exact .inl h
  | resume now ok =>
    show OutOfDate (w.resume now ok).tree o ∨ ClaimedSince w (w.resume now ok) o
    unfold World.resume
    split
    · exact .inl h
    · exact .inl (h.takeCommands _)
    · exact .inl h
    · exact .inl h
    · exact .inl h
    · exact .inl h
    · exact .inl h
    · exact .inl h
    · exact .inl (h.invalidate _)
    · next output todo _ =>
      exact OutOfDate.brought (w := { w with todo }) h (brought_startBuild _ output)
  | launch | endWork | complete | completeOrphaned | beginKeeping | stamp | store | editSource
  | coordinator => exact .inl (by rw [(step_aside rfl).tree]; exact h)

end World

end MakeBelieve.Tree
