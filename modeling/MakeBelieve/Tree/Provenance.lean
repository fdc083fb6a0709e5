import MakeBelieve.Tree.Fires
import MakeBelieve.Tree.Steps

namespace MakeBelieve.Tree

open Library

/-- The content a build has made, for as long as it is handed on. -/
def Stage.content : Stage → Option Bytes
  | .finishing (.built bytes _) | .writing (.built bytes _) .. | .published (.built bytes _) _
  | .settled (.built bytes _) .. | .released (.built bytes _) .. | .keeping bytes _
  | .stamping bytes .. => some bytes
  | _ => none

/-- What there is to keep of a build. -/
def Stage.toKeep : Stage → Option Keep
  | .writing _ _ keep | .published _ keep | .settled _ keep _ | .released _ keep _ => keep
  | .keeping _ keep | .stamping _ keep .. => some keep
  | _ => none

/-- Where the cache's records come from: those it held to begin with, what each build's run made,
the rule its output had when it finished, and the build whose record an output has. -/
structure Provenance where
  before : List Record
  made : BuildId → Option Bytes := fun _ => none
  rule : BuildId → Option Command := fun _ => none
  stored : Path → Option BuildId := fun _ => none

namespace World

variable {contentHash : Bytes → Hash} {cached : Bool}
variable {w : World} {b c : BuildId} {e : Event} {p : Provenance}

def noteProvenance (w : World) (e : Event) (p : Provenance) : Provenance :=
  match e with
  | .launch b (.traced bytes) => { p with made := Function.update p.made b (some bytes) }
  | .endWork b result =>
    match Coordinator.runResult
      (w.system.coord.attempts (w.builds b).launch.attempt).toControl result with
    | .built bytes _ => { p with made := Function.update p.made b (some bytes) }
    | .failed _ _ => p
  | .publish b _ =>
    { p with rule := Function.update p.rule b (w.tree.commands.find (w.builds b).launch.output) }
  | .store b true =>
    match (w.builds b).stage with
    | .stamping _ keep _ (some _) =>
      { p with stored := Function.update p.stored keep.command.output (some b) }
    | _ => p
  | _ => p

/-- The tree's machine, with where the records come from noted. -/
def provenances (contentHash : Bytes → Hash) (cached : Bool) :
    Machine (World × Provenance) Event :=
  (machine contentHash cached).noting (fun w => { before := w.cache.records }) noteProvenance

/-- Whether a build that is stored had, when it finished, the rule it was claimed with. -/
def StoresItsRule (s : World × Provenance) : Event → Prop
  | .store b true => ∀ bytes keep left stamps,
      (s.1.builds b).stage = .stamping bytes keep left (some stamps) →
        s.2.rule b = some (s.1.builds b).launch.command
  | _ => True

/-- What is noted of a build agrees with what it hands on. -/
structure NotedBuild (w : World) (p : Provenance) (b : BuildId) : Prop where
  made : ∀ bytes, (w.builds b).stage.content = some bytes → p.made b = some bytes
  rule : ∀ keep, (w.builds b).stage.toKeep = some keep → p.rule b = some keep.command

/-- A build's own steps alone add to what is noted of it. -/
theorem note_others (h : e.build ≠ some c) : (noteProvenance w e p).made c = p.made c ∧
    (noteProvenance w e p).rule c = p.rule c := by
  have hset : ∀ {α : Type} {f : BuildId → α} {x : α} {b : BuildId}, some b ≠ some c →
      Function.update f b x c = f c := fun hb =>
    Function.update_of_ne (fun heq => hb (congrArg some heq.symm)) ..
  cases e with
  | launch b start =>
    cases start with
    | traced bytes => exact ⟨hset h, rfl⟩
    | _ => exact ⟨rfl, rfl⟩
  | endWork b result =>
    unfold noteProvenance
    dsimp only
    split
    · exact ⟨hset h, rfl⟩
    · exact ⟨rfl, rfl⟩
  | publish b builtAt => exact ⟨rfl, hset h⟩
  | store b ok =>
    cases ok with
    | false => exact ⟨rfl, rfl⟩
    | true =>
      unfold noteProvenance
      dsimp only
      split <;> exact ⟨rfl, rfl⟩
  | _ => exact ⟨rfl, rfl⟩

theorem note_before (w : World) (e : Event) (p : Provenance) :
    (noteProvenance w e p).before = p.before := by
  cases e with
  | launch b start => cases start <;> rfl
  | endWork b result =>
    unfold noteProvenance
    dsimp only
    split <;> rfl
  | store b ok =>
    cases ok with
    | false => rfl
    | true =>
      unfold noteProvenance
      dsimp only
      split <;> rfl
  | _ => rfl

theorem NotedBuild.of_same {w' : World} {p' : Provenance} (h : NotedBuild w p c)
    (hcontent : (w'.builds c).stage.content = (w.builds c).stage.content ∨
      (w'.builds c).stage.content = none)
    (hkeep : (w'.builds c).stage.toKeep = (w.builds c).stage.toKeep ∨
      (w'.builds c).stage.toKeep = none)
    (hmade : p'.made c = p.made c) (hrule : p'.rule c = p.rule c) : NotedBuild w' p' c := by
  refine ⟨fun bytes hb => ?_, fun keep hk => ?_⟩
  · rw [hmade]
    obtain heq | heq := hcontent
    · exact h.made bytes (heq ▸ hb)
    · rw [heq] at hb
      simp at hb
  · rw [hrule]
    obtain heq | heq := hkeep
    · exact h.rule keep (heq ▸ hk)
    · rw [heq] at hk
      simp at hk

theorem afterRelease_content (result : BuildResult) (keep : Option Keep) :
    ((afterRelease result keep).content = (Stage.settled result keep none).content ∨
      (afterRelease result keep).content = none) ∧
    ((afterRelease result keep).toKeep = keep ∨ (afterRelease result keep).toKeep = none) := by
  cases result with
  | failed error inputs => cases keep <;> exact ⟨.inr rfl, .inr rfl⟩
  | built bytes inputs =>
    cases keep with
    | none => exact ⟨.inr rfl, .inr rfl⟩
    | some keep => exact ⟨.inl rfl, .inl rfl⟩

/-- What a build's own step does to what is noted of it. -/
theorem NotedBuild.own (hs : Sound w) (h : NotedBuild w p b) (he : w.enabled e)
    (hb : e.build = some b) :
    NotedBuild (w.step contentHash cached e) (noteProvenance w e p) b := by
  have hlt := hs.build_lt he hb
  -- The build is further on, with no more to hand on and to keep than it had.
  have hon : ∀ {w' : World} {p' : Provenance} {stage : Stage}, (w'.builds b).stage = stage →
      (stage.content = (w.builds b).stage.content ∨ stage.content = none) →
      (stage.toKeep = (w.builds b).stage.toKeep ∨ stage.toKeep = none) →
      p'.made b = p.made b → p'.rule b = p.rule b → NotedBuild w' p' b := by
    rintro w' p' _ rfl hcontent hkeep hmade hrule
    exact h.of_same hcontent hkeep hmade hrule
  have hset : ∀ stage, ((w.setStage b stage).builds b).stage = stage := fun stage => by
    rw [setStage_self]
  cases e with
  | launch b' start =>
    obtain rfl := Option.some.inj hb
    cases start with
    | traced bytes =>
      have hstage : ((w.step contentHash cached (.launch b' (.traced bytes))).builds b').stage =
          .finishing (.built bytes []) := hset _
      refine ⟨fun bytes' hb' => ?_, fun keep hk => ?_⟩
      · rw [hstage] at hb'
        show Function.update p.made b' (some bytes) b' = _
        rw [Function.update_self]
        exact hb'
      · rw [hstage] at hk
        simp [Stage.toKeep] at hk
    | ran => exact hon (hset .working) (.inr rfl) (.inr rfl) rfl rfl
    | threw error => exact hon (hset (.finishing (.failed error []))) (.inr rfl) (.inr rfl) rfl rfl
  | endWork b' result =>
    obtain rfl := Option.some.inj hb
    let ended := Coordinator.runResult
      (w.system.coord.attempts (w.builds b').launch.attempt).toControl result
    have hnote : noteProvenance w (.endWork b' result) p = match ended with
        | .built bytes _ => { p with made := Function.update p.made b' (some bytes) }
        | .failed _ _ => p := rfl
    have hstage : ((w.step contentHash cached (.endWork b' result)).builds b').stage =
        .finishing ended := hset _
    rw [hnote]
    refine ⟨fun bytes hb' => ?_, fun keep hk => ?_⟩
    · rw [hstage] at hb'
      cases hended : ended with
      | failed error inputs => simp [hended, Stage.content] at hb'
      | built made inputs =>
        rw [hended] at hb'
        show Function.update p.made b' (some made) b' = _
        rw [Function.update_self]
        exact hb'
    · rw [hstage] at hk
      simp [Stage.toKeep] at hk
  | publish b' builtAt =>
    obtain rfl := Option.some.inj hb
    obtain ⟨_, bytes, inputs, hstage⟩ := he
    have hmade := h.made bytes (by rw [hstage]; rfl)
    show NotedBuild (w.publish contentHash cached b' builtAt) { p with
      rule := Function.update p.rule b' (w.tree.commands.find (w.builds b').launch.output) } b'
    cases hcommand : w.tree.commands.find (w.builds b').launch.output with
    | none =>
      rw [publish_undeclared builtAt hstage hcommand]
      exact ⟨fun bytes' hb' => hmade.trans (by rw [hset] at hb'; exact hb'),
        fun keep hk => by rw [hset] at hk; simp [Stage.toKeep] at hk⟩
    | some command =>
      rw [publish_declared builtAt hstage hcommand]
      let keep := (w.tree.publish contentHash cached (w.builds b').launch.output command bytes inputs
        builtAt).1
      have hset' := hset (.writing (.built bytes inputs) builtAt keep)
      refine ⟨fun bytes' hb' => hmade.trans ?_, fun kept hk => ?_⟩
      · exact (congrArg Stage.content hset').symm.trans hb'
      · have hkept : keep = some kept := (congrArg Stage.toKeep hset').symm.trans hk
        show Function.update p.rule b' (some command) b' = some kept.command
        rw [Function.update_self]
        simp only [keep, State.publish] at hkept
        split at hkept
        · rw [← Option.some.inj hkept]
        · simp at hkept
  | write b' =>
    obtain rfl := Option.some.inj hb
    obtain ⟨result, builtAt, keep, hstage⟩ := he
    show NotedBuild (w.write b') p b'
    unfold World.write
    cases result with
    | failed error inputs =>
      rw [hstage]
      exact h
    | built bytes inputs =>
      simp only [hstage]
      exact hon (hset (.published (.built bytes inputs) keep)) (.inl (by rw [hstage]; rfl))
        (.inl (by rw [hstage]; rfl)) rfl rfl
  | settle b' =>
    obtain rfl := Option.some.inj hb
    have hsettled : ∀ result keep, (w.builds b').stage.content =
        (Stage.settled result keep none).content → (w.builds b').stage.toKeep = keep →
        NotedBuild (w.settleWith b' result keep) p b' := by
      intro result keep hcontent hkeep
      refine @hon _ _ (.settled result keep
        (w.tree.settle (w.builds b').launch.output result).1.orphaned) ?_ (.inl ?_)
        (.inl hkeep.symm) rfl rfl
      · rw [settleWith_builds w b' result keep hlt, hset]
      · rw [hcontent]
        cases result <;> rfl
    show NotedBuild (w.settle b') p b'
    unfold World.settle
    obtain ⟨error, inputs, hstage⟩ | ⟨result, keep, hstage⟩ := he
    · rw [hstage]
      exact hsettled _ _ (by rw [hstage]; rfl) (by rw [hstage]; rfl)
    · rw [hstage]
      exact hsettled _ _ (by rw [hstage]; cases result <;> rfl) (by rw [hstage]; rfl)
  | complete b' =>
    obtain rfl := Option.some.inj hb
    obtain ⟨result, keep, orphaned, hstage⟩ := he
    have hafter := afterRelease_content result keep
    show NotedBuild (w.complete b') p b'
    unfold World.complete
    simp only [hstage]
    cases orphaned with
    | none =>
      refine hon (hset (afterRelease result keep)) ?_ ?_ rfl rfl
      · rw [hstage]
        exact hafter.1
      · rw [hstage]
        exact hafter.2
    | some a =>
      refine hon (hset (.released result keep a)) (.inl ?_) (.inl ?_) rfl rfl
      · rw [hstage]
        cases result <;> rfl
      · rw [hstage]
        rfl
  | completeOrphaned b' =>
    obtain rfl := Option.some.inj hb
    obtain ⟨result, keep, orphaned, hstage⟩ := he
    have hafter := afterRelease_content result keep
    show NotedBuild (w.completeOrphaned b') p b'
    unfold World.completeOrphaned
    simp only [hstage]
    refine hon (hset (afterRelease result keep)) ?_ ?_ rfl rfl
    · rw [hstage]
      cases result <;> exact hafter.1
    · rw [hstage]
      exact hafter.2
  | beginKeeping b' =>
    obtain rfl := Option.some.inj hb
    obtain ⟨_, bytes, keep, hstage⟩ := he
    show NotedBuild (w.beginKeeping b') p b'
    unfold World.beginKeeping
    simp only [hstage]
    exact hon (hset _) (.inl (by rw [hstage]; rfl)) (.inl (by rw [hstage]; rfl)) rfl rfl
  | stamp b' =>
    obtain rfl := Option.some.inj hb
    obtain ⟨bytes, keep, input, left, stamps, hstage⟩ := he
    show NotedBuild (w.stamp b') p b'
    unfold World.stamp
    simp only [hstage]
    exact hon (hset _) (.inl (by rw [hstage]; rfl)) (.inl (by rw [hstage]; rfl)) rfl rfl
  | store b' ok =>
    obtain rfl := Option.some.inj hb
    obtain ⟨bytes, keep, left, stamps, hstage, _⟩ := he
    have hnote : (noteProvenance w (.store b' ok) p).made b' = p.made b' ∧
        (noteProvenance w (.store b' ok) p).rule b' = p.rule b' := by
      cases ok with
      | false => exact ⟨rfl, rfl⟩
      | true =>
        unfold noteProvenance
        dsimp only
        split <;> exact ⟨rfl, rfl⟩
    refine @hon _ _ .over ?_ (.inr rfl) (.inr rfl) hnote.1 hnote.2
    show ((w.store contentHash b' ok).builds b').stage = .over
    unfold World.store
    simp only [hstage]
    exact hset .over
  | _ => simp [Event.build] at hb

theorem NotedBuild.step (hs : Sound w) (h : NotedBuild w p c) (he : w.enabled e) :
    NotedBuild (w.step contentHash cached e) (noteProvenance w e p) c := by
  by_cases hbuild : e.build = some c
  · exact h.own hs he hbuild
  · obtain ⟨hmade, hrule⟩ := @note_others w c e p hbuild
    obtain ⟨_, hsame⟩ | ⟨_, hown⟩ | ⟨_, hnew⟩ := @Sound.step_builds contentHash cached w e hs he c
    · exact h.of_same (.inl (by rw [hsame])) (.inl (by rw [hsame])) hmade hrule
    · exact absurd hown hbuild
    · obtain hnew | hnew := hnew
      · exact h.of_same (.inr (by rw [hnew.1]; rfl)) (.inr (by rw [hnew.1]; rfl)) hmade hrule
      · exact h.of_same (.inr (by rw [hnew]; rfl)) (.inr (by rw [hnew]; rfl)) hmade hrule

/-- Where a record of the cache is from. -/
def From (contentHash : Bytes → Hash) (s : World × Provenance) (record : Record) : Prop :=
  s.2.stored record.command.output = none ∧ record ∈ s.2.before ∨
    ∃ b bytes, s.2.stored record.command.output = some b ∧
      (s.1.builds b).launch.command = record.command ∧ s.2.made b = some bytes ∧
      record.hash = contentHash bytes

/-- What is noted of builds and of records, with every build stored over by then. -/
structure Noted (contentHash : Bytes → Hash) (s : World × Provenance) : Prop where
  build : ∀ b, NotedBuild s.1 s.2 b
  ended : ∀ o b, s.2.stored o = some b → b < s.1.buildCount ∧ (s.1.builds b).stage = .over
  record : ∀ record ∈ s.1.cache.records, From contentHash s record

/-- A record stays from where it is, as long as its output's is not stored anew. -/
theorem From.step {s : World × Provenance} {record : Record} (h : From contentHash s record)
    (hn : Noted contentHash s) (he : s.1.enabled e)
    (hstored : (noteProvenance s.1 e s.2).stored record.command.output =
      s.2.stored record.command.output) :
    From contentHash (s.1.step contentHash cached e, noteProvenance s.1 e s.2) record := by
  obtain ⟨hnone, hmem⟩ | ⟨b, bytes, hb, hcommand, hmade, hhash⟩ := h
  · refine .inl ⟨hstored.trans hnone, ?_⟩
    show record ∈ (noteProvenance s.1 e s.2).before
    rw [note_before]
    exact hmem
  · obtain ⟨hlt, hover⟩ := hn.ended _ b hb
    have hother := build_of_over he hover
    refine .inr ⟨b, bytes, hstored.trans hb, ?_, (note_others hother).1.trans hmade, hhash⟩
    show ((s.1.step contentHash cached e).builds b).launch.command = record.command
    rw [step_others s.1 e hother hlt]
    exact hcommand

theorem Noted.ended_step {s : World × Provenance} (hn : Noted contentHash s) (he : s.1.enabled e)
    {o : Path} (hb : s.2.stored o = some b) :
    b < (s.1.step contentHash cached e).buildCount ∧
      ((s.1.step contentHash cached e).builds b).stage = .over := by
  obtain ⟨hlt, hover⟩ := hn.ended o b hb
  refine ⟨Nat.lt_of_lt_of_le hlt (step_onward s.1 e).buildCount, ?_⟩
  rw [step_others s.1 e (build_of_over he hover) hlt]
  exact hover

/-- A step that stores nothing leaves every record there still is where it is from. -/
theorem Noted.unstored {s : World × Provenance} (hn : Noted contentHash s) (hs : Sound s.1)
    (he : s.1.enabled e) (hnote : (noteProvenance s.1 e s.2).stored = s.2.stored)
    (hmem : ∀ record ∈ (s.1.step contentHash cached e).cache.records, record ∈ s.1.cache.records) :
    Noted contentHash (s.1.step contentHash cached e, noteProvenance s.1 e s.2) :=
  ⟨fun b => (hn.build b).step hs he, fun _ _ hb => hn.ended_step he (hnote ▸ hb),
    fun record h => (hn.record record (hmem record h)).step hn he (by rw [hnote])⟩

/-- What a build stores is from it, if its output had its rule. -/
theorem Noted.stored {s : World × Provenance} (hn : Noted contentHash s) (hs : Sound s.1)
    {bytes : Bytes} {keep : Keep} {left : List Path} {stamps : List Input}
    (he : s.1.enabled (.store b true))
    (hstage : (s.1.builds b).stage = .stamping bytes keep left (some stamps))
    (hrule : s.2.rule b = some (s.1.builds b).launch.command) :
    Noted contentHash
      (s.1.step contentHash cached (.store b true), noteProvenance s.1 (.store b true) s.2) := by
  have hlt := hs.build_lt he rfl
  have honward := @step_onward contentHash cached s.1 (.store b true)
  have hnote : noteProvenance s.1 (.store b true) s.2 =
      { s.2 with stored := Function.update s.2.stored keep.command.output (some b) } := by
    unfold noteProvenance
    simp only [hstage]
  have hmade := (hn.build b).made bytes (by rw [hstage]; rfl)
  have hkeep := (hn.build b).rule keep (by rw [hstage]; rfl)
  have hcommand : (s.1.builds b).launch.command = keep.command :=
    Option.some.inj (hrule.symm.trans hkeep)
  have hover : ((s.1.step contentHash cached (.store b true)).builds b).stage = .over := by
    show ((s.1.store contentHash b true).builds b).stage = .over
    unfold World.store
    simp only [hstage]
    rw [setStage_self]
  have hbuild := fun c => @NotedBuild.step contentHash cached s.1 c _ s.2 hs (hn.build c) he
  refine ⟨hbuild, fun o c hc => ?_, fun record hmem => ?_⟩
  · rw [hnote] at hc
    have hc' : Function.update s.2.stored keep.command.output (some b) o = some c := hc
    rw [Function.update_apply] at hc'
    split at hc'
    · obtain rfl := Option.some.inj hc'
      exact ⟨Nat.lt_of_lt_of_le hlt honward.buildCount, hover⟩
    · exact hn.ended_step he hc'
  · have hmem' : record ∈ (s.1.store contentHash b true).cache.records := hmem
    rw [store_kept hstage] at hmem'
    obtain rfl | ⟨hmem', hne⟩ := mem_store.mp hmem'
    · refine .inr ⟨b, bytes, ?_, ?_, ?_, rfl⟩
      · rw [hnote]
        exact Function.update_self ..
      · exact (congrArg Launch.command (honward.launch b hlt)).trans hcommand
      · rw [hnote]
        exact hmade
    · refine (hn.record record hmem').step hn he ?_
      rw [hnote]
      exact Function.update_of_ne hne ..

theorem Noted.store {s : World × Provenance} (hn : Noted contentHash s) (hs : Sound s.1) {ok : Bool}
    (he : s.1.enabled (.store b ok)) (hok : StoresItsRule s (.store b ok)) :
    Noted contentHash
      (s.1.step contentHash cached (.store b ok), noteProvenance s.1 (.store b ok) s.2) := by
  obtain ⟨bytes, keep, left, stamps, hstage, _⟩ := id he
  cases ok with
  | false =>
    refine hn.unstored hs he rfl fun record hmem => ?_
    have hmem' : record ∈ (s.1.store contentHash b false).cache.records := hmem
    rwa [store_failed] at hmem'
  | true =>
    cases stamps with
    | none =>
      refine hn.unstored hs he ?_ fun record hmem => ?_
      · unfold noteProvenance
        simp only [hstage]
      · have hmem' : record ∈ (s.1.store contentHash b true).cache.records := hmem
        rw [store_dropped hstage] at hmem'
        exact (mem_forget.mp hmem').1
    | some stamps => exact hn.stored hs he hstage (hok bytes keep left stamps hstage)

theorem noted_start {s : World × Provenance} (hstart : Starts contentHash cached s.1)
    (hnote : s.2 = { before := s.1.cache.records }) : Noted contentHash s := by
  obtain ⟨_, _, _, _, hw⟩ := hstart.begins
  have hover : ∀ b, (s.1.builds b).stage = .over := fun b => by rw [hw]
  refine ⟨fun b => ⟨fun bytes hb => ?_, fun keep hk => ?_⟩, fun o b hb => ?_, fun record hmem =>
    .inl ⟨?_, ?_⟩⟩
  · rw [hover] at hb
    simp [Stage.content] at hb
  · rw [hover] at hk
    simp [Stage.toKeep] at hk
  · rw [hnote] at hb
    simp at hb
  · rw [hnote]
  · rw [hnote]
    exact hmem

theorem Noted.step {s : World × Provenance} (hn : Noted contentHash s) (hs : Sound s.1)
    (he : s.1.enabled e) (hok : StoresItsRule s e) :
    Noted contentHash (s.1.step contentHash cached e, noteProvenance s.1 e s.2) := by
  by_cases hstore : ∃ b ok, e = .store b ok
  · obtain ⟨b, ok, rfl⟩ := hstore
    exact hn.store hs he hok
  · have hne : ∀ b ok, e ≠ .store b ok := fun b ok heq => hstore ⟨b, ok, heq⟩
    have hstored : (noteProvenance s.1 e s.2).stored = s.2.stored := by
      cases e with
      | launch b start => cases start <;> rfl
      | endWork b result =>
        unfold noteProvenance
        dsimp only
        split <;> rfl
      | store b ok => exact absurd rfl (hne b ok)
      | _ => rfl
    exact hn.unstored hs he hstored fun _ => step_cache hne

/-- Where every build that is stored had the rule it was claimed with, each record the cache did
not hold to begin with is of the command whose run made the record's content. -/
theorem records_provenance {s : World × Provenance}
    (h : (provenances contentHash cached).Reachable StoresItsRule s) :
    ∀ record ∈ s.1.cache.records, From contentHash s record := by
  have hnoted : Noted contentHash s := by
    refine h.invariant_under (Q := fun s => Sound s.1) (P := Noted contentHash)
      (fun s hs => sound hs.unnoted) (fun s hstart => ?_) fun s e hs hn he hok => ?_
    · exact noted_start hstart.1 hstart.2
    · exact hn.step hs he hok
  exact hnoted.record

/-- Whether a step is seen to be `StoresItsRule`. -/
def storesItsRule (s : World × Provenance) : Event → Bool
  | .store b true =>
    match (s.1.builds b).stage with
    | .stamping _ _ _ (some _) => decide (s.2.rule b = some (s.1.builds b).launch.command)
    | _ => true
  | _ => true

theorem storesItsRule_sound {s : World × Provenance} (h : storesItsRule s e = true) :
    StoresItsRule s e := by
  cases e with
  | store b ok =>
    cases ok with
    | false => trivial
    | true =>
      intro bytes keep left stamps hstage
      simpa [storesItsRule, hstage] using h
  | _ => trivial

/-- A tree that declares one output and keeps an empty cache. -/
def keepsOne : World :=
  { tree := constructed (.only { output := [['a']], text := ['1'] }) 0
    cache := ({} : Cache).forget []
    origin := fun output =>
      if (constructed (.only { output := [['a']], text := ['1'] }) 0).declared output then
        some (if (constructed (.only { output := [['a']], text := ['1'] }) 0).stale output
          then .placeholder else .restored)
      else none }

theorem keepsOne_reachable {ok : World × Provenance → Event → Prop} :
    (provenances contentHash true).Reachable ok (keepsOne, { before := [] }) :=
  .start ⟨⟨.only { output := [['a']], text := ['1'] }, 0, fun _ => none,
    ({} : Cache).forget [], _, ⟨{}, 1, by simp, rfl⟩, rfl⟩, rfl⟩

/-- The build of the one output runs, and is kept. -/
def runsA : List Event := [.bringUpToDate [['a']], .launch 0 .ran, .coordinator (.onPermit 0)]

def keepsA : List Event :=
  [.coordinator (.finish 0), .endWork 0 (.built [1] []), .publish 0 5, .write 0, .settle 0,
    .complete 0, .beginKeeping 0, .store 0 true]

theorem records_provenance_keepsA :
    From (fun _ => []) ((provenances (fun _ => []) true).runs (keepsOne, { before := [] })
      (runsA ++ keepsA)) ⟨{ output := [['a']], text := ['1'] }, [], 5, []⟩ := by
  have hfires := @fires_of_allFire (fun _ => []) true _ _ noteProvenance storesItsRule StoresItsRule
    (keepsOne, { before := [] }) (runsA ++ keepsA) keepsOne_reachable
    (fun _ _ _ => storesItsRule_sound) (by decide +kernel)
  exact records_provenance (keepsOne_reachable.runs hfires) _ (by decide +kernel)

/-- The manifest gives the one output another command, and its rules are taken. -/
def editsA : List Event :=
  [.sourceChange false [["build.makebelieve".toList]]
      (some (.only { output := [['a']], text := ['2'] })),
    .resume 0 true, .resume 0 true]

/-- Kept with the rules taken and the output yet to be invalidated, a build is recorded with the
command it was not run with. -/
theorem records_mistaken :
    ∃ s, (provenances (fun _ => []) true).Reachable (fun _ _ => True) s ∧
      (s.1.builds 0).launch.command = { output := [['a']], text := ['1'] } ∧
      s.2.made 0 = some [1] ∧ s.2.stored [['a']] = some 0 ∧
      ⟨{ output := [['a']], text := ['2'] }, [], 5, []⟩ ∈ s.1.cache.records := by
  have hfires := @fires_of_allFire (fun _ => []) true _ _ noteProvenance (fun _ _ => true)
    (fun _ _ => True) (keepsOne, { before := [] }) (runsA ++ editsA ++ keepsA) keepsOne_reachable
    (fun _ _ _ _ => trivial) (by decide +kernel)
  exact ⟨_, keepsOne_reachable.runs hfires, by decide +kernel⟩

end World

end MakeBelieve.Tree
