import MakeBelieve.Tree.Provenance
import MakeBelieve.Tree.Served

namespace MakeBelieve.Tree

open Library

/-- Whether a call of the cache, if the step makes one, succeeds. -/
def Event.CacheSucceeds : Event → Prop
  | .store _ ok | .resume _ ok => ok = true
  | _ => True

namespace World

variable {contentHash : Bytes → Hash} {cached : Bool}
variable {w w' : World} {b : BuildId} {o : Path} {e : Event}

theorem Served.mono {command : Command} {own : Option BuildId} {content content' : Bytes → Prop}
    (h : Served w o command own content) (hc : ∀ bytes, content bytes → content' bytes) :
    Served w o command own content' :=
  ⟨h.rule, h.untraced, h.current, h.alone,
    h.content.imp id fun ⟨file, hfile, hcontent⟩ => ⟨file, hfile, hc _ hcontent⟩⟩

/-- Once a build is no longer under way, its output is served with none under way. -/
theorem Served.ended {command : Command} {content : Bytes → Prop}
    (h : Served w o command (some b) content) (hb : (w.builds b).stage.unfinished = false) :
    Served w o command none content := by
  have hnot : ∀ c, some b = some c → (w.builds c).stage.unfinished = false := by
    rintro c heq
    obtain rfl := Option.some.inj heq
    exact hb
  refine ⟨h.rule, h.untraced, h.current, fun c hc hout => ?_, .inr ?_⟩
  · rw [hnot c (h.alone c hc hout)] at hc
    simp at hc
  · obtain ⟨c, heq, hwrites⟩ | hfile := h.content
    · have hun := hnot c heq
      generalize (w.builds c).stage = stage at hwrites hun
      cases stage <;> simp [Stage.writes, Stage.unfinished] at hwrites hun
    · exact hfile

/-- A record is warranted: its output is served as it says, or the record is yet to be forgotten. -/
def Warranted (w : World) (command : Command) (content : Bytes → Prop) : Prop :=
  Served w command.output command none content ∨ ToInvalidate w command.output ∨
    ToForget w command.output

/-- A build yet to be checked against the invalidations of its output would be warranted, should
there have been none. -/
structure Candidate (w : World) (b : BuildId) (keep : Keep) (bytes : Bytes) : Prop where
  output : (w.builds b).launch.output = keep.command.output
  atMost : keep.invalidationsAtStart ≤ w.tree.invalidations keep.command.output
  served : w.tree.invalidations keep.command.output = keep.invalidationsAtStart →
    Served w keep.command.output keep.command (some b) (fun content => content = bytes) ∨
      ToInvalidate w keep.command.output

/-- Every record the cache holds or is about to is warranted. -/
structure Lasting (contentHash : Bytes → Hash) (w : World) : Prop where
  candidate : ∀ b keep bytes, (w.builds b).stage.toKeep = some keep →
    (w.builds b).stage.content = some bytes → (w.builds b).stage.stamps = false →
      Candidate w b keep bytes
  stamping : ∀ b bytes keep left stamps,
    (w.builds b).stage = .stamping bytes keep left (some stamps) →
      Warranted w keep.command fun content => content = bytes
  record : ∀ record ∈ w.cache.records,
    Warranted w record.command fun content => contentHash content = record.hash

/-- A record stays warranted until it is forgotten. -/
theorem Warranted.step {command : Command} {content : Bytes → Prop}
    (h : Warranted w command content) (hs : Sound w) (ho : Orderly w) (hall : ∀ o, Timely w o)
    (he : w.enabled e) : Warranted (w.step contentHash cached e) command content ∨
      ∃ now ok outputs todo, e = .resume now ok ∧ w.todo = .forget outputs :: todo ∧
        command.output ∈ outputs := by
  obtain hserved | hinvalidate | hforget := h
  · obtain h' | h' | ⟨_, h'⟩ := @Served.step contentHash cached w command.output e command none
      content hserved hs ho hall he (fun b hb => by simp at hb)
    · exact .inl (.inl h')
    · exact .inl (.inr (.inl h'))
    · exact .inl (.inr (.inr h'))
  · obtain h' | ⟨_, h'⟩ := @ToInvalidate.step contentHash cached w command.output e hinvalidate ho he
    · exact .inl (.inr (.inl h'))
    · exact .inl (.inr (.inr h'))
  · exact (@ToForget.step contentHash cached w command.output e hforget he).imp
      (fun h' => .inr (.inr h')) id

theorem Candidate.step {keep : Keep} {bytes : Bytes} (h : Candidate w b keep bytes)
    (hs : Sound w) (ho : Orderly w) (hall : ∀ o, Timely w o) (he : w.enabled e)
    (hlt : b < w.buildCount) (hb : (w.builds b).stage.unpublished = false)
    (hown : e.build = some b → e.aside = true) :
    Candidate (w.step contentHash cached e) b keep bytes := by
  have hle := @invalidations_step contentHash cached w e keep.command.output
  refine ⟨?_, Nat.le_trans h.atMost hle, fun hat => ?_⟩
  · rw [(@step_onward contentHash cached w e).launch b hlt]
    exact h.output
  · have hsame : w.tree.invalidations keep.command.output = keep.invalidationsAtStart :=
      Nat.le_antisymm (Nat.le_trans hle (Nat.le_of_eq hat)) h.atMost
    have hnot : ¬w.tree.invalidations keep.command.output <
        (w.step contentHash cached e).tree.invalidations keep.command.output := by
      rw [hat, hsame]
      exact Nat.lt_irrefl _
    obtain hserved | hinvalidate := h.served hsame
    · obtain h' | h' | ⟨hlt', _⟩ := @Served.step contentHash cached w _ e _ _ _ hserved hs ho hall he
        (fun c hc => by obtain rfl := Option.some.inj hc; exact ⟨hb, hown⟩)
      · exact .inl h'
      · exact .inr h'
      · exact absurd hlt' hnot
    · obtain h' | ⟨hlt', _⟩ := @ToInvalidate.step contentHash cached w _ e hinvalidate ho he
      · exact .inr h'
      · exact absurd hlt' hnot

/-- What a build finds when it publishes is what it is to be kept with. -/
theorem Candidate.published (hs : Sound w) (hall : ∀ o, Timely w o)
    {bytes : Bytes} {inputs : List Path} {command : Command} {builtAt : Int64} {keep : Keep}
    (he : w.enabled (.publish b builtAt))
    (hstage : (w.builds b).stage = .finishing (.built bytes inputs))
    (hc : w.tree.commands.find (w.builds b).launch.output = some command)
    (hkeep : (w.tree.publish contentHash cached (w.builds b).launch.output command bytes inputs
      builtAt).1 = some keep) :
    Candidate (w.step contentHash cached (.publish b builtAt)) b keep bytes := by
  have hout := Commands.find_output hc
  have hun : (w.builds b).stage.unfinished = true := by rw [hstage]; rfl
  have hstep : w.step contentHash cached (.publish b builtAt) =
      { w.setStage b (.writing (.built bytes inputs) builtAt (w.tree.publish contentHash cached
          (w.builds b).launch.output command bytes inputs builtAt).1) with
        tree := (w.tree.publish contentHash cached (w.builds b).launch.output command bytes inputs
          builtAt).2
        layout := some (.build b) } := publish_declared builtAt hstage hc
  have htree : ∀ {t}, t = (w.step contentHash cached (.publish b builtAt)).tree →
      t.commands = w.tree.commands ∧ t.stale = w.tree.stale ∧
        t.invalidations = w.tree.invalidations := by
    rintro t rfl
    rw [hstep]
    simp only [State.publish]
    cases cached <;> exact ⟨rfl, rfl, rfl⟩
  obtain ⟨hcommands, hstale, hinv⟩ := htree rfl
  have hkept : keep.command = command ∧ command.action ≠ .tracing ∧
      keep.invalidationsAtStart = w.invalidationsAtStart (w.builds b).launch.output := by
    simp only [State.publish] at hkeep
    split at hkeep
    · next hcond =>
      rw [← Option.some.inj hkeep]
      exact ⟨rfl, hcond.2, rfl⟩
    · simp at hkeep
  obtain ⟨rfl, huntraced, hstart⟩ := hkept
  rw [← hout] at hstart
  refine ⟨?_, ?_, fun hat => .inl ⟨?_, huntraced, ?_, fun c hc hco => ?_, .inl ⟨b, rfl, ?_⟩⟩⟩
  · rw [(@step_onward contentHash cached w _).launch b (hs.build_lt he rfl)]
    exact hout.symm
  · rw [hinv, hstart]
    exact (hall _).atMost
  · rw [hcommands, hout]
    exact hc
  · rw [hinv, hstart] at hat
    rw [hstale]
    refine ((hall keep.command.output).last ?_ hat.symm).2
    exact (hs.ledger.flight _).mpr ⟨b, hun, hout.symm⟩
  · obtain ⟨_, hun', hlaunch⟩ | ⟨hge, hlt⟩ :=
      @Sound.unfinished_step contentHash cached w _ hs he c hc
    · rw [hlaunch] at hco
      exact congrArg some (hs.ledger.alone b c hun hun' (hout.symm.trans hco.symm))
    · have : (w.step contentHash cached (.publish b builtAt)).buildCount = w.buildCount := by
        rw [hstep]
        rfl
      exact absurd (this ▸ hlt) (Nat.not_lt.mpr hge)
  · rw [hstep]
    show ((w.setStage b _).builds b).stage.writes = true
    rw [setStage_self]
    rfl

/-- A build's content goes in with its output still to be served with it. -/
theorem Candidate.written (hs : Sound w) {bytes : Bytes} {inputs : List Path} {builtAt : Int64}
    {keep : Keep} {kept : Option Keep} (h : Candidate w b keep bytes)
    (hstage : (w.builds b).stage = .writing (.built bytes inputs) builtAt kept) :
    Candidate (w.step contentHash cached (.write b)) b keep bytes := by
  have he : w.enabled (.write b) := ⟨_, _, _, hstage⟩
  have hstep : w.step contentHash cached (.write b) =
      { w.setStage b (.published (.built bytes inputs) kept) with
        tree := w.tree.writeFile (w.builds b).launch.output ⟨bytes, builtAt⟩
        layout := none
        origin := Function.update w.origin (w.builds b).launch.output (some (.build b)) } := by
    show w.write b = _
    unfold World.write
    simp only [hstage]
  rw [hstep]
  refine ⟨?_, h.atMost, fun hat => (h.served hat).imp (fun hserved => ?_) id⟩
  · rw [← hstep, (@step_onward contentHash cached w _).launch b (hs.build_lt he rfl)]
    exact h.output
  · refine ⟨hserved.rule, hserved.untraced, hserved.current, fun c hc hco => ?_,
      .inr ⟨⟨bytes, builtAt⟩, ?_, rfl⟩⟩
    · rw [← hstep] at hc hco
      obtain ⟨_, hun, hlaunch⟩ | ⟨hge, hlt⟩ :=
        @Sound.unfinished_step contentHash cached w _ hs he c hc
      · exact hserved.alone c hun (hlaunch ▸ hco)
      · rw [hstep] at hlt
        exact absurd hlt (Nat.not_lt.mpr hge)
    · rw [← h.output]
      exact Function.update_self ..

/-- A build's output lands with its content, unless it is to be built again. -/
theorem Candidate.settled (hs : Sound w) (hall : ∀ o, Timely w o) {bytes : Bytes}
    {inputs : List Path} {keep : Keep} {kept : Option Keep} (h : Candidate w b keep bytes)
    (hstage : (w.builds b).stage = .published (.built bytes inputs) kept) :
    Candidate (w.step contentHash cached (.settle b)) b keep bytes := by
  have he : w.enabled (.settle b) := .inr ⟨_, _, hstage⟩
  have hlt := hs.build_lt he rfl
  have hstep : w.step contentHash cached (.settle b) =
      w.settleWith b (.built bytes inputs) kept := by
    show w.settle b = _
    unfold World.settle
    simp only [hstage]
  have hland := w.landed b (.built bytes inputs) kept
  rw [← hstep] at hland
  have hinv := hland.invalidations
  have htodo : (w.step contentHash cached (.settle b)).todo = w.todo := by
    rw [hstep]
    exact (w.settleWith_aside b _ _).1
  refine ⟨?_, by rw [hinv]; exact h.atMost, fun hat => ?_⟩
  · rw [(@step_onward contentHash cached w _).launch b hlt]
    exact h.output
  · rw [hinv] at hat
    obtain hserved | hinvalidate := h.served hat
    · have hd : w.tree.declared (w.builds b).launch.output = true := by
        unfold State.declared
        rw [h.output, hserved.rule]
        rfl
      have hstale := hland.stale_of_built hall rfl hd (by rw [h.output]; exact hserved.current)
      rw [h.output] at hstale
      refine .inl ⟨by rw [hland.commands]; exact hserved.rule, hserved.untraced, hstale,
        hserved.alone_step hs hall he, .inr ?_⟩
      obtain ⟨c, hc, hwrites⟩ | ⟨file, hfile, hcontent⟩ := hserved.content
      · rw [← Option.some.inj hc, hstage] at hwrites
        simp [Stage.writes] at hwrites
      · exact ⟨file, (congrFun hland.files _).trans hfile, hcontent⟩
    · obtain ⟨hd, hmem⟩ := hinvalidate
      refine .inr ⟨?_, by rw [htodo]; exact hmem⟩
      unfold State.declared at hd ⊢
      rw [hland.commands]
      exact hd

theorem afterRelease_from {result : BuildResult} {kept : Option Keep} {keep : Keep} {bytes : Bytes}
    (hkeep : (afterRelease result kept).toKeep = some keep)
    (hcontent : (afterRelease result kept).content = some bytes) :
    kept = some keep ∧ (Stage.settled result kept none).content = some bytes := by
  obtain ⟨hcontent' | hcontent', hkeep' | hkeep'⟩ := afterRelease_content result kept
  · exact ⟨hkeep' ▸ hkeep, hcontent' ▸ hcontent⟩
  · rw [hkeep'] at hkeep
    simp at hkeep
  · rw [hcontent'] at hcontent
    simp at hcontent
  · rw [hcontent'] at hcontent
    simp at hcontent

/-- Each build with something to keep is a candidate, from when it publishes to when it is checked. -/
theorem Lasting.candidate_step (h : Lasting contentHash w) (hs : Sound w) (ho : Orderly w)
    (hall : ∀ o, Timely w o) (he : w.enabled e) {keep : Keep} {bytes : Bytes}
    (hkeep : ((w.step contentHash cached e).builds b).stage.toKeep = some keep)
    (hcontent : ((w.step contentHash cached e).builds b).stage.content = some bytes)
    (hstamps : ((w.step contentHash cached e).builds b).stage.stamps = false) :
    Candidate (w.step contentHash cached e) b keep bytes := by
  -- It was a candidate, and has been left alone or released.
  have hkept : b < w.buildCount → (w.builds b).stage.toKeep = some keep →
      (w.builds b).stage.content = some bytes → (w.builds b).stage.stamps = false →
      (e.build = some b → e.aside = true) →
      Candidate (w.step contentHash cached e) b keep bytes := by
    intro hlt hkeep' hcontent' hstamps' hown
    refine (h.candidate b keep bytes hkeep' hcontent' hstamps').step hs ho hall he hlt ?_ hown
    generalize (w.builds b).stage = stage at hkeep'
    cases stage <;> simp [Stage.toKeep, Stage.unpublished] at hkeep' ⊢
  by_cases hown : e.build = some b
  · have hlt := hs.build_lt he hown
    have hstep := @Sound.stepped contentHash cached w b e hs he hown
    generalize ((w.step contentHash cached e).builds b).stage = stage
      at hstep hkeep hcontent hstamps
    cases hstep with
    | traced | ran | threw | ended | undeclared | stored => simp [Stage.toKeep] at hkeep
    | begun | stamped => simp [Stage.stamps] at hstamps
    | unwritten => simp [Stage.content] at hcontent
    | published builtAt hs' hc =>
      obtain rfl := Option.some.inj hcontent
      exact Candidate.published hs hall he hs' hc hkeep
    | @written bytes' inputs builtAt kept hs' =>
      obtain rfl := Option.some.inj hcontent
      exact (h.candidate b keep bytes' (by rw [hs']; exact hkeep) (by rw [hs']; rfl)
        (by rw [hs']; rfl)).written hs hs'
    | @settled result kept hs' =>
      obtain ⟨_, _, _, rfl, _⟩ | hs' := hs'
      · simp [Stage.toKeep] at hkeep
      · cases result with
        | failed error inputs => simp [Stage.content] at hcontent
        | built bytes' inputs =>
          obtain rfl := Option.some.inj hcontent
          exact (h.candidate b keep bytes' (by rw [hs']; exact hkeep) (by rw [hs']; rfl)
            (by rw [hs']; rfl)).settled hs hall hs'
    | @completed result kept hs' =>
      obtain ⟨rfl, hcontent'⟩ := afterRelease_from hkeep hcontent
      exact hkept hlt (by rw [hs']; rfl) (by rw [hs']; exact hcontent') (by rw [hs']; rfl)
        fun _ => rfl
    | @released result kept orphaned hs' =>
      refine hkept hlt (by rw [hs']; exact hkeep) ?_ (by rw [hs']; rfl) fun _ => rfl
      rw [hs']
      cases result <;> exact hcontent
    | @orphanCompleted result kept orphaned hs' =>
      obtain ⟨rfl, hcontent'⟩ := afterRelease_from hkeep hcontent
      refine hkept hlt (by rw [hs']; rfl) ?_ (by rw [hs']; rfl) fun _ => rfl
      rw [hs']
      cases result <;> exact hcontent'
  · obtain ⟨hlt, hsame⟩ | ⟨_, hown'⟩ | ⟨_, hnew | hover⟩ :=
      @Sound.step_builds contentHash cached w e hs he b
    · rw [hsame] at hkeep hcontent hstamps
      exact hkept hlt hkeep hcontent hstamps fun hb => absurd hb hown
    · exact absurd hown' hown
    · rw [hnew.1] at hkeep
      simp [Stage.toKeep] at hkeep
    · rw [hover] at hkeep
      simp [Stage.toKeep] at hkeep

/-- A build that passes the check is warranted by its output, as long as it is under the lock. -/
theorem Lasting.stamping_step (h : Lasting contentHash w) (hs : Sound w) (ho : Orderly w)
    (hall : ∀ o, Timely w o) (he : w.enabled e) {bytes : Bytes} {keep : Keep} {left : List Path}
    {stamps : List Input}
    (hb : ((w.step contentHash cached e).builds b).stage = .stamping bytes keep left (some stamps)) :
    Warranted (w.step contentHash cached e) keep.command fun content => content = bytes := by
  -- Nothing is forgotten meanwhile.
  have hkept : Warranted w keep.command (fun content => content = bytes) →
      ((w.builds b).stage.stamps = true ∨ e.build = some b) →
      Warranted (w.step contentHash cached e) keep.command fun content => content = bytes := by
    intro hwarranted hb'
    obtain h' | ⟨now, ok, outputs, todo, rfl, htodo, hmem⟩ :=
      @Warranted.step contentHash cached w e _ _ hwarranted hs ho hall he
    · exact h'
    · obtain hstamps | hown := hb'
      · obtain ⟨task, todo', htodo', hfree⟩ := he
        obtain ⟨rfl, _⟩ := List.cons.inj (htodo.symm.trans htodo')
        obtain rfl | hnone := hfree
        · simp at hmem
        · rw [ho.stamping b hstamps] at hnone
          simp at hnone
      · simp [Event.build] at hown
  by_cases hown : e.build = some b
  · have hstep := @Sound.stepped contentHash cached w b e hs he hown
    rw [hb] at hstep
    generalize hstage : Stage.stamping bytes keep left (some stamps) = stage at hstep
    cases hstep with
    | @begun bytes' keep' hs' =>
      obtain ⟨rfl, rfl, _, hstamps⟩ := Stage.stamping.inj hstage
      have hcandidate := h.candidate b keep bytes (by rw [hs']; rfl) (by rw [hs']; rfl)
        (by rw [hs']; rfl)
      refine hkept ?_ (.inr hown)
      have hat : w.tree.invalidations keep.command.output = keep.invalidationsAtStart := by
        unfold State.stampOutputs at hstamps
        rw [hcandidate.output] at hstamps
        by_contra hne
        rw [if_neg hne] at hstamps
        simp at hstamps
      exact (hcandidate.served hat).imp (fun hserved => hserved.ended (by rw [hs']; rfl)) .inl
    | @stamped bytes' keep' input left' stamps' hs' =>
      obtain ⟨rfl, rfl, _, _⟩ := Stage.stamping.inj hstage
      exact hkept (h.stamping b _ _ _ _ hs') (.inl (by rw [hs']; rfl))
    | @completed result kept | @orphanCompleted result kept =>
      have hlocks := (afterRelease_locks result kept).2
      rw [← hstage] at hlocks
      simp [Stage.stamps] at hlocks
    | _ => simp at hstage
  · obtain ⟨_, hsame⟩ | ⟨_, hown'⟩ | ⟨_, hnew | hover⟩ :=
      @Sound.step_builds contentHash cached w e hs he b
    · rw [hsame] at hb
      exact hkept (h.stamping b _ _ _ _ hb) (.inl (by rw [hb]; rfl))
    · exact absurd hown' hown
    · rw [hnew.1] at hb
      simp at hb
    · rw [hover] at hb
      simp at hb

/-- A record stored is warranted by the build it is of, and goes once it is forgotten. -/
theorem Lasting.record_step (h : Lasting contentHash w) (hs : Sound w) (ho : Orderly w)
    (hall : ∀ o, Timely w o) (he : w.enabled e) (hok : e.CacheSucceeds) {record : Record}
    (hmem : record ∈ (w.step contentHash cached e).cache.records) :
    Warranted (w.step contentHash cached e) record.command
      fun content => contentHash content = record.hash := by
  -- A record the cache already held is still warranted, or gone.
  have hkept : record ∈ w.cache.records →
      Warranted (w.step contentHash cached e) record.command
        fun content => contentHash content = record.hash := by
    intro hold
    obtain h' | ⟨now, ok, outputs, todo, rfl, htodo, hforgotten⟩ :=
      @Warranted.step contentHash cached w e _ _ (h.record record hold) hs ho hall he
    · exact h'
    · obtain rfl : ok = true := hok
      have hmem' : record ∈ (w.resume now true).cache.records := hmem
      unfold World.resume at hmem'
      simp only [htodo, if_true] at hmem'
      exact absurd hforgotten (mem_forget.mp hmem').2
  by_cases hstore : ∃ b ok, e = .store b ok
  · obtain ⟨b, ok, rfl⟩ := hstore
    obtain rfl : ok = true := hok
    obtain ⟨bytes, keep, left, stamps, hstage, _⟩ := id he
    have hmem' : record ∈ (w.store contentHash b true).cache.records := hmem
    cases stamps with
    | none =>
      rw [store_dropped hstage] at hmem'
      exact hkept (mem_forget.mp hmem').1
    | some stamps =>
      rw [store_kept hstage] at hmem'
      obtain rfl | ⟨hold, _⟩ := mem_store.mp hmem'
      · obtain h' | ⟨_, _, _, _, heq, _⟩ :=
          @Warranted.step contentHash cached w _ _ _ (h.stamping b _ _ _ _ hstage) hs ho hall he
        · refine h'.imp (fun hserved => hserved.mono ?_) id
          rintro content rfl
          rfl
        · simp at heq
      · exact hkept hold
  · exact hkept (step_cache (fun b ok heq => hstore ⟨b, ok, heq⟩) hmem)

theorem Lasting.step (h : Lasting contentHash w) (hs : Sound w) (ho : Orderly w)
    (hall : ∀ o, Timely w o) (he : w.enabled e) (hok : e.CacheSucceeds) :
    Lasting contentHash (w.step contentHash cached e) :=
  ⟨fun _ _ _ hkeep hcontent hstamps => h.candidate_step hs ho hall he hkeep hcontent hstamps,
    fun _ _ _ _ _ hb => h.stamping_step hs ho hall he hb,
    fun _ hmem => h.record_step hs ho hall he hok hmem⟩

/-- What the constructor leaves of the cache is what it has restored. -/
theorem Starts.lasting (h : Starts contentHash cached w) : Lasting contentHash w := by
  obtain ⟨_, _, _, _, hw⟩ := h.begins
  have hover : ∀ b, (w.builds b).stage = .over := fun b => by rw [hw]
  refine ⟨fun b keep bytes hkeep => ?_, fun b bytes keep left stamps hb => ?_,
    fun record hmem => .inl ?_⟩
  · rw [hover] at hkeep
    simp [Stage.toKeep] at hkeep
  · rw [hover] at hb
    simp at hb
  · obtain ⟨commands, mtime, source, cache, tree, htree, rfl⟩ := h
    cases cached with
    | false =>
      obtain ⟨rfl, rfl⟩ := htree
      simp at hmem
    | true =>
      obtain ⟨before, n, hn, hrun⟩ := htree
      obtain ⟨kept, t, hrun', hexactly⟩ := @restoreFromCache_exactly source contentHash before n hn _
        (constructed_inverse commands mtime)
      obtain ⟨rfl, rfl⟩ := Prod.mk.inj (Option.some.inj (hrun.symm.trans hrun'))
      obtain ⟨hbefore, hrestored⟩ := (hexactly.records record).mp hmem
      obtain ⟨bytes, hread, hserved⟩ := hexactly.served record hbefore hrestored
      obtain ⟨other, hother, hout, hfind, huntraced, _⟩ := (isLeast_restorable.1 _).mp hrestored
      obtain rfl : other = record := List.inj_on_of_nodup_map before.nodup hother hbefore hout
      refine ⟨?_, huntraced, hserved.stale, fun c hc => ?_,
        .inr ⟨⟨bytes, other.mtime⟩, hserved.files, ?_⟩⟩
      · show tree.commands.find _ = _
        rw [hexactly.only]
        exact hfind
      · simp [Stage.unfinished] at hc
      · unfold Cache.read at hread
        split at hread
        · split at hread
          · split at hread
            · next hhash => rw [← Option.some.inj hread, hhash]
            · simp at hread
          · simp at hread
        · simp at hread

theorem lasting (h : (machine contentHash cached).Reachable (fun _ e => e.CacheSucceeds) w) :
    Lasting contentHash w :=
  h.invariant_under (Q := fun w => Sound w ∧ Orderly w ∧ ∀ o, Timely w o)
    (P := Lasting contentHash) (fun _ hs => ⟨sound hs, orderly hs, timely hs⟩)
    (fun _ hs => Starts.lasting hs)
    fun _ _ ⟨hs, ho, hall⟩ hl he hok => hl.step hs ho hall he hok

/-- With nothing left for the callback to do, an output that has a record is declared with the
record's command, is no trace, is not stale and is served with the content the record is of. -/
theorem records_last (h : (machine contentHash cached).Reachable (fun _ e => e.CacheSucceeds) w)
    (hidle : w.todo = []) :
    ∀ record ∈ w.cache.records,
      w.tree.commands.find record.command.output = some record.command ∧
        record.command.action ≠ .tracing ∧ w.tree.stale record.command.output = false ∧
        ∃ file, w.tree.files record.command.output = some file ∧
          record.hash = contentHash file.bytes := by
  intro record hmem
  obtain hserved | ⟨_, _, hmem, _⟩ | ⟨_, hmem, _⟩ := (lasting h).record record hmem
  · refine ⟨hserved.rule, hserved.untraced, hserved.current, ?_⟩
    obtain ⟨_, hnone, _⟩ | ⟨file, hfile, hhash⟩ := hserved.content
    · simp at hnone
    · exact ⟨file, hfile, hhash.symm⟩
  · rw [hidle] at hmem
    simp at hmem
  · rw [hidle] at hmem
    simp at hmem

instance : (e : Event) → Decidable e.CacheSucceeds
  | .store _ ok | .resume _ ok => inferInstanceAs (Decidable (ok = true))
  | .bringUpToDate _ | .recordRead .. | .materializeAll | .startNext _ | .launch .. | .endWork ..
  | .publish .. | .write _ | .settle _ | .complete _ | .completeOrphaned _ | .beginKeeping _
  | .stamp _ | .editSource _ | .sourceChange .. | .coordinator _ => inferInstanceAs (Decidable True)

theorem records_last_keepsA :
    let w := ((provenances (fun _ => []) true).runs (keepsOne, { before := [] })
      (runsA ++ keepsA)).1
    w.cache.records ≠ [] ∧ ∀ record ∈ w.cache.records,
      w.tree.commands.find record.command.output = some record.command ∧
        record.command.action ≠ .tracing ∧ w.tree.stale record.command.output = false ∧
        ∃ file, w.tree.files record.command.output = some file ∧ record.hash = [] := by
  have hfires := @fires_of_allFire (fun _ => []) true _ _ noteProvenance
    (fun _ e => decide e.CacheSucceeds) (fun _ e => e.CacheSucceeds)
    (keepsOne, { before := [] }) (runsA ++ keepsA) keepsOne_reachable
    (fun _ _ _ => of_decide_eq_true) (by decide +kernel)
  have hnoted : ((machine (fun _ => []) true).noting
      (fun w => ({ before := w.cache.records } : Provenance)) noteProvenance).Reachable
        (fun _ e => e.CacheSucceeds) _ := keepsOne_reachable.runs hfires
  have hreachable : (machine (fun _ => []) true).Reachable (fun _ e => e.CacheSucceeds) _ :=
    hnoted.without_note fun _ _ h => h
  exact ⟨by decide +kernel, records_last hreachable (by decide +kernel)⟩

end World

end MakeBelieve.Tree
