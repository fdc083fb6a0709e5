import MakeBelieve.Tree.Provenance

namespace MakeBelieve.Tree

open Library

/-- The tree with what each build has read, and what it looked like then, if it was there. -/
structure Readings where
  world : World := {}
  reads : BuildId → List (Path × Option Input) := fun _ => []

inductive ReadEvent
  | tree (e : Event)
  | read (b : BuildId) (input : Path)

namespace Readings

variable (contentHash : Bytes → Hash) (cached : Bool) (s : Readings)

/-- What an input looks like: the stamp of a source file, or the hash of an output's content. -/
def look (input : Path) : Option Input :=
  match outputNamedBy input with
  | none => stampSource s.world.source input
  | some output =>
    (s.world.tree.files output).map fun file => { path := input, hash := contentHash file.bytes }

/-- What `keep_in_cache` would record of it. -/
def stampOf (input : Path) : Option Input :=
  match outputNamedBy input with
  | none => stampSource s.world.source input
  | some output => (s.world.tree.hashes output).map fun hash => { path := input, hash }

def step : ReadEvent → Readings
  | .tree e => { s with world := s.world.step contentHash cached e }
  | .read b input =>
    { s with reads := Function.update s.reads b (s.reads b ++ [(input, s.look contentHash input)]) }

/-- A build names as its inputs what it has read. -/
def allows : Event → Bool
  | .endWork b (.built _ inputs) =>
    inputs.all fun input => (s.reads b).any fun read => read.1 = input
  | _ => true

def enabled : ReadEvent → Prop
  | .tree e => s.world.enabled e ∧ s.allows e = true
  | .read b _ => (s.world.builds b).stage = .working ∧
      (s.world.system.coord.attempts (s.world.builds b).launch.attempt).phase = .running

/-- The tree under any interleaving of what its builds read with all else. -/
def machine : Machine Readings ReadEvent where
  init s := ∃ w, World.Starts contentHash cached w ∧ s = { world := w }
  enabled := enabled
  step := step contentHash cached

/-- The input looked so whenever the build read it. -/
def AsRead (b : BuildId) (stamp : Input) : Prop :=
  ∀ looked, (stamp.path, looked) ∈ s.reads b → looked = some stamp

/-- What a build that is about to be kept has read is as it was, or the change has invalidated it;
and no source file that is still to be stamped changes. -/
def Noticed : ReadEvent → Prop
  | .tree (.beginKeeping b) => ∀ bytes keep, (s.world.builds b).stage = .keeping bytes keep →
      s.world.tree.invalidations (s.world.builds b).launch.output = keep.invalidationsAtStart →
        ∀ input ∈ keep.inputs, ∀ stamp, s.stampOf input = some stamp → s.AsRead b stamp
  | .tree (.editSource source) => ∀ b bytes keep left stamps,
      (s.world.builds b).stage = .stamping bytes keep left (some stamps) →
        ∀ input ∈ left, ∀ stamp, stampSource source input = some stamp → s.AsRead b stamp
  | _ => True

/-- What a build under the cache's lock has stamped, or is to stamp, is as the build read it. -/
structure Stamped (b : BuildId) (left : List Path) (stamps : List Input) : Prop where
  done : ∀ stamp ∈ stamps, s.AsRead b stamp
  left : ∀ input ∈ left, ∀ stamp, stampSource s.world.source input = some stamp →
    s.AsRead b stamp

/-- What a step stores in the cache names each input as it was when the build that made the stored
content read it. -/
def StoresAsRead (e : ReadEvent) : Prop :=
  ∀ record ∈ (s.step contentHash cached e).world.cache.records,
    record ∈ s.world.cache.records ∨ ∃ b bytes, e = .tree (.store b true) ∧
      (s.world.builds b).stage.content = some bytes ∧ record.hash = contentHash bytes ∧
      ∀ stamp ∈ record.inputs, s.AsRead b stamp

variable {contentHash cached s} {e : Event} {w : World} {b : BuildId}

theorem outputStamps_mem (t : State) {inputs : List Path} {stamps : List Input}
    (h : t.outputStamps inputs = some stamps) {stamp : Input} (hmem : stamp ∈ stamps) :
    ∃ input ∈ inputs, ∃ output hash, outputNamedBy input = some output ∧
      t.hashes output = some hash ∧ stamp = { path := input, hash } := by
  induction inputs generalizing stamps with
  | nil =>
    rw [State.outputStamps] at h
    cases h
    cases hmem
  | cons input inputs ih =>
    rw [State.outputStamps] at h
    cases hnamed : outputNamedBy input with
    | none =>
      rw [hnamed] at h
      obtain ⟨other, hother, hstamp⟩ := ih h hmem
      exact ⟨other, List.mem_cons_of_mem _ hother, hstamp⟩
    | some output =>
      rw [hnamed] at h
      dsimp only at h
      cases hhash : t.hashes output with
      | none => simp [hhash] at h
      | some hash =>
        cases hrest : t.outputStamps inputs with
        | none => simp [hhash, hrest] at h
        | some rest =>
          simp only [hhash, hrest, Option.some.injEq] at h
          subst h
          rcases List.mem_cons.mp hmem with rfl | hmem
          · exact ⟨input, List.mem_cons_self, output, hash, hnamed, hhash, rfl⟩
          · obtain ⟨other, hother, hstamp⟩ := ih hrest hmem
            exact ⟨other, List.mem_cons_of_mem _ hother, hstamp⟩

theorem mem_firstStamps {stamps : List Input} {stamp : Input}
    (h : stamp ∈ Cache.firstStamps stamps) : stamp ∈ stamps := by
  induction stamps with
  | nil => cases h
  | cons first rest ih =>
    rw [Cache.firstStamps] at h
    rcases List.mem_cons.mp h with rfl | h
    · exact List.mem_cons_self
    · exact List.mem_cons_of_mem _ (ih (List.mem_filter.mp h).1)

theorem addBuild_source (w : World) (launch : Option Launch) (behind : Option BuildId) :
    (w.addBuild launch behind).source = w.source := by
  cases launch <;> rfl

/-- Only an edit changes the source. -/
theorem step_source (w : World) (h : ∀ source, e ≠ .editSource source) :
    (w.step contentHash cached e).source = w.source := by
  cases e with
  | bringUpToDate | startNext => exact addBuild_source _ _ _
  | launch b start => cases start <;> rfl
  | publish b builtAt =>
    change (w.publish contentHash cached b builtAt).source = _
    unfold World.publish
    dsimp only
    split
    · split <;> rfl
    · rfl
  | write b =>
    change (w.write b).source = _
    unfold World.write
    dsimp only
    split <;> rfl
  | settle b =>
    change (w.settle b).source = _
    unfold World.settle World.settleWith
    split
    · exact addBuild_source _ _ _
    · exact addBuild_source _ _ _
    · rfl
  | complete b =>
    change (w.complete b).source = _
    unfold World.complete
    split <;> rfl
  | completeOrphaned b =>
    change (w.completeOrphaned b).source = _
    unfold World.completeOrphaned
    split <;> rfl
  | beginKeeping b =>
    change (w.beginKeeping b).source = _
    unfold World.beginKeeping
    split <;> rfl
  | stamp b =>
    change (w.stamp b).source = _
    unfold World.stamp
    split <;> rfl
  | store b ok =>
    change (w.store contentHash b ok).source = _
    unfold World.store
    split <;> rfl
  | resume now ok =>
    change (w.resume now ok).source = _
    unfold World.resume
    split <;> first
      | rfl
      | exact addBuild_source _ _ _
  | editSource source => exact absurd rfl (h source)
  | _ => rfl

theorem world_reachable {ok : Readings → ReadEvent → Prop}
    (h : (machine contentHash cached).Reachable ok s) :
    (World.machine contentHash cached).Reachable (fun _ _ => True) s.world := by
  apply h.invariant
  · rintro s ⟨w, hstart, rfl⟩
    exact .start hstart
  · intro s e hs he _
    cases e with
    | tree e => exact hs.next he.1 trivial
    | read b input => exact hs

theorem Stamped.begun (hnoticed : s.Noticed (.tree (.beginKeeping b))) {bytes : Bytes} {keep : Keep}
    (hstage : (s.world.builds b).stage = .keeping bytes keep) {stamps : List Input}
    (hstamps : s.world.tree.stampOutputs (s.world.builds b).launch.output keep = some stamps) :
    s.Stamped b (keep.inputs.filter fun input => (outputNamedBy input).isNone) stamps := by
  unfold State.stampOutputs at hstamps
  by_cases hsame : s.world.tree.invalidations (s.world.builds b).launch.output =
      keep.invalidationsAtStart
  · rw [if_pos hsame] at hstamps
    have hinputs := hnoticed bytes keep hstage hsame
    constructor
    · intro stamp hmem
      obtain ⟨input, hinput, output, hash, hnamed, hhash, rfl⟩ := outputStamps_mem _ hstamps hmem
      apply hinputs input hinput
      rw [stampOf, hnamed]
      simp [hhash]
    · intro input hmem stamp hstamp
      obtain ⟨hinput, hnamed⟩ := List.mem_filter.mp hmem
      apply hinputs input hinput
      rw [stampOf, Option.isNone_iff_eq_none.mp hnamed]
      exact hstamp
  · rw [if_neg hsame] at hstamps
    cases hstamps

/-- The next source file is stamped as it is now, which is as it was read. -/
theorem Stamped.stamp {input : Path} {left : List Path} {stamps : List Input} {stamp : Input}
    (h : s.Stamped b (input :: left) stamps)
    (hstamp : stampSource s.world.source input = some stamp) :
    s.Stamped b left (stamps ++ [stamp]) := by
  constructor
  · intro other hmem
    rcases List.mem_append.mp hmem with hmem | hmem
    · exact h.done other hmem
    · rw [List.mem_singleton.mp hmem]
      exact h.left input List.mem_cons_self stamp hstamp
  · intro other hmem
    exact h.left other (List.mem_cons_of_mem input hmem)

theorem Stamped.tree {t : World} {left : List Path} {stamps : List Input}
    (h : s.Stamped b left stamps) (hsource : t.source = s.world.source) :
    Stamped { s with world := t } b left stamps := by
  constructor
  · exact h.done
  · change ∀ input ∈ left, ∀ stamp, stampSource t.source input = some stamp → s.AsRead b stamp
    rw [hsource]
    exact h.left

theorem stamped_tree (hr : World.Sound s.world) (he : s.world.enabled e)
    (hnoticed : s.Noticed (.tree e))
    (hs : ∀ b bytes keep left stamps,
      (s.world.builds b).stage = .stamping bytes keep left (some stamps) → s.Stamped b left stamps)
    {bytes : Bytes} {keep : Keep} {left : List Path} {stamps : List Input}
    (hb : ((s.world.step contentHash cached e).builds b).stage =
      .stamping bytes keep left (some stamps)) :
    Stamped { s with world := s.world.step contentHash cached e } b left stamps := by
  by_cases hedit : ∃ source, e = .editSource source
  · obtain ⟨source, rfl⟩ := hedit
    exact ⟨(hs b bytes keep left stamps hb).done, hnoticed b bytes keep left stamps hb⟩
  have hsource : (s.world.step contentHash cached e).source = s.world.source := by
    apply step_source
    intro source heq
    exact hedit ⟨source, heq⟩
  suffices hstamped : s.Stamped b left stamps from hstamped.tree hsource
  by_cases hown : e.build = some b
  · have hstep := @World.Sound.stepped contentHash cached s.world b e hr he hown
    rw [hb] at hstep
    generalize hstage : Stage.stamping bytes keep left (some stamps) = stage at hstep
    cases hstep with
    | begun hkeeping =>
      obtain ⟨rfl, rfl, rfl, hstamps⟩ := Stage.stamping.inj hstage
      exact .begun hnoticed hkeeping hstamps.symm
    | @stamped bytes' keep' input left' stamps' hstamping =>
      obtain ⟨rfl, rfl, rfl, hstamps⟩ := Stage.stamping.inj hstage
      obtain ⟨stamp, hstamp, hnext⟩ := Option.map_eq_some_iff.mp hstamps.symm
      rw [← hnext]
      exact (hs b _ _ _ _ hstamping).stamp hstamp
    | @completed result kept | @orphanCompleted result kept =>
      cases result <;> cases kept <;> cases hstage
    | _ => simp at hstage
  · rcases @World.Sound.step_builds contentHash cached s.world e hr he b with ⟨-, hsame⟩ |
      ⟨-, hown'⟩ | ⟨-, hnew | hover⟩
    · rw [hsame] at hb
      exact hs b bytes keep left stamps hb
    · exact absurd hown' hown
    · rw [hnew.1] at hb
      cases hb
    · rw [hover] at hb
      cases hb

theorem stamped (h : (machine contentHash cached).Reachable Noticed s) :
    ∀ b bytes keep left stamps,
      (s.world.builds b).stage = .stamping bytes keep left (some stamps) →
        s.Stamped b left stamps := by
  refine h.invariant_under (Q := fun s => World.Sound s.world)
    (P := fun s => ∀ b bytes keep left stamps,
      (s.world.builds b).stage = .stamping bytes keep left (some stamps) → s.Stamped b left stamps)
    (fun s hs => World.sound (world_reachable hs)) ?_ ?_
  · rintro s ⟨w, hstart, rfl⟩ b bytes keep left stamps hb
    obtain ⟨_, _, _, _, hw⟩ := hstart.begins
    have hover : (w.builds b).stage = .over := by rw [hw]
    rw [show (w.builds b).stage = _ from hb] at hover
    cases hover
  · intro s e hr hs he hnoticed b bytes keep left stamps hb
    cases e with
    | tree e => exact stamped_tree hr he.1 hnoticed hs hb
    | read c input =>
      have hne : b ≠ c := by
        rintro rfl
        have hworking := he.1
        rw [show (s.world.builds b).stage = _ from hb] at hworking
        cases hworking
      have hreads : ((machine contentHash cached).step s (.read c input)).reads b = s.reads b :=
        Function.update_of_ne hne ..
      have hstamped := hs b bytes keep left stamps hb
      constructor
      · intro stamp hmem looked hread
        rw [hreads] at hread
        exact hstamped.done stamp hmem looked hread
      · intro other hmem stamp hstamp looked hread
        rw [hreads] at hread
        exact hstamped.left other hmem stamp hstamp looked hread

/-- Where every change to what a build has read is noticed by the time the build is kept, each
record stored names its inputs as the build read them. -/
theorem records_as_read (h : (machine contentHash cached).Reachable Noticed s) {e : ReadEvent}
    (he : s.enabled e) : s.StoresAsRead contentHash cached e := by
  intro record hmem
  cases e with
  | read b input => exact .inl hmem
  | tree e =>
    by_cases hstore : ∃ b ok, e = .store b ok
    · obtain ⟨b, ok, rfl⟩ := hstore
      obtain ⟨bytes, keep, left, stamps, hstage, hdone⟩ := he.1
      have hmem : record ∈ (s.world.store contentHash b ok).cache.records := hmem
      cases ok with
      | false =>
        rw [World.store_failed] at hmem
        exact .inl hmem
      | true =>
        cases stamps with
        | none =>
          rw [World.store_dropped hstage] at hmem
          exact .inl (mem_forget.mp hmem).1
        | some stamps =>
          rw [World.store_kept hstage] at hmem
          rcases World.mem_store.mp hmem with rfl | ⟨hold, -⟩
          · refine .inr ⟨b, bytes, rfl, ?_, rfl, ?_⟩
            · rw [hstage]
              rfl
            · intro stamp hstamp
              exact (stamped h b bytes keep left stamps hstage).done stamp (mem_firstStamps hstamp)
          · exact .inl hold
    · refine .inl (World.step_cache ?_ hmem)
      intro b ok heq
      exact hstore ⟨b, ok, heq⟩

/-- Whether a step is seen to be enabled. -/
def fires (s : Readings) : ReadEvent → Bool
  | .tree e => s.world.fires e && s.allows e
  | .read b _ => decide ((s.world.builds b).stage = .working ∧
      (s.world.system.coord.attempts (s.world.builds b).launch.attempt).phase = .running)

/-- Whether it is seen to be `Noticed`, with nothing edited. -/
def noticed (s : Readings) : ReadEvent → Bool
  | .tree (.beginKeeping b) =>
    match (s.world.builds b).stage with
    | .keeping _ keep => keep.inputs.all fun input => (s.stampOf input).all fun stamp =>
        (s.reads b).all fun read => decide (read.1 = stamp.path → read.2 = some stamp)
    | _ => true
  | .tree (.editSource _) => false
  | _ => true

theorem enabled_of_fires {e : ReadEvent} (h : s.fires e = true) : s.enabled e := by
  cases e with
  | tree e =>
    rw [fires, Bool.and_eq_true] at h
    exact ⟨World.enabled_of_fires h.1, h.2⟩
  | read b input => simpa [fires, enabled] using h

theorem noticed_sound {e : ReadEvent} (h : s.noticed e = true) : s.Noticed e := by
  cases e with
  | read b input => trivial
  | tree e =>
    cases e with
    | beginKeeping b =>
      intro bytes keep hstage _ input hinput stamp hstamp looked hread
      simp only [noticed, hstage, List.all_eq_true] at h
      have hall := h input hinput
      rw [hstamp, Option.all_some, List.all_eq_true] at hall
      exact of_decide_eq_true (hall _ hread) rfl
    | editSource source => cases h
    | _ => trivial

/-- A source of one file. -/
def oneFile (mtime : Int64) : Source := fun path =>
  if path = [['s']] then some (.file 1 mtime) else none

/-- A tree of one output over it, with an empty cache. -/
def keepsOne : Readings where
  world := { World.keepsOne with source := oneFile 1 }

theorem keepsOne_reachable {ok : Readings → ReadEvent → Prop} :
    (machine contentHash true).Reachable ok keepsOne :=
  .start ⟨_, ⟨.only { output := [['a']], text := ['1'] }, 0, oneFile 1,
    ({} : Cache).forget [], _, ⟨{}, 1, by simp, rfl⟩, rfl⟩, rfl⟩

/-- The first build of the output reads the file. -/
def readsFile : List ReadEvent := World.runsA.map .tree ++ [.read 0 [['s']]]

/-- It ends, and is kept but for the last step. -/
def keepsReader : List ReadEvent :=
  [.tree (.coordinator (.finish 0)), .tree (.endWork 0 (.built [1] [[['s']]])),
    .tree (.publish 0 5), .tree (.write 0), .tree (.settle 0), .tree (.complete 0),
    .tree (.beginKeeping 0), .tree (.stamp 0)]

/-- The file changes and the tree is told so. -/
def editsFile : List ReadEvent :=
  [.tree (.editSource (oneFile 2)), .tree (.sourceChange false [[['s']]] none),
    .tree (.resume 0 true), .tree (.resume 0 true), .tree (.resume 0 true)]

theorem records_as_read_file :
    ∃ s, (machine (fun _ => []) true).Reachable Noticed s ∧ s.enabled (.tree (.store 0 true)) ∧
      s.StoresAsRead (fun _ => []) true (.tree (.store 0 true)) ∧
      ⟨{ output := [['a']], text := ['1'] }, [], 5, [{ path := [['s']], mtime := 1, size := 1 }]⟩ ∈
        (s.step (fun _ => []) true (.tree (.store 0 true))).world.cache.records := by
  have hcheck : ∀ (s : Readings) e, (s.fires e && s.noticed e) = true →
      (machine (fun _ => []) true).enabled s e ∧ s.Noticed e := by
    intro s e h
    rw [Bool.and_eq_true] at h
    exact ⟨enabled_of_fires h.1, noticed_sound h.2⟩
  have hreachable := keepsOne_reachable.runs_of_allPass hcheck (readsFile ++ keepsReader)
    (by decide +kernel)
  have he := enabled_of_fires (s := (machine (fun _ => []) true).runs keepsOne
    (readsFile ++ keepsReader)) (e := .tree (.store 0 true)) (by decide +kernel)
  exact ⟨_, hreachable, he, records_as_read hreachable he, by decide +kernel⟩

/-- Of an output's first build the tree has no inputs to go by, so a change to a file it has read
goes unnoticed, and the record names the file as it is after the change. -/
theorem records_outdated : ¬∀ s, (machine (fun _ => []) true).Reachable (fun _ _ => True) s →
    ∀ e, s.enabled e → s.StoresAsRead (fun _ => []) true e := by
  intro hall
  have hcheck : ∀ (s : Readings) e, s.fires e = true →
      (machine (fun _ => []) true).enabled s e ∧ True :=
    fun s e h => ⟨enabled_of_fires h, trivial⟩
  have hreachable := keepsOne_reachable.runs_of_allPass hcheck
    (readsFile ++ editsFile ++ keepsReader) (by decide +kernel)
  have he := enabled_of_fires (s := (machine (fun _ => []) true).runs keepsOne
    (readsFile ++ editsFile ++ keepsReader)) (e := .tree (.store 0 true)) (by decide +kernel)
  rcases hall _ hreachable _ he ⟨{ output := [['a']], text := ['1'] }, [], 5,
    [{ path := [['s']], mtime := 2, size := 1 }]⟩ (by decide +kernel) with hold | hnew
  · exact absurd hold (by decide +kernel)
  · obtain ⟨b, bytes, heq, -, -, hread⟩ := hnew
    cases heq
    have hlooked := hread _ (List.mem_singleton_self _)
      (some { path := [['s']], mtime := 1, size := 1 }) (by decide +kernel)
    exact absurd hlooked (by decide)

end Readings

end MakeBelieve.Tree
