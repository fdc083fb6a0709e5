import MakeBelieve.Tree.Attempts
import MakeBelieve.Tree.Fires
import MakeBelieve.Tree.Layout
import MakeBelieve.Tree.Served

namespace MakeBelieve.Tree

open Library Memo MakeBelieve.Tree.InMemoryDirectoryTree

/-- Whether a task adds or removes an output's file. -/
def Task.file : Task → Bool
  | .removeFile _ | .writePlaceholder _ => true
  | _ => false

/-- Whether one task may come some time before another: each file is removed or added once, and none
is removed once one has been added. -/
def Task.Apart : Task → Task → Prop
  | .removeFile output, other => other ≠ .removeFile output
  | .writePlaceholder output, other =>
    other ≠ .writePlaceholder output ∧ ∀ removed, other ≠ .removeFile removed
  | _, _ => True

theorem Task.Sequence.no_files {head : Task} {todo : List Task} (h : Sequence (head :: todo))
    (hhead : head.file = false) : ∀ task ∈ head :: todo, task.file = false := by
  have hlate : ∀ task : Task, task.late = true → task.file = false := by
    intro task hlate
    cases task <;> simp [Task.late, Task.file] at hlate ⊢
  intro task hmem
  obtain rfl | hrest := List.mem_cons.mp hmem
  · exact hhead
  · cases head with
    | removeFile | writePlaceholder => simp [Task.file] at hhead
    | applyRules commands =>
      obtain ⟨d, p, rfl⟩ := h
      rw [List.mem_singleton.mp hrest]
      rfl
    | _ => exact hlate task (h task hrest)

theorem Task.pairwise_apart {todo : List Task} (h : ∀ task ∈ todo, task.file = false) :
    todo.Pairwise Task.Apart := by
  refine List.pairwise_of_forall_mem_list fun task hmem _ _ => ?_
  have := h task hmem
  cases task <;> simp [Task.file, Task.Apart] at this ⊢

/-- Whether outputs that new rules declare can be laid out together. -/
def Event.Lays : Event → Prop
  | .sourceChange _ _ (some rules) => Layable fun output => (rules.find output).isSome
  | _ => True

namespace World

variable {contentHash : Bytes → Hash} {cached : Bool}
variable {w w' : World} {b : BuildId} {o : Path} {e : Event} {layout : Option InMemoryDirectoryTree}

/-- `m_structure` once a step has been made, if none of its assertions has failed by then. -/
def noteLayout (w : World) (e : Event) (layout : Option InMemoryDirectoryTree) :
    Option InMemoryDirectoryTree :=
  match e with
  | .write b =>
    match (w.builds b).stage with
    | .writing (.built bytes _) builtAt _ =>
      layout.bind fun t => t.writeFile (w.builds b).launch.output ⟨bytes, builtAt⟩
    | _ => layout
  | .resume now _ =>
    match w.todo with
    | .removeFile output :: _ => layout.bind fun t => t.removeWithEmptyParents output
    | .writePlaceholder output :: _ =>
      layout.bind fun t => t.addOutput output (State.placeholder now)
    | _ => layout
  | _ => layout

/-- `m_structure` as the constructor leaves it: each output added, and those restored written. -/
def constructedLayout (w : World) : Option InMemoryDirectoryTree :=
  let outputs := w.tree.commands.entries.map Command.output
  let file := fun output => (w.tree.files output).getD (State.placeholder 0)
  (outputs.foldlM (fun (t : InMemoryDirectoryTree) output => t.addOutput output
    (if w.tree.stale output then file output else State.placeholder 0)) {}).bind fun t =>
      (outputs.filter fun output => !w.tree.stale output).foldlM
        (fun (t : InMemoryDirectoryTree) output => t.writeFile output (file output)) t

/-- The tree's machine, begun with outputs that can be laid out, with `m_structure` noted. -/
def layouts (contentHash : Bytes → Hash) (cached : Bool) :
    Machine (World × Option InMemoryDirectoryTree) Event :=
  ((machine contentHash cached).limit fun w =>
    Layable fun output => w.tree.declared output = true).noting constructedLayout noteLayout

/-- What of the outputs is laid out, with the callback at any point of what it has to do. -/
structure Mirrored (w : World) (layout : Option InMemoryDirectoryTree) : Prop where
  layable : Layable fun output => w.tree.declared output = true
  given : ∀ commands, .applyRules commands ∈ w.todo →
    Layable fun output => (commands.find output).isSome
  ordered : w.todo.Pairwise Task.Apart
  adding : ∀ o, .writePlaceholder o ∈ w.todo → w.tree.declared o = true
  writing : ∀ b, (w.builds b).stage.writes = true →
    w.tree.declared (w.builds b).launch.output = true
  laid : ∀ o, Laid w.tree.files o ↔
    w.tree.declared o = true ∧ .writePlaceholder o ∉ w.todo ∨ .removeFile o ∈ w.todo
  free : Layable (Laid w.tree.files)
  tree : ∃ t, layout = some t ∧ t.Mirrors w.tree.files (Ancestor w.tree.files)

/-- Nothing but the write of a build and the callback changes a file. -/
theorem step_files_same (hwrite : ∀ b, e ≠ .write b)
    (hresume : ∀ now ok, e = .resume now ok → ∀ task todo, w.todo = task :: todo →
      task.file = false) : (w.step contentHash cached e).tree.files = w.tree.files := by
  cases e with
  | bringUpToDate output => exact (w.brought output).files
  | startNext output =>
    exact (brought_startBuild { w with starting := w.starting.erase output } output).files
  | recordRead reader output =>
    show (w.tree.recordRead reader output).files = _
    unfold State.recordRead
    split <;> rfl
  | materializeAll | sourceChange => rfl
  | publish b builtAt =>
    show (w.publish contentHash cached b builtAt).tree.files = _
    unfold World.publish State.publish
    dsimp only
    split
    · split
      · rfl
      · cases cached <;> rfl
    · rfl
  | write b => exact absurd rfl (hwrite b)
  | settle b =>
    show (w.settle b).tree.files = _
    unfold World.settle
    split
    · exact (w.landed b _ _).files
    · exact (w.landed b _ _).files
    · rfl
  | resume now ok =>
    show (w.resume now ok).tree.files = _
    unfold World.resume
    split
    · rfl
    · next commands todo _ =>
      show (w.tree.takeCommands commands).2.files = _
      rw [(w.tree.takeCommands_taken commands).only]
    · next output todo htodo => simpa [Task.file] using hresume now ok rfl _ _ htodo
    · next output todo htodo => simpa [Task.file] using hresume now ok rfl _ _ htodo
    · rfl
    · rfl
    · rfl
    · rfl
    · next outputs todo _ =>
      show (w.tree.invalidate outputs).state.files = _
      rw [(w.tree.invalidate_marked outputs).only]
    · next output todo _ => exact (brought_startBuild { w with todo } output).files
  | launch | endWork | complete | completeOrphaned | beginKeeping | stamp | store | editSource
  | coordinator => rw [(step_aside rfl).tree]

/-- A build writes the content of an output that was declared when it came to. -/
theorem writing_declared (h : ∀ b, (w.builds b).stage.writes = true →
      w.tree.declared (w.builds b).launch.output = true) (hs : Sound w) (he : w.enabled e)
    (hb : ((w.step contentHash cached e).builds b).stage.writes = true) :
    w.tree.declared ((w.step contentHash cached e).builds b).launch.output = true := by
  by_cases hown : e.build = some b
  · rw [(@step_onward contentHash cached w e).launch b (hs.build_lt he hown)]
    have hstep := @Sound.stepped contentHash cached w b e hs he hown
    generalize ((w.step contentHash cached e).builds b).stage = stage at hstep hb
    cases hstep with
    | published builtAt hs' hc =>
      unfold State.declared
      rw [hc]
      rfl
    | unwritten hs' => exact h b (by rw [hs']; rfl)
    | completed | orphanCompleted =>
      rw [(afterRelease_locks _ _).1] at hb
      simp at hb
    | _ => simp [Stage.writes] at hb
  · obtain ⟨_, hsame⟩ | ⟨_, hown'⟩ | ⟨_, hnew | hover⟩ :=
      @Sound.step_builds contentHash cached w e hs he b
    · rw [hsame] at hb ⊢
      exact h b hb
    · exact absurd hown' hown
    · rw [hnew.1] at hb
      simp [Stage.writes] at hb
    · rw [hover] at hb
      simp [Stage.writes] at hb

/-- Nothing is laid out anew by a step that leaves the files, the rules and the files yet to be
added or removed as they are. -/
theorem Mirrored.still (h : Mirrored w layout) (hfiles : w'.tree.files = w.tree.files)
    (hdeclared : w'.tree.declared = w.tree.declared)
    (htodo : w'.todo = w.todo ∨
      (∀ task ∈ w.todo, task.file = false) ∧ ∀ task ∈ w'.todo, task.file = false)
    (hgiven : ∀ commands, .applyRules commands ∈ w'.todo →
      Layable fun output => (commands.find output).isSome)
    (hwriting : ∀ b, (w'.builds b).stage.writes = true →
      w'.tree.declared (w'.builds b).launch.output = true) : Mirrored w' layout := by
  have hmem : ∀ task : Task, task.file = true → (task ∈ w'.todo ↔ task ∈ w.todo) := by
    intro task htask
    obtain heq | ⟨hnone, hnone'⟩ := htodo
    · rw [heq]
    · refine iff_of_false (fun hin => ?_) fun hin => ?_
      · rw [hnone' task hin] at htask
        simp at htask
      · rw [hnone task hin] at htask
        simp at htask
  refine ⟨by rw [hdeclared]; exact h.layable, hgiven, ?_, fun o hin => ?_, hwriting, fun o => ?_,
    by rw [hfiles]; exact h.free, by rw [hfiles]; exact h.tree⟩
  · obtain heq | ⟨_, hnone'⟩ := htodo
    · rw [heq]
      exact h.ordered
    · exact Task.pairwise_apart hnone'
  · rw [hdeclared]
    exact h.adding o ((hmem _ rfl).mp hin)
  · rw [hfiles, hdeclared, hmem _ rfl, hmem _ rfl]
    exact h.laid o

/-- A build's content goes into a file that is there. -/
theorem Mirrored.write (h : Mirrored w layout) (ho : Orderly w) {bytes : Bytes}
    {inputs : List Path} {builtAt : Int64} {keep : Option Keep}
    (hstage : (w.builds b).stage = .writing (.built bytes inputs) builtAt keep) :
    Mirrored (w.write b)
      (layout.bind fun t => t.writeFile (w.builds b).launch.output ⟨bytes, builtAt⟩) := by
  let output := (w.builds b).launch.output
  have hwrites : (w.builds b).stage.writes = true := by rw [hstage]; rfl
  -- The callback does nothing to the files meanwhile.
  have hnone : ∀ task ∈ w.todo, task.file = false := by
    intro task hmem
    by_contra hfile
    have hin : task.inLayout = true := by
      cases task <;> simp [Task.file, Task.inLayout] at hfile ⊢
    have hheld := ho.layout ⟨task, hmem, hin⟩
    rw [ho.writing b hwrites] at hheld
    simp at hheld
  have hlaid : Laid w.tree.files output := by
    refine (h.laid output).mpr (.inl ⟨h.writing b hwrites, fun hin => ?_⟩)
    have := hnone _ hin
    simp [Task.file] at this
  obtain ⟨t, rfl, hmirrors⟩ := h.tree
  obtain ⟨t', hwrite, hmirrors'⟩ := hmirrors.rewrite h.free ⟨bytes, builtAt⟩ hlaid
  have hsame : ∀ o, Laid (Function.update w.tree.files output (some ⟨bytes, builtAt⟩)) o ↔
      Laid w.tree.files o := by
    intro o
    by_cases heq : o = output
    · unfold Laid at hlaid ⊢
      simp [heq, hlaid]
    · simp [Laid, heq]
  have hdef : w.write b = { w.setStage b (.published (.built bytes inputs) keep) with
      tree := w.tree.writeFile output ⟨bytes, builtAt⟩
      layout := none
      origin := Function.update w.origin output (some (.build b)) } := by
    unfold World.write
    simp only [hstage]
    rfl
  rw [hdef, Option.bind_some, hwrite]
  refine ⟨h.layable, h.given, h.ordered, h.adding, fun c hc => ?_,
    fun o => (hsame o).trans (h.laid o), h.free.of_subset fun o => (hsame o).mp, t', rfl, hmirrors'⟩
  by_cases hcb : c = b
  · rw [hcb] at hc
    have hc' : ((w.setStage b (.published (.built bytes inputs) keep)).builds b).stage.writes =
        true := hc
    rw [setStage_self] at hc'
    simp [Stage.writes] at hc'
  · have hsetc : (w.setStage b (.published (.built bytes inputs) keep)).builds c = w.builds c :=
      setStage_of_ne w hcb _
    have hc' : ((w.setStage b (.published (.built bytes inputs) keep)).builds c).stage.writes =
        true := hc
    rw [hsetc] at hc'
    exact (congrArg (fun build : Build => w.tree.declared build.launch.output) hsetc).trans
      (h.writing c hc')

/-- An output that has lost its rule loses its file. -/
theorem Mirrored.removeFile (h : Mirrored w layout) (ho : Orderly w) {output : Path}
    {todo : List Task} (htodo : w.todo = .removeFile output :: todo) (now : Int64) (ok : Bool) :
    Mirrored (w.resume now ok) (layout.bind fun t => t.removeWithEmptyParents output) := by
  have hmem : .removeFile output ∈ w.todo := by rw [htodo]; exact List.mem_cons_self ..
  have hlaid : Laid w.tree.files output := (h.laid output).mpr (.inr hmem)
  have hundeclared := ho.removing output hmem
  obtain ⟨t, rfl, hmirrors⟩ := h.tree
  obtain ⟨t', hremove, hmirrors'⟩ := hmirrors.removeWithEmptyParents h.free hlaid
  have hordered := h.ordered
  rw [htodo, List.pairwise_cons] at hordered
  have htail : ∀ task ∈ todo, task ∈ w.todo := fun task hin => by
    rw [htodo]
    exact List.mem_cons_of_mem _ hin
  have hlaid' : ∀ o, Laid (Function.update w.tree.files output none) o ↔
      Laid w.tree.files o ∧ o ≠ output := by
    intro o
    by_cases heq : o = output
    · simp [Laid, heq]
    · simp [Laid, heq]
  have hdef : w.resume now ok = { w with
      tree := w.tree.removeFile output, todo
      origin := Function.update w.origin output none } := by
    unfold World.resume
    simp only [htodo]
  rw [hdef, Option.bind_some, hremove]
  refine ⟨h.layable, fun commands hin => h.given commands (htail _ hin), hordered.2,
    fun o hin => h.adding o (htail _ hin), h.writing, fun o => ?_,
    h.free.of_subset fun o ho => ((hlaid' o).mp ho).1, t', rfl, hmirrors'⟩
  refine (hlaid' o).trans ?_
  rw [h.laid, htodo]
  show _ ↔ w.tree.declared o = true ∧ .writePlaceholder o ∉ todo ∨ .removeFile o ∈ todo
  by_cases heq : o = output
  · subst heq
    have hnot : .removeFile o ∉ todo := fun hin => hordered.1 _ hin rfl
    simp [hundeclared, hnot]
  · simp [heq]

/-- An output that has come to be declared gets its placeholder. -/
theorem Mirrored.writePlaceholder (h : Mirrored w layout) {output : Path}
    {todo : List Task} (htodo : w.todo = .writePlaceholder output :: todo) (now : Int64)
    (ok : Bool) : Mirrored (w.resume now ok)
      (layout.bind fun t => t.addOutput output (State.placeholder now)) := by
  have hmem : .writePlaceholder output ∈ w.todo := by rw [htodo]; exact List.mem_cons_self ..
  have hdeclared := h.adding output hmem
  have hordered := h.ordered
  rw [htodo, List.pairwise_cons] at hordered
  have hnone : ∀ o, .removeFile o ∉ w.todo := by
    intro o hin
    rw [htodo] at hin
    obtain heq | hin := List.mem_cons.mp hin
    · simp at heq
    · exact (hordered.1 _ hin).2 o rfl
  have hnew : ¬Laid w.tree.files output := by
    rw [h.laid]
    rintro (⟨_, hnot⟩ | hin)
    · exact hnot hmem
    · exact hnone output hin
  have htail : ∀ task ∈ todo, task ∈ w.todo := fun task hin => by
    rw [htodo]
    exact List.mem_cons_of_mem _ hin
  have hlaid' : ∀ o,
      Laid (Function.update w.tree.files output (some (State.placeholder now))) o ↔
        w.tree.declared o = true ∧ .writePlaceholder o ∉ todo ∨ .removeFile o ∈ todo := by
    intro o
    have hnot : .removeFile o ∉ todo := fun hin => hnone o (htail _ hin)
    by_cases heq : o = output
    · subst heq
      have hnot' : .writePlaceholder o ∉ todo := fun hin => (hordered.1 _ hin).1 rfl
      simp [Laid, hdeclared, hnot']
    · have hold := h.laid o
      rw [htodo] at hold
      simpa [Laid, heq] using hold
  have hfree : Layable
      (Laid (Function.update w.tree.files output (some (State.placeholder now)))) := by
    refine h.layable.of_subset fun o hlaid => ?_
    obtain ⟨hd, _⟩ | hin := (hlaid' o).mp hlaid
    · exact hd
    · exact absurd (htail _ hin) (hnone o)
  obtain ⟨t, rfl, hmirrors⟩ := h.tree
  obtain ⟨t', hadd, hmirrors'⟩ := hmirrors.addOutput (State.placeholder now) hfree hnew
  have hdef : w.resume now ok = { w with
      tree := w.tree.writeFile output (State.placeholder now), todo
      origin := Function.update w.origin output (some .placeholder) } := by
    unfold World.resume
    simp only [htodo]
  rw [hdef, Option.bind_some, hadd]
  exact ⟨h.layable, fun commands hin => h.given commands (htail _ hin), hordered.2,
    fun o hin => h.adding o (htail _ hin), h.writing, hlaid', hfree, t', rfl, hmirrors'⟩

/-- New rules are taken with every file still as it was. -/
theorem Mirrored.applyRules (h : Mirrored w layout) (ho : Orderly w) {commands : Commands}
    {todo : List Task} (htodo : w.todo = .applyRules commands :: todo) (hfree : w.layout = none)
    (now : Int64) (ok : Bool) : Mirrored (w.resume now ok) layout := by
  have hseq := ho.sequence
  rw [htodo] at hseq
  have hnone := hseq.no_files rfl
  rw [← htodo] at hnone
  obtain ⟨d, p, rfl⟩ := hseq
  let changes := w.tree.changesTo commands
  have ht := w.tree.takeCommands_taken commands
  have hdeclared : ∀ o, (w.tree.takeCommands commands).2.declared o = (commands.find o).isSome := by
    intro o
    rw [ht.only]
    rfl
  have hfiles : (w.tree.takeCommands commands).2.files = w.tree.files := by rw [ht.only]
  have hremove : ∀ o, .removeFile o ∈ (changes.removed.map Task.removeFile ++
      changes.added.map Task.writePlaceholder ++
        [.leaveLayout, .collectReaders changes, .collectAffected d p]) ↔
        w.tree.declared o = true ∧ commands.find o = none := by
    intro o
    rw [← State.mem_removed]
    simp [changes]
  have hadd : ∀ o, .writePlaceholder o ∈ (changes.removed.map Task.removeFile ++
      changes.added.map Task.writePlaceholder ++
        [.leaveLayout, .collectReaders changes, .collectAffected d p]) ↔
        w.tree.declared o = false ∧ (commands.find o).isSome := by
    intro o
    rw [← State.mem_added]
    simp [changes]
  have hold : ∀ o, Laid w.tree.files o ↔ w.tree.declared o = true := by
    intro o
    rw [h.laid]
    constructor
    · rintro (⟨hd, _⟩ | hin)
      · exact hd
      · have := hnone _ hin
        simp [Task.file] at this
    · intro hd
      refine .inl ⟨hd, fun hin => ?_⟩
      have := hnone _ hin
      simp [Task.file] at this
  have hdef : w.resume now ok = { w with
      tree := (w.tree.takeCommands commands).2
      layout := some .callback
      todo := changes.removed.map Task.removeFile ++ changes.added.map Task.writePlaceholder ++
        [.leaveLayout, .collectReaders changes, .collectAffected d p] } := by
    unfold World.resume
    simp only [htodo]
    rfl
  rw [hdef]
  refine ⟨?_, fun other hin => ?_, ?_, fun o hin => ?_, fun b hb => ?_, fun o => ?_,
    by rw [hfiles]; exact h.free, by rw [hfiles]; exact h.tree⟩
  · simp only [hdeclared]
    exact h.given commands (by rw [htodo]; exact List.mem_cons_self ..)
  · simp at hin
  · have hrest : ([.leaveLayout, .collectReaders changes, .collectAffected d p] :
        List Task).Pairwise Task.Apart :=
      Task.pairwise_apart (by simp [Task.file])
    refine List.pairwise_append.mpr ⟨List.pairwise_append.mpr ⟨?_, ?_, ?_⟩, hrest, ?_⟩
    · refine List.Pairwise.map _ (fun o o' hne heq => hne ?_) State.removed_nodup
      exact (Task.removeFile.inj heq).symm
    · refine List.Pairwise.map _ (fun o o' hne => ⟨fun heq => hne ?_, by simp⟩) State.added_nodup
      exact (Task.writePlaceholder.inj heq).symm
    · intro task hmem task' hmem'
      obtain ⟨o, _, rfl⟩ := List.mem_map.mp hmem
      obtain ⟨o', _, rfl⟩ := List.mem_map.mp hmem'
      simp [Task.Apart]
    · intro task hmem task' hmem'
      obtain hmem | hmem := List.mem_append.mp hmem
      · obtain ⟨o, _, rfl⟩ := List.mem_map.mp hmem
        rintro rfl
        simp at hmem'
      · obtain ⟨o, _, rfl⟩ := List.mem_map.mp hmem
        refine ⟨?_, fun o' => ?_⟩
        · rintro rfl
          simp at hmem'
        · rintro rfl
          simp at hmem'
  · rw [hdeclared]
    exact ((hadd o).mp hin).2
  · rw [ho.writing b hb] at hfree
    simp at hfree
  · rw [hfiles, hold, hdeclared, hremove, hadd]
    cases w.tree.declared o <;> cases commands.find o <;> simp

theorem Mirrored.step (h : Mirrored w layout) (hs : Sound w) (ho : Orderly w) (he : w.enabled e)
    (hok : e.Lays) : Mirrored (w.step contentHash cached e) (noteLayout w e layout) := by
  have hwriting : ∀ b, ((w.step contentHash cached e).builds b).stage.writes = true →
      w.tree.declared ((w.step contentHash cached e).builds b).launch.output = true :=
    fun b hb => writing_declared h.writing hs he hb
  -- Where neither files nor rules change, nothing does.
  have hstill : ∀ {w' : World}, w' = w.step contentHash cached e →
      w'.tree.files = w.tree.files → w'.tree.commands = w.tree.commands →
      (w'.todo = w.todo ∨
        (∀ task ∈ w.todo, task.file = false) ∧ ∀ task ∈ w'.todo, task.file = false) →
      (∀ commands, .applyRules commands ∈ w'.todo →
        Layable fun output => (commands.find output).isSome) → Mirrored w' layout := by
    rintro w' rfl hfiles hcommands htodo hgiven
    have hdeclared : (w.step contentHash cached e).tree.declared = w.tree.declared := by
      unfold State.declared
      rw [hcommands]
    exact h.still hfiles hdeclared htodo hgiven (by rw [hdeclared]; exact hwriting)
  by_cases hresume : ∃ now ok, e = .resume now ok
  · obtain ⟨now, ok, rfl⟩ := hresume
    obtain ⟨task, todo, htodo, hfree⟩ := id he
    have hseq := ho.sequence
    rw [htodo] at hseq
    show Mirrored (w.resume now ok) (noteLayout w (.resume now ok) layout)
    have hother : task.file = false → (∀ commands, task ≠ .applyRules commands) →
        Mirrored (w.resume now ok) layout := by
      intro hfile hnot
      have hnone := hseq.no_files hfile
      rw [← htodo] at hnone
      have hfiles : (w.step contentHash cached (.resume now ok)).tree.files = w.tree.files :=
        step_files_same (by simp) fun _ _ _ task' _ htodo' =>
          hnone task' (by rw [htodo']; exact List.mem_cons_self ..)
      refine hstill rfl hfiles ?_ (.inr ⟨hnone, fun later hmem => ?_⟩) fun commands hin => ?_
      · obtain heq | ⟨_, _, commands, todo', _, htodo'⟩ :=
          @step_commands contentHash cached w (.resume now ok)
        · exact heq
        · exact absurd (List.cons.inj (htodo.symm.trans htodo')).1 (hnot commands)
      · by_contra hlater
        have hform : ∃ output, later = .removeFile output ∨ later = .writePlaceholder output := by
          cases later <;> simp [Task.file] at hlater ⊢
        obtain hold | ⟨_, _, commands, todo', _, htodo', _⟩ :=
          @step_files contentHash cached w (.resume now ok) _ hform hmem
        · exact hlater (hnone later hold)
        · exact hnot commands (List.cons.inj (htodo.symm.trans htodo')).1
      · obtain hold | hlate | ⟨_, _, _, hnew⟩ := w.resume_todo now ok hin
        · exact h.given commands hold
        · simp [Task.late] at hlate
        · simp at hnew
    unfold noteLayout
    simp only [htodo]
    cases task with
    | removeFile output => exact h.removeFile ho htodo now ok
    | writePlaceholder output => exact h.writePlaceholder htodo now ok
    | applyRules commands => exact h.applyRules ho htodo hfree now ok
    | _ => exact hother rfl (by simp)
  by_cases hwrite : ∃ b, e = .write b
  · obtain ⟨b, rfl⟩ := hwrite
    obtain ⟨result, builtAt, keep, hstage⟩ := id he
    unfold noteLayout
    simp only [hstage]
    cases result with
    | built bytes inputs => exact h.write ho hstage
    | failed error inputs =>
      have hsame : w.step contentHash cached (.write b) = w := by
        show w.write b = w
        unfold World.write
        simp only [hstage]
      rw [hsame]
      exact h
  · have hnote : noteLayout w e layout = layout := by
      cases e with
      | write b => exact absurd ⟨b, rfl⟩ hwrite
      | resume now ok => exact absurd ⟨now, ok, rfl⟩ hresume
      | _ => rfl
    rw [hnote]
    have hfiles : (w.step contentHash cached e).tree.files = w.tree.files :=
      step_files_same (fun b heq => hwrite ⟨b, heq⟩) fun now ok heq => absurd ⟨now, ok, heq⟩ hresume
    have hcommands : (w.step contentHash cached e).tree.commands = w.tree.commands := by
      obtain hsame | ⟨now, ok, _, _, heq, _⟩ := @step_commands contentHash cached w e
      · exact hsame
      · exact absurd ⟨now, ok, heq⟩ hresume
    by_cases hchange : ∃ d p r, e = .sourceChange d p r
    · obtain ⟨d, p, r, rfl⟩ := hchange
      have hnone : w.todo = [] := he
      refine hstill rfl hfiles hcommands (.inr ⟨by simp [hnone], fun task hmem => ?_⟩)
        fun commands hin => ?_
      · have hmem' : task ∈ (r.map Task.applyRules).toList ++ [.collectAffected d p] := hmem
        cases r <;> simp at hmem' <;> rcases hmem' with rfl | rfl <;> rfl
      · have hin' : .applyRules commands ∈ (r.map Task.applyRules).toList ++
            [.collectAffected d p] := hin
        cases r with
        | none => simp at hin'
        | some rules =>
          simp at hin'
          subst hin'
          exact hok
    · have htodo : (w.step contentHash cached e).todo = w.todo :=
        step_todo (fun d p r heq => hchange ⟨d, p, r, heq⟩) fun n k heq => hresume ⟨n, k, heq⟩
      exact hstill rfl hfiles hcommands (.inl htodo) (by rw [htodo]; exact h.given)

/-- Adding outputs one after the other lays each of them out. -/
theorem foldlM_addOutput {t : InMemoryDirectoryTree} {files : Path → Option File}
    {outputs : List Path} (file : Path → File) (h : t.Mirrors files (Ancestor files))
    (hnd : outputs.Nodup) (hnew : ∀ o ∈ outputs, ¬Laid files o)
    (hl : Layable fun o => Laid files o ∨ o ∈ outputs) :
    ∃ t', outputs.foldlM (fun (t : InMemoryDirectoryTree) o => t.addOutput o (file o)) t = some t' ∧
      t'.Mirrors (fun o => if o ∈ outputs then some (file o) else files o)
        (Ancestor fun o => if o ∈ outputs then some (file o) else files o) := by
  induction outputs generalizing t files with
  | nil => exact ⟨t, rfl, by simpa using h⟩
  | cons output outputs ih =>
    obtain ⟨hnot, hnd⟩ := List.nodup_cons.mp hnd
    let files' := Function.update files output (some (file output))
    have hlaid : ∀ o, Laid files' o ↔ Laid files o ∨ o = output := by
      intro o
      by_cases heq : o = output
      · simp [Laid, files', heq]
      · simp [Laid, files', heq]
    obtain ⟨t', hadd, hmirrors⟩ := @h.addOutput _ output _ (file output)
      (hl.of_subset fun o ho => ((hlaid o).mp ho).imp id fun heq => by simp [heq])
      (hnew output (List.mem_cons_self ..))
    obtain ⟨t'', hrest, hmirrors'⟩ := ih hmirrors hnd
      (fun o ho hold => by
        obtain hold | rfl := (hlaid o).mp hold
        · exact hnew o (List.mem_cons_of_mem _ ho) hold
        · exact hnot ho)
      (hl.of_subset fun o ho => by
        obtain ho | ho := ho
        · obtain hold | rfl := (hlaid o).mp ho
          · exact .inl hold
          · exact .inr (List.mem_cons_self ..)
        · exact .inr (List.mem_cons_of_mem _ ho))
    have hfiles : (fun o => if o ∈ outputs then some (file o) else files' o) =
        fun o => if o ∈ output :: outputs then some (file o) else files o := by
      funext o
      by_cases heq : o = output
      · simp [files', heq]
      · simp [files', heq]
    rw [hfiles] at hmirrors'
    refine ⟨t'', ?_, hmirrors'⟩
    rw [List.foldlM_cons, hadd]
    exact hrest

/-- Writing over files one after the other leaves them laid out. -/
theorem foldlM_writeFile {t : InMemoryDirectoryTree} {files : Path → Option File}
    {outputs : List Path} (file : Path → File) (h : t.Mirrors files (Ancestor files))
    (hlaid : ∀ o ∈ outputs, Laid files o) (hl : Layable (Laid files)) :
    ∃ t', outputs.foldlM (fun (t : InMemoryDirectoryTree) o => t.writeFile o (file o)) t = some t' ∧
      t'.Mirrors (fun o => if o ∈ outputs then some (file o) else files o)
        (Ancestor fun o => if o ∈ outputs then some (file o) else files o) := by
  induction outputs generalizing t files with
  | nil => exact ⟨t, rfl, by simpa using h⟩
  | cons output outputs ih =>
    let files' := Function.update files output (some (file output))
    have hlaid' : ∀ o, Laid files' o ↔ Laid files o := by
      intro o
      by_cases heq : o = output
      · have hold := hlaid output (List.mem_cons_self ..)
        unfold Laid at hold ⊢
        simp [files', heq, hold]
      · simp [Laid, files', heq]
    obtain ⟨t', hwrite, hmirrors⟩ := h.rewrite hl (file output) (hlaid output (List.mem_cons_self ..))
    obtain ⟨t'', hrest, hmirrors'⟩ := ih hmirrors
      (fun o ho => (hlaid' o).mpr (hlaid o (List.mem_cons_of_mem _ ho)))
      (hl.of_subset fun o => (hlaid' o).mp)
    have hfiles : (fun o => if o ∈ outputs then some (file o) else files' o) =
        fun o => if o ∈ output :: outputs then some (file o) else files o := by
      funext o
      by_cases heq : o = output
      · simp [files', heq]
      · simp [files', heq]
    rw [hfiles] at hmirrors'
    refine ⟨t'', ?_, hmirrors'⟩
    rw [List.foldlM_cons, hwrite]
    exact hrest

/-- The constructor serves a file for each declared output. -/
theorem Starts.files (h : Starts contentHash cached w) (o : Path) :
    Laid w.tree.files o ↔ w.tree.declared o = true := by
  obtain ⟨commands, mtime, source, cache, tree, htree, rfl⟩ := h
  have hconstructed : ∀ o, Laid (constructed commands mtime).files o ↔
      (commands.find o).isSome = true := by
    intro o
    rw [constructed_eq]
    unfold Laid
    dsimp only
    split <;> simp_all
  show Laid tree.files o ↔ tree.declared o = true
  cases cached with
  | false =>
    obtain ⟨_, rfl⟩ := htree
    rw [hconstructed, constructed_eq]
    rfl
  | true =>
    obtain ⟨before, n, hn, hrun⟩ := htree
    obtain ⟨kept, t, hrun', hexactly⟩ := @restoreFromCache_exactly source contentHash before n hn _
      (constructed_inverse commands mtime)
    obtain ⟨rfl, rfl⟩ := Prod.mk.inj (Option.some.inj (hrun.symm.trans hrun'))
    have hdeclared : tree.declared o = (commands.find o).isSome := by
      rw [hexactly.only, constructed_eq]
      rfl
    rw [hdeclared]
    by_cases hrestored : o ∈ least (cacheConds source contentHash before
        (constructed commands mtime).commands)
    · obtain ⟨record, hmem, rfl, hfind, _⟩ := (isLeast_restorable.1 o).mp hrestored
      obtain ⟨bytes, _, hserved⟩ := hexactly.served record hmem hrestored
      have hcommands : (constructed commands mtime).commands = commands := by rw [constructed_eq]
      rw [hcommands] at hfind
      simp [Laid, hserved.files, hfind]
    · rw [Laid, (hexactly.others o hrestored).files]
      exact hconstructed o

/-- What the constructor lays out is what the tree serves. -/
theorem Starts.mirrored (h : Starts contentHash cached w)
    (hl : Layable fun o => w.tree.declared o = true) : Mirrored w (constructedLayout w) := by
  have hfiles := h.files
  obtain ⟨_, _, _, _, hw⟩ := h.begins
  have hover : ∀ b, (w.builds b).stage = .over := fun b => by rw [hw]
  have htodo : w.todo = [] := by rw [hw]
  have hmem : ∀ o, o ∈ w.tree.commands.entries.map Command.output ↔ w.tree.declared o = true := by
    intro o
    unfold State.declared
    rw [Commands.find_isSome, List.mem_map]
  have hempty : ({} : InMemoryDirectoryTree).Mirrors (fun _ => Option.none)
      (Ancestor fun _ => Option.none) := by
    have hfind : ∀ path, ({} : InMemoryDirectoryTree).find path =
        if path = [] then some (.directory 0) else none := by
      intro path
      cases path <;> simp [find]
    refine ⟨fun path file => ?_, fun path => ?_⟩
    · rw [hfind]
      split <;> simp
    · rw [isDirectory_iff, hfind]
      split
      · next hroot => simp [Ancestor, hroot]
      · next hroot => simp [Ancestor, hroot, Laid]
  have hset : (fun o => Laid (fun _ => Option.none) o ∨
      o ∈ w.tree.commands.entries.map Command.output) = fun o => w.tree.declared o = true := by
    funext o
    simp only [hmem, eq_iff_iff]
    simp [Laid]
  let file := fun output => (w.tree.files output).getD (State.placeholder 0)
  let first := fun output => if w.tree.stale output then file output else State.placeholder 0
  obtain ⟨t, hadded, hmirrors⟩ := foldlM_addOutput first hempty w.tree.commands.nodup
    (fun o _ => by simp [Laid]) (by rw [hset]; exact hl)
  have hfirst : ∀ o, Laid (fun o => if o ∈ w.tree.commands.entries.map Command.output then
      some (first o) else none) o ↔ w.tree.declared o = true := by
    intro o
    rw [← hmem, Laid]
    split
    · next hin => exact iff_of_true rfl hin
    · next hin => exact iff_of_false (by simp) hin
  obtain ⟨t', hwritten, hmirrors'⟩ := @foldlM_writeFile _ _
    ((w.tree.commands.entries.map Command.output).filter fun o => !w.tree.stale o) file hmirrors
    (fun o ho => (hfirst o).mpr ((hmem o).mp (List.mem_filter.mp ho).1))
    (hl.of_subset fun o => (hfirst o).mp)
  have hserved : (fun o => if o ∈ (w.tree.commands.entries.map Command.output).filter
      (fun o => !w.tree.stale o) then some (file o)
      else if o ∈ w.tree.commands.entries.map Command.output then some (first o) else none) =
      w.tree.files := by
    funext o
    by_cases hin : o ∈ w.tree.commands.entries.map Command.output
    · have hlaid := (hfiles o).mpr ((hmem o).mp hin)
      obtain ⟨held, hheld⟩ := Option.isSome_iff_exists.mp hlaid
      have hfile : file o = held := by simp only [file, hheld, Option.getD_some]
      by_cases hstale : w.tree.stale o = true
      · have hnot : o ∉ (w.tree.commands.entries.map Command.output).filter
            (fun o => !w.tree.stale o) := fun hmem' => by simp [hstale] at hmem'
        rw [if_neg hnot, if_pos hin, hheld]
        simp only [first, hstale, if_true, hfile]
      · have hrestored : o ∈ (w.tree.commands.entries.map Command.output).filter
            (fun o => !w.tree.stale o) := List.mem_filter.mpr ⟨hin, by simpa using hstale⟩
        rw [if_pos hrestored, hfile, hheld]
    · have hnot : o ∉ (w.tree.commands.entries.map Command.output).filter
          (fun o => !w.tree.stale o) := fun hmem' => hin (List.mem_filter.mp hmem').1
      have hnone : w.tree.files o = none := by
        rw [← Option.not_isSome_iff_eq_none]
        exact fun hsome => hin ((hmem o).mpr ((hfiles o).mp hsome))
      rw [if_neg hnot, if_neg hin, hnone]
  rw [hserved] at hmirrors'
  refine ⟨hl, by simp [htodo], by simp [htodo], by simp [htodo], fun b hb => ?_, fun o => ?_,
    hl.of_subset fun o => (hfiles o).mp, t', ?_, hmirrors'⟩
  · rw [hover] at hb
    simp [Stage.writes] at hb
  · rw [hfiles, htodo]
    simp
  · unfold constructedLayout
    dsimp only
    rw [hadded, Option.bind_some]
    exact hwritten

theorem mirrored {s : World × Option InMemoryDirectoryTree}
    (h : (layouts contentHash cached).Reachable (fun _ e => e.Lays) s) : Mirrored s.1 s.2 := by
  refine h.invariant_under (Q := fun s => Sound s.1 ∧ Orderly s.1)
    (P := fun s => Mirrored s.1 s.2) (fun s hs => ?_) (fun s hstart => ?_)
    fun s e ⟨hs, ho⟩ hm he hok => hm.step hs ho he hok
  · have hworld := hs.unnoted.unlimited
    exact ⟨sound hworld, orderly hworld⟩
  · obtain ⟨⟨hstarts, hl⟩, hnote⟩ := hstart
    rw [hnote]
    exact Starts.mirrored hstarts hl

/-- However rules come and go and builds finish in between, `m_structure` is changed only as its
preconditions allow, serves the tree's files and, while no rules are being applied, has the declared
outputs for files and no directory but the root and those above them. -/
theorem layout_mirrors {s : World × Option InMemoryDirectoryTree}
    (h : (layouts contentHash cached).Reachable (fun _ e => e.Lays) s) :
    ∃ t, s.2 = some t ∧
      (∀ path file, t.find path = some (.file file) ↔ s.1.tree.files path = some file) ∧
      (s.1.layout ≠ some .callback →
        (∀ path, (∃ file, t.find path = some (.file file)) ↔ s.1.tree.declared path = true) ∧
        ∀ path, (∃ mtime, t.find path = some (.directory mtime)) ↔
          path = [] ∨ ∃ output, s.1.tree.declared output = true ∧ Above path output) := by
  have hm := mirrored h
  have ho := orderly h.unnoted.unlimited
  obtain ⟨t, ht, hmirrors⟩ := hm.tree
  refine ⟨t, ht, hmirrors.file, fun hidle => ?_⟩
  have hlaid : ∀ o, Laid s.1.tree.files o ↔ s.1.tree.declared o = true := by
    intro o
    have hnone : ∀ task : Task, task.file = true → task ∉ s.1.todo := by
      intro task hfile hmem
      refine hidle (ho.layout ⟨task, hmem, ?_⟩)
      cases task <;> simp [Task.file, Task.inLayout] at hfile ⊢
    have hadd := hnone (.writePlaceholder o) rfl
    have hremove := hnone (.removeFile o) rfl
    rw [hm.laid]
    simp [hadd, hremove]
  refine ⟨fun path => ?_, fun path => ?_⟩
  · rw [← hlaid, Laid, Option.isSome_iff_exists]
    simp only [hmirrors.file]
  · rw [← isDirectory_iff, hmirrors.directory]
    unfold Ancestor
    simp only [hlaid]

/-- Whether rules' outputs are seen to be such as can be laid out. -/
def layable (commands : Commands) : Bool :=
  decide (∀ command ∈ commands.entries, NormalPath command.output ∧ command.output ≠ []) &&
    decide (∀ command ∈ commands.entries, ∀ other ∈ commands.entries,
      command.output.isPrefixOf other.output = true → command.output = other.output)

theorem layable_sound {commands : Commands} (h : layable commands = true) :
    Layable fun output => (commands.find output).isSome := by
  unfold layable at h
  rw [Bool.and_eq_true, decide_eq_true_eq, decide_eq_true_eq] at h
  obtain ⟨hnormal, hfree⟩ := h
  refine ⟨fun o ho => ?_, fun o o' ho ho' hpre => ?_⟩
  · obtain ⟨command, hmem, rfl⟩ := Commands.find_isSome.mp ho
    exact hnormal command hmem
  · obtain ⟨command, hmem, rfl⟩ := Commands.find_isSome.mp ho
    obtain ⟨other, hmem', rfl⟩ := Commands.find_isSome.mp ho'
    exact hfree command hmem other hmem' (List.isPrefixOf_iff_prefix.mpr hpre)

def lays : Event → Bool
  | .sourceChange _ _ (some rules) => layable rules
  | _ => true

theorem lays_sound (h : lays e = true) : e.Lays := by
  unfold lays at h
  split at h
  · exact layable_sound h
  · next hnot =>
    unfold Event.Lays
    split
    · next d p rules => exact absurd rfl (hnot d p rules)
    · trivial

/-- The one output's path comes to be a directory's, with another output in it. -/
def movesA : List Event :=
  [.sourceChange true [] (some (.only { output := [['a'], ['b']] })),
    .resume 0 true, .resume 0 true, .resume 0 true, .resume 0 true]

theorem declaresOne_laid {ok : World × Option InMemoryDirectoryTree → Event → Prop} :
    (layouts (fun _ => []) false).Reachable ok (declaresOne, constructedLayout declaresOne) :=
  .start ⟨⟨declaresOne_starts, layable_sound (by decide)⟩, rfl⟩

theorem layout_mirrors_movesA :
    ∃ t, ((layouts (fun _ => []) false).runs (declaresOne, constructedLayout declaresOne)
        movesA).2 = some t ∧
      (∃ file, t.find [['a'], ['b']] = some (.file file)) ∧
      ∃ mtime, t.find [['a']] = some (.directory mtime) := by
  have hfires : (layouts (fun _ => []) false).Fires (fun _ e => e.Lays)
      (declaresOne, constructedLayout declaresOne) movesA :=
    fires_of_allFire_of rfl rfl declaresOne_laid
      (fun _ _ _ => lays_sound) (by decide +kernel)
  obtain ⟨t, ht, _, hidle⟩ := layout_mirrors (declaresOne_laid.runs hfires)
  obtain ⟨hfile, hdirectory⟩ := hidle (by decide +kernel)
  exact ⟨t, ht, (hfile _).mpr (by decide +kernel),
    (hdirectory _).mpr (.inr ⟨[['a'], ['b']], by decide +kernel, ⟨[['b']], rfl⟩, by decide⟩)⟩

end World

end MakeBelieve.Tree
