import MakeBelieve.Tree.Fires
import MakeBelieve.Tree.Placed

namespace MakeBelieve.Tree

open Coordinator (AttemptId)
open Library

/-- `k_generated_prefix` -/
def generatedPrefix : List Char := ['@', '/']

/-- The output a command copies, if it copies one. -/
def Command.copies (command : Command) : Option Path :=
  if command.action = .copy ∧ command.text.take 2 = generatedPrefix then
    some ((command.text.drop 2).splitOn '/')
  else none

/-- `k_chunk` -/
def chunkSize : Nat := 64 * 1024

/-- What is read of a file from `offset` on. -/
def readChunk (bytes : Bytes) (offset : Nat) : Bytes := (bytes.drop offset).take chunkSize

/-- How far `copy_output` has come. -/
inductive CopyPhase
  | idle
  | waiting (target : AttemptId)
  /-- About to look at the source's status, in `read_all`. -/
  | waited
  /-- In the loop of `read_all`, with what was read so far. -/
  | reading (content : Bytes)
  | returned (result : BuildResult)
  deriving DecidableEq

def CopyPhase.result : CopyPhase → Option BuildResult
  | .returned result => some result
  | _ => none

/-- The tree with the copies its builds make of other outputs. -/
structure Copies where
  world : World
  copy : BuildId → CopyPhase := fun _ => .idle

inductive CopyEvent
  | tree (e : Event)
  | ask (b : BuildId)
  /-- The wait is over: answered, or stopped. -/
  | waitEnds (b : BuildId) (answer : Option ErrorCode)
  /-- What there is if there is no file is a directory, or nothing. -/
  | status (b : BuildId) (missing : ErrorCode)
  | read (b : BuildId) (missing : ErrorCode)

namespace Copies

variable (contentHash : Bytes → Hash) (cached : Bool) (s : Copies)

def source (b : BuildId) : Option Path := (s.world.builds b).launch.command.copies

/-- The source's file, as the tree has it now. -/
def file (b : BuildId) : Option File := (s.source b).bind s.world.tree.files

/-- How a copy fails, which read its source in any case. -/
def fails (b : BuildId) (error : ErrorCode) : BuildResult :=
  .failed error ((s.source b).toList.map asInput)

def setCopy (b : BuildId) (phase : CopyPhase) : Copies :=
  { s with copy := Function.update s.copy b phase }

def ask (b : BuildId) : Copies :=
  match s.source b with
  | none => s
  | some source =>
    { s.setCopy b (match (s.world.tree.bringUpToDate source).1.target with
        | some target => .waiting target
        | none => .waited) with
      world := s.world.bringUpToDate source }

def waitEnds (b : BuildId) : Option ErrorCode → Copies
  | none => s.setCopy b (.returned (.failed .operationCanceled []))
  | some .success => s.setCopy b .waited
  | some error => s.setCopy b (.returned (s.fails b error))

def status (b : BuildId) (missing : ErrorCode) : Copies :=
  match s.file b with
  | some _ => s.setCopy b (.reading [])
  | none => s.setCopy b (.returned (s.fails b missing))

/-- One round of the loop of `read_all`. -/
def read (b : BuildId) (missing : ErrorCode) : Copies :=
  match s.copy b, s.file b with
  | .reading content, some file =>
    let chunk := readChunk file.bytes content.length
    if chunk.length < chunkSize then
      s.setCopy b (.returned (.built (content ++ chunk) ((s.source b).toList.map asInput)))
    else s.setCopy b (.reading (content ++ chunk))
  | .reading _, none => s.setCopy b (.returned (s.fails b missing))
  | _, _ => s

def step : CopyEvent → Copies
  | .tree e => { s with world := s.world.step contentHash cached e }
  | .ask b => s.ask b
  | .waitEnds b answer => s.waitEnds b answer
  | .status b missing => s.status b missing
  | .read b missing => s.read b missing

/-- The work of a build that copies an output ends as the copy returns, with its result. -/
def allows : Event → Bool
  | .coordinator (.finish a) => decide (∀ b < s.world.buildCount,
      (s.world.builds b).launch.attempt = a → (s.world.builds b).stage = .working →
        (s.source b).isSome → (s.copy b).result.isSome)
  | .endWork b result => decide ((s.source b).isSome →
      (s.world.system.coord.attempts (s.world.builds b).launch.attempt).phase = .ended →
        (s.copy b).result = some result)
  | _ => true

def enabled : CopyEvent → Prop
  | .tree e => s.world.enabled e ∧ s.allows e = true
  | .ask b => b < s.world.buildCount ∧ (s.world.builds b).stage = .working ∧
      (s.world.system.coord.attempts (s.world.builds b).launch.attempt).phase = .running ∧
      (s.source b).isSome ∧ s.copy b = .idle
  | .waitEnds b answer => ∃ target, s.copy b = .waiting target ∧
      (answer = some .success →
        (s.world.system.coord.attempts target).result = some .success)
  | .status b _ => s.copy b = .waited
  | .read b _ => ∃ content, s.copy b = .reading content

/-- Copies under any interleaving with builds of what they copy. -/
def machine : Machine Copies CopyEvent where
  init s := ∃ w, World.Starts contentHash cached w ∧ s = { world := w }
  enabled := enabled
  step := step contentHash cached

/-- The machine with every content that the tree has held at each path. -/
def versions : Machine (Copies × (Path → List Bytes)) CopyEvent :=
  (machine contentHash cached).noting (fun _ _ => []) fun s _ seen o =>
    seen o ++ (s.world.tree.files o).toList.map File.bytes

/-- Whatever is published of an output begins with what its copies under way have read of it. -/
def GoesOn (s : Copies) : CopyEvent → Prop
  | .tree (.write c) => ∀ b content bytes inputs builtAt keep, s.copy b = .reading content →
      s.source b = some (s.world.builds c).launch.output →
        (s.world.builds c).stage = .writing (.built bytes inputs) builtAt keep → content <+: bytes
  | .tree (.resume now _) => ∀ b content output todo, s.copy b = .reading content →
      s.world.todo = .writePlaceholder output :: todo → s.source b = some output →
        content <+: (State.placeholder now).bytes
  | _ => True

variable {contentHash cached s} {b c : BuildId} {e : CopyEvent} {seen : Path → List Bytes}
variable {phase : CopyPhase}

/-! ### A copy reads one version -/

/-- A short chunk is the rest of the file. -/
theorem readChunk_short {bytes content : Bytes} (h : content <+: bytes)
    (hshort : (readChunk bytes content.length).length < chunkSize) :
    content ++ readChunk bytes content.length = bytes := by
  obtain ⟨rest, rfl⟩ := h
  unfold readChunk at hshort ⊢
  rw [List.drop_left] at hshort ⊢
  rw [List.length_take] at hshort
  rw [List.take_of_length_le (by omega)]

theorem readChunk_prefix {bytes content : Bytes} (h : content <+: bytes) :
    content ++ readChunk bytes content.length <+: bytes := by
  obtain ⟨rest, rfl⟩ := h
  unfold readChunk
  rw [List.drop_left]
  exact (List.prefix_append_right_inj content).mpr (List.take_prefix _ rest)

/-- What a copy returns is a version of its source. -/
def OneVersion (s : Copies) (seen : Path → List Bytes) : Prop :=
  ∀ b bytes inputs, s.copy b = .returned (.built bytes inputs) →
    ∃ source, s.source b = some source ∧ bytes ∈ seen source

/-- What a copy has read is how its source's file begins. -/
structure Whole (s : Copies) (seen : Path → List Bytes) : Prop where
  made : ∀ b, s.copy b ≠ .idle → b < s.world.buildCount
  begun : ∀ b content file, s.copy b = .reading content → s.file b = some file →
    content <+: file.bytes
  returned : s.OneVersion seen

theorem setCopy_self (s : Copies) (b : BuildId) (phase : CopyPhase) :
    (s.setCopy b phase).copy b = phase := Function.update_self ..

theorem setCopy_of_ne (s : Copies) (phase : CopyPhase) (h : c ≠ b) :
    (s.setCopy b phase).copy c = s.copy c := Function.update_of_ne h ..

/-- A copy that goes on keeps its source's file as it is. -/
theorem Whole.setCopy (h : Whole s seen) (hb : b < s.world.buildCount)
    (hreading : ∀ content file, phase = .reading content → s.file b = some file →
      content <+: file.bytes)
    (hreturned : ∀ bytes inputs, phase = .returned (.built bytes inputs) →
      ∃ source, s.source b = some source ∧ bytes ∈ seen source) :
    Whole (s.setCopy b phase) seen := by
  refine ⟨fun c hc => ?_, fun c content file hc hfile => ?_, fun c bytes inputs hc => ?_⟩ <;>
    by_cases hcb : c = b
  · rwa [hcb]
  · rw [setCopy_of_ne s phase hcb] at hc
    exact h.made c hc
  · subst hcb
    rw [setCopy_self] at hc
    exact hreading content file hc hfile
  · rw [setCopy_of_ne s phase hcb] at hc
    exact h.begun c content file hc hfile
  · subst hcb
    rw [setCopy_self] at hc
    exact hreturned bytes inputs hc
  · rw [setCopy_of_ne s phase hcb] at hc
    exact h.returned c bytes inputs hc

theorem Whole.more (h : Whole s seen) (more : Path → List Bytes) :
    Whole s fun o => seen o ++ more o := by
  refine ⟨h.made, h.begun, fun b bytes inputs hc => ?_⟩
  obtain ⟨source, hsource, hin⟩ := h.returned b bytes inputs hc
  exact ⟨source, hsource, List.mem_append_left _ hin⟩

theorem file_eq_some {file : File} (h : s.file b = some file) :
    ∃ source, s.source b = some source ∧ s.world.tree.files source = some file :=
  Option.bind_eq_some_iff.mp h

theorem Whole.read (h : Whole s seen) (missing : ErrorCode) (he : s.enabled (.read b missing)) :
    Whole (s.read b missing) fun o => seen o ++ (s.world.tree.files o).toList.map File.bytes := by
  obtain ⟨content, hc⟩ := he
  have hb := h.made b (by simp [hc])
  have hmore := h.more fun o => (s.world.tree.files o).toList.map File.bytes
  unfold Copies.read
  cases hfile : s.file b with
  | none =>
    rw [hc]
    refine hmore.setCopy hb nofun fun bytes inputs heq => ?_
    simp [fails] at heq
  | some file =>
    rw [hc]
    have hbegun := h.begun b content file hc hfile
    dsimp only
    split
    · next hshort =>
      refine hmore.setCopy hb nofun fun bytes inputs heq => ?_
      simp only [CopyPhase.returned.injEq, BuildResult.built.injEq] at heq
      rw [readChunk_short hbegun hshort] at heq
      obtain ⟨rfl, _⟩ := heq
      obtain ⟨source, hsource, hfile⟩ := file_eq_some hfile
      refine ⟨source, hsource, List.mem_append_right _ ?_⟩
      simp [hfile]
    · refine hmore.setCopy hb (fun content' file' heq hfile' => ?_) nofun
      simp only [CopyPhase.reading.injEq] at heq
      obtain rfl := Option.some.inj (hfile.symm.trans hfile')
      rw [← heq]
      exact readChunk_prefix hbegun

/-- What the tree does, where its files go on as the copies of them began. -/
theorem Whole.tree (h : Whole s seen) {w : World} (hon : World.Onward s.world w)
    (hfiles : ∀ b content source file, s.copy b = .reading content → s.source b = some source →
      w.tree.files source = some file → content <+: file.bytes) :
    Whole { s with world := w } seen := by
  have hsource : ∀ b, s.copy b ≠ .idle → (w.builds b).launch.command.copies = s.source b :=
    fun b hb => congrArg (fun launch => launch.command.copies) (hon.launch b (h.made b hb))
  refine ⟨fun b hb => Nat.lt_of_lt_of_le (h.made b hb) hon.buildCount,
    fun b content file hc hfile => ?_, fun b bytes inputs hc => ?_⟩
  · have hc : s.copy b = .reading content := hc
    obtain ⟨source, hof, hfile⟩ := file_eq_some hfile
    have hof : (w.builds b).launch.command.copies = some source := hof
    rw [hsource b (by simp [hc])] at hof
    exact hfiles b content source file hc hof hfile
  · have hc : s.copy b = .returned (.built bytes inputs) := hc
    obtain ⟨source, hof, hin⟩ := h.returned b bytes inputs hc
    exact ⟨source, (hsource b (by simp [hc])).trans hof, hin⟩

theorem Whole.step (h : Whole s seen) (he : s.enabled e) (hok : s.GoesOn e) :
    Whole (s.step contentHash cached e) fun o =>
      seen o ++ (s.world.tree.files o).toList.map File.bytes := by
  have hmore := h.more fun o => (s.world.tree.files o).toList.map File.bytes
  have hsame : ∀ {b content source file}, s.copy b = .reading content →
      s.source b = some source → s.world.tree.files source = some file → content <+: file.bytes :=
    fun hc hsource hfile => h.begun _ _ _ hc (Option.bind_eq_some_iff.mpr ⟨_, hsource, hfile⟩)
  cases e with
  | tree e =>
    refine hmore.tree (World.step_onward s.world e) fun b content source file hc hsource hfile => ?_
    have hplaces := @World.step_places contentHash cached s.world e he.1 source
    cases hplaces with
    | same hfiles =>
      rw [hfiles] at hfile
      exact hsame hc hsource hfile
    | written hstage hout hfiles =>
      rw [hfiles] at hfile
      obtain rfl := Option.some.inj hfile
      exact hok b content _ _ _ _ hc (hout ▸ hsource) hstage
    | removed _ hfiles =>
      rw [hfiles] at hfile
      simp at hfile
    | placed htodo hfiles =>
      rw [hfiles] at hfile
      obtain rfl := Option.some.inj hfile
      exact hok b content source _ hc htodo hsource
  | ask b =>
    obtain ⟨hb, _, _, hcopies, _⟩ := he
    obtain ⟨source, hsource⟩ := Option.isSome_iff_exists.mp hcopies
    have hon := @World.step_onward contentHash cached s.world (.bringUpToDate source)
    have hasked := hmore.tree hon fun c content source' file hc hsource' hfile => by
      cases @World.step_places contentHash cached s.world (.bringUpToDate source) trivial source' with
      | same hfiles =>
        rw [hfiles] at hfile
        exact hsame hc hsource' hfile
    show Whole (s.ask b) _
    unfold Copies.ask
    rw [hsource]
    refine hasked.setCopy (Nat.lt_of_lt_of_le hb hon.buildCount)
      (fun content file heq => ?_) (fun bytes inputs heq => ?_) <;> split at heq <;> simp at heq
  | waitEnds b answer =>
    obtain ⟨target, hc, _⟩ := he
    have hb := h.made b (by simp [hc])
    show Whole (s.waitEnds b answer) _
    unfold Copies.waitEnds
    split <;> exact hmore.setCopy hb nofun nofun
  | status b missing =>
    have hc : s.copy b = .waited := he
    have hb := h.made b (by simp [hc])
    show Whole (s.status b missing) _
    unfold Copies.status
    split
    · refine hmore.setCopy hb (fun content file heq _ => ?_) nofun
      simp only [CopyPhase.reading.injEq] at heq
      rw [← heq]
      exact List.nil_prefix
    · exact hmore.setCopy hb nofun nofun
  | read b missing => exact h.read missing he

theorem whole {s : Copies × (Path → List Bytes)}
    (h : (versions contentHash cached).Reachable (fun s => GoesOn s.1) s) : Whole s.1 s.2 := by
  refine h.invariant (P := fun s : Copies × (Path → List Bytes) => Whole s.1 s.2) ?_ fun s e hs he hok => hs.step he hok
  rintro ⟨s, seen⟩ ⟨⟨w, _, hs⟩, _⟩
  obtain rfl : s = { world := w } := hs
  exact ⟨fun b hb => absurd rfl hb, nofun, nofun⟩

/-- Where all that is published of an output goes on as its copies under way have begun, what a
copy returns is one version of its source. -/
theorem copies_one_version {s : Copies × (Path → List Bytes)}
    (h : (versions contentHash cached).Reachable (fun s => GoesOn s.1) s) :
    s.1.OneVersion s.2 :=
  (whole h).returned

/-! ### A copy read on both sides of a build of its source -/

/-- Whether a step is seen to be enabled. -/
def fires (s : Copies) : CopyEvent → Bool
  | .tree e => s.world.fires e && s.allows e
  | .ask b => decide (b < s.world.buildCount ∧ (s.world.builds b).stage = .working ∧
      (s.world.system.coord.attempts (s.world.builds b).launch.attempt).phase = .running ∧
      (s.source b).isSome ∧ s.copy b = .idle)
  | .status b _ => decide (s.copy b = .waited)
  | _ => false

theorem enabled_of_fires (h : s.fires e = true) : s.enabled e := by
  cases e with
  | tree e =>
    rw [fires, Bool.and_eq_true] at h
    exact ⟨World.enabled_of_fires h.1, h.2⟩
  | ask b => simpa [fires, enabled] using h
  | status b missing => simpa [fires, enabled] using h
  | waitEnds | read => simp [fires] at h

def declaresCopy : Commands where
  entries := [{ output := [['a']] }, { output := [['b']], action := .copy, text := ['@', '/', 'a'] }]

/-- A tree that declares an output and a copy of it. -/
def copiesOne : Copies where
  world :=
    { tree := constructed declaresCopy 0
      origin := fun output =>
        if (constructed declaresCopy 0).declared output then
          some (if (constructed declaresCopy 0).stale output then .placeholder else .restored)
        else none }

theorem copiesOne_starts {ok : Copies × (Path → List Bytes) → CopyEvent → Prop} :
    (versions (fun _ => []) false).Reachable ok (copiesOne, fun _ => []) :=
  .start ⟨⟨_, ⟨declaresCopy, 0, fun _ => none, {}, _, ⟨rfl, rfl⟩, rfl⟩, rfl⟩, rfl⟩

/-- A build of `a` comes to `bytes`. -/
def builds (b : BuildId) (bytes : Bytes) : List CopyEvent :=
  [.tree (.launch b .ran), .tree (.coordinator (.onPermit b)), .tree (.coordinator (.finish b)),
    .tree (.endWork b (.built bytes [])), .tree (.publish b 1), .tree (.write b)]

/-- The output is built, and the copy of it comes to its first read. -/
def copyBegins (bytes : Bytes) : List CopyEvent :=
  .tree (.bringUpToDate [['a']]) :: builds 0 bytes ++
    [.tree (.settle 0), .tree (.complete 0), .tree (.bringUpToDate [['b']]),
      .tree (.launch 1 .ran), .tree (.coordinator (.onPermit 1)), .ask 1, .status 1 .success]

/-- A change to the source has the output built again. -/
def rebuilds (bytes : Bytes) : List CopyEvent :=
  .tree (.sourceChange true [] none) :: List.replicate 4 (.tree (.resume 0 true)) ++ builds 2 bytes

theorem read_full {content : Bytes} {file : File} (missing : ErrorCode)
    (hc : s.copy b = .reading content) (hfile : s.file b = some file)
    (hfull : (readChunk file.bytes content.length).length = chunkSize) :
    s.read b missing = s.setCopy b (.reading (content ++ readChunk file.bytes content.length)) := by
  unfold Copies.read
  rw [hc, hfile]
  simp [hfull]

theorem read_short {content : Bytes} {file : File} (missing : ErrorCode)
    (hc : s.copy b = .reading content) (hfile : s.file b = some file)
    (hshort : (readChunk file.bytes content.length).length < chunkSize) :
    s.read b missing = s.setCopy b (.returned (.built
      (content ++ readChunk file.bytes content.length) ((s.source b).toList.map asInput))) := by
  unfold Copies.read
  rw [hc, hfile]
  simp [hshort]

/-- As long as one read. -/
def firstVersion : Bytes := List.replicate chunkSize 1

def secondVersion : Bytes := List.replicate (chunkSize + 1) 2

theorem readChunk_first : readChunk firstVersion 0 = firstVersion := by
  rw [readChunk, firstVersion, List.drop_zero, List.take_replicate, Nat.min_self]

theorem readChunk_second : readChunk secondVersion firstVersion.length = [2] := by
  rw [readChunk, firstVersion, secondVersion, List.length_replicate, List.drop_replicate,
    Nat.add_sub_cancel_left, List.take_replicate]
  rfl

abbrev begunCopy : Copies × (Path → List Bytes) :=
  (versions (fun _ => []) false).runs (copiesOne, fun _ => []) (copyBegins firstVersion)

/-- What was served of each output, by the time of a step after these. -/
def seenBy (s : Copies × (Path → List Bytes)) (o : Path) : List Bytes :=
  s.2 o ++ (s.1.world.tree.files o).toList.map File.bytes

/-- The first version is read. -/
abbrev readFirst : Copies × (Path → List Bytes) :=
  (begunCopy.1.setCopy 1 (.reading firstVersion), seenBy begunCopy)

/-- The second is published before the next read. -/
abbrev rebuiltMidway : Copies × (Path → List Bytes) :=
  (versions (fun _ => []) false).runs readFirst (rebuilds secondVersion)

theorem reads {s : Copies × (Path → List Bytes)} {content : Bytes}
    (h : (versions (fun _ => []) false).Reachable (fun _ _ => True) s)
    (hc : s.1.copy b = .reading content) :
    (versions (fun _ => []) false).Reachable (fun _ _ => True) (s.1.read b .success, seenBy s) :=
  Machine.Reachable.next (e := CopyEvent.read b .success) h ⟨content, hc⟩ trivial

theorem rebuiltMidway_reachable :
    (versions (fun _ => []) false).Reachable (fun _ _ => True) rebuiltMidway := by
  have hcheck : ∀ (s : Copies × (Path → List Bytes)) e, s.1.fires e = true →
      (versions (fun _ => []) false).enabled s e ∧ True := fun s e h => ⟨enabled_of_fires h, trivial⟩
  have hbegun : (versions (fun _ => []) false).Reachable (fun _ _ => True) begunCopy :=
    copiesOne_starts.runs_of_allPass hcheck _ (by decide +kernel)
  have hc : begunCopy.1.copy 1 = .reading [] := rfl
  have hfile : begunCopy.1.file 1 = some ⟨firstVersion, 1⟩ := rfl
  have hlength : (readChunk firstVersion ([] : Bytes).length).length = chunkSize := by
    rw [List.length_nil, readChunk_first]
    exact List.length_replicate
  have hread : (versions (fun _ => []) false).Reachable (fun _ _ => True) readFirst := by
    have hnext := reads hbegun hc
    rw [read_full .success hc hfile hlength] at hnext
    rwa [List.length_nil, List.nil_append, readChunk_first] at hnext
  exact hread.runs_of_allPass hcheck _ (by decide +kernel)

/-- What the copy returns is no version of its source, but one followed by the end of the next. -/
theorem copy_mixed : ¬∀ s : Copies × (Path → List Bytes),
    (versions (fun _ => []) false).Reachable (fun _ _ => True) s → s.1.OneVersion s.2 := by
  intro hall
  have hc : rebuiltMidway.1.copy 1 = .reading firstVersion := rfl
  have hfile : rebuiltMidway.1.file 1 = some ⟨secondVersion, 1⟩ := rfl
  have hreturned := reads rebuiltMidway_reachable hc
  rw [read_short .success hc hfile (by rw [readChunk_second]; decide), readChunk_second] at hreturned
  obtain ⟨source, hsource, hin⟩ := hall _ hreturned 1 (firstVersion ++ [2]) _ (setCopy_self _ _ _)
  obtain rfl : [['a']] = source := Option.some.inj hsource
  have hseen : seenBy rebuiltMidway [['a']] = List.replicate 7 [0] ++
      (List.replicate 19 firstVersion ++ [secondVersion]) := rfl
  have hin : firstVersion ++ [2] ∈ seenBy rebuiltMidway [['a']] := hin
  have hone : (1 : UInt8) ∈ firstVersion ++ [2] :=
    List.mem_append_left _ (List.mem_replicate.mpr ⟨by decide, rfl⟩)
  have htwo : (2 : UInt8) ∈ firstVersion ++ [2] := List.mem_append_right _ (List.mem_singleton_self 2)
  rw [hseen, List.mem_append, List.mem_append, List.mem_singleton] at hin
  obtain hin | hin | hin := hin
  · rw [List.eq_of_mem_replicate hin] at hone
    exact absurd hone (by decide)
  · rw [List.eq_of_mem_replicate hin] at htwo
    exact absurd (List.eq_of_mem_replicate htwo) (by decide)
  · rw [hin] at hone
    exact absurd (List.eq_of_mem_replicate hone) (by decide)

/-- Whether nothing is published. -/
def quiet : CopyEvent → Bool
  | .tree (.write _) | .tree (.resume _ _) => false
  | _ => true

theorem goesOn_of_quiet (h : quiet e = true) : s.GoesOn e := by
  cases e with
  | tree e => cases e <;> trivial
  | _ => trivial

/-- With nothing published midway, the copy returns what its source was built to. -/
theorem copies_one_version_unbroken : ∃ s : Copies × (Path → List Bytes),
    s.1.copy 1 = .returned (.built [1] [asInput [['a']]]) ∧ s.1.OneVersion s.2 := by
  have hcheck : ∀ (s : Copies × (Path → List Bytes)) e, (s.1.fires e && quiet e) = true →
      (versions (fun _ => []) false).enabled s e ∧ GoesOn s.1 e := fun s e h => by
    rw [Bool.and_eq_true] at h
    exact ⟨enabled_of_fires h.1, goesOn_of_quiet h.2⟩
  have hbuilt := copiesOne_starts.runs_of_allPass hcheck
    (.tree (.bringUpToDate [['a']]) :: (builds 0 [1]).take 5) (by decide +kernel)
  have hwritten := hbuilt.next (e := CopyEvent.tree (.write 0))
    ⟨World.enabled_of_fires (by decide +kernel), rfl⟩ (fun b content _ _ _ _ hc => nomatch hc)
  have hbegun := hwritten.runs_of_allPass hcheck ((copyBegins [1]).drop 7) (by decide +kernel)
  have hread := hbegun.next (e := CopyEvent.read 1 .success) ⟨[], rfl⟩ trivial
  exact ⟨_, by decide +kernel, copies_one_version hread⟩

end Copies

end MakeBelieve.Tree
