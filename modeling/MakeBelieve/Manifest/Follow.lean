import Mathlib.Data.List.Induction
import MakeBelieve.Manifest.Rules
import MakeBelieve.Tree.Callback
import MakeBelieve.Tree.Fires

namespace MakeBelieve.Manifest

open Library
open MakeBelieve.Tree (Command Commands EntryInfo Task World Bytes Hash)

structure Diff where
  everythingDirty : Bool := false
  entriesChanged : List Path := []
  childListsChanged : List Path := []

def manifestName : Path := ["build.makebelieve".toList]

/-- `read_rules`: the rules of the source's manifest, unless it cannot be read or is rejected. No
manifest at all means no rules. -/
def readRules (parse : List Char → Option (List Rule)) (source : SourceTree) : Option (List Rule) :=
  if source.status manifestName = none then some []
  else (source.read manifestName).bind parse

/-- The manifest's rules in force, with the directories that `set_rules` watches for them, and the
source tree as the last diff found it. -/
structure Following where
  source : SourceTree
  rules : List Rule
  directories : List Path

/-- A directory, its components listed last first, and those above it that are not in yet. -/
def addDirectories : List Name → List Path → List Path
  | [], directories => if [] ∈ directories then directories else [] :: directories
  | name :: rest, directories =>
    if (name :: rest).reverse ∈ directories then directories
    else addDirectories rest ((name :: rest).reverse :: directories)

/-- `m_wildcard_directories` -/
def wildcardDirectories (rules : List Rule) : List Path :=
  rules.foldl (fun directories rule =>
    if rule.isWildcard then addDirectories rule.wildcardSource.dropLast.reverse directories
    else directories) []

/-- Whether `on_source_change` has the manifest read anew. -/
def Diff.rereads (diff : Diff) : Bool :=
  diff.everythingDirty || decide (manifestName ∈ diff.entriesChanged)

def Following.watches (f : Following) (diff : Diff) : Bool :=
  diff.childListsChanged.any fun directory =>
    decide (Tree.lexicallyNormal directory ∈ f.directories)

/-- The part of `on_source_change` before anything is invalidated: what it applies, if anything,
and what is in force after, unless expanding rules takes more than the fuel. -/
def Following.onSourceChange (parse : List Char → Option (List Rule)) (f : Following)
    (source : SourceTree) (diff : Diff) (fuel : Nat) : Option (Option Commands × Following) :=
  if diff.rereads then
    match readRules parse source with
    -- Reported, with the rules in force kept.
    | none => some (none, { f with source })
    | some rules => (expandRules fuel source rules).map fun commands =>
        (some commands, { source, rules, directories := wildcardDirectories rules })
  else if f.watches diff then
    (expandRules fuel source f.rules).map fun commands => (some commands, { f with source })
  else some (none, { f with source })

/-- Whether there is a file, as a pattern sees it, a directory or nothing. -/
def isFile (info : Option EntryInfo) : Option Bool :=
  info.map fun
    | .file _ _ => true
    | .directory _ => false

/-- Whether a directory lists the same files and directories, and can be listed, as before. -/
def SameChildren (source source' : SourceTree) (directory : Path) : Prop :=
  (∀ name, isFile (source.status (directory ++ [name])) =
    isFile (source'.status (directory ++ [name]))) ∧
  (source.ls directory).isSome = (source'.ls directory).isSome

/-- A diff says all that has changed, or that anything may have: each entry but directories that
were there and are, and each of these whose child list is another. -/
def Truthful (source source' : SourceTree) (diff : Diff) : Prop :=
  diff.everythingDirty = true ∨
    (∀ path, (source.status path ≠ source'.status path ∨ source.read path ≠ source'.read path) →
      ¬(isFile (source.status path) = some false ∧ isFile (source'.status path) = some false) →
      path ∈ diff.entriesChanged) ∧
    ∀ directory mtime mtime', source.status directory = some (.directory mtime) →
      source'.status directory = some (.directory mtime') →
      ¬SameChildren source source' directory → directory ∈ diff.childListsChanged

inductive Event
  | world (e : Tree.Event)
  | change (source : SourceTree) (diff : Diff) (fuel : Nat)

section

variable (parse : List Char → Option (List Rule)) (contentHash : Bytes → Hash) (cached : Bool)

/-- The tree with the source tree and the manifest it follows: a change of the source comes with a
diff, which is let through once the one before has been dealt with. -/
def machine : Machine (World × Following) Event where
  init s := World.Starts contentHash cached s.1 ∧ readRules parse s.2.source = some s.2.rules ∧
    s.2.directories = wildcardDirectories s.2.rules ∧
    Expands s.2.source s.2.rules s.1.tree.commands
  enabled s
    | .world e => s.1.enabled e ∧ ∀ d p r, e ≠ .sourceChange d p r
    | .change source diff fuel => s.1.todo = [] ∧ Truthful s.2.source source diff ∧
        (s.2.onSourceChange parse source diff fuel).isSome
  step s
    | .world e => (s.1.step contentHash cached e, s.2)
    | .change source diff fuel =>
      match s.2.onSourceChange parse source diff fuel with
      | none => s
      | some (commands, f) => (s.1.step contentHash cached
          (.sourceChange diff.everythingDirty diff.entriesChanged commands), f)

end

/-- Whether a manifest that is read anew and rejected comes with no other change of what the rules
in force expand to. -/
def FollowsOn (parse : List Char → Option (List Rule)) (s : World × Following) : Event → Prop
  | .change source diff _ => diff.rereads = true → readRules parse source = none →
      ∀ commands, Expands s.2.source s.2.rules commands → Expands source s.2.rules commands
  | .world _ => True

variable {parse : List Char → Option (List Rule)} {contentHash : Bytes → Hash} {cached : Bool}

/-! ### The directories watched -/

theorem addDirectories_spec {rev : List Name} {directories : List Path}
    (hlow : ∀ d ∈ directories, d.length ≤ rev.length → ∀ p, p <+: d → p ∈ directories)
    (hclosed : ∀ d ∈ directories, ∀ p, p <+: d → p ∈ directories ∨ p <+: rev.reverse) :
    (∀ d ∈ directories, d ∈ addDirectories rev directories) ∧
      rev.reverse ∈ addDirectories rev directories ∧
      ∀ d ∈ addDirectories rev directories, ∀ p, p <+: d → p ∈ addDirectories rev directories := by
  induction rev generalizing directories with
  | nil =>
    have hroot : ∀ p : Path, p <+: ([] : List Name).reverse → p = [] := fun p hp =>
      List.prefix_nil.mp hp
    unfold addDirectories
    split
    · next hmem =>
      refine ⟨fun d hd => hd, hmem, fun d hd p hp => (hclosed d hd p hp).elim id fun hnil => ?_⟩
      rw [hroot p hnil]
      exact hmem
    · refine ⟨fun d hd => List.mem_cons_of_mem _ hd, List.mem_cons_self .., fun d hd p hp => ?_⟩
      obtain rfl | hd := List.mem_cons.mp hd
      · rw [List.prefix_nil.mp hp]
        exact List.mem_cons_self ..
      · obtain hp | hp := hclosed d hd p hp
        · exact List.mem_cons_of_mem _ hp
        · rw [hroot p hp]
          exact List.mem_cons_self ..
  | cons name rest ih =>
    unfold addDirectories
    split
    · next hmem =>
      refine ⟨fun d hd => hd, hmem, fun d hd p hp => (hclosed d hd p hp).elim id fun hpre => ?_⟩
      exact hlow _ hmem (by simp) p hpre
    · have hsplit : ∀ p : Path, p <+: (name :: rest).reverse →
          p = (name :: rest).reverse ∨ p <+: rest.reverse := by
        intro p hp
        rw [List.reverse_cons, List.prefix_concat_iff] at hp
        rw [List.reverse_cons]
        exact hp
      obtain ⟨hkept, hin, hclosed'⟩ := @ih ((name :: rest).reverse :: directories)
        (fun d hd hlen p hp => by
          obtain rfl | hd := List.mem_cons.mp hd
          · simp at hlen
          · exact List.mem_cons_of_mem _ (hlow d hd (by simp; omega) p hp))
        (fun d hd p hp => by
          obtain rfl | hd := List.mem_cons.mp hd
          · obtain rfl | hp := hsplit p hp
            · exact .inl (List.mem_cons_self ..)
            · exact .inr hp
          · obtain hp | hp := hclosed d hd p hp
            · exact .inl (List.mem_cons_of_mem _ hp)
            · obtain rfl | hp := hsplit p hp
              · exact .inl (List.mem_cons_self ..)
              · exact .inr hp)
      exact ⟨fun d hd => hkept d (List.mem_cons_of_mem _ hd), hkept _ (List.mem_cons_self ..),
        hclosed'⟩

/-- The directory of each wildcard's sources is watched, and so is every one above it. -/
theorem mem_wildcardDirectories {rules : List Rule} {rule : Rule} (hmem : rule ∈ rules)
    (hwildcard : rule.isWildcard = true) {directory : Path}
    (hpre : directory <+: rule.wildcardSource.dropLast) :
    directory ∈ wildcardDirectories rules := by
  unfold wildcardDirectories
  suffices hfold : ∀ (rules : List Rule) (directories : List Path),
      (∀ d ∈ directories, ∀ p, p <+: d → p ∈ directories) →
      (rule ∈ rules ∨ directory ∈ directories) → directory ∈ rules.foldl (fun directories rule =>
        if rule.isWildcard then addDirectories rule.wildcardSource.dropLast.reverse directories
        else directories) directories from
    hfold rules [] (by simp) (.inl hmem)
  intro rules
  induction rules with
  | nil =>
    rintro directories _ (hrule | hin)
    · simp at hrule
    · exact hin
  | cons first rules ih =>
    intro directories hclosed hin
    rw [List.foldl_cons]
    split
    · obtain ⟨hkept, hown, hclosed'⟩ := @addDirectories_spec
        first.wildcardSource.dropLast.reverse directories (fun d hd _ p hp => hclosed d hd p hp)
        fun d hd p hp => .inl (hclosed d hd p hp)
      refine ih _ hclosed' ?_
      obtain hrule | hin := hin
      · obtain rfl | hrule := List.mem_cons.mp hrule
        · rw [List.reverse_reverse] at hown
          exact .inr (hclosed' _ hown _ hpre)
        · exact .inl hrule
      · exact .inr (hkept _ hin)
    · next hnot =>
      refine ih _ hclosed (hin.imp (fun hrule => ?_) id)
      obtain rfl | hrule := List.mem_cons.mp hrule
      · exact absurd hwildcard hnot
      · exact hrule

/-! ### A diff that names nothing watched -/

/-- Where no directory on the way to one has another child list, that is there as it was, and so
are the files in it. -/
theorem same_children {source source' : SourceTree} {directory : Path}
    (h : ∀ other, other <+: directory →
      ∀ mtime mtime', source.status other = some (.directory mtime) →
        source'.status other = some (.directory mtime') → SameChildren source source' other) :
    ∀ other, other <+: directory → isFile (source.status other) = isFile (source'.status other) := by
  intro other
  induction other using List.reverseRecOn with
  | nil =>
    intro _
    obtain ⟨mtime, hmtime⟩ := source.root
    obtain ⟨mtime', hmtime'⟩ := source'.root
    rw [hmtime, hmtime']
    rfl
  | append_singleton above name ih =>
    intro hpre
    have habove := ih ((List.prefix_append above [name]).trans hpre)
    have habsent : ∀ {source : SourceTree}, isFile (source.status above) ≠ some false →
        source.status (above ++ [name]) = none := by
      intro source hnot
      by_contra hsome
      obtain ⟨mtime, hmtime⟩ := source.parent above name (Option.isSome_iff_ne_none.mpr hsome)
      rw [hmtime] at hnot
      exact hnot rfl
    by_cases hdirectory : isFile (source.status above) = some false
    · have hthere : ∀ {info : Option EntryInfo}, isFile info = some false →
          ∃ mtime, info = some (.directory mtime) := by
        intro info hinfo
        cases info with
        | none => simp [isFile] at hinfo
        | some info =>
          cases info with
          | file size mtime => simp [isFile] at hinfo
          | directory mtime => exact ⟨mtime, rfl⟩
      obtain ⟨mtime, hmtime⟩ := hthere hdirectory
      obtain ⟨mtime', hmtime'⟩ := hthere (habove ▸ hdirectory)
      exact (h above ((List.prefix_append above [name]).trans hpre) mtime mtime' hmtime hmtime').1
        name
    · rw [habsent hdirectory, habsent (habove ▸ hdirectory)]

theorem mem_sourceMatches {source : SourceTree} {rule matched : Rule} :
    matched ∈ sourceMatches source rule ↔
      (source.ls rule.wildcardSource.dropLast).isSome = true ∧ ∃ name,
        isFile (source.status (rule.wildcardSource.dropLast ++ [name])) = some true ∧
        instantiate rule name = some matched := by
  unfold sourceMatches
  cases hls : source.ls rule.wildcardSource.dropLast with
  | none => simp
  | some entries =>
    have hlisted := (source.listed _ entries hls).2
    simp only [List.mem_filterMap, Option.isSome_some, true_and]
    constructor
    · rintro ⟨⟨name, info⟩, hmem, hmatch⟩
      cases info with
      | directory mtime => simp [matchEntry] at hmatch
      | file size mtime =>
        refine ⟨name, ?_, hmatch⟩
        rw [(hlisted name _).mp hmem]
        rfl
    · rintro ⟨name, hfile, hmatch⟩
      cases hstatus : source.status (rule.wildcardSource.dropLast ++ [name]) with
      | none => simp [hstatus, isFile] at hfile
      | some info =>
        cases info with
        | directory mtime => simp [hstatus, isFile] at hfile
        | file size mtime => exact ⟨(name, .file size mtime), (hlisted name _).mpr hstatus, hmatch⟩

/-- A diff that is truthful and names nothing watched leaves what the rules expand to. -/
theorem Expands.unwatched {f : Following} {source' : SourceTree} {diff : Diff}
    {commands : Commands} (h : Expands f.source f.rules commands)
    (hdirectories : f.directories = wildcardDirectories f.rules)
    (htruthful : Truthful f.source source' diff) (hreread : diff.rereads = false)
    (hwatch : f.watches diff = false) : Expands source' f.rules commands := by
  have hdirty : diff.everythingDirty = false := by
    unfold Diff.rereads at hreread
    exact (Bool.or_eq_false_iff.mp hreread).1
  obtain hall | ⟨_, hnamed⟩ := htruthful
  · rw [hdirty] at hall
    simp at hall
  refine h.source fun rule hrule hwildcard _ matched => ?_
  let directory := rule.wildcardSource.dropLast
  have hsame : ∀ other, other <+: directory → ∀ mtime mtime',
      f.source.status other = some (.directory mtime) →
      source'.status other = some (.directory mtime') → SameChildren f.source source' other := by
    intro other hpre mtime mtime' hmtime hmtime'
    by_contra hchanged
    have hmem := hnamed other mtime mtime' hmtime hmtime' hchanged
    have hnot := List.any_eq_false.mp hwatch other hmem
    rw [Tree.lexicallyNormal_normal (f.source.normal other (by rw [hmtime]; rfl)),
      decide_eq_true_eq, hdirectories] at hnot
    exact hnot (mem_wildcardDirectories hrule hwildcard hpre)
  have hkind := same_children hsame directory (List.prefix_refl _)
  -- A directory that can be listed is there.
  have hthere : ∀ {source : SourceTree}, (source.ls directory).isSome = true →
      ∃ mtime, source.status directory = some (.directory mtime) := by
    intro source hls
    obtain ⟨entries, hentries⟩ := Option.isSome_iff_exists.mp hls
    exact (source.listed _ entries hentries).1
  have hboth : ∀ {a b : SourceTree} {mtime : Int64},
      isFile (a.status directory) = isFile (b.status directory) →
      a.status directory = some (.directory mtime) →
      ∃ mtime', b.status directory = some (.directory mtime') := by
    intro a b mtime heq ha
    rw [ha] at heq
    cases hb : b.status directory with
    | none => simp [hb, isFile] at heq
    | some info =>
      cases info with
      | file size mtime => simp [hb, isFile] at heq
      | directory mtime' => exact ⟨mtime', rfl⟩
  rw [mem_sourceMatches, mem_sourceMatches]
  constructor
  · rintro ⟨hls, name, hfile, hmatch⟩
    obtain ⟨mtime, hmtime⟩ := hthere hls
    obtain ⟨mtime', hmtime'⟩ := hboth hkind hmtime
    obtain ⟨hnames, hlistable⟩ := hsame directory (List.prefix_refl _) mtime mtime' hmtime hmtime'
    exact ⟨hlistable ▸ hls, name, (hnames name) ▸ hfile, hmatch⟩
  · rintro ⟨hls, name, hfile, hmatch⟩
    obtain ⟨mtime', hmtime'⟩ := hthere hls
    obtain ⟨mtime, hmtime⟩ := hboth hkind.symm hmtime'
    obtain ⟨hnames, hlistable⟩ := hsame directory (List.prefix_refl _) mtime mtime' hmtime hmtime'
    exact ⟨hlistable.symm ▸ hls, name, (hnames name).symm ▸ hfile, hmatch⟩

/-! ### Whole runs -/

/-- The rules the callback is about to take, or else those that are taken. -/
def rulesOf : Task → Option Commands
  | .applyRules commands => some commands
  | _ => none

def pending (w : World) : Commands := (w.todo.findSome? rulesOf).getD w.tree.commands

/-- What is declared, or is about to be, is what the rules in force expand to. -/
structure Followed (s : World × Following) : Prop where
  expands : Expands s.2.source s.2.rules (pending s.1)
  directories : s.2.directories = wildcardDirectories s.2.rules

theorem findSome_rulesOf_late {todo : List Task} (h : ∀ task ∈ todo, rulesOf task = none) :
    todo.findSome? rulesOf = none := List.findSome?_eq_none_iff.mpr h

/-- Rules about to be taken are taken as they are. -/
theorem pending_resume {w : World} (ho : w.Orderly) (now : Int64) (ok : Bool) :
    pending (w.resume now ok) = pending w := by
  unfold pending World.resume
  split
  · rfl
  · next commands todo htodo =>
    have hseq := ho.sequence
    rw [htodo] at hseq
    obtain ⟨d, p, rfl⟩ := hseq
    rw [htodo]
    show _ = commands
    rw [findSome_rulesOf_late]
    · show (w.tree.takeCommands commands).2.commands = commands
      rw [(w.tree.takeCommands_taken commands).only]
    · intro task hmem
      simp only [List.mem_append, List.mem_map, List.mem_cons, List.not_mem_nil, or_false] at hmem
      obtain (⟨_, _, rfl⟩ | ⟨_, _, rfl⟩) | rfl | rfl | rfl := hmem <;> rfl
  · next htodo => rw [htodo]; rfl
  · next htodo => rw [htodo]; rfl
  · next htodo => rw [htodo]; rfl
  · next htodo => rw [htodo]; rfl
  · next htodo => rw [htodo]; rfl
  · next htodo => rw [htodo]; rfl
  · next outputs todo htodo =>
    rw [htodo, List.findSome?_cons, List.findSome?_append, findSome_rulesOf_late (by simp [rulesOf])]
    show (todo.findSome? rulesOf).getD (w.tree.invalidate outputs).state.commands = _
    rw [(w.tree.invalidate_marked outputs).only]
    rfl
  · next output todo htodo =>
    rw [htodo, (World.brought_startBuild { w with todo } output).commands]
    show ((({ w with todo } : World).startBuild output).todo.findSome? rulesOf).getD _ = _
    rw [show (({ w with todo } : World).startBuild output).todo = todo from
      (World.addBuild_aside _ _ _).1]
    rfl

theorem pending_world {w : World} (ho : w.Orderly) {e : Tree.Event}
    (hne : ∀ d p r, e ≠ .sourceChange d p r) : pending (w.step contentHash cached e) = pending w := by
  by_cases hresume : ∃ now ok, e = .resume now ok
  · obtain ⟨now, ok, rfl⟩ := hresume
    exact pending_resume ho now ok
  · have htodo := @World.step_todo contentHash cached w e hne
      fun now ok heq => hresume ⟨now, ok, heq⟩
    have hcommands := (@World.step_commands contentHash cached w e).resolve_right
      fun ⟨now, ok, _, _, heq, _⟩ => hresume ⟨now, ok, heq⟩
    unfold pending
    rw [htodo, hcommands]

/-- Without its source, a run is one of the tree's. -/
theorem world_reachable {ok : World × Following → Event → Prop} {s : World × Following}
    (h : (machine parse contentHash cached).Reachable ok s) :
    (World.machine contentHash cached).Reachable (fun _ _ => True) s.1 := by
  induction h with
  | start h => exact .start h.1
  | @next s e _ he _ ih =>
    cases e with
    | world e => exact ih.next he.1 trivial
    | change source diff fuel =>
      obtain ⟨⟨commands, f⟩, hf⟩ := Option.isSome_iff_exists.mp he.2.2
      have hstep : ((machine parse contentHash cached).step s (.change source diff fuel)).1 =
          s.1.step contentHash cached
            (.sourceChange diff.everythingDirty diff.entriesChanged commands) := by
        show (match s.2.onSourceChange parse source diff fuel with
          | none => s
          | some (commands, f) => (s.1.step contentHash cached
              (.sourceChange diff.everythingDirty diff.entriesChanged commands), f)).1 = _
        rw [hf]
      have henabled : (World.machine contentHash cached).enabled s.1
          (.sourceChange diff.everythingDirty diff.entriesChanged commands) := he.1
      rw [hstep]
      exact ih.next henabled trivial

/-- What comes of a diff that is let through. -/
inductive Changed (parse : List Char → Option (List Rule)) (f : Following) (source : SourceTree)
    (diff : Diff) : Option Commands → Following → Prop
  | rejected (hreread : diff.rereads = true) (hrules : readRules parse source = none) :
      Changed parse f source diff none { f with source }
  | reloaded {rules : List Rule} {commands : Commands} (hreread : diff.rereads = true)
      (hrules : readRules parse source = some rules) (hexpands : Expands source rules commands) :
      Changed parse f source diff (some commands)
        { source, rules, directories := wildcardDirectories rules }
  | matched {commands : Commands} (hreread : diff.rereads = false)
      (hexpands : Expands source f.rules commands) :
      Changed parse f source diff (some commands) { f with source }
  | kept (hreread : diff.rereads = false) (hwatch : f.watches diff = false) :
      Changed parse f source diff none { f with source }

theorem changed {f f' : Following} {source : SourceTree} {diff : Diff} {fuel : Nat}
    {commands : Option Commands}
    (h : f.onSourceChange parse source diff fuel = some (commands, f')) :
    Changed parse f source diff commands f' := by
  have hexpands : ∀ {rules : List Rule} {commands : Commands},
      expandRules fuel source rules = some commands → Expands source rules commands :=
    fun hcommands => ⟨fuel, _, hcommands, .refl _⟩
  unfold Following.onSourceChange at h
  split at h
  · next hreread =>
    split at h
    · next hrules =>
      obtain ⟨rfl, rfl⟩ := Prod.mk.inj (Option.some.inj h)
      exact .rejected hreread hrules
    · next rules hrules =>
      obtain ⟨commands, hcommands, heq⟩ := Option.map_eq_some_iff.mp h
      obtain ⟨rfl, rfl⟩ := Prod.mk.inj heq
      exact .reloaded hreread hrules (hexpands hcommands)
  · next hreread =>
    have hnot : diff.rereads = false := by simpa using hreread
    split at h
    · obtain ⟨commands, hcommands, heq⟩ := Option.map_eq_some_iff.mp h
      obtain ⟨rfl, rfl⟩ := Prod.mk.inj heq
      exact .matched hnot (hexpands hcommands)
    · next hwatch =>
      obtain ⟨rfl, rfl⟩ := Prod.mk.inj (Option.some.inj h)
      exact .kept hnot (by simpa using hwatch)

theorem Followed.change {s : World × Following} (h : Followed s) {source : SourceTree} {diff : Diff}
    {fuel : Nat} (he : (machine parse contentHash cached).enabled s (.change source diff fuel)) :
    Followed ((machine parse contentHash cached).step s (.change source diff fuel)) ↔
      FollowsOn parse s (.change source diff fuel) := by
  obtain ⟨hidle, htruthful, hsome⟩ := he
  obtain ⟨⟨commands, f⟩, hf⟩ := Option.isSome_iff_exists.mp hsome
  have hstep : (machine parse contentHash cached).step s (.change source diff fuel) =
      (s.1.step contentHash cached
        (.sourceChange diff.everythingDirty diff.entriesChanged commands), f) := by
    show (match s.2.onSourceChange parse source diff fuel with
      | none => s
      | some (commands, f) => (s.1.step contentHash cached
          (.sourceChange diff.everythingDirty diff.entriesChanged commands), f)) = _
    rw [hf]
  have hbefore : pending s.1 = s.1.tree.commands := by
    unfold pending
    rw [hidle]
    rfl
  have hnone : pending (s.1.step contentHash cached
      (.sourceChange diff.everythingDirty diff.entriesChanged none)) = s.1.tree.commands := rfl
  have hnew : ∀ commands, pending (s.1.step contentHash cached
      (.sourceChange diff.everythingDirty diff.entriesChanged (some commands))) = commands :=
    fun _ => rfl
  have hexpands := h.expands
  rw [hbefore] at hexpands
  rw [hstep]
  have hchanged := changed hf
  cases hchanged with
  | rejected hreread hrules =>
    constructor
    · intro hfollowed _ _ commands hcommands
      have hsame := hfollowed.expands
      rw [hnone] at hsame
      exact hsame.of_same (hexpands.unique hcommands)
    · intro hok
      exact ⟨by rw [hnone]; exact hok hreread hrules _ hexpands, h.directories⟩
  | reloaded hreread hrules hexpands' =>
    refine iff_of_true ⟨by rw [hnew]; exact hexpands', rfl⟩ fun _ hrejected => ?_
    rw [hrules] at hrejected
    simp at hrejected
  | matched hreread hexpands' =>
    refine iff_of_true ⟨by rw [hnew]; exact hexpands', h.directories⟩ fun hreread' => ?_
    rw [hreread] at hreread'
    simp at hreread'
  | kept hreread hwatch =>
    refine iff_of_true ⟨?_, h.directories⟩ fun hreread' => ?_
    · rw [hnone]
      exact hexpands.unwatched h.directories htruthful hreread hwatch
    · rw [hreread] at hreread'
      simp at hreread'

/-! ### A manifest with one wildcard -/

/-- A source tree of a manifest and a directory `s` of files. -/
def sourceOf (text : List Char) (files : List Name) (h : Tree.NormalPath files) : SourceTree where
  status
    | [] => some (.directory 0)
    | [name] =>
      if [name] = manifestName then some (.file 0 0)
      else if name = ['s'] then some (.directory 0)
      else none
    | [directory, name] => if directory = ['s'] ∧ name ∈ files then some (.file 0 0) else none
    | _ => none
  ls
    | [] => some [(filename manifestName, .file 0 0), (['s'], .directory 0)]
    | [name] => if name = ['s'] then some (files.map fun name => (name, .file 0 0)) else none
    | _ => none
  read path := if path = manifestName then some text else none
  root := ⟨0, rfl⟩
  normal := by
    intro path hsome
    match path with
    | [] => simp [Tree.NormalPath]
    | [name] =>
      by_cases hmanifest : [name] = manifestName
      · rw [hmanifest]
        decide +kernel
      · by_cases hdir : name = ['s']
        · rw [hdir]
          decide
        · simp [hmanifest, hdir] at hsome
    | [directory, name] =>
      have hin : directory = ['s'] ∧ name ∈ files := by
        by_contra hnot
        simp [hnot] at hsome
      intro part hpart
      obtain rfl | rfl : part = directory ∨ part = name := by simpa using hpart
      · rw [hin.1]
        decide
      · exact h _ hin.2
    | _ :: _ :: _ :: _ => simp at hsome
  parent := by
    intro directory name hsome
    match directory with
    | [] => exact ⟨0, rfl⟩
    | [d] =>
      have hin : d = ['s'] ∧ name ∈ files := by
        by_contra hnot
        simp [hnot] at hsome
      rw [hin.1]
      exact ⟨0, by simp [manifestName]⟩
    | _ :: _ :: _ => simp at hsome
  listed := by
    intro directory entries hls
    match directory with
    | [] =>
      obtain rfl := Option.some.inj hls
      refine ⟨⟨0, rfl⟩, fun name info => ?_⟩
      have hmanifest : manifestName = [filename manifestName] := rfl
      have hdir : ['s'] ≠ filename manifestName := by decide +kernel
      show _ ↔ (if [name] = manifestName then some (EntryInfo.file 0 0)
        else if name = ['s'] then some (.directory 0) else none) = some info
      generalize filename manifestName = manifest at hmanifest hdir
      rw [hmanifest]
      by_cases hname : name = manifest
      · simp [hname, hdir.symm, eq_comm]
      · by_cases hs : name = ['s']
        · simp [hs, hdir.symm, eq_comm]
        · simp [hname, hs]
    | [d] =>
      by_cases hdir : d = ['s']
      · subst hdir
        obtain rfl : files.map (fun name => (name, EntryInfo.file 0 0)) = entries := by
          simpa using hls
        refine ⟨⟨0, by simp [manifestName]⟩, fun name info => ?_⟩
        by_cases hin : name ∈ files
        · simp [hin, eq_comm]
        · simp [hin]
      · simp [hdir] at hls
    | _ :: _ :: _ => simp at hls

/-- `@/o/*.o = run *.c` for the files of `s`. -/
def oneWildcard : Rule where
  output := [['o'], ['*', '.', 'o']]
  command := ['*', '.', 'c']
  wildcardSource := [['s'], ['*', '.', 'c']]

/-- A manifest of that rule, of which any other text is rejected. -/
def parseOne (text : List Char) : Option (List Rule) :=
  if text = ['*'] then some [oneWildcard] else none

def sourceA : SourceTree := sourceOf ['*'] [['a', '.', 'c']] (by decide)

/-- The source with a file more. -/
def sourceAB (text : List Char) : SourceTree :=
  sourceOf text [['a', '.', 'c'], ['b', '.', 'c']] (by decide)

def commandsA : Commands where
  entries := [{ output := [['o'], ['a', '.', 'o']], text := ['a', '.', 'c'] }]

def followsA : World × Following :=
  ({ tree := Tree.constructed commandsA 0
     cache := {}
     origin := fun output => if (Tree.constructed commandsA 0).declared output then
       some (if (Tree.constructed commandsA 0).stale output then .placeholder else .restored)
       else none },
   { source := sourceA, rules := [oneWildcard], directories := wildcardDirectories [oneWildcard] })

theorem followsA_reachable {ok : World × Following → Event → Prop} :
    (machine parseOne contentHash false).Reachable ok followsA := by
  refine .start ⟨⟨commandsA, 0, fun _ => none, {}, _, ⟨rfl, rfl⟩, rfl⟩, by decide +kernel, rfl, ?_⟩
  have hexpands : (expandRules 1 sourceA [oneWildcard]).map Commands.entries =
      some commandsA.entries := by decide +kernel
  obtain ⟨commands, hcommands, hentries⟩ := Option.map_eq_some_iff.mp hexpands
  exact ⟨1, commands, hcommands, fun output => by unfold Commands.find; rw [hentries]; rfl⟩

/-- The file more, with a diff that says no less. -/
theorem addsB_truthful (text : List Char) {entries : List Path}
    (hb : [['s'], ['b', '.', 'c']] ∈ entries)
    (htext : text = ['*'] ∨ manifestName ∈ entries) :
    Truthful sourceA (sourceAB text)
      { entriesChanged := entries, childListsChanged := [[['s']]] } := by
  have hstatus : ∀ path, path ≠ [['s'], ['b', '.', 'c']] →
      sourceA.status path = (sourceAB text).status path := by
    intro path hne
    match path with
    | [] => rfl
    | [name] => rfl
    | [directory, name] =>
      by_cases hname : name = ['b', '.', 'c']
      · have hdir : directory ≠ ['s'] := fun hdir => hne (by rw [hname, hdir])
        simp [sourceA, sourceAB, sourceOf, hdir]
      · simp [sourceA, sourceAB, sourceOf, hname]
    | _ :: _ :: _ :: _ => rfl
  refine .inr ⟨fun path hchanged _ => ?_, fun directory mtime mtime' hdir hdir' hchanged => ?_⟩
  · by_cases hmanifest : path = manifestName
    · rw [hmanifest] at hchanged ⊢
      refine htext.resolve_left fun htext => ?_
      rw [htext] at hchanged
      exact hchanged.elim (absurd (by decide +kernel)) (absurd (by decide +kernel))
    · have hread : sourceA.read path = (sourceAB text).read path := by
        simp [sourceA, sourceAB, sourceOf, hmanifest]
      by_contra hnot
      exact hchanged.elim (fun h => h (hstatus path fun heq => hnot (heq ▸ hb))) fun h => h hread
  · match directory with
    | [] => exact absurd ⟨fun name => by rw [hstatus _ (by simp)], rfl⟩ hchanged
    | [d] =>
      by_cases hd : d = ['s']
      · simp [hd]
      · exact absurd ⟨fun name => by rw [hstatus _ (by simp [hd])], by
          simp [sourceA, sourceAB, sourceOf, hd]⟩ hchanged
    | [_, _] => simp [sourceA, sourceOf] at hdir
    | _ :: _ :: _ :: _ => simp [sourceA, sourceOf] at hdir

/-- The callback's next steps, if each can be taken. -/
def resumes : Nat → World → Option World
  | 0, w => some w
  | n + 1, w => if w.fires (.resume 0 true) then resumes n (w.resume 0 true) else none

theorem resumes_reachable {ok : World × Following → Event → Prop} (hok : ∀ s e, ok s (.world e))
    {s : World × Following} (hs : (machine parse contentHash cached).Reachable ok s) {n : Nat}
    {w : World} (h : resumes n s.1 = some w) :
    (machine parse contentHash cached).Reachable ok (w, s.2) := by
  induction n generalizing s with
  | zero =>
    obtain rfl := Option.some.inj h
    exact hs
  | succ n ih =>
    unfold resumes at h
    split at h
    · next hfires =>
      have he : (machine parse contentHash cached).enabled s (.world (.resume 0 true)) :=
        ⟨World.enabled_of_fires hfires, fun _ _ _ heq => by simp at heq⟩
      have hnext : (machine parse contentHash cached).Reachable ok (s.1.resume 0 true, s.2) :=
        hs.next he (hok _ _)
      exact ih (s := (s.1.resume 0 true, s.2)) hnext h
    · simp at h

/-! ### The rules in force are followed -/

/-- Where no manifest that is rejected comes with a change of what the rules in force expand to, the
declared outputs and their commands are those the rules in force expand to over the source tree as
it is, once the diff that said so has been dealt with. -/
theorem rules_followed {s : World × Following}
    (h : (machine parse contentHash cached).Reachable (FollowsOn parse) s)
    (hidle : s.1.todo = []) : Expands s.2.source s.2.rules s.1.tree.commands := by
  have hfollowed : Followed s := by
    refine h.invariant_under (Q := fun s => World.Orderly s.1) (P := Followed)
      (fun _ hs => World.orderly (world_reachable hs)) (fun s hs => ?_) fun s e ho hf he hok => ?_
    · obtain ⟨hstarts, _, hdirectories, hexpands⟩ := hs
      obtain ⟨_, _, _, _, hw⟩ := hstarts.begins
      refine ⟨?_, hdirectories⟩
      have htodo : s.1.todo = [] := by rw [hw]
      unfold pending
      rw [htodo]
      exact hexpands
    · cases e with
      | world e =>
        refine ⟨?_, hf.directories⟩
        show Expands s.2.source s.2.rules (pending (s.1.step contentHash cached e))
        rw [pending_world ho he.2]
        exact hf.expands
      | change source diff fuel => exact (hf.change he).mpr hok
  have hexpands := hfollowed.expands
  unfold pending at hexpands
  rw [hidle] at hexpands
  exact hexpands

/-- The diff that says there is `s/b.c`, and what else changes. -/
def addsB (entries : List Path) : Diff where
  entriesChanged := [['s'], ['b', '.', 'c']] :: entries
  childListsChanged := [[['s']]]

def declaresB (w : World) : Bool := (w.tree.commands.find [['o'], ['b', '.', 'o']]).isSome

/-- With the manifest as it was, the wildcard follows what there is in `s`. -/
theorem rules_followed_addsB : ∃ s : World × Following, declaresB s.1 = true ∧
    Expands s.2.source s.2.rules s.1.tree.commands := by
  have henabled : (machine parseOne (fun _ => []) false).enabled followsA
      (.change (sourceAB ['*']) (addsB []) 1) :=
    ⟨rfl, addsB_truthful ['*'] (by simp) (.inl rfl), by decide +kernel⟩
  have hok : FollowsOn parseOne followsA (.change (sourceAB ['*']) (addsB []) 1) := by
    intro hreread
    exact absurd hreread (by decide +kernel)
  have hchanged := followsA_reachable.next henabled hok
  have hresumes : (resumes 10 ((machine parseOne (fun _ => []) false).step followsA
      (.change (sourceAB ['*']) (addsB []) 1)).1).any
        (fun w => w.todo.isEmpty && declaresB w) = true := by decide +kernel
  obtain ⟨w, hw, hend⟩ := (Option.any_eq_true _ _).mp hresumes
  rw [Bool.and_eq_true, List.isEmpty_iff] at hend
  have hreachable := resumes_reachable (fun _ _ => trivial) hchanged hw
  exact ⟨_, hend.2, rules_followed hreachable hend.1⟩

/-- With a manifest that is rejected in the same diff, it does not. -/
theorem rules_unfollowed_breaksManifest : ∃ s : World × Following,
    (machine parseOne (fun _ => []) false).Reachable (fun _ _ => True) s ∧ s.1.todo = [] ∧
      ¬Expands s.2.source s.2.rules s.1.tree.commands := by
  have henabled : (machine parseOne (fun _ => []) false).enabled followsA
      (.change (sourceAB ['x']) (addsB [manifestName]) 1) :=
    ⟨rfl, addsB_truthful ['x'] (by simp) (.inr (by simp)), by decide +kernel⟩
  have hchanged := (@followsA_reachable _ fun _ _ => True).next henabled trivial
  have hresumes : (resumes 3 ((machine parseOne (fun _ => []) false).step followsA
      (.change (sourceAB ['x']) (addsB [manifestName]) 1)).1).any
        (fun w => w.todo.isEmpty && !declaresB w) = true := by decide +kernel
  obtain ⟨w, hw, hend⟩ := (Option.any_eq_true _ _).mp hresumes
  rw [Bool.and_eq_true, List.isEmpty_iff] at hend
  refine ⟨_, resumes_reachable (fun _ _ => trivial) hchanged hw, hend.1, fun hexpands => ?_⟩
  have hnew : (expandRules 1 (sourceAB ['x']) [oneWildcard]).any
      (fun commands => (commands.find [['o'], ['b', '.', 'o']]).isSome) = true := by
    decide +kernel
  obtain ⟨commands, hcommands, hb⟩ := (Option.any_eq_true _ _).mp hnew
  have hsame := hexpands.unique ⟨1, commands, hcommands, .refl _⟩
  have hnot := hend.2
  unfold declaresB at hnot
  rw [hsame, hb] at hnot
  simp at hnot

end MakeBelieve.Manifest
