import MakeBelieve.Manifest.Expand

namespace MakeBelieve.Manifest

open MakeBelieve.Tree (Command Commands)

variable {source : SourceTree} {rules : List Rule}

/-! ### Outputs inside -/

/-- A name that a file can have. -/
structure FileName (name : Name) : Prop where
  named : name ≠ [] ∧ name ≠ ['.'] ∧ name ≠ ['.', '.']
  unseparated : '/' ∉ name

/-- Whether a wildcard makes `.` or `..` of a name that it is given. -/
def MakesDots (rule : Rule) (name : Name) : Prop :=
  (NamePattern.ofName (filename rule.wildcardSource)).accepts name = true ∧
    (NamePattern.ofName (filename rule.output)).before ++
      (NamePattern.ofName (filename rule.wildcardSource)).stem name ++ rule.suffix ∈
        [['.'], ['.', '.']]

/-- Whether a wildcard is given a name: that of a source file, or of an output there can be. -/
inductive Given (source : SourceTree) (rules : List Rule) (rule : Rule) (name : Name) : Prop
  | file (hwildcard : rule.isWildcard = true) (hsource : rule.wildcardOverOutputs = false)
      (entries : List (Name × Tree.EntryInfo)) (size : UInt64) (mtime : Int64)
      (hls : source.ls rule.wildcardSource.dropLast = some entries)
      (hmem : (name, .file size mtime) ∈ entries)
  | output (hover : rule.wildcardOverOutputs = true) (command : Command)
      (hcommand : Derived source rules command)
      (hdirectory : command.output.dropLast = rule.wildcardSource.dropLast)
      (hname : filename command.output = name)

theorem ofName_mem {name : Name} {c : Char} :
    (c ∈ (NamePattern.ofName name).before → c ∈ name) ∧
      (c ∈ (NamePattern.ofName name).after → c ∈ name) := by
  refine ⟨fun h => (List.takeWhile_sublist _).subset h, fun h => ?_⟩
  unfold NamePattern.ofName at h
  dsimp only at h
  split at h
  · exact (List.dropWhile_sublist _).subset (List.mem_of_mem_tail h)
  · exact h

theorem stem_mem {pattern : NamePattern} {name : Name} {c : Char} (h : c ∈ pattern.stem name) :
    c ∈ name := List.mem_of_mem_drop (List.mem_of_mem_take h)

theorem stem_ne_nil {pattern : NamePattern} {name : Name} (h : pattern.accepts name = true) :
    pattern.stem name ≠ [] := by
  intro hnil
  have hname := congrArg List.length (NamePattern.accepts_stem h)
  rw [hnil] at hname
  unfold NamePattern.accepts at h
  simp only [Bool.and_eq_true, decide_eq_true_eq] at h
  simp at hname
  omega

/-- The output a wildcard makes of a file's name is inside, unless its own name is `.` or `..`. -/
theorem instantiate_inside {rule matched : Rule} (hproper : rule.Proper) {name : Name}
    (hname : FileName name) (h : instantiate rule name = some matched) :
    Inside matched.output ↔ ¬MakesDots rule name := by
  obtain ⟨haccepts, houtput⟩ := instantiate_some h
  rw [inside_iff]
  unfold MakesDots
  have hdirectory : ∀ part ∈ rule.output.dropLast, part ∈ rule.output :=
    fun part hpart => (List.dropLast_sublist _).subset hpart
  have hlast := filename_mem hproper.output.nonempty
  have hmem := @ofName_mem (filename rule.output)
  generalize hmade : (NamePattern.ofName (filename rule.output)).before ++
    (NamePattern.ofName (filename rule.wildcardSource)).stem name ++ rule.suffix = made at houtput
  have hne : made ≠ [] := by
    rw [← hmade]
    simp [stem_ne_nil haccepts]
  have hunseparated : '/' ∉ made := by
    have hparent := hproper.output.unseparated _ hlast
    rw [← hmade, List.mem_append, List.mem_append, not_or, not_or]
    exact ⟨⟨fun hin => hparent (hmem.1 hin), fun hin => hname.unseparated (stem_mem hin)⟩,
      fun hin => hparent (hmem.2 hin)⟩
  rw [houtput]
  constructor
  · rintro hnamed ⟨_, hdots⟩
    have hnormal := hnamed.normal made (by simp)
    simp [hnormal] at hdots
  · intro hnot
    have hdots : made ≠ ['.'] ∧ made ≠ ['.', '.'] := by
      simpa [haccepts] using hnot
    refine ⟨by simp, fun part hpart => ?_, fun part hpart => ?_⟩
    · obtain hpart | hpart := List.mem_append.mp hpart
      · exact hproper.output.normal part (hdirectory part hpart)
      · rw [List.mem_singleton.mp hpart]
        exact ⟨hne, hdots⟩
    · obtain hpart | hpart := List.mem_append.mp hpart
      · exact hproper.output.unseparated part (hdirectory part hpart)
      · rw [List.mem_singleton.mp hpart]
        exact hunseparated

/-- The name of an output that is inside is one a file can have. -/
theorem Named.fileName {path : Path} (h : Named path) : FileName (filename path) :=
  ⟨h.normal _ (filename_mem h.nonempty), h.unseparated _ (filename_mem h.nonempty)⟩

/-- The names in a listing are those of files. -/
theorem listed_fileName (hnames : ∀ path, (source.status path).isSome = true →
    ∀ part ∈ path, '/' ∉ part) {directory : Path} {entries : List (Name × Tree.EntryInfo)}
    (hls : source.ls directory = some entries) {name : Name} {info : Tree.EntryInfo}
    (hmem : (name, info) ∈ entries) : FileName name := by
  have hstatus := ((source.listed directory entries hls).2 name info).mp hmem
  have hsome : (source.status (directory ++ [name])).isSome = true := by rw [hstatus]; rfl
  exact ⟨source.normal _ hsome name (by simp), hnames _ hsome name (by simp)⟩

theorem mem_sourceMatches_listed {rule matched : Rule} (h : matched ∈ sourceMatches source rule) :
    ∃ entries name size mtime, source.ls rule.wildcardSource.dropLast = some entries ∧
      (name, .file size mtime) ∈ entries ∧ instantiate rule name = some matched := by
  unfold sourceMatches at h
  split at h
  · simp at h
  · next entries hls =>
    obtain ⟨⟨name, info⟩, hmem, hmatch⟩ := List.mem_filterMap.mp h
    cases info with
    | directory mtime => simp [matchEntry] at hmatch
    | file size mtime => exact ⟨entries, name, size, mtime, hls, hmem, hmatch⟩

theorem mem_sourceMatches_of {rule matched : Rule} {entries : List (Name × Tree.EntryInfo)}
    {name : Name} {size : UInt64} {mtime : Int64}
    (hls : source.ls rule.wildcardSource.dropLast = some entries)
    (hmem : (name, .file size mtime) ∈ entries) (h : instantiate rule name = some matched) :
    matched ∈ sourceMatches source rule := by
  unfold sourceMatches
  rw [hls]
  exact List.mem_filterMap.mpr ⟨_, hmem, h⟩

/-- What can be declared is inside where no wildcard makes dots of what it is given. -/
theorem Derived.inside (hproper : ∀ rule ∈ rules, rule.Proper)
    (hnames : ∀ path, (source.status path).isSome = true → ∀ part ∈ path, '/' ∉ part)
    (hdots : ∀ rule ∈ rules, ∀ name, Given source rules rule name → ¬MakesDots rule name)
    {command : Command} (h : Derived source rules command) : Inside command.output := by
  induction h with
  | literal hrule _ => exact inside_iff.mpr (hproper _ hrule).output
  | source hrule hwildcard hsource hmatched =>
    obtain ⟨entries, name, size, mtime, hls, hmem, hname⟩ := mem_sourceMatches_listed hmatched
    exact (instantiate_inside (hproper _ hrule) (listed_fileName hnames hls hmem) hname).mpr
      (hdots _ hrule name (.file hwildcard hsource entries size mtime hls hmem))
  | @output rule matched command hrule hover hcommand hdirectory hmatched ih =>
    exact (instantiate_inside (hproper _ hrule) (inside_iff.mp ih).fileName hmatched).mpr
      (hdots _ hrule _ (.output hover command hcommand hdirectory rfl))

/-- An output that a wildcard makes of a file's name is inside exactly where its own name is neither
`.` nor `..`; so is every output that is declared, where no wildcard makes those of a name it is
given. -/
theorem instantiated_inside (text : List Char) :
    (∀ rule ∈ (parse text).rules, ∀ name matched, FileName name →
      instantiate rule name = some matched → (Inside matched.output ↔ ¬MakesDots rule name)) ∧
    ((parse text).errors = [] → ∀ source : SourceTree,
      (∀ path, (source.status path).isSome = true → ∀ part ∈ path, '/' ∉ part) →
      ∀ (fuel : Nat) (commands : Commands),
        expandRules fuel source (parse text).rules = some commands →
        ((∀ command ∈ commands.entries, Inside command.output) ↔
          ∀ rule ∈ (parse text).rules, ∀ name, Given source (parse text).rules rule name →
            ¬MakesDots rule name)) := by
  have hproper := parse_proper text
  refine ⟨fun rule hrule name matched hname h => instantiate_inside (hproper rule hrule) hname h,
    fun h source hnames fuel commands hcommands => ?_⟩
  obtain ⟨hiff, hrules⟩ := parse_accepted text
  have hfits : Fits source (declaredRules (text.splitOn '\n')) :=
    declaredRules_fit (hiff.mp h)
  rw [hrules h] at hcommands hproper ⊢
  generalize declaredRules (text.splitOn '\n') = rules at hcommands hproper hfits
  rw [← expandRulesBy_entries] at hcommands
  have hderived := expandRulesBy_derived (fun _ => .refl _) hfits hcommands
  constructor
  · intro hinside rule hrule name hgiven hdots
    have hmatched : ∃ matched, instantiate rule name = some matched :=
      ⟨_, if_pos hdots.1⟩
    obtain ⟨matched, hmatched⟩ := hmatched
    cases hgiven with
    | file hwildcard hsource entries size mtime hls hmem =>
      have hin := hinside _ ((hderived _).mpr
        (.source hrule hwildcard hsource (mem_sourceMatches_of hls hmem hmatched)))
      exact (instantiate_inside (hproper rule hrule) (listed_fileName hnames hls hmem)
        hmatched).mp hin hdots
    | output hover command hcommand hdirectory hname =>
      subst hname
      have hin := hinside _ ((hderived _).mpr (.output hrule hover hcommand hdirectory hmatched))
      have hnamed := inside_iff.mp (hinside command ((hderived command).mpr hcommand))
      exact (instantiate_inside (hproper rule hrule) hnamed.fileName hmatched).mp hin hdots
  · exact fun hdots command hcommand => ((hderived command).mp hcommand).inside hproper hnames hdots

/-- `@/o/*`, of the files `a*`. -/
def starOfA : Rule where
  output := [['o'], ['*']]
  command := "x a*".toList
  wildcardSource := [['a', '*']]

/-- Of a file `a.` it makes `@/o/.`. -/
theorem instantiated_outside : (parse "@/o/* = run x a*".toList).errors.isEmpty = true ∧
    starOfA ∈ (parse "@/o/* = run x a*".toList).rules ∧ FileName ['a', '.'] ∧
    ∃ matched, instantiate starOfA ['a', '.'] = some matched ∧ ¬Inside matched.output :=
  ⟨by decide +kernel, by decide +kernel, ⟨by decide, by decide⟩, _, rfl, by decide +kernel⟩

theorem instantiated_inside_starOfA :
    ∃ matched, instantiate starOfA ['a', 'b'] = some matched ∧ Inside matched.output := by
  refine ⟨_, rfl, ((instantiated_inside "@/o/* = run x a*".toList).1 starOfA (by decide +kernel)
    ['a', 'b'] _ ⟨by decide, by decide⟩ rfl).mpr ?_⟩
  rintro ⟨_, hdots⟩
  exact absurd hdots (by decide +kernel)

end MakeBelieve.Manifest
