import MakeBelieve.Tree.Layout

namespace MakeBelieve.Manifest

open MakeBelieve.Tree (Action Command Commands EntryInfo)

/-- A rule of the manifest; `wildcardSource` is empty for a simple one. -/
structure Rule where
  output : Path
  action : Action := .run
  command : List Char := []
  wildcardSource : Path := []
  wildcardOverOutputs : Bool := false
  deriving DecidableEq

def Rule.isWildcard (rule : Rule) : Bool := decide (rule.wildcardSource ≠ [])

def filename (path : Path) : Name := path.getLastD []

/-- A file name with a `*`, as what surrounds it. -/
structure NamePattern where
  before : Name
  after : Name

/-- What a name holds before and after its `*`; one with none stands for both, as `npos + 1` is 0. -/
def NamePattern.ofName (name : Name) : NamePattern where
  before := name.takeWhile (· ≠ '*')
  after := if '*' ∈ name then (name.dropWhile (· ≠ '*')).tail else name

def NamePattern.accepts (pattern : NamePattern) (name : Name) : Bool :=
  decide (pattern.before.length + pattern.after.length < name.length) &&
    pattern.before.isPrefixOf name && pattern.after.isSuffixOf name

/-- What the `*` stands for in a name the pattern accepts. -/
def NamePattern.stem (pattern : NamePattern) (name : Name) : Name :=
  (name.drop pattern.before.length).take
    (name.length - pattern.before.length - pattern.after.length)

/-- `instantiate`: the simple rule a wildcard stands for, given a source's name. -/
def instantiate (rule : Rule) (sourceName : Name) : Option Rule :=
  let source := NamePattern.ofName (filename rule.wildcardSource)
  if source.accepts sourceName then
    let stem := source.stem sourceName
    let output := NamePattern.ofName (filename rule.output)
    some
      { output := rule.output.dropLast ++ [output.before ++ stem ++ output.after]
        action := rule.action
        command := rule.command.flatMap fun c => if c = '*' then stem else [c] }
  else none

/-- A source tree as it stands: what `status`, `ls` and a read give. An entry that there is has a
directory above it, and a listing is of what there is. -/
structure SourceTree where
  status : Path → Option EntryInfo
  ls : Path → Option (List (Name × EntryInfo))
  read : Path → Option (List Char) := fun _ => none
  root : ∃ mtime, status [] = some (.directory mtime)
  normal : ∀ path, (status path).isSome → Tree.NormalPath path
  parent : ∀ directory name, (status (directory ++ [name])).isSome →
    ∃ mtime, status directory = some (.directory mtime)
  listed : ∀ directory entries, ls directory = some entries →
    (∃ mtime, status directory = some (.directory mtime)) ∧
    ∀ name info, (name, info) ∈ entries ↔ status (directory ++ [name]) = some info

/-- Adds a command, unless its output has one already. -/
def emplace (commands : Commands) (command : Command) : Commands :=
  if h : (commands.find command.output).isSome then commands
  else
    { entries := commands.entries ++ [command]
      nodup := by
        rw [List.map_append, List.nodup_append]
        refine ⟨commands.nodup, by simp, ?_⟩
        rintro output hmem _ hlast rfl
        obtain ⟨other, hother, hout⟩ := List.mem_map.mp hmem
        refine h (Commands.find_isSome.mpr ⟨other, hother, ?_⟩)
        simpa [hout] using hlast }

def commandOf (rule : Rule) : Command :=
  { output := rule.output, action := rule.action, text := rule.command }

def declare (commands : Commands) (rule : Rule) : Commands := emplace commands (commandOf rule)

/-- What an entry of a wildcard's directory declares: a file its pattern matches. -/
def matchEntry (rule : Rule) (entry : Name × EntryInfo) : Option Rule :=
  match entry.2 with
  | .file _ _ => instantiate rule entry.1
  | .directory _ => none

/-- The rules a wildcard over source files stands for. -/
def sourceMatches (source : SourceTree) (rule : Rule) : List Rule :=
  match source.ls rule.wildcardSource.dropLast with
  | none => []
  | some entries => entries.filterMap (matchEntry rule)

/-- What a rule declares at first, a wildcard over outputs being left until there are some. -/
def declareRule (source : SourceTree) (commands : Commands) (rule : Rule) : Commands :=
  if rule.isWildcard = false then declare commands rule
  else if rule.wildcardOverOutputs then commands
  else (sourceMatches source rule).foldl declare commands

/-- The first part of `expand_rules`. -/
def expandSources (source : SourceTree) (rules : List Rule) : Commands :=
  rules.foldl (declareRule source) {}

/-- The rules a wildcard over outputs stands for that are not yet declared. -/
def outputMatches (commands : Commands) (rule : Rule) : List Rule :=
  commands.entries.filterMap fun command =>
    if command.output.dropLast ≠ rule.wildcardSource.dropLast then none
    else (instantiate rule (filename command.output)).filter fun matched =>
      (commands.find matched.output).isNone

/-- What a wildcard over outputs adds, and whether anything has been. -/
def roundRule (s : Bool × Commands) (rule : Rule) : Bool × Commands :=
  if rule.wildcardOverOutputs then
    (s.1 || !(outputMatches s.2 rule).isEmpty, (outputMatches s.2 rule).foldl declare s.2)
  else s

/-- Once round the wildcards over outputs. -/
def goRound (rules : List Rule) (commands : Commands) : Bool × Commands :=
  rules.foldl roundRule (false, commands)

/-- Round and round, as often as `fuel` allows, until nothing is added. -/
def untilAdded (rules : List Rule) : Nat → Commands → Option Commands
  | 0, _ => none
  | fuel + 1, commands =>
    if (goRound rules commands).1 then untilAdded rules fuel (goRound rules commands).2
    else some (goRound rules commands).2

def expandRules (fuel : Nat) (source : SourceTree) (rules : List Rule) : Option Commands :=
  untilAdded rules fuel (expandSources source rules)

/-! ### Commands are looked up, and the order they are held in does not show -/

/-- Both have the same command for each output. -/
def SameCommands (commands commands' : Commands) : Prop :=
  ∀ output, commands.find output = commands'.find output

theorem SameCommands.refl (commands : Commands) : SameCommands commands commands := fun _ => rfl

theorem SameCommands.symm {commands commands' : Commands} (h : SameCommands commands commands') :
    SameCommands commands' commands := fun output => (h output).symm

theorem SameCommands.trans {a b c : Commands} (h : SameCommands a b) (h' : SameCommands b c) :
    SameCommands a c := fun output => (h output).trans (h' output)

theorem find_emplace (commands : Commands) (command : Command) (output : Path) :
    (emplace commands command).find output =
      (commands.find output).or (if command.output = output then some command else none) := by
  unfold emplace
  split
  · next h =>
    split
    · next heq =>
      rw [heq] at h
      obtain ⟨other, hother⟩ := Option.isSome_iff_exists.mp h
      rw [hother]
      rfl
    · rw [Option.or_none]
  · unfold Commands.find
    rw [List.find?_append]
    by_cases heq : command.output = output
    · simp [heq]
    · simp [heq]

/-- Declaring rules adds, of each output there is none for yet, the first rule's command. -/
theorem find_foldl_declare (rules : List Rule) (commands : Commands) (output : Path) :
    (rules.foldl declare commands).find output =
      (commands.find output).or
        ((rules.find? fun rule => rule.output = output).map commandOf) := by
  induction rules generalizing commands with
  | nil => simp
  | cons rule rules ih =>
    rw [List.foldl_cons, ih, declare, find_emplace, Option.or_assoc]
    congr 1
    by_cases heq : rule.output = output
    · simp [commandOf, heq]
    · simp [commandOf, heq]

/-- No two rules of a list declare the same output. -/
def Distinct (rules : List Rule) : Prop :=
  ∀ rule ∈ rules, ∀ other ∈ rules, rule.output = other.output → rule = other

/-- Of rules with one for each output, which come first does not matter. -/
theorem Distinct.find {rules rules' : List Rule} (h : Distinct rules)
    (hmem : ∀ rule, rule ∈ rules ↔ rule ∈ rules') (output : Path) :
    (rules.find? fun rule => rule.output = output) =
      rules'.find? fun rule => rule.output = output := by
  have hfound : ∀ {l : List Rule} {rule : Rule},
      (l.find? fun rule => rule.output = output) = some rule → rule ∈ l ∧ rule.output = output := by
    intro l rule hl
    exact ⟨List.mem_of_find?_eq_some hl, by simpa using List.find?_some hl⟩
  cases hfind : rules.find? fun rule => rule.output = output with
  | none =>
    symm
    rw [List.find?_eq_none] at hfind ⊢
    exact fun rule hrule => hfind rule ((hmem rule).mpr hrule)
  | some rule =>
    obtain ⟨hrule, hout⟩ := hfound hfind
    cases hfind' : rules'.find? fun rule => rule.output = output with
    | none =>
      rw [List.find?_eq_none] at hfind'
      exact absurd (by simpa using hout) (hfind' rule ((hmem rule).mp hrule))
    | some other =>
      obtain ⟨hother, hout'⟩ := hfound hfind'
      rw [h rule hrule other ((hmem other).mpr hother) (hout.trans hout'.symm)]

theorem SameCommands.foldl_declare {rules rules' : List Rule} (hd : Distinct rules)
    (hmem : ∀ rule, rule ∈ rules ↔ rule ∈ rules') {commands commands' : Commands}
    (h : SameCommands commands commands') :
    SameCommands (rules.foldl declare commands) (rules'.foldl declare commands') := by
  intro output
  rw [find_foldl_declare, find_foldl_declare, h output, hd.find hmem output]

/-! ### What a wildcard stands for -/

/-- A name that a pattern accepts is what its `*` stands for, with the rest around it. -/
theorem NamePattern.accepts_stem {pattern : NamePattern} {name : Name}
    (h : pattern.accepts name = true) :
    name = pattern.before ++ pattern.stem name ++ pattern.after := by
  unfold accepts at h
  simp only [Bool.and_eq_true, decide_eq_true_eq, List.isPrefixOf_iff_prefix,
    List.isSuffixOf_iff_suffix] at h
  obtain ⟨⟨hlen, ⟨rest, rfl⟩⟩, hafter⟩ := h
  rw [List.length_append] at hlen
  have hsuffix : pattern.after <:+ rest :=
    List.suffix_of_suffix_length_le hafter (List.suffix_append _ _) (by omega)
  obtain ⟨middle, rfl⟩ := hsuffix
  have hstem : pattern.stem (pattern.before ++ (middle ++ pattern.after)) = middle := by
    unfold stem
    rw [List.drop_left, List.length_append, List.length_append, Nat.add_sub_cancel_left,
      Nat.add_sub_cancel, List.take_left]
  rw [hstem, List.append_assoc]

/-- Each name a wildcard is given makes an output of its own. -/
theorem instantiate_inj {rule matched matched' : Rule} {name name' : Name}
    (h : instantiate rule name = some matched) (h' : instantiate rule name' = some matched')
    (hout : matched.output = matched'.output) : name = name' := by
  unfold instantiate at h h'
  dsimp only at h h'
  split at h
  · next hname =>
    split at h'
    · next hname' =>
      obtain rfl := Option.some.inj h
      obtain rfl := Option.some.inj h'
      have hlast := (List.append_inj' hout rfl).2
      simp only [List.cons.injEq, and_true, List.append_cancel_right_eq,
        List.append_cancel_left_eq] at hlast
      rw [NamePattern.accepts_stem hname, NamePattern.accepts_stem hname', hlast]
    · simp at h'
  · simp at h

theorem sourceMatches_distinct (source : SourceTree) (rule : Rule) :
    Distinct (sourceMatches source rule) := by
  have hentry : ∀ {entry : Name × EntryInfo} {matched : Rule},
      matchEntry rule entry = some matched → instantiate rule entry.1 = some matched := by
    intro entry matched h
    unfold matchEntry at h
    split at h
    · exact h
    · simp at h
  intro matched hmem matched' hmem' hout
  unfold sourceMatches at hmem hmem'
  cases hls : source.ls rule.wildcardSource.dropLast with
  | none => simp [hls] at hmem
  | some entries =>
    rw [hls] at hmem hmem'
    obtain ⟨entry, _, hmatch⟩ := List.mem_filterMap.mp hmem
    obtain ⟨entry', _, hmatch'⟩ := List.mem_filterMap.mp hmem'
    have heq := instantiate_inj (hentry hmatch) (hentry hmatch') hout
    exact Option.some.inj ((hentry hmatch).symm.trans (heq ▸ hentry hmatch'))

theorem mem_outputMatches {commands : Commands} {rule matched : Rule} :
    matched ∈ outputMatches commands rule ↔
      ∃ command, commands.find command.output = some command ∧
        command.output.dropLast = rule.wildcardSource.dropLast ∧
        instantiate rule (filename command.output) = some matched ∧
        commands.find matched.output = none := by
  have hentries : ∀ command, command ∈ commands.entries ↔
      commands.find command.output = some command := by
    intro command
    refine ⟨fun hmem => ?_, Commands.find_mem⟩
    obtain ⟨found, hfound⟩ := Option.isSome_iff_exists.mp
      (Commands.find_isSome.mpr ⟨command, hmem, rfl⟩)
    rw [hfound]
    exact congrArg some (List.inj_on_of_nodup_map commands.nodup (Commands.find_mem hfound) hmem
      (Commands.find_output hfound))
  unfold outputMatches
  simp only [List.mem_filterMap, hentries]
  refine exists_congr fun command => and_congr_right fun _ => ?_
  by_cases hdir : command.output.dropLast = rule.wildcardSource.dropLast
  · simp [hdir, Option.filter_eq_some_iff]
  · simp [hdir]

theorem outputMatches_distinct (commands : Commands) (rule : Rule) :
    Distinct (outputMatches commands rule) := by
  intro matched hmem matched' hmem' hout
  obtain ⟨command, _, _, hmatch, _⟩ := mem_outputMatches.mp hmem
  obtain ⟨command', _, _, hmatch', _⟩ := mem_outputMatches.mp hmem'
  have heq := instantiate_inj hmatch hmatch' hout
  exact Option.some.inj (hmatch.symm.trans (heq ▸ hmatch'))

/-! ### Expanding rules anew -/

theorem expandSources_same {source source' : SourceTree} {rules : List Rule}
    (h : ∀ rule ∈ rules, rule.isWildcard = true → rule.wildcardOverOutputs = false →
      ∀ matched, matched ∈ sourceMatches source rule ↔ matched ∈ sourceMatches source' rule) :
    SameCommands (expandSources source rules) (expandSources source' rules) := by
  unfold expandSources
  suffices hfold : ∀ commands commands' : Commands, SameCommands commands commands' →
      SameCommands (rules.foldl (declareRule source) commands)
        (rules.foldl (declareRule source') commands') from hfold _ _ (.refl _)
  induction rules with
  | nil => exact fun _ _ hsame => hsame
  | cons rule rules ih =>
    intro commands commands' hsame
    rw [List.foldl_cons, List.foldl_cons]
    refine ih (fun other hother => h other (List.mem_cons_of_mem _ hother)) _ _ ?_
    unfold declareRule
    split
    · exact @SameCommands.foldl_declare [rule] [rule]
        (fun a ha b hb _ => by rw [List.mem_singleton.mp ha, List.mem_singleton.mp hb])
        (fun _ => Iff.rfl) _ _ hsame
    · next hwildcard =>
      split
      · exact hsame
      · next hover =>
        exact hsame.foldl_declare (sourceMatches_distinct source rule)
          (h rule (List.mem_cons_self ..) (by simpa using hwildcard) (by simpa using hover))

theorem roundRule_same (rule : Rule) {s s' : Bool × Commands} (hadded : s.1 = s'.1)
    (h : SameCommands s.2 s'.2) :
    (roundRule s rule).1 = (roundRule s' rule).1 ∧
      SameCommands (roundRule s rule).2 (roundRule s' rule).2 := by
  unfold roundRule
  split
  · have hmem : ∀ matched, matched ∈ outputMatches s.2 rule ↔
        matched ∈ outputMatches s'.2 rule := by
      intro matched
      rw [mem_outputMatches, mem_outputMatches]
      simp only [h _]
    have hempty : (outputMatches s.2 rule).isEmpty = (outputMatches s'.2 rule).isEmpty := by
      rw [Bool.eq_iff_iff, List.isEmpty_iff, List.isEmpty_iff, List.eq_nil_iff_forall_not_mem,
        List.eq_nil_iff_forall_not_mem]
      simp only [hmem]
    exact ⟨by rw [hadded, hempty], h.foldl_declare (outputMatches_distinct s.2 rule) hmem⟩
  · exact ⟨hadded, h⟩

theorem goRound_same (rules : List Rule) {commands commands' : Commands}
    (h : SameCommands commands commands') :
    (goRound rules commands).1 = (goRound rules commands').1 ∧
      SameCommands (goRound rules commands).2 (goRound rules commands').2 := by
  unfold goRound
  suffices hfold : ∀ s s' : Bool × Commands, s.1 = s'.1 → SameCommands s.2 s'.2 →
      (rules.foldl roundRule s).1 = (rules.foldl roundRule s').1 ∧
        SameCommands (rules.foldl roundRule s).2 (rules.foldl roundRule s').2 from
    hfold _ _ rfl h
  induction rules with
  | nil => exact fun _ _ hadded hsame => ⟨hadded, hsame⟩
  | cons rule rules ih =>
    intro s s' hadded hsame
    obtain ⟨hadded', hsame'⟩ := roundRule_same rule hadded hsame
    exact ih _ _ hadded' hsame'

theorem untilAdded_same (rules : List Rule) (fuel : Nat) {commands commands' result : Commands}
    (h : SameCommands commands commands') (hresult : untilAdded rules fuel commands = some result) :
    ∃ result', untilAdded rules fuel commands' = some result' ∧ SameCommands result result' := by
  induction fuel generalizing commands commands' with
  | zero => simp [untilAdded] at hresult
  | succ fuel ih =>
    obtain ⟨hadded, hsame⟩ := goRound_same rules h
    unfold untilAdded at hresult ⊢
    rw [← hadded]
    split at hresult
    · next hround =>
      rw [if_pos hround]
      exact ih hsame hresult
    · next hround =>
      rw [if_neg hround]
      exact ⟨_, rfl, Option.some.inj hresult ▸ hsame⟩

/-- What the rules expand to, however often it takes to go round. -/
def Expands (source : SourceTree) (rules : List Rule) (commands : Commands) : Prop :=
  ∃ fuel expanded, expandRules fuel source rules = some expanded ∧ SameCommands expanded commands

theorem untilAdded_more {rules : List Rule} {fuel : Nat} {commands result : Commands}
    (h : untilAdded rules fuel commands = some result) (more : Nat) :
    untilAdded rules (fuel + more) commands = some result := by
  induction fuel generalizing commands with
  | zero => simp [untilAdded] at h
  | succ fuel ih =>
    rw [Nat.succ_add]
    unfold untilAdded at h ⊢
    split at h
    · next hround =>
      rw [if_pos hround]
      exact ih h
    · next hround =>
      rw [if_neg hround]
      exact h

/-- Rules expand to one set of commands at most. -/
theorem Expands.unique {source : SourceTree} {rules : List Rule} {commands commands' : Commands}
    (h : Expands source rules commands) (h' : Expands source rules commands') :
    SameCommands commands commands' := by
  obtain ⟨fuel, expanded, hexpanded, hsame⟩ := h
  obtain ⟨fuel', expanded', hexpanded', hsame'⟩ := h'
  have hone := untilAdded_more hexpanded fuel'
  have hother := untilAdded_more hexpanded' fuel
  rw [Nat.add_comm] at hother
  obtain rfl := Option.some.inj (hone.symm.trans hother)
  exact hsame.symm.trans hsame'

theorem Expands.of_same {source : SourceTree} {rules : List Rule} {commands commands' : Commands}
    (h : Expands source rules commands) (hsame : SameCommands commands commands') :
    Expands source rules commands' := by
  obtain ⟨fuel, expanded, hexpanded, hsame'⟩ := h
  exact ⟨fuel, expanded, hexpanded, hsame'.trans hsame⟩

/-- Rules expand to what they did where each wildcard over source files matches what it did. -/
theorem Expands.source {source source' : SourceTree} {rules : List Rule} {commands : Commands}
    (h : Expands source rules commands)
    (hsame : ∀ rule ∈ rules, rule.isWildcard = true → rule.wildcardOverOutputs = false →
      ∀ matched, matched ∈ sourceMatches source rule ↔ matched ∈ sourceMatches source' rule) :
    Expands source' rules commands := by
  obtain ⟨fuel, expanded, hexpanded, hexpandsame⟩ := h
  obtain ⟨expanded', hexpanded', hsame'⟩ := untilAdded_same rules fuel (expandSources_same hsame)
    hexpanded
  exact ⟨fuel, expanded', hexpanded', hsame'.symm.trans hexpandsame⟩

end MakeBelieve.Manifest
