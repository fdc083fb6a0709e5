import Mathlib.Data.Fintype.EquivFin
import Mathlib.Data.Set.Finite.Lattice
import Mathlib.Order.WellFounded
import MakeBelieve.Manifest.Clash

namespace MakeBelieve.Manifest

open MakeBelieve.Tree (Command Commands)

/-! ### Going round the commands in any order -/

section

variable (iterate : Commands → List Command)

/-- `outputMatches`, with the commands gone through as `iterate` has them. -/
def outputMatchesBy (commands : Commands) (rule : Rule) : List Rule :=
  (iterate commands).filterMap fun command =>
    if command.output.dropLast ≠ rule.wildcardSource.dropLast then none
    else (instantiate rule (filename command.output)).filter fun matched =>
      (commands.find matched.output).isNone

def roundRuleBy (s : Bool × Commands) (rule : Rule) : Bool × Commands :=
  if rule.wildcardOverOutputs then
    (s.1 || !(outputMatchesBy iterate s.2 rule).isEmpty,
      (outputMatchesBy iterate s.2 rule).foldl declare s.2)
  else s

def goRoundBy (rules : List Rule) (commands : Commands) : Bool × Commands :=
  rules.foldl (roundRuleBy iterate) (false, commands)

def untilAddedBy (rules : List Rule) : Nat → Commands → Option Commands
  | 0, _ => none
  | fuel + 1, commands =>
    if (goRoundBy iterate rules commands).1 then
      untilAddedBy rules fuel (goRoundBy iterate rules commands).2
    else some (goRoundBy iterate rules commands).2

def expandRulesBy (fuel : Nat) (source : SourceTree) (rules : List Rule) : Option Commands :=
  untilAddedBy iterate rules fuel (expandSources source rules)

end

theorem expandRulesBy_entries (fuel : Nat) (source : SourceTree) (rules : List Rule) :
    expandRulesBy Commands.entries fuel source rules = expandRules fuel source rules := by
  unfold expandRulesBy expandRules
  generalize expandSources source rules = commands
  induction fuel generalizing commands with
  | zero => rfl
  | succ fuel ih =>
    unfold untilAddedBy untilAdded
    rw [ih]
    rfl

/-! ### What rules can declare -/

/-- A set of commands with those of the literal rules and of the wildcards over source files, closed
under every wildcard over outputs. -/
structure Closed (source : SourceTree) (rules : List Rule) (s : Command → Prop) : Prop where
  literal : ∀ rule ∈ rules, rule.isWildcard = false → s (commandOf rule)
  source : ∀ rule ∈ rules, rule.isWildcard = true → rule.wildcardOverOutputs = false →
    ∀ matched ∈ sourceMatches source rule, s (commandOf matched)
  output : ∀ rule ∈ rules, rule.wildcardOverOutputs = true → ∀ command, s command →
    command.output.dropLast = rule.wildcardSource.dropLast →
    ∀ matched, instantiate rule (filename command.output) = some matched → s (commandOf matched)

/-- The least of them. -/
inductive Derived (source : SourceTree) (rules : List Rule) : Command → Prop
  | literal {rule : Rule} (hrule : rule ∈ rules) (hliteral : rule.isWildcard = false) :
      Derived source rules (commandOf rule)
  | source {rule matched : Rule} (hrule : rule ∈ rules) (hwildcard : rule.isWildcard = true)
      (hsource : rule.wildcardOverOutputs = false) (hmatched : matched ∈ sourceMatches source rule) :
      Derived source rules (commandOf matched)
  | output {rule matched : Rule} {command : Command} (hrule : rule ∈ rules)
      (hover : rule.wildcardOverOutputs = true) (hcommand : Derived source rules command)
      (hdirectory : command.output.dropLast = rule.wildcardSource.dropLast)
      (hmatched : instantiate rule (filename command.output) = some matched) :
      Derived source rules (commandOf matched)

variable {source : SourceTree} {rules : List Rule}

theorem derived_closed : Closed source rules (Derived source rules) where
  literal _ hrule hliteral := .literal hrule hliteral
  source _ hrule hwildcard hsource _ hmatched := .source hrule hwildcard hsource hmatched
  output _ hrule hover _ hcommand hdirectory _ hmatched :=
    .output hrule hover hcommand hdirectory hmatched

theorem Derived.least {command : Command} (h : Derived source rules command)
    {s : Command → Prop} (hs : Closed source rules s) : s command := by
  induction h with
  | literal hrule hliteral => exact hs.literal _ hrule hliteral
  | source hrule hwildcard hsource hmatched => exact hs.source _ hrule hwildcard hsource _ hmatched
  | output hrule hover _ hdirectory hmatched ih =>
    exact hs.output _ hrule hover _ ih hdirectory _ hmatched

theorem mem_sourceMatches_instantiate {rule matched : Rule}
    (h : matched ∈ sourceMatches source rule) : ∃ name, instantiate rule name = some matched := by
  unfold sourceMatches at h
  split at h
  · simp at h
  · obtain ⟨entry, _, hmatch⟩ := List.mem_filterMap.mp h
    unfold matchEntry at hmatch
    split at hmatch
    · exact ⟨_, hmatch⟩
    · simp at hmatch

/-- What can be declared is declared by one of the rules. -/
theorem Derived.declares (hproper : ∀ rule ∈ rules, rule.Proper) {command : Command}
    (h : Derived source rules command) : ∃ rule ∈ rules, ∃ given declared,
      rule.declares given = some declared ∧ commandOf declared = command := by
  cases h with
  | literal hrule hliteral => exact ⟨_, hrule, none, _, by simp [Rule.declares, hliteral], rfl⟩
  | source hrule hwildcard _ hmatched =>
    obtain ⟨name, hname⟩ := mem_sourceMatches_instantiate hmatched
    exact ⟨_, hrule, some name, _, by simp [Rule.declares, hwildcard, hname], rfl⟩
  | @output rule matched command hrule hover _ _ hmatched =>
    have hwildcard : rule.isWildcard = true := by
      by_contra hnot
      have hliteral := ((hproper rule hrule).literal (by simpa using hnot)).1
      rw [hover] at hliteral
      simp at hliteral
    exact ⟨_, hrule, some (filename command.output), _,
      by simp [Rule.declares, hwildcard, hmatched], rfl⟩

/-- Whether what the rules can declare fits together: no output of it twice, or above another. -/
def Fits (source : SourceTree) (rules : List Rule) : Prop :=
  ∀ command command', Derived source rules command → Derived source rules command' →
    command.output <+: command'.output → command = command'

theorem declaredRules_fit {lines : List (List Char)} (h : Accepted lines) :
    Fits source (declaredRules lines) := by
  intro command command' hcommand hcommand' hpre
  obtain ⟨rule, hrule, given, declared, hdeclares, rfl⟩ := hcommand.declares declaredRules_proper
  obtain ⟨rule', hrule', given', declared', hdeclares', rfl⟩ :=
    hcommand'.declares declaredRules_proper
  obtain ⟨i, hi⟩ := List.mem_iff_getElem?.mp hrule
  obtain ⟨j, hj⟩ := List.mem_iff_getElem?.mp hrule'
  obtain ⟨rfl, rfl⟩ := declaredRules_apart h hi hj hdeclares hdeclares' hpre
  rw [hi] at hj
  obtain rfl := Option.some.inj hj
  rw [hdeclares] at hdeclares'
  rw [Option.some.inj hdeclares']

/-! ### What is declared -/

section

variable {p : Command → Prop} {commands : Commands} {command : Command}

/-- A command is added, or is there, where none else has its output. -/
theorem mem_emplace (hinj : ∀ a b, p a → p b → a.output = b.output → a = b)
    (hcommands : ∀ c ∈ commands.entries, p c) {new : Command} (hnew : p new) :
    command ∈ (emplace commands new).entries ↔ command ∈ commands.entries ∨ command = new := by
  unfold emplace
  split
  · next hsome =>
    obtain ⟨other, hother, heq⟩ := Commands.find_isSome.mp hsome
    obtain rfl := hinj other new (hcommands other hother) hnew heq
    refine ⟨.inl, fun h => h.elim id ?_⟩
    rintro rfl
    exact hother
  · simp

theorem mem_foldl_declare (hinj : ∀ a b, p a → p b → a.output = b.output → a = b)
    (hcommands : ∀ c ∈ commands.entries, p c) {declared : List Rule}
    (hdeclared : ∀ rule ∈ declared, p (commandOf rule)) :
    command ∈ (declared.foldl declare commands).entries ↔
      command ∈ commands.entries ∨ ∃ rule ∈ declared, commandOf rule = command := by
  induction declared generalizing commands with
  | nil => simp
  | cons rule declared ih =>
    obtain ⟨hrule, hdeclared⟩ := List.forall_mem_cons.mp hdeclared
    have hmem : ∀ {c}, c ∈ (declare commands rule).entries ↔
        c ∈ commands.entries ∨ c = commandOf rule := mem_emplace hinj hcommands hrule
    have hall : ∀ c ∈ (declare commands rule).entries, p c := by
      intro c hc
      obtain hc | rfl := hmem.mp hc
      · exact hcommands c hc
      · exact hrule
    rw [List.foldl_cons, ih hall hdeclared, hmem]
    simp [or_assoc, eq_comm]

theorem length_declare_le (commands : Commands) (declared : List Rule) :
    commands.entries.length ≤ (declared.foldl declare commands).entries.length := by
  induction declared generalizing commands with
  | nil => exact Nat.le_refl _
  | cons rule declared ih =>
    refine Nat.le_trans ?_ (ih (declare commands rule))
    unfold declare emplace
    split
    · exact Nat.le_refl _
    · simp

theorem length_declare_lt {rule : Rule} {declared : List Rule}
    (h : commands.find rule.output = none) :
    commands.entries.length < ((rule :: declared).foldl declare commands).entries.length := by
  refine Nat.lt_of_lt_of_le ?_ (length_declare_le (declare commands rule) declared)
  unfold declare emplace
  rw [dif_neg (by simp [commandOf, h])]
  simp

end

/-- What a rule adds at first. -/
def Base (source : SourceTree) (rule : Rule) (command : Command) : Prop :=
  (rule.isWildcard = false ∧ commandOf rule = command) ∨
    (rule.isWildcard = true ∧ rule.wildcardOverOutputs = false ∧
      ∃ matched ∈ sourceMatches source rule, commandOf matched = command)

theorem Base.derived {rule : Rule} {command : Command} (hrule : rule ∈ rules)
    (h : Base source rule command) : Derived source rules command := by
  obtain ⟨hliteral, rfl⟩ | ⟨hwildcard, hsource, matched, hmatched, rfl⟩ := h
  · exact .literal hrule hliteral
  · exact .source hrule hwildcard hsource hmatched

theorem Fits.inj (h : Fits source rules) (a b : Command) (ha : Derived source rules a)
    (hb : Derived source rules b) (heq : a.output = b.output) : a = b :=
  h a b ha hb (heq ▸ List.prefix_refl _)

theorem mem_expandSources (hfits : Fits source rules) {command : Command} :
    command ∈ (expandSources source rules).entries ↔ ∃ rule ∈ rules, Base source rule command := by
  suffices hfold : ∀ (first : List Rule), (∀ rule ∈ first, rule ∈ rules) → ∀ commands : Commands,
      (∀ c ∈ commands.entries, Derived source rules c) →
      (command ∈ (first.foldl (declareRule source) commands).entries ↔
        command ∈ commands.entries ∨ ∃ rule ∈ first, Base source rule command) by
    have hall := hfold rules (fun _ h => h) {} (by simp)
    simpa [expandSources] using hall
  intro first
  induction first with
  | nil => simp
  | cons rule first ih =>
    intro hfirst commands hcommands
    obtain ⟨hrule, hfirst⟩ := List.forall_mem_cons.mp hfirst
    have hmem : ∀ c, c ∈ (declareRule source commands rule).entries ↔
        c ∈ commands.entries ∨ Base source rule c := by
      intro c
      unfold declareRule Base
      split
      · next hliteral =>
        refine (@mem_foldl_declare _ commands c hfits.inj hcommands [rule] ?_).trans ?_
        · simpa using Derived.literal hrule hliteral
        · simp [hliteral]
      · next hwildcard =>
        have hwildcard : rule.isWildcard = true := by simpa using hwildcard
        split
        · next hover => simp [hwildcard, hover]
        · next hsource =>
          have hsource : rule.wildcardOverOutputs = false := by simpa using hsource
          refine (mem_foldl_declare hfits.inj hcommands ?_).trans ?_
          · exact fun matched hmatched => .source hrule hwildcard hsource hmatched
          · simp [hwildcard, hsource]
    have hall : ∀ c ∈ (declareRule source commands rule).entries, Derived source rules c :=
      fun c hc => ((hmem c).mp hc).elim (hcommands c) (Base.derived hrule)
    rw [List.foldl_cons, ih hfirst _ hall, hmem]
    simp [or_assoc]

/-! ### Going round -/

section

variable {iterate : Commands → List Command}
  (hiterate : ∀ commands : Commands, (iterate commands).Perm commands.entries)

include hiterate

theorem mem_outputMatchesBy {commands : Commands} {rule matched : Rule} :
    matched ∈ outputMatchesBy iterate commands rule ↔ ∃ command ∈ commands.entries,
      command.output.dropLast = rule.wildcardSource.dropLast ∧
      instantiate rule (filename command.output) = some matched ∧
      commands.find matched.output = none := by
  unfold outputMatchesBy
  simp only [List.mem_filterMap, (hiterate commands).mem_iff]
  refine exists_congr fun command => and_congr_right fun _ => ?_
  by_cases hdir : command.output.dropLast = rule.wildcardSource.dropLast
  · simp [hdir, Option.filter_eq_some_iff]
  · simp [hdir]

/-- Once round: nothing is lost, only what can be declared is added, and without anything added no
wildcard over outputs has more to add. -/
theorem goRoundBy_spec (hfits : Fits source rules) {commands : Commands}
    (hcommands : ∀ c ∈ commands.entries, Derived source rules c) :
    (∀ c ∈ commands.entries, c ∈ (goRoundBy iterate rules commands).2.entries) ∧
    (∀ c ∈ (goRoundBy iterate rules commands).2.entries, Derived source rules c) ∧
    ((goRoundBy iterate rules commands).1 = true →
      commands.entries.length < (goRoundBy iterate rules commands).2.entries.length) ∧
    ((goRoundBy iterate rules commands).1 = false →
      (goRoundBy iterate rules commands).2 = commands ∧ ∀ rule ∈ rules,
        rule.wildcardOverOutputs = true → outputMatchesBy iterate commands rule = []) := by
  suffices hfold : ∀ (first : List Rule), (∀ rule ∈ first, rule ∈ rules) →
      ∀ s : Bool × Commands, (∀ c ∈ s.2.entries, Derived source rules c) →
      (∀ c ∈ s.2.entries, c ∈ (first.foldl (roundRuleBy iterate) s).2.entries) ∧
      (∀ c ∈ (first.foldl (roundRuleBy iterate) s).2.entries, Derived source rules c) ∧
      s.2.entries.length ≤ (first.foldl (roundRuleBy iterate) s).2.entries.length ∧
      ((first.foldl (roundRuleBy iterate) s).1 = true → s.1 = true ∨
        s.2.entries.length < (first.foldl (roundRuleBy iterate) s).2.entries.length) ∧
      ((first.foldl (roundRuleBy iterate) s).1 = false → s.1 = false ∧
        (first.foldl (roundRuleBy iterate) s).2 = s.2 ∧ ∀ rule ∈ first,
          rule.wildcardOverOutputs = true → outputMatchesBy iterate s.2 rule = []) by
    obtain ⟨hkept, hderived, _, hadded, hclosed⟩ :=
      hfold rules (fun _ h => h) (false, commands) hcommands
    exact ⟨hkept, hderived, fun h => (hadded h).resolve_left (by simp), fun h => (hclosed h).2⟩
  intro first
  induction first with
  | nil => exact fun _ s hs => ⟨fun _ h => h, hs, Nat.le_refl _, .inl, fun h => ⟨h, rfl, by simp⟩⟩
  | cons rule first ih =>
    intro hfirst s hs
    obtain ⟨hrule, hfirst⟩ := List.forall_mem_cons.mp hfirst
    rw [List.foldl_cons]
    cases hover : rule.wildcardOverOutputs with
    | false =>
      have hround : roundRuleBy iterate s rule = s := if_neg (by simp [hover])
      rw [hround]
      obtain ⟨hkept, hderived, hle, hadded, hclosed⟩ := ih hfirst s hs
      refine ⟨hkept, hderived, hle, hadded, fun h => ⟨(hclosed h).1, (hclosed h).2.1, ?_⟩⟩
      refine List.forall_mem_cons.mpr ⟨fun htrue => ?_, (hclosed h).2.2⟩
      rw [hover] at htrue
      simp at htrue
    | true =>
      have hround : roundRuleBy iterate s rule =
          (s.1 || !(outputMatchesBy iterate s.2 rule).isEmpty,
            (outputMatchesBy iterate s.2 rule).foldl declare s.2) := if_pos hover
      have hmatches : ∀ matched ∈ outputMatchesBy iterate s.2 rule,
          Derived source rules (commandOf matched) := by
        intro matched hmatched
        obtain ⟨command, hcommand, hdirectory, hinstance, _⟩ :=
          (mem_outputMatchesBy hiterate).mp hmatched
        exact .output hrule hover (hs command hcommand) hdirectory hinstance
      have hmem : ∀ c, c ∈ (roundRuleBy iterate s rule).2.entries ↔ c ∈ s.2.entries ∨
          ∃ matched ∈ outputMatchesBy iterate s.2 rule, commandOf matched = c := by
        intro c
        rw [hround]
        exact mem_foldl_declare hfits.inj hs hmatches
      have hs' : ∀ c ∈ (roundRuleBy iterate s rule).2.entries, Derived source rules c := by
        intro c hc
        obtain hc | ⟨matched, hmatched, rfl⟩ := (hmem c).mp hc
        · exact hs c hc
        · exact hmatches matched hmatched
      have hgrows : s.2.entries.length ≤ (roundRuleBy iterate s rule).2.entries.length := by
        rw [hround]
        exact length_declare_le _ _
      obtain ⟨hkept, hderived, hle, hadded, hclosed⟩ := ih hfirst _ hs'
      refine ⟨fun c hc => hkept c ((hmem c).mpr (.inl hc)), hderived, Nat.le_trans hgrows hle,
        fun h => ?_, fun h => ?_⟩
      · obtain htrue | hlt := hadded h
        · cases hfound : outputMatchesBy iterate s.2 rule with
          | nil =>
            rw [hround, hfound] at htrue
            exact .inl (by simpa using htrue)
          | cons matched rest =>
            refine .inr (Nat.lt_of_lt_of_le ?_ hle)
            obtain ⟨_, _, _, _, hnone⟩ := (mem_outputMatchesBy hiterate).mp
              (hfound ▸ List.mem_cons_self .. : matched ∈ outputMatchesBy iterate s.2 rule)
            rw [hround, hfound]
            exact length_declare_lt hnone
        · exact .inr (Nat.lt_of_le_of_lt hgrows hlt)
      · obtain ⟨hnone, hsame, hrest⟩ := hclosed h
        rw [hround] at hnone
        obtain ⟨hs1, hempty⟩ := Bool.or_eq_false_iff.mp hnone
        have hempty : outputMatchesBy iterate s.2 rule = [] := by simpa using hempty
        have hround' : (roundRuleBy iterate s rule).2 = s.2 := by rw [hround, hempty]; rfl
        rw [hround'] at hsame hrest
        exact ⟨hs1, hsame, List.forall_mem_cons.mpr ⟨fun _ => hempty, hrest⟩⟩

/-- Where the loop ends, what is declared is what can be. -/
theorem untilAddedBy_derived (hfits : Fits source rules) {fuel : Nat} {commands result : Commands}
    (hcommands : ∀ c ∈ commands.entries, Derived source rules c)
    (hbase : ∀ rule ∈ rules, ∀ c, Base source rule c → c ∈ commands.entries)
    (h : untilAddedBy iterate rules fuel commands = some result) :
    ∀ c, c ∈ result.entries ↔ Derived source rules c := by
  induction fuel generalizing commands with
  | zero => simp [untilAddedBy] at h
  | succ fuel ih =>
    obtain ⟨hkept, hderived, _, hclosed⟩ := goRoundBy_spec hiterate hfits hcommands
    unfold untilAddedBy at h
    split at h
    · exact ih hderived (fun rule hrule c hc => hkept c (hbase rule hrule c hc)) h
    · next hround =>
      obtain ⟨hsame, hnone⟩ := hclosed (by simpa using hround)
      obtain rfl : commands = result := hsame.symm.trans (Option.some.inj h)
      refine fun c => ⟨hcommands c, fun hc => hc.least ?_⟩
      refine ⟨fun rule hrule hliteral => hbase rule hrule _ (.inl ⟨hliteral, rfl⟩),
        fun rule hrule hwildcard hsource matched hmatched =>
          hbase rule hrule _ (.inr ⟨hwildcard, hsource, matched, hmatched, rfl⟩),
        fun rule hrule hover command hcommand hdirectory matched hmatched => ?_⟩
      -- It is declared already, or there would be more to add.
      have hfound : commands.find matched.output ≠ none := by
        intro hmissing
        have hmem := (mem_outputMatchesBy hiterate).mpr
          ⟨command, hcommand, hdirectory, hmatched, hmissing⟩
        rw [hnone rule hrule hover] at hmem
        simp at hmem
      obtain ⟨other, hother⟩ := Option.ne_none_iff_exists'.mp hfound
      have hin := Commands.find_mem hother
      have heq := hfits.inj other (commandOf matched) (hcommands other hin)
        (.output hrule hover (hcommands command hcommand) hdirectory hmatched)
        (Commands.find_output hother)
      exact heq ▸ hin

/-- The loop ends where only so much can be declared. -/
theorem untilAddedBy_ends (hfits : Fits source rules)
    (hfinite : {c | Derived source rules c}.Finite) {fuel : Nat} {commands : Commands}
    (hcommands : ∀ c ∈ commands.entries, Derived source rules c)
    (hfuel : hfinite.toFinset.card < fuel + commands.entries.length) :
    ∃ result, untilAddedBy iterate rules fuel commands = some result := by
  induction fuel generalizing commands with
  | zero =>
    have hcard : commands.entries.length ≤ hfinite.toFinset.card := by
      rw [← List.toFinset_card_of_nodup (List.Nodup.of_map _ commands.nodup)]
      refine Finset.card_le_card fun c hc => ?_
      exact hfinite.mem_toFinset.mpr (hcommands c (List.mem_toFinset.mp hc))
    omega
  | succ fuel ih =>
    obtain ⟨_, hderived, hadded, _⟩ := goRoundBy_spec hiterate hfits hcommands
    unfold untilAddedBy
    split
    · next hround =>
      have hlt := hadded hround
      exact ih hderived (by omega)
    · exact ⟨_, rfl⟩

end

/-! ### Only so much can be declared -/

theorem suffix_agree {a b name : Name} (ha : a <:+ name) (hb : b <:+ name) :
    (if b.length ≤ a.length then b.isSuffixOf a else a.isSuffixOf b) = true := by
  split
  · next hle =>
    exact List.isSuffixOf_iff_suffix.mpr (List.suffix_of_suffix_length_le hb ha hle)
  · next hlt =>
    exact List.isSuffixOf_iff_suffix.mpr (List.suffix_of_suffix_length_le ha hb (by omega))

theorem prefix_agree {a b name : Name} (ha : a <+: name) (hb : b <+: name) :
    (if b.length ≤ a.length then b.isPrefixOf a else a.isPrefixOf b) = true := by
  split
  · next hle =>
    exact List.isPrefixOf_iff_prefix.mpr (List.prefix_of_prefix_length_le hb ha hle)
  · next hlt =>
    exact List.isPrefixOf_iff_prefix.mpr (List.prefix_of_prefix_length_le ha hb (by omega))

/-- Patterns that accept one name agree at both ends. -/
theorem NamePattern.overlaps_of_accepts {pattern other : NamePattern} {name : Name}
    (h : pattern.accepts name = true) (hother : other.accepts name = true) :
    pattern.overlaps other = true := by
  unfold accepts at h hother
  simp only [Bool.and_eq_true, List.isPrefixOf_iff_prefix, List.isSuffixOf_iff_suffix] at h hother
  obtain ⟨⟨_, hpre⟩, hsuffix⟩ := h
  obtain ⟨⟨_, hpre'⟩, hsuffix'⟩ := hother
  unfold overlaps
  rw [Bool.and_eq_true]
  exact ⟨prefix_agree hpre hpre', suffix_agree hsuffix hsuffix'⟩

/-- A wildcard feeds what can match one of its outputs. -/
theorem instantiate_feeds {a b matched : Rule} {name : Name} (ha : a.isWildcard = true)
    (hb : b.wildcardOverOutputs = true) (h : instantiate a name = some matched)
    (hdirectory : matched.output.dropLast = b.wildcardSource.dropLast)
    (haccepts : (NamePattern.ofName (filename b.wildcardSource)).accepts
      (filename matched.output) = true) : a.feeds b = true := by
  obtain ⟨_, houtput⟩ := instantiate_some h
  have hname := congrArg filename houtput
  rw [filename_concat] at hname
  unfold NamePattern.accepts at haccepts
  simp only [Bool.and_eq_true, List.isPrefixOf_iff_prefix, List.isSuffixOf_iff_suffix]
    at haccepts
  obtain ⟨⟨_, hpre⟩, hsuffix⟩ := haccepts
  unfold Rule.feeds NamePattern.overlaps
  rw [ha, hb, Bool.true_and, Bool.true_and, Bool.and_eq_true, Bool.and_eq_true, decide_eq_true_eq]
  refine ⟨?_, prefix_agree ?_ hpre, suffix_agree ?_ hsuffix⟩
  · rw [← hdirectory, houtput, List.dropLast_concat]
  · rw [hname, List.append_assoc]
    exact List.prefix_append _ _
  · rw [hname]
    exact List.suffix_append _ _

/-- What one rule can declare. -/
def DerivedBy (source : SourceTree) (rules : List Rule) (rule : Rule) (command : Command) : Prop :=
  Base source rule command ∨ ∃ other matched, Derived source rules other ∧
    rule.wildcardOverOutputs = true ∧ other.output.dropLast = rule.wildcardSource.dropLast ∧
    instantiate rule (filename other.output) = some matched ∧ commandOf matched = command

theorem Derived.by_rule {command : Command} (h : Derived source rules command) :
    ∃ rule ∈ rules, DerivedBy source rules rule command := by
  cases h with
  | literal hrule hliteral => exact ⟨_, hrule, .inl (.inl ⟨hliteral, rfl⟩)⟩
  | source hrule hwildcard hsource hmatched =>
    exact ⟨_, hrule, .inl (.inr ⟨hwildcard, hsource, _, hmatched, rfl⟩)⟩
  | output hrule hover hcommand hdirectory hmatched =>
    exact ⟨_, hrule, .inr ⟨_, _, hcommand, hover, hdirectory, hmatched, rfl⟩⟩

theorem base_finite (source : SourceTree) (rule : Rule) : {c | Base source rule c}.Finite := by
  refine ((List.finite_toSet [commandOf rule]).union (List.finite_toSet
    ((sourceMatches source rule).map commandOf))).subset fun c hc => ?_
  obtain ⟨_, rfl⟩ | ⟨_, _, matched, hmatched, rfl⟩ := hc
  · exact .inl (List.mem_singleton_self _)
  · exact .inr (List.mem_map_of_mem hmatched)

/-- A wildcard feeds what can match what it can declare. -/
theorem DerivedBy.feeds {a b matched : Rule} {command : Command}
    (h : DerivedBy source rules a command) (ha : a.isWildcard = true)
    (hb : b.wildcardOverOutputs = true)
    (hdirectory : command.output.dropLast = b.wildcardSource.dropLast)
    (hmatched : instantiate b (filename command.output) = some matched) : a.feeds b = true := by
  have haccepts := (instantiate_some hmatched).1
  obtain (⟨hliteral, _⟩ | ⟨_, _, declared, hdeclared, rfl⟩) | ⟨_, declared, _, _, _, hname, rfl⟩ := h
  · rw [ha] at hliteral
    simp at hliteral
  · obtain ⟨name, hname⟩ := mem_sourceMatches_instantiate hdeclared
    exact instantiate_feeds ha hb hname hdirectory haccepts
  · exact instantiate_feeds ha hb hname hdirectory haccepts

/-- With no rule that feeds itself, each can be ranked above those that feed it: it declares one
output at most for each of theirs. -/
theorem derived_finite (hproper : ∀ rule ∈ rules, rule.Proper) (hends : ¬SelfFeeding rules) :
    {c | Derived source rules c}.Finite := by
  have : Finite {rule // rule ∈ rules} := (List.finite_toSet rules).to_subtype
  let r := fun (a b : {rule // rule ∈ rules}) =>
    Relation.TransGen (fun a b => a ∈ rules ∧ b ∈ rules ∧ a.feeds b = true) a.1 b.1
  have : IsTrans _ r := ⟨fun _ _ _ => .trans⟩
  have : Std.Irrefl r := ⟨fun a h => hends ⟨a.1, a.2, h⟩⟩
  have hrank : WellFounded r := Finite.wellFounded_of_trans_of_irrefl r
  have hby : ∀ rule : {rule // rule ∈ rules}, {c | DerivedBy source rules rule.1 c}.Finite := by
    intro rule
    induction rule using hrank.induction with
    | _ rule ih =>
      have hfed : {c | ∃ a : {rule // rule ∈ rules}, (a.1.isWildcard = false ∨ r a rule) ∧
          DerivedBy source rules a.1 c}.Finite := by
        rw [Set.ofPred_exists]
        refine Set.finite_iUnion fun a => ?_
        obtain hliteral | hwildcard := Bool.eq_false_or_eq_true a.1.isWildcard |>.symm
        · refine (base_finite source a.1).subset fun c hc => hc.2.elim id ?_
          rintro ⟨_, _, _, hover, _⟩
          rw [((hproper a.1 a.2).literal hliteral).1] at hover
          simp at hover
        · by_cases hfeeds : r a rule
          · exact (ih a hfeeds).subset fun c hc => hc.2
          · refine Set.finite_empty.subset fun c hc => ?_
            rcases hc.1 with hliteral | hfeeds'
            · simp [hwildcard] at hliteral
            · exact hfeeds hfeeds'
      refine ((base_finite source rule.1).union (hfed.image fun c =>
        ((instantiate rule.1 (filename c.output)).map commandOf).getD c)).subset fun c hc => ?_
      refine hc.imp id ?_
      rintro ⟨other, matched, hother, hover, hdirectory, hmatched, rfl⟩
      refine ⟨other, ?_, by simp [hmatched]⟩
      obtain ⟨a, ha, hderived⟩ := hother.by_rule
      refine ⟨⟨a, ha⟩, ?_, hderived⟩
      cases hw : a.isWildcard with
      | false => exact .inl rfl
      | true =>
        exact .inr (.single ⟨ha, rule.2, hderived.feeds hw hover hdirectory hmatched⟩)
  refine (Set.finite_iUnion hby).subset fun c hc => ?_
  obtain ⟨rule, hrule, hderived⟩ := Derived.by_rule hc
  exact Set.mem_iUnion.mpr ⟨⟨rule, hrule⟩, hderived⟩

/-! ### The result, whatever the order -/

theorem expandRulesBy_derived {iterate : Commands → List Command}
    (hiterate : ∀ commands : Commands, (iterate commands).Perm commands.entries)
    (hfits : Fits source rules) {fuel : Nat} {commands : Commands}
    (h : expandRulesBy iterate fuel source rules = some commands) :
    ∀ c, c ∈ commands.entries ↔ Derived source rules c := by
  refine untilAddedBy_derived hiterate hfits (fun c hc => ?_) (fun rule hrule c hc => ?_) h
  · obtain ⟨rule, hrule, hbase⟩ := (mem_expandSources hfits).mp hc
    exact hbase.derived hrule
  · exact (mem_expandSources hfits).mpr ⟨rule, hrule, hc⟩

theorem expandRulesBy_ends {iterate : Commands → List Command}
    (hiterate : ∀ commands : Commands, (iterate commands).Perm commands.entries)
    (hfits : Fits source rules) (hproper : ∀ rule ∈ rules, rule.Proper)
    (hends : ¬SelfFeeding rules) :
    ∃ fuel commands, expandRulesBy iterate fuel source rules = some commands := by
  have hfinite : {c | Derived source rules c}.Finite := derived_finite hproper hends
  refine ⟨hfinite.toFinset.card + 1, untilAddedBy_ends hiterate hfits hfinite (fun c hc => ?_) ?_⟩
  · obtain ⟨rule, hrule, hbase⟩ := (mem_expandSources hfits).mp hc
    exact hbase.derived hrule
  · omega

/-- The same entries in each directory, in any order. -/
def SameListing (source source' : SourceTree) : Prop :=
  ∀ directory, Option.Rel List.Perm (source.ls directory) (source'.ls directory)

theorem SameListing.mem_sourceMatches {source' : SourceTree} (h : SameListing source source')
    {rule matched : Rule} :
    matched ∈ sourceMatches source rule ↔ matched ∈ sourceMatches source' rule := by
  have hls := h rule.wildcardSource.dropLast
  unfold sourceMatches
  generalize source.ls rule.wildcardSource.dropLast = listing at hls
  generalize source'.ls rule.wildcardSource.dropLast = listing' at hls
  cases hls with
  | none => rfl
  | some hperm => exact (hperm.filterMap _).mem_iff

theorem Derived.same {source' : SourceTree} {rules' : List Rule} {command : Command}
    (hlisting : ∀ rule matched, matched ∈ sourceMatches source rule ↔
      matched ∈ sourceMatches source' rule)
    (hrules : ∀ rule, rule ∈ rules ↔ rule ∈ rules') (h : Derived source rules command) :
    Derived source' rules' command := by
  refine h.least ⟨fun rule hrule hliteral => .literal ((hrules rule).mp hrule) hliteral,
    fun rule hrule hwildcard hsource matched hmatched => ?_,
    fun rule hrule hover other hother hdirectory matched hmatched => ?_⟩
  · exact .source ((hrules rule).mp hrule) hwildcard hsource ((hlisting rule matched).mp hmatched)
  · exact .output ((hrules rule).mp hrule) hover hother hdirectory hmatched

theorem find_eq_some {commands : Commands} {output : Path} {command : Command} :
    commands.find output = some command ↔ command ∈ commands.entries ∧ command.output = output := by
  refine ⟨fun h => ⟨Commands.find_mem h, Commands.find_output h⟩, fun ⟨hmem, heq⟩ => ?_⟩
  obtain ⟨found, hfound⟩ := Option.isSome_iff_exists.mp
    (Commands.find_isSome.mpr ⟨command, hmem, heq⟩)
  rw [hfound, List.inj_on_of_nodup_map commands.nodup (Commands.find_mem hfound) hmem
    ((Commands.find_output hfound).trans heq.symm)]

theorem sameCommands_of_mem {commands commands' : Commands}
    (h : ∀ c, c ∈ commands.entries ↔ c ∈ commands'.entries) : SameCommands commands commands' := by
  intro output
  cases hfind : commands'.find output with
  | some command =>
    rw [find_eq_some, h]
    exact find_eq_some.mp hfind
  | none =>
    rw [Option.eq_none_iff_forall_ne_some] at hfind ⊢
    intro command hsome
    rw [find_eq_some, h] at hsome
    exact hfind command (find_eq_some.mpr hsome)

/-- The rules of a manifest with no errors expand, in so many rounds, to the least commands that
hold those of its literal rules and of its wildcards over source files and are closed under its
wildcards over outputs, whichever order rules, source files and commands are gone through in. -/
theorem expandRules_least {text : List Char} (h : (parse text).errors = []) (source : SourceTree) :
    ∃ fuel commands, expandRules fuel source (parse text).rules = some commands ∧
      Closed source (parse text).rules (· ∈ commands.entries) ∧
      (∀ s, Closed source (parse text).rules s → ∀ command ∈ commands.entries, s command) ∧
      ∀ (rules' : List Rule) (source' : SourceTree) (iterate : Commands → List Command),
        rules'.Perm (parse text).rules → SameListing source source' →
        (∀ commands : Commands, (iterate commands).Perm commands.entries) →
        ∃ fuel' commands', expandRulesBy iterate fuel' source' rules' = some commands' ∧
          SameCommands commands commands' := by
  obtain ⟨hiff, hrules⟩ := parse_accepted text
  have haccepted := hiff.mp h
  rw [hrules h]
  generalize hlines : declaredRules (text.splitOn '\n') = rules
  have hfits : ∀ source, Fits source rules := fun source => hlines ▸ declaredRules_fit haccepted
  have hproper : ∀ rule ∈ rules, rule.Proper := hlines ▸ declaredRules_proper
  have hends : ¬SelfFeeding rules := hlines ▸ haccepted.ends
  have hself : ∀ commands : Commands, commands.entries.Perm commands.entries := fun _ => .refl _
  obtain ⟨fuel, commands, hcommands⟩ := expandRulesBy_ends hself (hfits source) hproper hends
  have hderived := expandRulesBy_derived hself (hfits source) hcommands
  rw [expandRulesBy_entries] at hcommands
  refine ⟨fuel, commands, hcommands, ?_, fun s hs c hc => ((hderived c).mp hc).least hs, ?_⟩
  · simp only [hderived]
    exact derived_closed
  · intro rules' source' iterate hperm hlisting hiterate
    have hsame : ∀ c, Derived source rules c ↔ Derived source' rules' c := fun c =>
      ⟨Derived.same (fun rule matched => hlisting.mem_sourceMatches) fun rule => hperm.mem_iff.symm,
        Derived.same (fun rule matched => hlisting.mem_sourceMatches.symm) fun rule => hperm.mem_iff⟩
    have hfits' : Fits source' rules' := fun c c' hc hc' =>
      hfits source c c' ((hsame c).mpr hc) ((hsame c').mpr hc')
    have hends' : ¬SelfFeeding rules' := by
      rintro ⟨rule, hrule, hfeeds⟩
      refine hends ⟨rule, hperm.mem_iff.mp hrule,
        Relation.TransGen.mono (fun a b hab => ?_) _ _ hfeeds⟩
      exact ⟨hperm.mem_iff.mp hab.1, hperm.mem_iff.mp hab.2.1, hab.2.2⟩
    obtain ⟨fuel', commands', hcommands'⟩ := expandRulesBy_ends hiterate hfits'
      (fun rule hrule => hproper rule (hperm.mem_iff.mp hrule)) hends'
    have hderived' := expandRulesBy_derived hiterate hfits' hcommands'
    exact ⟨fuel', commands', hcommands', sameCommands_of_mem fun c => by
      rw [hderived, hderived', hsame]⟩

/-- A source tree with nothing in it. -/
def emptySource : SourceTree where
  status path := if path = [] then some (.directory 0) else none
  ls path := if path = [] then some [] else none
  root := ⟨0, rfl⟩
  normal path h := by
    obtain rfl : path = [] := by
      by_contra hne
      simp [hne] at h
    simp [Tree.NormalPath]
  parent directory name h := by simp at h
  listed directory entries h := by
    obtain rfl : directory = [] := by
      by_contra hne
      simp [hne] at h
    obtain rfl : [] = entries := by simpa using h
    exact ⟨⟨0, rfl⟩, by simp⟩

theorem expandRules_least_chain :
    let text := "@/a.c = copy b\n@/*.o = run cc @/*.c".toList
    ∃ fuel commands, expandRules fuel emptySource (parse text).rules = some commands ∧
      ∃ fuel' commands', expandRulesBy (fun commands => commands.entries.reverse) fuel' emptySource
        (parse text).rules.reverse = some commands' ∧ SameCommands commands commands' := by
  obtain ⟨fuel, commands, hcommands, _, _, hany⟩ :=
    @expandRules_least "@/a.c = copy b\n@/*.o = run cc @/*.c".toList (by decide +kernel) emptySource
  refine ⟨fuel, commands, hcommands, hany _ _ _ (List.reverse_perm _) (fun directory => ?_)
    fun commands => List.reverse_perm _⟩
  cases emptySource.ls directory with
  | none => exact .none
  | some entries => exact .some (.refl _)

/-- No two declarations of a manifest with no errors make the same output, and none makes one above
another's, whatever the names its wildcards are given. -/
theorem declarations_apart {text : List Char} (h : (parse text).errors = []) :
    (∀ (i j : Nat) (rule other declared declared' : Rule) (given given' : Option Name),
      (parse text).rules[i]? = some rule → (parse text).rules[j]? = some other →
      rule.declares given = some declared → other.declares given' = some declared' →
      declared.output <+: declared'.output → i = j ∧ given = given') ∧
    ∀ (source : SourceTree) (fuel : Nat) (commands : Commands),
      expandRules fuel source (parse text).rules = some commands →
      (∀ command ∈ commands.entries, ∃ rule ∈ (parse text).rules, ∃ given declared,
        rule.declares given = some declared ∧ commandOf declared = command) ∧
      ∀ command ∈ commands.entries, ∀ command' ∈ commands.entries,
        command.output <+: command'.output → command = command' := by
  obtain ⟨hiff, hrules⟩ := parse_accepted text
  have haccepted := hiff.mp h
  rw [hrules h]
  refine ⟨fun i j rule other declared declared' given given' hi hj hd hd' hpre =>
    declaredRules_apart haccepted hi hj hd hd' hpre, fun source fuel commands hcommands => ?_⟩
  have hfits : Fits source (declaredRules (text.splitOn '\n')) := declaredRules_fit haccepted
  rw [← expandRulesBy_entries] at hcommands
  have hderived := expandRulesBy_derived (fun _ => .refl _) hfits hcommands
  exact ⟨fun command hcommand => ((hderived command).mp hcommand).declares declaredRules_proper,
    fun command hcommand command' hcommand' =>
      hfits command command' ((hderived command).mp hcommand) ((hderived command').mp hcommand')⟩

/-- A literal output in a wildcard's directory, and a file that would make another there. -/
theorem declarations_apart_both :
    let text := "@/o/a.c = copy b\n@/o/*.o = run cc s/*.c".toList
    ∀ (given given' : Option Name) (declared declared' : Rule),
      (((parse text).rules[0]?).bind fun rule => rule.declares given) = some declared →
      (((parse text).rules[1]?).bind fun rule => rule.declares given') = some declared' →
      ¬declared.output <+: declared'.output := by
  intro text given given' declared declared' hd hd' hpre
  obtain ⟨rule, hi, hd⟩ := Option.bind_eq_some_iff.mp hd
  obtain ⟨other, hj, hd'⟩ := Option.bind_eq_some_iff.mp hd'
  have happart := (@declarations_apart "@/o/a.c = copy b\n@/o/*.o = run cc s/*.c".toList
    (by decide +kernel)).1 0 1 rule other declared declared' given given' hi hj hd hd' hpre
  exact absurd happart.1 (by decide)

end MakeBelieve.Manifest
