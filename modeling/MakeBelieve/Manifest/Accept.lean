import Mathlib.Algebra.Ring.Nat
import MakeBelieve.Manifest.Inside

namespace MakeBelieve.Manifest

open Library

/-! ### What a line that reads as a rule declares -/

/-- What the checks of one line see to. -/
structure Rule.Proper (rule : Rule) : Prop where
  output : Named rule.output
  wildcard : rule.isWildcard = true → Named rule.wildcardSource ∧
    isWildcardPattern rule.wildcardSource = true ∧ isWildcardPattern rule.output = true
  literal : rule.isWildcard = false →
    rule.wildcardOverOutputs = false ∧ ∀ part ∈ rule.output, '*' ∉ part

theorem readSources_ok {left argument : List Char} {action : Tree.Action} {source : Path}
    {overOutputs : Bool} (h : readSources left action argument = .ok (source, overOutputs)) :
    Named source ∧ isWildcardPattern source = true := by
  unfold readSources at h
  split at h
  · simp at h
  · dsimp only at h
    generalize (if action = .copy then argument else firstWildcardWord argument) = pattern at h
    split at h
    · simp at h
    · generalize hfound : (if '\x22' ∈ pattern ∨ '\x27' ∈ pattern then none
        else toInsidePath (if "@/".toList.isPrefixOf pattern then pattern.drop 2 else pattern)) =
        found at h
      cases found with
      | none => simp at h
      | some found =>
        dsimp only at h
        split at h
        · next hpattern =>
          obtain ⟨rfl, _⟩ := Prod.mk.inj (Except.ok.inj h)
          split at hfound
          · simp at hfound
          · exact ⟨(toInsidePath_some hfound).1, hpattern⟩
        · simp at h

/-- An output has no `*` where what is left of the `=` has none. -/
theorem unstarred {left : List Char} {output : Path} (h : toInsidePath (left.drop 2) = some output)
    (hstar : '*' ∉ left) : ∀ part ∈ output, '*' ∉ part :=
  fun part hpart hin => hstar (List.mem_of_mem_drop
    ((mem_splitOn ((toInsidePath_some h).2 part hpart)).2 _ hin))

theorem readRule_ok {left argument : List Char} {action : Tree.Action} {declared : Declared}
    (h : readRule left action argument = .ok declared) : declared.rule.Proper := by
  unfold readRule at h
  split at h
  · split at h
    · simp at h
    · next source overOutputs hsources =>
      obtain ⟨hsource, hpattern⟩ := readSources_ok hsources
      dsimp only at h
      split at h
      · simp at h
      · next output houtput =>
        split at h
        · next hwildcard =>
          obtain rfl := Except.ok.inj h
          refine ⟨(toInsidePath_some houtput).1, fun _ => ⟨hsource, hpattern, hwildcard⟩, ?_⟩
          intro hnot
          simp only [Rule.isWildcard, decide_eq_false_iff_not, not_not] at hnot
          exact absurd hnot hsource.nonempty
        · simp at h
  · next hstar =>
    split at h
    · simp at h
    · split at h
      · simp at h
      · next output houtput =>
        obtain rfl := Except.ok.inj h
        refine ⟨(toInsidePath_some houtput).1, fun hwildcard => ?_, fun _ =>
          ⟨rfl, unstarred houtput hstar⟩⟩
        simp [Rule.isWildcard] at hwildcard

theorem readLine_ok {line : List Char} {declared : Declared}
    (h : readLine line = some (.ok declared)) : declared.rule.Proper := by
  unfold readLine at h
  split at h
  · simp at h
  · have hread := Option.some.inj h
    split at hread
    · simp at hread
    · exact readRule_ok hread

theorem count_genericString (path : Path) :
    (genericString path).count '*' = (path.map fun part => part.count '*').sum := by
  unfold genericString
  induction path with
  | nil => rfl
  | cons part rest ih =>
    cases rest with
    | nil => simp
    | cons next rest =>
      rw [List.intercalate_cons_cons, List.count_append, List.count_append, ih]
      simp

theorem Rule.Proper.starred {rule : Rule} (h : rule.Proper) (hwildcard : rule.isWildcard = true) :
    '*' ∈ filename rule.output ∧ ∀ part ∈ rule.output.dropLast, '*' ∉ part := by
  have hpattern := (h.wildcard hwildcard).2.2
  unfold isWildcardPattern at hpattern
  rw [Bool.and_eq_true, decide_eq_true_eq, decide_eq_true_eq, count_genericString] at hpattern
  obtain ⟨hcount, hname⟩ := hpattern
  refine ⟨hname, fun part hpart => ?_⟩
  have hlast := List.count_pos_iff.mpr hname
  rw [← dropLast_filename h.output.nonempty, List.map_append, List.sum_append] at hcount
  simp only [List.map_cons, List.map_nil, List.sum_cons, List.sum_nil] at hcount
  have hdirectory : (rule.output.dropLast.map fun part => part.count '*').sum = 0 := by omega
  exact List.count_eq_zero.mp (List.sum_eq_zero_iff_forall_eq_nat.mp hdirectory _
    (List.mem_map_of_mem hpart))

/-! ### The tables hold what the rules so far declare -/

theorem lookup_isSome {entries : List (Path × Nat)} {path : Path} :
    (lookup entries path).isSome = true ↔ path ∈ entries.map Prod.fst := by
  simp [lookup, List.find?_isSome, List.mem_map]

theorem lookup_none {entries : List (Path × Nat)} {path : Path} :
    lookup entries path = none ↔ path ∉ entries.map Prod.fst := by
  rw [← lookup_isSome]
  simp

theorem mem_emplaceLine {entries : List (Path × Nat)} {path other : Path} {line : Nat} :
    other ∈ (emplaceLine entries path line).map Prod.fst ↔
      other ∈ entries.map Prod.fst ∨ other = path := by
  unfold emplaceLine
  split
  · next hsome =>
    refine ⟨.inl, fun h => h.elim id ?_⟩
    rintro rfl
    exact lookup_isSome.mp hsome
  · have hparts : other ∈ entries.map Prod.fst ↔
        other ∈ (entries.takeWhile fun entry => decide (entry.1 < path)).map Prod.fst ∨
          other ∈ (entries.dropWhile fun entry => decide (entry.1 < path)).map Prod.fst := by
      rw [← List.mem_append, ← List.map_append, List.takeWhile_append_dropWhile]
    rw [List.map_append, List.map_cons, List.mem_append, List.mem_cons, hparts]
    tauto

theorem mem_foldl_emplaceLine {entries : List (Path × Nat)} {paths : List Path} {other : Path}
    {line : Nat} :
    other ∈ (paths.foldl (fun entries path => emplaceLine entries path line) entries).map Prod.fst ↔
      other ∈ entries.map Prod.fst ∨ other ∈ paths := by
  induction paths generalizing entries with
  | nil => simp
  | cons path paths ih =>
    rw [List.foldl_cons, ih, mem_emplaceLine, List.mem_cons, or_assoc]

theorem mem_withParents {rev : List Name} {path : Path} :
    path ∈ withParents rev ↔ path ≠ [] ∧ path <+: rev.reverse := by
  induction rev with
  | nil => simp [withParents]
  | cons name rest ih =>
    rw [withParents, List.mem_cons, ih, List.reverse_cons, List.prefix_concat_iff]
    constructor
    · rintro (rfl | ⟨hne, hpre⟩)
      · exact ⟨by simp, .inl rfl⟩
      · exact ⟨hne, .inr hpre⟩
    · rintro ⟨hne, rfl | hpre⟩
      · exact .inl rfl
      · exact .inr ⟨hne, hpre⟩

theorem mem_parents {path other : Path} :
    other ∈ parents path ↔ other ≠ [] ∧ other <+: path.dropLast := by
  rw [parents, mem_withParents, List.reverse_reverse]

/-- Whether only files of the wildcard may have this path's name where it is. -/
def Rule.Bans (wildcard : Rule) (path : Path) : Prop :=
  wildcard.isWildcard = true ∧ path.dropLast = wildcard.output.dropLast ∧
    wildcard.suffix <:+ filename path

structure Gathered (s : Parsing) : Prop where
  proper : ∀ rule ∈ s.rules, rule.Proper
  files : ∀ path, path ∈ s.files.map Prod.fst ↔
    ∃ rule ∈ s.rules, rule.isWildcard = false ∧ rule.output = path
  directories : ∀ path, path ∈ s.directories.map Prod.fst ↔
    ∃ rule ∈ s.rules, path ∈ parents rule.output
  banned : ∀ directory suffix, (∃ banned ∈ s.bannedSuffixes directory, banned.suffix = suffix) ↔
    ∃ rule ∈ s.rules, rule.isWildcard = true ∧ rule.output.dropLast = directory ∧
      rule.suffix = suffix

theorem Gathered.accept {s : Parsing} (h : Gathered s) {declared : Declared}
    (hproper : declared.rule.Proper) (number : Nat) : Gathered (s.accept number declared) := by
  have hmem : ∀ {p : Rule → Prop}, (∃ rule ∈ s.rules ++ [declared.rule], p rule) ↔
      (∃ rule ∈ s.rules, p rule) ∨ p declared.rule := by
    intro p
    simp only [List.mem_append, List.mem_singleton, or_and_right, exists_or, exists_eq_left]
  refine ⟨fun rule hrule => ?_, fun path => ?_, fun path => ?_, fun directory suffix => ?_⟩
  · obtain hrule | hrule := List.mem_append.mp hrule
    · exact h.proper rule hrule
    · exact List.mem_singleton.mp hrule ▸ hproper
  · show path ∈ (if declared.rule.isWildcard then s.files
      else emplaceLine s.files declared.rule.output number).map Prod.fst ↔
        ∃ rule ∈ s.rules ++ [declared.rule], _
    rw [hmem, ← h.files]
    split
    · next hwildcard => simp [hwildcard]
    · next hwildcard =>
      rw [mem_emplaceLine]
      simp [hwildcard, eq_comm]
  · show path ∈ ((parents declared.rule.output).foldl (fun directories parent =>
      emplaceLine directories parent number) s.directories).map Prod.fst ↔
        ∃ rule ∈ s.rules ++ [declared.rule], _
    rw [hmem, ← h.directories, mem_foldl_emplaceLine]
  · show (∃ banned ∈ (if declared.rule.isWildcard then _ else s.bannedSuffixes) directory, _) ↔
      ∃ rule ∈ s.rules ++ [declared.rule], _
    rw [hmem, ← h.banned]
    split
    · next hwildcard =>
      by_cases hdirectory : directory = declared.rule.output.dropLast
      · subst hdirectory
        simp [hwildcard, or_and_right, exists_or]
      · rw [Function.update_of_ne hdirectory]
        simp [Ne.symm hdirectory]
    · next hwildcard => simp [hwildcard]

/-! ### Rules apart -/

/-- Whether rule `b` may not come with rule `a`, whatever the sources. -/
inductive Blocks (a b : Rule) : Prop
  | file (ha : a.isWildcard = false) (h : a.output ∈ b.output :: parents b.output)
  | inside (path : Path) (h : path ∈ parents b.output) (hbans : a.Bans path)
  | ends (hb : b.isWildcard = false) (hbans : a.Bans b.output)
  | both (hb : b.isWildcard = true) (ha : a.isWildcard = true)
      (hdirectory : a.output.dropLast = b.output.dropLast) (hsuffix : a.suffix <:+ b.suffix)

def Apart (a b : Rule) : Prop := ¬Blocks a b ∧ ¬Blocks b a

theorem Apart.symm {a b : Rule} (h : Apart a b) : Apart b a := ⟨h.2, h.1⟩

theorem Gathered.bannedSuffix_none {s : Parsing} (h : Gathered s) {path : Path} :
    s.bannedSuffix path = none ↔ ∀ rule ∈ s.rules, ¬rule.Bans path := by
  unfold Parsing.bannedSuffix
  rw [List.find?_eq_none]
  constructor
  · intro hnone rule hrule hbans
    obtain ⟨banned, hbanned, heq⟩ := (h.banned path.dropLast rule.suffix).mpr
      ⟨rule, hrule, hbans.1, hbans.2.1.symm, rfl⟩
    refine hnone banned hbanned ?_
    rw [heq, List.isSuffixOf_iff_suffix]
    exact hbans.2.2
  · intro hall banned hbanned hsuffix
    obtain ⟨rule, hrule, hwildcard, hdirectory, heq⟩ :=
      (h.banned path.dropLast banned.suffix).mp ⟨banned, hbanned, rfl⟩
    rw [List.isSuffixOf_iff_suffix, ← heq] at hsuffix
    exact hall rule hrule ⟨hwildcard, hdirectory.symm, hsuffix⟩

/-- What a wildcard's suffix would ban, of the rules there are. -/
theorem Gathered.bans_none {s : Parsing} (h : Gathered s) {left : List Char} {rule : Rule} :
    s.bans left rule = none ↔
      (∀ other ∈ s.rules, other.isWildcard = false →
        ¬(other.output.dropLast = rule.output.dropLast ∧ rule.suffix <:+ filename other.output)) ∧
      (∀ other ∈ s.rules, ∀ path ∈ parents other.output,
        ¬(path.dropLast = rule.output.dropLast ∧ rule.suffix <:+ filename path)) ∧
      ∀ other ∈ s.rules, other.isWildcard = true →
        other.output.dropLast = rule.output.dropLast →
          ¬(other.suffix <:+ rule.suffix) ∧ ¬(rule.suffix <:+ other.suffix) := by
  let endsInIt := fun (entry : Path × Nat) =>
    decide (entry.1.dropLast = rule.output.dropLast) && rule.suffix.isSuffixOf (filename entry.1)
  have hends : ∀ {entries : List (Path × Nat)}, entries.find? endsInIt = none ↔
      ∀ path ∈ entries.map Prod.fst,
        ¬(path.dropLast = rule.output.dropLast ∧ rule.suffix <:+ filename path) := by
    intro entries
    simp [endsInIt, List.find?_eq_none]
  have hboth : ((s.bannedSuffixes rule.output.dropLast).find? fun other =>
        other.suffix.isSuffixOf rule.suffix || rule.suffix.isSuffixOf other.suffix) = none ↔
      ∀ other ∈ s.rules, other.isWildcard = true →
        other.output.dropLast = rule.output.dropLast →
          ¬(other.suffix <:+ rule.suffix) ∧ ¬(rule.suffix <:+ other.suffix) := by
    rw [List.find?_eq_none]
    constructor
    · intro hnone other hother hwildcard hdirectory
      obtain ⟨banned, hbanned, heq⟩ := (h.banned rule.output.dropLast other.suffix).mpr
        ⟨other, hother, hwildcard, hdirectory, rfl⟩
      have hnot := hnone banned hbanned
      rw [heq] at hnot
      simpa using hnot
    · intro hall banned hbanned
      obtain ⟨other, hother, hwildcard, hdirectory, heq⟩ :=
        (h.banned rule.output.dropLast banned.suffix).mp ⟨banned, hbanned, rfl⟩
      rw [← heq]
      simpa using hall other hother hwildcard hdirectory
  have hsome : s.bans left rule = none ↔ s.files.find? endsInIt = none ∧
      s.directories.find? endsInIt = none ∧ ((s.bannedSuffixes rule.output.dropLast).find?
        fun other => other.suffix.isSuffixOf rule.suffix ||
          rule.suffix.isSuffixOf other.suffix) = none := by
    unfold Parsing.bans
    dsimp only
    cases hfile : s.files.find? endsInIt with
    | some entry => simp [hfile, endsInIt] at hfile ⊢
    | none =>
      cases hdirectory : s.directories.find? endsInIt with
      | some entry => simp
      | none =>
        simp only [true_and]
        cases (s.bannedSuffixes rule.output.dropLast).find? fun other =>
          other.suffix.isSuffixOf rule.suffix || rule.suffix.isSuffixOf other.suffix with
        | some other => simp
        | none => simp
  rw [hsome, hends, hends, hboth]
  refine and_congr ?_ (and_congr ?_ Iff.rfl)
  · constructor
    · exact fun hall other hother hliteral =>
        hall _ ((h.files _).mpr ⟨other, hother, hliteral, rfl⟩)
    · rintro hall path hpath
      obtain ⟨other, hother, hliteral, rfl⟩ := (h.files path).mp hpath
      exact hall other hother hliteral
  · constructor
    · exact fun hall other hother path hpath =>
        hall path ((h.directories path).mpr ⟨other, hother, hpath⟩)
    · rintro hall path hpath
      obtain ⟨other, hother, hin⟩ := (h.directories path).mp hpath
      exact hall other hother path hin

/-- A wildcard's output, with its `*`, is no literal rule's and no directory. -/
theorem Rule.Proper.apart_starred {wildcard other : Rule} (h : wildcard.Proper)
    (hother : other.Proper) (hwildcard : wildcard.isWildcard = true) :
    (other.isWildcard = false → other.output ≠ wildcard.output) ∧
      wildcard.output ∉ parents other.output := by
  obtain ⟨hstar, _⟩ := h.starred hwildcard
  have hmem := filename_mem h.output.nonempty
  refine ⟨fun hliteral heq => ?_, fun hin => ?_⟩
  · exact (hother.literal hliteral).2 _ (heq ▸ hmem) hstar
  · have hpre := (mem_parents.mp hin).2
    cases hw : other.isWildcard with
    | false =>
      exact (hother.literal hw).2 _
        ((List.dropLast_prefix _).subset (hpre.subset hmem)) hstar
    | true => exact (hother.starred hw).2 _ (hpre.subset hmem) hstar

/-- A rule is accepted beside those before it exactly when it is apart from each. -/
theorem Gathered.clash_none {s : Parsing} (h : Gathered s) {left : List Char} {rule : Rule}
    (hproper : rule.Proper) :
    s.clash left rule = none ↔ ∀ other ∈ s.rules, Apart other rule := by
  have hclash : s.clash left rule = none ↔ lookup s.files rule.output = none ∧
      lookup s.directories rule.output = none ∧
      (parents rule.output).findSome? (lookup s.files) = none ∧
      (parents rule.output).findSome? s.bannedSuffix = none ∧
      if rule.isWildcard then s.bans left rule = none
      else s.bannedSuffix rule.output = none := by
    unfold Parsing.clash
    cases lookup s.files rule.output with
    | some line => simp
    | none =>
      cases lookup s.directories rule.output with
      | some line => simp
      | none =>
        cases (parents rule.output).findSome? (lookup s.files) with
        | some line => simp
        | none =>
          cases (parents rule.output).findSome? s.bannedSuffix with
          | some banned => simp
          | none =>
            simp only [true_and]
            split <;> simp
  rw [hclash, lookup_none, lookup_none, h.files, h.directories, List.findSome?_eq_none_iff,
    List.findSome?_eq_none_iff]
  simp only [lookup_none, h.files, h.bannedSuffix_none]
  constructor
  · rintro ⟨hfile, hdirectory, habove, hinside, hown⟩ other hother
    refine ⟨fun hblocks => ?_, fun hblocks => ?_⟩
    · cases hblocks with
      | file ha hin =>
        obtain heq | hin := List.mem_cons.mp hin
        · exact hfile ⟨other, hother, ha, heq⟩
        · exact habove _ hin ⟨other, hother, ha, rfl⟩
      | inside path hin hbans => exact hinside path hin other hother hbans
      | ends hb hbans =>
        rw [if_neg (by simp [hb])] at hown
        exact hown other hother hbans
      | both hb ha hdirectories hsuffix =>
        rw [if_pos hb] at hown
        exact ((h.bans_none.mp hown).2.2 other hother ha hdirectories).1 hsuffix
    · cases hblocks with
      | file ha hin =>
        obtain heq | hin := List.mem_cons.mp hin
        · cases hw : other.isWildcard with
          | false => exact hfile ⟨other, hother, hw, heq.symm⟩
          | true => exact ((h.proper other hother).apart_starred hproper hw).1 ha heq
        · exact hdirectory ⟨other, hother, hin⟩
      | inside path hin hbans =>
        rw [if_pos hbans.1] at hown
        exact (h.bans_none.mp hown).2.1 other hother path hin hbans.2
      | ends hb hbans =>
        rw [if_pos hbans.1] at hown
        exact (h.bans_none.mp hown).1 other hother hb hbans.2
      | both hb ha hdirectories hsuffix =>
        rw [if_pos ha] at hown
        exact ((h.bans_none.mp hown).2.2 other hother hb hdirectories.symm).2 hsuffix
  · intro hall
    refine ⟨?_, ?_, ?_, fun path hin other hother hbans =>
      (hall other hother).1 (.inside path hin hbans), ?_⟩
    · rintro ⟨other, hother, ha, heq⟩
      exact (hall other hother).1 (.file ha (by rw [heq]; exact List.mem_cons_self ..))
    · rintro ⟨other, hother, hin⟩
      cases hw : rule.isWildcard with
      | false => exact (hall other hother).2 (.file hw (List.mem_cons_of_mem _ hin))
      | true => exact (hproper.apart_starred (h.proper other hother) hw).2 hin
    · rintro path hin ⟨other, hother, ha, rfl⟩
      exact (hall other hother).1 (.file ha (List.mem_cons_of_mem _ hin))
    · split
      · next hw =>
        refine h.bans_none.mpr ⟨fun other hother ha hends => ?_,
          fun other hother path hin hends => ?_,
          fun other hother ha hdirectories => ⟨fun hsuffix => ?_, fun hsuffix => ?_⟩⟩
        · exact (hall other hother).2 (.ends ha ⟨hw, hends⟩)
        · exact (hall other hother).2 (.inside path hin ⟨hw, hends⟩)
        · exact (hall other hother).1 (.both hw ha hdirectories hsuffix)
        · exact (hall other hother).2 (.both ha hw hdirectories.symm hsuffix)
      · next hw =>
        exact fun other hother hbans => (hall other hother).1 (.ends (by simpa using hw) hbans)

/-! ### All lines -/

/-- What a line declares, if it reads as a rule. -/
def declaredOf (line : List Char) : Option Declared :=
  match readLine (trim line) with
  | some (.ok declared) => some declared
  | _ => none

def declaredRules (lines : List (List Char)) : List Rule :=
  (lines.filterMap declaredOf).map Declared.rule

theorem declaredRules_proper {lines : List (List Char)} :
    ∀ rule ∈ declaredRules lines, rule.Proper := by
  intro rule hrule
  obtain ⟨declared, hdeclared, rfl⟩ := List.mem_map.mp hrule
  obtain ⟨line, _, hline⟩ := List.mem_filterMap.mp hdeclared
  unfold declaredOf at hline
  split at hline
  · next heq =>
    obtain rfl := Option.some.inj hline
    exact readLine_ok heq
  · simp at hline

/-- Whether a line reads as a rule, or needs not. -/
def Reads (line : List Char) : Prop := ∀ problem, readLine (trim line) ≠ some (.error problem)

namespace Parsing

variable {s : Parsing}

theorem parseLine_cases (s : Parsing) (number : Nat) (line : List Char) :
    (Reads line ∧ declaredOf line = none ∧ s.parseLine number line = s) ∨
    (∃ declared, Reads line ∧ declaredOf line = some declared ∧ declared.rule.Proper ∧
      s.clash declared.left declared.rule = none ∧
      s.parseLine number line = s.accept number declared) ∨
    (∃ declared problem, declaredOf line = some declared ∧ declared.rule.Proper ∧
      s.clash declared.left declared.rule = some problem ∧
      s.parseLine number line = s.reject number problem) ∨
    ∃ problem, ¬Reads line ∧ declaredOf line = none ∧
      s.parseLine number line = s.reject number problem := by
  unfold Reads declaredOf parseLine
  cases hread : readLine (trim line) with
  | none => exact .inl ⟨by simp, rfl, rfl⟩
  | some result =>
    cases result with
    | error problem => exact .inr (.inr (.inr ⟨problem, by simp, rfl, rfl⟩))
    | ok declared =>
      have hproper := readLine_ok hread
      dsimp only
      cases hclash : s.clash declared.left declared.rule with
      | none => exact .inr (.inl ⟨declared, by simp, rfl, hproper, hclash, rfl⟩)
      | some problem => exact .inr (.inr (.inl ⟨declared, problem, rfl, hproper, hclash, rfl⟩))

/-- An error is kept to the end. -/
theorem parseLines_errors_ne {number : Nat} {lines : List (List Char)} (h : s.errors ≠ []) :
    (s.parseLines number lines).errors ≠ [] := by
  induction lines generalizing s number with
  | nil => exact h
  | cons line lines ih =>
    refine ih ?_
    obtain ⟨_, _, heq⟩ | ⟨_, _, _, _, _, heq⟩ | ⟨_, _, _, _, _, heq⟩ | ⟨_, _, _, heq⟩ :=
      parseLine_cases s number line
    · rw [heq]; exact h
    · rw [heq]; exact h
    · rw [heq]; simp [reject]
    · rw [heq]; simp [reject]

theorem parseLines_gathered (h : Gathered s) (number : Nat) (lines : List (List Char)) :
    Gathered (s.parseLines number lines) := by
  induction lines generalizing s number with
  | nil => exact h
  | cons line lines ih =>
    refine ih ?_ (number + 1)
    obtain ⟨_, _, heq⟩ | ⟨_, _, _, hproper, _, heq⟩ | ⟨_, _, _, _, _, heq⟩ | ⟨_, _, _, heq⟩ :=
      parseLine_cases s number line
    · rw [heq]; exact h
    · rw [heq]; exact h.accept hproper number
    · rw [heq]; exact ⟨h.proper, h.files, h.directories, h.banned⟩
    · rw [heq]; exact ⟨h.proper, h.files, h.directories, h.banned⟩

/-- Lines are accepted exactly when each reads and their rules are apart; all of them stand then. -/
theorem parseLines_errors (h : Gathered s) (hpairs : s.rules.Pairwise Apart)
    (herrors : s.errors = []) (number : Nat) (lines : List (List Char)) :
    ((s.parseLines number lines).errors = [] ↔
      (∀ line ∈ lines, Reads line) ∧ (s.rules ++ declaredRules lines).Pairwise Apart) ∧
    ((s.parseLines number lines).errors = [] → Gathered (s.parseLines number lines) ∧
      (s.parseLines number lines).rules = s.rules ++ declaredRules lines ∧
      (s.parseLines number lines).copies.map CopyOfOutput.source =
        s.copies.map CopyOfOutput.source ++
          (lines.filterMap declaredOf).filterMap Declared.copiedOutput) := by
  induction lines generalizing s number with
  | nil =>
    refine ⟨iff_of_true herrors ⟨by simp, by simpa [declaredRules] using hpairs⟩,
      fun _ => ⟨h, ?_, ?_⟩⟩
    · simp [parseLines, declaredRules]
    · simp [parseLines]
  | cons line lines ih =>
    rw [List.forall_mem_cons]
    have hrejected : ∀ {problem}, s.parseLine number line = s.reject number problem →
        (s.parseLines number (line :: lines)).errors ≠ [] := by
      intro problem heq
      show ((s.parseLine number line).parseLines (number + 1) lines).errors ≠ []
      rw [heq]
      exact parseLines_errors_ne (by simp [reject])
    have hrules : ∀ {declared}, declaredOf line = some declared →
        declaredRules (line :: lines) = declared.rule :: declaredRules lines := by
      intro declared hdeclared
      simp [declaredRules, hdeclared]
    obtain ⟨hreads, hnone, heq⟩ | ⟨declared, hreads, hdeclared, hproper, hclash, heq⟩ |
      ⟨declared, problem, hdeclared, hproper, hclash, heq⟩ | ⟨problem, hreads, _, heq⟩ :=
      parseLine_cases s number line
    · have hskip : declaredRules (line :: lines) = declaredRules lines := by
        simp [declaredRules, hnone]
      have hstep : s.parseLines number (line :: lines) = s.parseLines (number + 1) lines := by
        show (s.parseLine number line).parseLines (number + 1) lines = _
        rw [heq]
      rw [hstep, hskip, List.filterMap_cons_none hnone]
      obtain ⟨hiff, hwhen⟩ := ih h hpairs herrors (number + 1)
      exact ⟨by rw [hiff, and_iff_right hreads], hwhen⟩
    · have hstep : s.parseLines number (line :: lines) =
          (s.accept number declared).parseLines (number + 1) lines := by
        show (s.parseLine number line).parseLines (number + 1) lines = _
        rw [heq]
      have hpairs' : (s.accept number declared).rules.Pairwise Apart := by
        show (s.rules ++ [declared.rule]).Pairwise Apart
        refine List.pairwise_append.mpr ⟨hpairs, List.pairwise_singleton _ _, ?_⟩
        intro other hother rule hrule
        rw [List.mem_singleton.mp hrule]
        exact (h.clash_none hproper).mp hclash other hother
      obtain ⟨hiff, hwhen⟩ := ih (h.accept hproper number) hpairs' herrors (number + 1)
      have happend : (s.accept number declared).rules ++ declaredRules lines =
          s.rules ++ declared.rule :: declaredRules lines := by
        show s.rules ++ [declared.rule] ++ declaredRules lines = _
        simp
      have hcopies : (s.accept number declared).copies.map CopyOfOutput.source =
          s.copies.map CopyOfOutput.source ++ declared.copiedOutput.toList := by
        unfold accept
        cases declared.copiedOutput with
        | none => simp
        | some source => simp
      rw [happend] at hiff hwhen
      rw [hcopies] at hwhen
      rw [hstep, hrules hdeclared, List.filterMap_cons_some hdeclared]
      refine ⟨by rw [hiff, and_iff_right hreads], fun hnone => ?_⟩
      obtain ⟨hgathered, hall, hsources⟩ := hwhen hnone
      refine ⟨hgathered, hall, ?_⟩
      rw [hsources, List.append_assoc]
      congr 1
      cases hcopied : declared.copiedOutput with
      | none => simp [hcopied]
      | some source => simp [hcopied]
    · refine ⟨iff_of_false (hrejected heq) ?_, fun hnone => absurd hnone (hrejected heq)⟩
      rintro ⟨_, hall⟩
      rw [hrules hdeclared] at hall
      have happart := (List.pairwise_append.mp hall).2.2
      have hnone := (@Gathered.clash_none s h declared.left declared.rule hproper).mpr
        fun other hother => happart other hother _ (List.mem_cons_self ..)
      rw [hclash] at hnone
      simp at hnone
    · refine ⟨iff_of_false (hrejected heq) ?_, fun hnone => absurd hnone (hrejected heq)⟩
      rintro ⟨⟨hread, _⟩, _⟩
      exact hreads hread

end Parsing

/-! ### Wildcards that feed themselves -/

/-- Whether a rule could match, through others or not, what it could produce. -/
def SelfFeeding (rules : List Rule) : Prop :=
  ∃ rule ∈ rules,
    Relation.TransGen (fun a b => a ∈ rules ∧ b ∈ rules ∧ a.feeds b = true) rule rule

theorem feedsAt_iff {rules : List Rule} {i j : Nat} :
    feedsAt rules i j = true ↔
      ∃ a b, rules[i]? = some a ∧ rules[j]? = some b ∧ a.feeds b = true := by
  unfold feedsAt
  cases rules[i]? with
  | none => simp
  | some a =>
    cases rules[j]? with
    | none => simp
    | some b => simp

/-- What `feeds` is closed to are its chains, of whatever length. -/
theorem closedFeeds_iff {rules : List Rule} {i j : Nat} :
    closedFeeds rules i j = true ↔
      Relation.TransGen (fun i j => feedsAt rules i j = true) i j := by
  apply closeOver_iff
  intro x y hxy
  obtain ⟨a, b, ha, hb, _⟩ := feedsAt_iff.mp hxy
  exact ⟨List.mem_range.mpr (List.getElem?_eq_some_iff.mp ha).1,
    List.mem_range.mpr (List.getElem?_eq_some_iff.mp hb).1⟩

theorem selfFeeding_iff {rules : List Rule} :
    (∃ rule ∈ List.range rules.length, closedFeeds rules rule rule = true) ↔ SelfFeeding rules := by
  constructor
  · rintro ⟨i, hi, hfeeds⟩
    have hlt := List.mem_range.mp hi
    let ruleAt := fun j => rules.getD j (rules.get ⟨i, hlt⟩)
    refine ⟨ruleAt i, ?_, ?_⟩
    · simp [ruleAt, hlt]
    · refine Relation.TransGen.lift ruleAt (fun x y hxy => ?_) _ _ (closedFeeds_iff.mp hfeeds)
      obtain ⟨a, b, ha, hb, hab⟩ := feedsAt_iff.mp hxy
      have hx : ruleAt x = a := by simp [ruleAt, ha]
      have hy : ruleAt y = b := by simp [ruleAt, hb]
      show ruleAt x ∈ rules ∧ ruleAt y ∈ rules ∧ (ruleAt x).feeds (ruleAt y) = true
      rw [hx, hy]
      exact ⟨List.mem_of_getElem? ha, List.mem_of_getElem? hb, hab⟩
  · rintro ⟨rule, hrule, hfeeds⟩
    refine ⟨rules.idxOf rule, List.mem_range.mpr (List.idxOf_lt_length_of_mem hrule),
      closedFeeds_iff.mpr (Relation.TransGen.lift (fun rule => rules.idxOf rule)
        (fun a b hab => ?_) _ _ hfeeds)⟩
    obtain ⟨ha, hb, hab⟩ := hab
    exact feedsAt_iff.mpr ⟨a, b, List.getElem?_idxOf ha, List.getElem?_idxOf hb, hab⟩

/-! ### Which manifests are accepted -/

/-- The lines of a manifest with no errors. -/
structure Accepted (lines : List (List Char)) : Prop where
  reads : ∀ line ∈ lines, Reads line
  apart : (declaredRules lines).Pairwise Apart
  copies : ∀ source ∈ (lines.filterMap declaredOf).filterMap Declared.copiedOutput,
    ∃ rule ∈ declaredRules lines, rule.isWildcard = false ∧ rule.output = source
  ends : ¬SelfFeeding (declaredRules lines)

namespace Parsing

theorem finish_errors {s : Parsing} :
    s.finish.errors = [] ↔ s.errors = [] ∧ s.undeclaredCopies = [] ∧ s.selfFeeding = [] := by
  have hdropped : s.dropped = [] ↔ s.undeclaredCopies = [] ∧ s.selfFeeding = [] := by
    simp [dropped]
  rw [← hdropped]
  show (if s.dropped = [] then s.errors
    else (s.errors ++ s.lateErrors).mergeSort fun a b => decide (a.line ≤ b.line)) = [] ↔ _
  split
  · next hnone => simp [hnone]
  · next hsome =>
    refine iff_of_false (fun hnil => hsome ?_) (fun h => hsome h.2)
    have hlength := congrArg List.length hnil
    simp only [List.length_mergeSort, lateErrors, List.length_append, List.length_map,
      List.length_nil, Nat.add_eq_zero_iff, List.length_eq_zero_iff] at hlength
    exact hdropped.mpr hlength.2

theorem finish_rules {s : Parsing} (h : s.undeclaredCopies = []) (h' : s.selfFeeding = []) :
    s.finish.rules = s.rules := by
  simp [finish, dropped, h, h', List.zipIdx_map_fst]

end Parsing

theorem gathered_nil : Gathered {} := by
  refine ⟨by simp, by simp, by simp, by simp⟩

/-- Every rule that stands, with errors elsewhere or not, has passed the checks of its line. -/
theorem parse_proper (text : List Char) : ∀ rule ∈ (parse text).rules, rule.Proper := by
  intro rule hrule
  obtain ⟨⟨found, index⟩, hmem, rfl⟩ := List.mem_map.mp hrule
  obtain ⟨hlt, hfound⟩ := List.mem_zipIdx' (List.mem_of_mem_filter hmem)
  exact (Parsing.parseLines_gathered gathered_nil 1 (text.splitOn '\n')).proper found
    (hfound ▸ List.getElem_mem hlt)

/-- A manifest has no errors exactly when its lines are accepted, and has all their rules then. -/
theorem parse_accepted (text : List Char) :
    ((parse text).errors = [] ↔ Accepted (text.splitOn '\n')) ∧
    ((parse text).errors = [] → (parse text).rules = declaredRules (text.splitOn '\n')) := by
  have hrun := Parsing.parseLines_errors gathered_nil List.Pairwise.nil rfl 1 (text.splitOn '\n')
  obtain ⟨hiff, hwhen⟩ := hrun
  unfold parse
  generalize ({} : Parsing).parseLines 1 (text.splitOn '\n') = s at hiff hwhen
  simp only [List.nil_append, List.map_nil] at hiff hwhen
  have hlate : s.errors = [] → ((s.undeclaredCopies = [] ∧ s.selfFeeding = []) ↔
      (∀ source ∈ ((text.splitOn '\n').filterMap declaredOf).filterMap Declared.copiedOutput,
        ∃ rule ∈ declaredRules (text.splitOn '\n'),
          rule.isWildcard = false ∧ rule.output = source) ∧
      ¬SelfFeeding (declaredRules (text.splitOn '\n'))) := by
    intro hnone
    obtain ⟨hgathered, hrules, hsources⟩ := hwhen hnone
    refine and_congr ?_ ?_
    · rw [← hsources, ← hrules]
      simp only [Parsing.undeclaredCopies, List.filter_eq_nil_iff, Option.isNone_iff_eq_none,
        lookup_none, not_not, hgathered.files, List.forall_mem_map]
    · rw [← hrules, ← selfFeeding_iff]
      simp [Parsing.selfFeeding]
  constructor
  · rw [Parsing.finish_errors]
    constructor
    · rintro ⟨hnone, hends⟩
      obtain ⟨hreads, hapart⟩ := hiff.mp hnone
      obtain ⟨hcopies, hfeeds⟩ := (hlate hnone).mp hends
      exact ⟨hreads, hapart, hcopies, hfeeds⟩
    · intro h
      have hnone := hiff.mpr ⟨h.reads, h.apart⟩
      exact ⟨hnone, (hlate hnone).mpr ⟨h.copies, h.ends⟩⟩
  · intro hnone
    obtain ⟨hnone, hcopies, hfeeds⟩ := Parsing.finish_errors.mp hnone
    rw [Parsing.finish_rules hcopies hfeeds]
    exact (hwhen hnone).2.1

theorem Accepted.perm {lines lines' : List (List Char)} (h : Accepted lines)
    (hperm : lines.Perm lines') : Accepted lines' := by
  have hrules : (declaredRules lines).Perm (declaredRules lines') := (hperm.filterMap _).map _
  refine ⟨fun line hline => h.reads line (hperm.mem_iff.mpr hline), ?_,
    fun source hsource => ?_, ?_⟩
  · exact (hrules.pairwise_iff fun h => h.symm).mp h.apart
  · obtain ⟨rule, hrule, hfound⟩ := h.copies source
      (((hperm.filterMap _).filterMap _).mem_iff.mpr hsource)
    exact ⟨rule, hrules.mem_iff.mp hrule, hfound⟩
  · rintro ⟨rule, hrule, hfeeds⟩
    refine h.ends ⟨rule, hrules.mem_iff.mpr hrule,
      Relation.TransGen.mono (fun a b hab => ?_) _ _ hfeeds⟩
    exact ⟨hrules.mem_iff.mpr hab.1, hrules.mem_iff.mpr hab.2.1, hab.2.2⟩

/-- Which manifests are accepted, and what they declare, does not depend on the order of lines. -/
theorem parse_lines_perm {text text' : List Char}
    (h : (text.splitOn '\n').Perm (text'.splitOn '\n')) :
    ((parse text).errors = [] ↔ (parse text').errors = []) ∧
    ((parse text).errors = [] → (parse text).rules.Perm (parse text').rules) := by
  obtain ⟨hiff, hrules⟩ := parse_accepted text
  obtain ⟨hiff', hrules'⟩ := parse_accepted text'
  have hsame : (parse text).errors = [] ↔ (parse text').errors = [] := by
    rw [hiff, hiff']
    exact ⟨fun ha => ha.perm h, fun ha => ha.perm h.symm⟩
  refine ⟨hsame, fun hnone => ?_⟩
  rw [hrules hnone, hrules' (hsame.mp hnone)]
  exact (h.filterMap _).map _

theorem parse_lines_perm_swapped :
    let text := "@/o/*.o = run cc s/*.c\n@/a = copy b".toList
    let text' := "@/a = copy b\n@/o/*.o = run cc s/*.c".toList
    (text.splitOn '\n').Perm (text'.splitOn '\n') ∧
      ((parse text).errors = [] ↔ (parse text').errors = []) ∧
      ((parse text).errors = [] → (parse text).rules.Perm (parse text').rules) := by
  have hperm : ("@/o/*.o = run cc s/*.c\n@/a = copy b".toList.splitOn '\n').Perm
      ("@/a = copy b\n@/o/*.o = run cc s/*.c".toList.splitOn '\n') := by decide +kernel
  exact ⟨hperm, parse_lines_perm hperm⟩

end MakeBelieve.Manifest
