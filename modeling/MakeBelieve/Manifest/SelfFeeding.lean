import MakeBelieve.Manifest.Accounts
import MakeBelieve.Manifest.Outputs

namespace MakeBelieve.Manifest

open Library

/-! ### Names that two patterns have in common -/

/-- What a pattern accepts: its ends with something between them. -/
theorem NamePattern.accepts_iff {pattern : NamePattern} {name : Name} :
    pattern.accepts name = true ↔
      ∃ stem, stem ≠ [] ∧ name = pattern.before ++ stem ++ pattern.after := by
  constructor
  · intro h
    exact ⟨pattern.stem name, stem_ne_nil h, accepts_stem h⟩
  · rintro ⟨stem, hne, rfl⟩
    have hpos := List.length_pos_iff.mpr hne
    unfold accepts
    rw [Bool.and_eq_true, Bool.and_eq_true, decide_eq_true_eq, List.isPrefixOf_iff_prefix,
      List.isSuffixOf_iff_suffix]
    refine ⟨⟨?_, ?_⟩, List.suffix_append _ _⟩
    · simp only [List.length_append]
      omega
    · rw [List.append_assoc]
      exact List.prefix_append _ _

/-- Of two fixed ends, the longer. -/
def outer (a b : Name) : Name := if b.length ≤ a.length then a else b

theorem outer_prefix {a b : Name}
    (h : (if b.length ≤ a.length then b.isPrefixOf a else a.isPrefixOf b) = true) :
    a <+: outer a b ∧ b <+: outer a b := by
  unfold outer
  split at h
  · next hle =>
    rw [if_pos hle]
    exact ⟨List.prefix_rfl, List.isPrefixOf_iff_prefix.mp h⟩
  · next hlt =>
    rw [if_neg hlt]
    exact ⟨List.isPrefixOf_iff_prefix.mp h, List.prefix_rfl⟩

theorem outer_suffix {a b : Name}
    (h : (if b.length ≤ a.length then b.isSuffixOf a else a.isSuffixOf b) = true) :
    a <:+ outer a b ∧ b <:+ outer a b := by
  unfold outer
  split at h
  · next hle =>
    rw [if_pos hle]
    exact ⟨List.suffix_rfl, List.isSuffixOf_iff_suffix.mp h⟩
  · next hlt =>
    rw [if_neg hlt]
    exact ⟨List.isSuffixOf_iff_suffix.mp h, List.suffix_rfl⟩

theorem mem_outer {a b : Name} {c : Char} (h : c ∈ outer a b) : c ∈ a ∨ c ∈ b := by
  unfold outer at h
  split at h
  · exact .inl h
  · exact .inr h

namespace NamePattern

/-- A name that both of two patterns accept, if any is: their longer ends with a letter between. -/
def common (pattern other : NamePattern) : Name :=
  outer pattern.before other.before ++ 'x' :: outer pattern.after other.after

theorem accepts_between {pattern : NamePattern} {front back : Name} (hbefore : pattern.before <+: front)
    (hafter : pattern.after <:+ back) : pattern.accepts (front ++ 'x' :: back) = true := by
  obtain ⟨more, rfl⟩ := hbefore
  obtain ⟨less, rfl⟩ := hafter
  apply accepts_iff.mpr
  refine ⟨more ++ 'x' :: less, by simp, ?_⟩
  simp

/-- The fixed ends of two patterns agree where both accept some name. -/
theorem overlaps_iff {pattern other : NamePattern} :
    pattern.overlaps other = true ↔
      pattern.accepts (pattern.common other) = true ∧ other.accepts (pattern.common other) = true := by
  constructor
  · intro h
    unfold overlaps at h
    rw [Bool.and_eq_true] at h
    obtain ⟨hpattern, hother⟩ := outer_prefix h.1
    obtain ⟨hpattern', hother'⟩ := outer_suffix h.2
    exact ⟨accepts_between hpattern hpattern', accepts_between hother hother'⟩
  · rintro ⟨h, h'⟩
    exact overlaps_of_accepts h h'

end NamePattern

/-- Whether some file, in the one directory both name, is one that a wildcard could produce and
another, over outputs, could match. -/
def CouldFeed (a b : Rule) : Prop :=
  a.isWildcard = true ∧ b.isWildcard = true ∧ b.wildcardOverOutputs = true ∧
    a.output.dropLast = b.wildcardSource.dropLast ∧
    ∃ name stem, FileName name ∧ stem ≠ [] ∧
      name = (NamePattern.ofName (filename a.output)).before ++ stem ++
        (NamePattern.ofName (filename a.output)).after ∧
      (NamePattern.ofName (filename b.wildcardSource)).accepts name = true

/-- The ends of a pattern that is the name of a file make up no path. -/
theorem ofName_unseparated {path : Path} (h : Named path) :
    '/' ∉ (NamePattern.ofName (filename path)).before ∧
      '/' ∉ (NamePattern.ofName (filename path)).after := by
  have hname := h.unseparated _ (filename_mem h.nonempty)
  exact ⟨fun hin => hname (ofName_mem.1 hin), fun hin => hname (ofName_mem.2 hin)⟩

theorem common_fileName {a b : Path} (ha : Named a) (hb : Named b) :
    FileName ((NamePattern.ofName (filename a)).common (NamePattern.ofName (filename b))) := by
  obtain ⟨hbefore, hafter⟩ := ofName_unseparated ha
  obtain ⟨hbefore', hafter'⟩ := ofName_unseparated hb
  have hletter : 'x' ∈
      (NamePattern.ofName (filename a)).common (NamePattern.ofName (filename b)) := by
    simp [NamePattern.common]
  constructor
  · refine ⟨?_, ?_, ?_⟩ <;>
    · intro heq
      rw [heq] at hletter
      simp at hletter
  · intro hin
    unfold NamePattern.common at hin
    rcases List.mem_append.mp hin with hin | hin
    · rcases mem_outer hin with hin | hin
      · exact hbefore hin
      · exact hbefore' hin
    · rcases List.mem_cons.mp hin with heq | hin
      · cases heq
      · rcases mem_outer hin with hin | hin
        · exact hafter hin
        · exact hafter' hin

/-- `feeds` is exact: fixed ends that agree are all that a name in common needs. -/
theorem feeds_iff {a b : Rule} (ha : a.Proper) (hb : b.Proper) :
    a.feeds b = true ↔ CouldFeed a b := by
  have hwildcard : b.wildcardOverOutputs = true → b.isWildcard = true := by
    intro hover
    by_contra hnot
    rw [(hb.literal (by simpa using hnot)).1] at hover
    cases hover
  unfold Rule.feeds CouldFeed
  simp only [Bool.and_eq_true, decide_eq_true_eq]
  constructor
  · rintro ⟨⟨⟨hstar, hover⟩, hdirectory⟩, hoverlaps⟩
    obtain ⟨hproduced, hmatched⟩ := NamePattern.overlaps_iff.mp hoverlaps
    obtain ⟨stem, hne, hname⟩ := NamePattern.accepts_iff.mp hproduced
    have hsource := (hb.wildcard (hwildcard hover)).1
    exact ⟨hstar, hwildcard hover, hover, hdirectory, _, stem, common_fileName ha.output hsource,
      hne, hname, hmatched⟩
  · rintro ⟨hstar, -, hover, hdirectory, name, stem, -, hne, hname, hmatched⟩
    refine ⟨⟨⟨hstar, hover⟩, hdirectory⟩, ?_⟩
    exact NamePattern.overlaps_of_accepts (NamePattern.accepts_iff.mpr ⟨stem, hne, hname⟩) hmatched

/-- Whether a step leads from one rule to another, by their indices. -/
def FeedsAt (rules : List Rule) (i j : Nat) : Prop :=
  ∃ a b, rules[i]? = some a ∧ rules[j]? = some b ∧ CouldFeed a b

theorem feedsAt_couldFeed {rules : List Rule} (hproper : ∀ rule ∈ rules, rule.Proper) {i j : Nat} :
    feedsAt rules i j = true ↔ FeedsAt rules i j := by
  rw [feedsAt_iff]
  constructor
  · rintro ⟨a, b, ha, hb, hfeeds⟩
    refine ⟨a, b, ha, hb, (feeds_iff ?_ ?_).mp hfeeds⟩
    · exact hproper a (List.mem_of_getElem? ha)
    · exact hproper b (List.mem_of_getElem? hb)
  · rintro ⟨a, b, ha, hb, hfeeds⟩
    refine ⟨a, b, ha, hb, (feeds_iff ?_ ?_).mpr hfeeds⟩
    · exact hproper a (List.mem_of_getElem? ha)
    · exact hproper b (List.mem_of_getElem? hb)

theorem Accounts.lines_inj {s : Parsing} {lines : List (List Char)} (h : Accounts s lines)
    {i j : Nat} (hi : i < s.lines.length) (hj : j < s.lines.length)
    (heq : s.lines.getD i 0 = s.lines.getD j 0) : i = j := by
  rw [List.getD_eq_getElem?_getD, List.getD_eq_getElem?_getD, List.getElem?_eq_getElem hi,
    List.getElem?_eq_getElem hj] at heq
  have hnodup : s.lines.Nodup := h.rules.imp fun hlt => Nat.ne_of_lt hlt
  exact hnodup.getElem_inj_iff.mp heq

/-- Which rules get the error: those at which `feeds` is set once closed. -/
theorem Accounts.feedsItself_iff {s : Parsing} {lines : List (List Char)} (h : Accounts s lines)
    {i : Nat} (hi : i < s.rules.length) (output : Path)
    (houtput : (s.rules.map Rule.output).getD i [] = output) :
    { line := s.lines.getD i 0, problem := .feedsItself output } ∈ s.finish.errors ↔
      i ∈ s.selfFeeding := by
  rw [(finish_errors_perm s).mem_iff]
  have hlength := h.length
  constructor
  · intro hmem
    rcases List.mem_append.mp hmem with hmem | hmem
    · have hline : s.lines.getD i 0 ∈ s.lines := by
        rw [List.getD_eq_getElem?_getD, List.getElem?_eq_getElem (hlength ▸ hi)]
        exact List.getElem_mem _
      have hnodup := h.accounted.nodup_iff.mpr (significant_nodup lines)
      have hapart := (List.nodup_append.mp hnodup).2.2
      exact absurd rfl (hapart _ hline _ (List.mem_map_of_mem hmem))
    · rcases List.mem_append.mp hmem with hmem | hmem
      · obtain ⟨copy, -, heq⟩ := List.mem_map.mp hmem
        injection heq with _ heq
        cases heq
      · obtain ⟨j, hj, heq⟩ := List.mem_map.mp hmem
        injection heq with hline _
        have hlt := List.mem_range.mp (List.mem_of_mem_filter hj)
        obtain rfl := h.lines_inj (hlength ▸ hlt) (hlength ▸ hi) hline
        exact hj
  · intro hmem
    apply List.mem_append_right
    apply List.mem_append_right
    apply List.mem_map.mpr
    exact ⟨i, hmem, by rw [houtput]⟩

/-- What `parse` has before it looks for rules that feed themselves. -/
def gather (text : List Char) : Parsing := ({} : Parsing).parseLines 1 (text.splitOn '\n')

/-- A rule gets the error of one that could produce its own sources just where a chain of wildcards
leads from it back to itself, each of which could produce a file the next one could match. -/
theorem feedsItself_exact (text : List Char) (i : Fin (gather text).rules.length) :
    { line := (gather text).lines.getD i 0
      problem := .feedsItself (gather text).rules[i].output } ∈ (parse text).errors ↔
      Relation.TransGen (FeedsAt (gather text).rules) i i := by
  have haccounts : Accounts (gather text) (text.splitOn '\n') :=
    accounts_nil.parseLines (text.splitOn '\n')
  have hproper := (Parsing.parseLines_gathered gathered_nil 1 (text.splitOn '\n')).proper
  have houtput : ((gather text).rules.map Rule.output).getD i [] = (gather text).rules[i].output := by
    simp
  have hiff := haccounts.feedsItself_iff i.isLt (gather text).rules[i].output houtput
  have hchain : (fun j k => feedsAt (gather text).rules j k = true) =
      FeedsAt (gather text).rules := by
    funext j k
    exact propext (feedsAt_couldFeed hproper)
  rw [mem_selfFeeding, hchain] at hiff
  exact hiff

end MakeBelieve.Manifest
