import Mathlib.Data.List.Perm.Subperm
import MakeBelieve.Manifest.Accept

namespace MakeBelieve.Manifest

/-- A line that is neither blank nor a comment. -/
def Significant (line : List Char) : Prop := trim line ≠ [] ∧ (trim line).head? ≠ some '#'

instance (line : List Char) : Decidable (Significant line) := inferInstanceAs (Decidable (_ ∧ _))

/-- The numbers, from 1, of the lines that are neither blank nor comments. -/
def significant (lines : List (List Char)) : List Nat :=
  ((lines.zipIdx 1).filter fun line => Significant line.1).map Prod.snd

theorem significant_concat (lines : List (List Char)) (line : List Char) :
    significant (lines ++ [line]) =
      significant lines ++ if Significant line then [lines.length + 1] else [] := by
  unfold significant
  rw [List.zipIdx_append, List.filter_append, List.map_append]
  by_cases h : Significant line
  · simp [h, Nat.add_comm]
  · simp [h]

theorem significant_nodup (lines : List (List Char)) : (significant lines).Nodup := by
  have hall : ((lines.zipIdx 1).map Prod.snd).Nodup := by
    rw [List.zipIdx_map_snd]
    exact List.nodup_range'
  exact hall.sublist (List.filter_sublist.map _)

theorem mem_significant_le {lines : List (List Char)} {number : Nat}
    (h : number ∈ significant lines) : number ≤ lines.length := by
  obtain ⟨⟨line, _⟩, hmem, rfl⟩ := List.mem_map.mp h
  have hlt := List.snd_lt_of_mem_zipIdx (List.mem_of_mem_filter hmem)
  omega

/-- A line of a manifest declares a rule. -/
def DeclaredOn (lines : List (List Char)) (number : Nat) (rule : Rule) : Prop :=
  ∃ line declared, lines[number - 1]? = some line ∧ declaredOf line = some declared ∧
    declared.rule = rule

theorem readRule_copies {left argument : List Char} {action : Tree.Action} {declared : Declared}
    (h : readRule left action argument = .ok declared) (hcopies : declared.copiedOutput.isSome) :
    declared.rule.isWildcard = false := by
  unfold readRule at h
  split at h
  · split at h
    · cases h
    · dsimp only at h
      split at h
      · cases h
      · split at h
        · obtain rfl := Except.ok.inj h
          cases hcopies
        · cases h
  · split at h
    · cases h
    · split at h
      · cases h
      · obtain rfl := Except.ok.inj h
        rfl

/-- What copies an output is no wildcard. -/
theorem declaredOf_copies {line : List Char} {declared : Declared}
    (h : declaredOf line = some declared) (hcopies : declared.copiedOutput.isSome) :
    declared.rule.isWildcard = false := by
  unfold declaredOf readLine at h
  split at h
  · next heq =>
    obtain rfl := Option.some.inj h
    split at heq
    · cases heq
    · have hread := Option.some.inj heq
      split at hread
      · cases hread
      · exact readRule_copies hread hcopies
  · cases h

namespace Parsing

/-- A line changes nothing, or is accepted or rejected: always one if it is significant. -/
theorem parseLine_significant (s : Parsing) (number : Nat) (line : List Char) :
    (¬Significant line ∧ s.parseLine number line = s) ∨
    (Significant line ∧ ∃ declared, declaredOf line = some declared ∧
      s.parseLine number line = s.accept number declared) ∨
    (Significant line ∧ ∃ problem, s.parseLine number line = s.reject number problem) := by
  have hnone : readLine (trim line) = none ↔ ¬Significant line := by
    unfold readLine Significant
    rw [not_and_or, not_not, not_not]
    split
    · next h => simpa using h
    · next h => simpa using h
  unfold parseLine declaredOf
  cases hread : readLine (trim line) with
  | none => exact .inl ⟨hnone.mp hread, rfl⟩
  | some result =>
    have hsignificant : Significant line := by
      by_contra h
      rw [hnone.mpr h] at hread
      cases hread
    right
    cases result with
    | error problem => exact .inr ⟨hsignificant, problem, rfl⟩
    | ok declared =>
      dsimp only
      cases s.clash declared.left declared.rule with
      | none => exact .inl ⟨hsignificant, declared, rfl, rfl⟩
      | some problem => exact .inr ⟨hsignificant, problem, rfl⟩

end Parsing

/-- What has been gathered from `lines`, line by line: each has become a rule or an error. -/
structure Accounts (s : Parsing) (lines : List (List Char)) : Prop where
  length : s.lines.length = s.rules.length
  accounted : (s.lines ++ s.errors.map Error.line).Perm (significant lines)
  rules : s.lines.Pairwise (· < ·)
  errors : (s.errors.map Error.line).Pairwise (· < ·)
  declared : ∀ (i number : Nat) (rule : Rule), s.lines[i]? = some number → s.rules[i]? = some rule →
    DeclaredOn lines number rule
  copies : (s.copies.map CopyOfOutput.rule).Pairwise (· < ·)
  copied : ∀ copy ∈ s.copies, s.lines[copy.rule]? = some copy.line ∧
    ∃ rule, s.rules[copy.rule]? = some rule ∧ rule.isWildcard = false

theorem DeclaredOn.concat {lines : List (List Char)} {number : Nat} {rule : Rule}
    (h : DeclaredOn lines number rule) (line : List Char) :
    DeclaredOn (lines ++ [line]) number rule := by
  obtain ⟨found, declared, hfound, hdeclared, hrule⟩ := h
  refine ⟨found, declared, ?_, hdeclared, hrule⟩
  obtain ⟨hlt, rfl⟩ := List.getElem?_eq_some_iff.mp hfound
  rw [List.getElem?_append_left hlt, List.getElem?_eq_getElem hlt]

variable {s : Parsing} {lines : List (List Char)} {line : List Char}

theorem Accounts.le (h : Accounts s lines) :
    (∀ number ∈ s.lines, number ≤ lines.length) ∧
      ∀ number ∈ s.errors.map Error.line, number ≤ lines.length := by
  constructor
  · intro number hmem
    exact mem_significant_le (h.accounted.subset (List.mem_append_left _ hmem))
  · intro number hmem
    exact mem_significant_le (h.accounted.subset (List.mem_append_right _ hmem))

theorem pairwise_concat {numbers : List Nat} {n : Nat} (h : numbers.Pairwise (· < ·))
    (hle : ∀ number ∈ numbers, number ≤ n) : (numbers ++ [n + 1]).Pairwise (· < ·) := by
  rw [List.pairwise_append]
  refine ⟨h, List.pairwise_singleton _ _, ?_⟩
  intro number hmem last hlast
  have hle := hle number hmem
  rw [List.mem_singleton.mp hlast]
  omega

theorem Accounts.skip (h : Accounts s lines) (hline : ¬Significant line) :
    Accounts s (lines ++ [line]) := by
  have hsame : significant (lines ++ [line]) = significant lines := by
    rw [significant_concat, if_neg hline, List.append_nil]
  refine ⟨h.length, ?_, h.rules, h.errors, ?_, h.copies, h.copied⟩
  · rw [hsame]
    exact h.accounted
  · intro i number rule hnumber hrule
    exact (h.declared i number rule hnumber hrule).concat line

theorem Accounts.reject (h : Accounts s lines) (hline : Significant line) (problem : Problem) :
    Accounts (s.reject (lines.length + 1) problem) (lines ++ [line]) := by
  have herrors : ((s.reject (lines.length + 1) problem).errors.map Error.line) =
      s.errors.map Error.line ++ [lines.length + 1] := by
    simp [Parsing.reject]
  refine ⟨h.length, ?_, h.rules, ?_, ?_, h.copies, h.copied⟩
  · rw [herrors, significant_concat, if_pos hline, ← List.append_assoc]
    exact h.accounted.append_right _
  · rw [herrors]
    exact pairwise_concat h.errors h.le.2
  · intro i number rule hnumber hrule
    exact (h.declared i number rule hnumber hrule).concat line

theorem Accounts.accept (h : Accounts s lines) (hline : Significant line) {declared : Declared}
    (hdeclared : declaredOf line = some declared) :
    Accounts (s.accept (lines.length + 1) declared) (lines ++ [line]) := by
  have hlines : (s.accept (lines.length + 1) declared).lines = s.lines ++ [lines.length + 1] := rfl
  have hrules : (s.accept (lines.length + 1) declared).rules = s.rules ++ [declared.rule] := rfl
  have hold : ∀ copy ∈ s.copies, copy.rule < s.rules.length := by
    intro copy hcopy
    obtain ⟨-, rule, hrule, -⟩ := h.copied copy hcopy
    exact (List.getElem?_eq_some_iff.mp hrule).1
  constructor
  · rw [hlines, hrules, List.length_append, List.length_append, h.length]
    rfl
  · rw [hlines, significant_concat, if_pos hline]
    have hmove : (s.lines ++ [lines.length + 1] ++ s.errors.map Error.line).Perm
        (s.lines ++ s.errors.map Error.line ++ [lines.length + 1]) := by
      rw [List.append_assoc, List.append_assoc]
      exact List.perm_append_comm.append_left _
    exact hmove.trans (h.accounted.append_right _)
  · exact pairwise_concat h.rules h.le.1
  · exact h.errors
  · intro i number rule hnumber hrule
    rw [hlines] at hnumber
    rw [hrules] at hrule
    rcases Nat.lt_or_ge i s.lines.length with hi | hi
    · rw [List.getElem?_append_left hi] at hnumber
      rw [List.getElem?_append_left (h.length ▸ hi)] at hrule
      exact (h.declared i number rule hnumber hrule).concat line
    · rw [List.getElem?_append_right hi] at hnumber
      rw [List.getElem?_append_right (h.length ▸ hi), ← h.length] at hrule
      rw [List.getElem?_singleton] at hnumber hrule
      split at hnumber
      · next hzero =>
        rw [if_pos hzero] at hrule
        obtain rfl := Option.some.inj hnumber
        obtain rfl := Option.some.inj hrule
        exact ⟨line, declared, by simp, hdeclared, rfl⟩
      · cases hnumber
  · show ((s.accept (lines.length + 1) declared).copies.map CopyOfOutput.rule).Pairwise (· < ·)
    unfold Parsing.accept
    dsimp only
    split
    · rw [List.map_append, List.pairwise_append]
      refine ⟨h.copies, List.pairwise_singleton _ _, ?_⟩
      intro rule hrule last hlast
      obtain ⟨copy, hcopy, rfl⟩ := List.mem_map.mp hrule
      rw [List.map_singleton, List.mem_singleton] at hlast
      rw [hlast]
      exact hold copy hcopy
    · exact h.copies
  · have hkept : ∀ copy ∈ s.copies, (s.lines ++ [lines.length + 1])[copy.rule]? = some copy.line ∧
        ∃ rule, (s.rules ++ [declared.rule])[copy.rule]? = some rule ∧ rule.isWildcard = false := by
      intro copy hcopy
      obtain ⟨hnumber, rule, hrule, hwildcard⟩ := h.copied copy hcopy
      have hlt := hold copy hcopy
      rw [List.getElem?_append_left hlt, List.getElem?_append_left (h.length ▸ hlt)]
      exact ⟨hnumber, rule, hrule, hwildcard⟩
    intro copy hcopy
    rw [hlines, hrules]
    unfold Parsing.accept at hcopy
    dsimp only at hcopy
    split at hcopy
    · next source hsource =>
      rcases List.mem_append.mp hcopy with hcopy | hcopy
      · exact hkept copy hcopy
      · rw [List.mem_singleton.mp hcopy]
        refine ⟨?_, declared.rule, ?_, declaredOf_copies hdeclared (hsource ▸ rfl)⟩
        · simp [← h.length]
        · simp
    · exact hkept copy hcopy

theorem Accounts.parseLine (h : Accounts s lines) (line : List Char) :
    Accounts (s.parseLine (lines.length + 1) line) (lines ++ [line]) := by
  rcases s.parseLine_significant (lines.length + 1) line with
    ⟨hline, heq⟩ | ⟨hline, declared, hdeclared, heq⟩ | ⟨hline, problem, heq⟩
  · rw [heq]
    exact h.skip hline
  · rw [heq]
    exact h.accept hline hdeclared
  · rw [heq]
    exact h.reject hline problem

theorem Accounts.parseLines (h : Accounts s lines) (rest : List (List Char)) :
    Accounts (s.parseLines (lines.length + 1) rest) (lines ++ rest) := by
  induction rest generalizing s lines with
  | nil =>
    rw [List.append_nil]
    exact h
  | cons line rest ih =>
    have hnext := ih (h.parseLine line)
    rw [List.length_append, List.append_assoc] at hnext
    exact hnext

theorem accounts_nil : Accounts {} [] := by
  refine ⟨rfl, ?_, ?_, ?_, ?_, ?_, ?_⟩ <;> simp [significant]

/-! ### Once every rule is known -/

theorem mem_zipIdx_getD {numbers : List Nat} {entry : Nat × Nat} (h : entry ∈ numbers.zipIdx) :
    entry.1 = numbers.getD entry.2 0 := by
  obtain ⟨hlt, heq⟩ := List.mem_zipIdx' h
  rw [heq, List.getD_eq_getElem?_getD, List.getElem?_eq_getElem hlt]
  rfl

/-- What is kept of a list and what is dropped of it, by index, make it up. -/
theorem perm_dropped (numbers indices : List Nat) (hnodup : indices.Nodup)
    (hlt : ∀ i ∈ indices, i < numbers.length) :
    ((numbers.zipIdx.filter fun entry => entry.2 ∉ indices).map Prod.fst ++
      indices.map fun i => numbers.getD i 0).Perm numbers := by
  have hsplit := List.filter_append_perm (fun entry => decide (entry.2 ∈ indices)) numbers.zipIdx
  have hindices : ((numbers.zipIdx.filter fun entry => entry.2 ∈ indices).map Prod.snd).Perm
      indices := by
    have hall : (numbers.zipIdx.map Prod.snd).Nodup := by
      rw [List.zipIdx_map_snd]
      exact List.nodup_range'
    apply (List.perm_ext_iff_of_nodup (hall.sublist (List.filter_sublist.map _)) hnodup).mpr
    intro i
    simp only [List.mem_map, List.mem_filter, decide_eq_true_eq, Prod.exists, exists_eq_right]
    constructor
    · rintro ⟨number, -, hi⟩
      exact hi
    · intro hi
      exact ⟨numbers.get ⟨i, hlt i hi⟩, by simp [List.mk_mem_zipIdx_iff_getElem?, hlt i hi], hi⟩
  have hdropped : (numbers.zipIdx.filter fun entry => entry.2 ∈ indices).map Prod.fst =
      ((numbers.zipIdx.filter fun entry => entry.2 ∈ indices).map Prod.snd).map
        fun i => numbers.getD i 0 := by
    rw [List.map_map]
    apply List.map_congr_left
    intro entry hentry
    exact mem_zipIdx_getD (List.mem_of_mem_filter hentry)
  have hmapped := hsplit.map Prod.fst
  rw [List.map_append, List.zipIdx_map_fst, hdropped] at hmapped
  have hparts := (hindices.map fun i => numbers.getD i 0).append_right
    ((numbers.zipIdx.filter fun entry => entry.2 ∉ indices).map Prod.fst)
  have hsame : (fun entry : Nat × Nat => !decide (entry.2 ∈ indices)) =
      fun entry => decide (entry.2 ∉ indices) := by
    funext entry
    exact (decide_not).symm
  rw [hsame] at hmapped
  exact (List.perm_append_comm.trans hparts.symm).trans hmapped

theorem feedsAt_wildcard {rules : List Rule} {i j : Nat}
    (h : Relation.TransGen (fun i j => feedsAt rules i j = true) i j) :
    ∃ rule, rules[i]? = some rule ∧ rule.isWildcard = true := by
  obtain ⟨k, hfeeds, -⟩ := Relation.TransGen.head'_iff.mp h
  obtain ⟨a, b, ha, -, hab⟩ := feedsAt_iff.mp hfeeds
  unfold Rule.feeds at hab
  simp only [Bool.and_eq_true] at hab
  exact ⟨a, ha, hab.1.1.1⟩

theorem mem_selfFeeding {i : Nat} : i ∈ s.selfFeeding ↔
    Relation.TransGen (fun i j => feedsAt s.rules i j = true) i i := by
  unfold Parsing.selfFeeding
  rw [List.mem_filter, List.mem_range, closedFeeds_iff]
  constructor
  · exact fun h => h.2
  · intro h
    obtain ⟨rule, hrule, -⟩ := feedsAt_wildcard h
    exact ⟨(List.getElem?_eq_some_iff.mp hrule).1, h⟩

/-- No rule is dropped for two reasons: what copies an output is no wildcard. -/
theorem Accounts.dropped (h : Accounts s lines) :
    s.dropped.Nodup ∧ ∀ i ∈ s.dropped, i < s.lines.length := by
  have hcopied : ∀ i ∈ s.undeclaredCopies.map CopyOfOutput.rule,
      ∃ rule, s.rules[i]? = some rule ∧ rule.isWildcard = false := by
    intro i hi
    obtain ⟨copy, hcopy, rfl⟩ := List.mem_map.mp hi
    exact (h.copied copy (List.mem_of_mem_filter hcopy)).2
  have hcopies : (s.undeclaredCopies.map CopyOfOutput.rule).Pairwise (· < ·) :=
    h.copies.sublist (List.filter_sublist.map _)
  constructor
  · apply List.nodup_append.mpr
    refine ⟨hcopies.imp fun hlt => Nat.ne_of_lt hlt, List.nodup_range.filter _, ?_⟩
    rintro i hi j hj rfl
    obtain ⟨rule, hrule, hliteral⟩ := hcopied i hi
    obtain ⟨wildcard, hwildcard, hstar⟩ := feedsAt_wildcard (mem_selfFeeding.mp hj)
    rw [hrule] at hwildcard
    rw [← Option.some.inj hwildcard, hliteral] at hstar
    cases hstar
  · intro i hi
    rw [h.length]
    rcases List.mem_append.mp hi with hi | hi
    · obtain ⟨rule, hrule, -⟩ := hcopied i hi
      exact (List.getElem?_eq_some_iff.mp hrule).1
    · exact List.mem_range.mp (List.mem_of_mem_filter hi)

/-- Each rule dropped gets an error of its own line. -/
theorem Accounts.lateErrors (h : Accounts s lines) :
    s.lateErrors.map Error.line = s.dropped.map fun i => s.lines.getD i 0 := by
  unfold Parsing.lateErrors Parsing.dropped
  rw [List.map_append, List.map_append, List.map_map, List.map_map, List.map_map]
  congr 1
  apply List.map_congr_left
  intro copy hcopy
  obtain ⟨hline, -⟩ := h.copied copy (List.mem_of_mem_filter hcopy)
  show copy.line = s.lines.getD copy.rule 0
  rw [List.getD_eq_getElem?_getD, hline]
  rfl

theorem finish_errors_perm (s : Parsing) : s.finish.errors.Perm (s.errors ++ s.lateErrors) := by
  show (if s.dropped = [] then s.errors
    else (s.errors ++ s.lateErrors).mergeSort fun a b => decide (a.line ≤ b.line)).Perm _
  split
  · next hnone =>
    obtain ⟨hcopies, hfeeding⟩ := List.append_eq_nil_iff.mp hnone
    have hlate : s.lateErrors = [] := by
      simp [Parsing.lateErrors, List.map_eq_nil_iff.mp hcopies, hfeeding]
    rw [hlate, List.append_nil]
  · exact List.mergeSort_perm _ _

theorem Accounts.finish_sorted (h : Accounts s lines) :
    (s.finish.errors.map Error.line).Pairwise (· ≤ ·) := by
  show ((if s.dropped = [] then s.errors
    else (s.errors ++ s.lateErrors).mergeSort fun a b => decide (a.line ≤ b.line)).map
      Error.line).Pairwise _
  split
  · exact h.errors.imp Nat.le_of_lt
  · rw [List.pairwise_map]
    have hsorted := @List.pairwise_mergeSort _ (fun a b : Error => decide (a.line ≤ b.line))
      (fun a b c hab hbc => by simp only [decide_eq_true_eq] at *; omega)
      (fun a b => by simp only [Bool.or_eq_true, decide_eq_true_eq]; omega)
      (s.errors ++ s.lateErrors)
    exact hsorted.imp fun hle => of_decide_eq_true hle

/-- The rules that stand, each with the line it was declared on. -/
def Parsing.standing (s : Parsing) : List (Nat × Rule) :=
  ((s.lines.zip s.rules).zipIdx.filter fun entry => entry.2 ∉ s.dropped).map Prod.fst

theorem zip_filter {α β : Type} (f : α → β) (l : List α) (p : Nat → Bool) :
    ((l.zipIdx.filter fun entry => p entry.2).map Prod.fst).map f =
      ((l.map f).zipIdx.filter fun entry => p entry.2).map Prod.fst := by
  rw [List.zipIdx_map, List.filter_map, List.map_map, List.map_map]
  rfl

theorem Accounts.standing (h : Accounts s lines) :
    s.standing.map Prod.snd = s.finish.rules ∧
    s.standing.map Prod.fst =
      (s.lines.zipIdx.filter fun entry => entry.2 ∉ s.dropped).map Prod.fst := by
  unfold Parsing.standing
  rw [zip_filter Prod.snd _ fun i => decide (i ∉ s.dropped),
    zip_filter Prod.fst _ fun i => decide (i ∉ s.dropped),
    List.map_snd_zip (Nat.le_of_eq h.length.symm), List.map_fst_zip (Nat.le_of_eq h.length)]
  exact ⟨rfl, rfl⟩

/-- Each line that is neither blank nor a comment accounts for one rule or one error; both come in
the order of their lines. -/
theorem parse_accounts (text : List Char) :
    ∃ standing : List (Nat × Rule), standing.map Prod.snd = (parse text).rules ∧
      (standing.map Prod.fst ++ (parse text).errors.map Error.line).Perm
        (significant (text.splitOn '\n')) ∧
      (standing.map Prod.fst).Pairwise (· < ·) ∧
      ((parse text).errors.map Error.line).Pairwise (· < ·) ∧
      ∀ entry ∈ standing, DeclaredOn (text.splitOn '\n') entry.1 entry.2 := by
  have h := accounts_nil.parseLines (text.splitOn '\n')
  unfold parse
  rw [List.nil_append, List.length_nil, Nat.zero_add] at h
  generalize ({} : Parsing).parseLines 1 (text.splitOn '\n') = s at h
  generalize text.splitOn '\n' = lines at h
  obtain ⟨hrules, hlines⟩ := h.standing
  obtain ⟨hnodup, hlt⟩ := h.dropped
  have herrors := (finish_errors_perm s).map Error.line
  rw [List.map_append, h.lateErrors] at herrors
  have hperm : (s.standing.map Prod.fst ++ s.finish.errors.map Error.line).Perm
      (significant lines) := by
    have hkept := perm_dropped s.lines s.dropped hnodup hlt
    rw [← hlines] at hkept
    have hmove : (s.standing.map Prod.fst ++ s.finish.errors.map Error.line).Perm
        (s.standing.map Prod.fst ++ s.dropped.map (fun i => s.lines.getD i 0) ++
          s.errors.map Error.line) := by
      rw [List.append_assoc]
      exact (herrors.trans List.perm_append_comm).append_left _
    exact (hmove.trans (hkept.append_right _)).trans h.accounted
  have hdistinct : (s.finish.errors.map Error.line).Nodup :=
    (List.nodup_append.mp (hperm.nodup_iff.mpr (significant_nodup lines))).2.1
  refine ⟨s.standing, hrules, hperm, ?_, ?_, ?_⟩
  · rw [hlines]
    have hsublist : ((s.lines.zipIdx.filter fun entry => entry.2 ∉ s.dropped).map Prod.fst).Sublist
        (s.lines.zipIdx.map Prod.fst) := List.filter_sublist.map _
    rw [List.zipIdx_map_fst] at hsublist
    exact h.rules.sublist hsublist
  · have hboth := h.finish_sorted.and hdistinct
    exact hboth.imp fun hlt => Nat.lt_of_le_of_ne hlt.1 hlt.2
  · intro entry hentry
    obtain ⟨⟨pair, i⟩, hmem, rfl⟩ := List.mem_map.mp hentry
    obtain ⟨hi, hpair⟩ := List.mem_zipIdx' (List.mem_of_mem_filter hmem)
    have hget : (s.lines.zip s.rules)[i]? = some pair := by
      rw [hpair, List.getElem?_eq_getElem hi]
    rw [List.getElem?_zip_eq_some] at hget
    exact h.declared i _ _ hget.1 hget.2

end MakeBelieve.Manifest
