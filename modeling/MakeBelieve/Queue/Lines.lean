import Mathlib.Data.List.Perm.Subperm
import MakeBelieve.Queue.State

namespace MakeBelieve.Queue

open Library IntrusiveList

/-- Who is in each line, oldest first. -/
abbrev Queued := Line → List OpId

namespace State

/-- The linked lists hold these lines, no waiter in two of them and each one made by now. -/
structure Lined (s : State) (q : Queued) : Prop where
  holds : ∀ line, Holds s.next (s.lines line) (q line)
  disjoint : ∀ line line' i, i ∈ q line → i ∈ q line' → line = line'
  made : ∀ line, ∀ i ∈ q line, i < s.opCount

/-- Nothing but the linked lists has changed. -/
def OnlyLines (s t : State) : Prop := t = { s with next := t.next, lines := t.lines }

variable {s t : State} {q : Queued} {line : Line} {i : OpId}

/-- The lists are nothing to the rest of the state. -/
theorem Lined.congr (h : s.Lined q) (hnext : t.next = s.next) (hlines : t.lines = s.lines)
    (hcount : s.opCount ≤ t.opCount) : t.Lined q :=
  ⟨fun line => by rw [hnext, hlines]; exact h.holds line, h.disjoint,
    fun line i hi => Nat.lt_of_lt_of_le (h.made line i hi) hcount⟩

theorem pushLine_only (s : State) (line : Line) (i : OpId) : OnlyLines s (s.pushLine line i) := rfl

theorem Lined.pushLine (h : s.Lined q) (hi : ∀ line', i ∉ q line') (hmade : i < s.opCount) :
    (s.pushLine line i).Lined (Function.update q line (q line ++ [i])) where
  holds line' := by
    show Holds (push s.next (s.lines line) i).1
      (Function.update s.lines line (push s.next (s.lines line) i).2 line')
      (Function.update q line (q line ++ [i]) line')
    by_cases hl : line' = line
    · subst hl
      rw [Function.update_self, Function.update_self]
      exact (h.holds line').push (hi line')
    · rw [Function.update_of_ne hl, Function.update_of_ne hl]
      refine (h.holds line').congr fun j hj => ?_
      have hji : j ≠ i := fun heq => hi line' (heq ▸ hj)
      exact push_links_other (h.holds line) hji fun hmem => hl (h.disjoint line' line j hj hmem)
  disjoint line' line'' j hj hj' := by
    have hmem : ∀ l, j ∈ Function.update q line (q line ++ [i]) l →
        (j = i ∧ l = line) ∨ (j ≠ i ∧ j ∈ q l) := by
      intro l hl
      by_cases hll : l = line
      · subst hll
        rw [Function.update_self, List.mem_append, List.mem_singleton] at hl
        obtain hl | hl := hl
        · exact .inr ⟨fun heq => hi l (heq ▸ hl), hl⟩
        · exact .inl ⟨hl, rfl⟩
      · rw [Function.update_of_ne hll] at hl
        exact .inr ⟨fun heq => hi l (heq ▸ hl), hl⟩
    obtain ⟨h1, h2⟩ | ⟨h1, h2⟩ := hmem _ hj
    · obtain ⟨_, h4⟩ | ⟨h3, _⟩ := hmem _ hj'
      · exact h2.trans h4.symm
      · exact absurd h1 h3
    · obtain ⟨h3, _⟩ | ⟨_, h4⟩ := hmem _ hj'
      · exact absurd h3 h1
      · exact h.disjoint _ _ _ h2 h4
  made line' j hj := by
    by_cases hl : line' = line
    · subst hl
      rw [Function.update_self, List.mem_append, List.mem_singleton] at hj
      obtain hj | rfl := hj
      · exact h.made _ _ hj
      · exact hmade
    · rw [Function.update_of_ne hl] at hj
      exact h.made _ _ hj

/-- Fewer waiters in one line, its list holding the rest. -/
theorem Lined.shrink (h : s.Lined q) {l : List OpId} (hsub : ∀ j ∈ l, j ∈ q line)
    (hcount : t.opCount = s.opCount) (hl : Holds t.next (t.lines line) l)
    (hother : ∀ line', line' ≠ line → Holds t.next (t.lines line') (q line')) :
    t.Lined (Function.update q line l) := by
  have hmem : ∀ line' j, j ∈ Function.update q line l line' → j ∈ q line' := by
    intro line' j hj
    by_cases hl' : line' = line
    · subst hl'
      rw [Function.update_self] at hj
      exact hsub j hj
    · rwa [Function.update_of_ne hl'] at hj
  refine ⟨fun line' => ?_, fun line' line'' j hj hj' => ?_, fun line' j hj => ?_⟩
  · by_cases hl' : line' = line
    · subst hl'
      rw [Function.update_self]
      exact hl
    · rw [Function.update_of_ne hl']
      exact hother line' hl'
  · exact h.disjoint _ _ j (hmem _ _ hj) (hmem _ _ hj')
  · rw [hcount]
    exact h.made _ _ (hmem _ _ hj)

theorem Lined.popLine_nil (h : s.Lined q) (hq : q line = []) : s.popLine line = (none, s) := by
  have hpop := pop_nil (hq ▸ h.holds line)
  unfold popLine
  rw [hpop]
  simp

theorem Lined.popLine_cons (h : s.Lined q) {rest : List OpId} (hq : q line = i :: rest) :
    ∃ u, s.popLine line = (some i, u) ∧ OnlyLines s u ∧
      u.Lined (Function.update q line rest) := by
  obtain ⟨hpop, hholds⟩ := (hq ▸ h.holds line : Holds s.next (s.lines line) (i :: rest)).pop
  let u : State := { s with lines := Function.update s.lines line (pop s.next (s.lines line)).2 }
  have honly : OnlyLines s u := rfl
  refine ⟨u, Prod.ext hpop rfl, honly, ?_⟩
  refine h.shrink (fun j hj => hq ▸ List.mem_cons_of_mem _ hj) rfl ?_ fun line' hl => ?_
  · show Holds s.next (Function.update s.lines line _ line) rest
    rw [Function.update_self]
    exact hholds
  · show Holds s.next (Function.update s.lines line _ line') (q line')
    rw [Function.update_of_ne hl]
    exact h.holds line'

theorem Lined.length_le (h : s.Lined q) (line : Line) : (q line).length ≤ s.opCount := by
  have hsub : q line ⊆ List.range s.opCount := fun j hj => List.mem_range.mpr (h.made line j hj)
  simpa using ((h.holds line).nodup.subperm hsub).length_le

theorem Lined.removeLine_none (h : s.Lined q) (hi : i ∉ q line) : s.removeLine line i = none := by
  have hspec := (h.holds line).remove (h.length_le line) i
  rw [if_neg hi] at hspec
  simp [removeLine, hspec]

theorem Lined.removeLine_some (h : s.Lined q) (hi : i ∈ q line) :
    ∃ t, s.removeLine line i = some t ∧ OnlyLines s t ∧
      t.Lined (Function.update q line ((q line).erase i)) := by
  have hspec := (h.holds line).remove (h.length_le line) i
  rw [if_pos hi] at hspec
  obtain ⟨next, ends, hremove, hholds, hother⟩ := hspec
  let t : State := { s with next, lines := Function.update s.lines line ends }
  have honly : OnlyLines s t := rfl
  refine ⟨t, by simp [removeLine, hremove, t], honly, ?_⟩
  refine h.shrink (fun j hj => List.mem_of_mem_erase hj) rfl ?_ fun line' hl => ?_
  · show Holds next (Function.update s.lines line ends line) _
    rw [Function.update_self]
    exact hholds
  · show Holds next (Function.update s.lines line ends line') (q line')
    rw [Function.update_of_ne hl]
    refine (h.holds line').congr fun j hj => hother j fun hmem => hl (h.disjoint _ _ j hj hmem)

end State

end MakeBelieve.Queue
