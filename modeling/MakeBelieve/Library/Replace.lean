import Mathlib.Data.List.Infix

namespace MakeBelieve.Library

variable {α : Type*}

/-- A word that stands before a letter which is not its own stands there whole. -/
theorem prefix_of_append_cons {word front rest : List α} {stop : α} (hstop : stop ∉ word)
    (h : word <+: front ++ stop :: rest) : word <+: front := by
  rcases List.prefix_or_prefix_of_prefix h (List.prefix_append front (stop :: rest)) with hle | hle
  · exact hle
  · obtain ⟨more, rfl⟩ := hle
    cases more with
    | nil =>
      rw [List.append_nil]
    | cons letter more =>
      rw [List.prefix_append_right_inj, List.cons_prefix_cons] at h
      rw [h.1] at hstop
      exact absurd (List.mem_append_right _ List.mem_cons_self) hstop

/-- A word is on one side of any letter that is not its own. -/
theorem infix_of_append_cons {word front rest : List α} {stop : α} (hstop : stop ∉ word)
    (h : word <:+: front ++ stop :: rest) : word <:+: front ∨ word <:+: rest := by
  induction front with
  | nil =>
    rw [List.nil_append, List.infix_cons_iff] at h
    rcases h with hpre | hinfix
    · have hnil : word <+: [] := prefix_of_append_cons hstop hpre
      exact .inl hnil.isInfix
    · exact .inr hinfix
  | cons letter front ih =>
    rw [List.cons_append, List.infix_cons_iff] at h
    rcases h with hpre | hinfix
    · rw [← List.cons_append] at hpre
      exact .inl (prefix_of_append_cons hstop hpre).isInfix
    · rcases ih hinfix with hfront | hrest
      · exact .inl (List.infix_cons hfront)
      · exact .inr hrest

/-- A text with the first word in it replaced, and so on with what follows that. -/
def replaceAll [DecidableEq α] (word replacement : List α) : List α → List α
  | [] => []
  | letter :: rest =>
    if word <+: letter :: rest then
      replacement ++ replaceAll word replacement (rest.drop (word.length - 1))
    else letter :: replaceAll word replacement rest
termination_by text => text.length
decreasing_by
  · rw [List.length_drop, List.length_cons]
    omega
  · exact Nat.lt_succ_self _

/-- A text with the words in it replaced that begin at a marked letter. -/
def replaceMarked (word replacement : List α) : List (α × Bool) → List α
  | [] => []
  | (letter, marked) :: rest =>
    if marked then
      replacement ++ replaceMarked word replacement (rest.drop (word.length - 1))
    else letter :: replaceMarked word replacement rest
termination_by text => text.length
decreasing_by
  · rw [List.length_drop, List.length_cons]
    omega
  · exact Nat.lt_succ_self _

/-- Whether the word begins at each marked letter. -/
def MarksWords (word : List α) : List (α × Bool) → Prop
  | [] => True
  | (letter, marked) :: rest =>
    (marked = true → word <+: letter :: rest.map Prod.fst) ∧ MarksWords word rest

/-- Whether the word begins at no other letter. -/
def AllMarked (word : List α) : List (α × Bool) → Prop
  | [] => True
  | (letter, marked) :: rest =>
    (word <+: letter :: rest.map Prod.fst → marked = true) ∧ AllMarked word rest

variable {word : List α}

theorem MarksWords.drop {text : List (α × Bool)} (h : MarksWords word text) (count : Nat) :
    MarksWords word (text.drop count) := by
  induction count generalizing text with
  | zero => exact h
  | succ count ih =>
    cases text with
    | nil => trivial
    | cons first text => exact ih h.2

theorem AllMarked.drop {text : List (α × Bool)} (h : AllMarked word text) (count : Nat) :
    AllMarked word (text.drop count) := by
  induction count generalizing text with
  | zero => exact h
  | succ count ih =>
    cases text with
    | nil => trivial
    | cons first text => exact ih h.2

/-- No word begins within the rest of one, whose first letter does not come again. -/
theorem AllMarked.of_drop {first : α} {others : List α} (hfirst : first ∉ others)
    {text : List (α × Bool)} (hword : others <+: text.map Prod.fst)
    (h : AllMarked (first :: others) (text.drop others.length)) :
    AllMarked (first :: others) text := by
  suffices hgen : ∀ later : List α, first ∉ later → ∀ text : List (α × Bool),
      later <+: text.map Prod.fst → AllMarked (first :: others) (text.drop later.length) →
      AllMarked (first :: others) text from hgen others hfirst text hword h
  intro later
  induction later with
  | nil =>
    intro _ text _ h
    exact h
  | cons letter later ih =>
    intro hnot text hpre h
    cases text with
    | nil => trivial
    | cons entry text =>
      rw [List.map_cons, List.cons_prefix_cons] at hpre
      constructor
      · intro hbegins
        rw [List.cons_prefix_cons, ← hpre.1] at hbegins
        exact absurd (hbegins.1 ▸ List.mem_cons_self) hnot
      · exact ih (fun hmem => hnot (List.mem_cons_of_mem _ hmem)) text hpre.2 h

/-- Replacing the words that are marked is replacing them all only where they all are, if what takes
their place begins with another letter. -/
theorem replaceAll_eq_replaceMarked [DecidableEq α] {first other : α} {others more : List α}
    (hfirst : first ∉ others) (hother : other ≠ first) (text : List (α × Bool))
    (h : MarksWords (first :: others) text) :
    replaceAll (first :: others) (other :: more) (text.map Prod.fst) =
        replaceMarked (first :: others) (other :: more) text ↔
      AllMarked (first :: others) text := by
  induction hlen : text.length using Nat.strong_induction_on generalizing text with
  | _ length ih =>
    cases text with
    | nil => simp [replaceAll, replaceMarked, AllMarked]
    | cons entry text =>
      obtain ⟨letter, marked⟩ := entry
      rw [List.length_cons] at hlen
      rw [List.map_cons, replaceAll, replaceMarked]
      cases marked with
      | true =>
        have hbegins := h.1 rfl
        rw [if_pos hbegins, if_pos rfl, List.append_cancel_left_eq, ← List.map_drop]
        rw [ih _ _ _ (h.2.drop _) rfl]
        · rw [List.length_cons, Nat.add_sub_cancel]
          constructor
          · intro hall
            exact ⟨fun _ => rfl, hall.of_drop hfirst (List.cons_prefix_cons.mp hbegins).2⟩
          · intro hall
            exact hall.2.drop _
        · rw [List.length_drop]
          omega
      | false =>
        rw [if_neg Bool.false_ne_true]
        by_cases hbegins : first :: others <+: letter :: text.map Prod.fst
        · rw [if_pos hbegins, List.cons_append]
          constructor
          · intro heq
            have hletter := (List.cons_prefix_cons.mp hbegins).1
            exact absurd ((List.cons.inj heq).1.trans hletter.symm) hother
          · intro hall
            exact absurd (hall.1 hbegins) Bool.false_ne_true
        · rw [if_neg hbegins, List.cons.injEq]
          rw [ih text.length (by omega) text h.2 rfl]
          constructor
          · intro hall
            exact ⟨fun hword => absurd hword hbegins, hall.2⟩
          · intro hall
            exact ⟨rfl, hall.2⟩

/-- A text with nothing marked in front of another. -/
theorem replaceMarked_append {replacement : List α} (front : List α) (text : List (α × Bool)) :
    replaceMarked word replacement (front.map (fun letter => (letter, false)) ++ text) =
      front ++ replaceMarked word replacement text := by
  induction front with
  | nil => rfl
  | cons letter front ih =>
    rw [List.map_cons, List.cons_append, replaceMarked, if_neg Bool.false_ne_true, ih,
      List.cons_append]

theorem marksWords_append (front : List α) (text : List (α × Bool)) :
    MarksWords word (front.map (fun letter => (letter, false)) ++ text) ↔ MarksWords word text := by
  induction front with
  | nil => exact Iff.rfl
  | cons letter front ih =>
    rw [List.map_cons, List.cons_append, MarksWords, ih]
    simp

theorem allMarked_append (front : List α) (text : List (α × Bool)) :
    AllMarked word (front.map (fun letter => (letter, false)) ++ text) ↔
      (∀ tail, tail <:+ front → tail ≠ [] → ¬word <+: tail ++ text.map Prod.fst) ∧
        AllMarked word text := by
  induction front with
  | nil =>
    constructor
    · intro h
      refine ⟨?_, h⟩
      intro tail htail hne
      exact absurd (List.suffix_nil.mp htail) hne
    · intro h
      exact h.2
  | cons letter front ih =>
    have hmap : (front.map (fun letter => (letter, false)) ++ text).map Prod.fst =
        front ++ text.map Prod.fst := by
      rw [List.map_append, List.map_map]
      congr 1
      exact List.map_id front
    rw [List.map_cons, List.cons_append, AllMarked, ih, hmap]
    constructor
    · intro h
      refine ⟨?_, h.2.2⟩
      intro tail htail hne hword
      rcases List.suffix_cons_iff.mp htail with rfl | htail
      · exact Bool.false_ne_true (h.1 hword)
      · exact h.2.1 tail htail hne hword
    · intro h
      refine ⟨?_, ?_, h.2⟩
      · intro hword
        exact absurd hword (h.1 (letter :: front) (List.suffix_refl _) (by simp))
      · intro tail htail hne
        exact h.1 tail (htail.trans (List.suffix_cons letter front)) hne

end MakeBelieve.Library
