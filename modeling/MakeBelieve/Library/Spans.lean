import Mathlib.Data.List.Induction

namespace MakeBelieve.Library

variable {ι ρ : Type*}

/-- What is noted of rows that users take from a pool, record one span on and give back. -/
inductive Mark (ι ρ : Type*)
  | took (i : ι) (r : ρ)
  | began (i : ι) (r : ρ)
  | ended (i : ι) (r : ρ)
  | gaveBack (i : ι) (r : ρ)
  deriving DecidableEq

namespace Mark

def user : Mark ι ρ → ι
  | took i _ | began i _ | ended i _ | gaveBack i _ => i

def row : Mark ι ρ → ρ
  | took _ r | began _ r | ended _ r | gaveBack _ r => r

def isBegan : Mark ι ρ → Bool
  | began _ _ => true
  | _ => false

def isEnded : Mark ι ρ → Bool
  | ended _ _ => true
  | _ => false

end Mark

variable {log : List (Mark ι ρ)} {m : Mark ι ρ} {i : ι} {r : ρ}

/-- The marks on a row. -/
def marksOn [DecidableEq ρ] (r : ρ) (log : List (Mark ι ρ)) : List (Mark ι ρ) := log.filter fun m => m.row = r

/-- The marks a user made. -/
def marksOf [DecidableEq ι] (i : ι) (log : List (Mark ι ρ)) : List (Mark ι ρ) := log.filter fun m => m.user = i

theorem marksOf_append_self [DecidableEq ι] (log : List (Mark ι ρ)) (m : Mark ι ρ) :
    marksOf m.user (log ++ [m]) = marksOf m.user log ++ [m] := by
  simp [marksOf, List.filter_append]

theorem marksOf_append_of_ne [DecidableEq ι] (log : List (Mark ι ρ)) (h : m.user ≠ i) :
    marksOf i (log ++ [m]) = marksOf i log := by
  simp [marksOf, List.filter_append, h]

section Row

variable [DecidableEq ρ]

def lastOn (r : ρ) (log : List (Mark ι ρ)) : Option (Mark ι ρ) := (marksOn r log).getLast?

/-- How many spans have been begun on a row and not ended. -/
def openOn (r : ρ) (log : List (Mark ι ρ)) : Int :=
  ((marksOn r log).countP Mark.isBegan : Int) - (marksOn r log).countP Mark.isEnded

theorem marksOn_append_self (log : List (Mark ι ρ)) (m : Mark ι ρ) :
    marksOn m.row (log ++ [m]) = marksOn m.row log ++ [m] := by
  simp [marksOn, List.filter_append]

theorem marksOn_append_of_ne (log : List (Mark ι ρ)) (h : m.row ≠ r) :
    marksOn r (log ++ [m]) = marksOn r log := by
  simp [marksOn, List.filter_append, h]

theorem lastOn_append_self (log : List (Mark ι ρ)) (m : Mark ι ρ) :
    lastOn m.row (log ++ [m]) = some m := by
  rw [lastOn, marksOn_append_self, List.getLast?_concat]

theorem lastOn_append_of_ne (log : List (Mark ι ρ)) (h : m.row ≠ r) :
    lastOn r (log ++ [m]) = lastOn r log := by
  rw [lastOn, marksOn_append_of_ne log h, lastOn]

theorem openOn_append_of_ne (log : List (Mark ι ρ)) (h : m.row ≠ r) :
    openOn r (log ++ [m]) = openOn r log := by
  rw [openOn, marksOn_append_of_ne log h, openOn]

/-- Whether a mark may come next on its row: a user's marks there follow one another with no other
user's between them. -/
def Mark.Follows : Mark ι ρ → Option (Mark ι ρ) → Prop
  | .took _ r, last => last = none ∨ ∃ j, last = some (.gaveBack j r)
  | .began i r, last => last = some (.took i r)
  | .ended i r, last => last = some (.began i r)
  | .gaveBack i r, last => last = some (.ended i r)

/-- Every mark came after one it may follow. -/
inductive Orderly : List (Mark ι ρ) → Prop
  | nil : Orderly []
  | mark {log : List (Mark ι ρ)} {m : Mark ι ρ} (h : Orderly log)
      (hm : m.Follows (lastOn m.row log)) : Orderly (log ++ [m])

theorem Orderly.init {m : Mark ι ρ} (h : Orderly (log ++ [m])) :
    Orderly log ∧ m.Follows (lastOn m.row log) := by
  generalize heq : log ++ [m] = log' at h
  cases h with
  | nil => simp at heq
  | mark h hm =>
    obtain ⟨rfl, rfl⟩ := List.append_singleton_inj.mp heq
    exact ⟨h, hm⟩

theorem Orderly.of_append {log log' : List (Mark ι ρ)} (h : Orderly (log ++ log')) :
    Orderly log := by
  induction log' using List.reverseRecOn with
  | nil => simpa using h
  | append_singleton log' m ih =>
    rw [← List.append_assoc] at h
    exact ih h.init.1

/-- Each mark of an orderly log may follow the last one on its row. -/
theorem Orderly.follows {before after : List (Mark ι ρ)} (h : Orderly (before ++ m :: after)) :
    m.Follows (lastOn m.row before) := by
  have hsplit : before ++ m :: after = (before ++ [m]) ++ after := by simp
  rw [hsplit] at h
  exact h.of_append.init.2

/-- A span is open on a row only where its beginning is the last mark there. -/
theorem Orderly.openOn_eq (h : Orderly log) (r : ρ) :
    openOn r log = if (lastOn r log).any Mark.isBegan then 1 else 0 := by
  induction h with
  | nil => rfl
  | @mark log m _ hm ih =>
    by_cases hr : m.row = r
    · subst hr
      rw [lastOn_append_self]
      have hcount : openOn m.row (log ++ [m]) = openOn m.row log +
          ((if m.isBegan then 1 else 0) - (if m.isEnded then 1 else 0)) := by
        rw [openOn, marksOn_append_self, openOn, List.countP_append, List.countP_append,
          List.countP_singleton, List.countP_singleton]
        cases m <;> simp [Mark.isBegan, Mark.isEnded] <;> omega
      rw [hcount, ih]
      cases m with
      | took i r =>
        obtain hnone | ⟨j, hj⟩ := hm
        · rw [hnone]
          rfl
        · rw [hj]
          rfl
      | began i r | ended i r | gaveBack i r =>
        rw [show lastOn _ log = _ from hm]
        rfl
    · rw [openOn_append_of_ne log hr, lastOn_append_of_ne log hr, ih]

theorem Orderly.openOn_le (h : Orderly log) (r : ρ) : openOn r log ≤ 1 := by
  rw [h.openOn_eq]
  split <;> omega

end Row

end MakeBelieve.Library
