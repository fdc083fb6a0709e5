import Mathlib.Logic.Relation

namespace MakeBelieve.Library

open Relation

variable {α : Type*} {r s : α → α → Prop}

/-- No directed cycle, of any length. -/
def Acyclic (r : α → α → Prop) : Prop := ∀ a, ¬TransGen r a a

theorem Acyclic.mono (h : Acyclic r) (hle : ∀ a b, s a b → r a b) : Acyclic s := by
  intro a hc
  exact h a (TransGen.mono hle _ _ hc)

/-- A walk over the relation with one more edge `q → t` either keeps to the old edges or passes
through the new one. -/
theorem transGen_add_edge {q t a b : α} (hs : ∀ a b, s a b → r a b ∨ (a = q ∧ b = t))
    (h : TransGen s a b) :
    TransGen r a b ∨ (ReflTransGen r a q ∧ ReflTransGen r t b) := by
  induction h with
  | single hab =>
    rcases hs _ _ hab with hr | ⟨rfl, rfl⟩
    · exact .inl (.single hr)
    · exact .inr ⟨.refl, .refl⟩
  | tail _ hbc ih =>
    rcases hs _ _ hbc with hr | ⟨rfl, rfl⟩
    · rcases ih with ih | ⟨haq, htb⟩
      · exact .inl (ih.tail hr)
      · exact .inr ⟨haq, htb.tail hr⟩
    · rcases ih with ih | ⟨haq, _⟩
      · exact .inr ⟨ih.to_reflTransGen, .refl⟩
      · exact .inr ⟨haq, .refl⟩

/-- An edge `q → t` closes no cycle when `t` does not reach `q`. -/
theorem Acyclic.add_edge {q t : α} (h : Acyclic r) (hnot : ¬ReflTransGen r t q)
    (hs : ∀ a b, s a b → r a b ∨ (a = q ∧ b = t)) : Acyclic s := by
  intro a hc
  rcases transGen_add_edge hs hc with hr | ⟨haq, hta⟩
  · exact h a hr
  · exact hnot (hta.trans haq)

/-- A set closed under the relation holds everything it reaches. -/
theorem closed_of_reflTransGen {P : α → Prop} (hP : ∀ a b, P a → r a b → P b)
    {a b : α} (h : ReflTransGen r a b) (ha : P a) : P b := by
  induction h with
  | refl => exact ha
  | tail _ hbc ih => exact hP _ _ ih hbc

/-- Nothing without outgoing edges reaches anything but itself. -/
theorem reflTransGen_eq_of_sink {a b : α} (hsink : ∀ c, ¬r a c) (h : ReflTransGen r a b) :
    a = b := by
  rcases h.cases_head with rfl | ⟨c, hac, _⟩
  · rfl
  · exact absurd hac (hsink c)

end MakeBelieve.Library
