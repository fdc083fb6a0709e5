import Mathlib.Algebra.Ring.Nat
import Mathlib.Data.List.Count
import Mathlib.Data.List.Nodup
import Mathlib.Data.List.Perm.Subperm
import Mathlib.Logic.Function.Basic

namespace MakeBelieve.Library

variable {α : Type*}

theorem sum_map_toNat (p : α → Bool) (l : List α) :
    (l.map fun a => (p a).toNat).sum = l.countP p := by
  induction l with
  | nil => rfl
  | cons a l ih =>
    rw [List.map_cons, List.sum_cons, ih, List.countP_cons]
    cases p a <;> simp [Nat.add_comm]

/-- What is counted of one list is found, one for one, among what is counted of another. -/
theorem countP_le_of_inj {β : Type*} {p : α → Bool} {q : β → Bool} {l : List α} {l' : List β}
    (f : α → β) (hnd : l.Nodup) (hf : ∀ a ∈ l, p a = true → f a ∈ l' ∧ q (f a) = true)
    (hinj : ∀ a ∈ l, ∀ b ∈ l, p a = true → p b = true → f a = f b → a = b) :
    l.countP p ≤ l'.countP q := by
  have hmapped : ((l.filter p).map f).Nodup := by
    refine List.Nodup.map_on (fun a ha b hb hab => ?_) (hnd.filter p)
    obtain ⟨ha, hpa⟩ := List.mem_filter.mp ha
    obtain ⟨hb, hpb⟩ := List.mem_filter.mp hb
    exact hinj a ha b hb hpa hpb hab
  have hsub : (l.filter p).map f ⊆ l'.filter q := by
    intro b hb
    obtain ⟨a, ha, rfl⟩ := List.mem_map.mp hb
    obtain ⟨ha, hpa⟩ := List.mem_filter.mp ha
    exact List.mem_filter.mpr (hf a ha hpa)
  have hle := (hmapped.subperm hsub).length_le
  rwa [List.length_map, ← List.countP_eq_length_filter, ← List.countP_eq_length_filter] at hle

variable [DecidableEq α]

/-- One element stops counting: what is counted drops by one. -/
theorem countP_flip {p q : α → Bool} {l : List α} {a : α} (hnd : l.Nodup) (ha : a ∈ l)
    (hp : p a = true) (hq : q a = false) (hsame : ∀ b ∈ l, b ≠ a → q b = p b) :
    l.countP q + 1 = l.countP p := by
  induction l with
  | nil => simp at ha
  | cons b l ih =>
    obtain ⟨hb, hnd⟩ := List.nodup_cons.mp hnd
    by_cases hba : b = a
    · subst hba
      have htail : l.countP q = l.countP p := List.countP_congr fun c hc => by
        rw [hsame c (List.mem_cons_of_mem _ hc) (fun h => hb (h ▸ hc))]
      simp [hp, hq, htail]
    · have ha' : a ∈ l := (List.mem_cons.mp ha).resolve_left (Ne.symm hba)
      have htail := ih hnd ha' (fun c hc => hsame c (List.mem_cons_of_mem _ hc))
      have hhead := hsame b (by simp) hba
      simp only [List.countP_cons, hhead]
      omega

/-- Taking an element out takes out what it counted for. -/
theorem countP_erase_add {p : α → Bool} {l : List α} {a : α} (ha : a ∈ l) :
    (l.erase a).countP p + (if p a then 1 else 0) = l.countP p := by
  induction l with
  | nil => simp at ha
  | cons b l ih =>
    by_cases hba : b = a
    · subst hba
      simp [List.countP_cons]
    · have ha' : a ∈ l := (List.mem_cons.mp ha).resolve_left (Ne.symm hba)
      have htail := ih ha'
      simp only [List.erase_cons, beq_iff_eq, hba, if_false, List.countP_cons]
      omega

/-- Where counting loses an element and gains none, it drops. -/
theorem countP_lt {p q : α → Bool} {l : List α} {a : α} (ha : a ∈ l) (hp : p a = true)
    (hq : q a = false) (hle : ∀ b ∈ l, q b = true → p b = true) : l.countP q < l.countP p := by
  induction l with
  | nil => simp at ha
  | cons b l ih =>
    have htail : l.countP q ≤ l.countP p :=
      List.countP_mono_left fun c hc => hle c (List.mem_cons_of_mem _ hc)
    by_cases hba : b = a
    · subst hba
      simp only [List.countP_cons, hp, hq]
      simp
      omega
    · have ha' : a ∈ l := (List.mem_cons.mp ha).resolve_left (Ne.symm hba)
      have hlt := ih ha' (fun c hc => hle c (List.mem_cons_of_mem _ hc))
      have hhead := hle b (by simp)
      simp only [List.countP_cons]
      cases hqb : q b with
      | false => simp; omega
      | true => simp [hhead hqb]; omega

/-- A sum over elements, one of which counts for something else now. -/
theorem sum_map_update {β : Type*} (p : β → Nat) (f : α → β) {l : List α} (hnd : l.Nodup) {a : α}
    (ha : a ∈ l) (x : β) :
    (l.map fun b => p (Function.update f a x b)).sum + p (f a) =
      (l.map fun b => p (f b)).sum + p x := by
  induction l with
  | nil => simp at ha
  | cons b l ih =>
    obtain ⟨hb, hnd⟩ := List.nodup_cons.mp hnd
    by_cases hba : b = a
    · subst hba
      have htail : (l.map fun c => p (Function.update f b x c)) = l.map fun c => p (f c) := by
        apply List.map_congr_left
        intro c hc
        have hcb : c ≠ b := fun h => hb (h ▸ hc)
        rw [Function.update_of_ne hcb]
      simp only [List.map_cons, List.sum_cons, Function.update_self, htail]
      omega
    · have ha' : a ∈ l := (List.mem_cons.mp ha).resolve_left (Ne.symm hba)
      have htail := ih hnd ha'
      simp only [List.map_cons, List.sum_cons, Function.update_of_ne hba]
      omega

end MakeBelieve.Library
