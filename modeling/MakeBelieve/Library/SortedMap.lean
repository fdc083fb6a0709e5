import Mathlib.Data.List.Pairwise
import Mathlib.Order.Defs.LinearOrder
import Mathlib.Order.Lattice

namespace MakeBelieve.Library

/-- A map by its entries in the order of their keys, one for each key. -/
structure SortedMap (α β : Type*) [LinearOrder α] where
  entries : List (α × β)
  sorted : entries.Pairwise fun a b => a.1 < b.1

namespace SortedMap

variable {α β : Type*} [LinearOrder α]

def singleton (key : α) (value : β) : SortedMap α β where
  entries := [(key, value)]
  sorted := List.pairwise_singleton ..

def find (m : SortedMap α β) (key : α) : Option β :=
  (m.entries.find? fun entry => entry.1 = key).map Prod.snd

/-- The map with a value at a key, in place of any there. -/
def insert (m : SortedMap α β) (key : α) (value : β) : SortedMap α β where
  entries := m.entries.filter (fun entry => entry.1 < key) ++
    (key, value) :: m.entries.filter fun entry => key < entry.1
  sorted := by
    rw [List.pairwise_append, List.pairwise_cons]
    refine ⟨m.sorted.filter _, ⟨?_, m.sorted.filter _⟩, ?_⟩
    · intro entry hentry
      exact of_decide_eq_true (List.mem_filter.mp hentry).2
    · intro entry hentry other hother
      have hbefore : entry.1 < key := of_decide_eq_true (List.mem_filter.mp hentry).2
      rcases List.mem_cons.mp hother with rfl | hother
      · exact hbefore
      · exact lt_trans hbefore (of_decide_eq_true (List.mem_filter.mp hother).2)

/-- The map with those of its entries whose keys pass. -/
def restrict (m : SortedMap α β) (keep : α → Bool) : SortedMap α β where
  entries := m.entries.filter fun entry => keep entry.1
  sorted := m.sorted.filter _

variable {m : SortedMap α β} {key other : α} {value : β}

theorem mem_entries : (key, value) ∈ m.entries ↔ m.find key = some value := by
  obtain ⟨entries, hsorted⟩ := m
  unfold find
  induction entries with
  | nil => simp
  | cons entry entries ih =>
    obtain ⟨hfirst, hrest⟩ := List.pairwise_cons.mp hsorted
    have ih := ih hrest
    dsimp only at ih ⊢
    by_cases heq : entry.1 = key
    · rw [List.find?_cons_of_pos (by simpa using heq), List.mem_cons, Option.map_some,
        Option.some_inj]
      constructor
      · rintro (rfl | hmem)
        · rfl
        · exact absurd heq (ne_of_lt (hfirst _ hmem))
      · rintro rfl
        exact .inl (Prod.ext heq.symm rfl)
    · rw [List.find?_cons_of_neg (by simpa using heq), List.mem_cons, ← ih]
      constructor
      · rintro (rfl | hmem)
        · exact absurd rfl heq
        · exact hmem
      · exact .inr

/-- Maps that hold the same entries find the same. -/
theorem find_congr {m' : SortedMap α β} (h : ∀ value, (key, value) ∈ m.entries ↔
    (other, value) ∈ m'.entries) : m.find key = m'.find other := by
  apply Option.ext
  intro value
  rw [← mem_entries, ← mem_entries]
  exact h value

@[simp] theorem find_insert_self : (m.insert key value).find key = some value := by
  apply mem_entries.mp
  exact List.mem_append_right _ List.mem_cons_self

theorem find_insert_of_ne (h : other ≠ key) : (m.insert key value).find other = m.find other := by
  apply find_congr
  intro found
  simp only [insert, List.mem_append, List.mem_cons, List.mem_filter, decide_eq_true_eq,
    Prod.mk.injEq]
  constructor
  · rintro (⟨hmem, -⟩ | ⟨rfl, -⟩ | ⟨hmem, -⟩)
    · exact hmem
    · exact absurd rfl h
    · exact hmem
  · intro hmem
    rcases lt_or_gt_of_ne h with hlt | hgt
    · exact .inl ⟨hmem, hlt⟩
    · exact .inr (.inr ⟨hmem, hgt⟩)

theorem find_insert : (m.insert key value).find other =
    if other = key then some value else m.find other := by
  split
  · next h =>
    rw [h]
    exact find_insert_self
  · next h => exact find_insert_of_ne h

theorem find_restrict (keep : α → Bool) :
    (m.restrict keep).find key = if keep key then m.find key else none := by
  split
  · next h =>
    apply find_congr
    intro value
    simp [restrict, h]
  · next h =>
    rw [Option.eq_none_iff_forall_ne_some]
    intro value hfound
    have hmem := mem_entries.mpr hfound
    exact h (List.mem_filter.mp hmem).2

theorem mem_keys : key ∈ m.entries.map Prod.fst ↔ (m.find key).isSome = true := by
  rw [Option.isSome_iff_exists, List.mem_map]
  constructor
  · rintro ⟨⟨found, value⟩, hmem, rfl⟩
    exact ⟨value, mem_entries.mp hmem⟩
  · rintro ⟨value, hfound⟩
    exact ⟨(key, value), mem_entries.mpr hfound, rfl⟩

end SortedMap

end MakeBelieve.Library
