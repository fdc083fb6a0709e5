import Mathlib.Data.List.Nodup

namespace MakeBelieve.Library

variable {κ ν : Type*} [DecidableEq κ] {given kept : List (κ × ν)} {entry : κ × ν}

/-- Each key of a list of entries once, with the first value it is given there. -/
structure FirstOf (given kept : List (κ × ν)) : Prop where
  nodup : (kept.map Prod.fst).Nodup
  mem_iff : ∀ entry, entry ∈ kept ↔ given.find? (fun g => g.1 = entry.1) = some entry

namespace FirstOf

theorem nil : FirstOf ([] : List (κ × ν)) [] := ⟨List.nodup_nil, by simp⟩

theorem perm {kept' : List (κ × ν)} (h : FirstOf given kept) (hperm : kept'.Perm kept) :
    FirstOf given kept' := by
  constructor
  · exact (hperm.map Prod.fst).nodup_iff.mpr h.nodup
  · intro entry
    rw [hperm.mem_iff, h.mem_iff]

/-- The keys kept are the keys given. -/
theorem key_mem_iff (h : FirstOf given kept) (key : κ) :
    key ∈ kept.map Prod.fst ↔ ∃ entry ∈ given, entry.1 = key := by
  constructor
  · intro hkey
    obtain ⟨entry, hentry, rfl⟩ := List.mem_map.mp hkey
    exact ⟨entry, List.mem_of_find?_eq_some ((h.mem_iff entry).mp hentry), rfl⟩
  · rintro ⟨entry, hentry, rfl⟩
    have hfound : (given.find? fun g => g.1 = entry.1).isSome := by
      rw [List.find?_isSome]
      exact ⟨entry, hentry, by simp⟩
    obtain ⟨first, hfirst⟩ := Option.isSome_iff_exists.mp hfound
    have hkey : first.1 = entry.1 := by simpa using List.find?_some hfirst
    rw [← hkey] at hfirst ⊢
    exact List.mem_map_of_mem ((h.mem_iff first).mpr hfirst)

theorem find?_eq_none (h : FirstOf given kept) {key : κ} (hkey : key ∉ kept.map Prod.fst) :
    given.find? (fun g => g.1 = key) = none := by
  rw [List.find?_eq_none]
  intro g hg heq
  exact hkey ((h.key_mem_iff key).mpr ⟨g, hg, by simpa using heq⟩)

/-- A key that has a value keeps it. -/
theorem again (h : FirstOf given kept) (hkey : entry.1 ∈ kept.map Prod.fst) :
    FirstOf (given ++ [entry]) kept := by
  refine ⟨h.nodup, fun other => ?_⟩
  rw [List.find?_append, h.mem_iff]
  cases hfound : given.find? fun g => g.1 = other.1 with
  | some first => simp
  | none =>
    have hne : entry.1 ≠ other.1 := by
      intro heq
      obtain ⟨g, hg, hgkey⟩ := (h.key_mem_iff entry.1).mp hkey
      rw [List.find?_eq_none] at hfound
      exact hfound g hg (by simpa using hgkey.trans heq)
    simp [hne]

/-- A key that has none takes the one it is given. -/
theorem fresh (h : FirstOf given kept) (hkey : entry.1 ∉ kept.map Prod.fst) :
    FirstOf (given ++ [entry]) (kept ++ [entry]) := by
  refine ⟨?_, fun other => ?_⟩
  · rw [List.map_append, List.map_singleton, List.nodup_append_comm]
    exact List.nodup_cons.mpr ⟨hkey, h.nodup⟩
  · rw [List.mem_append, h.mem_iff, List.mem_singleton, List.find?_append]
    by_cases hsame : entry.1 = other.1
    · rw [← hsame, h.find?_eq_none hkey]
      simp [hsame, eq_comm]
    · have hne : other ≠ entry := fun heq => hsame (heq ▸ rfl)
      simp [hsame, hne]

/-- An entry given before the others takes the place of the one its key has. -/
theorem ahead (h : FirstOf given kept) (entry : κ × ν) :
    FirstOf (entry :: given) (kept.filter (fun other => other.1 ≠ entry.1) ++ [entry]) := by
  refine ⟨?_, fun other => ?_⟩
  · rw [List.map_append, List.map_singleton, List.nodup_append_comm]
    refine List.nodup_cons.mpr ⟨?_, h.nodup.sublist (List.filter_sublist.map _)⟩
    intro hkey
    obtain ⟨other, hother, heq⟩ := List.mem_map.mp hkey
    exact of_decide_eq_true (List.mem_filter.mp hother).2 heq
  · rw [List.mem_append, List.mem_filter, List.mem_singleton, h.mem_iff, List.find?_cons]
    by_cases hsame : entry.1 = other.1
    · simp [hsame, eq_comm]
    · have hne : other ≠ entry := fun heq => hsame (heq ▸ rfl)
      simp [hsame, hne, Ne.symm hsame]

end FirstOf

end MakeBelieve.Library
