import MakeBelieve.Tracer.State

namespace MakeBelieve.Tracer

open Library

/-- What is held: whole events, the last of those recorded, in the order recorded. -/
structure Held (slices : List ByteString) (events : List ByteString) (groups : List (List ByteString)) : Prop where
  slices : slices = groups.map List.flatten
  suffix : groups.flatten <:+ events
  latest : groups.flatten.getLast? = events.getLast?

theorem pack_groups (sliceSize : Nat) (groups : List (List ByteString)) (event : ByteString) :
    ∃ front last, pack sliceSize (groups.map List.flatten) event =
        (front ++ [last ++ [event]]).map List.flatten ∧
      (front ++ [last ++ [event]]).flatten = groups.flatten ++ [event] := by
  rcases List.eq_nil_or_concat groups with rfl | ⟨front, last, rfl⟩
  · exact ⟨[], [], by simp [pack], rfl⟩
  · by_cases hfull : sliceSize < last.flatten.length + event.length
    · exact ⟨front ++ [last], [], by simp [pack, hfull, -List.length_flatten], by simp⟩
    · exact ⟨front, last, by simp [pack, hfull, -List.length_flatten], by simp⟩

/-- Only the oldest slices are dropped, and never the newest. -/
theorem evict_suffix (capacity : Nat) (slices : List ByteString) (size : Nat) :
    (evict capacity slices size).1 <:+ slices ∧
      (slices ≠ [] → (evict capacity slices size).1 ≠ []) := by
  fun_induction evict capacity slices size with
  | case1 front next slices size hover ih =>
    exact ⟨ih.1.trans (List.suffix_cons front _), fun _ => ih.2 (List.cons_ne_nil next slices)⟩
  | case2 front next slices size hover =>
    exact ⟨List.suffix_rfl, fun h => h⟩
  | case3 slices size _ => exact ⟨List.suffix_rfl, fun h => h⟩

theorem Held.record {s : State} {events : List ByteString} {groups : List (List ByteString)}
    (h : Held s.slices events groups) (event : ByteString) :
    ∃ groups, Held (s.record event).slices (events ++ [event]) groups := by
  obtain ⟨front, last, hpacked, hflatten⟩ := pack_groups s.sliceSize groups event
  obtain ⟨hsuffix, hne⟩ := evict_suffix s.capacity (pack s.sliceSize s.slices event)
    (s.size + event.length)
  rw [h.slices, hpacked] at hsuffix hne
  obtain ⟨kept, hkept, hslices⟩ := List.suffix_map_iff.mp hsuffix
  have hkeptne : kept ≠ [] := by
    rintro rfl
    exact hne (by simp) hslices
  obtain rfl | ⟨rest, rfl, hrest⟩ := List.suffix_concat_iff.mp hkept
  · exact absurd rfl hkeptne
  refine ⟨rest ++ [last ++ [event]], ?_, ?_, ?_⟩
  · rw [State.record, h.slices, hpacked]
    exact hslices
  · obtain ⟨dropped, hdropped⟩ := hkept
    obtain ⟨older, holder⟩ := h.suffix
    refine ⟨older ++ dropped.flatten, ?_⟩
    rw [List.append_assoc, ← List.flatten_append, hdropped, hflatten, ← List.append_assoc, holder]
  · simp

end MakeBelieve.Tracer
