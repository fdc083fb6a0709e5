import Mathlib.Algebra.GroupWithZero.Nat
import MakeBelieve.Tracer.Slices

namespace MakeBelieve.Tracer

open Library

/-- The bytes of all the slices. -/
def total (slices : List ByteString) : Nat := (slices.map List.length).sum

/-- The slices `evict` drops, oldest first. -/
def evicted (capacity : Nat) : List ByteString → Nat → List ByteString
  | front :: next :: slices, size =>
    if capacity < size then front :: evicted capacity (next :: slices) (size - front.length) else []
  | _, _ => []

namespace State

/-- The slices that recording an event drops. -/
def dropped (s : State) (event : ByteString) : List ByteString :=
  evicted s.capacity (pack s.sliceSize s.slices event) (s.size + event.length)

/-- Every slice dropped while events are recorded, in order. -/
def drops (s : State) : List ByteString → List ByteString
  | [] => []
  | event :: events => s.dropped event ++ drops (s.record event) events

end State

theorem total_append (slices slices' : List ByteString) :
    total (slices ++ slices') = total slices + total slices' := by
  simp [total]

theorem total_cons (slice : ByteString) (slices : List ByteString) :
    total (slice :: slices) = slice.length + total slices := by
  simp [total]

section Packing

variable (sliceSize : Nat) (slices : List ByteString) (event : ByteString)

theorem pack_ne_nil : pack sliceSize slices event ≠ [] := by
  unfold pack
  split
  · split <;> simp
  · simp

theorem total_pack : total (pack sliceSize slices event) = total slices + event.length := by
  rcases List.eq_nil_or_concat slices with rfl | ⟨front, back, rfl⟩
  · simp [pack, total]
  · by_cases hfull : sliceSize < back.length + event.length
    · simp [pack, hfull, total, Nat.add_assoc]
    · simp [pack, hfull, total, Nat.add_assoc]

/-- A slice of those packed is an old one, holds the event alone or has room for it. -/
theorem mem_pack {slice : ByteString} (h : slice ∈ pack sliceSize slices event) :
    slice ∈ slices ∨ slice.length = event.length ∨ slice.length ≤ sliceSize := by
  rcases List.eq_nil_or_concat slices with rfl | ⟨front, back, rfl⟩
  · have heq : slice = event := by simpa [pack] using h
    exact .inr (.inl (congrArg List.length heq))
  · by_cases hfull : sliceSize < back.length + event.length
    · have hmem : slice ∈ front ++ [back] ∨ slice = event := by simpa [pack, hfull, or_assoc] using h
      rcases hmem with hmem | heq
      · exact .inl (by simpa using hmem)
      · exact .inr (.inl (congrArg List.length heq))
    · have hmem : slice ∈ front ∨ slice = back ++ event := by simpa [pack, hfull] using h
      rcases hmem with hmem | rfl
      · exact .inl (by simp [hmem])
      · right
        right
        rw [List.length_append]
        omega

end Packing

/-- What dropping slices leaves, of slices that come to `size`. -/
structure Evicted (capacity : Nat) (slices : List ByteString) (size : Nat) : Prop where
  split : evicted capacity slices size ++ (evict capacity slices size).1 = slices
  counted : (evict capacity slices size).2 = total (evict capacity slices size).1
  within : (evict capacity slices size).2 ≤ capacity ∨ (evict capacity slices size).1.length ≤ 1
  kept : ∀ last, (evicted capacity slices size).getLast? = some last →
    capacity < (evict capacity slices size).2 + last.length

theorem evict_spec (capacity : Nat) (slices : List ByteString) (size : Nat)
    (hsize : size = total slices) : Evicted capacity slices size := by
  fun_induction evict capacity slices size with
  | case1 front next slices size hover ih =>
    have hrest : size - front.length = total (next :: slices) := by
      rw [hsize, total_cons]
      omega
    obtain ⟨hsplit, htotal, hwithin, hkept⟩ := ih hrest
    have hstep : evict capacity (front :: next :: slices) size =
        evict capacity (next :: slices) (size - front.length) := by
      rw [evict, if_pos hover]
    have hdrop : evicted capacity (front :: next :: slices) size =
        front :: evicted capacity (next :: slices) (size - front.length) := by
      rw [evicted, if_pos hover]
    constructor
    · rw [hstep, hdrop, List.cons_append, hsplit]
    · rw [hstep]
      exact htotal
    · rw [hstep]
      exact hwithin
    · intro last hlast
      rw [hstep]
      rw [hdrop] at hlast
      rcases List.eq_nil_or_concat (evicted capacity (next :: slices) (size - front.length)) with
        hnone | ⟨others, final, hsome⟩
      · rw [hnone] at hlast hsplit
        rw [List.getLast?_singleton] at hlast
        obtain rfl := Option.some.inj hlast
        have hfront : front.length ≤ size := by
          rw [hsize, total_cons]
          omega
        rw [htotal, ← List.nil_append (evict _ _ _).1, hsplit, ← hrest]
        omega
      · apply hkept
        rw [hsome, List.concat_eq_append] at hlast ⊢
        rw [← List.cons_append, List.getLast?_concat] at hlast
        rw [List.getLast?_concat]
        exact hlast
  | case2 front next slices size hover =>
    have hstep : evict capacity (front :: next :: slices) size = (front :: next :: slices, size) := by
      rw [evict, if_neg hover]
    have hdrop : evicted capacity (front :: next :: slices) size = [] := by
      rw [evicted, if_neg hover]
    constructor
    · rw [hstep, hdrop, List.nil_append]
    · rw [hstep]
      exact hsize
    · rw [hstep]
      exact .inl (Nat.le_of_not_lt hover)
    · intro last hlast
      rw [hdrop] at hlast
      cases hlast
  | case3 slices size hfew =>
    rcases slices with _ | ⟨front, _ | ⟨next, slices⟩⟩
    · exact ⟨rfl, hsize, .inr (Nat.zero_le 1), nofun⟩
    · exact ⟨rfl, hsize, .inr (Nat.le_refl 1), nofun⟩
    · exact absurd rfl (hfew front next slices)

/-- What is held after `events`, while `drops` have been dropped. -/
structure Packed (s : State) (events drops : List ByteString) : Prop where
  size : s.size = total s.slices
  within : events ≠ [] → s.size ≤ s.capacity ∨ ∃ slice, s.slices = [slice]
  bound : ∀ slice ∈ s.slices, slice.length ≤ s.sliceSize ∨
    ∃ event ∈ events, slice.length ≤ event.length
  kept : ∀ last, drops.getLast? = some last → s.capacity < s.size + last.length

/-- An event is recorded: the slices are packed, and the oldest of them dropped. -/
theorem record_evicted {s : State} (hsize : s.size = total s.slices) (event : ByteString) :
    Evicted s.capacity (pack s.sliceSize s.slices event) (s.size + event.length) := by
  apply evict_spec
  rw [total_pack, hsize]

/-- Nothing is subtracted that has not been added. -/
theorem record_size {s : State} (hsize : s.size = total s.slices) (event : ByteString) :
    total (s.dropped event) + (s.record event).size = s.size + event.length := by
  obtain ⟨hsplit, htotal, -, -⟩ := record_evicted hsize event
  have hparts := congrArg total hsplit
  rw [total_append, ← htotal, total_pack, ← hsize] at hparts
  exact hparts

theorem Packed.record {s : State} {events drops : List ByteString} (h : Packed s events drops)
    (event : ByteString) : Packed (s.record event) (events ++ [event]) (drops ++ s.dropped event) := by
  obtain ⟨hsplit, htotal, hwithin, hkept⟩ := record_evicted h.size event
  have hsum := record_size h.size event
  have hslices : (s.record event).slices <:+ pack s.sliceSize s.slices event := ⟨_, hsplit⟩
  constructor
  · exact htotal
  · intro _
    rcases hwithin with hwithin | hwithin
    · exact .inl hwithin
    · right
      apply List.length_eq_one_iff.mp
      apply Nat.le_antisymm hwithin
      apply List.length_pos_iff.mpr
      exact (evict_suffix _ _ _).2 (pack_ne_nil _ _ _)
  · intro slice hmem
    rcases mem_pack _ _ _ (hslices.subset hmem) with hold | hevent | hroom
    · refine (h.bound slice hold).imp id ?_
      intro ⟨other, hother, hle⟩
      exact ⟨other, List.mem_append_left _ hother, hle⟩
    · exact .inr ⟨event, by simp, Nat.le_of_eq hevent⟩
    · exact .inl hroom
  · intro last hlast
    rcases List.eq_nil_or_concat (s.dropped event) with hnone | ⟨others, final, hsome⟩
    · rw [hnone, List.append_nil] at hlast
      rw [hnone] at hsum
      have hbefore := h.kept last hlast
      have hcapacity : (s.record event).capacity = s.capacity := rfl
      simp only [total, List.map_nil, List.sum_nil] at hsum
      omega
    · apply hkept
      rw [hsome, List.concat_eq_append, ← List.append_assoc, List.getLast?_concat] at hlast
      have hdropped : evicted s.capacity (pack s.sliceSize s.slices event) (s.size + event.length) =
          others ++ [final] := hsome.trans List.concat_eq_append
      rw [hdropped, List.getLast?_concat]
      exact hlast

theorem Packed.run {s : State} {before drops : List ByteString} (h : Packed s before drops)
    (events : List ByteString) :
    Packed (events.foldl State.record s) (before ++ events) (drops ++ s.drops events) := by
  induction events generalizing s before drops with
  | nil =>
    rw [State.drops, List.append_nil, List.append_nil]
    exact h
  | cons event events ih =>
    have hnext := ih (h.record event)
    rw [List.append_assoc, List.append_assoc] at hnext
    exact hnext

theorem make_packed (self : UInt32) (capacity : Nat) (origin : Int) :
    Packed (State.make self capacity origin) [] [] ∧
      (State.make self capacity origin).capacity = capacity ∧
      (State.make self capacity origin).sliceSize = max (capacity / 16) 1 := by
  have hmake : State.make self capacity origin =
      { origin, capacity, sliceSize := max (capacity / 16) 1
        processNames := [(self, processName self (ascii "makebelieve"))] } := by
    rfl
  rw [hmake]
  refine ⟨⟨rfl, ?_, ?_, ?_⟩, rfl, rfl⟩ <;> simp

theorem foldl_record_settings (s : State) (events : List ByteString) :
    (events.foldl State.record s).capacity = s.capacity ∧
      (events.foldl State.record s).sliceSize = s.sliceSize := by
  induction events generalizing s with
  | nil => exact ⟨rfl, rfl⟩
  | cons event events ih => exact ih (s.record event)

/-- However many events of whatever sizes a tracer records, what it holds is counted, exactly; it
stays within capacity but for a single slice; a slice is no larger than it may be or than an event
is; and less is missing of its capacity than the last slice dropped. -/
theorem record_bounded (self : UInt32) (capacity : Nat) (origin : Int) (events : List ByteString) :
    let s := events.foldl State.record (State.make self capacity origin)
    s.size = total s.slices ∧
    (∀ event, total (s.dropped event) + (s.record event).size = s.size + event.length) ∧
    (events ≠ [] → s.size ≤ capacity ∨ ∃ slice, s.slices = [slice]) ∧
    (∀ slice ∈ s.slices, slice.length ≤ max (capacity / 16) 1 ∨
      ∃ event ∈ events, slice.length ≤ event.length) ∧
    ∀ last, ((State.make self capacity origin).drops events).getLast? = some last →
      capacity < s.size + last.length := by
  obtain ⟨hpacked, hcapacity, hslice⟩ := make_packed self capacity origin
  obtain ⟨hcapacity', hslice'⟩ := foldl_record_settings (State.make self capacity origin) events
  rw [hcapacity] at hcapacity'
  rw [hslice] at hslice'
  obtain ⟨hsize, hwithin, hbound, hkept⟩ := hpacked.run events
  rw [hcapacity'] at hwithin hkept
  rw [hslice'] at hbound
  exact ⟨hsize, record_size hsize, hwithin, hbound, hkept⟩

/-- Of three events of a byte each, the first makes way for the last. -/
theorem record_bounded_three :
    ((State.make 0 2 0).drops [[1], [2], [3]]).getLast? = some [1] ∧
      2 < ([[1], [2], [3]].foldl State.record (State.make 0 2 0)).size + 1 := by
  obtain ⟨-, -, -, -, hkept⟩ := record_bounded 0 2 0 [[1], [2], [3]]
  have hlast : ((State.make 0 2 0).drops [[1], [2], [3]]).getLast? = some [1] := by rfl
  exact ⟨hlast, hkept [1] hlast⟩

end MakeBelieve.Tracer
