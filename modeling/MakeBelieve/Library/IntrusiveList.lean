import Mathlib.Data.List.Basic
import Mathlib.Data.List.Nodup
import Mathlib.Logic.Function.Basic

namespace MakeBelieve.Library.IntrusiveList

variable {α : Type*}

/-- Every node's pointer to the node after it, wherever it is linked. -/
abbrev Links (α : Type*) := α → Option α

/-- One singly linked list: its first and last nodes. -/
structure Ends (α : Type*) where
  first : Option α := none
  last : Option α := none
  deriving DecidableEq

section

variable [DecidableEq α]

def push (next : Links α) (ends : Ends α) (a : α) : Links α × Ends α :=
  let next := Function.update next a none
  match ends.last with
  | none => (next, { first := some a, last := some a })
  | some b => (Function.update next b (some a), { ends with last := some a })

/-- The first node, which its list no longer leads to; its own pointer is left as it was. -/
def pop (next : Links α) (ends : Ends α) : Option α × Ends α :=
  match ends.first with
  | none => (none, ends)
  | some a =>
    (some a, { first := next a, last := if next a = none then none else ends.last })

/-- Links past `node`, found after `previous`. -/
def unlink (next : Links α) (ends : Ends α) (previous : Option α) (node : α) : Links α × Ends α :=
  let last := if ends.last = some node then previous else ends.last
  match previous with
  | none => (next, { first := next node, last })
  | some b => (Function.update next b (next node), { ends with last })

/-- The loop of `remove` from `it` on: `none` if it comes to the end of the list. -/
def removeFrom (next : Links α) (ends : Ends α) (a : α) :
    Nat → Option α → Option α → Option (Links α × Ends α)
  | _, _, none => none
  | 0, _, some _ => none
  | n + 1, previous, some it =>
    if it = a then some (unlink next ends previous it)
    else removeFrom next ends a n (some it) (next it)

/-- Takes `a` out of the list if it is in it, given fuel for each node of the list. -/
def remove (n : Nat) (next : Links α) (ends : Ends α) (a : α) : Option (Links α × Ends α) :=
  removeFrom next ends a n none ends.first

end

/-- Following the pointers from `p` leads through `l` to `q`. -/
def Segment (next : Links α) : Option α → List α → Option α → Prop
  | p, [], q => p = q
  | p, a :: l, q => p = some a ∧ Segment next (next a) l q

/-- The nodes the pointers lead through from `p` on, given fuel for each. -/
def nodes (next : Links α) : Nat → Option α → List α
  | _, none => []
  | 0, some _ => []
  | n + 1, some a => a :: nodes next n (next a)

/-- The linked list holds the nodes of `l`, in its order. -/
structure Holds (next : Links α) (ends : Ends α) (l : List α) : Prop where
  nodup : l.Nodup
  segment : Segment next ends.first l none
  last : ends.last = l.getLast?

variable {next : Links α} {ends : Ends α} {l : List α} {a : α}

theorem Segment.congr {next' : Links α} (h : ∀ a ∈ l, next' a = next a) {p q : Option α} :
    Segment next' p l q ↔ Segment next p l q := by
  induction l generalizing p with
  | nil => rfl
  | cons a l ih =>
    simp only [Segment]
    rw [h a (by simp), ih fun b hb => h b (List.mem_cons_of_mem _ hb)]

/-- A list is what its pointers lead through. -/
theorem Segment.nodes_eq {p : Option α} (h : Segment next p l none) {n : Nat} (hn : l.length ≤ n) :
    nodes next n p = l := by
  induction l generalizing p n with
  | nil =>
    obtain rfl : p = none := h
    cases n <;> rfl
  | cons a l ih =>
    obtain ⟨rfl, hseg⟩ := h
    cases n with
    | zero => simp at hn
    | succ n =>
      have htail : nodes next n (next a) = l := ih hseg (Nat.le_of_succ_le_succ hn)
      rw [nodes, htail]

theorem segment_append {l l' : List α} {p q : Option α} :
    Segment next p (l ++ l') q ↔ ∃ r, Segment next p l r ∧ Segment next r l' q := by
  induction l generalizing p with
  | nil => simp [Segment]
  | cons a l ih =>
    simp only [List.cons_append, Segment, ih]
    constructor
    · rintro ⟨hp, r, hl, hl'⟩
      exact ⟨r, ⟨hp, hl⟩, hl'⟩
    · rintro ⟨r, ⟨hp, hl⟩, hl'⟩
      exact ⟨hp, r, hl, hl'⟩

theorem segment_snoc {p q : Option α} :
    Segment next p (l ++ [a]) q ↔ Segment next p l (some a) ∧ next a = q := by
  rw [segment_append]
  simp only [Segment]
  constructor
  · rintro ⟨r, hl, rfl, hq⟩
    exact ⟨hl, hq⟩
  · rintro ⟨hl, hq⟩
    exact ⟨some a, hl, rfl, hq⟩

theorem holds_nil : Holds next { first := none, last := none } [] :=
  ⟨List.nodup_nil, rfl, rfl⟩

theorem Holds.first_eq (h : Holds next ends l) : ends.first = l.head? := by
  cases l with
  | nil => exact h.segment
  | cons a l => exact h.segment.1

/-- Pointers of other nodes are nothing to a list. -/
theorem Holds.congr (h : Holds next ends l) {next' : Links α}
    (hsame : ∀ a ∈ l, next' a = next a) : Holds next' ends l :=
  ⟨h.nodup, (Segment.congr hsame).mpr h.segment, h.last⟩

theorem pop_nil (h : Holds next ends []) : pop next ends = (none, ends) := by
  have hfirst : ends.first = none := h.segment
  simp [pop, hfirst]

theorem Holds.pop (h : Holds next ends (a :: l)) :
    (pop next ends).1 = some a ∧ Holds next (pop next ends).2 l := by
  obtain ⟨hfirst, hseg⟩ := h.segment
  obtain ⟨_, hnd⟩ := List.nodup_cons.mp h.nodup
  unfold IntrusiveList.pop
  simp only [hfirst, true_and]
  refine ⟨hnd, hseg, ?_⟩
  cases l with
  | nil =>
    have hnone : next a = none := hseg
    simp [hnone]
  | cons b l =>
    have hsome : next a = some b := hseg.1
    simp [hsome, h.last]

section

variable [DecidableEq α]

theorem Holds.push (h : Holds next ends l) (ha : a ∉ l) :
    Holds (push next ends a).1 (push next ends a).2 (l ++ [a]) := by
  have hnd : (l ++ [a]).Nodup := by
    refine List.nodup_append.mpr ⟨h.nodup, List.nodup_singleton _, fun x hx y hy hxy => ?_⟩
    rw [List.mem_singleton] at hy
    exact ha (hy ▸ hxy ▸ hx)
  unfold IntrusiveList.push
  obtain rfl | ⟨d, x, rfl⟩ := List.eq_nil_or_concat' l
  · rw [h.last]
    exact ⟨hnd, ⟨rfl, by simp [Segment]⟩, rfl⟩
  · have hlast : ends.last = some x := by simpa using h.last
    simp only [hlast]
    obtain ⟨hseg, _⟩ := segment_snoc.mp h.segment
    have hax : a ≠ x := fun hax => ha (by simp [hax])
    have hxd : x ∉ d := fun hmem => by
      have := (List.nodup_append.mp h.nodup).2.2 x hmem x (by simp)
      exact this rfl
    have had : a ∉ d := fun hmem => ha (List.mem_append_left _ hmem)
    refine ⟨hnd, segment_snoc.mpr ⟨segment_snoc.mpr ⟨?_, by simp⟩, by simp [hax]⟩, by simp⟩
    refine (Segment.congr fun y hy => ?_).mpr hseg
    have hyx : y ≠ x := fun heq => hxd (heq ▸ hy)
    have hya : y ≠ a := fun heq => had (heq ▸ hy)
    simp [hyx, hya]

/-- Linking a node into one list changes no pointer of another. -/
theorem push_links_other (h : Holds next ends l) {b : α} (hba : b ≠ a) (hbl : b ∉ l) :
    (push next ends a).1 b = next b := by
  unfold IntrusiveList.push
  cases hlast : ends.last with
  | none => simp [hba]
  | some x =>
    have hx : x ∈ l := List.mem_of_getLast? (h.last ▸ hlast)
    have hbx : b ≠ x := fun heq => hbl (heq ▸ hx)
    simp [hba, hbx]

theorem Holds.unlink {d post : List α} (h : Holds next ends (d ++ a :: post)) :
    Holds (unlink next ends d.getLast? a).1 (unlink next ends d.getLast? a).2 (d ++ post) := by
  obtain ⟨hnd, hnda, hdisj⟩ := List.nodup_append.mp h.nodup
  obtain ⟨hapost, hndpost⟩ := List.nodup_cons.mp hnda
  have hnd' : (d ++ post).Nodup :=
    List.nodup_append.mpr ⟨hnd, hndpost, fun x hx y hy => hdisj x hx y (List.mem_cons_of_mem _ hy)⟩
  obtain ⟨r, hsegd, hr, hsegpost⟩ := segment_append.mp h.segment
  subst hr
  have hlast : (if ends.last = some a then d.getLast? else ends.last) = (d ++ post).getLast? := by
    rw [h.last]
    obtain rfl | ⟨p, x, rfl⟩ := List.eq_nil_or_concat' post
    · simp
    · have hxa : x ≠ a := fun heq => hapost (by simp [heq])
      have hall : (d ++ a :: (p ++ [x])).getLast? = some x := by
        rw [← List.cons_append, ← List.append_assoc, List.getLast?_concat]
      have hrest : (d ++ (p ++ [x])).getLast? = some x := by
        rw [← List.append_assoc, List.getLast?_concat]
      rw [hall, hrest, if_neg (by simpa using hxa)]
  unfold IntrusiveList.unlink
  obtain rfl | ⟨p, x, rfl⟩ := List.eq_nil_or_concat' d
  · exact ⟨hnd', hsegpost, hlast⟩
  · simp only [List.getLast?_concat] at hlast ⊢
    obtain ⟨hsegp, _⟩ := segment_snoc.mp hsegd
    have hxp : x ∉ p := fun hmem => (List.nodup_append.mp hnd).2.2 x hmem x (by simp) rfl
    have hxpost : x ∉ post := fun hmem =>
      hdisj x (by simp) x (List.mem_cons_of_mem _ hmem) rfl
    refine ⟨hnd', segment_append.mpr ⟨next a, segment_snoc.mpr ⟨?_, by simp⟩, ?_⟩, hlast⟩
    · refine (Segment.congr fun y hy => ?_).mpr hsegp
      have hyx : y ≠ x := fun heq => hxp (heq ▸ hy)
      simp [hyx]
    · refine (Segment.congr fun y hy => ?_).mpr hsegpost
      have hyx : y ≠ x := fun heq => hxpost (heq ▸ hy)
      simp [hyx]

theorem removeFrom_spec {d rest : List α} (h : Holds next ends (d ++ rest)) {n : Nat}
    (hn : rest.length ≤ n) (had : a ∉ d) {it : Option α} (hit : Segment next it rest none) :
    if a ∈ rest then ∃ next' ends', removeFrom next ends a n d.getLast? it = some (next', ends') ∧
        Holds next' ends' ((d ++ rest).erase a) ∧ ∀ b, b ∉ d ++ rest → next' b = next b
      else removeFrom next ends a n d.getLast? it = none := by
  induction rest generalizing d n it with
  | nil =>
    have hnone : it = none := hit
    cases n <;> simp [hnone, removeFrom]
  | cons x rest ih =>
    obtain ⟨rfl, hrest⟩ := hit
    obtain ⟨n, rfl⟩ : ∃ m, n = m + 1 := ⟨n - 1, by simp at hn; omega⟩
    unfold removeFrom
    by_cases hxa : x = a
    · subst hxa
      rw [if_pos (by simp), if_pos rfl]
      refine ⟨_, _, rfl, ?_, fun b hb => ?_⟩
      · rw [List.erase_append_right _ had, List.erase_cons_head]
        exact h.unlink
      · obtain rfl | ⟨p, y, rfl⟩ := List.eq_nil_or_concat' d
        · rfl
        · rw [List.getLast?_concat]
          have hby : b ≠ y := fun heq => hb (by simp [heq])
          exact Function.update_of_ne hby ..
    · rw [if_neg hxa]
      have hsplit : d ++ x :: rest = (d ++ [x]) ++ rest := by simp
      have had' : a ∉ d ++ [x] := by simp [had, Ne.symm hxa]
      have hlen : rest.length ≤ n := by simpa using hn
      have htail := ih (d := d ++ [x]) (hsplit ▸ h) hlen had' hrest
      rw [List.getLast?_concat, ← hsplit] at htail
      have hmem : a ∈ x :: rest ↔ a ∈ rest := by simp [Ne.symm hxa]
      simp only [hmem]
      exact htail

/-- Removing takes a node out of the list it is in, and otherwise finds it is not there. -/
theorem Holds.remove (h : Holds next ends l) {n : Nat} (hn : l.length ≤ n) (a : α) :
    if a ∈ l then ∃ next' ends', remove n next ends a = some (next', ends') ∧
        Holds next' ends' (l.erase a) ∧ ∀ b, b ∉ l → next' b = next b
      else remove n next ends a = none :=
  removeFrom_spec (d := []) h hn (by simp) h.segment

end

end MakeBelieve.Library.IntrusiveList
