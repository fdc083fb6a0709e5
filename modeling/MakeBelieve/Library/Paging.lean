import Mathlib.Data.List.Infix

namespace MakeBelieve.Library

variable {α : Type*}

/-- The longest beginning of a list that fits in a room, of which each item takes its cost. -/
def page (cost : α → Nat) : Nat → List α → List α
  | _, [] => []
  | room, a :: as => if cost a ≤ room then a :: page cost (room - cost a) as else []

theorem page_prefix (cost : α → Nat) (room : Nat) (as : List α) : page cost room as <+: as := by
  induction as generalizing room with
  | nil => exact List.prefix_rfl
  | cons a as ih =>
    rw [page]
    split
    · exact (List.prefix_cons_inj a).mpr (ih _)
    · exact List.nil_prefix

/-- A page is empty only where nothing is left, or the next item is too large for it. -/
theorem page_eq_nil {cost : α → Nat} {room : Nat} {as : List α} (hfits : ∀ a ∈ as, cost a ≤ room)
    (h : page cost room as = []) : as = [] := by
  cases as with
  | nil => rfl
  | cons a as =>
    rw [page, if_pos (hfits a List.mem_cons_self)] at h
    exact absurd h (List.cons_ne_nil _ _)

/-- The offset after what has been read: the one given with the last of it. -/
def offsetAfter (read : List (α × Nat)) : Nat := (read.getLast?.map Prod.snd).getD 0

@[simp] theorem offsetAfter_nil : offsetAfter ([] : List (α × Nat)) = 0 := rfl

@[simp] theorem offsetAfter_concat (read : List (α × Nat)) (a : α × Nat) :
    offsetAfter (read ++ [a]) = a.2 := by
  simp [offsetAfter]

/-- What a reader of a listing has, and whether it has been told that this is all. -/
structure Reading (α : Type*) where
  read : List (α × Nat) := []
  done : Bool := false

namespace Reading

/-- The reader is refused, or told that this is all, or keeps at least one entry of a page. -/
def got (x : Reading α) (reply : Option (List (α × Nat))) (keep : Nat) : Reading α :=
  match reply with
  | none => x
  | some [] => { x with done := true }
  | some page => { x with read := x.read ++ page.take (keep + 1) }

/-- What a reader has is a beginning of the listing, and all of it once it has been told so. -/
structure Right (entries : List (α × Nat)) (x : Reading α) : Prop where
  so_far : x.read <+: entries
  all : x.done = true → x.read = entries

variable {entries : List (α × Nat)} {x : Reading α} {reply : Option (List (α × Nat))}

theorem Right.start : Right entries {} := by
  constructor
  · exact List.nil_prefix
  · intro h
    simp at h

/-- A reply begins with what follows, and is empty only where nothing does. -/
structure Follows (entries : List (α × Nat)) (x : Reading α) (reply : Option (List (α × Nat))) :
    Prop where
  follows : ∀ rest page, x.read ++ rest = entries → reply = some page → page <+: rest
  ends : ∀ rest, x.read ++ rest = entries → reply = some [] → rest = []

theorem Right.got (h : Right entries x) (hreply : Follows entries x reply) (keep : Nat) :
    Right entries (x.got reply keep) := by
  obtain ⟨rest, hrest⟩ := h.so_far
  unfold Reading.got
  split
  · exact h
  · have hnil := hreply.ends rest hrest rfl
    constructor
    · exact h.so_far
    · intro _
      rw [← hrest, hnil, List.append_nil]
  · next page _ =>
    have hpage := hreply.follows rest page hrest rfl
    have hread : x.read ++ page.take (keep + 1) <+: entries := by
      rw [← hrest]
      exact (List.prefix_append_right_inj _).mpr ((List.take_prefix _ _).trans hpage)
    constructor
    · exact hread
    · intro hdone
      have hall := h.all hdone
      apply hread.eq_of_length_le
      rw [← hall, List.length_append]
      omega

end Reading

end MakeBelieve.Library
