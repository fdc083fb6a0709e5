import Mathlib.Algebra.GroupWithZero.Nat
import MakeBelieve.Library.Paging
import MakeBelieve.Path

namespace MakeBelieve

open Library (page offsetAfter)

/-- The length of a name in UTF-8. -/
def Name.byteLength (name : Name) : Nat := (name.map Char.utf8Size).sum

/-- What `fuse_add_direntry` needs for a name: its record, padded to eight bytes. It writes nothing
where there is less room than that. -/
def fuseAddDirentry (name : Name) : Nat := (24 + name.byteLength + 7) / 8 * 8

/-- The loop of both `readdir`s over what it lists from here on, each entry with the offset of the
next, where `used` of the reply's `size` bytes are taken. -/
def fillReply (size : Nat) : List (Name × Nat) → Nat → List (Name × Nat)
  | [], _ => []
  | entry :: entries, used =>
    if fuseAddDirentry entry.1 > size - used then []
    else entry :: fillReply size entries (used + fuseAddDirentry entry.1)

/-- Entries that any reply of this size has room for, were it empty. -/
def Fits (size : Nat) (entries : List (Name × Nat)) : Prop :=
  ∀ entry ∈ entries, fuseAddDirentry entry.1 ≤ size

instance (size : Nat) (entries : List (Name × Nat)) : Decidable (Fits size entries) :=
  List.decidableBAll _ _

theorem fillReply_eq_page (size used : Nat) (entries : List (Name × Nat)) :
    fillReply size entries used =
      page (fun entry => fuseAddDirentry entry.1) (size - used) entries := by
  induction entries generalizing used with
  | nil => rfl
  | cons entry entries ih =>
    rw [fillReply, page]
    by_cases hfits : fuseAddDirentry entry.1 ≤ size - used
    · rw [if_neg (Nat.not_lt.mpr hfits), if_pos hfits, ih, Nat.sub_sub]
    · rw [if_pos (Nat.lt_of_not_le hfits), if_neg hfits]

theorem fillReply_prefix (size : Nat) (entries : List (Name × Nat)) :
    fillReply size entries 0 <+: entries := by
  rw [fillReply_eq_page]
  exact Library.page_prefix _ _ entries

theorem fillReply_eq_nil {size : Nat} {entries : List (Name × Nat)} (hfits : Fits size entries)
    (h : fillReply size entries 0 = []) : entries = [] := by
  rw [fillReply_eq_page] at h
  exact Library.page_eq_nil hfits h

end MakeBelieve
