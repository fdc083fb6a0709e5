import Mathlib.Data.List.Induction
import Mathlib.Logic.Function.Basic

namespace MakeBelieve.Library

abbrev Inode := Nat

/-- What a name in a directory is: a file, and which version of it, or a directory. -/
inductive Entry (φ : Type*)
  | file (version : φ)
  | directory (inode : Inode)
  deriving DecidableEq

/-- Every directory with what its names are. Those not found from the root lie elsewhere. -/
structure Disk (ν φ : Type*) where
  entries : Inode → ν → Option (Entry φ) := fun _ _ => none
  live : Inode → Bool := fun i => i = 0
  nextInode : Inode := 1

/-- A call that changes what a name is. -/
inductive Change (ν φ : Type*)
  | write (directory : Inode) (name : ν) (version : φ)
  | makeDirectory (directory : Inode) (name : ν)
  | remove (directory : Inode) (name : ν)
  | rename (directory : Inode) (name : ν) (directory' : Inode) (name' : ν)

namespace Disk

variable {ν φ : Type*}
variable {d : Disk ν φ} {c : Change ν φ} {i j k : Inode} {n m : ν} {path : List ν}

def root : Inode := 0

/-- What a path is, from a directory on. -/
def find (d : Disk ν φ) : Inode → List ν → Option (Entry φ)
  | i, [] => some (.directory i)
  | i, n :: path =>
    match d.entries i n with
    | some (.directory j) => find d j path
    | some (.file version) => if path.isEmpty then some (.file version) else none
    | none => none

def set [DecidableEq ν] (d : Disk ν φ) (i : Inode) (n : ν) (entry : Option (Entry φ)) : Disk ν φ :=
  { d with entries := Function.update d.entries i (Function.update (d.entries i) n entry) }

/-- The directory that a change removes for good, if it does. -/
def removed (d : Disk ν φ) : Change ν φ → Option Inode
  | .remove i n | .rename _ _ i n =>
    match d.entries i n with
    | some (.directory k) => some k
    | _ => none
  | _ => none

def withoutLive (d : Disk ν φ) : Option Inode → Disk ν φ
  | some k => { d with live := Function.update d.live k false }
  | none => d

def apply [DecidableEq ν] (d : Disk ν φ) (c : Change ν φ) : Disk ν φ :=
  withoutLive (match c with
    | .write i n version => d.set i n (some (.file version))
    | .makeDirectory i n =>
      { d.set i n (some (.directory d.nextInode)) with
        live := Function.update d.live d.nextInode true
        nextInode := d.nextInode + 1 }
    | .remove i n => d.set i n none
    | .rename i n j m => (d.set i n none).set j m (d.entries i n)) (d.removed c)

def Empty (d : Disk ν φ) (i : Inode) : Prop := ∀ n, d.entries i n = none

/-- Whether one name's entry may take the place of another's. -/
def Replaces (d : Disk ν φ) (entry : Entry φ) : Option (Entry φ) → Prop
  | none => True
  | some (.file _) => ∃ version, entry = .file version
  | some (.directory k) => (∃ j, entry = .directory j) ∧ d.Empty k

/-- Whether a change succeeds. -/
def Allows (d : Disk ν φ) : Change ν φ → Prop
  | .write i n _ => d.live i = true ∧ ∀ k, d.entries i n ≠ some (.directory k)
  | .makeDirectory i n => d.live i = true ∧ d.entries i n = none
  | .remove i n => d.entries i n ≠ none ∧ ∀ k, d.entries i n = some (.directory k) → d.Empty k
  | .rename i n j m => d.live j = true ∧ (i, n) ≠ (j, m) ∧
      ∃ entry, d.entries i n = some entry ∧ d.Replaces entry (d.entries j m) ∧
        -- A directory does not move beneath itself.
        ∀ k, entry = .directory k → ∀ path, d.find k path ≠ some (.directory j)

/-- Whether a change moves a directory, with all that is beneath it. -/
def Moves (d : Disk ν φ) : Change ν φ → Prop
  | .rename i n _ _ => ∃ k, d.entries i n = some (.directory k)
  | _ => False

/-- The names that a change changes. -/
def touched : Change ν φ → List (Inode × ν)
  | .write i n _ | .makeDirectory i n | .remove i n => [(i, n)]
  | .rename i n j m => [(i, n), (j, m)]

/-- Each directory is in one place at most, the root in none, and those yet to be made are empty. -/
structure Rooted (d : Disk ν φ) : Prop where
  apart : ∀ i n j m k, d.entries i n = some (.directory k) → d.entries j m = some (.directory k) →
    i = j ∧ n = m
  unplaced : ∀ i n, d.entries i n ≠ some (.directory root)
  linked : ∀ i n k, d.entries i n = some (.directory k) → k < d.nextInode
  live : ∀ i, d.live i = true → i < d.nextInode
  made : root < d.nextInode
  fresh : ∀ i, d.nextInode ≤ i → d.Empty i

theorem find_cons (d : Disk ν φ) (i : Inode) (n : ν) (rest : List ν) :
    d.find i (n :: rest) = match d.entries i n with
      | some (.directory j) => d.find j rest
      | some (.file version) => if rest.isEmpty then some (.file version) else none
      | none => none := rfl

theorem find_append (d : Disk ν φ) (i : Inode) (path rest : List ν) :
    d.find i (path ++ rest) = match d.find i path with
      | some (.directory j) => d.find j rest
      | some (.file version) => if rest.isEmpty then some (.file version) else none
      | none => none := by
  induction path generalizing i with
  | nil => rfl
  | cons n path ih =>
    rw [List.cons_append, find_cons, find_cons]
    cases d.entries i n with
    | none => rfl
    | some entry =>
      cases entry with
      | directory j => exact ih j
      | file version =>
        dsimp only
        cases path with
        | nil => cases rest <;> rfl
        | cons => rfl

theorem find_singleton (d : Disk ν φ) (i : Inode) (n : ν) : d.find i [n] = d.entries i n := by
  unfold find
  cases d.entries i n with
  | none => rfl
  | some entry => cases entry <;> rfl

/-- What a path leads to by way of a directory it passes. -/
theorem find_through {i j : Inode} {path rest : List ν} (h : d.find i path = some (.directory j)) :
    d.find i (path ++ rest) = d.find j rest := by
  rw [find_append, h]

/-- No two paths lead from the root to one directory. -/
theorem Rooted.find_inj (h : d.Rooted) {p q : List ν} (hp : d.find root p = some (.directory i))
    (hq : d.find root q = some (.directory i)) : p = q := by
  have hnot : ∀ {q : List ν} {m : ν}, d.find root (q ++ [m]) ≠ some (.directory root) := by
    intro q m hq
    rw [find_append] at hq
    split at hq
    · next j hj =>
      rw [find_singleton] at hq
      exact h.unplaced _ _ hq
    · simp at hq
    · simp at hq
  induction p using List.reverseRecOn generalizing q i with
  | nil =>
    obtain rfl := Entry.directory.inj (Option.some.inj hp)
    cases q using List.reverseRecOn with
    | nil => rfl
    | append_singleton q m => exact absurd hq hnot
  | append_singleton p n ih =>
    cases q using List.reverseRecOn with
    | nil =>
      obtain rfl := Entry.directory.inj (Option.some.inj hq)
      exact absurd hp hnot
    | append_singleton q m =>
      rw [find_append] at hp hq
      split at hp
      · next j hj =>
        split at hq
        · next j' hj' =>
          rw [find_singleton] at hp hq
          obtain ⟨rfl, rfl⟩ := h.apart _ _ _ _ _ hp hq
          rw [ih hj hj']
        · simp at hq
        · simp at hq
      · simp at hp
      · simp at hp

/-- Beneath what is no directory, or an empty one, there is nothing. -/
theorem find_beneath {rest : List ν} (hrest : rest ≠ [])
    (h : ∀ k, d.entries j n = some (.directory k) → d.Empty k) : d.find j (n :: rest) = none := by
  obtain ⟨m, rest, rfl⟩ := List.exists_cons_of_ne_nil hrest
  rw [find_cons]
  cases hentry : d.entries j n with
  | none => rfl
  | some entry =>
    cases entry with
    | file version => rfl
    | directory k =>
      dsimp only
      rw [find_cons, h k hentry m]

theorem withoutLive_entries (d : Disk ν φ) (removed : Option Inode) :
    (d.withoutLive removed).entries = d.entries := by
  cases removed <;> rfl

variable [DecidableEq ν]

theorem set_entries (d : Disk ν φ) (i : Inode) (n : ν) (entry : Option (Entry φ)) (j : Inode)
    (m : ν) : (d.set i n entry).entries j m = if j = i ∧ m = n then entry else d.entries j m := by
  unfold set
  by_cases hj : j = i
  · subst hj
    by_cases hm : m = n
    · simp [hm]
    · simp [hm]
  · simp [hj]

/-- A path that leads elsewhere passes a name that has changed, and leads elsewhere from there. -/
theorem find_changed {d' : Disk ν φ} {names : List (Inode × ν)}
    (hsame : ∀ i n, (i, n) ∉ names → d'.entries i n = d.entries i n)
    (hne : d'.find i path ≠ d.find i path) :
    ∃ before j n rest, (j, n) ∈ names ∧ path = before ++ n :: rest ∧
      d.find i before = some (.directory j) ∧ d'.find j (n :: rest) ≠ d.find j (n :: rest) := by
  induction path generalizing i with
  | nil => exact absurd rfl hne
  | cons m path ih =>
    by_cases hm : (i, m) ∈ names
    · exact ⟨[], i, m, path, hm, rfl, rfl, hne⟩
    · rw [find_cons, find_cons, hsame i m hm] at hne
      cases hentry : d.entries i m with
      | none =>
        rw [hentry] at hne
        exact absurd rfl hne
      | some entry =>
        rw [hentry] at hne
        cases entry with
        | file version => exact absurd rfl hne
        | directory k =>
          obtain ⟨before, j, n, rest, hmem, rfl, hbefore, hrest⟩ := ih hne
          refine ⟨m :: before, j, n, rest, hmem, rfl, ?_, hrest⟩
          rw [find_cons, hentry]
          exact hbefore

theorem apply_entries (d : Disk ν φ) (c : Change ν φ) (i : Inode) (n : ν) :
    (d.apply c).entries i n = match c with
      | .write j m version => if i = j ∧ n = m then some (.file version) else d.entries i n
      | .makeDirectory j m => if i = j ∧ n = m then some (.directory d.nextInode) else d.entries i n
      | .remove j m => if i = j ∧ n = m then none else d.entries i n
      | .rename j m j' m' => if i = j' ∧ n = m' then d.entries j m else
          if i = j ∧ n = m then none else d.entries i n := by
  unfold apply
  rw [withoutLive_entries]
  cases c with
  | write | makeDirectory | remove => exact set_entries ..
  | rename j m j' m' =>
    dsimp only
    rw [set_entries, set_entries]

theorem apply_untouched (h : (i, n) ∉ touched c) : (d.apply c).entries i n = d.entries i n := by
  rw [apply_entries]
  cases c with
  | rename j m j' m' =>
    simp only [touched, List.mem_cons, List.not_mem_nil, or_false, Prod.mk.injEq, not_or] at h
    dsimp only
    rw [if_neg h.2, if_neg h.1]
  | _ =>
    simp only [touched, List.mem_singleton, Prod.mk.injEq] at h
    dsimp only
    rw [if_neg h]

/-- A change that moves no directory changes no path but that of a name it touches. -/
theorem find_apply (hr : d.Rooted) (ha : d.Allows c)
    (hne : (d.apply c).find i path ≠ d.find i path) :
    ∃ before j n rest, (j, n) ∈ touched c ∧ path = before ++ n :: rest ∧
      d.find i before = some (.directory j) ∧ (rest = [] ∨ d.Moves c) := by
  obtain ⟨before, j, n, rest, hmem, hpath, hbefore, hrest⟩ :=
    find_changed (fun i n h => apply_untouched h) hne
  refine ⟨before, j, n, rest, hmem, hpath, hbefore, ?_⟩
  by_contra hnot
  obtain ⟨hnil, hstays⟩ := not_or.mp hnot
  have hold : ∀ k, d.entries j n = some (.directory k) → d.Empty k := by
    intro k hk
    cases c with
    | write j' n' version =>
      obtain ⟨rfl, rfl⟩ := Prod.mk.inj (List.mem_singleton.mp hmem)
      exact absurd hk (ha.2 k)
    | makeDirectory j' n' =>
      obtain ⟨rfl, rfl⟩ := Prod.mk.inj (List.mem_singleton.mp hmem)
      rw [ha.2] at hk
      simp at hk
    | remove j' n' =>
      obtain ⟨rfl, rfl⟩ := Prod.mk.inj (List.mem_singleton.mp hmem)
      exact ha.2 k hk
    | rename j' n' j'' n'' =>
      obtain ⟨_, _, entry, hentry, hreplaces, _⟩ := ha
      simp only [touched, List.mem_cons, List.not_mem_nil, or_false, Prod.mk.injEq] at hmem
      obtain ⟨rfl, rfl⟩ | ⟨rfl, rfl⟩ := hmem
      · exact absurd ⟨k, hk⟩ hstays
      · rw [hk] at hreplaces
        exact hreplaces.2
  have hnew : ∀ k, (d.apply c).entries j n = some (.directory k) → (d.apply c).Empty k := by
    intro k hk
    rw [apply_entries] at hk
    cases c with
    | write j' n' version =>
      obtain ⟨rfl, rfl⟩ := Prod.mk.inj (List.mem_singleton.mp hmem)
      simp at hk
    | makeDirectory j' n' =>
      obtain ⟨rfl, rfl⟩ := Prod.mk.inj (List.mem_singleton.mp hmem)
      simp only [and_self, if_true, Option.some.injEq, Entry.directory.injEq] at hk
      intro m
      rw [apply_entries, ← hk]
      dsimp only
      rw [if_neg fun heq => absurd (hr.live j ha.1) (by rw [heq.1]; exact Nat.lt_irrefl _)]
      exact hr.fresh _ (Nat.le_refl _) m
    | remove j' n' =>
      obtain ⟨rfl, rfl⟩ := Prod.mk.inj (List.mem_singleton.mp hmem)
      simp at hk
    | rename j' n' j'' n'' =>
      exfalso
      obtain ⟨_, hdiffer, _⟩ := ha
      simp only [touched, List.mem_cons, List.not_mem_nil, or_false, Prod.mk.injEq] at hmem
      dsimp only at hk
      split at hk
      · exact hstays ⟨k, hk⟩
      · next hnot =>
        rw [if_pos (hmem.resolve_right hnot)] at hk
        simp at hk
  rw [find_beneath hnil hold, find_beneath hnil hnew] at hrest
  exact hrest rfl

/-- A directory that is not removed is where it was, unless a directory above it has moved. -/
theorem find_directory (hr : d.Rooted) (ha : d.Allows c)
    (hfind : d.find root path = some (.directory i)) (hremoved : d.removed c ≠ some i)
    (hmoves : d.Moves c → ∀ before j n rest, (j, n) ∈ touched c → path = before ++ n :: rest →
      d.find root before ≠ some (.directory j)) :
    (d.apply c).find root path = some (.directory i) := by
  by_contra hnot
  rw [← hfind] at hnot
  obtain ⟨before, j, n, rest, hmem, rfl, hbefore, hrest⟩ := find_apply hr ha hnot
  have hstays : ¬d.Moves c := fun hm => hmoves hm before j n rest hmem rfl hbefore
  obtain rfl := hrest.resolve_right hstays
  rw [find_through hbefore, find_singleton] at hfind
  cases c with
  | write j' n' version =>
    obtain ⟨rfl, rfl⟩ := Prod.mk.inj (List.mem_singleton.mp hmem)
    exact ha.2 i hfind
  | makeDirectory j' n' =>
    obtain ⟨rfl, rfl⟩ := Prod.mk.inj (List.mem_singleton.mp hmem)
    rw [ha.2] at hfind
    simp at hfind
  | remove j' n' =>
    obtain ⟨rfl, rfl⟩ := Prod.mk.inj (List.mem_singleton.mp hmem)
    exact hremoved (by simp [removed, hfind])
  | rename j' n' j'' n'' =>
    simp only [touched, List.mem_cons, List.not_mem_nil, or_false, Prod.mk.injEq] at hmem
    obtain ⟨rfl, rfl⟩ | ⟨rfl, rfl⟩ := hmem
    · exact hstays ⟨i, hfind⟩
    · exact hremoved (by simp [removed, hfind])

theorem apply_nextInode (d : Disk ν φ) (c : Change ν φ) :
    d.nextInode ≤ (d.apply c).nextInode ∧
      ∀ i, (d.apply c).live i = true → d.live i = true ∨ d.nextInode = i ∧ i < (d.apply c).nextInode := by
  have hlive : ∀ (e : Disk ν φ) (k : Option Inode) i, (e.withoutLive k).live i = true →
      e.live i = true := by
    intro e k i
    cases k with
    | none => exact id
    | some k =>
      show Function.update e.live k false i = true → _
      rw [Function.update_apply]
      split
      · simp
      · exact id
  have hnext : ∀ (e : Disk ν φ) (k : Option Inode), (e.withoutLive k).nextInode = e.nextInode := by
    intro e k
    cases k <;> rfl
  unfold apply
  rw [hnext]
  refine ⟨?_, fun i hi => ?_⟩
  · cases c <;> first | exact Nat.le_refl _ | exact Nat.le_succ _
  · have hi := hlive _ _ i hi
    cases c with
    | makeDirectory j n =>
      dsimp only at hi ⊢
      by_cases heq : i = d.nextInode
      · exact .inr ⟨heq.symm, heq ▸ Nat.lt_succ_self _⟩
      · exact .inl (by rwa [Function.update_of_ne heq] at hi)
    | _ => exact .inl hi

/-- What a change puts in a place is a file, a directory just made, or one that it has moved away
from where it was. -/
theorem apply_directory (h : (d.apply c).entries i n = some (.directory k)) :
    (d.entries i n = some (.directory k) ∧ ∀ j m, c ≠ .rename i n j m) ∨
      (c = .makeDirectory i n ∧ k = d.nextInode) ∨
      ∃ j m, c = .rename j m i n ∧ d.entries j m = some (.directory k) := by
  rw [apply_entries] at h
  cases c with
  | write j m version =>
    dsimp only at h
    split at h
    · simp at h
    · exact .inl ⟨h, by simp⟩
  | makeDirectory j m =>
    dsimp only at h
    split at h
    · next heq =>
      obtain ⟨rfl, rfl⟩ := heq
      exact .inr (.inl ⟨rfl, (Entry.directory.inj (Option.some.inj h)).symm⟩)
    · exact .inl ⟨h, by simp⟩
  | remove j m =>
    dsimp only at h
    split at h
    · simp at h
    · exact .inl ⟨h, by simp⟩
  | rename j m j' m' =>
    dsimp only at h
    split at h
    · next heq =>
      obtain ⟨rfl, rfl⟩ := heq
      exact .inr (.inr ⟨j, m, rfl, h⟩)
    · split at h
      · simp at h
      · next hnot =>
        refine .inl ⟨h, fun _ _ heq => hnot ?_⟩
        injection heq with hi hn
        exact ⟨hi.symm, hn.symm⟩

theorem Rooted.apply (h : d.Rooted) (ha : d.Allows c) : (d.apply c).Rooted := by
  obtain ⟨hle, hlive⟩ := d.apply_nextInode c
  have hmade : ∀ i n k, c = .makeDirectory i n → k = d.nextInode → k < (d.apply c).nextInode := by
    rintro i n k rfl rfl
    exact Nat.lt_succ_self _
  refine ⟨fun i n j m k hat hat' => ?_, fun i n hat => ?_, fun i n k hat => ?_, fun i hi => ?_,
    Nat.lt_of_lt_of_le h.made hle, fun i hi n => ?_⟩
  · obtain ⟨hi, hi'⟩ | ⟨rfl, hk⟩ | ⟨a, x, rfl, hi⟩ := apply_directory hat
    · obtain ⟨hj, _⟩ | ⟨rfl, rfl⟩ | ⟨b, y, rfl, hj⟩ := apply_directory hat'
      · exact h.apart i n j m k hi hj
      · exact absurd (h.linked i n _ hi) (Nat.lt_irrefl _)
      · obtain ⟨rfl, rfl⟩ := h.apart i n b y k hi hj
        exact absurd rfl (hi' j m)
    · obtain ⟨hj, _⟩ | ⟨heq, _⟩ | ⟨b, y, heq, hj⟩ := apply_directory hat'
      · exact absurd (hk ▸ h.linked j m k hj) (Nat.lt_irrefl _)
      · injection heq with hi hn
        exact ⟨hi, hn⟩
      · simp at heq
    · obtain ⟨hj, hj'⟩ | ⟨heq, _⟩ | ⟨b, y, heq, hj⟩ := apply_directory hat'
      · obtain ⟨rfl, rfl⟩ := h.apart j m a x k hj hi
        exact absurd rfl (hj' i n)
      · simp at heq
      · injection heq with _ _ hi hn
        exact ⟨hi, hn⟩
  · obtain ⟨hi, _⟩ | ⟨rfl, hk⟩ | ⟨a, x, rfl, hi⟩ := apply_directory hat
    · exact h.unplaced i n hi
    · exact absurd h.made (hk ▸ Nat.lt_irrefl _)
    · exact h.unplaced a x hi
  · obtain ⟨hi, _⟩ | ⟨hc, hk⟩ | ⟨a, x, rfl, hi⟩ := apply_directory hat
    · exact Nat.lt_of_lt_of_le (h.linked i n k hi) hle
    · exact hmade i n k hc hk
    · exact Nat.lt_of_lt_of_le (h.linked a x k hi) hle
  · obtain hi | ⟨_, hi⟩ := hlive i hi
    · exact Nat.lt_of_lt_of_le (h.live i hi) hle
    · exact hi
  · have hold := h.fresh i (Nat.le_trans hle hi)
    have hnot : ∀ j, d.live j = true → i ≠ j := by
      rintro j hj rfl
      exact absurd (Nat.lt_of_lt_of_le (h.live i hj) (Nat.le_trans hle hi)) (Nat.lt_irrefl _)
    rw [apply_entries]
    cases c with
    | write j m version =>
      dsimp only
      rw [if_neg fun heq => hnot j ha.1 heq.1]
      exact hold n
    | makeDirectory j m =>
      dsimp only
      rw [if_neg fun heq => hnot j ha.1 heq.1]
      exact hold n
    | remove j m =>
      dsimp only
      split
      · rfl
      · exact hold n
    | rename j m j' m' =>
      dsimp only
      rw [if_neg fun heq => hnot j' ha.1 heq.1]
      split
      · rfl
      · exact hold n

end Disk

end MakeBelieve.Library
