import MakeBelieve.InMemoryDirectoryTree.State
import MakeBelieve.Tree.Layout

namespace MakeBelieve.InMemoryDirectoryTree

open Library
open MakeBelieve.Manifest (filename)
open MakeBelieve.Snapshots (DirectoryTreeDiff FileInfo)
open MakeBelieve.Tree (Above isWithin isWithin_iff)

namespace State

def isDirectory (s : State) (path : Path) : Prop :=
  ∃ node, s.entries.find path = some node ∧ node.isDirectory = true

/-- A file's size is its content's. -/
def Sized (node : Node) : Prop :=
  ∀ info, node.info = .file info →
    ∃ content, node.content = some content ∧ info.size = content.length

/-- The root is a directory, everything else is in one, and files have their sizes. -/
structure Sound (s : State) : Prop where
  root : s.isDirectory []
  parent : ∀ path, (s.entries.find path).isSome = true → path ≠ [] → s.isDirectory path.dropLast
  sized : ∀ path node, s.entries.find path = some node → Sized node

variable {s t : State} {path other directory : Path} {node : Node}

theorem parentIsDirectory_iff : s.parentIsDirectory path = true ↔ s.isDirectory path.dropLast := by
  unfold parentIsDirectory isDirectory
  rw [Option.any_eq_true]

theorem dropLast_ne (h : path ≠ []) : path.dropLast ≠ path := by
  intro heq
  have hlen := congrArg List.length heq
  have hpos := List.length_pos_iff.mpr h
  rw [List.length_dropLast] at hlen
  omega

/-- Directories stay so if what goes in where one was is one too. -/
theorem isDirectory_insert (h : s.isDirectory other)
    (hkind : s.isDirectory path → node.isDirectory = true) :
    State.isDirectory { entries := s.entries.insert path node } other := by
  obtain ⟨found, hfound, hdirectory⟩ := h
  by_cases heq : other = path
  · subst heq
    exact ⟨node, SortedMap.find_insert_self, hkind ⟨found, hfound, hdirectory⟩⟩
  · apply Exists.intro found
    constructor
    · dsimp only
      rw [SortedMap.find_insert_of_ne heq]
      exact hfound
    · exact hdirectory

theorem Sound.insert (h : s.Sound) (hkind : s.isDirectory path → node.isDirectory = true)
    (hparent : path ≠ [] → s.isDirectory path.dropLast) (hsized : Sized node) :
    Sound { entries := s.entries.insert path node } := by
  constructor
  · exact isDirectory_insert h.root hkind
  · intro other hsome hne
    apply isDirectory_insert _ hkind
    by_cases heq : other = path
    · subst heq
      exact hparent hne
    · dsimp only at hsome
      rw [SortedMap.find_insert_of_ne heq] at hsome
      exact h.parent other hsome hne
  · intro other found hfound
    by_cases heq : other = path
    · subst heq
      dsimp only at hfound
      rw [SortedMap.find_insert_self] at hfound
      cases hfound
      exact hsized
    · dsimp only at hfound
      rw [SortedMap.find_insert_of_ne heq] at hfound
      exact h.sized other found hfound

theorem isRemoved_iff : isRemoved path other = true ↔ path <+: other := by
  unfold isRemoved
  rw [Bool.or_eq_true, decide_eq_true_eq, isWithin_iff]
  constructor
  · intro h
    rcases h with rfl | habove
    · exact List.prefix_refl _
    · exact habove.1
  · intro hpre
    by_cases heq : path = other
    · exact .inl heq.symm
    · exact .inr ⟨hpre, heq⟩

theorem find_remaining (h : ¬path <+: other) :
    (s.entries.restrict fun entry => !isRemoved path entry).find other = s.entries.find other := by
  rw [SortedMap.find_restrict]
  apply if_pos
  rw [Bool.not_eq_true', ← Bool.not_eq_true, isRemoved_iff]
  exact h

theorem find_removed (h : path <+: other) :
    (s.entries.restrict fun entry => !isRemoved path entry).find other = none := by
  rw [SortedMap.find_restrict]
  apply if_neg
  rw [isRemoved_iff.mpr h]
  simp

theorem Sound.restrict (h : s.Sound) (hne : path ≠ []) :
    Sound { entries := s.entries.restrict fun entry => !isRemoved path entry } := by
  have hkept : ∀ other, s.isDirectory other → ¬path <+: other → State.isDirectory
      { entries := s.entries.restrict fun entry => !isRemoved path entry } other := by
    intro other hdirectory hnot
    unfold isDirectory
    dsimp only
    rw [find_remaining hnot]
    exact hdirectory
  constructor
  · apply hkept [] h.root
    intro hpre
    exact hne (List.prefix_nil.mp hpre)
  · intro other hsome hother
    dsimp only at hsome
    by_cases hpre : path <+: other
    · rw [find_removed hpre] at hsome
      simp at hsome
    · rw [find_remaining hpre] at hsome
      apply hkept _ (h.parent other hsome hother)
      intro hpre'
      exact hpre (hpre'.trans (List.dropLast_prefix other))
  · intro other found hfound
    dsimp only at hfound
    by_cases hpre : path <+: other
    · rw [find_removed hpre] at hfound
      simp at hfound
    · rw [find_remaining hpre] at hfound
      exact h.sized other found hfound

/-- What a diff tells of a call: nothing else is changed, and no other directory has other children
if it is one before and after. -/
structure Tells (s : State) (diff : DirectoryTreeDiff) (t : State) : Prop where
  entry : ∀ path, path ∉ diff.entriesChanged → t.entries.find path = s.entries.find path
  children : ∀ path, path ≠ [] → path.dropLast ∉ diff.childListsChanged →
    s.isDirectory path.dropLast → t.isDirectory path.dropLast →
    ((t.entries.find path).isSome ↔ (s.entries.find path).isSome)

/-- An entry is put in, and its directory named if it is a new one. -/
theorem Tells.insert {diff : DirectoryTreeDiff} (hentry : diff.entriesChanged = [path])
    (hnew : s.entries.find path = none → path.dropLast ∈ diff.childListsChanged) :
    Tells s diff { entries := s.entries.insert path node } := by
  constructor
  · intro other hnot
    rw [hentry, List.mem_singleton] at hnot
    exact SortedMap.find_insert_of_ne hnot
  · intro other _ hnot _ _
    dsimp only
    by_cases heq : other = path
    · subst heq
      rw [SortedMap.find_insert_self]
      have hold : s.entries.find other ≠ none := by
        intro hnone
        exact hnot (hnew hnone)
      simp [Option.isSome_iff_ne_none, hold]
    · rw [SortedMap.find_insert_of_ne heq]

/-- What is removed is named, and a directory above any of it is gone, or is the one named. -/
theorem Tells.restrict :
    Tells s { entriesChanged := (s.entries.restrict (isRemoved path)).entries.map Prod.fst
              childListsChanged := [path.dropLast] }
      { entries := s.entries.restrict fun entry => !isRemoved path entry } := by
  constructor
  · intro other hnot
    dsimp only at hnot ⊢
    rw [SortedMap.mem_keys, SortedMap.find_restrict] at hnot
    by_cases hpre : path <+: other
    · rw [if_pos (isRemoved_iff.mpr hpre), Bool.not_eq_true, Option.isSome_eq_false_iff,
        Option.isNone_iff_eq_none] at hnot
      rw [find_removed hpre, hnot]
    · exact find_remaining hpre
  · intro other hne hnot _ hdirectory
    dsimp only at hnot ⊢
    rw [List.mem_singleton] at hnot
    rw [find_remaining]
    intro hpre
    by_cases heq : path = other
    · subst heq
      exact hnot rfl
    · have hparent : path <+: other.dropLast := (Tree.above_iff hne).mp ⟨hpre, heq⟩
      obtain ⟨node, hfound, -⟩ := hdirectory
      rw [find_removed hparent] at hfound
      simp at hfound

/-- What each call does: the tree is as sound as it was, and the diff tells of it. -/
theorem call_spec {c : Call} {diff : DirectoryTreeDiff} (h : s.Sound)
    (hcall : s.call c = some (diff, t)) : t.Sound ∧ Tells s diff t := by
  cases c with
  | writeFile written content mtime =>
    obtain ⟨path, -, hwritten⟩ := Option.bind_eq_some_iff.mp hcall
    split at hwritten
    · next hpre =>
      obtain ⟨hne, hparent, hkind⟩ := hpre
      cases hwritten
      constructor
      · apply h.insert
        · intro hdirectory
          obtain ⟨node, hfound, hnode⟩ := hdirectory
          rw [hfound] at hkind
          simp [hnode] at hkind
        · intro _
          exact parentIsDirectory_iff.mp hparent
        · intro info hinfo
          cases hinfo
          exact ⟨content, rfl, rfl⟩
      · apply Tells.insert rfl
        intro hnone
        simp [hnone]
    · simp at hwritten
  | makeDirectory written mtime =>
    obtain ⟨path, -, hwritten⟩ := Option.bind_eq_some_iff.mp hcall
    split at hwritten
    · next hpre =>
      obtain ⟨hne, hparent, -⟩ := hpre
      cases hwritten
      constructor
      · apply h.insert
        · intro _
          rfl
        · intro _
          exact parentIsDirectory_iff.mp hparent
        · intro info hinfo
          simp at hinfo
      · apply Tells.insert rfl
        intro _
        exact List.mem_singleton_self _
    · simp at hwritten
  | remove written =>
    obtain ⟨path, -, hwritten⟩ := Option.bind_eq_some_iff.mp hcall
    split at hwritten
    · next hpre =>
      cases hwritten
      exact ⟨h.restrict hpre.1, .restrict⟩
    · simp at hwritten
  | setMtime written mtime =>
    obtain ⟨path, -, hwritten⟩ := Option.bind_eq_some_iff.mp hcall
    obtain ⟨node, hfound, heq⟩ := Option.map_eq_some_iff.mp hwritten
    cases heq
    have hsized := h.sized path node hfound
    constructor
    · apply h.insert
      · intro hdirectory
        obtain ⟨found, hfound', hnode⟩ := hdirectory
        rw [hfound] at hfound'
        cases hfound'
        unfold Node.isDirectory at hnode ⊢
        cases hinfo : node.info with
        | file info => simp [hinfo] at hnode
        | directory => rfl
      · intro hne
        apply h.parent path _ hne
        simp [hfound]
      · intro info hinfo
        cases hold : node.info with
        | file old =>
          rw [hold] at hinfo
          cases hinfo
          exact hsized old hold
        | directory =>
          rw [hold] at hinfo
          simp [withMtime] at hinfo
    · apply Tells.insert rfl
      intro hnone
      rw [hfound] at hnone
      simp at hnone

theorem sound_of_reachable {ok : State → Call → Prop} (h : machine.Reachable ok s) : s.Sound := by
  apply h.invariant
  · intro s hinit
    have hroot : s.entries.find [] = some { info := .directory 0 } := by
      rw [hinit]
      rfl
    have honly : ∀ path node, s.entries.find path = some node → path = [] := by
      intro path node hfound
      rw [← SortedMap.mem_entries, hinit] at hfound
      exact congrArg Prod.fst (List.mem_singleton.mp hfound)
    constructor
    · exact ⟨_, hroot, rfl⟩
    · intro path hsome hne
      obtain ⟨node, hfound⟩ := Option.isSome_iff_exists.mp hsome
      exact absurd (honly path node hfound) hne
    · intro path node hfound info hinfo
      rw [honly path node hfound, hroot] at hfound
      cases hfound
      simp at hinfo
  · intro s c hsound henabled _
    obtain ⟨⟨diff, t⟩, hcall⟩ := Option.isSome_iff_exists.mp henabled
    have hstep : machine.step s c = t := by
      change ((s.call c).map Prod.snd).getD s = t
      rw [hcall]
      rfl
    rw [hstep]
    exact (call_spec hsound hcall).1

/-- A directory's listing, by the names of its entries. -/
theorem ls_names {written : List Char} {mtime : Int64}
    (h : s.status written = .ok (.directory mtime)) :
    ∃ path listing, normalize written = some path ∧ s.isDirectory path ∧
      s.ls written = .ok listing ∧ ∀ name, name ∈ listing.map TreeEntry.name ↔
        ∃ entry, (s.entries.find entry).isSome = true ∧ entry ≠ [] ∧ entry.dropLast = path ∧
          filename entry = name := by
  unfold status at h
  split at h
  · next node hfound =>
    obtain ⟨path, hnormal, hfound⟩ := Option.bind_eq_some_iff.mp hfound
    have hinfo : node.info = .directory mtime := by
      injection h
    have hnode : node.isDirectory = true := by
      unfold Node.isDirectory
      rw [hinfo]
    have hany : (s.entries.find path).any Node.isDirectory = true := by
      rw [hfound]
      exact hnode
    have hls : s.ls written = .ok ((s.entries.restrict (isChild path)).entries.map fun entry =>
        { name := filename entry.1, info := entry.2.info }) := by
      unfold ls
      rw [hnormal]
      exact if_pos hany
    refine ⟨path, _, hnormal, ⟨node, hfound, hnode⟩, hls, ?_⟩
    intro name
    rw [List.map_map, List.mem_map]
    constructor
    · intro hmem
      obtain ⟨⟨entry, found⟩, hmem, rfl⟩ := hmem
      have hrestricted := SortedMap.mem_entries.mp hmem
      rw [SortedMap.find_restrict] at hrestricted
      split at hrestricted
      · next hchild =>
        simp only [isChild, Bool.and_eq_true, decide_eq_true_eq] at hchild
        apply Exists.intro entry
        refine ⟨by simp [hrestricted], ?_, hchild.2, rfl⟩
        rintro rfl
        exact hchild.1 hchild.2
      · simp at hrestricted
    · intro hentry
      obtain ⟨entry, hsome, hne, rfl, rfl⟩ := hentry
      obtain ⟨found, hfound⟩ := Option.isSome_iff_exists.mp hsome
      have hchild : isChild entry.dropLast entry = true := by
        simp [isChild, (dropLast_ne hne).symm]
      refine ⟨(entry, found), ?_, rfl⟩
      rw [SortedMap.mem_entries, SortedMap.find_restrict, if_pos hchild]
      exact hfound
  · simp at h

theorem Tells.names {diff : DirectoryTreeDiff} (h : Tells s diff t) {written : List Char}
    {mtime mtime' : Int64} (hbefore : s.status written = .ok (.directory mtime))
    (hafter : t.status written = .ok (.directory mtime'))
    (hnot : ∀ path ∈ diff.childListsChanged, normalize written ≠ some path) :
    ∃ before after, s.ls written = .ok before ∧ t.ls written = .ok after ∧
      ∀ name, name ∈ after.map TreeEntry.name ↔ name ∈ before.map TreeEntry.name := by
  obtain ⟨path, before, hnormal, hdirectory, hls, hnames⟩ := ls_names hbefore
  obtain ⟨path', after, hnormal', hdirectory', hls', hnames'⟩ := ls_names hafter
  have hpath : path' = path := by
    rw [hnormal] at hnormal'
    exact (Option.some.inj hnormal').symm
  subst hpath
  have hunnamed : path' ∉ diff.childListsChanged := by
    intro hmem
    exact hnot path' hmem hnormal
  refine ⟨before, after, hls, hls', ?_⟩
  intro name
  rw [hnames, hnames']
  apply exists_congr
  intro entry
  constructor
  · intro hentry
    obtain ⟨hsome, hne, rfl, hname⟩ := hentry
    exact ⟨(h.children entry hne hunnamed hdirectory hdirectory').mp hsome, hne, rfl, hname⟩
  · intro hentry
    obtain ⟨hsome, hne, rfl, hname⟩ := hentry
    exact ⟨(h.children entry hne hunnamed hdirectory hdirectory').mpr hsome, hne, rfl, hname⟩

theorem Tells.bind_find {diff : DirectoryTreeDiff} (h : Tells s diff t) {written : List Char}
    (hnot : ∀ path ∈ diff.entriesChanged, normalize written ≠ some path) :
    (normalize written).bind t.entries.find = (normalize written).bind s.entries.find := by
  cases hnormal : normalize written with
  | none => rfl
  | some path =>
    rw [Option.bind_some, Option.bind_some]
    apply h.entry
    intro hmem
    exact hnot path hmem hnormal

/-- Every tree that calls make is sound; and of each further call, a path not named as changed has
the status and the content it had, and a directory not named, if it is one before and after, has
children of the names it had. -/
theorem diffs_sound {ok : State → Call → Prop} (hs : machine.Reachable ok s) :
    s.Sound ∧ ∀ c diff t, s.call c = some (diff, t) →
      (∀ written, (∀ path ∈ diff.entriesChanged, normalize written ≠ some path) →
        t.status written = s.status written ∧ t.readWhole written = s.readWhole written ∧
        ∀ offset size, t.read written offset size = s.read written offset size) ∧
      ∀ written mtime mtime', s.status written = .ok (.directory mtime) →
        t.status written = .ok (.directory mtime') →
        (∀ path ∈ diff.childListsChanged, normalize written ≠ some path) →
        ∃ before after, s.ls written = .ok before ∧ t.ls written = .ok after ∧
          ∀ name, name ∈ after.map TreeEntry.name ↔ name ∈ before.map TreeEntry.name := by
  have hsound := sound_of_reachable hs
  apply And.intro hsound
  intro c diff t hcall
  have htells := (call_spec hsound hcall).2
  constructor
  · intro written hnot
    have hfind := htells.bind_find hnot
    have hwhole : t.readWhole written = s.readWhole written := by
      unfold readWhole
      rw [hfind]
    refine ⟨?_, hwhole, ?_⟩
    · unfold status
      rw [hfind]
    · intro offset size
      unfold read
      rw [hwhole]
  · intro written mtime mtime' hbefore hafter hnot
    exact htells.names hbefore hafter hnot

/-- A directory with a file in it, beside another. -/
def filled : State :=
  machine.runs {} [.makeDirectory ['d'] 1, .writeFile ['d', '/', 'f'] [7] 2, .makeDirectory ['e'] 3]

theorem diffs_sound_filled : ∃ diff t, filled.call (.remove ['d']) = some (diff, t) ∧
    diff.entriesChanged = [[['d']], [['d'], ['f']]] ∧ filled.Sound ∧
    t.status ['e'] = filled.status ['e'] ∧ t.status ['e'] = .ok (.directory 3) := by
  have hreach : machine.Reachable (fun _ _ => True) filled := by
    apply Machine.Reachable.runs (.start rfl)
    exact ⟨rfl, trivial, rfl, trivial, rfl, trivial, trivial⟩
  obtain ⟨hsound, hdiffs⟩ := diffs_sound hreach
  obtain ⟨⟨diff, t⟩, hcall⟩ : ∃ out, filled.call (.remove ['d']) = some out :=
    Option.isSome_iff_exists.mp (by decide)
  have hchanged : (filled.call (.remove ['d'])).map (fun out => out.1.entriesChanged) =
      some [[['d']], [['d'], ['f']]] := by decide
  rw [hcall] at hchanged
  have hchanged : diff.entriesChanged = [[['d']], [['d'], ['f']]] := Option.some.inj hchanged
  have hstatus := ((hdiffs _ diff t hcall).1 ['e'] (by rw [hchanged]; decide)).1
  refine ⟨diff, t, hcall, hchanged, hsound, hstatus, ?_⟩
  rw [hstatus]
  rfl

end State

end MakeBelieve.InMemoryDirectoryTree
