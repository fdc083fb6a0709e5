import MakeBelieve.Manifest.Parse

namespace MakeBelieve.Manifest

open MakeBelieve.Tree (NormalPath)

/-! ### What a path's text is taken apart into -/

theorem mem_splitOn {text : List Char} {sep : Char} {part : List Char}
    (h : part ∈ text.splitOn sep) : sep ∉ part ∧ ∀ c ∈ part, c ∈ text := by
  induction text generalizing part with
  | nil =>
    obtain rfl : part = [] := by simpa using h
    simp
  | cons c text ih =>
    rw [List.splitOn_cons_eq_if_modifyHead] at h
    split at h
    · obtain rfl | h := List.mem_cons.mp h
      · simp
      · exact ⟨(ih h).1, fun d hd => List.mem_cons_of_mem _ ((ih h).2 d hd)⟩
    · next hne =>
      cases hsplit : text.splitOn sep with
      | nil => exact absurd hsplit (List.splitOn_ne_nil sep text)
      | cons first rest =>
        rw [hsplit, List.modifyHead_cons] at h
        rw [hsplit] at ih
        obtain rfl | h := List.mem_cons.mp h
        · obtain ⟨hsep, hmem⟩ := ih (List.mem_cons_self ..)
          refine ⟨fun hin => ?_, fun d hd => ?_⟩
          · obtain rfl | hin := List.mem_cons.mp hin
            · simp at hne
            · exact hsep hin
          · obtain rfl | hd := List.mem_cons.mp hd
            · exact List.mem_cons_self ..
            · exact List.mem_cons_of_mem _ (hmem d hd)
        · obtain ⟨hsep, hmem⟩ := ih (List.mem_cons_of_mem _ h)
          exact ⟨hsep, fun d hd => List.mem_cons_of_mem _ (hmem d hd)⟩

/-- A path in normal form, its components listed last first, goes up before it goes down. -/
def Ups (normal : List Name) : Prop :=
  ∃ names n, normal = names ++ List.replicate n ['.', '.'] ∧ NormalPath names

theorem Ups.part {normal : List Name} (h : Ups normal) {part : Name} (hne : part ≠ []) :
    Ups (Tree.normalPart normal part) := by
  obtain ⟨names, n, rfl, hnormal⟩ := h
  unfold Tree.normalPart
  split
  · exact ⟨names, n, rfl, hnormal⟩
  · next hdot =>
    split
    · next hdots =>
      cases names with
      | nil =>
        cases n with
        | zero => exact ⟨[], 1, by simp [hdots], hnormal⟩
        | succ n =>
          refine ⟨[], n + 2, ?_, hnormal⟩
          simp [List.replicate_succ, hdots]
      | cons name names =>
        obtain ⟨hname, hnames⟩ := List.forall_mem_cons.mp hnormal
        rw [List.cons_append]
        dsimp only
        rw [if_neg hname.2.2]
        exact ⟨names, n, rfl, hnames⟩
    · next hdots =>
      refine ⟨part :: names, n, rfl, ?_⟩
      exact List.forall_mem_cons.mpr ⟨⟨hne, hdot, hdots⟩, hnormal⟩

theorem ups_foldl {parts normal : List Name} (h : Ups normal) (hne : ∀ part ∈ parts, part ≠ []) :
    Ups (parts.foldl Tree.normalPart normal) := by
  induction parts generalizing normal with
  | nil => exact h
  | cons part parts ih =>
    obtain ⟨hpart, hparts⟩ := List.forall_mem_cons.mp hne
    exact ih (h.part hpart) hparts

/-- Normal form adds no component. -/
theorem mem_foldl_normalPart {parts normal : List Name} {part : Name}
    (h : part ∈ parts.foldl Tree.normalPart normal) : part ∈ parts ∨ part ∈ normal := by
  induction parts generalizing normal with
  | nil => exact .inr h
  | cons first parts ih =>
    obtain h | h := ih h
    · exact .inl (List.mem_cons_of_mem _ h)
    · unfold Tree.normalPart at h
      split at h
      · exact .inr h
      · split at h
        · split at h
          · exact .inl (by simp [List.mem_singleton.mp h])
          · split at h
            · exact (List.mem_cons.mp h).imp (fun heq => by simp [heq]) id
            · exact .inr (List.mem_cons_of_mem _ h)
        · exact (List.mem_cons.mp h).imp (fun heq => by simp [heq]) id

theorem mem_treeNormal {parts : List Name} {part : Name}
    (h : part ∈ Tree.lexicallyNormal parts) : part ∈ parts := by
  unfold Tree.lexicallyNormal at h
  simpa using mem_foldl_normalPart (List.mem_reverse.mp h)

/-! ### Paths inside -/

/-- A path that `toInsidePath` accepts and leaves as it is. -/
def Inside (path : Path) : Prop := toInsidePath (genericString path) = some path

instance (path : Path) : Decidable (Inside path) :=
  inferInstanceAs (Decidable (toInsidePath (genericString path) = some path))

/-- A path of a file, each component of it a name. -/
structure Named (path : Path) : Prop where
  nonempty : path ≠ []
  normal : NormalPath path
  unseparated : ∀ part ∈ path, '/' ∉ part

theorem filename_mem {path : Path} (h : path ≠ []) : filename path ∈ path := by
  unfold filename
  rw [List.getLastD_eq_getLast?, List.getLast?_eq_some_getLast h]
  exact List.getLast_mem h

theorem dropLast_filename {path : Path} (h : path ≠ []) :
    path.dropLast ++ [filename path] = path := by
  unfold filename
  rw [List.getLastD_eq_getLast?, List.getLast?_eq_some_getLast h]
  exact List.dropLast_append_getLast h

theorem filename_concat (directory : Path) (name : Name) :
    filename (directory ++ [name]) = name := by
  simp [filename, List.getLastD_eq_getLast?]

/-- What `toInsidePath` accepts is what is left of the text's own components. -/
theorem toInsidePath_some {relative : List Char} {path : Path}
    (h : toInsidePath relative = some path) :
    Named path ∧ ∀ part ∈ path, part ∈ relative.splitOn '/' := by
  unfold toInsidePath at h
  dsimp only at h
  split at h
  · simp at h
  · next hnot =>
    obtain rfl := Option.some.inj h
    simp only [not_or] at hnot
    obtain ⟨hempty, _, hname, hdot, _, hhead⟩ := hnot
    have hnormal : lexicallyNormal relative =
        Tree.lexicallyNormal ((relative.splitOn '/').filter fun part => part ≠ []) := by
      revert hempty hname hdot
      unfold lexicallyNormal
      dsimp only
      split
      · intro hempty
        exact absurd rfl hempty
      · split
        · intro _ _ hdot
          exact absurd rfl hdot
        · split
          · intro _ hname
            exact absurd (filename_concat _ _) hname
          · intro _ _ _
            rfl
    have hmem : ∀ part ∈ lexicallyNormal relative, part ∈ relative.splitOn '/' := by
      intro part hpart
      rw [hnormal] at hpart
      exact (List.mem_filter.mp (mem_treeNormal hpart)).1
    refine ⟨⟨hempty, ?_, fun part hpart => (mem_splitOn (hmem part hpart)).1⟩, hmem⟩
    have hups : Ups (((relative.splitOn '/').filter fun part => part ≠ []).foldl
        Tree.normalPart []) := by
      refine ups_foldl ⟨[], 0, rfl, by simp [NormalPath]⟩ fun part hpart => ?_
      simpa using (List.mem_filter.mp hpart).2
    obtain ⟨names, n, heq, hnames⟩ := hups
    unfold Tree.lexicallyNormal at hnormal
    rw [heq, List.reverse_append, List.reverse_replicate] at hnormal
    cases n with
    | zero =>
      rw [hnormal]
      intro part hpart
      exact hnames part (by simpa using hpart)
    | succ n =>
      rw [hnormal, List.replicate_succ] at hhead
      exact absurd rfl hhead

/-- `toInsidePath` accepts a path's own text, and leaves it, where each component is a name. -/
theorem inside_iff {path : Path} : Inside path ↔ Named path := by
  refine ⟨fun h => (toInsidePath_some h).1, fun h => ?_⟩
  have hsplit : (genericString path).splitOn '/' = path :=
    List.splitOn_intercalate '/' h.unseparated h.nonempty
  obtain ⟨first, rest, rfl⟩ := List.exists_cons_of_ne_nil h.nonempty
  obtain ⟨c, name, hfirst⟩ := List.exists_cons_of_ne_nil (h.normal first (List.mem_cons_self ..)).1
  have htext : (genericString (first :: rest)).head? = some c := by
    unfold genericString
    cases rest with
    | nil => simp [hfirst]
    | cons next rest => simp [hfirst]
  have hc : c ≠ '/' := fun heq => h.unseparated first (List.mem_cons_self ..) (by simp [hfirst, heq])
  have hlast := h.normal _ (filename_mem h.nonempty)
  have hfilter : (first :: rest).filter (fun part => decide (part ≠ [])) = first :: rest := by
    refine List.filter_eq_self.mpr fun part hpart => ?_
    simpa using (h.normal part hpart).1
  have hnormal : lexicallyNormal (genericString (first :: rest)) = first :: rest := by
    unfold lexicallyNormal
    dsimp only
    rw [hsplit, hfilter, Tree.lexicallyNormal_normal h.normal, if_neg, if_neg (by simp), if_neg]
    · rintro ⟨hin, _⟩
      have hname : filename (first :: rest) ∈ [[], ['.'], ['.', '.']] := hin
      simp [hlast] at hname
    · intro hnil
      rw [hnil] at htext
      simp at htext
  unfold Inside toInsidePath
  dsimp only
  rw [hnormal, if_neg]
  simp only [htext, not_or]
  refine ⟨by simp, by simpa using hc, hlast.1, hlast.2.1, hlast.2.2, ?_⟩
  simpa using (h.normal first (List.mem_cons_self ..)).2.2

end MakeBelieve.Manifest
