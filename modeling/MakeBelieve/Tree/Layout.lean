import MakeBelieve.Tree.State

namespace MakeBelieve.Tree

/-- An entry of an `InMemoryDirectoryTree`, a file with its content. -/
inductive Node
  | file (file : File)
  | directory (mtime : Int64)
  deriving DecidableEq

/-- One component more of a path, its normal form so far held last component first. -/
def normalPart (normal : List Name) (part : Name) : List Name :=
  if part = ['.'] then normal
  else if part = ['.', '.'] then
    match normal with
    | [] => [part]
    | last :: rest => if last = ['.', '.'] then part :: normal else rest
  else part :: normal

def lexicallyNormal (path : Path) : Path := (path.foldl normalPart []).reverse

/-- `normalize`: the path in normal form, if it does not escape the root. -/
def normalize (path : Path) : Option Path :=
  if (lexicallyNormal path).head? = some ['.', '.'] then none else some (lexicallyNormal path)

/-- Whether `entry` is strictly beneath `directory`. -/
def isWithin (entry directory : Path) : Bool :=
  directory.isPrefixOf entry && decide (directory.length < entry.length)

/-- `m_entries`, which begins with the root alone. -/
structure InMemoryDirectoryTree where
  entries : List (Path × Node) := [([], .directory 0)]

namespace InMemoryDirectoryTree

def find (t : InMemoryDirectoryTree) (path : Path) : Option Node :=
  (t.entries.find? fun entry => entry.1 = path).map Prod.snd

def isDirectory (t : InMemoryDirectoryTree) (path : Path) : Bool :=
  match t.find path with
  | some (.directory _) => true
  | _ => false

def insert (t : InMemoryDirectoryTree) (path : Path) (node : Node) : InMemoryDirectoryTree :=
  { entries := (path, node) :: t.entries.filter fun entry => entry.1 ≠ path }

/-- `write_file`, which leaves no tree where one of its assertions fails. -/
def writeFile (t : InMemoryDirectoryTree) (path : Path) (file : File) :
    Option InMemoryDirectoryTree :=
  (normalize path).bind fun path =>
    if path ≠ [] ∧ t.isDirectory path.dropLast ∧ ¬t.isDirectory path then
      some (t.insert path (.file file))
    else none

/-- `make_directory`, as `writeFile`. -/
def makeDirectory (t : InMemoryDirectoryTree) (path : Path) (mtime : Int64) :
    Option InMemoryDirectoryTree :=
  (normalize path).bind fun path =>
    if path ≠ [] ∧ t.isDirectory path.dropLast ∧ t.find path = none then
      some (t.insert path (.directory mtime))
    else none

/-- `remove`, as `writeFile`. -/
def remove (t : InMemoryDirectoryTree) (path : Path) : Option InMemoryDirectoryTree :=
  (normalize path).bind fun path =>
    if path ≠ [] ∧ (t.find path).isSome then
      some { entries := t.entries.filter fun entry => !(entry.1 = path || isWithin entry.1 path) }
    else none

def status (t : InMemoryDirectoryTree) (path : Path) : Option Node :=
  (normalize path).bind t.find

def ls (t : InMemoryDirectoryTree) (path : Path) : Option (List (Name × Node)) :=
  (normalize path).bind fun path =>
    if t.isDirectory path then
      some ((t.entries.filter fun entry => entry.1 ≠ path && entry.1.dropLast = path).map
        fun entry => (entry.1.getLastD [], entry.2))
    else none

/-- The loop of `ensure_parent_directories`, which has come as far as `directory`. -/
def ensureFrom (mtime : Int64) (directory : Path) :
    List Name → InMemoryDirectoryTree → Option InMemoryDirectoryTree
  | [], t => some t
  | part :: parts, t =>
    let directory := directory ++ [part]
    (if (t.status directory).isSome then some t else t.makeDirectory directory mtime).bind
      (ensureFrom mtime directory parts)

def ensureParentDirectories (t : InMemoryDirectoryTree) (output : Path) (mtime : Int64) :
    Option InMemoryDirectoryTree :=
  ensureFrom mtime [] output.dropLast t

/-- The loop of `remove_with_empty_parents`, at a directory whose components are listed last first. -/
def pruneParents : List Name → InMemoryDirectoryTree → Option InMemoryDirectoryTree
  | [], t => some t
  | name :: rest, t =>
    match t.ls (name :: rest).reverse with
    | some [] => (t.remove (name :: rest).reverse).bind (pruneParents rest)
    | _ => some t

def removeWithEmptyParents (t : InMemoryDirectoryTree) (output : Path) :
    Option InMemoryDirectoryTree :=
  if (t.status output).isSome then (t.remove output).bind (pruneParents output.dropLast.reverse)
  else some t

/-- How `apply_rules` adds an output: its placeholder, with every directory on the way there. -/
def addOutput (t : InMemoryDirectoryTree) (output : Path) (file : File) :
    Option InMemoryDirectoryTree :=
  (t.ensureParentDirectories output file.mtime).bind fun t => t.writeFile output file

end InMemoryDirectoryTree

/-- A path in normal form: of components that are names. -/
def NormalPath (path : Path) : Prop := ∀ part ∈ path, part ≠ [] ∧ part ≠ ['.'] ∧ part ≠ ['.', '.']

instance (path : Path) : Decidable (NormalPath path) :=
  inferInstanceAs (Decidable (∀ part ∈ path, part ≠ [] ∧ part ≠ ['.'] ∧ part ≠ ['.', '.']))

theorem NormalPath.of_prefix {path other : Path} (h : NormalPath path) (hpre : other <+: path) :
    NormalPath other :=
  fun part hmem => h part (hpre.subset hmem)

theorem foldl_normalPart {path : Path} (h : NormalPath path) (normal : List Name) :
    path.foldl normalPart normal = path.reverse ++ normal := by
  induction path generalizing normal with
  | nil => rfl
  | cons part path ih =>
    obtain ⟨⟨_, hdot, hdots⟩, hrest⟩ := List.forall_mem_cons.mp h
    have hpart : normalPart normal part = part :: normal := by
      unfold normalPart
      rw [if_neg hdot, if_neg hdots]
    rw [List.foldl_cons, hpart, ih hrest]
    simp

theorem lexicallyNormal_normal {path : Path} (h : NormalPath path) :
    lexicallyNormal path = path := by
  unfold lexicallyNormal
  rw [foldl_normalPart h, List.append_nil, List.reverse_reverse]

theorem normalize_normal {path : Path} (h : NormalPath path) : normalize path = some path := by
  unfold normalize
  rw [lexicallyNormal_normal h]
  refine if_neg fun hhead => ?_
  exact (h _ (List.mem_of_head? hhead)).2.2 rfl

/-- Whether a directory is on the way to an output. -/
def Above (directory output : Path) : Prop := directory <+: output ∧ directory ≠ output

theorem above_iff {directory output : Path} (h : output ≠ []) :
    Above directory output ↔ directory <+: output.dropLast := by
  constructor
  · rintro ⟨⟨rest, rfl⟩, hne⟩
    have hrest : rest ≠ [] := by
      rintro rfl
      simp at hne
    exact ⟨rest.dropLast, (List.dropLast_append_of_ne_nil hrest).symm⟩
  · intro hpre
    refine ⟨hpre.trans (List.dropLast_prefix output), ?_⟩
    rintro rfl
    have hlen := hpre.length_le
    rw [List.length_dropLast] at hlen
    have := List.length_pos_iff.mpr h
    omega

theorem Above.of_prefix {directory other output : Path} (h : Above directory output)
    (hpre : other <+: directory) : Above other output := by
  refine ⟨hpre.trans h.1, ?_⟩
  rintro rfl
  exact h.2 (hpre.eq_of_length_le h.1.length_le).symm

/-- A directory is above an output if that is in it, or the next directory on the way is. -/
theorem Above.child {directory output : Path} (h : Above directory output) :
    ∃ part, directory ++ [part] <+: output := by
  obtain ⟨⟨rest, rfl⟩, hne⟩ := h
  cases rest with
  | nil => simp at hne
  | cons part rest => exact ⟨part, rest, by simp⟩

theorem isWithin_iff {entry directory : Path} :
    isWithin entry directory = true ↔ Above directory entry := by
  unfold isWithin Above
  rw [Bool.and_eq_true, List.isPrefixOf_iff_prefix, decide_eq_true_eq]
  refine and_congr_right fun hpre => ⟨fun hlt heq => ?_, fun hne => ?_⟩
  · rw [heq] at hlt
    exact Nat.lt_irrefl _ hlt
  · refine Nat.lt_of_le_of_ne hpre.length_le fun heq => hne ?_
    exact hpre.eq_of_length heq

/-- Outputs that can be laid out together: names in normal form, none of them above another. -/
structure Layable (outputs : Path → Prop) : Prop where
  normal : ∀ o, outputs o → NormalPath o ∧ o ≠ []
  free : ∀ o o', outputs o → outputs o' → o <+: o' → o = o'

theorem Layable.of_subset {outputs outputs' : Path → Prop} (h : Layable outputs)
    (hsub : ∀ o, outputs' o → outputs o) : Layable outputs' :=
  ⟨fun o ho => h.normal o (hsub o ho), fun o o' ho ho' => h.free o o' (hsub o ho) (hsub o' ho')⟩

theorem Layable.not_above {outputs : Path → Prop} (h : Layable outputs) {o o' : Path}
    (ho : outputs o) (ho' : outputs o') : ¬Above o o' :=
  fun habove => habove.2 (h.free o o' ho ho' habove.1)

/-- Whether there is a file at a path. -/
def Laid (files : Path → Option File) (output : Path) : Prop := (files output).isSome = true

/-- The directories there are to be: the root, and those on the way to a file. -/
def Ancestor (files : Path → Option File) (path : Path) : Prop :=
  path = [] ∨ ∃ output, Laid files output ∧ Above path output

theorem Ancestor.of_prefix {files : Path → Option File} {path other : Path}
    (h : Ancestor files path) (hpre : other <+: path) : Ancestor files other := by
  obtain rfl | ⟨output, hlaid, habove⟩ := h
  · exact .inl (List.prefix_nil.mp hpre)
  · exact .inr ⟨output, hlaid, habove.of_prefix hpre⟩

namespace InMemoryDirectoryTree

variable {t : InMemoryDirectoryTree} {path other output : Path} {files : Path → Option File}

theorem find_insert (t : InMemoryDirectoryTree) (path other : Path) (node : Node) :
    (t.insert path node).find other = if other = path then some node else t.find other := by
  unfold find insert
  by_cases h : other = path
  · simp [h]
  · rw [if_neg h, List.find?_cons_of_neg (by simpa using Ne.symm h), List.find?_filter]
    congr 2
    funext entry
    by_cases hentry : entry.1 = other
    · simp [hentry, h]
    · simp [hentry]

/-- An entry filtered out by its path is gone, and every other is as it was. -/
theorem find_filter (t : InMemoryDirectoryTree) (keeps : Path → Bool) (other : Path) :
    (InMemoryDirectoryTree.mk (t.entries.filter fun entry => keeps entry.1)).find other =
      if keeps other then t.find other else none := by
  unfold find
  rw [List.find?_filter]
  split
  · next hkeeps =>
    congr 2
    funext entry
    by_cases hentry : entry.1 = other
    · simp [hentry, hkeeps]
    · simp [hentry]
  · next hkeeps =>
    rw [List.find?_eq_none.mpr, Option.map_none]
    intro entry _
    by_cases hentry : entry.1 = other
    · simp [hentry, hkeeps]
    · simp [hentry]

theorem find_isSome : (t.find path).isSome ↔ ∃ node, (path, node) ∈ t.entries := by
  unfold find
  rw [Option.isSome_map, List.find?_isSome]
  simp

theorem isDirectory_iff : t.isDirectory path = true ↔ ∃ mtime, t.find path = some (.directory mtime) := by
  unfold isDirectory
  split <;> simp_all

/-- What a listing of a directory has in it. -/
theorem ls_directory (hn : NormalPath path) (hd : t.isDirectory path = true) :
    ∃ children, t.ls path = some children ∧
      (children = [] ↔ ∀ part, t.find (path ++ [part]) = none) := by
  have hls : t.ls path = some ((t.entries.filter fun entry =>
      entry.1 ≠ path && entry.1.dropLast = path).map fun entry =>
        (entry.1.getLastD [], entry.2)) := by
    unfold ls
    rw [normalize_normal hn, Option.bind_some, if_pos hd]
  refine ⟨_, hls, ?_⟩
  rw [List.map_eq_nil_iff, List.filter_eq_nil_iff]
  constructor
  · intro hall part
    by_contra hsome
    obtain ⟨node, hmem⟩ := find_isSome.mp (Option.isSome_iff_ne_none.mpr hsome)
    exact hall _ hmem (by simp)
  · rintro hall ⟨child, node⟩ hmem hchild
    simp only [Bool.and_eq_true, decide_eq_true_eq] at hchild
    obtain ⟨hne, rfl⟩ := hchild
    have hnil : child ≠ [] := by
      rintro rfl
      exact hne rfl
    have hfind := hall (child.getLast hnil)
    rw [List.dropLast_append_getLast hnil] at hfind
    have hsome := find_isSome.mpr ⟨node, hmem⟩
    rw [hfind] at hsome
    simp at hsome

/-- The tree's files are these, with their content, and its directories are those. -/
structure Mirrors (t : InMemoryDirectoryTree) (files : Path → Option File)
    (directories : Path → Prop) : Prop where
  file : ∀ path file, t.find path = some (.file file) ↔ files path = some file
  directory : ∀ path, t.isDirectory path = true ↔ directories path

namespace Mirrors

variable {directories directories' : Path → Prop}

theorem congr (h : Mirrors t files directories) (hd : ∀ path, directories path ↔ directories' path) :
    Mirrors t files directories' :=
  ⟨h.file, fun path => (h.directory path).trans (hd path)⟩

/-- There is an entry at a path only if it is a file or a directory. -/
theorem entry (h : Mirrors t files directories) (path : Path) :
    (t.find path).isSome ↔ Laid files path ∨ directories path := by
  rw [← h.directory, isDirectory_iff]
  constructor
  · intro hsome
    obtain ⟨node, hnode⟩ := Option.isSome_iff_exists.mp hsome
    cases node with
    | file file => exact .inl (by rw [Laid, (h.file path file).mp hnode]; rfl)
    | directory mtime => exact .inr ⟨mtime, hnode⟩
  · rintro (hlaid | ⟨mtime, hmtime⟩)
    · obtain ⟨file, hfile⟩ := Option.isSome_iff_exists.mp hlaid
      rw [(h.file path file).mpr hfile]
      rfl
    · rw [hmtime]
      rfl

theorem not_directory (h : Mirrors t files directories) (hlaid : Laid files path) :
    ¬directories path := by
  obtain ⟨file, hfile⟩ := Option.isSome_iff_exists.mp hlaid
  rw [← h.directory, isDirectory_iff, (h.file path file).mpr hfile]
  rintro ⟨_, heq⟩
  simp at heq

/-- A file goes in where no directory is, beneath one that is there. -/
theorem writeFile (h : Mirrors t files directories) (hn : NormalPath path) (hne : path ≠ [])
    (hparent : directories path.dropLast) (hnot : ¬directories path) (file : File) :
    ∃ t', t.writeFile path file = some t' ∧
      Mirrors t' (Function.update files path (some file)) directories := by
  refine ⟨t.insert path (.file file), ?_, fun other file' => ?_, fun other => ?_⟩
  · unfold InMemoryDirectoryTree.writeFile
    rw [normalize_normal hn, Option.bind_some]
    refine if_pos ⟨hne, (h.directory _).mpr hparent, ?_⟩
    rw [h.directory]
    exact hnot
  · rw [find_insert, Function.update_apply]
    split
    · simp
    · exact h.file other file'
  · rw [isDirectory_iff, find_insert]
    split
    · next heq =>
      subst heq
      simp [hnot]
    · rw [← isDirectory_iff]
      exact h.directory other

/-- A directory goes in where nothing is, beneath one that is there. -/
theorem makeDirectory (h : Mirrors t files directories) (hn : NormalPath path) (hne : path ≠ [])
    (hparent : directories path.dropLast) (hnone : t.find path = none) (mtime : Int64) :
    ∃ t', t.makeDirectory path mtime = some t' ∧
      Mirrors t' files fun other => directories other ∨ other = path := by
  refine ⟨t.insert path (.directory mtime), ?_, fun other file => ?_, fun other => ?_⟩
  · unfold InMemoryDirectoryTree.makeDirectory
    rw [normalize_normal hn, Option.bind_some]
    exact if_pos ⟨hne, (h.directory _).mpr hparent, hnone⟩
  · rw [find_insert]
    split
    · next heq =>
      subst heq
      rw [← h.file, hnone]
      simp
    · exact h.file other file
  · rw [isDirectory_iff, find_insert]
    split
    · next heq => simp [heq]
    · next heq =>
      rw [← isDirectory_iff, h.directory]
      exact ⟨.inl, fun hor => hor.resolve_right heq⟩

/-- What is removed goes alone, where nothing is beneath it. -/
theorem remove (h : Mirrors t files directories) (hn : NormalPath path) (hne : path ≠ [])
    (hentry : Laid files path ∨ directories path)
    (hbeneath : ∀ other, Above path other → ¬(Laid files other ∨ directories other)) :
    ∃ t', t.remove path = some t' ∧ Mirrors t' (Function.update files path none)
      fun other => directories other ∧ other ≠ path := by
  let keeps : Path → Bool := fun other => !(decide (other = path) || isWithin other path)
  have hkeeps : ∀ other, other ≠ path → keeps other = false → t.find other = none := by
    intro other hother hnot
    have hwithin : isWithin other path = true := by simpa [keeps, hother] using hnot
    rw [← Option.not_isSome_iff_eq_none, h.entry]
    exact hbeneath other (isWithin_iff.mp hwithin)
  have hfind : ∀ other, other ≠ path →
      (InMemoryDirectoryTree.mk (t.entries.filter fun entry => keeps entry.1)).find other = t.find other := by
    intro other hother
    rw [find_filter]
    split
    · rfl
    · next hnot => exact (hkeeps other hother (by simpa using hnot)).symm
  have hgone : (InMemoryDirectoryTree.mk (t.entries.filter fun entry => keeps entry.1)).find path = none := by
    rw [find_filter, if_neg (by simp [keeps])]
  refine ⟨InMemoryDirectoryTree.mk (t.entries.filter fun entry => keeps entry.1), ?_, fun other file => ?_,
    fun other => ?_⟩
  · unfold InMemoryDirectoryTree.remove
    rw [normalize_normal hn, Option.bind_some]
    exact if_pos ⟨hne, (h.entry path).mpr hentry⟩
  · rw [Function.update_apply]
    split
    · next heq =>
      rw [heq, hgone]
      simp
    · next heq =>
      rw [hfind other heq]
      exact h.file other file
  · by_cases heq : other = path
    · simp [heq, isDirectory_iff, hgone]
    · rw [isDirectory_iff, hfind other heq, ← isDirectory_iff, h.directory]
      simp [heq]

/-- The parents of a file removed go too, as far as nothing else is beneath them. -/
theorem pruneParents {rev : List Name}
    (h : Mirrors t files fun other => Ancestor files other ∨ other <+: rev.reverse)
    (hn : NormalPath rev.reverse) :
    ∃ t', t.pruneParents rev = some t' ∧ Mirrors t' files (Ancestor files) := by
  induction rev generalizing t with
  | nil =>
    refine ⟨t, rfl, h.congr fun other => ⟨?_, .inl⟩⟩
    rintro (hancestor | hnil)
    · exact hancestor
    · exact .inl (List.prefix_nil.mp hnil)
  | cons name rest ih =>
    have hdirectory : t.isDirectory (name :: rest).reverse = true :=
      (h.directory _).mpr (.inr (List.prefix_refl _))
    obtain ⟨children, hls, hempty⟩ := ls_directory hn hdirectory
    have hrest : rest.reverse <+: (name :: rest).reverse := by simp
    by_cases hchildren : children = []
    · -- With nothing left in it, the directory is on the way to no file.
      have hnot : ∀ output, Laid files output → ¬Above (name :: rest).reverse output := by
        intro output hlaid habove
        obtain ⟨part, hpre⟩ := habove.child
        have hnone := hempty.mp hchildren part
        rw [← Option.not_isSome_iff_eq_none, h.entry] at hnone
        by_cases heq : (name :: rest).reverse ++ [part] = output
        · exact hnone (.inl (heq ▸ hlaid))
        · exact hnone (.inr (.inl (.inr ⟨output, hlaid, hpre, heq⟩)))
      obtain ⟨t', hremove, hmirrors⟩ := h.remove hn (by simp) (.inr (.inr (List.prefix_refl _)))
        (by
          rintro other habove (hlaid | (rfl | ⟨output, hlaid, habove'⟩) | hpre)
          · exact hnot other hlaid habove
          · exact habove.2 (List.prefix_nil.mp habove.1)
          · exact hnot output hlaid (habove'.of_prefix habove.1)
          · exact habove.2 (habove.1.eq_of_length_le hpre.length_le))
      have hfile : Function.update files (name :: rest).reverse none = files := by
        refine Function.update_eq_self_iff.mpr ?_
        rw [eq_comm, ← Option.not_isSome_iff_eq_none]
        exact fun hlaid => h.not_directory hlaid (.inr (List.prefix_refl _))
      rw [hfile] at hmirrors
      obtain ⟨t'', hprune, hmirrors'⟩ := ih (hmirrors.congr fun other => by
          rw [List.reverse_cons, List.prefix_concat_iff]
          constructor
          · rintro ⟨hancestor | rfl | hpre, hne⟩
            · exact .inl hancestor
            · exact absurd rfl hne
            · exact .inr hpre
          · rintro (hancestor | hpre)
            · refine ⟨.inl hancestor, ?_⟩
              rintro rfl
              obtain hnil | ⟨output, hlaid, habove⟩ := hancestor
              · simp at hnil
              · exact hnot output hlaid (by rw [List.reverse_cons]; exact habove)
            · refine ⟨.inr (.inr hpre), ?_⟩
              rintro rfl
              have hlen := hpre.length_le
              rw [List.length_append, List.length_singleton, List.length_reverse] at hlen
              exact absurd hlen (by omega))
        (hn.of_prefix hrest)
      refine ⟨t'', ?_, hmirrors'⟩
      unfold InMemoryDirectoryTree.pruneParents
      simp only [hls, hchildren, hremove, Option.bind_some, hprune]
    · -- What is left in it keeps every directory on the way there.
      refine ⟨t, ?_, h.congr fun other => ⟨?_, .inl⟩⟩
      · unfold InMemoryDirectoryTree.pruneParents
        simp only [hls]
        split
        · next heq => exact absurd (Option.some.inj heq) hchildren
        · rfl
      · rintro (hancestor | hpre)
        · exact hancestor
        · rw [hempty] at hchildren
          push Not at hchildren
          obtain ⟨part, hpart⟩ := hchildren
          have hchild := (h.entry _).mp (Option.isSome_iff_ne_none.mpr hpart)
          have habove : Above (name :: rest).reverse ((name :: rest).reverse ++ [part]) :=
            ⟨by simp, by simp⟩
          obtain hlaid | hancestor | hpre := hchild
          · exact .inr ⟨_, hlaid, habove.of_prefix hpre⟩
          · exact hancestor.of_prefix (hpre.trans habove.1)
          · have := hpre.length_le
            simp at this

/-- A file is removed with every directory that leaves empty. -/
theorem removeWithEmptyParents (h : Mirrors t files (Ancestor files)) (hfiles : Layable (Laid files))
    (hlaid : Laid files output) :
    ∃ t', t.removeWithEmptyParents output = some t' ∧
      Mirrors t' (Function.update files output none)
        (Ancestor (Function.update files output none)) := by
  obtain ⟨hn, hne⟩ := hfiles.normal output hlaid
  have hlaid' : ∀ other, Laid (Function.update files output none) other ↔
      Laid files other ∧ other ≠ output := by
    intro other
    unfold Laid
    by_cases heq : other = output
    · simp [heq]
    · simp [heq]
  obtain ⟨t', hremove, hmirrors⟩ := h.remove hn hne (.inl hlaid) (by
    rintro other habove (hother | hnil | ⟨o, ho, habove'⟩)
    · exact hfiles.not_above hlaid hother habove
    · exact habove.2 (List.prefix_nil.mp (hnil ▸ habove.1) ▸ hnil.symm)
    · exact hfiles.not_above hlaid ho (habove'.of_prefix habove.1))
  obtain ⟨t'', hprune, hmirrors'⟩ := @pruneParents _ _ output.dropLast.reverse
    (hmirrors.congr fun other => by
      rw [List.reverse_reverse, ← above_iff hne]
      constructor
      · rintro ⟨hnil | ⟨o, ho, habove⟩, hother⟩
        · exact .inl (.inl hnil)
        · by_cases heq : o = output
          · exact .inr (heq ▸ habove)
          · exact .inl (.inr ⟨o, (hlaid' o).mpr ⟨ho, heq⟩, habove⟩)
      · rintro ((hnil | ⟨o, ho, habove⟩) | habove)
        · exact ⟨.inl hnil, hnil ▸ Ne.symm hne⟩
        · have hold := ((hlaid' o).mp ho).1
          refine ⟨.inr ⟨o, hold, habove⟩, ?_⟩
          rintro rfl
          exact hfiles.not_above hlaid hold habove
        · exact ⟨.inr ⟨output, hlaid, habove⟩, habove.2⟩)
    (by
      rw [List.reverse_reverse]
      exact hn.of_prefix (List.dropLast_prefix output))
  refine ⟨t'', ?_, hmirrors'⟩
  have hstatus : (t.status output).isSome = true := by
    unfold status
    rw [normalize_normal hn, Option.bind_some, h.entry]
    exact .inl hlaid
  unfold InMemoryDirectoryTree.removeWithEmptyParents
  rw [if_pos hstatus, hremove, Option.bind_some, hprune]

/-- Every directory on the way is there in the end, if no file is in the way. -/
theorem ensureFrom (mtime : Int64) {directory : Path} {parts : List Name}
    (h : Mirrors t files fun other => Ancestor files other ∨ other <+: directory)
    (hn : NormalPath (directory ++ parts))
    (hfree : ∀ other, other <+: directory ++ parts → ¬Laid files other) :
    ∃ t', t.ensureFrom mtime directory parts = some t' ∧
      Mirrors t' files fun other => Ancestor files other ∨ other <+: directory ++ parts := by
  induction parts generalizing t directory with
  | nil => exact ⟨t, rfl, by simpa using h⟩
  | cons part parts ih =>
    have happend : directory ++ part :: parts = directory ++ [part] ++ parts := by simp
    rw [happend] at hn hfree
    have hpre : directory ++ [part] <+: directory ++ [part] ++ parts := List.prefix_append _ _
    have hn' := hn.of_prefix hpre
    have hstatus : t.status (directory ++ [part]) = t.find (directory ++ [part]) := by
      unfold status
      rw [normalize_normal hn', Option.bind_some]
    -- After this step the next directory is there too.
    have hstep : ∃ t', (if (t.status (directory ++ [part])).isSome then some t
        else t.makeDirectory (directory ++ [part]) mtime) = some t' ∧
        Mirrors t' files fun other => Ancestor files other ∨ other <+: directory ++ [part] := by
      rw [hstatus]
      split
      · next hsome =>
        refine ⟨t, rfl, h.congr fun other => ?_⟩
        rw [List.prefix_concat_iff]
        refine ⟨Or.imp id .inr, ?_⟩
        rintro (hancestor | rfl | hother)
        · exact .inl hancestor
        · exact ((h.entry _).mp hsome).resolve_left (hfree _ hpre)
        · exact .inr hother
      · next hnone =>
        obtain ⟨t', hmake, hmirrors⟩ := @h.makeDirectory _ (directory ++ [part]) _ _ hn' (by simp)
          (.inr (by simp)) (by simpa using hnone) mtime
        refine ⟨t', hmake, hmirrors.congr fun other => ?_⟩
        rw [List.prefix_concat_iff]
        tauto
    obtain ⟨t', hensured, hmirrors⟩ := hstep
    obtain ⟨t'', hrest, hmirrors'⟩ := ih hmirrors hn hfree
    refine ⟨t'', ?_, by rw [happend]; exact hmirrors'⟩
    unfold InMemoryDirectoryTree.ensureFrom
    dsimp only
    rw [hensured, Option.bind_some, hrest]

/-- An output is added where it can be laid out with the files there are. -/
theorem addOutput (h : Mirrors t files (Ancestor files)) (file : File)
    (hfiles : Layable (Laid (Function.update files output (some file))))
    (hnew : ¬Laid files output) :
    ∃ t', t.addOutput output file = some t' ∧
      Mirrors t' (Function.update files output (some file))
        (Ancestor (Function.update files output (some file))) := by
  have hlaid : ∀ other, Laid (Function.update files output (some file)) other ↔
      Laid files other ∨ other = output := by
    intro other
    unfold Laid
    by_cases heq : other = output
    · simp [heq]
    · simp [heq]
  have hself := (hlaid output).mpr (.inr rfl)
  obtain ⟨hn, hne⟩ := hfiles.normal output hself
  obtain ⟨t', hensure, hmirrors⟩ := @ensureFrom t files file.mtime [] output.dropLast
    (h.congr fun other => ⟨.inl, fun hor => hor.elim id fun hnil =>
      .inl (List.prefix_nil.mp hnil)⟩)
    (by simpa using hn.of_prefix (List.dropLast_prefix output))
    (by
      intro other hpre hother
      rw [List.nil_append, ← above_iff hne] at hpre
      exact hfiles.not_above ((hlaid other).mpr (.inl hother)) hself hpre)
  rw [List.nil_append] at hmirrors
  have hnot : ¬(Ancestor files output ∨ output <+: output.dropLast) := by
    rintro ((hnil | ⟨o, ho, habove⟩) | hpre)
    · exact hne hnil
    · exact hfiles.not_above hself ((hlaid o).mpr (.inl ho)) habove
    · exact ((above_iff hne).mpr hpre).2 rfl
  obtain ⟨t'', hwrite, hmirrors'⟩ := hmirrors.writeFile hn hne (.inr (List.prefix_refl _)) hnot file
  refine ⟨t'', ?_, hmirrors'.congr fun other => ?_⟩
  · unfold InMemoryDirectoryTree.addOutput ensureParentDirectories
    rw [hensure, Option.bind_some, hwrite]
  · rw [← above_iff hne]
    constructor
    · rintro ((hnil | ⟨o, ho, habove⟩) | habove)
      · exact .inl hnil
      · exact .inr ⟨o, (hlaid o).mpr (.inl ho), habove⟩
      · exact .inr ⟨output, hself, habove⟩
    · rintro (hnil | ⟨o, ho, habove⟩)
      · exact .inl (.inl hnil)
      · obtain ho | rfl := (hlaid o).mp ho
        · exact .inl (.inr ⟨o, ho, habove⟩)
        · exact .inr habove

/-- A file there is is written over. -/
theorem rewrite (h : Mirrors t files (Ancestor files)) (hfiles : Layable (Laid files)) (file : File)
    (hlaid : Laid files output) :
    ∃ t', t.writeFile output file = some t' ∧
      Mirrors t' (Function.update files output (some file))
        (Ancestor (Function.update files output (some file))) := by
  obtain ⟨hn, hne⟩ := hfiles.normal output hlaid
  obtain ⟨t', hwrite, hmirrors⟩ := h.writeFile hn hne
    (.inr ⟨output, hlaid, (above_iff hne).mpr (List.prefix_refl _)⟩) (h.not_directory hlaid) file
  have hsame : ∀ other, Laid (Function.update files output (some file)) other ↔ Laid files other := by
    intro other
    unfold Laid at hlaid ⊢
    by_cases heq : other = output
    · simp [heq, hlaid]
    · simp [heq]
  refine ⟨t', hwrite, hmirrors.congr fun other => ?_⟩
  unfold Ancestor
  simp only [hsame]

end Mirrors

end InMemoryDirectoryTree

end MakeBelieve.Tree
