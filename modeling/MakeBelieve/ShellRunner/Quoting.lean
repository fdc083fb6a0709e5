import MakeBelieve.ShellRunner.Text

namespace MakeBelieve.ShellRunner

variable {platform : Platform} {mountRoot mountpoint command text : List Char}
  {quote : Option Quote} {part : List Char}

/-- The quotes that what comes after a text is in, as its quote characters have it. -/
def scan (quote : Option Quote) (text : List Char) : Option Quote := text.foldl nextQuote quote

theorem scan_append (front rest : List Char) :
    scan quote (front ++ rest) = scan (scan quote front) rest := List.foldl_append

theorem nextQuote_of_not_endsPath {c : Char} (h : endsPath quote c = false) :
    nextQuote quote c = quote := by
  cases quote with
  | none =>
    have hdouble : c ≠ '"' := by
      rintro rfl
      exact absurd h (by decide)
    have hsingle : c ≠ '\'' := by
      rintro rfl
      exact absurd h (by decide)
    unfold nextQuote
    dsimp only
    rw [if_neg hdouble, if_neg hsingle]
  | some open' =>
    unfold endsPath at h
    unfold nextQuote
    dsimp only
    exact if_neg (of_decide_eq_false h)

theorem scan_of_not_endsPath (h : ∀ c ∈ text, endsPath quote c = false) :
    scan quote text = quote := by
  induction text with
  | nil => rfl
  | cons c text ih =>
    obtain ⟨hc, htext⟩ := List.forall_mem_cons.mp h
    unfold scan
    rw [List.foldl_cons, nextQuote_of_not_endsPath hc]
    exact ih htext

/-- Neither quote character. -/
def Bare (text : List Char) : Prop := '"' ∉ text ∧ '\'' ∉ text

theorem Bare.ne_char (h : Bare text) {c : Char} (hc : c ∈ text) (open' : Quote) :
    c ≠ open'.char := by
  cases open' with
  | single =>
    rintro rfl
    exact h.2 hc
  | double =>
    rintro rfl
    exact h.1 hc

theorem endsPath_some {c : Char} {open' : Quote} (h : c ≠ open'.char) :
    endsPath (some open') c = false := decide_eq_false h

theorem separator_ne_char (open' : Quote) : platform.separator ≠ open'.char := by
  cases platform with
  | posix =>
    cases open' with
    | single => decide
    | double => decide
  | windows =>
    cases open' with
    | single => decide
    | double => decide

/-- No character of a path closes the quotes it is put in. -/
theorem mem_generatedPath (hroot : Bare mountRoot) {open' : Quote}
    (hpart : ∀ c ∈ part, c ≠ open'.char) :
    ∀ c ∈ generatedPath platform mountRoot part, c ≠ open'.char := by
  intro c hc
  unfold generatedPath at hc
  split at hc
  · exact hroot.ne_char hc open'
  · rcases List.mem_append.mp hc with hc | hc
    · exact hroot.ne_char hc open'
    · rcases List.mem_cons.mp hc with rfl | hc
      · exact separator_ne_char open'
      · obtain ⟨d, hd, rfl⟩ := List.mem_map.mp hc
        split
        · exact separator_ne_char open'
        · exact hpart d hd

/-- The character a path in no quotes is put between. -/
theorem scan_generatedPath (hroot : Bare mountRoot) {open' : Quote}
    (hpart : ∀ c ∈ part, c ≠ open'.char) {start : List Char}
    (hstart : start <+: generatedPath platform mountRoot part) :
    scan (some open') start = some open' := by
  apply scan_of_not_endsPath
  intro c hc
  exact endsPath_some (mem_generatedPath hroot hpart c (hstart.subset hc))

theorem part_ne_char (hpart : ∀ c ∈ part, endsPath quote c = false) :
    ∀ c ∈ part, c ≠ (quote.getD .double).char := by
  intro c hc
  have hends := hpart c hc
  cases quote with
  | none =>
    rintro rfl
    exact absurd hends (by decide)
  | some open' => exact of_decide_eq_false hends

theorem scan_expansion (hroot : Bare mountRoot) (hpart : ∀ c ∈ part, endsPath quote c = false) :
    scan quote (expansion platform mountRoot quote part) = quote := by
  have hne := part_ne_char hpart
  cases quote with
  | none =>
    have hinside : scan (some .double) (generatedPath platform mountRoot part) = some .double :=
      scan_generatedPath hroot hne (List.prefix_refl _)
    change scan none (['"'] ++ generatedPath platform mountRoot part ++ ['"']) = none
    rw [scan_append, scan_append]
    change scan (scan (some .double) (generatedPath platform mountRoot part)) ['"'] = none
    rw [hinside]
    rfl
  | some open' =>
    unfold expansion
    rw [if_pos (by simp)]
    exact scan_generatedPath hroot hne (List.prefix_refl _)

theorem scan_path_source (hpart : ∀ c ∈ part, endsPath quote c = false) :
    scan quote (Piece.path quote part).source = quote := by
  apply scan_of_not_endsPath
  intro c hc
  rcases List.mem_cons.mp hc with rfl | hc
  · cases quote with
    | none => decide
    | some open' => cases open' <;> decide
  · rcases List.mem_cons.mp hc with rfl | hc
    · cases quote with
      | none => decide
      | some open' => cases open' <;> decide
    · exact hpart c hc

theorem not_endsPath_of_mem_takeWhile {c : Char}
    (hc : c ∈ text.takeWhile fun c => !endsPath quote c) : endsPath quote c = false := by
  have hpass := List.mem_takeWhile_imp hc
  simpa using hpass

/-- Up to any piece the quotes are the same in the command and in what comes of it, and a path is in
those it says. -/
theorem scan_pieces (hroot : Bare mountRoot) (quote : Option Quote) (command : List Char)
    {before after : List Piece} {piece : Piece}
    (hpieces : pieces quote command = before ++ piece :: after) :
    scan quote (expanded platform mountRoot before) = scan quote (source before) ∧
      ∀ inside part, piece = .path inside part → inside = scan quote (source before) ∧
        ∀ c ∈ part, endsPath inside c = false := by
  induction quote, command using pieces.induct generalizing before with
  | case1 quote rest ih =>
    rw [pieces] at hpieces
    have hpart : ∀ c ∈ rest.takeWhile fun c => !endsPath quote c, endsPath quote c = false :=
      fun _ hc => not_endsPath_of_mem_takeWhile hc
    cases before with
    | nil =>
      cases hpieces
      refine ⟨rfl, ?_⟩
      intro inside part heq
      cases heq
      exact ⟨rfl, hpart⟩
    | cons first before =>
      obtain ⟨hfirst, hrest⟩ := List.cons.inj hpieces
      obtain ⟨hsame, hpath⟩ := ih hrest
      have hsource : scan quote (source (first :: before)) = scan quote (source before) := by
        rw [source, List.flatMap_cons, scan_append, ← hfirst, scan_path_source hpart]
        rfl
      have hexpanded : scan quote (expanded platform mountRoot (first :: before)) =
          scan quote (expanded platform mountRoot before) := by
        rw [expanded, List.flatMap_cons, scan_append, ← hfirst]
        have hpath := @scan_expansion platform mountRoot quote _ hroot hpart
        unfold Piece.expanded
        rw [hpath]
        rfl
      rw [hsource, hexpanded]
      exact ⟨hsame, hpath⟩
  | case2 quote c rest hnot ih =>
    rw [pieces] at hpieces
    · cases before with
      | nil =>
        cases hpieces
        refine ⟨rfl, ?_⟩
        intro inside part heq
        cases heq
      | cons first before =>
        obtain ⟨hfirst, hrest⟩ := List.cons.inj hpieces
        obtain ⟨hsame, hpath⟩ := ih hrest
        subst hfirst
        exact ⟨hsame, hpath⟩
    · exact hnot
  | case3 =>
    rw [pieces] at hpieces
    simp at hpieces

/-! ### The mountpoint -/

theorem mem_parentPath {c : Char} (hc : c ∈ platform.parentPath mountpoint) : c ∈ mountpoint := by
  unfold Platform.parentPath at hc
  rcases List.mem_append.mp hc with hc | hc
  · unfold Platform.rootPath at hc
    rcases List.mem_append.mp hc with hc | hc
    · exact List.mem_of_mem_take hc
    · exact List.mem_of_mem_drop ((List.takeWhile_sublist _).mem hc)
  · have hrelative : c ∈ platform.relativePath mountpoint :=
      ((List.rdropWhile_prefix _ _).trans (List.rdropWhile_prefix _ _)).subset hc
    exact List.mem_of_mem_drop ((List.dropWhile_sublist _).mem hrelative)

theorem Bare.root (h : Bare mountpoint) : Bare (root platform mountpoint) := by
  unfold ShellRunner.root
  split
  · exact h
  · constructor
    · intro hc
      exact h.1 (mem_parentPath hc)
    · intro hc
      exact h.2 (mem_parentPath hc)

theorem expandFrom_unchanged (hnot : ¬['@', '/'] <:+: command) :
    expandFrom platform mountRoot quote command = command := by
  induction quote, command using pieces.induct with
  | case1 quote rest =>
    exact absurd (List.prefix_append ['@', '/'] rest).isInfix hnot
  | case2 quote c rest hfirst ih =>
    rw [expandFrom, ih]
    · intro hinfix
      exact hnot (List.infix_cons hinfix)
    · exact hfirst
  | case3 => rw [expandFrom]

/-- A text lies within one quoted region of what it comes after. -/
def Within (before text : List Char) (open' : Quote) : Prop :=
  ∀ start, start <+: text → scan none (before ++ start) = some open'

/-- What comes of a command is what comes of its pieces, one after the other: a character is in the
quotes it was in, and a path within quotes of its own, or within those it was in. Where there is no
path nothing changes. -/
theorem expandGenerated_quoting (hmountpoint : Bare mountpoint) :
    source (pieces none command) = command ∧
    expandGenerated platform command mountpoint =
      expanded platform (root platform mountpoint) (pieces none command) ∧
    (∀ before piece after, pieces none command = before ++ piece :: after →
      scan none (expanded platform (root platform mountpoint) before) = scan none (source before) ∧
      ∀ inside part, piece = .path inside part →
        let path := generatedPath platform (root platform mountpoint) part
        let front := expanded platform (root platform mountpoint) before
        inside = scan none (source before) ∧
        match inside with
        | none => piece.expanded platform (root platform mountpoint) = quoted path ∧
            Within (front ++ ['"']) path .double
        | some open' => piece.expanded platform (root platform mountpoint) = path ∧
            Within front path open') ∧
    (¬['@', '/'] <:+: command → expandGenerated platform command mountpoint = command) := by
  have hroot : Bare (root platform mountpoint) := hmountpoint.root
  refine ⟨source_pieces none command, (expanded_pieces none command).symm, ?_,
    expandFrom_unchanged⟩
  intro before piece after hpieces
  obtain ⟨hsame, hpath⟩ := @scan_pieces platform _ hroot none command _ _ _ hpieces
  refine ⟨hsame, ?_⟩
  intro inside part heq
  obtain ⟨hinside, hpart⟩ := hpath inside part heq
  have hne := part_ne_char hpart
  refine ⟨hinside, ?_⟩
  rw [← hsame] at hinside
  cases inside with
  | none =>
    subst heq
    refine ⟨rfl, ?_⟩
    intro start hstart
    rw [scan_append, scan_append, ← hinside]
    exact scan_generatedPath hroot hne hstart
  | some open' =>
    subst heq
    refine ⟨rfl, ?_⟩
    intro start hstart
    rw [scan_append, ← hinside]
    exact scan_generatedPath hroot hne hstart

theorem expandGenerated_quoting_within :
    pieces none "echo '@/a b'".toList = ("echo '".toList.map .char) ++
        [.path (some .single) "a b".toList, .char '\''] ∧
      Within "echo '".toList "/mnt/a b".toList .single := by
  have hpieces : pieces none "echo '@/a b'".toList = ("echo '".toList.map .char) ++
      .path (some .single) "a b".toList :: [.char '\''] := by
    simp [pieces, nextQuote, endsPath, Quote.char]
  refine ⟨hpieces, ?_⟩
  have hmountpoint : Bare "/mnt/".toList := by
    constructor <;> decide
  obtain ⟨-, -, hquoting, -⟩ := @expandGenerated_quoting .posix "/mnt/".toList
    "echo '@/a b'".toList hmountpoint
  exact ((hquoting _ _ _ hpieces).2 _ _ rfl).2.2

end MakeBelieve.ShellRunner
