import MakeBelieve.ShellRunner.Text

namespace MakeBelieve.ShellRunner

open Library

variable {platform : Platform} {mountRoot command outPath : List Char} {quote : Option Quote}

/-- A command with each `%out` and each `@/` path replaced at once. -/
def replaceAtOnce (platform : Platform) (mountRoot outPath : List Char) :
    Option Quote → List Char → List Char
  | quote, '@' :: '/' :: rest =>
    expansion platform mountRoot quote (rest.takeWhile fun c => !endsPath quote c) ++
      replaceAtOnce platform mountRoot outPath quote (rest.dropWhile fun c => !endsPath quote c)
  | quote, '%' :: 'o' :: 'u' :: 't' :: rest =>
    quoted outPath ++ replaceAtOnce platform mountRoot outPath quote rest
  | quote, c :: rest => c :: replaceAtOnce platform mountRoot outPath (nextQuote quote c) rest
  | _, [] => []
termination_by _ command => command.length
decreasing_by
  · have hle := length_dropWhile_le (fun c => !endsPath quote c) rest
    simp only [List.length_cons]
    omega
  · simp only [List.length_cons]
    omega
  · exact Nat.lt_succ_self _

/-- `%out` is spelled where there was none: in the mountpoint, or across the beginning of a path that
stands in quotes. -/
def Spells (mountRoot before : List Char) (quote : Option Quote) : Prop :=
  outPlaceholder <:+: mountRoot ∨
    quote ≠ none ∧ ∃ start rest, start ++ rest = outPlaceholder ∧ start ≠ [] ∧ rest ≠ [] ∧
      start <:+ before ∧ rest <+: mountRoot

/-- What comes of pieces, with each `%out` marked that is the command's own. -/
def marked (platform : Platform) (mountRoot : List Char) : List Piece → List (Char × Bool)
  | [] => []
  | .char c :: rest =>
    (c, decide (outPlaceholder <+: c :: source rest)) :: marked platform mountRoot rest
  | .path quote part :: rest =>
    (expansion platform mountRoot quote part).map (fun c => (c, false)) ++
      marked platform mountRoot rest

theorem endsPath_of_mem {c : Char} (hc : c ∈ outPlaceholder) : endsPath quote c = false := by
  simp only [outPlaceholder, List.mem_cons, List.not_mem_nil, or_false] at hc
  cases quote with
  | none => rcases hc with rfl | rfl | rfl | rfl <;> decide
  | some open' => cases open' <;> rcases hc with rfl | rfl | rfl | rfl <;> decide

theorem at_notMem : '@' ∉ outPlaceholder := by decide

theorem double_notMem : '"' ∉ outPlaceholder := by decide

theorem separator_notMem : platform.separator ∉ outPlaceholder := by
  cases platform <;> decide

theorem char_notMem (open' : Quote) : open'.char ∉ outPlaceholder := by
  cases open' <;> decide

theorem map_fst_marked (pieces : List Piece) :
    (marked platform mountRoot pieces).map Prod.fst = expanded platform mountRoot pieces := by
  induction pieces with
  | nil => rfl
  | cons piece pieces ih =>
    cases piece with
    | char c =>
      rw [marked, List.map_cons, ih]
      rfl
    | path quote part =>
      have hpath : ((expansion platform mountRoot quote part).map fun c => (c, false)).map
          Prod.fst = expansion platform mountRoot quote part := by
        rw [List.map_map]
        exact List.map_id _
      rw [marked, List.map_append, ih, hpath]
      rfl

/-- A text that holds no path comes through as it is. -/
theorem prefix_expanded_of_prefix_source {word : List Char} (hword : '@' ∉ word)
    {pieces : List Piece} (h : word <+: source pieces) :
    word <+: expanded platform mountRoot pieces := by
  induction pieces generalizing word with
  | nil => exact h
  | cons piece pieces ih =>
    cases word with
    | nil => exact List.nil_prefix
    | cons letter word =>
      cases piece with
      | char c =>
        obtain ⟨hletter, hrest⟩ := List.cons_prefix_cons.mp h
        apply List.cons_prefix_cons.mpr
        exact ⟨hletter, ih (fun hmem => hword (List.mem_cons_of_mem _ hmem)) hrest⟩
      | path quote part =>
        obtain ⟨rfl, -⟩ := List.cons_prefix_cons.mp h
        exact absurd List.mem_cons_self hword

theorem marksWords_marked (pieces : List Piece) :
    MarksWords outPlaceholder (marked platform mountRoot pieces) := by
  induction pieces with
  | nil => trivial
  | cons piece pieces ih =>
    cases piece with
    | char c =>
      refine ⟨?_, ih⟩
      intro hmark
      have hsource : outPlaceholder <+: source (.char c :: pieces) := of_decide_eq_true hmark
      rw [map_fst_marked]
      exact prefix_expanded_of_prefix_source at_notMem hsource
    | path quote part =>
      rw [marked, marksWords_append]
      exact ih

theorem nextQuote_of_mem {c : Char} (hc : c ∈ outPlaceholder) : nextQuote quote c = quote := by
  have hends := @endsPath_of_mem quote c hc
  cases quote with
  | none =>
    simp only [outPlaceholder, List.mem_cons, List.not_mem_nil, or_false] at hc
    rcases hc with rfl | rfl | rfl | rfl <;> rfl
  | some open' =>
    unfold nextQuote
    exact if_neg (of_decide_eq_false hends)

theorem pieces_char {c : Char} {rest : List Char} (hc : c ∈ outPlaceholder) :
    pieces quote (c :: rest) = .char c :: pieces quote rest := by
  rw [pieces, nextQuote_of_mem hc]
  rintro rest rfl -
  exact at_notMem hc

/-- Replacing at once is replacing each `%out` that is the command's own in what comes of it. -/
theorem replaceAtOnce_eq (quote : Option Quote) (command : List Char) :
    replaceAtOnce platform mountRoot outPath quote command =
      replaceMarked outPlaceholder (quoted outPath)
        (marked platform mountRoot (pieces quote command)) := by
  induction quote, command using replaceAtOnce.induct with
  | case1 quote rest ih =>
    rw [replaceAtOnce, pieces, marked, replaceMarked_append, ih]
  | case2 quote rest ih =>
    rw [replaceAtOnce, pieces_char (by decide), pieces_char (by decide), pieces_char (by decide),
      pieces_char (by decide), marked, replaceMarked]
    have hmark : outPlaceholder <+: '%' :: source
        (.char 'o' :: .char 'u' :: .char 't' :: pieces quote rest) :=
      List.prefix_append outPlaceholder (source (pieces quote rest))
    rw [if_pos (decide_eq_true hmark), ih]
    rfl
  | case3 quote c rest hnot hout ih =>
    rw [replaceAtOnce, pieces, marked, replaceMarked, if_neg, ih]
    · rw [decide_eq_true_eq, source_pieces]
      intro hbegins
      obtain ⟨more, hmore⟩ := hbegins
      obtain ⟨hc, hrest⟩ := List.cons.inj hmore
      exact hout more hc.symm hrest.symm
    · exact hnot
    · exact hnot
    · exact hout
  | case4 =>
    rw [replaceAtOnce, pieces, marked, replaceMarked]

/-! ### Where `%out` is spelled -/

/-- After a path comes what ends it, or nothing. -/
def Joined : List Piece → Prop
  | [] => True
  | .char _ :: rest => Joined rest
  | .path quote _ :: rest =>
    (rest = [] ∨ ∃ c more, rest = .char c :: more ∧ endsPath quote c = true) ∧ Joined rest

theorem endsPath_at : endsPath quote '@' = false := by
  cases quote with
  | none => decide
  | some open' => cases open' <;> decide

theorem joined_pieces (quote : Option Quote) (command : List Char) :
    Joined (pieces quote command) := by
  induction quote, command using pieces.induct with
  | case1 quote rest ih =>
    rw [pieces]
    refine ⟨?_, ih⟩
    cases hrest : rest.dropWhile fun c => !endsPath quote c with
    | nil =>
      left
      rw [pieces]
    | cons c more =>
      right
      have hends : endsPath quote c = true := by
        have hhead := List.head?_dropWhile_not (fun c => !endsPath quote c) rest
        rw [hrest] at hhead
        simpa using hhead
      refine ⟨c, pieces (nextQuote quote c) more, ?_, hends⟩
      rw [pieces]
      rintro rest rfl -
      rw [endsPath_at] at hends
      exact Bool.false_ne_true hends
  | case2 quote c rest hnot ih =>
    rw [pieces]
    · exact ih
    · exact hnot
  | case3 =>
    rw [pieces]
    trivial

theorem Joined.of_append {before rest : List Piece} (h : Joined (before ++ rest)) : Joined rest := by
  induction before with
  | nil => exact h
  | cons piece before ih =>
    cases piece with
    | char c => exact ih h
    | path quote part => exact ih h.2

theorem source_append (before rest : List Piece) :
    source (before ++ rest) = source before ++ source rest := List.flatMap_append

theorem expanded_append (before rest : List Piece) :
    expanded platform mountRoot (before ++ rest) =
      expanded platform mountRoot before ++ expanded platform mountRoot rest := List.flatMap_append

theorem source_chars (text : List Char) : source (text.map .char) = text := by
  induction text with
  | nil => rfl
  | cons c text ih =>
    rw [List.map_cons, source, List.flatMap_cons, ← source, ih]
    rfl

theorem expanded_chars (text : List Char) :
    expanded platform mountRoot (text.map .char) = text := by
  induction text with
  | nil => rfl
  | cons c text ih =>
    rw [List.map_cons, expanded, List.flatMap_cons, ← expanded, ih]
    rfl

/-- Letters of `%out` at the end of a text, before what does not end a path, are copied ones. -/
theorem exists_chars {start : List Char} (hstart : ∀ c ∈ start, c ∈ outPlaceholder)
    {before rest : List Piece} (hjoined : Joined (before ++ rest)) (hne : rest ≠ [])
    (hrest : ∀ quote c more, rest = .char c :: more → endsPath quote c = false)
    (hsuffix : start <:+ source before) : ∃ front, before = front ++ start.map .char := by
  induction start using List.reverseRecOn generalizing before rest with
  | nil => exact ⟨before, by simp⟩
  | append_singleton start letter ih =>
    rcases List.eq_nil_or_concat before with rfl | ⟨front, piece, rfl⟩
    · exact absurd (List.suffix_nil.mp hsuffix) (by simp)
    · rw [List.concat_eq_append] at hjoined hsuffix ⊢
      rw [List.append_assoc, List.singleton_append] at hjoined
      cases piece with
      | path quote part =>
        rcases hjoined.of_append.1 with hnil | ⟨c, more, hmore, hends⟩
        · exact absurd hnil hne
        · rw [hrest quote c more hmore] at hends
          exact absurd hends Bool.false_ne_true
      | char c =>
        have hsource : source (front ++ [.char c]) = source front ++ [c] := source_append front _
        rw [hsource, List.suffix_concat_iff] at hsuffix
        rcases hsuffix with hnil | ⟨other, hother, hsuffix⟩
        · simp at hnil
        · obtain ⟨rfl, hletter⟩ := List.append_inj' hother rfl
          have hletter : letter = c := by simpa using hletter
          subst hletter
          have hmem := hstart letter (by simp)
          obtain ⟨front', rfl⟩ := ih (fun c hc => hstart c (by simp [hc])) hjoined (by simp)
            (by
              intro quote c more heq
              cases heq
              exact endsPath_of_mem hmem) hsuffix
          exact ⟨front', by simp⟩

/-- After a path in quotes comes the quote character, or nothing. -/
theorem Joined.expanded_eq {open' : Quote} {part : List Char} {after : List Piece}
    (h : Joined (.path (some open') part :: after)) :
    expanded platform mountRoot after = [] ∨
      ∃ more, expanded platform mountRoot after = open'.char :: more := by
  rcases h.1 with rfl | ⟨c, more, rfl, hends⟩
  · exact .inl rfl
  · right
    have hc : c = open'.char := of_decide_eq_true hends
    subst hc
    exact ⟨_, rfl⟩

/-- Letters of `%out` within a path in quotes are not completed after it. -/
theorem Joined.prefix_of_append {open' : Quote} {part word text : List Char} {after : List Piece}
    (h : Joined (.path (some open') part :: after)) (hword : ∀ c ∈ word, c ∈ outPlaceholder)
    (hpre : word <+: text ++ expanded platform mountRoot after) : word <+: text := by
  rcases @Joined.expanded_eq platform mountRoot _ _ _ h with hnil | ⟨more, hmore⟩
  · rw [hnil, List.append_nil] at hpre
    exact hpre
  · rw [hmore] at hpre
    exact prefix_of_append_cons (fun hmem => char_notMem open' (hword _ hmem)) hpre

theorem prefix_of_generatedPath {part word : List Char} (hword : ∀ c ∈ word, c ∈ outPlaceholder)
    (hpre : word <+: generatedPath platform mountRoot part) : word <+: mountRoot := by
  unfold generatedPath at hpre
  split at hpre
  · exact hpre
  · exact prefix_of_append_cons (fun hmem => separator_notMem (hword _ hmem)) hpre

/-- A path spells `%out` only within the mountpoint or within the part that the command has. -/
theorem infix_of_generatedPath {part : List Char} (hpart : ¬outPlaceholder <:+: part)
    (h : outPlaceholder <:+: generatedPath platform mountRoot part) :
    outPlaceholder <:+: mountRoot := by
  unfold generatedPath at h
  split at h
  · exact h
  · rcases infix_of_append_cons separator_notMem h with hroot | hmap
    · exact hroot
    · obtain ⟨word, hinfix, hword⟩ := List.infix_map_iff.mp hmap
      have hsame : ∀ c ∈ word, (if c = '/' then platform.separator else c) = c := by
        intro c hc
        apply if_neg
        rintro rfl
        have hmem : platform.separator ∈ outPlaceholder := by
          rw [hword]
          exact List.mem_map.mpr ⟨'/', hc, if_pos rfl⟩
        exact separator_notMem hmem
      rw [List.map_congr_left hsame, List.map_id'] at hword
      rw [hword] at hpart
      exact absurd hinfix hpart

/-! ### The condition -/

/-- No `%out` begins within what is put for a path, unless the mountpoint spells it. -/
theorem Joined.infix_mountRoot {part tail : List Char} {after : List Piece}
    (h : Joined (.path quote part :: after)) (hpart : ¬outPlaceholder <:+: part)
    (htail : tail <:+ expansion platform mountRoot quote part) (hne : tail ≠ [])
    (hword : outPlaceholder <+: tail ++ expanded platform mountRoot after) :
    outPlaceholder <:+: mountRoot := by
  apply @infix_of_generatedPath platform mountRoot _ hpart
  cases quote with
  | some open' =>
    have hpre : outPlaceholder <+: tail := h.prefix_of_append (fun _ hc => hc) hword
    exact hpre.isInfix.trans htail.isInfix
  | none =>
    -- The quotes it is put in are in no `%out`.
    have hquoted : expansion platform mountRoot none part =
        ('"' :: generatedPath platform mountRoot part) ++ ['"'] := rfl
    rw [hquoted, List.suffix_concat_iff] at htail
    rcases htail with hnil | ⟨front, rfl, hfront⟩
    · exact absurd hnil hne
    · rw [List.append_assoc, List.singleton_append] at hword
      have hpre := prefix_of_append_cons double_notMem hword
      have hinfix : outPlaceholder <:+: [] ++ '"' :: generatedPath platform mountRoot part :=
        hpre.isInfix.trans hfront.isInfix
      rcases infix_of_append_cons double_notMem hinfix with hnil | hpath
      · exact absurd (List.infix_nil.mp hnil) (by decide)
      · exact hpath

/-- Letters of `%out` that come of pieces are the command's, unless a path in quotes has the last of
them from the mountpoint. -/
theorem Joined.prefix_source {word : List Char} (hword : ∀ c ∈ word, c ∈ outPlaceholder)
    {pieces : List Piece} (h : Joined pieces)
    (hpre : word <+: expanded platform mountRoot pieces) :
    word <+: source pieces ∨ ∃ front rest open' part after,
      pieces = front.map .char ++ .path (some open') part :: after ∧ word = front ++ rest ∧
        rest ≠ [] ∧ rest <+: mountRoot := by
  induction pieces generalizing word with
  | nil => exact .inl hpre
  | cons piece pieces ih =>
    cases word with
    | nil => exact .inl List.nil_prefix
    | cons letter word =>
      obtain ⟨hletter, hrest⟩ := List.forall_mem_cons.mp hword
      cases piece with
      | char c =>
        obtain ⟨rfl, hword⟩ := List.cons_prefix_cons.mp hpre
        have hjoined : Joined pieces := h
        rcases ih hrest hjoined hword with hsource | ⟨front, rest, open', part, after, rfl, rfl, hne, hroot⟩
        · exact .inl (List.cons_prefix_cons.mpr ⟨rfl, hsource⟩)
        · exact .inr ⟨letter :: front, rest, open', part, after, rfl, rfl, hne, hroot⟩
      | path quote part =>
        cases quote with
        | none =>
          obtain ⟨rfl, -⟩ := List.cons_prefix_cons.mp hpre
          exact absurd hletter double_notMem
        | some open' =>
          have hpath : letter :: word <+: generatedPath platform mountRoot part :=
            h.prefix_of_append hword hpre
          exact .inr ⟨[], _, open', part, pieces, rfl, rfl, by simp,
            prefix_of_generatedPath hword hpath⟩

theorem allMarked_of_append {before rest : List Piece}
    (h : AllMarked outPlaceholder (marked platform mountRoot (before ++ rest))) :
    AllMarked outPlaceholder (marked platform mountRoot rest) := by
  induction before with
  | nil => exact h
  | cons piece before ih =>
    cases piece with
    | char c => exact ih h.2
    | path quote part =>
      rw [List.cons_append, marked, allMarked_append] at h
      exact ih h.2

theorem prefix_expansion (open' : Quote) (part : List Char) (after : List Piece) :
    mountRoot <+: expanded platform mountRoot (.path (some open') part :: after) := by
  have hpath : mountRoot <+: generatedPath platform mountRoot part := by
    unfold generatedPath
    split
    · exact List.prefix_refl _
    · exact List.prefix_append _ _
  exact hpath.trans (List.prefix_append _ _)

theorem infix_expansion (quote : Option Quote) (part : List Char) :
    mountRoot <:+: expansion platform mountRoot quote part := by
  have hpath : mountRoot <:+: generatedPath platform mountRoot part := by
    unfold generatedPath
    split
    · exact List.infix_refl _
    · exact (List.prefix_append _ _).isInfix
  unfold expansion
  split
  · exact hpath
  · exact List.infix_cons (List.infix_append_of_infix_left hpath)

/-- Where every `%out` is the command's own, no path spells one. -/
theorem not_spells_of_allMarked {before after : List Piece} {part : List Char}
    (hjoined : Joined (before ++ .path quote part :: after))
    (h : AllMarked outPlaceholder (marked platform mountRoot (before ++ .path quote part :: after))) :
    ¬Spells mountRoot (source before) quote := by
  intro hspells
  rcases hspells with hroot | ⟨hquote, start, rest, hword, hstart, hrest, hsuffix, hpre⟩
  · have hinfix := hroot.trans (@infix_expansion platform mountRoot quote part)
    obtain ⟨tail, hbegins, htail⟩ := List.infix_iff_prefix_suffix.mp hinfix
    have hall := allMarked_of_append h
    rw [marked, allMarked_append, map_fst_marked] at hall
    apply hall.1 tail htail
    · rintro rfl
      exact absurd (List.prefix_nil.mp hbegins) (by decide)
    · exact hbegins.trans (List.prefix_append _ _)
  · obtain ⟨open', rfl⟩ := Option.ne_none_iff_exists'.mp hquote
    have hletters : ∀ c ∈ start, c ∈ outPlaceholder := by
      intro c hc
      rw [← hword]
      exact List.mem_append_left _ hc
    obtain ⟨front, rfl⟩ := exists_chars hletters hjoined (by simp)
      (by
        intro quote c more heq
        cases heq) hsuffix
    cases start with
    | nil => exact hstart rfl
    | cons letter start =>
      rw [List.append_assoc] at h
      have hall := allMarked_of_append h
      have hbegins : outPlaceholder <+: letter :: expanded platform mountRoot
          (start.map .char ++ .path (some open') part :: after) := by
        rw [expanded_append, expanded_chars, ← hword, List.cons_append, List.cons_prefix_cons,
          List.prefix_append_right_inj]
        exact ⟨rfl, hpre.trans (prefix_expansion open' part after)⟩
      have hmark := hall.1 (by rw [List.cons_append] at *; rw [map_fst_marked]; exact hbegins)
      have hsource : outPlaceholder <+: letter :: source
          (start.map .char ++ .path (some open') part :: after) := of_decide_eq_true hmark
      rw [source_append, source_chars, ← hword, List.cons_append, List.cons_prefix_cons,
        List.prefix_append_right_inj] at hsource
      cases rest with
      | nil => exact hrest rfl
      | cons other rest =>
        obtain ⟨rfl, -⟩ := List.cons_prefix_cons.mp hsource.2
        apply at_notMem
        rw [← hword]
        exact List.mem_append_right _ List.mem_cons_self

/-- Where no path spells one, every `%out` is the command's own. -/
theorem Joined.allMarked {all : List Piece} (hjoined : Joined all)
    (hparts : ∀ quote part, .path quote part ∈ all → ¬outPlaceholder <:+: part)
    (hclear : ∀ before quote part after, all = before ++ .path quote part :: after →
      ¬Spells mountRoot (source before) quote) {before rest : List Piece}
    (hall : all = before ++ rest) :
    AllMarked outPlaceholder (marked platform mountRoot rest) := by
  induction rest generalizing before with
  | nil => trivial
  | cons piece rest ih =>
    have hrest := @ih (before ++ [piece]) (by simpa using hall)
    rw [hall] at hjoined
    have hjoined := hjoined.of_append
    cases piece with
    | char c =>
      refine ⟨?_, hrest⟩
      intro hbegins
      rw [map_fst_marked] at hbegins
      obtain ⟨hc, hletters⟩ := List.cons_prefix_cons.mp hbegins
      apply decide_eq_true
      apply List.cons_prefix_cons.mpr
      refine ⟨hc, ?_⟩
      have hjoined : Joined rest := hjoined
      rcases hjoined.prefix_source (fun _ hc => List.mem_cons_of_mem _ hc) hletters with
        hsource | ⟨front, tail, open', part, after, rfl, hword, hne, hroot⟩
      · exact hsource
      · -- The path completes the letters that come before it.
        exfalso
        apply hclear (before ++ .char c :: front.map .char) (some open') part after
        · rw [hall]
          simp
        · refine .inr ⟨by simp, c :: front, tail, ?_, by simp, hne, ?_, hroot⟩
          · rw [List.cons_append, ← hword, ← hc]
            rfl
          · have hsource : source (before ++ .char c :: front.map .char) =
                source before ++ c :: front := by
              rw [source_append]
              exact congrArg (fun text => source before ++ c :: text) (source_chars front)
            rw [hsource]
            exact List.suffix_append _ _
    | path quote part =>
      rw [marked, allMarked_append, map_fst_marked]
      refine ⟨?_, hrest⟩
      intro tail htail hne hword
      have hpart : ¬outPlaceholder <:+: part := hparts quote part (by simp [hall])
      exact hclear before quote part rest hall
        (.inl (hjoined.infix_mountRoot hpart htail hne hword))

/-- For a command with no `%out` in its paths, what is run is the command with each `%out` and each
path replaced at once, exactly if no path spells a `%out` of its own. -/
theorem shellText_replaced_at_once {mountpoint : List Char}
    (hparts : ∀ quote part, .path quote part ∈ pieces none command → ¬outPlaceholder <:+: part) :
    shellText platform .run command mountpoint outPath =
        replaceAtOnce platform (root platform mountpoint) outPath none command ↔
      ∀ before quote part after, pieces none command = before ++ .path quote part :: after →
        ¬Spells (root platform mountpoint) (source before) quote := by
  have hjoined := joined_pieces none command
  have htext : shellText platform .run command mountpoint outPath =
      replaceAll outPlaceholder (quoted outPath) ((marked platform (root platform mountpoint)
        (pieces none command)).map Prod.fst) := by
    rw [map_fst_marked, expanded_pieces]
    rfl
  rw [htext, replaceAtOnce_eq]
  have hmarks := @marksWords_marked platform (root platform mountpoint) (pieces none command)
  have hreplaced := @replaceAll_eq_replaceMarked _ _ '%' '"' ['o', 'u', 't'] (outPath ++ ['"'])
    (by decide) (by decide) _ hmarks
  apply hreplaced.trans
  constructor
  · intro hall before quote part after hpieces
    rw [hpieces] at hall hjoined
    exact not_spells_of_allMarked hjoined hall
  · intro hclear
    exact hjoined.allMarked hparts hclear (List.nil_append _).symm

/-- A mountpoint that has no `%out` and begins with none of its letters spells none. -/
theorem not_spells {before : List Char} (hroot : ¬outPlaceholder <:+: mountRoot)
    (hfirst : ∀ c, mountRoot.head? = some c → c ∉ outPlaceholder) :
    ¬Spells mountRoot before quote := by
  intro hspells
  rcases hspells with hinfix | ⟨-, start, rest, hword, -, hrest, -, hpre⟩
  · exact hroot hinfix
  · cases rest with
    | nil => exact hrest rfl
    | cons c rest =>
      apply hfirst c
      · obtain ⟨more, rfl⟩ := hpre
        rfl
      · rw [← hword]
        exact List.mem_append_right _ List.mem_cons_self

/-- `@/a>%out` -/
def made : List Char := ['@', '/', 'a', '>', '%', 'o', 'u', 't']

theorem pieces_made : pieces none made =
    [.path none ['a'], .char '>', .char '%', .char 'o', .char 'u', .char 't'] := by
  simp [made, pieces, nextQuote, endsPath, isSpace, wordEnders]

theorem made_parts {quote : Option Quote} {part : List Char}
    (h : .path quote part ∈ pieces none made) : ¬outPlaceholder <:+: part := by
  rw [pieces_made] at h
  obtain ⟨-, rfl⟩ : quote = none ∧ part = ['a'] := by simpa using h
  decide

theorem shellText_replaced_at_once_made :
    shellText .posix .run made ['/', 'm', '/'] ['/', 'x'] =
      ['"', '/', 'm', '/', 'a', '"', '>', '"', '/', 'x', '"'] := by
  have hreplaced := (@shellText_replaced_at_once .posix made ['/', 'x'] ['/', 'm', '/']
    fun _ _ => made_parts).mpr (by
      intro before quote part after _
      apply not_spells
      · decide
      · intro c hc
        cases hc
        decide)
  rw [hreplaced]
  have hroot : root .posix ['/', 'm', '/'] = ['/', 'm'] := by decide
  simp [hroot, made, replaceAtOnce, expansion, quoted, generatedPath, endsPath, isSpace,
    wordEnders, Platform.separator]

/-- Where the mountpoint is `/%out`. -/
theorem shellText_replaced_twice :
    ¬∀ (platform : Platform) (command mountpoint outPath : List Char),
      (∀ quote part, .path quote part ∈ pieces none command → ¬outPlaceholder <:+: part) →
      shellText platform .run command mountpoint outPath =
        replaceAtOnce platform (root platform mountpoint) outPath none command := by
  intro h
  have heq := h .posix made ['/', '%', 'o', 'u', 't'] ['/', 'x'] fun _ _ => made_parts
  revert heq
  decide +kernel

end MakeBelieve.ShellRunner
