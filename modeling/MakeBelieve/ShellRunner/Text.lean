import Mathlib.Data.List.DropRight
import MakeBelieve.Library.Replace
import MakeBelieve.Tree.State

namespace MakeBelieve.ShellRunner

open Library
open MakeBelieve.Tree (Action)

/-- What the native form of a path is. -/
inductive Platform
  | posix
  | windows
  deriving DecidableEq

namespace Platform

/-- `preferred_separator` -/
def separator : Platform → Char
  | posix => '/'
  | windows => '\\'

def isSeparator : Platform → Char → Bool
  | posix, c => c = '/'
  | windows, c => c = '/' || c = '\\'

/-- How much of a path its root name is: a drive, a device or a server. -/
def rootNameLength : Platform → List Char → Nat
  | posix, _ => 0
  | windows, path =>
    let slash (i : Nat) := path[i]?.any windows.isSeparator
    if path.head?.any Char.isAlpha ∧ path[1]? = some ':' then 2
    else if slash 0 ∧ slash 3 ∧ ¬slash 4 ∧
        (slash 1 ∧ (path[2]? = some '?' ∨ path[2]? = some '.') ∨
          path[1]? = some '?' ∧ path[2]? = some '?') then 3
    else if slash 0 ∧ slash 1 ∧ path[2]?.isSome ∧ ¬slash 2 then
      3 + ((path.drop 3).takeWhile fun c => !windows.isSeparator c).length
    else 0

variable (platform : Platform) (path : List Char)

/-- A path from where its root path, of root name and separators, ends. -/
def relativePath : List Char :=
  (path.drop (platform.rootNameLength path)).dropWhile platform.isSeparator

def rootPath : List Char :=
  path.take (platform.rootNameLength path) ++
    (path.drop (platform.rootNameLength path)).takeWhile platform.isSeparator

/-- `has_filename` -/
def hasFilename : Bool := (platform.relativePath path).getLast?.any fun c => !platform.isSeparator c

/-- `parent_path` -/
def parentPath : List Char :=
  platform.rootPath path ++ ((platform.relativePath path).rdropWhile fun c =>
    !platform.isSeparator c).rdropWhile platform.isSeparator

end Platform

/-! ### Commands -/

def outPlaceholder : List Char := ['%', 'o', 'u', 't']

/-- `k_word_enders` -/
def wordEnders : List Char := ['"', '\'', '<', '>', '|', ';', '&', '(', ')']

def isSpace (c : Char) : Bool := c = ' ' || c = '\t' || c = '\r' || c = '\n'

/-- Which quotes a character is in, if it is in any. -/
inductive Quote
  | single
  | double
  deriving DecidableEq

def Quote.char : Quote → Char
  | single => '\''
  | double => '"'

/-- The quotes that what comes after a character is in. -/
def nextQuote (quote : Option Quote) (c : Char) : Option Quote :=
  match quote with
  | some open' => if c = open'.char then none else quote
  | none => if c = '"' then some .double else if c = '\'' then some .single else none

/-- Whether a character ends a `@/` path. -/
def endsPath (quote : Option Quote) (c : Char) : Bool :=
  match quote with
  | some open' => c = open'.char
  | none => isSpace c || wordEnders.contains c

def quoted (text : List Char) : List Char := '"' :: text ++ ['"']

/-- `substitute_out` -/
def substituteOut (command outPath : List Char) : List Char :=
  replaceAll outPlaceholder (quoted outPath) command

variable (platform : Platform)

/-- The mountpoint without a trailing separator. -/
def root (mountpoint : List Char) : List Char :=
  if platform.hasFilename mountpoint then mountpoint else platform.parentPath mountpoint

/-- The path an `@/` path with this rest stands for. -/
def generatedPath (root part : List Char) : List Char :=
  if part = [] then root
  else root ++ platform.separator :: part.map fun c => if c = '/' then platform.separator else c

/-- What it is put as. -/
def expansion (root : List Char) (quote : Option Quote) (part : List Char) : List Char :=
  if quote ≠ none then generatedPath platform root part
  else quoted (generatedPath platform root part)

theorem length_dropWhile_le {α : Type*} (p : α → Bool) (l : List α) :
    (l.dropWhile p).length ≤ l.length := (List.dropWhile_sublist p).length_le

/-- The loop of `expand_generated`, with the quotes it is in. -/
def expandFrom (root : List Char) : Option Quote → List Char → List Char
  | quote, '@' :: '/' :: rest =>
    expansion platform root quote (rest.takeWhile fun c => !endsPath quote c) ++
      expandFrom root quote (rest.dropWhile fun c => !endsPath quote c)
  | quote, c :: rest => c :: expandFrom root (nextQuote quote c) rest
  | _, [] => []
termination_by _ command => command.length
decreasing_by
  · have hle := length_dropWhile_le (fun c => !endsPath quote c) rest
    simp only [List.length_cons]
    omega
  · exact Nat.lt_succ_self _

/-- `expand_generated` -/
def expandGenerated (command mountpoint : List Char) : List Char :=
  expandFrom platform (root platform mountpoint) none command

/-- The text that `run_shell_command` runs. -/
def shellText (action : Action) (text mountpoint outPath : List Char) : List Char :=
  let text := expandGenerated platform text mountpoint
  if action = .capture then text else substituteOut text outPath

/-! ### What a command is made of -/

/-- A character that is copied, or an `@/` path with the quotes it is in. -/
inductive Piece
  | char (c : Char)
  | path (quote : Option Quote) (part : List Char)

def Piece.source : Piece → List Char
  | char c => [c]
  | path _ part => '@' :: '/' :: part

/-- What comes of a piece. -/
def Piece.expanded (root : List Char) : Piece → List Char
  | char c => [c]
  | path quote part => expansion platform root quote part

def source (pieces : List Piece) : List Char := pieces.flatMap Piece.source

def expanded (root : List Char) (pieces : List Piece) : List Char :=
  pieces.flatMap (Piece.expanded platform root)

/-- The pieces that `expand_generated` takes a command for. -/
def pieces : Option Quote → List Char → List Piece
  | quote, '@' :: '/' :: rest =>
    .path quote (rest.takeWhile fun c => !endsPath quote c) ::
      pieces quote (rest.dropWhile fun c => !endsPath quote c)
  | quote, c :: rest => .char c :: pieces (nextQuote quote c) rest
  | _, [] => []
termination_by _ command => command.length
decreasing_by
  · have hle := length_dropWhile_le (fun c => !endsPath quote c) rest
    simp only [List.length_cons]
    omega
  · exact Nat.lt_succ_self _

variable {platform : Platform} {mountRoot : List Char}

theorem source_pieces (quote : Option Quote) (command : List Char) :
    source (pieces quote command) = command := by
  induction quote, command using pieces.induct with
  | case1 quote rest ih =>
    rw [pieces, source, List.flatMap_cons, ← source, ih]
    simp [Piece.source]
  | case2 quote c rest hnot ih =>
    rw [pieces, source, List.flatMap_cons, ← source, ih]
    · rfl
    · exact hnot
  | case3 =>
    rw [pieces]
    rfl

theorem expanded_pieces (quote : Option Quote) (command : List Char) :
    expanded platform mountRoot (pieces quote command) =
      expandFrom platform mountRoot quote command := by
  induction quote, command using pieces.induct with
  | case1 quote rest ih =>
    rw [pieces, expandFrom, expanded, List.flatMap_cons, ← expanded, ih]
    rfl
  | case2 quote c rest hnot ih =>
    rw [pieces, expandFrom, expanded, List.flatMap_cons, ← expanded, ih]
    · rfl
    · exact hnot
    · exact hnot
  | case3 =>
    rw [pieces, expandFrom]
    rfl

end MakeBelieve.ShellRunner
