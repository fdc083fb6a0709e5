import Mathlib.Data.List.Lex
import Mathlib.Data.Char
import MakeBelieve.Library.Machine
import MakeBelieve.Library.SortedMap
import MakeBelieve.Manifest.Parse
import MakeBelieve.Snapshots.State

namespace MakeBelieve.InMemoryDirectoryTree

open Library
open MakeBelieve.Manifest (filename)
open MakeBelieve.Snapshots (DirectoryTreeDiff FileInfo isADirectory)
open MakeBelieve.Tree (Bytes isWithin)

/-- `std::errc::invalid_argument` -/
def invalidArgument : ErrorCode := .other 22

inductive EntryInfo
  | file (info : FileInfo)
  | directory (mtime : Int64)
  deriving DecidableEq

/-- An entry, with its content if it is a file. -/
structure Node where
  info : EntryInfo
  content : Option Bytes := none

def Node.isDirectory (node : Node) : Bool :=
  match node.info with
  | .directory _ => true
  | .file _ => false

/-- `normalize`, of a path as it is written; the root is the empty path. -/
def normalize (path : List Char) : Option Path :=
  if path = [] then some []
  else if path.head? = some '/' then none
  else
    let normal := Manifest.lexicallyNormal path
    if normal.head? = some ['.', '.'] then none
    else some (if normal = [['.']] then [] else normal)

/-- `m_entries`. -/
structure State where
  entries : SortedMap Path Node := .singleton [] { info := .directory 0 }

/-- A `TreeEntry`. -/
structure TreeEntry where
  name : Name
  info : EntryInfo

namespace State

variable (s : State)

def parentIsDirectory (normalized : Path) : Bool :=
  (s.entries.find normalized.dropLast).any Node.isDirectory

/-- `write_file`: what subscribers are told, and the tree then. None where an assertion fails. -/
def writeFile (path : List Char) (content : Bytes) (mtime : Int64) :
    Option (DirectoryTreeDiff × State) :=
  (normalize path).bind fun path =>
    if path ≠ [] ∧ s.parentIsDirectory path = true ∧
        (s.entries.find path).all (fun node => !node.isDirectory) = true then
      some
        ({ entriesChanged := [path]
           childListsChanged := if (s.entries.find path).isNone then [path.dropLast] else [] },
         { entries := s.entries.insert path
             { info := .file { size := content.length, mtime }, content := some content } })
    else none

/-- `make_directory`, as `writeFile`. -/
def makeDirectory (path : List Char) (mtime : Int64) : Option (DirectoryTreeDiff × State) :=
  (normalize path).bind fun path =>
    if path ≠ [] ∧ s.parentIsDirectory path = true ∧ (s.entries.find path).isNone = true then
      some
        ({ entriesChanged := [path], childListsChanged := [path.dropLast] },
         { entries := s.entries.insert path { info := .directory mtime } })
    else none

/-- What `remove` takes away: the entry, with all that is beneath it. -/
def isRemoved (path entry : Path) : Bool := decide (entry = path) || isWithin entry path

/-- `remove`, as `writeFile`. -/
def remove (path : List Char) : Option (DirectoryTreeDiff × State) :=
  (normalize path).bind fun path =>
    if path ≠ [] ∧ (s.entries.find path).isSome = true then
      some
        ({ entriesChanged := (s.entries.restrict (isRemoved path)).entries.map Prod.fst
           childListsChanged := [path.dropLast] },
         { entries := s.entries.restrict fun entry => !isRemoved path entry })
    else none

def withMtime (mtime : Int64) : EntryInfo → EntryInfo
  | .file info => .file { info with mtime }
  | .directory _ => .directory mtime

/-- `set_mtime`, as `writeFile`. -/
def setMtime (path : List Char) (mtime : Int64) : Option (DirectoryTreeDiff × State) :=
  (normalize path).bind fun path =>
    (s.entries.find path).map fun node =>
      ({ entriesChanged := [path] },
       { entries := s.entries.insert path { node with info := withMtime mtime node.info } })

def status (path : List Char) : Except ErrorCode EntryInfo :=
  match (normalize path).bind s.entries.find with
  | some node => .ok node.info
  | none => .error .noSuchFileOrDirectory

def isChild (directory entry : Path) : Bool := entry ≠ directory && entry.dropLast = directory

def ls (path : List Char) : Except ErrorCode (List TreeEntry) :=
  match normalize path with
  | none => .error .noSuchFileOrDirectory
  | some path =>
    if (s.entries.find path).any Node.isDirectory then
      .ok ((s.entries.restrict (isChild path)).entries.map fun entry =>
        { name := filename entry.1, info := entry.2.info })
    else .error .noSuchFileOrDirectory

/-- `read_whole`: the content, with what `status` says of it. -/
def readWhole (path : List Char) : Except ErrorCode (Bytes × FileInfo) :=
  match (normalize path).bind s.entries.find with
  | none => .error .noSuchFileOrDirectory
  | some node =>
    match node.info with
    | .directory _ => .error isADirectory
    | .file info => .ok (node.content.getD [], info)

def read (path : List Char) (offset : Int) (size : Nat) : Except ErrorCode Bytes :=
  if normalize path = none then .error .noSuchFileOrDirectory
  else if offset < 0 then .error invalidArgument
  else if size = 0 then .ok []
  else (s.readWhole path).map fun content => (content.1.drop offset.toNat).take size

end State

/-- A call that changes the tree. -/
inductive Call
  | writeFile (path : List Char) (content : Bytes) (mtime : Int64)
  | makeDirectory (path : List Char) (mtime : Int64)
  | remove (path : List Char)
  | setMtime (path : List Char) (mtime : Int64)

def State.call (s : State) : Call → Option (DirectoryTreeDiff × State)
  | .writeFile path content mtime => s.writeFile path content mtime
  | .makeDirectory path mtime => s.makeDirectory path mtime
  | .remove path => s.remove path
  | .setMtime path mtime => s.setMtime path mtime

/-- A tree from when it is made, with calls that meet their preconditions. -/
def machine : Machine State Call where
  init s := s = {}
  enabled s call := (s.call call).isSome = true
  step s call := ((s.call call).map Prod.snd).getD s

end MakeBelieve.InMemoryDirectoryTree
