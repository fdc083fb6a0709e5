import Mathlib.Data.List.Basic
import Mathlib.Data.List.Nodup
import Mathlib.Logic.Function.Basic
import MakeBelieve.Path

namespace MakeBelieve.Tree

abbrev Bytes := List UInt8

/-- What `BuildCache::hash` names content by. -/
abbrev Hash := List Char

inductive Action
  | run
  | capture
  | copy
  | tracing
  deriving DecidableEq, Repr

structure Command where
  output : Path
  action : Action := .run
  text : List Char := []
  deriving DecidableEq, Repr

inductive EntryInfo
  | file (size : UInt64) (mtime : Int64)
  | directory (mtime : Int64)
  deriving DecidableEq

/-- The source tree: what `status` says of each path that can be had. -/
abbrev Source := Path → Option EntryInfo

/-- What an input looked like when the output that read it was built. -/
structure Input where
  path : Path
  mtime : Int64 := 0
  size : Int64 := 0
  hash : Hash := []
  deriving DecidableEq

structure Record where
  command : Command
  hash : Hash
  mtime : Int64
  inputs : List Input
  deriving DecidableEq

/-- `as_input`: an output as an input of the builds that read it. -/
def asInput (output : Path) : Path := ['@'] :: output

/-- `output_named_by`: the output an input names, if it names one. -/
def outputNamedBy : Path → Option Path
  | ['@'] :: name :: rest => some (name :: rest)
  | _ => none

def stampSource (source : Source) (path : Path) : Option Input :=
  match source path with
  | none => none
  | some (.file size mtime) => some { path, mtime, size := size.toInt64 }
  | some (.directory mtime) => some { path, mtime, size := -1 }

/-- `is_hash`: 32 hex digits. -/
def isHash (hash : Hash) : Bool :=
  hash.length = 32 && hash.all fun c => ('0' ≤ c && c ≤ '9') || ('a' ≤ c && c ≤ 'f')

def recordOf (records : List Record) (output : Path) : Option Record :=
  records.find? fun record => record.command.output = output

theorem recordOf_output {records : List Record} {output : Path} {record : Record}
    (h : recordOf records output = some record) : record.command.output = output := by
  simpa using List.find?_some h

theorem recordOf_mem {records : List Record} {output : Path} {record : Record}
    (h : recordOf records output = some record) : record ∈ records :=
  List.mem_of_find?_eq_some h

/-- With one record for each output, which is found does not depend on their order. -/
theorem recordOf_eq_some {records : List Record}
    (hnd : (records.map fun record => record.command.output).Nodup) {output : Path}
    {record : Record} :
    recordOf records output = some record ↔ record ∈ records ∧ record.command.output = output := by
  constructor
  · intro h
    exact ⟨recordOf_mem h, recordOf_output h⟩
  · intro ⟨hmem, hout⟩
    cases hfind : recordOf records output with
    | none =>
      have hnone := List.find?_eq_none.mp hfind record hmem
      simp [hout] at hnone
    | some other =>
      have hother := recordOf_output hfind
      rw [List.inj_on_of_nodup_map hnd (recordOf_mem hfind) hmem (by rw [hother, hout])]

/-- The cache's records, one for each output, and its content files by name. -/
structure Cache where
  records : List Record := []
  objects : Hash → Option Bytes := fun _ => none
  nodup : (records.map fun record => record.command.output).Nodup := by
    first | exact List.nodup_nil | simp

namespace Cache

/-- A content file that does not match its name reads as missing. -/
def read (contentHash : Bytes → Hash) (cache : Cache) (hash : Hash) : Option Bytes :=
  if isHash hash then
    match cache.objects hash with
    | some bytes => if contentHash bytes = hash then some bytes else none
    | none => none
  else none

/-- `drop_if_unreferenced` -/
def dropIfUnreferenced (records : List Record) (objects : Hash → Option Bytes) (hash : Hash) :
    Hash → Option Bytes :=
  if records.any fun record => record.hash = hash then objects
  else Function.update objects hash none

/-- An input path recorded twice keeps its first stamp. -/
def firstStamps : List Input → List Input
  | [] => []
  | input :: inputs => input :: (firstStamps inputs).filter fun later => later.path ≠ input.path

def store (contentHash : Bytes → Hash) (cache : Cache) (command : Command) (bytes : Bytes)
    (mtime : Int64) (inputs : List Input) : Cache :=
  let hash := contentHash bytes
  let kept := cache.records.filter fun record => record.command.output ≠ command.output
  let records := { command, hash, mtime, inputs := firstStamps inputs } :: kept
  let objects := Function.update cache.objects hash (some bytes)
  { records
    objects := match recordOf cache.records command.output with
      | some previous => dropIfUnreferenced records objects previous.hash
      | none => objects
    nodup := by
      refine List.nodup_cons.mpr ⟨?_, cache.nodup.sublist (List.Sublist.map _ List.filter_sublist)⟩
      simp [kept] }

def forget (cache : Cache) (outputs : List Path) : Cache :=
  let records := cache.records.filter fun record => record.command.output ∉ outputs
  { records
    objects := cache.records.foldl (fun objects record =>
      if record.command.output ∈ outputs then dropIfUnreferenced records objects record.hash
      else objects) cache.objects
    nodup := cache.nodup.sublist (List.Sublist.map _ List.filter_sublist) }

end Cache

/-- The declared outputs' commands, one for each output. -/
structure Commands where
  entries : List Command := []
  nodup : (entries.map Command.output).Nodup := by
    first | exact List.nodup_nil | simp

namespace Commands

/-- One command, and no other. -/
def only (command : Command) : Commands := { entries := [command] }

def find (commands : Commands) (output : Path) : Option Command :=
  commands.entries.find? fun command => command.output = output

theorem find_output {commands : Commands} {output : Path} {command : Command}
    (h : commands.find output = some command) : command.output = output := by
  simpa using List.find?_some h

theorem find_mem {commands : Commands} {output : Path} {command : Command}
    (h : commands.find output = some command) : command ∈ commands.entries :=
  List.mem_of_find?_eq_some h

theorem find_isSome {commands : Commands} {output : Path} :
    (commands.find output).isSome ↔ ∃ command ∈ commands.entries, command.output = output := by
  simp [find]

end Commands

end MakeBelieve.Tree
