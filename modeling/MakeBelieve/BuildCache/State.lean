import Mathlib.Data.List.Nodup
import MakeBelieve.Library.Machine
import MakeBelieve.Manifest.Parse

namespace MakeBelieve.BuildCache

open Library
open MakeBelieve.Tree (Action Bytes Command Hash Input Record)

abbrev Text := List Char

/-- A path as stored, with `/` between parts. -/
def toText (path : Path) : Text := Manifest.genericString path

def fromText (text : Text) : Path := if text = [] then [] else text.splitOn '/'

def actionText : Action → Text
  | .run => "run".toList
  | .capture => "capture".toList
  | .copy => "copy".toList
  | .tracing => "tracing".toList

def actionFromText (text : Text) : Option Action :=
  [Action.run, .capture, .copy, .tracing].find? fun action => actionText action = text

/-! ### The tables -/

/-- A row of `outputs`, whose primary key is the path. -/
structure OutputRow where
  path : Text
  action : Text
  command : Text
  hash : Text
  mtime : Int64

/-- A row of `inputs`, whose primary key is the output with the path. -/
structure InputRow where
  rowid : Nat
  output : Text
  path : Text
  mtime : Int64
  size : Int64
  hash : Text

structure Database where
  outputs : List OutputRow := []
  inputs : List InputRow := []

namespace Database

/-- `SELECT hash FROM outputs WHERE path = ?` -/
def selectHash (db : Database) (path : Text) : Option Text :=
  (db.outputs.find? fun row => row.path = path).map OutputRow.hash

/-- `SELECT 1 FROM outputs WHERE hash = ?` -/
def references (db : Database) (hash : Text) : Bool := db.outputs.any fun row => row.hash = hash

/-- `DELETE FROM inputs WHERE output = ?` -/
def deleteInputs (db : Database) (output : Text) : Database :=
  { db with inputs := db.inputs.filter fun row => row.output ≠ output }

/-- `DELETE FROM outputs WHERE path = ?` -/
def deleteOutput (db : Database) (path : Text) : Database :=
  { db with outputs := db.outputs.filter fun row => row.path ≠ path }

/-- `INSERT OR REPLACE INTO outputs` -/
def replaceOutput (db : Database) (row : OutputRow) : Database :=
  { db with outputs := (db.outputs.filter fun other => other.path ≠ row.path) ++ [row] }

/-- The rowid of a new input: one more than the greatest. -/
def nextRowid (db : Database) : Nat := (db.inputs.map InputRow.rowid).foldr max 0 + 1

/-- `INSERT OR IGNORE INTO inputs` -/
def ignoreInput (db : Database) (output : Text) (input : Input) : Database :=
  if db.inputs.any fun row => row.output = output && row.path = toText input.path then db
  else
    { db with
      inputs := db.inputs ++ [{ rowid := db.nextRowid, output, path := toText input.path
                                mtime := input.mtime, size := input.size, hash := input.hash }] }

end Database

def toInput (row : InputRow) : Input :=
  { path := fromText row.path, mtime := row.mtime, size := row.size, hash := row.hash }

/-- `records()`. A row with no action of this version's is passed over. -/
def records (db : Database) : List Record :=
  db.outputs.filterMap fun row => (actionFromText row.action).map fun action =>
    { command := { output := fromText row.path, action, text := row.command }
      hash := row.hash
      mtime := row.mtime
      inputs := ((db.inputs.mergeSort fun a b => decide (a.rowid ≤ b.rowid)).filter
        fun input => input.output = row.path).map toInput }

/-! ### Operations -/

/-- What `store` is called with. -/
structure Call where
  command : Command
  bytes : Bytes
  mtime : Int64
  inputs : List Input

variable (contentHash : Bytes → Hash)

def outputRow (call : Call) : OutputRow where
  path := toText call.command.output
  action := actionText call.command.action
  command := call.command.text
  hash := contentHash call.bytes
  mtime := call.mtime

/-- The transaction of `store`. -/
def storeRows (db : Database) (call : Call) : Database :=
  let output := toText call.command.output
  call.inputs.foldl (fun db input => db.ignoreInput output input)
    ((db.deleteInputs output).replaceOutput (outputRow contentHash call))

/-- The transaction of `forget` at one output, with the hashes it has dropped. -/
def forgetRow (s : List Text × Database) (path : Text) : List Text × Database :=
  match s.2.selectHash path with
  | none => s
  | some hash => (s.1.insert hash, (s.2.deleteInputs path).deleteOutput path)

def forgetRows (db : Database) (outputs : List Path) : List Text × Database :=
  (outputs.map toText).foldl forgetRow ([], db)

/-- What the cache is asked to do. -/

inductive Op
  | store (call : Call)
  | forget (outputs : List Path)
  | collectGarbage
  | reopen

/-- How far the operation under the cache's lock has come. -/
inductive Phase
  | idle
  | writing (call : Call)
  | renaming (call : Call) (scratch : Text)
  | storing (call : Call)
  | forgetting (outputs : List Path)
  -- `drop_if_unreferenced`, of one after the other.
  | dropping (hashes : List Text)
  | listing
  | removing (names : List Text)

/-- The database as it was last committed, and the files of `m_objects`. -/
structure State where
  db : Database := {}
  objects : Text → Option Bytes := fun _ => none
  nextScratch : Nat := 0
  phase : Phase := .idle

/-- A step of an operation, which an error may end. What an error leaves of a file that was to be
removed may be there still. -/
inductive Event
  | call (op : Op)
  | write (ok : Bool) (left : Option Bytes)
  | rename (ok removed : Bool)
  | transact (ok : Bool)
  | drop (hash : Text) (ok removed : Bool)
  | list (names : List Text) (ok : Bool)
  | remove (name : Text) (removed : Bool)

def scratchName (hash : Text) (number : Nat) : Text :=
  hash ++ '.' :: number.repr.toList ++ ".tmp".toList

/-- The operation whose transaction is still to come. -/
def Phase.pending : Phase → Option Op
  | .writing call => some (.store call)
  | .renaming call _ => some (.store call)
  | .storing call => some (.store call)
  | .forgetting outputs => some (.forget outputs)
  | _ => none

def toDrop (hashes : List Text) : Phase := if hashes = [] then .idle else .dropping hashes

def toRemove (names : List Text) : Phase := if names = [] then .idle else .removing names

namespace State

def begin (s : State) : Op → State
  | .store call => { s with phase := .writing call }
  | .forget outputs => if outputs = [] then s else { s with phase := .forgetting outputs }
  | .collectGarbage => { s with phase := .listing }
  | .reopen => { s with nextScratch := 0 }

def write (s : State) (call : Call) (ok : Bool) (left : Option Bytes) : State :=
  let scratch := scratchName (contentHash call.bytes) (s.nextScratch + 1)
  { s with
    nextScratch := s.nextScratch + 1
    objects := Function.update s.objects scratch (if ok then some call.bytes else left)
    phase := if ok then .renaming call scratch else .idle }

def rename (s : State) (call : Call) (scratch : Text) (ok removed : Bool) : State :=
  if ok then
    { s with
      objects := Function.update (Function.update s.objects scratch none)
        (contentHash call.bytes) (s.objects scratch)
      phase := .storing call }
  else
    { s with
      objects := if removed then Function.update s.objects scratch none else s.objects
      phase := .idle }

/-- The transaction of `store`. A statement that fails takes it back, whichever it is. -/
def store (s : State) (call : Call) (ok : Bool) : State :=
  let hash := contentHash call.bytes
  if ok then
    { s with
      db := storeRows contentHash s.db call
      phase := match s.db.selectHash (toText call.command.output) with
        | some previous => if previous = hash then .idle else .dropping [previous]
        | none => .idle }
  else { s with phase := .dropping [hash] }

def forget (s : State) (outputs : List Path) (ok : Bool) : State :=
  if ok then
    { s with db := (forgetRows s.db outputs).2, phase := toDrop (forgetRows s.db outputs).1 }
  else { s with phase := .idle }

/-- `drop_if_unreferenced` -/
def drop (s : State) (hashes : List Text) (hash : Text) (ok removed : Bool) : State :=
  if ok then
    { s with
      objects := if s.db.references hash = false ∧ removed = true then
        Function.update s.objects hash none else s.objects
      phase := toDrop (hashes.erase hash) }
  else { s with phase := .idle }

def step (s : State) : Event → State
  | .call op => s.begin op
  | .write ok left =>
    match s.phase with
    | .writing call => s.write contentHash call ok left
    | _ => s
  | .rename ok removed =>
    match s.phase with
    | .renaming call scratch => s.rename contentHash call scratch ok removed
    | _ => s
  | .transact ok =>
    match s.phase with
    | .storing call => s.store contentHash call ok
    | .forgetting outputs => s.forget outputs ok
    | _ => s
  | .drop hash ok removed =>
    match s.phase with
    | .dropping hashes => s.drop hashes hash ok removed
    | _ => s
  | .list names ok => { s with phase := if ok then toRemove names else .idle }
  | .remove name removed =>
    match s.phase with
    | .removing names =>
      { s with
        objects := if removed then Function.update s.objects name none else s.objects
        phase := toRemove (names.erase name) }
    | _ => s

end State

/-- A path that its text gives back: of components that are not empty. -/
def Texted (path : Path) : Prop := ∀ part ∈ path, part ≠ [] ∧ '/' ∉ part

/-- The paths an operation stores. -/
def Op.Texted : Op → Prop
  | .store call => BuildCache.Texted call.command.output ∧
      ∀ input ∈ call.inputs, BuildCache.Texted input.path
  | .forget outputs => ∀ output ∈ outputs, BuildCache.Texted output
  | _ => True

/-- Operations come one at a time, as the cache's lock has them. -/
def State.enabled (s : State) : Event → Prop
  | .call op => s.phase = .idle ∧ op.Texted
  | .write _ _ => ∃ call, s.phase = .writing call
  | .rename _ _ => ∃ call scratch, s.phase = .renaming call scratch
  | .transact _ => (∃ call, s.phase = .storing call) ∨ ∃ outputs, s.phase = .forgetting outputs
  | .drop hash _ _ => ∃ hashes, s.phase = .dropping hashes ∧ hash ∈ hashes
  | .list names _ => s.phase = .listing ∧
      ∀ name ∈ names, (s.objects name).isSome = true ∧ s.db.references name = false
  | .remove name _ => ∃ names, s.phase = .removing names ∧ name ∈ names

/-- A cache from when its directory is made, with whatever fails. -/
def machine : Machine State Event where
  init s := s = {}
  enabled := State.enabled
  step := State.step contentHash

/-- Whether a step does what it is for. -/
def Succeeds (s : State) : Event → Prop
  | .call _ => True
  | .write ok _ => ok = true
  | .rename ok _ => ok = true
  | .transact ok => ok = true
  | .drop _ ok removed => ok = true ∧ removed = true
  | .list names ok => ok = true ∧ ∀ name, (s.objects name).isSome = true →
      s.db.references name = false → name ∈ names
  | .remove _ removed => removed = true

/-- What an enabled step can do. -/
inductive Stepped (s : State) : Event → State → Prop
  | call (op : Op) (hphase : s.phase = .idle) (htexted : op.Texted) :
      Stepped s (.call op) (s.begin op)
  | write {call : Call} (ok : Bool) (left : Option Bytes) (hphase : s.phase = .writing call) :
      Stepped s (.write ok left) (s.write contentHash call ok left)
  | rename {call : Call} {scratch : Text} (ok removed : Bool)
      (hphase : s.phase = .renaming call scratch) :
      Stepped s (.rename ok removed) (s.rename contentHash call scratch ok removed)
  | store {call : Call} (ok : Bool) (hphase : s.phase = .storing call) :
      Stepped s (.transact ok) (s.store contentHash call ok)
  | forget {outputs : List Path} (ok : Bool) (hphase : s.phase = .forgetting outputs) :
      Stepped s (.transact ok) (s.forget outputs ok)
  | drop {hashes : List Text} {hash : Text} (ok removed : Bool)
      (hphase : s.phase = .dropping hashes) (hmem : hash ∈ hashes) :
      Stepped s (.drop hash ok removed) (s.drop hashes hash ok removed)
  | list {names : List Text} (ok : Bool) (hphase : s.phase = .listing)
      (hnames : ∀ name ∈ names, (s.objects name).isSome = true ∧ s.db.references name = false) :
      Stepped s (.list names ok) { s with phase := if ok then toRemove names else .idle }
  | remove {names : List Text} {name : Text} (removed : Bool)
      (hphase : s.phase = .removing names) (hmem : name ∈ names) :
      Stepped s (.remove name removed)
        { s with
          objects := if removed then Function.update s.objects name none else s.objects
          phase := toRemove (names.erase name) }

theorem State.stepped {s : State} {e : Event} (he : s.enabled e) :
    Stepped contentHash s e (s.step contentHash e) := by
  unfold State.step
  cases e with
  | call op => exact .call op he.1 he.2
  | write ok left =>
    obtain ⟨call, hphase⟩ := he
    rw [hphase]
    exact .write ok left hphase
  | rename ok removed =>
    obtain ⟨call, scratch, hphase⟩ := he
    rw [hphase]
    exact .rename ok removed hphase
  | transact ok =>
    obtain ⟨call, hphase⟩ | ⟨outputs, hphase⟩ := he
    · rw [hphase]
      exact .store ok hphase
    · rw [hphase]
      exact .forget ok hphase
  | drop hash ok removed =>
    obtain ⟨hashes, hphase, hmem⟩ := he
    rw [hphase]
    exact .drop ok removed hphase hmem
  | list names ok => exact .list ok he.1 he.2
  | remove name removed =>
    obtain ⟨names, hphase, hmem⟩ := he
    rw [hphase]
    exact .remove removed hphase hmem

end MakeBelieve.BuildCache
