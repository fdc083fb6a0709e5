import MakeBelieve.Library.Warshall
import MakeBelieve.Manifest.Rules

namespace MakeBelieve.Manifest

open Library
open MakeBelieve.Tree (Action)

def isSpace (c : Char) : Bool := c = ' ' || c = '\t' || c = '\r' || c = '\n'

def trim (text : List Char) : List Char :=
  ((text.dropWhile isSpace).reverse.dropWhile isSpace).reverse

def firstWord (text : List Char) : List Char := text.takeWhile fun c => !isSpace c

def toAction (word : List Char) : Option Action :=
  if word = "run".toList then some .run
  else if word = "capture".toList then some .capture
  else if word = "copy".toList then some .copy
  else if word = "tracing".toList then some .tracing
  else none

def argumentOf : Action → String
  | .copy => "path"
  | _ => "command"

def genericString (path : Path) : List Char := List.intercalate ['/'] path

/-- `lexically_normal` of a relative path's text. A separator at the end leaves an empty component
there, and so does a last component that goes away; nothing at all is a dot. -/
def lexicallyNormal (relative : List Char) : Path :=
  let parts := relative.splitOn '/'
  let normal := Tree.lexicallyNormal (parts.filter fun part => part ≠ [])
  if relative = [] then []
  else if normal = [] then [['.']]
  else if parts.getLastD [] ∈ [[], ['.'], ['.', '.']] ∧ filename normal ≠ ['.', '.'] then
    normal ++ [[]]
  else normal

def toInsidePath (relative : List Char) : Option Path :=
  let path := lexicallyNormal relative
  -- A root path is what begins with a separator.
  if path = [] ∨ relative.head? = some '/' ∨ filename path = [] ∨ filename path = ['.'] ∨
      filename path = ['.', '.'] ∨ path.head? = some ['.', '.'] then none
  else some path

/-- The first of the words that whitespace delimits to hold a `*`, or none. -/
def firstWildcardWord (text : List Char) : List Char :=
  ((text.splitOnP isSpace).find? fun word => '*' ∈ word).getD []

def isWildcardPattern (path : Path) : Bool :=
  decide ((genericString path).count '*' = 1) && decide ('*' ∈ filename path)

/-- Whether some name matches both patterns. -/
def NamePattern.overlaps (pattern other : NamePattern) : Bool :=
  (if other.before.length ≤ pattern.before.length then other.before.isPrefixOf pattern.before
    else pattern.before.isPrefixOf other.before) &&
  if other.after.length ≤ pattern.after.length then other.after.isSuffixOf pattern.after
  else pattern.after.isSuffixOf other.after

/-- What is wrong with a line. -/
inductive Problem
  | noAssignment
  | outsideOutputs (left : List Char)
  | noAction (left : List Char)
  | tracingArgument (left argument : List Char)
  | noArgument (left : List Char) (action : Action)
  | tracingWildcard (left : List Char)
  | noSources (left : List Char)
  | badSources (left pattern : List Char) (overOutputs : Bool)
  | badCopy (left argument : List Char) (generated : Bool)
  | copiesItself (left : List Char)
  | notInside (left : List Char)
  | badWildcard (left : List Char)
  | declared (left : List Char) (line : Nat)
  | isDirectory (left : List Char) (line : Nat)
  | insideOutput (left : List Char) (line : Nat)
  | insideBanned (left suffix : List Char) (line : Nat)
  | endsInBanned (left suffix : List Char) (line : Nat)
  | bansOutput (left suffix : List Char) (line : Nat)
  | bansDirectory (left suffix : List Char) (line : Nat)
  | bothProduce (left : List Char) (line : Nat) (suffix : List Char)
  | copyUndeclared (left : List Char) (source : Path)
  | feedsItself (output : Path)
  deriving DecidableEq

def quoted (text : List Char) : String := "`" ++ String.ofList text ++ "`"

def Problem.message : Problem → String
  | noAssignment => "expected `@/<output> = <action> <command>`"
  | outsideOutputs left => "output " ++ quoted left ++ " must start with `@/`"
  | noAction left => quoted left ++ " must be assigned `run <command>`, `capture <command>`, " ++
      "`copy <path>` or `tracing`"
  | tracingArgument left argument => quoted left ++ " is assigned `tracing`, which takes no " ++
      "argument, but was given " ++ quoted argument
  | noArgument left action => quoted left ++ " has no " ++ argumentOf action
  | tracingWildcard left => quoted left ++ " is a wildcard, which `tracing` cannot be"
  | noSources left => quoted left ++ " is a wildcard, but its command names no source files " ++
      "with a `*`"
  | badSources left pattern overOutputs => quoted left ++ " takes its sources from " ++
      quoted pattern ++ ", which must be an unquoted path inside " ++
      (if overOutputs then "`@/`" else "the manifest's directory") ++
      " with a single `*`, in its file name"
  | badCopy left argument generated => quoted left ++ " copies " ++ quoted argument ++
      ", which does not name a file inside " ++
      if generated then "`@/`" else "the manifest's directory"
  | copiesItself left => quoted left ++ " copies itself"
  | notInside left => quoted left ++ " does not name a file inside `@/`"
  | badWildcard left => quoted left ++ " must have a single `*`, in its file name"
  | declared left line => quoted left ++ " is already declared on line " ++ line.repr
  | isDirectory left line => quoted left ++ " is a directory of the output declared on line " ++
      line.repr
  | insideOutput left line => quoted left ++ " is inside the output declared on line " ++ line.repr
  | insideBanned left suffix line => quoted left ++ " is inside a directory ending in " ++
      quoted suffix ++ ", which only files of the wildcard on line " ++ line.repr ++ " may"
  | endsInBanned left suffix line => quoted left ++ " ends in " ++ quoted suffix ++
      ", which only outputs of the wildcard on line " ++ line.repr ++ " may"
  | bansOutput left suffix line => quoted left ++ " bans outputs ending in " ++ quoted suffix ++
      " from its directory, but line " ++ line.repr ++ " declares one"
  | bansDirectory left suffix line => quoted left ++ " bans names ending in " ++ quoted suffix ++
      " from its directory, but the output on line " ++ line.repr ++ " is inside one"
  | bothProduce left line suffix => quoted left ++ " and the wildcard on line " ++ line.repr ++
      " could both produce outputs ending in " ++ quoted suffix
  | copyUndeclared left source => quoted left ++ " copies " ++
      quoted ("@/".toList ++ genericString source) ++ ", which is not declared"
  | feedsItself output => quoted ("@/".toList ++ genericString output) ++
      " could produce its own sources, so its outputs would never end"

structure Error where
  line : Nat
  problem : Problem

structure Parsed where
  rules : List Rule
  errors : List Error

/-! ### One line by itself -/

/-- What a line assigns: its output as written, an action and what that applies to. -/
def readAssignment (line : List Char) : Except Problem (List Char × Action × List Char) :=
  if '=' ∉ line then .error .noAssignment
  else
    let left := trim (line.takeWhile fun c => c ≠ '=')
    let value := trim (line.dropWhile fun c => c ≠ '=').tail
    if "@/".toList.isPrefixOf left = false then .error (.outsideOutputs left)
    else
      let word := firstWord value
      match toAction word with
      | none => .error (.noAction left)
      | some action =>
        let argument := trim (value.drop word.length)
        if action = .tracing then
          if argument ≠ [] then .error (.tracingArgument left argument)
          else .ok (left, action, argument)
        else if argument = [] then .error (.noArgument left action)
        else .ok (left, action, argument)

/-- The sources of an output with a `*`, and whether those are outputs too. -/
def readSources (left : List Char) (action : Action) (argument : List Char) :
    Except Problem (Path × Bool) :=
  if action = .tracing then .error (.tracingWildcard left)
  else
    let pattern := if action = .copy then argument else firstWildcardWord argument
    if pattern = [] then .error (.noSources left)
    else
      let overOutputs := "@/".toList.isPrefixOf pattern
      let source :=
        if '\x22' ∈ pattern ∨ '\x27' ∈ pattern then none
        else toInsidePath (if overOutputs then pattern.drop 2 else pattern)
      match source with
      | none => .error (.badSources left pattern overOutputs)
      | some source =>
        if isWildcardPattern source then .ok (source, overOutputs)
        else .error (.badSources left pattern overOutputs)

/-- What an output without a `*` copies, with that if it is an output. -/
def readCopy (left argument : List Char) : Except Problem (List Char × Option Path) :=
  let generated := "@/".toList.isPrefixOf argument
  match toInsidePath (if generated then argument.drop 2 else argument) with
  | none => .error (.badCopy left argument generated)
  | some source =>
    if generated then
      if some source = toInsidePath (left.drop 2) then .error (.copiesItself left)
      else .ok ("@/".toList ++ genericString source, some source)
    else .ok (genericString source, none)

/-- A line that reads as a rule. -/
structure Declared where
  left : List Char
  rule : Rule
  copiedOutput : Option Path := none

def readRule (left : List Char) (action : Action) (argument : List Char) : Except Problem Declared :=
  if '*' ∈ left then
    match readSources left action argument with
    | .error problem => .error problem
    | .ok (wildcardSource, wildcardOverOutputs) =>
      let command :=
        if action = .copy then
          (if wildcardOverOutputs then "@/".toList else []) ++ genericString wildcardSource
        else argument
      match toInsidePath (left.drop 2) with
      | none => .error (.notInside left)
      | some output =>
        if isWildcardPattern output then
          .ok { left, rule := { output, action, command, wildcardSource, wildcardOverOutputs } }
        else .error (.badWildcard left)
  else
    match if action = .copy then readCopy left argument else .ok (argument, none) with
    | .error problem => .error problem
    | .ok (command, copiedOutput) =>
      match toInsidePath (left.drop 2) with
      | none => .error (.notInside left)
      | some output => .ok { left, rule := { output, action, command }, copiedOutput }

/-- A line that is trimmed, unless it is blank or a comment. -/
def readLine (line : List Char) : Option (Except Problem Declared) :=
  if line = [] ∨ line.head? = some '#' then none
  else some (match readAssignment line with
    | .error problem => .error problem
    | .ok (left, action, argument) => readRule left action argument)

/-! ### Against the lines before -/

structure BannedSuffix where
  suffix : Name
  line : Nat

structure CopyOfOutput where
  rule : Nat
  line : Nat
  left : List Char
  source : Path

/-- What `parse` has gathered from the lines so far. `std::map`s are held in their order. -/
structure Parsing where
  files : List (Path × Nat) := []
  directories : List (Path × Nat) := []
  bannedSuffixes : Path → List BannedSuffix := fun _ => []
  copies : List CopyOfOutput := []
  lines : List Nat := []
  rules : List Rule := []
  errors : List Error := []

def lookup (entries : List (Path × Nat)) (path : Path) : Option Nat :=
  (entries.find? fun entry => entry.1 = path).map Prod.snd

def emplaceLine (entries : List (Path × Nat)) (path : Path) (line : Nat) : List (Path × Nat) :=
  if (lookup entries path).isSome then entries
  else entries.takeWhile (fun entry => entry.1 < path) ++
    (path, line) :: entries.dropWhile fun entry => entry.1 < path

/-- A path, its components listed last first, with those above it but the root. -/
def withParents : List Name → List Path
  | [] => []
  | name :: rest => (name :: rest).reverse :: withParents rest

/-- The `parent_path()` of a path, that one's, and so on. -/
def parents (path : Path) : List Path := withParents path.dropLast.reverse

def Rule.suffix (rule : Rule) : Name := (NamePattern.ofName (filename rule.output)).after

namespace Parsing

/-- `banned_suffix` -/
def bannedSuffix (s : Parsing) (path : Path) : Option BannedSuffix :=
  (s.bannedSuffixes path.dropLast).find? fun other => other.suffix.isSuffixOf (filename path)

/-- What a wildcard's suffix bans of what is there already. -/
def bans (s : Parsing) (left : List Char) (rule : Rule) : Option Problem :=
  let directory := rule.output.dropLast
  let suffix := rule.suffix
  let endsInIt := fun (entry : Path × Nat) =>
    decide (entry.1.dropLast = directory) && suffix.isSuffixOf (filename entry.1)
  match s.files.find? endsInIt with
  | some entry => some (.bansOutput left suffix entry.2)
  | none =>
    match s.directories.find? endsInIt with
    | some entry => some (.bansDirectory left suffix entry.2)
    | none =>
      match (s.bannedSuffixes directory).find? fun other =>
          other.suffix.isSuffixOf suffix || suffix.isSuffixOf other.suffix with
      | some other => some (.bothProduce left other.line
          (if other.suffix.length < suffix.length then suffix else other.suffix))
      | none => none

/-- What is wrong with a rule beside those before it. -/
def clash (s : Parsing) (left : List Char) (rule : Rule) : Option Problem :=
  match lookup s.files rule.output with
  | some line => some (.declared left line)
  | none =>
    match lookup s.directories rule.output with
    | some line => some (.isDirectory left line)
    | none =>
      match (parents rule.output).findSome? (lookup s.files) with
      | some line => some (.insideOutput left line)
      | none =>
        match (parents rule.output).findSome? s.bannedSuffix with
        | some banned => some (.insideBanned left banned.suffix banned.line)
        | none =>
          if rule.isWildcard then s.bans left rule
          else (s.bannedSuffix rule.output).map fun banned =>
            .endsInBanned left banned.suffix banned.line

def accept (s : Parsing) (number : Nat) (declared : Declared) : Parsing :=
  let rule := declared.rule
  let directory := rule.output.dropLast
  { s with
    files := if rule.isWildcard then s.files else emplaceLine s.files rule.output number
    directories := (parents rule.output).foldl (fun directories parent =>
      emplaceLine directories parent number) s.directories
    bannedSuffixes :=
      if rule.isWildcard then Function.update s.bannedSuffixes directory
        (s.bannedSuffixes directory ++ [{ suffix := rule.suffix, line := number }])
      else s.bannedSuffixes
    copies := match declared.copiedOutput with
      | some source => s.copies ++
          [{ rule := s.rules.length, line := number, left := declared.left, source }]
      | none => s.copies
    lines := s.lines ++ [number]
    rules := s.rules ++ [rule] }

def reject (s : Parsing) (number : Nat) (problem : Problem) : Parsing :=
  { s with errors := s.errors ++ [{ line := number, problem }] }

def parseLine (s : Parsing) (number : Nat) (text : List Char) : Parsing :=
  match readLine (trim text) with
  | none => s
  | some (.error problem) => s.reject number problem
  | some (.ok declared) =>
    match s.clash declared.left declared.rule with
    | some problem => s.reject number problem
    | none => s.accept number declared

/-- The lines from one on. -/
def parseLines (s : Parsing) (number : Nat) : List (List Char) → Parsing
  | [] => s
  | line :: lines => (s.parseLine number line).parseLines (number + 1) lines

end Parsing

/-! ### Once every rule is known -/

/-- Whether something rule `a` could produce is something rule `b` could match. -/
def Rule.feeds (a b : Rule) : Bool :=
  a.isWildcard && b.wildcardOverOutputs &&
    decide (a.output.dropLast = b.wildcardSource.dropLast) &&
    (NamePattern.ofName (filename a.output)).overlaps
      (NamePattern.ofName (filename b.wildcardSource))

def feedsAt (rules : List Rule) (a b : Nat) : Bool :=
  match rules[a]?, rules[b]? with
  | some a, some b => a.feeds b
  | _, _ => false

/-- `feeds` closed over every chain of rules. -/
def closedFeeds (rules : List Rule) : Nat → Nat → Bool :=
  closeOver (List.range rules.length) (feedsAt rules)

namespace Parsing

def undeclaredCopies (s : Parsing) : List CopyOfOutput :=
  s.copies.filter fun copy => (lookup s.files copy.source).isNone

def selfFeeding (s : Parsing) : List Nat :=
  (List.range s.rules.length).filter fun rule => closedFeeds s.rules rule rule

def dropped (s : Parsing) : List Nat := s.undeclaredCopies.map CopyOfOutput.rule ++ s.selfFeeding

def lateErrors (s : Parsing) : List Error :=
  s.undeclaredCopies.map (fun copy =>
    { line := copy.line, problem := .copyUndeclared copy.left copy.source }) ++
  s.selfFeeding.map fun rule =>
    { line := s.lines.getD rule 0
      problem := .feedsItself ((s.rules.map Rule.output).getD rule []) }

/-- Leaves out the rules that turn out not to stand. -/
def finish (s : Parsing) : Parsed where
  rules := (s.rules.zipIdx.filter fun (_, rule) => rule ∉ s.dropped).map Prod.fst
  errors :=
    if s.dropped = [] then s.errors
    else (s.errors ++ s.lateErrors).mergeSort fun a b => decide (a.line ≤ b.line)

end Parsing

def parse (text : List Char) : Parsed :=
  (({} : Parsing).parseLines 1 (text.splitOn '\n')).finish

end MakeBelieve.Manifest
