import MakeBelieve.Tracer.Text

namespace MakeBelieve.Tracer

open Library

/-- A row in the trace: the process whose group it sits in, and which row of that group. -/
structure TraceLane where
  process : UInt32
  row : UInt32
  deriving DecidableEq

/-- One argument of an event, as it is added. -/
structure Arg where
  key : ByteString
  first : TraceValue
  rest : List TraceValue

def TraceArgs.of (args : List Arg) : TraceArgs :=
  args.foldl (fun built arg => built.add arg.key arg.first arg.rest) {}

section Rendering

variable (origin : Int)

/-- The start of an event, the part every phase shares. -/
def beginEvent (out : ByteString) (phase : Char) (category name : ByteString) (timestamp : Int)
    (row : TraceLane) : ByteString :=
  let out := out ++ ascii ",\x7b\"ph\":\"" ++ [phase.toUInt8]
  let out := out ++ ascii "\",\"cat\":\"" ++ category
  let out := appendJsonString (out ++ ascii "\",\"name\":") name
  let out := appendNumber (out ++ ascii ",\"pid\":") row.process.toNat
  let out := appendNumber (out ++ ascii ",\"tid\":") row.row.toNat
  appendMicroseconds (out ++ ascii ",\"ts\":") (timestamp - origin)

/-- The event's arguments, if it has any, then its end. -/
def endEvent (out : ByteString) (args : TraceArgs) : ByteString :=
  let out :=
    if args.json = [] then out
    else out ++ ascii ",\"args\":\x7b" ++ args.json ++ ascii "\x7d"
  out ++ ascii "\x7d\n"

def complete (category name : ByteString) (start finish : Int) (args : TraceArgs) (row : TraceLane) :
    ByteString :=
  let event := beginEvent origin [] 'X' category name start row
  let event := appendMicroseconds (event ++ ascii ",\"dur\":") (finish - start)
  endEvent event args

/-- A span's beginning or its end, by its phase. -/
def span (phase : Char) (lane : TraceLane) (category : ByteString) (name : Option ByteString)
    (args : TraceArgs) (now : Int) : ByteString :=
  endEvent (beginEvent origin [] phase category (TraceText.of (.path name) []) now lane) args

def flow (phase : Char) (row : TraceLane) (category name : ByteString) (id : UInt64) (now : Int) :
    ByteString :=
  let event := beginEvent origin [] phase category name now row
  appendNumber (event ++ ascii ",\"bp\":\"e\",\"id\":") id.toNat ++ ascii "\x7d\n"

end Rendering

/-- What is recorded. -/
inductive Event
  | complete (category name : ByteString) (start finish : Int) (args : List Arg) (row : TraceLane)
  | begin (lane : TraceLane) (category : ByteString) (name : Option ByteString) (args : List Arg) (now : Int)
  | «end» (lane : TraceLane) (category : ByteString) (name : Option ByteString) (args : List Arg) (now : Int)
  | flowOut (lane : TraceLane) (category name : ByteString) (id : UInt64) (now : Int)
  | flowIn (lane : TraceLane) (category name : ByteString) (id : UInt64) (now : Int)

def Event.render (origin : Int) : Event → ByteString
  | complete category name start finish args row =>
    Tracer.complete origin category name start finish (.of args) row
  | begin lane category name args now => span origin 'B' lane category name (.of args) now
  | «end» lane category name args now => span origin 'E' lane category name (.of args) now
  | flowOut lane category name id now => flow origin 's' lane category name id now
  | flowIn lane category name id now => flow origin 'f' lane category name id now

def processName (id : UInt32) (name : ByteString) : ByteString :=
  let event := appendNumber (ascii "\x7b\"ph\":\"M\",\"name\":\"process_name\",\"pid\":") id.toNat
  appendJsonString (event ++ ascii ",\"args\":\x7b\"name\":") name ++ ascii "\x7d\x7d\n"

def rowName (row : TraceLane) (name : ByteString) : ByteString :=
  let event :=
    appendNumber (ascii "\x7b\"ph\":\"M\",\"name\":\"thread_name\",\"pid\":") row.process.toNat
  let event := appendNumber (event ++ ascii ",\"tid\":") row.row.toNat
  appendJsonString (event ++ ascii ",\"args\":\x7b\"name\":") name ++ ascii "\x7d\x7d\n"

end MakeBelieve.Tracer
