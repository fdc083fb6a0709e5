import MakeBelieve.Library.Utf8
import Mathlib.Data.Int.Order.Basic

namespace MakeBelieve.Tracer

open Library

def appendNumber (out : ByteString) (value : Int) : ByteString := out ++ ascii (toString value)

/-- A duration in nanoseconds, as microseconds to three decimal places. -/
def appendMicroseconds (out : ByteString) (duration : Int) : ByteString :=
  let nanoseconds := (max duration 0).toNat
  let fraction := nanoseconds % 1000
  appendNumber out (nanoseconds / 1000 : Nat) ++
    [0x2e, 0x30 + UInt8.ofNat (fraction / 100), 0x30 + UInt8.ofNat (fraction / 10 % 10),
      0x30 + UInt8.ofNat (fraction % 10)]

/-- The length of the valid UTF-8 sequence starting at `text[i]`, or 0 when there is none. -/
def utf8SequenceLength (text : ByteString) (i : Nat) : Nat :=
  let byte offset := text.getD (i + offset) 0
  let continuation offset := i + offset < text.length ∧ byte offset &&& 0xc0 = 0x80
  let lead := byte 0
  if 0xc2 ≤ lead ∧ lead ≤ 0xdf then
    if continuation 1 then 2 else 0
  else if 0xe0 ≤ lead ∧ lead ≤ 0xef then
    if ¬continuation 1 ∨ ¬continuation 2 then 0
    -- Neither an overlong encoding nor a UTF-16 surrogate.
    else if (lead = 0xe0 ∧ byte 1 < 0xa0) ∨ (lead = 0xed ∧ 0x9f < byte 1) then 0
    else 3
  else if 0xf0 ≤ lead ∧ lead ≤ 0xf4 then
    if ¬continuation 1 ∨ ¬continuation 2 ∨ ¬continuation 3 then 0
    -- Neither an overlong encoding nor past U+10FFFF.
    else if (lead = 0xf0 ∧ byte 1 < 0x90) ∨ (lead = 0xf4 ∧ 0x8f < byte 1) then 0
    else 4
  else 0

def appendEscaped (out : ByteString) (c : UInt8) : ByteString :=
  if c = 0x22 then out ++ ascii "\\\""
  else if c = 0x5c then out ++ ascii "\\\\"
  else if c = 0x0a then out ++ ascii "\\n"
  else if c = 0x0d then out ++ ascii "\\r"
  else if c = 0x09 then out ++ ascii "\\t"
  else
    let hex := ascii "0123456789abcdef"
    out ++ ascii "\\u00" ++
      [hex.getD (c >>> 4).toNat 0, hex.getD (c &&& 0xf).toNat 0]

/-- The loop of `appendJsonString`: what stands from `run` up to `i` needs nothing. -/
def appendRuns (text out : ByteString) (run i : Nat) : ByteString :=
  if hi : i < text.length then
    let c := text[i]
    if 0x20 ≤ c ∧ c < 0x80 ∧ c ≠ 0x22 ∧ c ≠ 0x5c then
      appendRuns text out run (i + 1)
    else
      let out := out ++ (text.drop run).take (i - run)
      let length := utf8SequenceLength text i
      if c < 0x80 then appendRuns text (appendEscaped out c) (i + 1) (i + 1)
      else if length ≠ 0 then
        appendRuns text (out ++ (text.drop i).take length) (i + length) (i + length)
      else appendRuns text (out ++ ascii "\\ufffd") (i + 1) (i + 1)
  else out ++ text.drop run
termination_by text.length - i

def appendJsonString (out text : ByteString) : ByteString :=
  appendRuns text (out ++ ascii "\"") 0 0 ++ ascii "\""

/-- A piece of the text of a name or a value. -/
inductive TraceValue
  | text (value : ByteString)
  /-- A path by its UTF-8 spelling, for lack of which its conversion throws. -/
  | path (value : Option ByteString)
  | boolean (value : Bool)
  | number (value : Int64)
  /-- An integer of any other type. -/
  | integral (value : Int)

namespace TraceText

def append (out : ByteString) : TraceValue → ByteString
  | .text value => out ++ value
  | .path none => out ++ ascii "?"
  | .path (some value) => if value = [] then out ++ ascii "/" else out ++ value
  | .boolean value => out ++ if value then ascii "true" else ascii "false"
  | .number value => appendNumber out value.toInt
  | .integral value => appendNumber out (Int64.ofInt value).toInt

/-- The text the values make, a space between each. -/
def of (first : TraceValue) (rest : List TraceValue) : ByteString :=
  rest.foldl (fun out value => append (out ++ ascii " ") value) (append [] first)

end TraceText

def TraceValue.isIntegral : TraceValue → Bool
  | .boolean _ | .number _ | .integral _ => true
  | .text _ | .path _ => false

/-- The arguments of an event: the inside of a JSON object, or empty. -/
structure TraceArgs where
  json : ByteString := []

namespace TraceArgs

def addValue (args : TraceArgs) (key value : ByteString) (literal : Bool) : TraceArgs :=
  let json := args.json ++ (if args.json = [] then ascii "\"" else ascii ",\"") ++ key ++
    ascii "\":"
  { json := if literal then json ++ value else appendJsonString json value }

def add (args : TraceArgs) (key : ByteString) (first : TraceValue) (rest : List TraceValue) : TraceArgs :=
  args.addValue key (TraceText.of first rest) (rest.isEmpty && first.isIntegral)

end TraceArgs

end MakeBelieve.Tracer
