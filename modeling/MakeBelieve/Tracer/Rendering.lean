import MakeBelieve.Tracer.Escaping
import MakeBelieve.Tracer.Events
import Mathlib.Algebra.Field.Rat
import Mathlib.Data.List.Induction
import Mathlib.Tactic.FieldSimp
import Mathlib.Tactic.Ring

namespace MakeBelieve.Tracer

open Library Library.Utf8 Library.Json

section Numbers

theorem ascii_repr (n : Nat) :
    ascii n.repr = (Nat.toDigits 10 n).map fun c => c.toNat.toUInt8 := by
  rw [ascii, Nat.toList_repr]

theorem number_toString (value : Int) : Number (ascii (toString value)) value := by
  cases value with
  | ofNat n =>
    have h := number_ofNat (natural_toDigits n)
    rw [← ascii_repr] at h
    exact h
  | negSucc n =>
    have h : Magnitude (ascii (n + 1).repr) (n + 1 : Nat) := by
      rw [ascii_repr]
      exact .plain (.whole (natural_toDigits (n + 1)))
    have htext : ascii (toString (Int.negSucc n)) = 0x2d :: ascii (n + 1).repr := by
      show ascii ("-" ++ (n + 1).repr) = _
      simp [ascii, String.toList_append]
    rw [htext]
    exact .negative h

theorem writes_appendNumber (out : ByteString) (value : Int) :
    Writes (appendNumber out value) out (.num value) :=
  ⟨_, rfl, .num (number_toString value)⟩

/-- A duration in microseconds. -/
def microseconds (duration : Int) : ℚ := (max duration 0).toNat / 1000

theorem digit_eq {d : Nat} (hd : d < 10) : 0x30 + UInt8.ofNat d = digit d := by
  decide +revert

/-- The digits of a number below a thousand. -/
theorem digits_three {n : Nat} (hn : n < 1000) :
    Digits [digit (n / 100), digit (n / 10 % 10), digit (n % 10)] n := by
  have hone : Digits [digit (n / 100)] (n / 100) := .digit (by omega)
  have htwo := hone.snoc (Nat.mod_lt (n / 10) (by decide))
  have hthree := htwo.snoc (Nat.mod_lt n (by decide))
  have hvalue : 10 * (10 * (n / 100) + n / 10 % 10) + n % 10 = n := by omega
  rw [hvalue] at hthree
  exact hthree

theorem writes_appendMicroseconds (out : ByteString) (duration : Int) :
    Writes (appendMicroseconds out duration) out (.num (microseconds duration)) := by
  unfold appendMicroseconds microseconds
  generalize (max duration 0).toNat = n
  have hmod : n % 1000 < 1000 := Nat.mod_lt n (by decide)
  have hnumber : Decimal _ ((n / 1000 : Nat) + (n % 1000 : Nat) / 10 ^ 3) :=
    .fraction (natural_toDigits (n / 1000)) (digits_three hmod)
  have hvalue : ((n / 1000 : Nat) : ℚ) + (n % 1000 : Nat) / 10 ^ 3 = n / 1000 := by
    have hsplit : ((1000 * (n / 1000) + n % 1000 : Nat) : ℚ) = n := by rw [Nat.div_add_mod]
    rw [← hsplit]
    push_cast
    ring
  rw [hvalue, ← ascii_repr] at hnumber
  refine ⟨_, ?_, .num (.positive (.plain hnumber))⟩
  simp only [appendNumber, List.append_assoc]
  simp only [digit_eq (show n % 1000 / 100 < 10 by omega), digit_eq (Nat.mod_lt _ (by decide))]
  rfl

end Numbers

section Strings

/-- A text nothing of which JSON needs escaped. -/
def JsonSafe (bytes : ByteString) : Prop := ∃ text, AllUnescaped text ∧ bytes = encode text

theorem JsonSafe.chars {bytes : ByteString} (h : JsonSafe bytes) : Chars bytes (lossy bytes) := by
  obtain ⟨text, htext, rfl⟩ := h
  rw [lossy_encode]
  exact .text htext

theorem writes_quoted {body : ByteString} {text : List Char} (out : ByteString) (h : Chars body text) :
    Writes (out ++ quoted body) out (.str text) :=
  ⟨_, rfl, .str h⟩

end Strings

section Arguments

/-- What an argument says: a lone number or bool is itself, and anything else a string. -/
def Arg.value (arg : Arg) : Json :=
  match arg.first, arg.rest with
  | .boolean value, [] => .bool value
  | .number value, [] => .num value.toInt
  | .integral value, [] => .num (Int64.ofInt value).toInt
  | first, rest => .str (lossy (TraceText.of first rest))

def Arg.member (arg : Arg) : List Char × Json := (lossy arg.key, arg.value)

theorem writes_value (out : ByteString) (arg : Arg) :
    Writes (if arg.rest.isEmpty && arg.first.isIntegral then
        out ++ TraceText.of arg.first arg.rest
      else appendJsonString out (TraceText.of arg.first arg.rest)) out arg.value := by
  obtain ⟨key, first, rest⟩ := arg
  cases rest with
  | cons second rest => cases first <;> exact writes_appendJsonString out _
  | nil =>
    cases first with
    | text value => exact writes_appendJsonString out _
    | path value => exact writes_appendJsonString out _
    | boolean value =>
      cases value with
      | true => exact ⟨_, rfl, .true⟩
      | false => exact ⟨_, rfl, .false⟩
    | number value => exact ⟨_, rfl, .num (number_toString value.toInt)⟩
    | integral value => exact ⟨_, rfl, .num (number_toString (Int64.ofInt value).toInt)⟩

theorem json_add (args : TraceArgs) {arg : Arg} (hkey : JsonSafe arg.key) :
    ∃ bytes, Member Value bytes arg.member ∧ (args.add arg.key arg.first arg.rest).json =
      args.json ++ (if args.json = [] then [] else [0x2c]) ++ bytes := by
  obtain ⟨key, hunescaped, htext⟩ := hkey
  obtain ⟨bytes, hbytes, hvalue⟩ := writes_value (args.json ++
    (if args.json = [] then ascii "\"" else ascii ",\"") ++ arg.key ++ ascii "\":") arg
  refine ⟨quoted (encode key) ++ 0x3a :: bytes, ?_, ?_⟩
  · rw [Arg.member, htext, lossy_encode]
    exact .field hunescaped hvalue
  · refine hbytes.trans ?_
    rw [htext]
    split <;> simp [quoted, ascii]

/-- The arguments added are the inside of an object, but for none. -/
theorem json_of (args : List Arg) (hsafe : ∀ arg ∈ args, JsonSafe arg.key) :
    args = [] ∧ (TraceArgs.of args).json = [] ∨
      SepBy (Member Value) (TraceArgs.of args).json (args.map Arg.member) := by
  induction args using List.reverseRecOn with
  | nil => exact .inl ⟨rfl, rfl⟩
  | append_singleton args arg ih =>
    right
    have hbefore := ih fun a ha => hsafe a (List.mem_append_left [arg] ha)
    have hadded : TraceArgs.of (args ++ [arg]) =
        (TraceArgs.of args).add arg.key arg.first arg.rest := by
      simp [TraceArgs.of]
    obtain ⟨bytes, hmember, hjson⟩ := json_add (.of args) (hsafe arg (by simp))
    rw [hadded, hjson, List.map_append]
    rcases hbefore with ⟨rfl, hnone⟩ | hsome
    · rw [if_pos hnone, hnone]
      exact .one hmember
    · rw [if_neg (hsome.ne_nil fun _ _ h => h.ne_nil), List.append_assoc]
      exact hsome.append (.one hmember)

end Arguments

section Objects

variable {before text : ByteString} {value : Json} {members : List (List Char × Json)}

/-- An object begun after some text, with the members it has so far. -/
def Open (before text : ByteString) (members : List (List Char × Json)) : Prop :=
  ∃ body, text = before ++ 0x7b :: body ∧ SepBy (Member Value) body members

theorem Open.start (key : List Char) (literal : ByteString) (hkey : AllUnescaped key)
    (hliteral : literal = 0x7b :: (quoted (encode key) ++ [0x3a]))
    (h : Writes text (before ++ literal) value) : Open before text [(key, value)] := by
  obtain ⟨bytes, rfl, hvalue⟩ := h
  refine ⟨_, ?_, .one (.field hkey hvalue)⟩
  simp [hliteral]

theorem Open.add {out : ByteString} (ho : Open before out members) (key : List Char) (literal : ByteString)
    (hkey : AllUnescaped key)
    (hliteral : literal = 0x2c :: (quoted (encode key) ++ [0x3a]))
    (h : Writes text (out ++ literal) value) : Open before text (members ++ [(key, value)]) := by
  obtain ⟨body, rfl, hbody⟩ := ho
  obtain ⟨bytes, rfl, hvalue⟩ := h
  refine ⟨_, ?_, hbody.append (.one (.field hkey hvalue))⟩
  simp [hliteral]

theorem Open.close (h : Open before text members) :
    Writes (text ++ [0x7d]) before (.obj members) := by
  obtain ⟨body, rfl, hbody⟩ := h
  exact ⟨0x7b :: (body ++ [0x7d]), by simp, .obj hbody⟩

end Objects

section Events

/-- What the start of an event says. -/
def header (origin : Int) (phase : Char) (category name : ByteString) (timestamp : Int)
    (row : TraceLane) : List (List Char × Json) :=
  [("ph".toList, .str [phase]), ("cat".toList, .str (lossy category)),
    ("name".toList, .str (lossy name)), ("pid".toList, .num row.process.toNat),
    ("tid".toList, .num row.row.toNat), ("ts".toList, .num (microseconds (timestamp - origin)))]

def argsMember : List Arg → List (List Char × Json)
  | [] => []
  | args => [("args".toList, .obj (args.map Arg.member))]

/-- What an event says. -/
def Event.value (origin : Int) : Event → Json
  | complete category name start finish args row =>
    .obj (header origin 'X' category name start row ++
      [("dur".toList, .num (microseconds (finish - start)))] ++ argsMember args)
  | begin lane category name args now =>
    .obj (header origin 'B' category (TraceText.of (.path name) []) now lane ++ argsMember args)
  | «end» lane category name args now =>
    .obj (header origin 'E' category (TraceText.of (.path name) []) now lane ++ argsMember args)
  | flowOut lane category name id now =>
    .obj (header origin 's' category name now lane ++
      [("bp".toList, .str ['e']), ("id".toList, .num id.toNat)])
  | flowIn lane category name id now =>
    .obj (header origin 'f' category name now lane ++
      [("bp".toList, .str ['e']), ("id".toList, .num id.toNat)])

variable {origin : Int} {category name : ByteString} {phase : Char}

theorem writes_natural (out : ByteString) (n : Nat) : Writes (appendNumber out n) out (.num n) := by
  simpa using writes_appendNumber out n

/-- A phase is one byte that needs no escaping. -/
def Plain (phase : Char) : Prop := Unescaped phase ∧ String.utf8EncodeChar phase = [phase.toUInt8]

instance (phase : Char) : Decidable (Plain phase) := inferInstanceAs (Decidable (_ ∧ _))

theorem open_beginEvent (origin : Int) (hphase : Plain phase) (hcategory : JsonSafe category) (name : ByteString)
    (timestamp : Int) (row : TraceLane) :
    Open (ascii ",") (beginEvent origin [] phase category name timestamp row)
      (header origin phase category name timestamp row) := by
  have hchars : Chars [phase.toUInt8] [phase] := by
    rw [← hphase.2]
    simpa using Chars.unescaped hphase.1 .nil
  have hph := Open.start "ph".toList (ascii "\x7b\"ph\":") (by decide) (by decide)
    (writes_quoted (ascii "," ++ _) hchars)
  have hcat := hph.add "cat".toList (ascii ",\"cat\":") (by decide) (by decide)
    (writes_quoted _ hcategory.chars)
  have hname := hcat.add "name".toList (ascii ",\"name\":") (by decide) (by decide)
    (writes_appendJsonString _ name)
  have hpid := hname.add "pid".toList (ascii ",\"pid\":") (by decide) (by decide)
    (writes_natural _ row.process.toNat)
  have htid := hpid.add "tid".toList (ascii ",\"tid\":") (by decide) (by decide)
    (writes_natural _ row.row.toNat)
  have hts := htid.add "ts".toList (ascii ",\"ts\":") (by decide) (by decide)
    (writes_appendMicroseconds _ (timestamp - origin))
  have hquotes : ascii ",\x7b\"ph\":\"" ++ [phase.toUInt8] ++ ascii "\",\"cat\":\"" ++ category ++
      ascii "\",\"name\":" = ascii "," ++ ascii "\x7b\"ph\":" ++ quoted [phase.toUInt8] ++
        ascii ",\"cat\":" ++ quoted category ++ ascii ",\"name\":" := by
    simp [quoted, ascii]
  rw [← hquotes] at hts
  exact hts

/-- Closing an event ends its line. -/
theorem Open.line {out : ByteString} {members : List (List Char × Json)}
    (ho : Open (ascii ",") out members) :
    ∃ bytes, out ++ ascii "\x7d\n" = 0x2c :: bytes ∧ Padded Value bytes (.obj members) := by
  obtain ⟨bytes, hbytes, hvalue⟩ := ho.close
  refine ⟨bytes ++ ascii "\n", ?_, .line hvalue⟩
  have hend : out ++ ascii "\x7d\n" = out ++ [0x7d] ++ ascii "\n" := by simp [ascii]
  rw [hend, hbytes]
  rfl

/-- An event's arguments are its last member. -/
theorem line_endEvent {out : ByteString} {members : List (List Char × Json)} {args : List Arg}
    (ho : Open (ascii ",") out members) (hsafe : ∀ arg ∈ args, JsonSafe arg.key) :
    ∃ bytes, endEvent out (.of args) = 0x2c :: bytes ∧
      Padded Value bytes (.obj (members ++ argsMember args)) := by
  unfold endEvent
  rcases json_of args hsafe with ⟨rfl, hnone⟩ | hsome
  · rw [if_pos hnone]
    simpa [argsMember] using ho.line
  · have hne : (TraceArgs.of args).json ≠ [] := hsome.ne_nil fun _ _ h => h.ne_nil
    have hargs : argsMember args = [("args".toList, .obj (args.map Arg.member))] := by
      cases args with
      | nil => exact absurd rfl hne
      | cons arg args => rfl
    have hobject : Writes
        (out ++ ascii ",\"args\":\x7b" ++ (TraceArgs.of args).json ++ ascii "\x7d")
        (out ++ ascii ",\"args\":") (.obj (args.map Arg.member)) :=
      ⟨_, by simp [ascii], .obj hsome⟩
    rw [if_neg hne, hargs]
    exact (ho.add "args".toList _ (by decide) (by decide) hobject).line

/-- What a caller promises of an event: its category and keys are appended as they are. -/
def Event.Safe : Event → Prop
  | complete category _ _ _ args _ | begin _ category _ args _ | «end» _ category _ args _ =>
    JsonSafe category ∧ ∀ arg ∈ args, JsonSafe arg.key
  | flowOut _ category _ _ _ | flowIn _ category _ _ _ => JsonSafe category

theorem line_flow (hphase : Plain phase) (hcategory : JsonSafe category) (name : ByteString)
    (row : TraceLane) (id : UInt64) (now : Int) :
    ∃ bytes, flow origin phase row category name id now = 0x2c :: bytes ∧
      Padded Value bytes (.obj (header origin phase category name now row ++
        [("bp".toList, .str ['e']), ("id".toList, .num id.toNat)])) := by
  have hbegun := open_beginEvent origin hphase hcategory name now row
  have he : Chars (ascii "e") ['e'] := Chars.text (by decide : AllUnescaped ['e'])
  have hbp := hbegun.add "bp".toList (ascii ",\"bp\":") (by decide) (by decide)
    (writes_quoted _ he)
  have hid := hbp.add "id".toList (ascii ",\"id\":") (by decide) (by decide)
    (writes_natural _ id.toNat)
  have hquotes : ascii ",\"bp\":\"e\",\"id\":" =
      ascii ",\"bp\":" ++ (quoted (ascii "e") ++ ascii ",\"id\":") := by decide
  rw [List.append_assoc, List.append_assoc, ← hquotes, List.append_assoc] at hid
  exact hid.line

/-- An event is rendered as a separator and one JSON value, which says what it says. -/
theorem line_render (origin : Int) {e : Event} (hsafe : e.Safe) :
    ∃ bytes, e.render origin = 0x2c :: bytes ∧ Padded Value bytes (e.value origin) := by
  cases e with
  | complete category name start finish args row =>
    have hx : Plain 'X' := by decide
    have hbegun := open_beginEvent origin hx hsafe.1 name start row
    have hdur := hbegun.add "dur".toList (ascii ",\"dur\":") (by decide) (by decide)
      (writes_appendMicroseconds _ (finish - start))
    exact line_endEvent hdur hsafe.2
  | begin lane category name args now =>
    exact line_endEvent (open_beginEvent origin (by decide) hsafe.1 _ now lane) hsafe.2
  | «end» lane category name args now =>
    exact line_endEvent (open_beginEvent origin (by decide) hsafe.1 _ now lane) hsafe.2
  | flowOut lane category name id now => exact line_flow (by decide) hsafe name lane id now
  | flowIn lane category name id now => exact line_flow (by decide) hsafe name lane id now

end Events

section Names

/-- What naming a process says. -/
def processValue (id : UInt32) (name : ByteString) : Json :=
  .obj [("ph".toList, .str ['M']), ("name".toList, .str "process_name".toList),
    ("pid".toList, .num id.toNat), ("args".toList, .obj [("name".toList, .str (lossy name))])]

/-- What naming a row says. -/
def rowValue (row : TraceLane) (name : ByteString) : Json :=
  .obj [("ph".toList, .str ['M']), ("name".toList, .str "thread_name".toList),
    ("pid".toList, .num row.process.toNat), ("tid".toList, .num row.row.toNat),
    ("args".toList, .obj [("name".toList, .str (lossy name))])]

/-- What every name starts with. -/
theorem open_name (kind : List Char) (hkind : AllUnescaped kind) (pid : Nat) :
    Open [] (appendNumber (ascii "\x7b\"ph\":" ++ quoted (ascii "M") ++ ascii ",\"name\":" ++
        quoted (encode kind) ++ ascii ",\"pid\":") pid)
      [("ph".toList, .str ['M']), ("name".toList, .str kind), ("pid".toList, .num pid)] := by
  have hm : Chars (ascii "M") ['M'] := Chars.text (by decide : AllUnescaped ['M'])
  have hph := Open.start "ph".toList (ascii "\x7b\"ph\":") (by decide) (by decide)
    (writes_quoted ([] ++ _) hm)
  have hname := hph.add "name".toList (ascii ",\"name\":") (by decide) (by decide)
    (writes_quoted _ (.text hkind))
  exact hname.add "pid".toList (ascii ",\"pid\":") (by decide) (by decide) (writes_natural _ pid)

/-- What every name ends with: the name itself. -/
theorem line_name {out : ByteString} {members : List (List Char × Json)} (ho : Open [] out members)
    (name : ByteString) :
    Padded Value
      (appendJsonString (out ++ ascii ",\"args\":\x7b\"name\":") name ++ ascii "\x7d\x7d\n")
      (.obj (members ++ [("args".toList, .obj [("name".toList, .str (lossy name))])])) := by
  have hargs := (Open.start "name".toList (ascii "\x7b\"name\":") (by decide) (by decide)
    (writes_appendJsonString (out ++ ascii ",\"args\":" ++ _) name)).close
  obtain ⟨bytes, hbytes, hvalue⟩ := (ho.add "args".toList _ (by decide) (by decide) hargs).close
  have hsplit : ascii ",\"args\":\x7b\"name\":" = ascii ",\"args\":" ++ ascii "\x7b\"name\":" := by
    decide
  have hend : ascii "\x7d\x7d\n" = [0x7d] ++ [0x7d] ++ ascii "\n" := by decide
  rw [hsplit, hend, ← List.append_assoc, ← List.append_assoc, ← List.append_assoc, hbytes]
  exact .line hvalue

theorem padded_processName (id : UInt32) (name : ByteString) :
    Padded Value (processName id name) (processValue id name) := by
  have ho := open_name "process_name".toList (by decide) id.toNat
  have hliteral : ascii "\x7b\"ph\":\"M\",\"name\":\"process_name\",\"pid\":" =
      ascii "\x7b\"ph\":" ++ quoted (ascii "M") ++ ascii ",\"name\":" ++
        quoted (encode "process_name".toList) ++ ascii ",\"pid\":" := by decide
  rw [← hliteral] at ho
  exact line_name ho name

theorem padded_rowName (row : TraceLane) (name : ByteString) :
    Padded Value (rowName row name) (rowValue row name) := by
  have ho := open_name "thread_name".toList (by decide) row.process.toNat
  have hliteral : ascii "\x7b\"ph\":\"M\",\"name\":\"thread_name\",\"pid\":" =
      ascii "\x7b\"ph\":" ++ quoted (ascii "M") ++ ascii ",\"name\":" ++
        quoted (encode "thread_name".toList) ++ ascii ",\"pid\":" := by decide
  rw [← hliteral] at ho
  exact line_name (ho.add "tid".toList (ascii ",\"tid\":") (by decide) (by decide)
    (writes_natural _ row.row.toNat)) name

end Names

end MakeBelieve.Tracer
