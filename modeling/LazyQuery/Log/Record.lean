import LazyQuery.Log.Event
import LazyQuery.Text.Quoted

/-!
# Log records

A record is written as one line that holds a JSON object: the event first, then the severity, then the fields by key.  Texts
are put into quotes by a writer of JSON, which is a parameter.

* `Record.lineWith` — the line of a record, its texts written by a given writer;
* `Record.line` — the same with `quote`, which writes every text;
* `Record.channel` — where the line goes.
-/

namespace LazyQuery.Log

structure Record where
  severity : Severity
  event : String
  fields : List (String × String)
  deriving DecidableEq, Repr

/-- Where a line is written to. -/
inductive Channel where
  | output
  | errors
  deriving DecidableEq, Repr

namespace Record

/-- The record of an event at its own severity. -/
def ofEvent (event : Event) (fields : List (String × String)) : Record :=
  ⟨event.severity, event.name, fields⟩

def channel (record : Record) : Channel :=
  if record.severity.atLeast .error then .errors else .output

/-- The fields by key, those of one key in the given order. -/
def sortedFields (record : Record) : List (String × String) :=
  record.fields.mergeSort fun a b => (compare a.1 b.1).isLE

section Writer

variable {ε : Type} (write : String → Except ε String)

/-- A text in quotes, and nothing in quotes where it cannot be written. -/
def quoted (text : String) : String :=
  match write text with
  | .ok written => written
  | .error _ => "\"\""

def member (field : String × String) : String :=
  "," ++ quoted write field.1 ++ ":" ++ quoted write field.2

/-- The members of the object, the brace at its end, and the end of the line. -/
def lineWith (record : Record) : String :=
  "\x7b\"event\":" ++ quoted write record.event ++ ",\"severity\":\"" ++ record.severity.name ++ "\""
    ++ String.join (record.sortedFields.map (member write)) ++ "\x7d\n"

end Writer

/-- The writer of all lines, which never fails. -/
def writer (text : String) : Except Empty String :=
  .ok (quote text)

def line (record : Record) : String :=
  record.lineWith writer

end Record

end LazyQuery.Log
