/-!
# Severities

How grave a logged event is, from detail to what cannot be recovered from.
-/

namespace LazyQuery.Log

inductive Severity where
  | trace
  | info
  | warn
  | error
  | fatal
  deriving DecidableEq, Repr

namespace Severity

def all : List Severity := [.trace, .info, .warn, .error, .fatal]

def name : Severity → String
  | .trace => "TRACE"
  | .info => "INFO"
  | .warn => "WARN"
  | .error => "ERROR"
  | .fatal => "FATAL"

def ofName? (name : String) : Option Severity :=
  all.find? fun severity => severity.name == name

def rank : Severity → Nat
  | .trace => 0
  | .info => 1
  | .warn => 2
  | .error => 3
  | .fatal => 4

/-- At least as grave as. -/
def atLeast (severity level : Severity) : Bool :=
  level.rank ≤ severity.rank

end Severity

end LazyQuery.Log
