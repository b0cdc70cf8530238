import LazyQuery.Log.Severity

/-!
# Events

What the engine reports about its work, each event at a severity of its own.
-/

namespace LazyQuery.Log

inductive Event where
  | configLoaded
  /-- A run of parts begins. -/
  | queryBegin
  /-- All parts are applied. -/
  | queryComplete
  /-- A part, or the source, was refused. -/
  | queryRejected
  /-- A run of ordering parts became one sort. -/
  | orderFused
  /-- A part is handed to its operator. -/
  | operatorDispatch
  deriving DecidableEq, Repr

namespace Event

def all : List Event :=
  [.configLoaded, .queryBegin, .queryComplete, .queryRejected, .orderFused, .operatorDispatch]

def name : Event → String
  | .configLoaded => "CONFIG_LOADED"
  | .queryBegin => "QUERY_BEGIN"
  | .queryComplete => "QUERY_COMPLETE"
  | .queryRejected => "QUERY_REJECTED"
  | .orderFused => "ORDER_FUSED"
  | .operatorDispatch => "OPERATOR_DISPATCH"

def severity : Event → Severity
  | .configLoaded => .info
  | .queryRejected => .warn
  | _ => .trace

end Event

end LazyQuery.Log
