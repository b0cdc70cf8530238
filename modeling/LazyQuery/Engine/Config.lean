import LazyQuery.Log.Record

/-!
# Configuration

From which severity on the engine logs, and whether it logs each part that it hands to an operator.
-/

namespace LazyQuery

structure Config where
  logLevel : Log.Severity := .info
  traceDispatch : Bool := false
  deriving DecidableEq, Repr

namespace Config

def verbose : Config where
  logLevel := .trace
  traceDispatch := true

def quiet : Config where
  logLevel := .warn

/-- Are events of this severity logged? -/
def logs (config : Config) (severity : Log.Severity) : Bool :=
  severity.atLeast config.logLevel

end Config

end LazyQuery
