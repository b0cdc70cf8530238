import LazyQuery.Engine.Config
import LazyQuery.Engine.Execution
import LazyQuery.Operator.Apply

/-!
# Executing a query

The parts are applied one after another to the output of those before.  A run of ordering parts is not applied part by
part: its keys are collected, and the output from before the run is sorted by all of them at once when the run ends.

* `Engine.run` — the parts applied in order;
* `Engine.executeSequence` — the same, with the beginning and the outcome logged;
* `Engine.execute` — the query on an item, which must be an array unless there are no parts.
-/

namespace LazyQuery

/-- An engine at work on one query. -/
structure Engine where
  config : Config := {}
  /-- What all log records of the query carry. -/
  queryId : String
  /-- How many steps an operator may take that consumes its source. -/
  budget : Nat

namespace Engine

variable (engine : Engine)

/-- Logs an event if the configuration says so. -/
def emit (event : Log.Event) (fields : List (String × String)) : Logged Unit :=
  if engine.config.logs event.severity then .record (.ofEvent event fields) else return ()

/-- Sorts the output from before an ordering run by the keys of the run.  Without keys there is no run. -/
def flush (keys : List SortKey) (current : Output) : Execution Output := do
  if keys.isEmpty then return current
  engine.emit .orderFused [("keys", toString keys.length), ("query_id", engine.queryId)]
  return .sequence ((← Execution.ofExcept current.toSequence).sorted keys)

/-- Hands a part to its operator. -/
def dispatch (current : Output) (part : Part) : Execution Output := do
  if engine.config.traceDispatch then
    engine.emit .operatorDispatch [("operator", part.operator.name), ("query_id", engine.queryId)]
  .silent (apply engine.budget current part)

/-- Applies the parts in order; `pending` are the keys of the ordering run that is open. -/
def run : List SortKey → Output → List Part → Execution Output
  | pending, current, [] => engine.flush pending current
  | pending, current, part :: parts => do
    match part.operator with
    | .order .continues _ =>
      let key ← Execution.ofExcept (SortKey.ofPart part)
      run (pending ++ [key]) current parts
    | .order .starts _ =>
      let current ← engine.flush pending current
      let key ← Execution.ofExcept (SortKey.ofPart part)
      run [key] current parts
    | _ =>
      let current ← engine.flush pending current
      run [] (← engine.dispatch current part) parts

/-- Logs that a query failed. -/
def reject (parts : List Part) (e : QueryError) : Logged Unit :=
  engine.emit .queryRejected
    [("code", e.code), ("message", e.message), ("parts", toString parts.length), ("query_id", engine.queryId)]

/-- Logs that a query came to an output. -/
def complete (parts : List Part) (output : Output) : Logged Unit :=
  engine.emit .queryComplete
    [("parts", toString parts.length), ("query_id", engine.queryId), ("result", output.shape)]

/-- Executes the parts on a sequence. -/
def executeSequence (source : Sequence) (parts : List Part) : Execution Output := do
  engine.emit .queryBegin [("parts", toString parts.length), ("query_id", engine.queryId)]
  let outcome ← tryCatch (Except.ok <$> engine.run [] (.sequence source) parts) fun e => return .error e
  match outcome with
  | .ok output => do
    engine.complete parts output
    return output
  | .error e => do
    engine.reject parts e
    throw e

/-- Executes the parts on an item.  Without parts the item is the output, an array as a sequence. -/
def execute (source : Item) (parts : List Part) : Execution Output := do
  if parts.isEmpty then
    match Sequence.ofItem? source with
    | .ok s => return .sequence s
    | .error _ => return .value source
  else
    match Sequence.ofItem? source with
    | .ok s => engine.executeSequence s parts
    | .error e => do
      engine.reject parts e
      throw e

end Engine

end LazyQuery
