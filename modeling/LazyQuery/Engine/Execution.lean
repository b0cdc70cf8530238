import LazyQuery.Log.Record
import LazyQuery.Sequence.Reduce

/-!
# Work that logs

An engine logs what it does.  The log stands beside the work: neither the functions in a query nor the producers of its
sources can look at it.

* `Logged` — work in a session, with what it logs;
* `Execution` — the same, where the work may also fail or run out of its budget.
-/

namespace LazyQuery

/-- Work in a session and the records that it logs, in order. -/
def Logged (α : Type) : Type :=
  Eff (α × List Log.Record)

namespace Logged

variable {α β : Type}

def run (work : Logged α) : Eff (α × List Log.Record) :=
  work

def record (entry : Log.Record) : Logged Unit :=
  (return ((), [entry]) : Eff _)

/-- Work that logs nothing. -/
def silent (work : Eff α) : Logged α :=
  (do return (← work, []) : Eff _)

instance : Monad Logged where
  pure a := (return (a, []) : Eff _)
  bind work next :=
    (do
      let (a, first) ← work.run
      let (b, second) ← (next a).run
      return (b, first ++ second) : Eff _)

/-- The work without its log. -/
def unlogged (work : Logged α) : Eff α := do
  return (← work.run).1

end Logged

abbrev Execution := ExceptT QueryError (OptionT Logged)

namespace Execution

variable {α : Type}

/-- Work that logs nothing. -/
def silent (work : Eval α) : Execution α :=
  ExceptT.mk (OptionT.mk (.silent work.run.run))

def ofExcept (result : Except QueryError α) : Execution α :=
  silent (Eval.ofExcept result)

/-- The work without its log. -/
def unlogged (work : Execution α) : Eval α :=
  ExceptT.mk (OptionT.mk work.run.run.unlogged)

end Execution

end LazyQuery
