import LazyQuery.Sequence.Basic

/-!
# Consuming a sequence

`Sequence.reduce` goes through a sequence step by step until an item settles the result, or until the sequence ends or
fails.  Sequences may be endless, so it works within a budget of steps; without a result in the budget there is none.
-/

namespace LazyQuery

/-- Work that may fail with a query error, and that may run out of its budget. -/
abbrev Eval := ExceptT QueryError (OptionT Eff)

namespace Eval

def outOfBudget {α : Type} : Eval α :=
  ExceptT.mk (OptionT.mk (pure none))

def ofExcept {α : Type} : Except QueryError α → Eval α
  | .ok result => return result
  | .error e => throw e

end Eval

/-- After an item: go on with a new state, or have the result. -/
inductive Verdict (σ α : Type) where
  | more (state : σ)
  | settled (result : α)

namespace Sequence

variable {σ α : Type}

/-- Carries a state through the items, in order; `finish` makes the result when there are no more items. -/
def reduce (step : σ → Item → Eval (Verdict σ α)) (finish : σ → Except QueryError α) :
    Nat → σ → Sequence → Eval α
  | 0, _, _ => Eval.outOfBudget
  | budget + 1, state, s => do
    match ← s.advance with
    | (none, s) => reduce step finish budget state s
    | (some .finished, _) => Eval.ofExcept (finish state)
    | (some (.failure e), _) => throw e
    | (some (.item item), s) =>
      match ← step state item with
      | .more state => reduce step finish budget state s
      | .settled result => return result

/-- All items, or the error that ends them. -/
def collect (budget : Nat) (s : Sequence) : Eval (List Item) :=
  reduce (fun held item => return .more (item :: held)) (fun held => .ok held.reverse) budget [] s

end Sequence

end LazyQuery
