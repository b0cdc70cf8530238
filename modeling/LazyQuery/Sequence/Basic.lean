import LazyQuery.Sequence.Stage

/-!
# Sequences

A sequence hands out items one at a time and works only when it is asked.  It can be gone through once: after it has
ended or failed it is exhausted.

* `Sequence.advance` — one step of work, which may or may not bring a reply;
* `Sequence.poll` — steps until there is a reply, as far as a budget of steps lasts;
* `Sequence.collect` — all the items;
* `Sequence.ofItems`, `Sequence.ofItem?`, `Sequence.range`, `Sequence.replicate` — sequences to start from.
-/

namespace LazyQuery

/-- The answer of a sequence that is asked for an item. -/
inductive Reply where
  | item (item : Item)
  | failure (e : QueryError)
  | finished

inductive Sequence where
  /-- Nothing more: the sequence has ended or failed. -/
  | exhausted
  /-- Asks `produce`, which finds the state that it left behind when it was asked before, and leaves a new one. -/
  | producer (produce : Nat → Eff (Reply × Nat)) (state : Nat)
  /-- The given items, each made when it is handed out. -/
  | queue (cells : List (Eff Item))
  /-- All items, or an error, made when the first is asked for. -/
  | deferred (materialize : Eff (Except QueryError (List Item)))
  /-- The items of a source as a stage passes them on. -/
  | through (stage : Stage) (source : Sequence)

/-- The answer of a stage after an arrival from its source, which is `source` from then on; and what there is then. -/
def Outcome.reply (source : Sequence) : Outcome → Option Reply × Sequence
  | .yield item next => (some (.item item), .through next source)
  | .drop next => (none, .through next source)
  | .stop => (some .finished, .exhausted)
  | .fail e => (some (.failure e), .exhausted)

namespace Sequence

def isExhausted : Sequence → Bool
  | .exhausted => true
  | _ => false

def description (s : Sequence) : String :=
  "Sequence \x7b exhausted: " ++ (if s.isExhausted then "true" else "false") ++ ", .. \x7d"

/-- One step of work.  There is no reply when a stage has dropped what came, or has only got ready. -/
def advance : Sequence → Eff (Option Reply × Sequence)
  | .exhausted => return (some .finished, .exhausted)
  | .producer produce state => do
    match ← produce state with
    | (.item item, state) => return (some (.item item), .producer produce state)
    | (.failure e, _) => return (some (.failure e), .exhausted)
    | (.finished, _) => return (some .finished, .exhausted)
  | .queue [] => return (some .finished, .exhausted)
  | .queue (cell :: cells) => do return (some (.item (← cell)), .queue cells)
  | .deferred materialize => do
    match ← materialize with
    | .ok items => return (none, .queue (items.map pure))
    | .error e => return (some (.failure e), .exhausted)
  | .through stage source =>
    match stage.demand with
    | .emit item next => return (some (.item item), .through next source)
    | .stop => return (some .finished, .exhausted)
    | .ask => do
      let (reply, source) ← source.advance
      match reply with
      | none => return (none, .through stage source)
      | some .finished => return (none, .queue (← stage.close))
      | some (.failure e) => return (← stage.receive (.error e)).reply source
      | some (.item item) => return (← stage.receive item).reply source

/-- The next reply, and the sequence after it; nothing if the budget of steps is spent before. -/
def poll : Nat → Sequence → Eff (Option (Reply × Sequence))
  | 0, _ => return none
  | budget + 1, s => do
    match ← s.advance with
    | (some reply, s) => return some (reply, s)
    | (none, s) => poll budget s

/-! ## Sequences to start from -/

def empty : Sequence :=
  .queue []

def ofItems (items : List Item) : Sequence :=
  .queue (items.map pure)

/-- The elements of an array.  No other item is a source. -/
def ofItem? : Item → Except QueryError Sequence
  | .array _ elements => .ok (ofItems elements)
  | .null => .error (.invalidSource "source is null")
  | other => .error (.invalidSource ("expected an array, got " ++ other.typeTag.name))

/-- Asked for the `k`th time, answers with the `k`th item of the first `count`. -/
def counted (count : Nat) (item : Nat → Item) : Sequence :=
  .producer (fun k => return (if k < count then .item (item k) else .finished, k + 1)) 0

/-- The `count` integers from `start` on.  The last of them must be one of 64 bits. -/
def range (start count : Int) : Except QueryError Sequence :=
  if count < 0 then .error (.negativeCount count)
  else if 0 < count ∧ Number.maxInteger < start + (count - 1) then
    .error (.invalidArgument "range"
      (toString count ++ " values from " ++ toString start ++ " overflow"))
  else .ok (counted count.toNat fun k => .number (.ofInt (start + k)))

/-- One item `count` times. -/
def replicate (item : Item) (count : Int) : Except QueryError Sequence :=
  if count < 0 then .error (.negativeCount count)
  else .ok (counted count.toNat fun _ => item)

end Sequence

end LazyQuery
