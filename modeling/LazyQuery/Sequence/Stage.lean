import LazyQuery.Callable
import LazyQuery.Error
import LazyQuery.Item.Identified

/-!
# Stages

A stage is one operator at work on what comes from its source: what it does with each arrival, and what it remembers of
those before.

* `Stage.demand` — what the stage does when it is asked: hand out an item it holds, stop, or ask its source;
* `Stage.receive` — what it does with an arrival, that is, with an item of its source or with its error;
* `Stage.close` — what it still hands out when its source has ended.

Each operator says itself what it makes of an error.  Where several operators share a kind of stage, the function that they
give to it takes arrivals, and it comes with what it answers to an error (`Handler`).
-/

namespace LazyQuery

/-- A key and the items that have it, the last one first. -/
structure Group where
  key : Item
  held : List Item

namespace Group

/-- The items of a group in the order in which they came. -/
def items (group : Group) : List Item :=
  group.held.reverse

/-- Adds an item to the first group with an equal key, or starts a group. -/
def add (key item : Item) : List Group → List Group
  | [] => [⟨key, [item]⟩]
  | group :: rest =>
    if group.key.structurallyEqual key then { group with held := item :: group.held } :: rest
    else group :: add key item rest

end Group

/-- What a source brings when it is asked: an item, or its error. -/
abbrev Arrival := Except QueryError Item

/-- An item that arrives. -/
instance : Coe Item Arrival := ⟨.ok⟩

/-- A function of arrivals.  Without any work it answers an error as `onError` says. -/
structure Handler (α : Type) (onError : QueryError → α) where
  handle : Arrival → Eff α
  handle_error (e : QueryError) : handle (.error e) = pure (onError e)

instance {α : Type} {onError : QueryError → α} : CoeFun (Handler α onError) fun _ => Arrival → Eff α := ⟨Handler.handle⟩

inductive Stage where
  /-- Keeps the items that are accepted, and errors. -/
  | filter (accepts : Handler Bool fun _ => true)
  /-- One item, or an error, for each item; for an error that error. -/
  | map (f : Handler (Except QueryError Item) .error)
  /-- Several items, or an error, for each item, and for an error that error; `ready` are those not handed out yet. -/
  | expand (f : Handler (Except QueryError (List Item)) .error) (ready : List Item)
  /-- At most `left` more items. -/
  | take (left : Nat)
  /-- All but the next `left` items. -/
  | skip (left : Nat)
  /-- The items before the first that is not accepted. -/
  | takeWhile (accepts : Item → Eff Bool)
  /-- The items from the first that is not accepted on. -/
  | skipWhile (accepts : Item → Eff Bool) (started : Bool)
  /-- The items that no item kept before equals. -/
  | distinct (equality : Equality) (kept : List Item)
  /-- The items of which no identical one has been seen. -/
  | unique (seen : IdentitySet)
  /-- The items of the source and then those of `tail`. -/
  | append (tail : List Item)
  /-- The items paired with `others`, as long as there are such. -/
  | zip (combine : Item → Item → Eff Item) (others : List Item)
  /-- The items, or `fallback` if there are none. -/
  | orElse (fallback : Item) (yielded : Bool)
  /-- All items arranged anew once the source has ended; `held` are those so far, the last first. -/
  | gather (arrange : List Item → Eff (List Item)) (held : List Item)
  /-- One item for each group of items of equal key, once the source has ended. -/
  | group (key : Item → Eff Item) (emit : Group → Eff Item) (groups : List Group)

/-- What a stage does when it is asked for an item. -/
inductive Demand where
  | emit (item : Item) (next : Stage)
  | stop
  | ask

/-- What a stage makes of an arrival. -/
inductive Outcome where
  | yield (item : Item) (next : Stage)
  | drop (next : Stage)
  | stop
  | fail (e : QueryError)

/-- An arrival that is handed on as it is. -/
def Outcome.handOn (arrival : Arrival) (next : Stage) : Outcome :=
  match arrival with
  | .ok item => .yield item next
  | .error e => .fail e

@[simp] theorem Outcome.handOn_ok (item : Item) (next : Stage) : handOn (.ok item) next = .yield item next := rfl

/-- Is the item equal to one kept before?  The earlier item is the left one of the two. -/
def anyEquals (equality : Equality) (item : Item) : List Item → Eff Bool
  | [] => return false
  | earlier :: rest => do
    if ← equality.holds earlier item then return true else anyEquals equality item rest

namespace Stage

def demand : Stage → Demand
  | .expand f (item :: rest) => .emit item (.expand f rest)
  | .take 0 => .stop
  | .zip _ [] => .stop
  | _ => .ask

def receive (arrival : Arrival) : Stage → Eff Outcome
  | .filter accepts => do
    return if ← accepts arrival then .handOn arrival (.filter accepts) else .drop (.filter accepts)
  | .map f => do return .handOn (← f arrival) (.map f)
  | .expand f ready => do
    match ← f arrival with
    | .ok results => return .drop (.expand f (ready ++ results))
    | .error e => return .fail e
  | .take left => return .handOn arrival (.take (left - 1))
  | .skip 0 => return .handOn arrival (.skip 0)
  | .skip (left + 1) =>
    match arrival with
    | .ok _ => return .drop (.skip left)
    -- errors are never skipped over
    | .error _ => return .handOn arrival (.skip (left + 1))
  | .takeWhile accepts => do
    let goesOn ← match arrival with
      | .ok item => accepts item
      | .error _ => pure true
    return if goesOn then .handOn arrival (.takeWhile accepts) else .stop
  | .skipWhile accepts true => return .handOn arrival (.skipWhile accepts true)
  | .skipWhile accepts false => do
    let waits ← match arrival with
      | .ok item => accepts item
      | .error _ => pure false
    return if waits then .drop (.skipWhile accepts false) else .handOn arrival (.skipWhile accepts true)
  | .distinct equality kept =>
    match arrival with
    | .ok item => do
      return if ← anyEquals equality item kept then .drop (.distinct equality kept)
        else .yield item (.distinct equality (kept ++ [item]))
    | .error _ => return .handOn arrival (.distinct equality kept)
  | .unique seen =>
    match arrival with
    | .ok item =>
      let (fresh, seen) := seen.add item
      return if fresh then .yield item (.unique seen) else .drop (.unique seen)
    | .error _ => return .handOn arrival (.unique seen)
  | .append tail => return .handOn arrival (.append tail)
  | .zip _ [] => return .stop
  | .zip combine (other :: others) =>
    match arrival with
    | .ok item => do return .yield (← combine item other) (.zip combine others)
    | .error e => return .fail e
  -- an error counts as something that the source has brought
  | .orElse fallback _ => return .handOn arrival (.orElse fallback true)
  | .gather arrange held =>
    match arrival with
    | .ok item => return .drop (.gather arrange (item :: held))
    | .error e => return .fail e
  | .group key emit groups =>
    match arrival with
    | .ok item => do return .drop (.group key emit (Group.add (← key item) item groups))
    | .error e => return .fail e

/-- The items left when the source has ended, each made when it is handed out. -/
def close : Stage → Eff (List (Eff Item))
  | .append tail => return tail.map pure
  | .orElse fallback yielded => return if yielded then [] else [pure fallback]
  | .gather arrange held => do return (← arrange held.reverse).map pure
  | .group _ emit groups => return groups.map emit
  | _ => return []

end Stage

end LazyQuery
