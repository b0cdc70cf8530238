import LazyQuery.Operator.Lazy
import LazyQuery.Operator.Sorting
import LazyQuery.Operator.Terminal
import LazyQuery.Output

/-!
# Applying a part

* `Part.source` — the sequence that a part works on;
* `Part.plan` — the stages that a part puts on its source, or the way it consumes it; reading the arguments is all the
  work there is in a plan;
* `apply` — a part applied to the output of the parts before it.
-/

namespace LazyQuery

inductive Plan where
  /-- Stages to put on the source, the first of them nearest to it. -/
  | lazily (stages : List Stage)
  /-- Going through the source, within a budget of steps. -/
  | eagerly (run : Nat → Sequence → Eval Output)

namespace Plan

/-- Consumption that comes to an item, or to none. -/
def finding (run : Nat → Sequence → Eval (Option Item)) : Plan :=
  .eagerly fun budget s => return .ofOption (← run budget s)

def answering (run : Nat → Sequence → Eval Bool) : Plan :=
  .eagerly fun budget s => return .value (.bool (← run budget s))

def computing (run : Nat → Sequence → Eval Number) : Plan :=
  .eagerly fun budget s => return .value (.number (← run budget s))

def choosing (run : Nat → Sequence → Eval Item) : Plan :=
  .eagerly fun budget s => return .value (← run budget s)

end Plan

namespace Part

/-- Only `defaultIfEmpty` works on no value and on null: for it they are the empty sequence. -/
def source (part : Part) (input : Output) : Except QueryError Sequence :=
  match part.operator, input with
  | .defaultIfEmpty, .absent => .ok .empty
  | .defaultIfEmpty, .value .null => .ok .empty
  | _, input => input.toSequence

/-- The equality of `distinct`: the given function's, or else the loose one. -/
def equality (part : Part) : Equality :=
  match part.function? 0 with
  | some f => .custom f.test2
  | none => .loose

def plan (part : Part) : Except QueryError Plan :=
  let name := part.operator.name
  match part.operator with
  | .filter => do
    let predicate ← part.requireFunction 0 "predicate"
    return .lazily [.filterBy predicate]
  | .ofType => do return .lazily [.ofType (← part.requireType)]
  | .cast => do return .lazily [.cast (← part.requireType)]
  | .select => do return .lazily [.select (← part.requireFunction 0 "selector")]
  | .selectMany => do
    return .lazily [.selectMany (← part.requireFunction 0 "selector") (part.function? 1)]
  | .joinWith => do
    let inner ← part.requireElements 0 "inner sequence"
    let outerKey ← part.requireFunction 1 "outer key selector"
    let innerKey ← part.requireFunction 2 "inner key selector"
    return .lazily [.joinWith inner outerKey innerKey (part.function? 3)]
  | .groupJoin => do
    let inner ← part.requireElements 0 "inner sequence"
    let outerKey ← part.requireFunction 1 "outer key selector"
    let innerKey ← part.requireFunction 2 "inner key selector"
    return .lazily [.groupJoin inner outerKey innerKey (part.function? 3)]
  | .take => do return .lazily [.take (← part.requireInteger 0 "count").toNat]
  | .skip => do return .lazily [.skip (← part.requireInteger 0 "count").toNat]
  | .takeWhile => do
    let predicate ← part.requireFunction 0 "predicate"
    return .lazily [.takeWhile predicate.test]
  | .skipWhile => do
    let predicate ← part.requireFunction 0 "predicate"
    return .lazily [.skipWhile predicate.test false]
  | .groupBy => do
    return .lazily [.groupBy (← part.requireFunction 0 "key selector") (part.function? 1)]
  | .distinct => return .lazily [.distinct part.equality []]
  | .concatWith => do return .lazily [.append (← part.requireElements 0 "other sequence")]
  | .zip => do
    return .lazily [.zipWith (← part.requireElements 0 "other sequence") (part.function? 1)]
  | .union => do return .lazily (Stage.union (← part.requireElements 0 "other sequence"))
  | .intersect => do return .lazily (Stage.intersect (← part.requireElements 0 "other sequence"))
  | .except => do return .lazily (Stage.except (← part.requireElements 0 "other sequence"))
  | .defaultIfEmpty => return .lazily (Stage.defaultIfEmpty (part.literal? 0))
  | .reverse => return .lazily [.reverse]
  | .order _ _ => do return .lazily [.gather (sortByKeys [← SortKey.ofPart part]) []]
  | .first whenAbsent => return .finding (Sequence.first name whenAbsent (part.function? 0))
  | .last whenAbsent => return .finding (Sequence.last name whenAbsent (part.function? 0))
  | .single whenAbsent => return .finding (Sequence.single name whenAbsent (part.function? 0))
  | .elementAt whenAbsent => do
    return .finding (Sequence.elementAt whenAbsent (← part.requireInteger 0 "index"))
  | .contains => do return .answering (Sequence.contains (← part.requireLiteral 0 "item"))
  | .sequenceEqual => do
    return .answering (Sequence.equalTo (← part.requireElements 0 "other sequence"))
  | .any => return .answering (Sequence.any (part.function? 0))
  | .all => do return .answering (Sequence.all (← part.requireFunction 0 "predicate"))
  | .count => return .computing fun budget s => do return .ofNat (← s.count (part.function? 0) budget)
  | .min => return .choosing (Sequence.extreme name .lt (part.function? 0))
  | .max => return .choosing (Sequence.extreme name .gt (part.function? 0))
  | .sum => return .computing (Sequence.sum (part.function? 0))
  | .average => return .computing (Sequence.average (part.function? 0))
  | .aggregate => do
    let folder ← part.requireFunction 0 "folder"
    return .choosing (Sequence.aggregate folder (part.literal? 1) (part.function? 2))

end Part

/-- Applies a part to the output of the parts before it.  The source is settled first, then the arguments are read; only
then is there any work on items. -/
def apply (budget : Nat) (input : Output) (part : Part) : Eval Output := do
  let source ← Eval.ofExcept (part.source input)
  match ← Eval.ofExcept part.plan with
  | .lazily stages => return .sequence (source.withStages stages)
  | .eagerly run => run budget source

end LazyQuery
