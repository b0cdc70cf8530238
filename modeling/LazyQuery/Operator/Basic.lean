import LazyQuery.Error

/-!
# Operators

The operators of a query.  Operators that differ in one trait only share a constructor: the ordering operators in
direction and in whether they start an ordering or refine one, the element operators in what they make of an absent item.

* `Operator.catalog` — all operators;
* `Operator.name`, `Operator.ofName` — their names;
* `Operator.isTerminal` — the operators that consume their source and answer with a value.
-/

namespace LazyQuery

inductive Direction where
  | ascending
  | descending
  deriving DecidableEq, Repr

namespace Direction

def name : Direction → String
  | .ascending => "asc"
  | .descending => "desc"

/-- The given order in this direction. -/
def apply : Direction → Ordering → Ordering
  | .ascending, o => o
  | .descending, o => o.swap

end Direction

/-- The place of an ordering operator: it starts an ordering, or refines the one before it. -/
inductive OrderingPlace where
  | starts
  | continues
  deriving DecidableEq, Repr

/-- What becomes of an item that is not there: an error, or no value. -/
inductive WhenAbsent where
  | fails
  | noValue
  deriving DecidableEq, Repr

inductive Operator where
  | filter
  | ofType
  | cast
  | select
  | selectMany
  | joinWith
  | groupJoin
  | take
  | skip
  | takeWhile
  | skipWhile
  | groupBy
  | distinct
  | concatWith
  | zip
  | union
  | intersect
  | except
  | defaultIfEmpty
  | reverse
  | order (place : OrderingPlace) (direction : Direction)
  | first (whenAbsent : WhenAbsent)
  | last (whenAbsent : WhenAbsent)
  | single (whenAbsent : WhenAbsent)
  | elementAt (whenAbsent : WhenAbsent)
  | contains
  | sequenceEqual
  | any
  | all
  | count
  | min
  | max
  | sum
  | average
  | aggregate
  deriving DecidableEq, Repr

namespace Operator

def catalog : List Operator :=
  [.filter, .ofType, .cast, .select, .selectMany, .joinWith, .groupJoin, .take, .skip, .takeWhile, .skipWhile,
    .groupBy, .distinct, .concatWith, .zip, .union, .intersect, .except, .defaultIfEmpty, .reverse,
    .order .starts .ascending, .order .starts .descending,
    .order .continues .ascending, .order .continues .descending,
    .first .fails, .first .noValue, .last .fails, .last .noValue, .single .fails, .single .noValue,
    .elementAt .fails, .elementAt .noValue,
    .contains, .sequenceEqual, .any, .all, .count, .min, .max, .sum, .average, .aggregate]

/-- The name of an element operator. -/
def elementName (base : String) : WhenAbsent → String
  | .fails => base
  | .noValue => base ++ "OrDefault"

def name : Operator → String
  | .filter => "where"
  | .ofType => "ofType"
  | .cast => "cast"
  | .select => "select"
  | .selectMany => "selectMany"
  | .joinWith => "joinWith"
  | .groupJoin => "groupJoin"
  | .take => "take"
  | .skip => "skip"
  | .takeWhile => "takeWhile"
  | .skipWhile => "skipWhile"
  | .groupBy => "groupBy"
  | .distinct => "distinct"
  | .concatWith => "concatWith"
  | .zip => "zip"
  | .union => "union"
  | .intersect => "intersect"
  | .except => "except"
  | .defaultIfEmpty => "defaultIfEmpty"
  | .reverse => "reverse"
  | .order .starts .ascending => "orderBy"
  | .order .starts .descending => "orderByDescending"
  | .order .continues .ascending => "thenBy"
  | .order .continues .descending => "thenByDescending"
  | .first whenAbsent => elementName "first" whenAbsent
  | .last whenAbsent => elementName "last" whenAbsent
  | .single whenAbsent => elementName "single" whenAbsent
  | .elementAt whenAbsent => elementName "elementAt" whenAbsent
  | .contains => "contains"
  | .sequenceEqual => "sequenceEqual"
  | .any => "any"
  | .all => "all"
  | .count => "count"
  | .min => "min"
  | .max => "max"
  | .sum => "sum"
  | .average => "average"
  | .aggregate => "aggregate"

def ofName (name : String) : Except QueryError Operator :=
  match catalog.find? fun operator => operator.name == name with
  | some operator => .ok operator
  | none => .error (.unknownOperator name)

def startsOrdering : Operator → Bool
  | .order .starts _ => true
  | _ => false

def continuesOrdering : Operator → Bool
  | .order .continues _ => true
  | _ => false

def isOrdering : Operator → Bool
  | .order _ _ => true
  | _ => false

def isDescending : Operator → Bool
  | .order _ .descending => true
  | _ => false

/-- Does the operator answer with a value rather than with a sequence? -/
def isTerminal : Operator → Bool
  | .first _ | .last _ | .single _ | .elementAt _ => true
  | .contains | .sequenceEqual | .any | .all => true
  | .count | .min | .max | .sum | .average | .aggregate => true
  | _ => false

end Operator

end LazyQuery
