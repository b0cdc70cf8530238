import LazyQuery.Engine.Execute

/-!
# Building queries

A query is put together by adding parts one after another.  The functions here know which arguments each operator takes;
the `…Where`, `…By` and `…With` forms are those with a function more.
-/

namespace LazyQuery

structure Query where
  parts : List Part := []

namespace Query

/-- The query with one more part at its end. -/
def push (query : Query) (operator : Operator) (arguments : List Argument) : Query :=
  ⟨query.parts ++ [⟨operator, arguments⟩]⟩

/-- A part whose only argument is a predicate. -/
def pushPredicate (query : Query) (operator : Operator) (p : Item → Eff Bool) : Query :=
  query.push operator [.function (.predicate p)]

/-- A part whose only argument is a function of one item. -/
def pushUnary (query : Query) (operator : Operator) (f : Item → Eff Item) : Query :=
  query.push operator [.function (.unary f)]

/-- A part whose only argument is an item. -/
def pushItem (query : Query) (operator : Operator) (item : Item) : Query :=
  query.push operator [.literal item]

/-- A part whose only argument is a count or an index, as the nearest number. -/
def pushInteger (query : Query) (operator : Operator) (n : Int) : Query :=
  query.pushItem operator (.number (.ofInt n))

/-! ## Filtering -/

def filter (query : Query) (p : Item → Eff Bool) : Query :=
  query.pushPredicate .filter p

def ofType (query : Query) (name : String) : Query :=
  query.pushItem .ofType (.string name)

def cast (query : Query) (name : String) : Query :=
  query.pushItem .cast (.string name)

/-! ## Projection -/

def select (query : Query) (selector : Item → Eff Item) : Query :=
  query.pushUnary .select selector

def selectMany (query : Query) (selector : Item → Eff Item) : Query :=
  query.pushUnary .selectMany selector

/-- `selectMany` with a function of the outer and the inner item. -/
def selectManyWith (query : Query) (selector : Item → Eff Item) (result : Item → Item → Eff Item) : Query :=
  query.push .selectMany [.function (.unary selector), .function (.binary result)]

/-! ## Joining -/

def joinWith (query : Query) (inner : Item) (outerKey innerKey : Item → Eff Item) : Query :=
  query.push .joinWith [.literal inner, .function (.unary outerKey), .function (.unary innerKey)]

def groupJoin (query : Query) (inner : Item) (outerKey innerKey : Item → Eff Item) : Query :=
  query.push .groupJoin [.literal inner, .function (.unary outerKey), .function (.unary innerKey)]

/-! ## Partitioning -/

def take (query : Query) (count : Int) : Query :=
  query.pushInteger .take count

def skip (query : Query) (count : Int) : Query :=
  query.pushInteger .skip count

def takeWhile (query : Query) (p : Item → Eff Bool) : Query :=
  query.pushPredicate .takeWhile p

def skipWhile (query : Query) (p : Item → Eff Bool) : Query :=
  query.pushPredicate .skipWhile p

/-! ## Grouping -/

def groupBy (query : Query) (key : Item → Eff Item) : Query :=
  query.pushUnary .groupBy key

/-- `groupBy` with a function of the key and the array of its items. -/
def groupByWith (query : Query) (key : Item → Eff Item) (result : Item → Item → Eff Item) : Query :=
  query.push .groupBy [.function (.unary key), .function (.binary result)]

def distinct (query : Query) : Query :=
  query.push .distinct []

def distinctBy (query : Query) (comparer : Item → Item → Eff Bool) : Query :=
  query.push .distinct [.function (.comparer comparer)]

/-! ## Combination -/

def concatWith (query : Query) (other : Item) : Query :=
  query.pushItem .concatWith other

def zip (query : Query) (other : Item) : Query :=
  query.pushItem .zip other

def zipWith (query : Query) (other : Item) (result : Item → Item → Eff Item) : Query :=
  query.push .zip [.literal other, .function (.binary result)]

def union (query : Query) (other : Item) : Query :=
  query.pushItem .union other

def intersect (query : Query) (other : Item) : Query :=
  query.pushItem .intersect other

def except (query : Query) (other : Item) : Query :=
  query.pushItem .except other

/-- Without a default the part hands its source on. -/
def defaultIfEmpty (query : Query) (fallback : Option Item) : Query :=
  query.push .defaultIfEmpty (fallback.toList.map .literal)

def reverse (query : Query) : Query :=
  query.push .reverse []

/-! ## Ordering -/

def orderBy (query : Query) (key : Item → Eff Item) : Query :=
  query.pushUnary (.order .starts .ascending) key

def orderByDescending (query : Query) (key : Item → Eff Item) : Query :=
  query.pushUnary (.order .starts .descending) key

def thenBy (query : Query) (key : Item → Eff Item) : Query :=
  query.pushUnary (.order .continues .ascending) key

def thenByDescending (query : Query) (key : Item → Eff Item) : Query :=
  query.pushUnary (.order .continues .descending) key

/-! ## Element access -/

def first (query : Query) : Query :=
  query.push (.first .fails) []

def firstWhere (query : Query) (p : Item → Eff Bool) : Query :=
  query.pushPredicate (.first .fails) p

def firstOrDefault (query : Query) : Query :=
  query.push (.first .noValue) []

def last (query : Query) : Query :=
  query.push (.last .fails) []

def lastWhere (query : Query) (p : Item → Eff Bool) : Query :=
  query.pushPredicate (.last .fails) p

def lastOrDefault (query : Query) : Query :=
  query.push (.last .noValue) []

def single (query : Query) : Query :=
  query.push (.single .fails) []

def singleWhere (query : Query) (p : Item → Eff Bool) : Query :=
  query.pushPredicate (.single .fails) p

def singleOrDefault (query : Query) : Query :=
  query.push (.single .noValue) []

def elementAt (query : Query) (index : Int) : Query :=
  query.pushInteger (.elementAt .fails) index

def elementAtOrDefault (query : Query) (index : Int) : Query :=
  query.pushInteger (.elementAt .noValue) index

/-! ## Quantifiers -/

def contains (query : Query) (item : Item) : Query :=
  query.pushItem .contains item

def sequenceEqual (query : Query) (other : Item) : Query :=
  query.pushItem .sequenceEqual other

def any (query : Query) : Query :=
  query.push .any []

def anyWhere (query : Query) (p : Item → Eff Bool) : Query :=
  query.pushPredicate .any p

def all (query : Query) (p : Item → Eff Bool) : Query :=
  query.pushPredicate .all p

/-! ## Aggregates -/

def count (query : Query) : Query :=
  query.push .count []

def countWhere (query : Query) (p : Item → Eff Bool) : Query :=
  query.pushPredicate .count p

def min (query : Query) : Query :=
  query.push .min []

def minBy (query : Query) (selector : Item → Eff Item) : Query :=
  query.pushUnary .min selector

def max (query : Query) : Query :=
  query.push .max []

def maxBy (query : Query) (selector : Item → Eff Item) : Query :=
  query.pushUnary .max selector

def sum (query : Query) : Query :=
  query.push .sum []

def sumBy (query : Query) (selector : Item → Eff Item) : Query :=
  query.pushUnary .sum selector

def average (query : Query) : Query :=
  query.push .average []

def averageBy (query : Query) (selector : Item → Eff Item) : Query :=
  query.pushUnary .average selector

def aggregate (query : Query) (folder : Item → Item → Eff Item) : Query :=
  query.push .aggregate [.function (.binary folder)]

def aggregateSeeded (query : Query) (seed : Item) (folder : Item → Item → Eff Item) : Query :=
  query.push .aggregate [.function (.binary folder), .literal seed]

/-- `aggregate` from a seed over what the projection makes of the items. -/
def aggregateProjected (query : Query) (seed : Item) (folder : Item → Item → Eff Item)
    (projection : Item → Eff Item) : Query :=
  query.push .aggregate [.function (.binary folder), .literal seed, .function (.unary projection)]

/-! ## Running -/

/-- Runs the query on an item with the default configuration. -/
def execute (query : Query) (queryId : String) (budget : Nat) (source : Item) : Execution Output :=
  Engine.execute { queryId, budget } source query.parts

/-- Runs the query on a sequence with the default configuration. -/
def executeSequence (query : Query) (queryId : String) (budget : Nat) (source : Sequence) : Execution Output :=
  Engine.executeSequence { queryId, budget } source query.parts

end Query

end LazyQuery
