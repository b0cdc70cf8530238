import LazyQuery.Item.Basic

/-!
# Query errors

* `QueryError.code` — the stable code of an error;
* `QueryError.message` — its text;
* `QueryError.isAbsence` — the errors that say that the wanted item is not there.
-/

namespace LazyQuery

inductive QueryError where
  | invalidSource (reason : String)
  | unknownOperator (name : String)
  | invalidArgument (operator reason : String)
  | invalidCast (source target : TypeTag)
  | emptySequence (operator : String)
  | noMatch (operator : String)
  | multipleMatches (operator : String)
  | indexOutOfRange (index : Int) (length : Nat)
  | negativeCount (count : Int)
  deriving DecidableEq, Repr

namespace QueryError

def code : QueryError → String
  | .invalidSource _ => "QUERY_INVALID_SOURCE"
  | .unknownOperator _ => "QUERY_UNKNOWN_OPERATOR"
  | .invalidArgument _ _ => "QUERY_INVALID_ARGUMENT"
  | .invalidCast _ _ => "QUERY_INVALID_CAST"
  | .emptySequence _ => "QUERY_EMPTY_SEQUENCE"
  | .noMatch _ => "QUERY_NO_MATCH"
  | .multipleMatches _ => "QUERY_MULTIPLE_MATCHES"
  | .indexOutOfRange _ _ => "QUERY_INDEX_OUT_OF_RANGE"
  | .negativeCount _ => "QUERY_NEGATIVE_COUNT"

def message : QueryError → String
  | .invalidSource reason => "Invalid source: " ++ reason
  | .unknownOperator name => "Unknown operator: " ++ name
  | .invalidArgument operator reason => "Invalid argument for " ++ operator ++ ": " ++ reason
  | .invalidCast source target => "Cannot cast " ++ source.name ++ " to " ++ target.name
  | .emptySequence operator => operator ++ ": sequence contains no elements"
  | .noMatch operator => operator ++ ": no element satisfies the predicate"
  | .multipleMatches operator => operator ++ ": more than one element satisfies the predicate"
  | .indexOutOfRange index length =>
    "Index " ++ toString index ++ " is out of range for a sequence of length " ++ toString length
  | .negativeCount count => "Count must not be negative: " ++ toString count

/-- The errors of which an operator with a default makes "no value". -/
def isAbsence : QueryError → Bool
  | .emptySequence _ => true
  | .noMatch _ => true
  | .indexOutOfRange _ _ => true
  | _ => false

end QueryError

end LazyQuery
