import LazyQuery.Callable
import LazyQuery.Item.Convert
import LazyQuery.Operator.Basic

/-!
# Query parts

A part is an operator with its arguments, each an item or a function.  Arguments are read by position; a missing one, or
one of the wrong kind, is an error that names the operator and what it wanted.
-/

namespace LazyQuery

inductive Argument where
  | literal (item : Item)
  | function (f : Callable)

structure Part where
  operator : Operator
  arguments : List Argument

namespace Part

/-- The part for an operator's name. -/
def named (name : String) (arguments : List Argument) : Except QueryError Part := do
  return ⟨← Operator.ofName name, arguments⟩

def function? (part : Part) (position : Nat) : Option Callable :=
  match part.arguments[position]? with
  | some (.function f) => some f
  | _ => none

def literal? (part : Part) (position : Nat) : Option Item :=
  match part.arguments[position]? with
  | some (.literal item) => some item
  | _ => none

/-- The error of a part whose arguments are not what its operator wants. -/
def refused (part : Part) (reason : String) : QueryError :=
  .invalidArgument part.operator.name reason

def requireFunction (part : Part) (position : Nat) (what : String) : Except QueryError Callable :=
  match part.function? position with
  | some f => .ok f
  | none => .error (part.refused ("missing " ++ what))

def requireLiteral (part : Part) (position : Nat) (what : String) : Except QueryError Item :=
  match part.literal? position with
  | some item => .ok item
  | none => .error (part.refused ("missing " ++ what))

def requireInteger (part : Part) (position : Nat) (what : String) : Except QueryError Int := do
  let item ← part.requireLiteral position what
  match item.integer? with
  | some i => return i
  | none => throw (part.refused (what ++ " must be an integer"))

/-- The elements of an array. -/
def requireElements (part : Part) (position : Nat) (what : String) : Except QueryError (List Item) := do
  let item ← part.requireLiteral position what
  match item.elements? with
  | some elements => return elements
  | none => throw (part.refused (what ++ " must be an array, got " ++ item.typeTag.name))

/-- The type that the first argument names. -/
def requireType (part : Part) : Except QueryError TypeTag := do
  let item ← part.requireLiteral 0 "type name"
  match item.string?.bind TypeTag.ofName? with
  | some tag => return tag
  | none => throw (part.refused ("unknown type " ++ item.display))

end Part

end LazyQuery
