import LazyQuery.Item.Equality
import LazyQuery.Session

/-!
# Functions in queries

A query is given functions of one or of two items.  Either kind can be called with one argument or with two.

* `Callable.call`, `Callable.call2` — calling with one argument and with two;
* `Callable.test`, `Callable.test2` — the same, the result taken as a Boolean;
* `Equality` — the equalities that operators compare items by, one of them a function's.
-/

namespace LazyQuery

inductive Callable where
  | unary (f : Item → Eff Item)
  | binary (f : Item → Item → Eff Item)

namespace Callable

def predicate (p : Item → Eff Bool) : Callable :=
  .unary fun item => return .bool (← p item)

def comparer (p : Item → Item → Eff Bool) : Callable :=
  .binary fun a b => return .bool (← p a b)

/-- A function of two items gets null as its second. -/
def call : Callable → Item → Eff Item
  | .unary f, item => f item
  | .binary f, item => f item .null

/-- A function of one item ignores the second. -/
def call2 : Callable → Item → Item → Eff Item
  | .unary f, a, _ => f a
  | .binary f, a, b => f a b

def test (f : Callable) (item : Item) : Eff Bool :=
  return (← f.call item).isTruthy

def test2 (f : Callable) (a b : Item) : Eff Bool :=
  return (← f.call2 a b).isTruthy

def description : Callable → String
  | .unary _ => "Callable::Unary(..)"
  | .binary _ => "Callable::Binary(..)"

/-- The item itself where there is no function. -/
def project (selector : Option Callable) (item : Item) : Eff Item :=
  match selector with
  | some f => f.call item
  | none => return item

/-- Every item where there is no function. -/
def accepts (predicate : Option Callable) (item : Item) : Eff Bool :=
  match predicate with
  | some p => p.test item
  | none => return true

end Callable

/-- How an operator compares items. -/
inductive Equality where
  | identity
  | loose
  | structural
  | custom (comparer : Item → Item → Eff Bool)

namespace Equality

def holds : Equality → Item → Item → Eff Bool
  | .identity, a, b => return a.identical b
  | .loose, a, b => return a.looselyEqual b
  | .structural, a, b => return a.structurallyEqual b
  | .custom comparer, a, b => comparer a b

def description : Equality → String
  | .identity => "Identity"
  | .loose => "Loose"
  | .structural => "Structural"
  | .custom _ => "Custom(..)"

end Equality

end LazyQuery
