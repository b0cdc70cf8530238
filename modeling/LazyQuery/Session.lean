import LazyQuery.Item.Basic

/-!
# Sessions

Work on a query makes new composites, calls functions and asks producers that may report what they do.  A session holds
what is left of that work: the next free reference and the reported events.

* `Eff` — work in a session;
* `newArray`, `newObject` — composites with a reference of their own;
* `report` — an event in the journal.
-/

namespace LazyQuery

structure Session where
  nextRef : Ref := 0
  journal : Array String := #[]

/-- Work in a session. -/
abbrev Eff := StateM Session

def newRef : Eff Ref :=
  modifyGet fun s => (s.nextRef, { s with nextRef := s.nextRef + 1 })

def newArray (elements : List Item) : Eff Item := do
  return .array (← newRef) elements

/-- An object with the given fields, the last value under a key winning. -/
def newObject (fields : List (String × Item)) : Eff Item := do
  return .object (← newRef) (Fields.ofList fields)

def report (event : String) : Eff Unit :=
  modify fun s => { s with journal := s.journal.push event }

end LazyQuery
