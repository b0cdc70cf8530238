import LazyQuery.Item.Basic
import LazyQuery.Number.Rounding
import LazyQuery.Number.Text

/-!
# Casting items

* `Item.toNumber?` — the numeric value of a primitive item;
* `Item.castTo?` — the item as one of another type.  An item that has the type already is kept as it is.
-/

namespace LazyQuery.Item

/-- Numbers stand for themselves, Booleans for 0 and 1, strings for the number that they spell. -/
def toNumber? : Item → Option Number
  | .number value => some value
  | .bool value => some (if value then .ofNat 1 else .ofNat 0)
  | .string text => Number.ofText? text
  | _ => none

/-- The item as one of the given type, where a conversion exists: Booleans and strings to numbers, Booleans and numbers to
strings, numbers and strings to Booleans. -/
def castTo? (item : Item) (target : TypeTag) : Option Item :=
  if item.typeTag = target then some item
  else
    match target, item with
    | .number, .bool _ => item.toNumber?.map .number
    | .number, .string _ => item.toNumber?.map .number
    | .string, .bool value => some (.string (if value then "true" else "false"))
    | .string, .number value => some (.string value.plainText)
    | .boolean, .number _ => some (.bool item.isTruthy)
    | .boolean, .string _ => some (.bool item.isTruthy)
    | _, _ => none

end LazyQuery.Item
