import LazyQuery.Item.Basic

/-!
# The order of items

`Item.order` sorts items of all types: null, Booleans, numbers, strings, arrays, objects.  Within a type `false` is below
`true`, `nan` below every other number, strings go by their characters, arrays by their elements and then by length, and
objects are not told apart.
-/

namespace LazyQuery.Item

mutual

def order : Item → Item → Ordering
  | .bool x, .bool y => compare x y
  | .number x, .number y => x.order y
  | .string x, .string y => compare x y
  | .array _ xs, .array _ ys => elementsOrder xs ys
  | a, b => compare a.typeTag.rank b.typeTag.rank

def elementsOrder : List Item → List Item → Ordering
  | [], [] => .eq
  | [], _ :: _ => .lt
  | _ :: _, [] => .gt
  | x :: xs, y :: ys => (order x y).then (elementsOrder xs ys)

end

end LazyQuery.Item
